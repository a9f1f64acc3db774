import MultitaskOs.Descriptors
import MultitaskOs.FatRead

/-!
# Reading from a descriptor

`fat16_read` reads one item after another from the file position on. It neither
moves the position nor looks at the size of the file.
-/

open Lib Lib.Memory MultitaskOs.PathParser MultitaskOs.Files MultitaskOs.OpenClose MultitaskOs.FatRead MultitaskOs.Tasks
  MultitaskOs.Descriptors

namespace MultitaskOs.FileRead

variable {k k' k1 : Kernel} {c : Int} {item out : Addr} {offset s n t : Nat} {size : BitVec 32}

/-! ## One item after another -/

/-- The clusters of the items up to byte `t` of a request are there. -/
def Served (k : Kernel) (c : Int) (offset s t : Nat) : Prop :=
  ∀ u ≤ t, Reached k c (offset + s * (u / s)) (u % s)

def itemByte (k : Kernel) (c : Int) (offset s t : Nat) : Byte := turnByte k c (offset + s * (t / s)) (t % s)

/-- A buffer of `n` bytes that is none of the entry's. -/
def Clear (item out : Addr) (n : Nat) : Prop := ∀ x, Within item sizeofFatDirectoryItem x → ¬ Within out n x

/-- The bytes of the items, until a cluster is not there, and an error then. -/
structure ReadItems (k : Kernel) (c : Int) (offset s n : Nat) (out : Addr) (k' : Kernel) (res : Int) : Prop where
  stored : ∀ t < s * n, Served k c offset s t → k'.mem (out + BitVec.ofNat 32 t) = itemByte k c offset s t
  kept : ∀ t < s * n, ¬ Served k c offset s t → k'.mem (out + BitVec.ofNat 32 t) = k.mem (out + BitVec.ofNat 32 t)
  success : (∀ t < s * n, Served k c offset s t) → res = 0
  missing : (∃ t < s * n, ¬ Served k c offset s t) → res < 0

theorem served_congr (h : SameDisk k k') : Served k' c offset s t ↔ Served k c offset s t := by
  unfold Served
  simp only [reached_congr h]

theorem itemByte_congr (h : SameDisk k k') : itemByte k' c offset s t = itemByte k c offset s t := turnByte_congr h

theorem served_first (ht : t < s) : Served k c offset s t ↔ Reached k c offset t := by
  constructor
  · intro h
    have := h t le_rfl
    rwa [Nat.div_eq_of_lt ht, Nat.mod_eq_of_lt ht, Nat.mul_zero, Nat.add_zero] at this
  · intro h u hu
    rw [Nat.div_eq_of_lt (by omega), Nat.mod_eq_of_lt (by omega), Nat.mul_zero, Nat.add_zero]
    exact h.mono hu

theorem item_next (hs : 1 ≤ s) (u : Nat) : offset + s * ((s + u) / s) = offset + s + s * (u / s) := by
  rw [Nat.add_div_left _ hs, Nat.mul_succ]
  omega

theorem served_next (hs : 1 ≤ s) :
    Served k c offset s (s + t) ↔ Reached k c offset (s - 1) ∧ Served k c (offset + s) s t := by
  constructor
  · refine fun h => ⟨(served_first (by omega)).mp fun u hu => h u (by omega), fun u hu => ?_⟩
    have := h (s + u) (by omega)
    rwa [item_next hs u, Nat.add_mod_left] at this
  · rintro ⟨h0, h⟩ u hu
    by_cases hlt : u < s
    · exact (served_first (by omega : s - 1 < s)).mpr h0 u (by omega)
    · obtain ⟨v, rfl⟩ := Nat.exists_eq_add_of_le (not_lt.mp hlt)
      rw [item_next hs v, Nat.add_mod_left]
      exact h v (by omega)

theorem itemByte_first (ht : t < s) : itemByte k c offset s t = turnByte k c offset t := by
  unfold itemByte
  rw [Nat.div_eq_of_lt ht, Nat.mod_eq_of_lt ht, Nat.mul_zero, Nat.add_zero]

theorem itemByte_next (hs : 1 ≤ s) : itemByte k c offset s (s + t) = itemByte k c (offset + s) s t := by
  unfold itemByte
  rw [item_next hs t, Nat.add_mod_left]

theorem turns_iff (hspc : 0 < clusterBytes k) (hs : 1 ≤ s) :
    (∀ j, Turn k s j → 0 ≤ chain k c (offset / clusterBytes k + j)) ↔ Reached k c offset (s - 1) := by
  have hturn : ∀ j, Turn k s j ↔ j ≤ (s - 1) / clusterBytes k := by
    intro j
    unfold Turn
    rw [Nat.le_div_iff_mul_le hspc]
    constructor
    · rintro (rfl | h) <;> omega
    · intro h
      omega
  unfold Reached
  simp only [hturn]

theorem firstCluster_agree {m m' : Mem} (h : Agree m m' item sizeofFatDirectoryItem) :
    fat16GetFirstCluster m' item = fat16GetFirstCluster m item := by
  have h20 : Agree m m' (item + 20) 2 := h.sub (by unfold sizeofFatDirectoryItem; bv_omega)
  have h26 : Agree m m' (item + 26) 2 := h.sub (by unfold sizeofFatDirectoryItem; bv_omega)
  unfold fat16GetFirstCluster itemHighFirstCluster itemLowFirstCluster
  rw [h20.load16, h26.load16]

theorem Clear.agree (h : Clear item out n) (hb : OnlyBuffer k k' out n) :
    Agree k.mem k'.mem item sizeofFatDirectoryItem := by
  obtain ⟨m, fs, rfl, -, hm⟩ := hb
  exact fun x hx => hm x (h x hx)

theorem Clear.mono {d : Nat} (h : Clear item out n) (hle : d ≤ n) : Clear item out d := by
  refine fun x hx hw => h x hx ?_
  unfold Within at *
  omega

theorem Clear.next {d : Nat} (h : Clear item out (d + n)) (hlt : d + n < 2 ^ 32) :
    Clear item (out + BitVec.ofNat 32 d) n := by
  refine fun x hx hw => h x hx ?_
  unfold Within at *
  bv_omega

theorem readInternal_spec (hsec : k.disk.sector_size = 512) (hspc : 0 < clusterBytes k) (hfit : Fits k c offset s)
    (out : Addr) : ∃ k' res, fat16ReadInternal k c offset s out = some (k', res) ∧ OnlyBuffer k k' out s ∧
      ReadTurns k c offset s out k' res := by
  obtain ⟨k', res, heq, hturns⟩ := readFromStream_spec hsec hspc (Nat.lt_succ_self s) hfit out
  have hlt := hfit.offsets
  exact ⟨k', res, heq, readInternalFromStream_only (by omega) heq, hturns⟩

theorem readItems_stop {res : Int} (hspc : 0 < clusterBytes k) (hs : 1 ≤ s) (hlt : s + s * n < 2 ^ 32)
    (hbuf : OnlyBuffer k k' out s) (hturns : ReadTurns k c offset s out k' res) (hres : res < 0) :
    ReadItems k c offset s (n + 1) out k' res := by
  have hno : ¬ Reached k c offset (s - 1) := fun h =>
    absurd (hturns.success ((turns_iff hspc hs).mpr h)) (by omega)
  have hbehind : ∀ t, s ≤ t → ¬ Served k c offset s t := by
    intro t ht h
    obtain ⟨v, rfl⟩ := Nat.exists_eq_add_of_le ht
    exact hno ((served_next hs).mp h).1
  refine ⟨fun t ht h => ?_, fun t ht h => ?_, fun h => ?_, fun _ => hres⟩
  · have hfirst : t < s := not_le.mp fun hle => hbehind t hle h
    rw [itemByte_first hfirst]
    exact hturns.stored t hfirst ((served_first hfirst).mp h)
  · by_cases hfirst : t < s
    · exact hturns.kept t hfirst (mt (served_first hfirst).mpr h)
    · obtain ⟨m, fs, rfl, -, hm⟩ := hbuf
      refine hm _ ?_
      rw [Nat.mul_succ] at ht
      unfold Within
      bv_omega
  · have hpos : s ≤ s * (n + 1) := Nat.le_mul_of_pos_right s (Nat.succ_pos n)
    exact absurd (h (s - 1) (by omega)) fun hserved => hno ((served_first (by omega)).mp hserved)

theorem readItems_more {res : Int} (hs : 1 ≤ s) (hlt : s + s * n < 2 ^ 32) (hbuf : OnlyBuffer k k1 out s)
    (hreached : Reached k c offset (s - 1))
    (hfirst : ∀ t < s, k1.mem (out + BitVec.ofNat 32 t) = turnByte k c offset t)
    (hbuf' : OnlyBuffer k1 k' (out + BitVec.ofNat 32 s) (s * n))
    (h : ReadItems k1 c (offset + s) s n (out + BitVec.ofNat 32 s) k' res) :
    ReadItems k c offset s (n + 1) out k' res := by
  have hsame := sameDisk_of_buffer hbuf
  have haddr : ∀ v, out + BitVec.ofNat 32 s + BitVec.ofNat 32 v = out + BitVec.ofNat 32 (s + v) := fun v => by
    rw [BitVec.add_assoc, ← BitVec.ofNat_add]
  have hkeep : ∀ t < s, k'.mem (out + BitVec.ofNat 32 t) = k1.mem (out + BitVec.ofNat 32 t) := by
    intro t ht
    obtain ⟨m, fs, rfl, -, hm⟩ := hbuf'
    refine hm _ ?_
    unfold Within
    bv_omega
  have hserved : ∀ t < s, Served k c offset s t := fun t ht => (served_first ht).mpr (hreached.mono (by omega))
  have hnext : ∀ v, Served k c offset s (s + v) ↔ Served k1 c (offset + s) s v := fun v => by
    rw [served_next hs, and_iff_right hreached, served_congr hsame]
  have hsplit : ∀ t < s * (n + 1), t < s ∨ ∃ v < s * n, t = s + v := by
    intro t ht
    rw [Nat.mul_succ] at ht
    rcases Nat.lt_or_ge t s with hlt | hge
    · exact Or.inl hlt
    · exact Or.inr ⟨t - s, by omega, by omega⟩
  refine ⟨fun t ht hr => ?_, fun t ht hr => ?_, fun hall => ?_, ?_⟩
  · rcases hsplit t ht with hfst | ⟨v, hv, rfl⟩
    · rw [hkeep t hfst, hfirst t hfst, itemByte_first hfst]
    · rw [← haddr, h.stored v hv ((hnext v).mp hr), itemByte_next hs, itemByte_congr hsame]
  · rcases hsplit t ht with hfst | ⟨v, hv, rfl⟩
    · exact absurd (hserved t hfst) hr
    · rw [← haddr, h.kept v hv (mt (hnext v).mpr hr)]
      obtain ⟨m, fs, rfl, -, hm⟩ := hbuf
      refine hm _ ?_
      unfold Within
      bv_omega
  · refine h.success fun v hv => (hnext v).mp (hall (s + v) ?_)
    rw [Nat.mul_succ]
    omega
  · rintro ⟨t, ht, hr⟩
    rcases hsplit t ht with hfst | ⟨v, hv, rfl⟩
    · exact absurd (hserved t hfst) hr
    · exact h.missing ⟨v, hv, mt (hnext v).mpr hr⟩

theorem readLoop_spec (hsec : k.disk.sector_size = 512) (hspc : 0 < clusterBytes k) (hs : 1 ≤ size.toNat)
    (hfit : ∀ i < n, Fits k c (offset + size.toNat * i) size.toNat)
    (hc : fat16GetFirstCluster k.mem item = c) (hclear : Clear item out (size.toNat * n)) :
    ∃ k' res, fat16ReadLoop item size n k offset out = some (k', res) ∧ OnlyBuffer k k' out (size.toNat * n) ∧
      ReadItems k c offset size.toNat n out k' res := by
  induction n generalizing k offset out with
  | zero =>
    refine ⟨k, 0, rfl, OnlyBuffer.refl k out _, ?_⟩
    rw [Nat.mul_zero] at *
    exact ⟨fun t ht => absurd ht (Nat.not_lt_zero t), fun t ht => absurd ht (Nat.not_lt_zero t), fun _ => rfl,
      fun ⟨t, ht, _⟩ => absurd ht (Nat.not_lt_zero t)⟩
  | succ n ih =>
    have hlast := (hfit n (Nat.lt_succ_self n)).offsets
    have hfirst := hfit 0 (Nat.succ_pos n)
    rw [Nat.mul_zero, Nat.add_zero] at hfirst
    have hint : size.toInt = (size.toNat : Int) := by
      have := hfirst.offsets
      exact BitVec.toInt_eq_toNat_of_lt (by omega)
    have hout : out + size = out + BitVec.ofNat 32 size.toNat := by rw [BitVec.ofNat_toNat, BitVec.setWidth_eq]
    obtain ⟨k1, res1, heq, hbuf, hturns⟩ := readInternal_spec hsec hspc hfirst out
    have hsame := sameDisk_of_buffer hbuf
    have hlt : size.toNat + size.toNat * n < 2 ^ 32 := by omega
    rw [Nat.mul_succ, Nat.add_comm] at hclear
    unfold fat16ReadLoop
    rw [hc, hint, heq]
    simp only [Option.bind_eq_bind, Option.bind_some]
    by_cases hres : res1 < 0
    · rw [if_pos hres]
      refine ⟨k1, res1, rfl, hbuf.mono ?_, readItems_stop hspc hs hlt hbuf hturns hres⟩
      exact Nat.le_mul_of_pos_right _ (Nat.succ_pos n)
    · rw [if_neg hres]
      have hreached : Reached k c offset (size.toNat - 1) := by
        refine (turns_iff hspc hs).mp fun j hj => ?_
        by_contra hno
        exact hres (hturns.missing ⟨j, hj, not_le.mp hno⟩)
      have hoff : toInt32 ((offset : Int) + (size.toNat : Int)) = ((offset + size.toNat : Nat) : Int) := by
        have := hfirst.offsets
        rw [toInt32_of_bounds (by omega) (by omega)]
        push_cast
        rfl
      obtain ⟨k', res, heq', hbuf', hitems⟩ := @ih k1 (out + BitVec.ofNat 32 size.toNat) (offset + size.toNat)
        (by rw [hsame.1, hsec])
        (by rw [clusterBytes_congr hsame]; exact hspc)
        (fun i hi => by
          have := (hfit (i + 1) (by omega)).congr hsame
          rwa [Nat.mul_succ, Nat.add_comm (size.toNat * i), ← Nat.add_assoc] at this)
        (by rw [firstCluster_agree ((hclear.mono (by omega)).agree hbuf), hc]) (hclear.next hlt)
      rw [hoff, hout]
      refine ⟨k', res, heq', ?_, readItems_more hs hlt hbuf hreached ?_ hbuf' hitems⟩
      · rw [Nat.mul_succ, Nat.add_comm]
        exact hbuf.append hbuf' hlt
      · exact (hturns.found ((turns_iff hspc hs).mpr hreached)).2

/-! ## A call of `fread` -/

variable {fd : Int} {ptr : Addr} {nmemb : BitVec 32}

/-- The copy of the entry of an open file, its first cluster, and the file position. -/
def entryOf (k : Kernel) (fd : Int) : Addr := copyOf k (fileGetDescriptor k fd)

def startOf (k : Kernel) (fd : Int) : Int := fat16GetFirstCluster k.mem (entryOf k fd)

def filePos (k : Kernel) (fd : Int) : Nat := (posOf k (fileGetDescriptor k fd)).toNat

/-- Of an open file, `n` items of `s` bytes from the file position on, at positions that fit an
`int`. -/
structure Request (k : Kernel) (fd : Int) (s n : Nat) : Prop where
  opened : fileGetDescriptor k fd ≠ 0
  size : 1 ≤ s
  count : 1 ≤ n
  fits : ∀ i < n, Fits k (startOf k fd) (filePos k fd + s * i) s

theorem Request.lt (h : Request k fd s n) : filePos k fd + s * n < 2 ^ 31 := by
  obtain ⟨m, rfl⟩ := Nat.exists_eq_add_of_le' h.count
  have := (h.fits m (Nat.lt_succ_self m)).offsets
  rw [Nat.mul_succ]
  omega

theorem Request.count_lt (h : Request k fd s n) : n < 2 ^ 31 := by
  have := h.lt
  have := Nat.le_mul_of_pos_left n h.size
  omega

theorem Request.fewer {d : Nat} (h : Request k fd s n) (hd : 1 ≤ d) (hle : d ≤ n) : Request k fd s d :=
  ⟨h.opened, h.size, hd, fun i hi => h.fits i (by omega)⟩

theorem fread_spec (hsec : k.disk.sector_size = 512) (hspc : 0 < clusterBytes k)
    (h : Request k fd size.toNat nmemb.toNat) (hclear : Clear (entryOf k fd) ptr (size.toNat * nmemb.toNat)) :
    ∃ k' res, fread k ptr size nmemb fd = some (k', if res < 0 then res else (nmemb.toNat : Int)) ∧
      OnlyBuffer k k' ptr (size.toNat * nmemb.toNat) ∧
      ReadItems k (startOf k fd) (filePos k fd) size.toNat nmemb.toNat ptr k' res := by
  have hlt := h.lt
  have hcount := h.count_lt
  have hpos : (k.fatDescs (k.fileDescs (fileGetDescriptor k fd)).priv).pos.toInt = (filePos k fd : Int) :=
    BitVec.toInt_eq_toNat_of_lt (show 2 * filePos k fd < 2 ^ 32 by omega)
  have hint : nmemb.toInt = (nmemb.toNat : Int) := BitVec.toInt_eq_toNat_of_lt (by omega)
  obtain ⟨k', res, heq, hbuf, hitems⟩ := readLoop_spec hsec hspc h.size h.fits rfl hclear
  refine ⟨k', res, ?_, hbuf, hitems⟩
  have hargs : ¬ (size = 0 ∨ nmemb = 0 ∨ fd < 1) := by
    have h1 := h.size
    have h2 := h.count
    have h3 := h.opened
    rintro (rfl | rfl | hneg)
    · exact absurd h1 (by decide)
    · exact absurd h2 (by decide)
    · exact h3 (if_pos (Or.inl (by omega)))
  have hloop : fat16ReadLoop (k.fatItems (k.fatDescs (k.fileDescs (fileGetDescriptor k fd)).priv).item).item size
      nmemb.toNat k (filePos k fd) ptr = some (k', res) := heq
  unfold fread
  rw [if_neg hargs]
  dsimp only
  rw [if_neg h.opened]
  unfold fat16Read
  dsimp only
  rw [hpos, hloop, hint]
  simp only [Option.bind_eq_bind, Option.bind_some]
  split
  · rfl
  · rfl

theorem request_next {k1 : Kernel} {d : Nat} (h : Request k fd s n) (hbuf : OnlyBuffer k k1 ptr d)
    (hclear : Clear (entryOf k fd) ptr d) :
    Request k1 fd s n ∧ entryOf k1 fd = entryOf k fd ∧ startOf k1 fd = startOf k fd ∧ filePos k1 fd = filePos k fd := by
  have hsame := sameDisk_of_buffer hbuf
  have hstart := firstCluster_agree (hclear.agree hbuf)
  obtain ⟨m, fs, rfl, -, -⟩ := hbuf
  have hstart' : startOf { k with mem := m, fs_private := fs } fd = startOf k fd := hstart
  refine ⟨⟨h.opened, h.size, h.count, fun i hi => ?_⟩, rfl, hstart', rfl⟩
  rw [hstart']
  exact (h.fits i hi).congr hsame

/-! ## An open file -/

/-- The file `A` of 600 bytes once it is open, on a disk where every byte is its place in its sector. -/
def openA : Kernel :=
  ((fopen { volumeA emptyKernel.heap.answer with
      disk := { emptyKernel.disk with sector := fun _ _ i => BitVec.ofNat 8 i } } (cstr pathA) modeR).map (·.1)).getD
    emptyKernel

theorem opened_openA : clusterBytes openA = 512 ∧ startOf openA 1 = 2 ∧ filePos openA 1 = 0 := by decide +kernel

theorem request_openA {n : Nat} (h1 : 1 ≤ n) (hn : n ≤ 512) : Request openA 1 1 n := by
  obtain ⟨hbytes, hstart, hfile⟩ := opened_openA
  refine ⟨by decide +kernel, le_rfl, h1, fun i hi => ?_⟩
  rw [hstart, hfile]
  refine ⟨by omega, fun j hj hc => ?_⟩
  have hj0 : j = 0 := by
    unfold Turn at hj
    rw [hbytes] at hj
    omega
  have hchain : chain openA 2 0 = 2 := by decide +kernel
  have hpos : clusterPos openA 2 = 1024 := by decide +kernel
  subst hj0
  rw [hbytes, Nat.zero_add, Nat.one_mul, Nat.add_zero, Nat.div_eq_of_lt (by omega), hchain, hpos]
  omega

theorem served_openA {n : Nat} (hn : n < 512) : Served openA (startOf openA 1) (filePos openA 1) 1 n := by
  intro u hu j hj
  obtain ⟨hbytes, hstart, hfile⟩ := opened_openA
  have hchain : 0 ≤ chain openA 2 0 := by decide +kernel
  rw [hbytes, Nat.mod_one] at hj
  rw [hstart, hfile, hbytes, Nat.zero_add, Nat.one_mul, Nat.div_one, Nat.div_eq_of_lt (by omega), Nat.zero_add]
  obtain rfl : j = 0 := by omega
  exact hchain

theorem clear_openA {out : Addr} {n : Nat} (h : Apart out n (entryOf openA 1) sizeofFatDirectoryItem) :
    Clear (entryOf openA 1) out n := fun _ hx => h.not_within hx

/-! ## Two calls, one after the other -/

/-- Two calls that follow each other deliver what one call for all their items does. -/
def TwoReads (k : Kernel) (fd : Int) (size n1 n2 : BitVec 32) (a b ab : Addr) : Prop :=
  ∃ k1 k2 k3, fread k a size n1 fd = some (k1, (n1.toNat : Int)) ∧
    fread k1 b size n2 fd = some (k2, (n2.toNat : Int)) ∧
    fread k ab size (n1 + n2) fd = some (k3, ((n1 + n2).toNat : Int)) ∧
    readBytes k1.mem a (size.toNat * n1.toNat) ++ readBytes k2.mem b (size.toNat * n2.toNat) =
      readBytes k3.mem ab (size.toNat * (n1 + n2).toNat)

/-- The items behind the first `n1` hold again what the first `n2` do. -/
def Repeats (k : Kernel) (c : Int) (offset s n1 n2 : Nat) : Prop :=
  ∀ t < s * n2, itemByte k c offset s t = itemByte k c offset s (s * n1 + t)

theorem readBytes_items {res : Int} (h : ReadItems k c offset s n out k' res)
    (hall : ∀ t < s * n, Served k c offset s t) :
    readBytes k'.mem out (s * n) = (List.range (s * n)).map (itemByte k c offset s) := by
  unfold readBytes
  refine List.map_congr_left fun t ht => ?_
  have ht := List.mem_range.mp ht
  exact h.stored t ht (hall t ht)

/-- For every open file with its clusters, position, item size and counts: the two calls deliver what
the one does exactly when the file repeats itself there, as the second starts where the first did. -/
theorem two_reads_iff {n1 n2 : BitVec 32} {a b ab : Addr} (hsec : k.disk.sector_size = 512)
    (hspc : 0 < clusterBytes k) (h1 : 1 ≤ n1.toNat) (h2 : 1 ≤ n2.toNat)
    (h : Request k fd size.toNat (n1.toNat + n2.toNat))
    (hpresent : ∀ t < size.toNat * (n1.toNat + n2.toNat), Served k (startOf k fd) (filePos k fd) size.toNat t)
    (ha : Clear (entryOf k fd) a (size.toNat * n1.toNat)) (hb : Clear (entryOf k fd) b (size.toNat * n2.toNat))
    (hab : Clear (entryOf k fd) ab (size.toNat * (n1.toNat + n2.toNat))) :
    TwoReads k fd size n1 n2 a b ab ↔ Repeats k (startOf k fd) (filePos k fd) size.toNat n1.toNat n2.toNat := by
  have hsum : (n1 + n2).toNat = n1.toNat + n2.toNat := by
    have := h.count_lt
    rw [BitVec.toNat_add, Nat.mod_eq_of_lt (by omega)]
  obtain ⟨k1, r1, hread1, hbuf1, hitems1⟩ := fread_spec hsec hspc (h.fewer h1 (by omega)) ha
  obtain ⟨hreq, hentry, hstart, hpos⟩ := request_next h hbuf1 ha
  have hsame := sameDisk_of_buffer hbuf1
  obtain ⟨k2, r2, hread2, -, hitems2⟩ := fread_spec (by rw [hsame.1, hsec])
    (by rw [clusterBytes_congr hsame]; exact hspc) (hreq.fewer h2 (by omega)) (by rw [hentry]; exact hb)
  have hwhole : Request k fd size.toNat (n1 + n2).toNat := by rwa [hsum]
  obtain ⟨k3, r3, hread3, -, hitems3⟩ := fread_spec hsec hspc hwhole (by rw [hsum]; exact hab)
  rw [hstart, hpos] at hitems2
  rw [hsum] at hitems3
  have hall1 : ∀ t < size.toNat * n1.toNat, Served k (startOf k fd) (filePos k fd) size.toNat t := fun t ht =>
    hpresent t (by rw [Nat.mul_add]; omega)
  have hall2 : ∀ t < size.toNat * n2.toNat, Served k1 (startOf k fd) (filePos k fd) size.toNat t := fun t ht =>
    (served_congr hsame).mpr (hpresent t (by rw [Nat.mul_add]; omega))
  rw [if_neg (by rw [hitems1.success hall1]; decide)] at hread1
  rw [if_neg (by rw [hitems2.success hall2]; decide)] at hread2
  rw [if_neg (by rw [hitems3.success hpresent]; decide)] at hread3
  have hbytes : readBytes k1.mem a (size.toNat * n1.toNat) ++ readBytes k2.mem b (size.toNat * n2.toNat) =
      readBytes k3.mem ab (size.toNat * (n1 + n2).toNat) ↔
        Repeats k (startOf k fd) (filePos k fd) size.toNat n1.toNat n2.toNat := by
    rw [hsum, readBytes_items hitems1 hall1, readBytes_items hitems2 hall2, readBytes_items hitems3 hpresent,
      Nat.mul_add, List.range_add, List.map_append, List.append_cancel_left_eq, List.map_map, List.map_inj_left]
    unfold Repeats
    simp only [List.mem_range, itemByte_congr hsame, Function.comp_apply]
  constructor
  · rintro ⟨j1, j2, j3, e1, e2, e3, heq⟩
    rw [hread1] at e1
    cases e1
    rw [hread2] at e2
    cases e2
    rw [hread3] at e3
    cases e3
    exact hbytes.mp heq
  · exact fun hrep => ⟨k1, k2, k3, hread1, hread2, hread3, hbytes.mpr hrep⟩

theorem two_reads_openA : TwoReads openA 1 1 1 1 0 1 2 ↔ Repeats openA (startOf openA 1) (filePos openA 1) 1 1 1 :=
  two_reads_iff (by decide +kernel) (by decide +kernel) le_rfl le_rfl (request_openA (by decide) (by decide))
    (fun _ ht => served_openA (ht.trans (by decide))) (clear_openA (by decide +kernel))
    (clear_openA (by decide +kernel)) (clear_openA (by decide +kernel))

/-- The second byte that is read is the first again. -/
theorem second_read_starts_over : ¬ TwoReads openA 1 1 1 1 0 1 2 := by
  have h12 : ((fread openA 0 1 1 1).bind fun r => fread r.1 1 1 1 1).map (fun r => r.1.mem 1) = some 0 := by
    decide +kernel
  have h3 : (fread openA 2 1 2 1).map (fun r => r.1.mem 3) = some 1 := by decide +kernel
  rintro ⟨k1, k2, k3, hread1, hread2, hread3, heq⟩
  have hsum : (1 : BitVec 32) + 1 = 2 := by decide
  rw [hsum] at hread3
  rw [hread1, Option.bind_some, hread2, Option.map_some, Option.some.injEq] at h12
  rw [hread3, Option.map_some, Option.some.injEq] at h3
  have hlast := congrArg (fun bs => bs.getD 1 0) heq
  have hleft : (readBytes k1.mem 0 1 ++ readBytes k2.mem 1 1).getD 1 0 = k2.mem 1 := by simp [readBytes]
  have hright : (readBytes k3.mem 2 2).getD 1 0 = k3.mem 3 := by simp [readBytes, List.range_succ]
  exact absurd ((hleft.symm.trans (hlast.trans hright)).symm.trans h12) (by rw [h3]; decide)

/-! ## The end of the file -/

def fileBytes (k : Kernel) (fd : Int) : Nat := (itemFilesize k.mem (entryOf k fd)).toNat

/-- The call stores to `x`: for some byte that is there, another is there afterwards. -/
def StoresTo (call : Kernel → Option (Kernel × Int)) (k : Kernel) (x : Addr) : Prop :=
  ∃ v k' res, call { k with mem := Function.update k.mem x v } = some (k', res) ∧ k'.mem x ≠ v

/-- Nothing behind the end of the file is stored or counted. -/
structure EndsWithFile (k : Kernel) (fd : Int) (size nmemb : BitVec 32) (ptr : Addr) : Prop where
  stores : ∀ t < size.toNat * nmemb.toNat, fileBytes k fd ≤ filePos k fd + t →
    ¬ StoresTo (fread · ptr size nmemb fd) k (ptr + BitVec.ofNat 32 t)
  count : ∀ k' res, fread k ptr size nmemb fd = some (k', res) → 0 ≤ res →
    (filePos k fd : Int) + res * size.toNat ≤ fileBytes k fd

theorem fread_over {kv : Kernel} (hsec : k.disk.sector_size = 512) (hspc : 0 < clusterBytes k)
    (h : Request k fd size.toNat nmemb.toNat) (hclear : Clear (entryOf k fd) ptr (size.toNat * nmemb.toNat))
    (hbuf : OnlyBuffer k kv ptr (size.toNat * nmemb.toNat)) (ht : t < size.toNat * nmemb.toNat) :
    ∃ k' res, fread kv ptr size nmemb fd = some (k', res) ∧
      (Served k (startOf k fd) (filePos k fd) size.toNat t →
        k'.mem (ptr + BitVec.ofNat 32 t) = itemByte k (startOf k fd) (filePos k fd) size.toNat t) ∧
      (¬ Served k (startOf k fd) (filePos k fd) size.toNat t →
        k'.mem (ptr + BitVec.ofNat 32 t) = kv.mem (ptr + BitVec.ofNat 32 t)) := by
  have hsame := sameDisk_of_buffer hbuf
  obtain ⟨hreq, hentry, hstart, hpos⟩ := request_next h hbuf hclear
  obtain ⟨k', res, hread, -, hitems⟩ := fread_spec (by rw [hsame.1, hsec])
    (by rw [clusterBytes_congr hsame]; exact hspc) hreq (by rw [hentry]; exact hclear)
  rw [hstart, hpos] at hitems
  refine ⟨k', _, hread, fun hs => ?_, fun hs => ?_⟩
  · rw [hitems.stored t ht ((served_congr hsame).mpr hs), itemByte_congr hsame]
  · exact hitems.kept t ht (mt (served_congr hsame).mp hs)

theorem storesTo_iff (hsec : k.disk.sector_size = 512) (hspc : 0 < clusterBytes k)
    (h : Request k fd size.toNat nmemb.toNat) (hclear : Clear (entryOf k fd) ptr (size.toNat * nmemb.toNat))
    (ht : t < size.toNat * nmemb.toNat) :
    StoresTo (fread · ptr size nmemb fd) k (ptr + BitVec.ofNat 32 t) ↔
      Served k (startOf k fd) (filePos k fd) size.toNat t := by
  have hlt := h.lt
  have hbuf : ∀ v, OnlyBuffer k { k with mem := Function.update k.mem (ptr + BitVec.ofNat 32 t) v } ptr
      (size.toNat * nmemb.toNat) := by
    refine fun v => ⟨_, k.fs_private, rfl, ⟨rfl, rfl⟩, fun x hx => Function.update_of_ne ?_ _ _⟩
    rintro rfl
    apply hx
    unfold Within
    bv_omega
  constructor
  · rintro ⟨v, k', res, hread, hne⟩
    obtain ⟨j, r, hread', -, hkept⟩ := fread_over hsec hspc h hclear (hbuf v) ht
    dsimp only at hread
    rw [hread'] at hread
    cases hread
    by_contra hs
    exact hne ((hkept hs).trans (Function.update_self _ _ _))
  · intro hs
    obtain ⟨k', res, hread, hstored, -⟩ := fread_over hsec hspc h hclear
      (hbuf (itemByte k (startOf k fd) (filePos k fd) size.toNat t + 1)) ht
    refine ⟨_, k', res, hread, ?_⟩
    rw [hstored hs]
    bv_omega

/-- For every open file, position, item size and count: the read ends with the file exactly when the
request does, or a cluster before its first byte behind the file is not there. -/
theorem ends_with_file_iff (hsec : k.disk.sector_size = 512) (hspc : 0 < clusterBytes k)
    (h : Request k fd size.toNat nmemb.toNat) (hclear : Clear (entryOf k fd) ptr (size.toNat * nmemb.toNat)) :
    EndsWithFile k fd size nmemb ptr ↔ ∀ t < size.toNat * nmemb.toNat, fileBytes k fd ≤ filePos k fd + t →
      ¬ Served k (startOf k fd) (filePos k fd) size.toNat t := by
  constructor
  · exact fun hends t ht hle hs => hends.stores t ht hle ((storesTo_iff hsec hspc h hclear ht).mpr hs)
  · intro hno
    refine ⟨fun t ht hle => mt (storesTo_iff hsec hspc h hclear ht).mp (hno t ht hle), fun k' res hread hres => ?_⟩
    obtain ⟨j, r, hread', -, hitems⟩ := fread_spec hsec hspc h hclear
    rw [hread'] at hread
    cases hread
    have hr : ¬ r < 0 := by
      intro hneg
      rw [if_pos hneg] at hres
      omega
    rw [if_neg hr]
    have hall : ∀ t < size.toNat * nmemb.toNat, Served k (startOf k fd) (filePos k fd) size.toNat t := by
      intro t ht
      by_contra hs
      exact hr (hitems.missing ⟨t, ht, hs⟩)
    have hpos : 0 < size.toNat * nmemb.toNat := Nat.mul_pos h.size h.count
    by_contra hgt
    refine hno (size.toNat * nmemb.toNat - 1) (by omega) ?_ (hall _ (by omega))
    have hmul : ((nmemb.toNat : Int)) * size.toNat = ((size.toNat * nmemb.toNat : Nat) : Int) := by
      push_cast
      ring
    rw [hmul] at hgt
    omega

theorem ends_with_file_openA :
    EndsWithFile openA 1 1 100 0 ↔ ∀ t < 1 * 100, fileBytes openA 1 ≤ filePos openA 1 + t →
      ¬ Served openA (startOf openA 1) (filePos openA 1) 1 t :=
  ends_with_file_iff (by decide +kernel) (by decide +kernel)
    (request_openA (by decide) (by decide)) (clear_openA (by decide +kernel))

/-- Of a file of 600 bytes, 1024 are read. -/
theorem slack_is_read : fileBytes openA 1 = 600 ∧ ¬ EndsWithFile openA 1 1024 1 0 := by
  have hsize : fileBytes openA 1 = 600 := by decide +kernel
  have h : (fread openA 0 1024 1 1).map (·.2) = some 1 := by decide +kernel
  refine ⟨hsize, fun hends => ?_⟩
  obtain ⟨⟨k', res⟩, hread, hres⟩ := Option.map_eq_some_iff.mp h
  obtain rfl : res = 1 := hres
  have hcount := hends.count k' 1 hread (by decide)
  rw [hsize, opened_openA.2.2] at hcount
  exact absurd hcount (by decide)

end MultitaskOs.FileRead
