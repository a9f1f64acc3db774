import MultitaskOs.Code.Copy
import MultitaskOs.ProcessMemory

/-!
# Copying a string out of a task

`copy_string_from_task` lends the task the page of a block of the kernel's, for
as long as it copies. The page may be one where the task has its string.
-/

open Lib Lib.Memory Lib.Arena Lib.CString MultitaskOs.Paging MultitaskOs.ProcessMemory

namespace MultitaskOs.CopyString

/-- The memory as a program with this directory sees it. -/
def userMemory (directory : Addr) (m : Mem) : Mem := fun a => m (userPages directory m a)

/-- The string that `u` names in the directory `d`, cut to `max - 1` bytes. -/
def named (k : Kernel) (d : PageDir) (u : Addr) (max : Int) : List Byte :=
  textAt (userMemory d.directory k.mem) u (max - 1).toNat

/-- A call for a task with the directory `d`: its string is in memory in use that holds none of the
tables, and the buffer is memory that serves nothing else. -/
structure CopyCall (k : Kernel) (d : PageDir) (task u phys : Addr) (max : Int) : Prop where
  directory : (k.tasks task).page_directory = d.chunk
  inMem : d.In k.toKmem
  one_le : 1 ≤ max
  small : max < 4096
  owned : ∀ j ≤ (named k d u max).length, j < (max - 1).toNat → ∃ b ∈ k.heap.live, b.base ∉ d.blocks ∧
    Within b.base (extent blockSize b.size) (userPages d.directory k.mem (u + BitVec.ofNat 32 j))
  buffer : ∀ b ∈ d.blocks, Apart b 4096 phys max.toNat
  fresh : (kzalloc k.toKmem max.toNat).2 ≠ 0 → Apart (kzalloc k.toKmem max.toNat).2 4096 phys max.toNat

/-- What a call should do: the buffer holds the string, the directory is as it was, and so is the
heap. -/
structure Copied (k : Kernel) (d : PageDir) (task u phys : Addr) (max : Int) : Prop where
  string : (copyStringFromTask k task u phys max).2 = 0 →
    At (copyStringFromTask k task u phys max).1.mem phys (named k d u max)
  entries : ∀ v < 2 ^ 20, d.entry (copyStringFromTask k task u phys max).1.mem v = d.entry k.mem v
  freed : (copyStringFromTask k task u phys max).1.heap.live = k.heap.live

/-- Each byte of the string `s` at `u` that lies on the page of the new block is what the block
holds there when the bytes before it are copied. -/
def Undisturbed (k : Kernel) (u : Addr) (max : Int) (s : List Byte) : Prop :=
  (kzalloc k.toKmem max.toNat).2 ≠ 0 → ∀ j ≤ s.length, j < (max - 1).toNat →
    (u + BitVec.ofNat 32 j).toNat / 4096 = (kzalloc k.toKmem max.toNat).2.toNat / 4096 →
      storeBytes (kzalloc k.toKmem max.toNat).1.mem (kzalloc k.toKmem max.toNat).2 (s.take j)
        (u + BitVec.ofNat 32 j) = s.getD j 0

variable {k : Kernel} {k1 : Kmem} {d : PageDir} {task u phys tmp a : Addr} {max : Int} {s t : List Byte} {m m' m2 : Mem}

theorem at_of_named (h : named k d u max = s) (hlen : s.length < (max - 1).toNat) :
    At (userMemory d.directory k.mem) u s := by
  have hat := at_textAt (h.symm ▸ hlen : (named k d u max).length < (max - 1).toNat)
  rwa [← named, h] at hat

/-! ## What the processor sees -/

theorem userPages_spec (h : d.Holds m) (a : Addr) :
    userPages d.directory m a = tableAddress (d.entry m (a.toNat / 4096)) + a % 4096 :=
  pagingGetPhysicalAddress_spec h a

theorem add_mod_page (htmp : tmp.toNat % 4096 = 0) (ha : a.toNat / 4096 = tmp.toNat / 4096) : tmp + a % 4096 = a := by
  have h := toNat_umod_page a
  generalize a % 4096 = r at *
  bv_omega

/-- The directory of `m`, in `m'`, while the task is lent the block at `tmp`. -/
structure Lent (d : PageDir) (m m' : Mem) (tmp : Addr) : Prop where
  holds : d.Holds m'
  entry : ∀ v < 2 ^ 20, d.entry m' v = if v = tmp.toNat / 4096 then tmp ||| pagingUserWriteable else d.entry m v

theorem lent_map (h : d.Holds m) (htmp : tmp.toNat % 4096 = 0) :
    ∃ m', pagingMap m d.chunk tmp tmp (pagingIsWriteable ||| pagingIsPresent ||| pagingAccessFromAll) = (m', 0) ∧
      Lent d m m' tmp ∧ ∀ x, (∀ i < 1024, ¬ Within (d.table i) 4096 x) → m' x = m x := by
  obtain ⟨m', hmap, hr⟩ := pagingMap_spec h htmp htmp
    (pagingIsWriteable ||| pagingIsPresent ||| pagingAccessFromAll)
  refine ⟨m', hmap, ⟨hr.holds, fun v hv => ?_⟩, hr.outside⟩
  rw [hr.entry v hv]
  split <;> rfl

theorem Lent.here (h : Lent d m m' tmp) (htmp : tmp.toNat % 4096 = 0) (ha : a.toNat / 4096 = tmp.toNat / 4096) :
    userPages d.directory m' a = a := by
  rw [userPages_spec h.holds, h.entry _ (by omega), if_pos ha, tableAddress_or htmp (by decide)]
  exact add_mod_page htmp ha

theorem Lent.elsewhere (h : Lent d m m' tmp) (hm : d.Holds m) (ha : a.toNat / 4096 ≠ tmp.toNat / 4096) :
    userPages d.directory m' a = userPages d.directory m a := by
  rw [userPages_spec h.holds, userPages_spec hm, h.entry _ (by omega), if_neg ha]

theorem agree_storeBytes {b : Addr} {n w : Nat} (hap : Apart a n b w) (hlen : s.length ≤ n) :
    Agree m (storeBytes m a s) b w := by
  intro x hx
  refine storeBytes_of_not_within fun hw => hap.not_within hx ?_
  unfold Within at *
  omega

theorem Lent.store (h : Lent d m m' tmp) (hout : ∀ b ∈ d.blocks, Apart tmp 4096 b 4096) (hlen : s.length ≤ 4096) :
    Lent d m (storeBytes m' tmp s) tmp := by
  have hag : ∀ b ∈ d.blocks, Agree m' (storeBytes m' tmp s) b 4096 := fun b hb => agree_storeBytes (hout b hb) hlen
  refine ⟨h.holds.frame hag, fun v hv => ?_⟩
  rw [PageDir.entry_frame hag hv, h.entry v hv]

/-! ## The call -/

/-- A call as far as the kernel has a say in it: nothing is said of the address. -/
structure CopyRequest (k : Kernel) (d : PageDir) (task phys : Addr) (max : Int) : Prop where
  directory : (k.tasks task).page_directory = d.chunk
  inMem : d.In k.toKmem
  one_le : 1 ≤ max
  small : max < 4096
  buffer : ∀ b ∈ d.blocks, Apart b 4096 phys max.toNat
  fresh : (kzalloc k.toKmem max.toNat).2 ≠ 0 → Apart (kzalloc k.toKmem max.toNat).2 4096 phys max.toNat

theorem CopyCall.request (h : CopyCall k d task u phys max) : CopyRequest k d task phys max :=
  ⟨h.directory, h.inMem, h.one_le, h.small, h.buffer, h.fresh⟩

theorem CopyRequest.toNat_max (h : CopyRequest k d task phys max) : (BitVec.ofInt 32 max).toNat = max.toNat := by
  have hone := h.one_le
  have hsmall := h.small
  obtain ⟨w, rfl⟩ := Int.eq_ofNat_of_zero_le (by omega : 0 ≤ max)
  rw [BitVec.ofInt_natCast, BitVec.toNat_ofNat, Int.toNat_natCast]
  omega

theorem blocks_apart {w : Nat} (hd : d.In k.toKmem) (hf : Fresh k.toKmem k1 tmp w) :
    ∀ b ∈ d.blocks, Apart tmp 4096 b 4096 := by
  intro b hb
  refine pages_apart (Kmem.live_aligned hf.isLive) (d.aligned b hb) ?_
  rintro rfl
  exact hf.not_live (hd.live _ hb)

theorem table_bytes (h : ∀ v < 2 ^ 20, d.entry m' v = d.entry m v) {i : Nat} (hi : i < 1024) {x : Addr}
    (hx : Within (d.table i) 4096 x) : m' x = m x := by
  unfold Within at hx
  have he := h (1024 * i + (x - d.table i).toNat / 4) (by omega)
  have hslot : d.slot (1024 * i + (x - d.table i).toNat / 4) =
      d.table i + BitVec.ofNat 32 (4 * ((x - d.table i).toNat / 4)) := by
    rw [PageDir.slot, index32, show (1024 * i + (x - d.table i).toNat / 4) / 1024 = i by omega,
      show (1024 * i + (x - d.table i).toNat / 4) % 1024 = (x - d.table i).toNat / 4 by omega]
  rw [PageDir.entry, PageDir.entry, hslot] at he
  generalize hj : (x - d.table i).toNat / 4 = j at he
  obtain ⟨h0, h1, h2, h3⟩ := bytes_load32 m (d.table i + BitVec.ofNat 32 (4 * j))
  obtain ⟨h0', h1', h2', h3'⟩ := bytes_load32 m' (d.table i + BitVec.ofNat 32 (4 * j))
  have hcases : x = d.table i + BitVec.ofNat 32 (4 * j) ∨ x = d.table i + BitVec.ofNat 32 (4 * j) + 1 ∨
      x = d.table i + BitVec.ofNat 32 (4 * j) + 2 ∨ x = d.table i + BitVec.ofNat 32 (4 * j) + 3 := by
    bv_omega
  rcases hcases with rfl | rfl | rfl | rfl
  · rw [h0', h0, he]
  · rw [h1', h1, he]
  · rw [h2', h2, he]
  · rw [h3', h3, he]

/-- What the copy reads in the task's pages. -/
def userByte (d : PageDir) (u : Addr) (m : Mem) (i : Nat) : Byte := userMemory d.directory m (u + BitVec.ofNat 32 i)

def userPlace (d : PageDir) (dest : Addr) (m : Mem) (i : Nat) : Addr :=
  userPages d.directory m (dest + BitVec.ofNat 32 i)

/-- A call that got its block at `tmp`: `s` is what it found at `u` meanwhile. -/
structure Done (k : Kernel) (k1 : Kmem) (d : PageDir) (u phys tmp : Addr) (max : Int) (k' : Kernel) (s : List Byte) :
    Prop where
  found : ∃ m2, Lent d k1.mem m2 tmp ∧ (∀ x, (∀ i < 1024, ¬ Within (d.table i) 4096 x) → m2 x = k1.mem x) ∧
    Reads (userByte d u) m2 tmp (max - 1).toNat s
  string : At k'.mem phys s
  entries : ∀ v < 2 ^ 20, d.entry k'.mem v = d.entry k1.mem v
  heap : k'.heap = k1.heap.free tmp
  bytes : ∀ x, ¬ Within tmp 4096 x → ¬ Within phys max.toNat x → k'.mem x = k1.mem x
  only : ∃ m, k' = { k with toKmem := m }

theorem Lent.copy (h : Lent d m m2 tmp) (htmp : tmp.toNat % 4096 = 0) (hout : ∀ b ∈ d.blocks, Apart tmp 4096 b 4096)
    (hone : 1 ≤ max) (hsmall : max < 4096) (u : Addr) : ∃ s, Reads (userByte d u) m2 tmp (max - 1).toNat s ∧
      strncpyMem (userPages d.directory) m2 tmp u max = storeBytes m2 tmp (s ++ [0]) := by
  have hnear : ∀ i < 4096, (tmp + BitVec.ofNat 32 i).toNat / 4096 = tmp.toNat / 4096 := by
    intro i hi
    have hlt := tmp.isLt
    rw [BitVec.toNat_add, BitVec.toNat_ofNat]
    omega
  have hplace : ∀ p : List Byte, p.length ≤ (max - 1).toNat →
      userPlace d tmp (storeBytes m2 tmp p) p.length = tmp + BitVec.ofNat 32 p.length :=
    fun p hp => (h.store hout (by omega)).here htmp (hnear _ (by omega))
  exact copyLoop_spec (userByte d u) (by omega) hplace

/-- The memory when the loan is over: the block holds `s`, and the rest is as in `m`. -/
structure Repaid (d : PageDir) (m m' : Mem) (tmp : Addr) (s : List Byte) : Prop where
  entries : ∀ v < 2 ^ 20, d.entry m' v = d.entry m v
  string : At m' tmp s
  rest : ∀ x, ¬ Within tmp 4096 x → m' x = m x

theorem Lent.repay (h : Lent d m m2 tmp) (htmp : tmp.toNat % 4096 = 0) (hout : ∀ b ∈ d.blocks, Apart tmp 4096 b 4096)
    (hsame : ∀ x, (∀ i < 1024, ¬ Within (d.table i) 4096 x) → m2 x = m x) (hs : 0 ∉ s) (hlen : s.length < 4096) :
    ∃ m', pagingSet (storeBytes m2 tmp (s ++ [0])) d.directory tmp (d.entry m (tmp.toNat / 4096)) = (m', 0) ∧
      Repaid d m m' tmp s := by
  have hq : tmp.toNat / 4096 < 2 ^ 20 := by omega
  have hlent : Lent d m (storeBytes m2 tmp (s ++ [0])) tmp := h.store hout (by simp; omega)
  have hat : At (storeBytes m2 tmp (s ++ [0])) tmp s := at_storeBytes hs (by omega)
  have hentry : ∀ v < 2 ^ 20, d.entry (store32 (storeBytes m2 tmp (s ++ [0])) (d.slot (tmp.toNat / 4096))
      (d.entry m (tmp.toNat / 4096))) v = d.entry m v := by
    intro v hv
    rw [PageDir.entry_set hq hv]
    split
    · rename_i he
      rw [he]
    · rename_i hne
      rw [hlent.entry v hv, if_neg hne]
  have hpage : Agree (storeBytes m2 tmp (s ++ [0])) (store32 (storeBytes m2 tmp (s ++ [0])) (d.slot (tmp.toNat / 4096))
      (d.entry m (tmp.toNat / 4096))) tmp 4096 := by
    refine agree_store32 (PageDir.slot_apart_page hq htmp fun i hi he => ?_)
    have hself : Within tmp 4096 tmp := by
      unfold Within
      simp
    exact (hout _ (PageDir.table_mem hi)).not_within (he ▸ hself) hself
  refine ⟨_, pagingSet_spec hlent.holds htmp _, hentry, hat.agree (hpage.sub (by simp; omega)) (by omega),
    fun x hx => ?_⟩
  by_cases htable : ∃ i < 1024, Within (d.table i) 4096 x
  · obtain ⟨i, hi, hin⟩ := htable
    exact table_bytes hentry hi hin
  · push Not at htable
    have hnot : ¬ Within tmp (s ++ [0]).length x := by
      intro hw
      apply hx
      unfold Within at *
      rw [List.length_append, List.length_singleton] at hw
      omega
    rw [store32_of_not_within, storeBytes_of_not_within hnot, hsame x htable]
    exact PageDir.not_within_slot hq htable

theorem buffer_copy (hat : At m tmp s) (hlen : s.length ≤ (max - 1).toNat) (hone : 1 ≤ max) (hsmall : max < 4096)
    (hap : Apart tmp 4096 phys max.toNat) :
    strncpyMem kernelPages m phys tmp max = storeBytes m phys (s ++ [0]) := by
  rw [strncpyMem_apart (by omega), hat.textAt, List.take_of_length_le hlen]
  intro i hi _
  have hin : Within tmp 4096 (tmp + BitVec.ofNat 32 i) := by
    unfold Within
    bv_omega
  have hnot := hap.symm.not_within hin
  unfold Within at hnot ⊢
  omega

theorem copyStringFromTask_done (h : CopyRequest k d task phys max) (hz : kzalloc k.toKmem max.toNat = (k1, tmp))
    (h0 : tmp ≠ 0) :
    ∃ s, (copyStringFromTask k task u phys max).2 = 0 ∧
      Done k k1 d u phys tmp max (copyStringFromTask k task u phys max).1 s := by
  have hf := fresh_of_eq hz h0
  have hone := h.one_le
  have hsmall := h.small
  have hd1 := h.inMem.keeps hf.keeps
  have htmp : tmp.toNat % 4096 = 0 := Kmem.live_aligned hf.isLive
  have hout := blocks_apart h.inMem hf
  obtain ⟨m2, hmap, hlent, hsame⟩ := lent_map hd1.holds htmp
  obtain ⟨s, hreads, hcopy⟩ := hlent.copy htmp hout hone hsmall u
  have hlen := hreads.length_le
  obtain ⟨m4, hset, hrepaid⟩ := hlent.repay htmp hout hsame hreads.noNul (by omega)
  have hfresh : Apart tmp 4096 phys max.toNat := by
    have hap := h.fresh
    rw [hz] at hap
    exact hap h0
  have hbuffer := buffer_copy hrepaid.string hlen hone hsmall hfresh
  have heq : copyStringFromTask k task u phys max =
      ({ k with toKmem := kfree { k1 with mem := storeBytes m4 phys (s ++ [0]) } tmp }, 0) := by
    rw [copyStringFromTask, if_neg (by unfold pagingPageSize; omega), h.toNat_max, Kernel.onKmem_eq hz]
    dsimp only
    rw [if_neg h0, h.directory, hd1.holds.chunk, pagingGet_spec hd1.holds htmp, hmap]
    dsimp only
    rw [hlent.holds.chunk, hcopy, hset]
    dsimp only
    rw [if_neg (by decide), hbuffer]
    rfl
  rw [heq]
  refine ⟨s, rfl, ⟨m2, hlent, hsame, hreads⟩, at_storeBytes hreads.noNul (by omega), fun v hv => ?_, rfl,
    fun x htmp hphys => ?_, ⟨_, rfl⟩⟩
  · rw [← hrepaid.entries v hv]
    refine PageDir.entry_frame (fun b hb => ?_) hv
    exact agree_storeBytes (h.buffer b hb).symm (by simp; omega)
  · rw [← hrepaid.rest x htmp]
    refine storeBytes_of_not_within fun hw => hphys ?_
    unfold Within at *
    rw [List.length_append, List.length_singleton] at hw
    omega

/-! ## When it copies the string -/

theorem storeBytes_congr {x : Addr} (h : m' x = m x) : storeBytes m' a s x = storeBytes m a s x := by
  unfold storeBytes
  rw [h]

theorem userByte_elsewhere {j : Nat} (h : CopyCall k d task u phys max) (hf : Fresh k.toKmem k1 tmp max.toNat)
    (hlent : Lent d k1.mem m' tmp)
    (hsame : ∀ x, (∀ i < 1024, ¬ Within (d.table i) 4096 x) → ¬ Within tmp 4096 x → m' x = k1.mem x)
    (hj : j ≤ (named k d u max).length) (hn : j < (max - 1).toNat)
    (hpage : (u + BitVec.ofNat 32 j).toNat / 4096 ≠ tmp.toNat / 4096) :
    userByte d u m' j = (named k d u max).getD j 0 := by
  have hd1 := h.inMem.keeps hf.keeps
  obtain ⟨b, hb, hnt, hin⟩ := h.owned j hj hn
  have hx : userPages d.directory m' (u + BitVec.ofNat 32 j) = userPages d.directory k.mem (u + BitVec.ofNat 32 j) := by
    rw [hlent.elsewhere hd1.holds hpage, userPages_spec hd1.holds, userPages_spec h.inMem.holds,
      h.inMem.entry_keeps hf.keeps (by omega)]
  rw [named, textAt_getD hj hn, userByte, userMemory, userMemory, hx]
  have hpages : ∀ c, k1.heap.Live c → c ≠ b.base →
      ¬ Within c 4096 (userPages d.directory k.mem (u + BitVec.ofNat 32 j)) := by
    rintro c ⟨w, hc⟩ hne hw
    refine (Kmem.live_apart hc (hf.keeps.live b hb) hne).not_within hin ?_
    have hle : 4096 ≤ extent blockSize w := le_extent w
    unfold Within at *
    dsimp only
    omega
  rw [hsame]
  · exact hf.keeps.bytes b hb _ hin
  · exact fun i hi => hpages _ (hd1.live _ (PageDir.table_mem hi)) fun he => hnt (he ▸ PageDir.table_mem hi)
  · exact hpages _ hf.isLive fun he => hf.not_live (he ▸ ⟨b.size, hb⟩)

theorem reads_named_iff (h : CopyCall k d task u phys max) (hz : kzalloc k.toKmem max.toNat = (k1, tmp)) (h0 : tmp ≠ 0)
    (hlent : Lent d k1.mem m2 tmp) (hsame : ∀ x, (∀ i < 1024, ¬ Within (d.table i) 4096 x) → m2 x = k1.mem x) :
    Reads (userByte d u) m2 tmp (max - 1).toNat (named k d u max) ↔ Undisturbed k u max (named k d u max) := by
  have hf := fresh_of_eq hz h0
  have htmp : tmp.toNat % 4096 = 0 := Kmem.live_aligned hf.isLive
  have hsmall := h.small
  have hlen : (named k d u max).length ≤ (max - 1).toNat := length_textAt_le _ _ _
  have hout := blocks_apart h.inMem hf
  rw [reads_iff hlen (textAt_noNul _ _ _), Undisturbed, hz]
  have hbyte : ∀ j ≤ (named k d u max).length, j < (max - 1).toNat →
      (userByte d u (storeBytes m2 tmp ((named k d u max).take j)) j = (named k d u max).getD j 0 ↔
        ((u + BitVec.ofNat 32 j).toNat / 4096 = tmp.toNat / 4096 →
          storeBytes k1.mem tmp ((named k d u max).take j) (u + BitVec.ofNat 32 j) = (named k d u max).getD j 0)) := by
    intro j hj hn
    have hlent' : Lent d k1.mem (storeBytes m2 tmp ((named k d u max).take j)) tmp :=
      hlent.store hout (by rw [List.length_take]; omega)
    by_cases hpage : (u + BitVec.ofNat 32 j).toNat / 4096 = tmp.toNat / 4096
    · have hin : Within tmp 4096 (u + BitVec.ofNat 32 j) := by
        unfold Within
        bv_omega
      have hmem : m2 (u + BitVec.ofNat 32 j) = k1.mem (u + BitVec.ofNat 32 j) :=
        hsame _ fun i hi => (hout _ (PageDir.table_mem hi)).symm.not_within hin
      rw [userByte, userMemory, hlent'.here htmp hpage, storeBytes_congr hmem]
      exact ⟨fun he _ => he, fun he => he hpage⟩
    · refine iff_of_true ?_ fun he => absurd he hpage
      refine userByte_elsewhere h hf hlent' (fun x hx hnw => ?_) hj hn hpage
      rw [storeBytes_of_not_within, hsame x hx]
      refine fun hw => hnw ?_
      unfold Within at *
      rw [List.length_take] at hw
      omega
  constructor
  · exact fun hr _ j hj hn => (hbyte j hj hn).mp (hr j hj hn)
  · exact fun hu j hj hn => (hbyte j hj hn).mpr (hu h0 j hj hn)

theorem copyStringFromTask_refused (h : CopyRequest k d task phys max) (hz : kzalloc k.toKmem max.toNat = (k1, 0)) :
    copyStringFromTask k task u phys max = ({ k with toKmem := k1 }, -ENOMEM) := by
  have hone := h.one_le
  have hsmall := h.small
  have hsize := h.toNat_max
  rw [copyStringFromTask, if_neg (by unfold pagingPageSize; omega), hsize, Kernel.onKmem_eq hz]
  rfl

/-- Whatever address the task passes: what is in use stays as it is. -/
theorem CopyRequest.unchanged (h : CopyRequest k d task phys max)
    (hout : ∀ b ∈ k.heap.live, Apart b.base (extent blockSize b.size) phys max.toNat) (u : Addr) :
    Unchanged k (copyStringFromTask k task u phys max).1 ∧
      (copyStringFromTask k task u phys max).1.elfFiles = k.elfFiles := by
  obtain ⟨⟨k1, tmp⟩, hz⟩ : ∃ r, kzalloc k.toKmem max.toNat = r := ⟨_, rfl⟩
  by_cases h0 : tmp = 0
  · subst h0
    have hlive := live_of_refused k.toKmem max.toNat (by rw [hz])
    have hkeeps := kzalloc_keeps k.toKmem max.toNat
    rw [hz] at hlive hkeeps
    rw [copyStringFromTask_refused h hz]
    exact ⟨⟨hkeeps, hlive, rfl, rfl⟩, rfl⟩
  · have hf := fresh_of_eq hz h0
    obtain ⟨s, -, hdone⟩ := copyStringFromTask_done (u := u) h hz h0
    obtain ⟨m, honly⟩ := hdone.only
    have hheap := hdone.heap
    have hbytes := hdone.bytes
    rw [honly] at hheap hbytes ⊢
    have hlive : m.heap.live = k.heap.live := by rw [hheap, hf.free_live]
    refine ⟨⟨⟨fun b hb => hlive ▸ hb, fun b hb x hx => ?_⟩, hlive, rfl, rfl⟩, rfl⟩
    have hne : b.base ≠ tmp := fun he => hf.not_live (he ▸ ⟨b.size, hb⟩)
    refine (hbytes x (fun hw => ?_) fun hw => (hout b hb).not_within hw hx).trans (hf.keeps.bytes b hb x hx)
    refine (Kmem.live_apart (hf.keeps.live b hb) hf.mem_live hne).not_within ?_ hx
    have hle : 4096 ≤ extent blockSize max.toNat := le_extent _
    unfold Within at *
    dsimp only
    omega

theorem copied_of_undisturbed (h : CopyCall k d task u phys max) (hu : Undisturbed k u max (named k d u max)) :
    Copied k d task u phys max := by
  obtain ⟨⟨k1, tmp⟩, hz⟩ : ∃ r, kzalloc k.toKmem max.toNat = r := ⟨_, rfl⟩
  by_cases h0 : tmp = 0
  · -- no block: nothing has happened
    subst h0
    obtain ⟨hl, hm⟩ : k1.heap.live = k.heap.live ∧ k1.mem = k.mem := by
      rcases kzalloc_cases k.toKmem max.toNat with ⟨-, hl, hm, -⟩ | ⟨hne, -⟩
      · rw [hz] at hl hm
        exact ⟨hl, hm⟩
      · rw [hz] at hne
        exact absurd rfl hne
    refine ⟨fun hres => ?_, fun v hv => ?_, ?_⟩
    · rw [copyStringFromTask_refused h.request hz] at hres
      exact absurd hres (by decide : ¬ -ENOMEM = 0)
    · rw [copyStringFromTask_refused h.request hz]
      exact congrArg (fun m => d.entry m v) hm
    · rw [copyStringFromTask_refused h.request hz]
      exact hl
  · have hf := fresh_of_eq hz h0
    obtain ⟨s, hres, hdone⟩ := copyStringFromTask_done h.request hz h0
    obtain ⟨m2, hlent, hsame, hreads⟩ := hdone.found
    rw [← reads_named_iff h hz h0 hlent hsame] at hu
    refine ⟨fun _ => ?_, fun v hv => ?_, ?_⟩
    · rw [hu.unique hreads]
      exact hdone.string
    · rw [hdone.entries v hv, h.inMem.entry_keeps hf.keeps hv]
    · rw [hdone.heap, hf.free_live]

def cover (k : Kernel) (p image : Addr) : Kernel :=
  { k with
    mem := (pagingMap k.mem (pageDirectory k p) (kzalloc k.toKmem 108).2 image pagingUserWriteable).1 }

variable {k0 : Kernel} {p image : Addr}

theorem kzalloc_addr (m : Kmem) (size : Nat) : (kzalloc m size).2 = (m.heap.alloc size).2 := by
  unfold kzalloc kmalloc
  dsimp only
  split
  · rename_i h
    exact h.symm
  · rfl

theorem cover_addr (k : Kernel) (p image : Addr) :
    (kzalloc (cover k p image).toKmem 108).2 = (kzalloc k.toKmem 108).2 := by
  rw [kzalloc_addr, kzalloc_addr]
  rfl

theorem image_not_table (hs : ProcessMemory.Spawned k0 k p d) (himage : k0.heap.Live image) :
    ∀ b ∈ d.blocks, b ≠ image := by
  rintro b hb rfl
  exact hs.new.fresh b hb himage

theorem cover_seen (hs : ProcessMemory.Spawned k0 k p d) (himage : k0.heap.Live image)
    (h0 : (kzalloc k.toKmem 108).2 ≠ 0) :
    d.In (cover k p image).toKmem ∧ ∀ i < 4096,
      userPages d.directory (cover k p image).mem ((kzalloc k.toKmem 108).2 + BitVec.ofNat 32 i) =
        image + BitVec.ofNat 32 i ∧
      (cover k p image).mem (image + BitVec.ofNat 32 i) = k0.mem (image + BitVec.ofNat 32 i) := by
  have hd := hs.new.inMem
  have halign : image.toNat % 4096 = 0 := Kmem.live_aligned himage
  have htmp : (kzalloc k.toKmem 108).2.toNat % 4096 = 0 := Kmem.live_aligned (kzalloc_fresh h0).isLive
  obtain ⟨m', hmap, hr⟩ := pagingMap_spec hd.holds htmp halign pagingUserWriteable
  have hmem : (cover k p image).mem = m' := by
    rw [cover, hs.directory, hmap]
  refine ⟨⟨hmem ▸ hr.holds, hd.live⟩, fun i hi => ?_⟩
  rw [hmem]
  generalize (kzalloc k.toKmem 108).2 = tmp at *
  have hlt := tmp.isLt
  have hpage : (tmp + BitVec.ofNat 32 i).toNat / 4096 = tmp.toNat / 4096 := by
    rw [BitVec.toNat_add, BitVec.toNat_ofNat]
    omega
  have hw : Within image 4096 (image + BitVec.ofNat 32 i) := by
    unfold Within
    bv_omega
  constructor
  · have hrest := toNat_umod_page (tmp + BitVec.ofNat 32 i)
    rw [userPages_spec hr.holds, hr.entry _ (by omega), if_pos hpage, Option.getD_some,
      tableAddress_or halign (by decide)]
    congr 1
    apply BitVec.eq_of_toNat_eq
    rw [hrest, BitVec.toNat_add, BitVec.toNat_ofNat]
    omega
  · rw [hr.outside, hs.new.keeps.page himage _ hw]
    intro j hj
    have hne := image_not_table hs himage _ (PageDir.table_mem hj)
    exact (pages_apart (d.aligned _ (PageDir.table_mem hj)) halign hne).not_within hw

theorem cover_named (hs : ProcessMemory.Spawned k0 k p d) (himage : k0.heap.Live image)
    (h0 : (kzalloc k.toKmem 108).2 ≠ 0) (ha : k0.mem image = 97) (hend : k0.mem (image + 1) = 0) :
    named (cover k p image) d (kzalloc k.toKmem 108).2 108 = [97] := by
  obtain ⟨-, hseen⟩ := cover_seen hs himage h0
  have hbyte : ∀ i < 4096, userMemory d.directory (cover k p image).mem
      ((kzalloc k.toKmem 108).2 + BitVec.ofNat 32 i) = k0.mem (image + BitVec.ofNat 32 i) := by
    intro i hi
    rw [userMemory, (hseen i hi).1, (hseen i hi).2]
  have h1 := hbyte 0 (by decide)
  rw [BitVec.add_zero, BitVec.add_zero, ha] at h1
  have h2 : userMemory d.directory (cover k p image).mem ((kzalloc k.toKmem 108).2 + 1) = 0 :=
    (hbyte 1 (by decide)).trans hend
  rw [named, show (108 - 1 : Int).toNat = 105 + 1 + 1 from rfl, textAt_succ, h1, if_neg (by decide), textAt_succ,
    if_pos h2]

theorem cover_call (hs : ProcessMemory.Spawned k0 k p d) (himage : k0.heap.Live image)
    (h0 : (kzalloc k.toKmem 108).2 ≠ 0) (ha : k0.mem image = 97) (hend : k0.mem (image + 1) = 0) :
    CopyCall (cover k p image) d (k.procs p).task (kzalloc k.toKmem 108).2 (image + 2048) 108 := by
  obtain ⟨hin, hseen⟩ := cover_seen hs himage h0
  have halign : image.toNat % 4096 = 0 := Kmem.live_aligned himage
  have hbuffer : ∀ b : Addr, b.toNat % 4096 = 0 → b ≠ image → Apart b 4096 (image + 2048) 108 := by
    intro b hb hne
    refine (pages_apart hb halign hne).sub (by simp) ?_ (by decide) (by decide)
    bv_omega
  refine ⟨hs.directory, hin, by decide, by decide, ?_, ?_, ?_⟩
  · intro j hj hn
    rw [cover_named hs himage h0 ha hend] at hj
    obtain ⟨w, hlive⟩ := himage
    refine ⟨⟨image, w⟩, hs.new.keeps.live _ hlive, fun hb => image_not_table hs ⟨w, hlive⟩ _ hb rfl, ?_⟩
    have hle : 4096 ≤ extent blockSize w := le_extent w
    rw [List.length_singleton] at hj
    rw [(hseen j (by omega)).1]
    unfold Within
    bv_omega
  · exact fun b hb => hbuffer b (d.aligned b hb) (image_not_table hs himage b hb)
  · intro _
    have hfresh := kzalloc_fresh h0
    rw [show (108 : Int).toNat = 108 from rfl, cover_addr]
    refine hbuffer _ (Kmem.live_aligned hfresh.isLive) fun he => hfresh.not_live ?_
    rw [he]
    exact hs.new.keeps.isLive himage

/-- The kernel `k0`, with a new process that has the page `image` where the block will be. -/
def covering (k0 : Kernel) (image : Addr) : Kernel :=
  cover (ProcessMemory.spawn k0).1 (ProcessMemory.spawn k0).2 image

def coveringTask (k0 : Kernel) : Addr := ((ProcessMemory.spawn k0).1.procs (ProcessMemory.spawn k0).2).task

def block (k0 : Kernel) : Addr := (kzalloc (ProcessMemory.spawn k0).1.toKmem 108).2

theorem covering_call (hspare : Spare k0.toKmem 1029) (himage : k0.heap.Live image) (ha : k0.mem image = 97)
    (hend : k0.mem (image + 1) = 0) :
    ∃ d, CopyCall (covering k0 image) d (coveringTask k0) (block k0) (image + 2048) 108 ∧
      named (covering k0 image) d (block k0) 108 = [97] ∧ ¬ Undisturbed (covering k0 image) (block k0) 108 [97] := by
  obtain ⟨hs1, hfail⟩ := ProcessMemory.spawn_spare (n := 1) hspare
  obtain ⟨d, hs⟩ := ProcessMemory.spawn_ok hfail
  have h0 : block k0 ≠ 0 := (kzalloc_ok 108 (Spare.kzalloc (n := 0) hs1 108 (by decide)).2).ne_zero
  refine ⟨d, cover_call hs himage h0 ha hend, cover_named hs himage h0 ha hend, fun hu => ?_⟩
  have haddr : (kzalloc (covering k0 image).toKmem 108).2 = block k0 := cover_addr _ _ _
  have hzero : (kzalloc (covering k0 image).toKmem 108).1.mem (block k0) = 0 := by
    rw [(kzalloc_fresh (by rwa [haddr])).mem_eq, haddr]
    exact if_pos (by simp)
  unfold Undisturbed at hu
  rw [show (108 : Int).toNat = 108 from rfl, haddr] at hu
  have hbyte := hu h0 0 (by decide) (by decide)
  rw [BitVec.add_zero, List.take_zero, storeBytes_nil, hzero] at hbyte
  exact absurd (hbyte rfl) (by decide)

def page : Addr := (kzalloc emptyKmem 4096).2

def loaded : Kernel :=
  { Tasks.emptyKernel with
    toKmem := { (kzalloc emptyKmem 4096).1 with mem := store8 (kzalloc emptyKmem 4096).1.mem page 97 } }

theorem loaded_call :
    ∃ d, CopyCall (covering loaded page) d (coveringTask loaded) (block loaded) (page + 2048) 108 ∧
      named (covering loaded page) d (block loaded) 108 = [97] ∧
      ¬ Undisturbed (covering loaded page) (block loaded) 108 [97] := by
  obtain ⟨hspare, hok⟩ := Spare.kzalloc (n := 1029) (spare_emptyKmem (by decide)) 4096 (by decide)
  have hf : Fresh emptyKmem (kzalloc emptyKmem 4096).1 page 4096 := kzalloc_ok 4096 hok
  refine covering_call ⟨hspare.bumped, hspare.room⟩ hf.isLive (by simp [loaded, store8]) ?_
  have hne : page + 1 ≠ page := by simp
  simp only [loaded, store8, if_neg hne]
  rw [hf.mem_eq]
  exact if_pos (by bv_omega)

end MultitaskOs.CopyString
