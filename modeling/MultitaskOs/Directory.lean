import MultitaskOs.Filename
import MultitaskOs.Streamer

/-!
# Directories

The entries of a directory, on the disk and in memory. They are counted up to
the one that starts with 0, without the deleted ones.
-/

open Lib Lib.Memory Lib.Arena MultitaskOs.Files MultitaskOs.PathParser MultitaskOs.FatRead MultitaskOs.FatLookup
  MultitaskOs.Streamer MultitaskOs.Filename

namespace MultitaskOs.Directory

/-! ## What lies on the disk -/

/-- The entries of a directory, and what lies behind them. -/
abbrev DirEntries := Nat → Entry

def cut (bytes : Nat → Byte) : DirEntries := fun i => (List.range 32).map fun x => bytes (32 * i + x)

def entryByte (es : DirEntries) (x : Nat) : Byte := (es (x / 32)).getD (x % 32) 0

/-- Entry `n` is the first that starts with 0. -/
structure EndsAt (es : DirEntries) (n : Nat) : Prop where
  last : (es n).getD 0 0 = 0
  used : ∀ i < n, (es i).getD 0 0 ≠ 0

def IsDeleted (e : Entry) : Prop := e.getD 0 0 = 0xE5

def usedCount (es : DirEntries) (n : Nat) : Nat := (List.range n).countP fun i => (es i).getD 0 0 != 0xE5

/-- The entries that lie behind one another on the disk, from position `p` on. -/
def diskEntry (disk : Disk) (p : Nat) : DirEntries := cut fun x => imageByte disk (p + x)

/-- The entries that the count reads. -/
def scanned (disk : Disk) (p : Int) : DirEntries := fun i =>
  (diskstreamerRead disk (toInt32 (p + 32 * i)) sizeofFatDirectoryItem).1

variable {disk : Disk} {es es' : DirEntries} {bytes : Nat → Byte} {n p : Nat}

@[simp] theorem length_cut (bytes : Nat → Byte) (i : Nat) : (cut bytes i).length = 32 := by simp [cut]

theorem getD_cut (bytes : Nat → Byte) (i : Nat) {x : Nat} (hx : x < 32) :
    (cut bytes i).getD x 0 = bytes (32 * i + x) := by
  rw [List.getD_eq_getElem _ _ (by simpa using hx)]
  simp [cut]

theorem entryByte_cut (bytes : Nat → Byte) (x : Nat) : entryByte (cut bytes) x = bytes x := by
  unfold entryByte
  rw [getD_cut _ _ (Nat.mod_lt x (by decide)), Nat.div_add_mod]

theorem usedCount_le (es : DirEntries) (n : Nat) : usedCount es n ≤ n := by
  unfold usedCount
  simpa using List.countP_le_length (l := List.range n)

theorem usedCount_succ (es : DirEntries) (n : Nat) :
    usedCount es (n + 1) = (if (es 0).getD 0 0 = 0xE5 then 0 else 1) + usedCount (fun i => es (i + 1)) n := by
  unfold usedCount
  rw [List.range_succ_eq_map, List.countP_cons, List.countP_map, Nat.add_comm]
  congr 1
  simp

theorem usedCount_congr (h : ∀ i < n, es' i = es i) : usedCount es' n = usedCount es n :=
  List.countP_congr fun i hi => by rw [h i (List.mem_range.mp hi)]

theorem EndsAt.congr (h : EndsAt es n) (heq : ∀ i ≤ n, es' i = es i) : EndsAt es' n :=
  ⟨heq n le_rfl ▸ h.last, fun i hi => heq i hi.le ▸ h.used i hi⟩

theorem EndsAt.unique {i j : Nat} (hi : EndsAt es i) (hj : EndsAt es j) : i = j := by
  rcases Nat.lt_trichotomy i j with h | h | h
  · exact absurd hi.last (hj.used i h)
  · exact h
  · exact absurd hj.last (hi.used j h)

theorem exists_endsAt {i : Nat} (h : (es i).getD 0 0 = 0) : ∃ n ≤ i, EndsAt es n := by
  have hex : ∃ i, (es i).getD 0 0 = 0 := ⟨i, h⟩
  exact ⟨Nat.find hex, Nat.find_min' hex h, Nat.find_spec hex, fun j hj => Nat.find_min hex hj⟩

theorem scanned_next (disk : Disk) (p : Int) (i : Nat) : scanned disk (p + 32) i = scanned disk p (i + 1) := by
  unfold scanned
  rw [show p + 32 + 32 * (i : Int) = p + 32 * ((i + 1 : Nat) : Int) by push_cast; ring]

theorem scanned_eq {i : Nat} (hfit : p + 32 * (i + 1) < 2 ^ 31) : scanned disk p i = diskEntry disk p i := by
  have hpos : toInt32 ((p : Int) + 32 * i) = ((p + 32 * i : Nat) : Int) := by
    rw [toInt32_of_bounds (by omega) (by omega)]
    push_cast
    rfl
  unfold scanned diskEntry cut sizeofFatDirectoryItem
  rw [hpos, read_image (by omega)]
  simp only [Nat.add_assoc]

theorem totalItemsLoop_eq {fuel : Nat} {p : Int} (hend : EndsAt (scanned disk p) n) (hfuel : n < fuel) (i : Int) :
    ∃ pos, totalItemsLoop disk fuel (toInt32 p) i = some (i + usedCount (scanned disk p) n, pos) := by
  have hread : ∀ p, diskstreamerRead disk (toInt32 p) sizeofFatDirectoryItem =
      (scanned disk p 0, toInt32 (p + sizeofFatDirectoryItem)) := by
    intro p
    refine Prod.ext ?_ ((diskstreamerRead_pos disk _ _).trans (toInt32_add p _))
    unfold scanned
    rw [Nat.cast_zero, mul_zero, add_zero]
  induction n generalizing p fuel i with
  | zero =>
    obtain ⟨fuel, rfl⟩ := Nat.exists_eq_add_of_lt hfuel
    rw [Nat.zero_add]
    unfold totalItemsLoop
    rw [hread]
    dsimp only
    rw [if_pos hend.last]
    simp [usedCount]
  | succ n ih =>
    obtain ⟨fuel, rfl⟩ := Nat.exists_eq_add_of_lt hfuel
    have h0 := hend.used 0 (Nat.succ_pos n)
    have hnext : EndsAt (scanned disk (p + 32)) n := by
      refine ⟨?_, fun j hj => ?_⟩
      · rw [scanned_next]
        exact hend.last
      · rw [scanned_next]
        exact hend.used (j + 1) (by omega)
    have hcount : usedCount (scanned disk (p + 32)) n = usedCount (fun j => scanned disk p (j + 1)) n :=
      congrArg (usedCount · n) (funext fun j => scanned_next disk p j)
    unfold totalItemsLoop
    rw [hread]
    dsimp only
    rw [if_neg h0, usedCount_succ, ← hcount]
    split
    · rw [Nat.zero_add]
      exact ih hnext (by omega) i
    · push_cast
      rw [← Int.add_assoc]
      exact ih hnext (by omega) (i + 1)

theorem endsAt_of_stops {fuel : Nat} {p : Int} {r : Int × Int} (h : totalItemsLoop disk fuel (toInt32 p) 0 = some r) :
    ∃ n < fuel, EndsAt (scanned disk p) n := by
  obtain ⟨j, hj, h0⟩ := (totalItemsLoop_ends fuel p 0).mp ⟨r, h⟩
  obtain ⟨n, hn, hend⟩ := exists_endsAt (show (scanned disk p j).getD 0 0 = 0 from h0)
  exact ⟨n, by omega, hend⟩

/-! ## A directory in memory -/

def image (es : DirEntries) : Mem := fun a => entryByte es a.toNat

def rendered (es : DirEntries) (i : Nat) : Option CharPtr :=
  fat16GetFullRelativeFilename (image es) (itemAt 0 i) maxPath

theorem names_within (hend : EndsAt es n) {i : Nat} (hi : i < n) (hn : 32 * n < 2 ^ 32) {a : Addr}
    (ha : a ∈ filenameReads (image es) (itemAt 0 i) maxPath) : a.toNat ≤ 32 * n := by
  have hs : sizeofFatDirectoryItem = 32 := rfl
  have hstop : ¬ isNameByte (image es (itemAt 0 i + BitVec.ofNat 32 (32 * (n - i)))) = true := by
    have haddr : (itemAt 0 i + BitVec.ofNat 32 (32 * (n - i))).toNat = 32 * n := by
      unfold itemAt
      rw [hs]
      bv_omega
    have hlast := hend.last
    unfold image entryByte
    rw [haddr, Nat.mul_mod_right, Nat.mul_div_cancel_left n (by decide), hlast]
    decide
  have hin := filenameReads_within hstop (by omega) (by omega) ha
  unfold Within itemAt at hin
  rw [hs] at hin
  bv_omega

/-- The names of the first `total` entries are read from the first `size` bytes. -/
def NamesWithin (es : DirEntries) (total size : Nat) : Prop :=
  ∀ i < total, ∀ a ∈ filenameReads (image es) (itemAt 0 i) maxPath, a.toNat < size

/-- The first `size` bytes of the entries have been read. The directory counts `total` of them, of
which no name runs past the bytes. -/
structure Loaded (k : Kernel) (d : FatDirectory) (es : DirEntries) (total size : Nat) : Prop where
  counted : d.total = total
  block : ∃ room, (⟨d.item, room⟩ : Block) ∈ k.heap.live ∧ size ≤ room
  bytes : ∀ x < size, k.mem (d.item + BitVec.ofNat 32 x) = entryByte es x
  items : 32 * total ≤ size
  lengths : ∀ i, (es i).length = 32
  names : NamesWithin es total size

variable {k k' : Kernel} {d : FatDirectory} {total size : Nat}

theorem Loaded.keeps (h : Loaded k d es total size) (hk : FatKeeps k k') : Loaded k' d es total size := by
  obtain ⟨room, hb, hroom⟩ := h.block
  have hplaced := (k.heap.placed _ hb).2.2
  have hle := size_le_extent (g := blockSize) room
  refine ⟨h.counted, ⟨room, hk.keeps.live _ hb, hroom⟩, fun x hx => ?_, h.items, h.lengths, h.names⟩
  rw [← h.bytes x hx]
  apply hk.keeps.bytes _ hb
  unfold Within
  dsimp only at hplaced ⊢
  bv_omega

theorem itemAt_add (a : Addr) (i : Nat) : itemAt 0 i + a = itemAt a i := by
  unfold itemAt
  bv_omega

theorem Loaded.filename (h : Loaded k d es total size) {i : Nat} (hi : i < total) :
    fat16GetFullRelativeFilename k.mem (itemAt d.item i) maxPath = rendered es i ∧
      filenameReads k.mem (itemAt d.item i) maxPath =
        (filenameReads (image es) (itemAt 0 i) maxPath).map (· + d.item) := by
  have hsame : ∀ a ∈ filenameReads (image es) (itemAt 0 i) maxPath, k.mem (a + d.item) = image es a := by
    intro a ha
    have := h.bytes a.toNat (h.names i hi a ha)
    rw [BitVec.ofNat_toNat, BitVec.setWidth_eq, BitVec.add_comm] at this
    exact this
  have hcongr := filename_congr hsame
  rw [itemAt_add] at hcongr
  exact hcongr

theorem Loaded.entry (h : Loaded k d es total size) {i : Nat} (hi : i < total) :
    readBytes k.mem (itemAt d.item i) sizeofFatDirectoryItem = es i := by
  have hitems := h.items
  have hlen := h.lengths i
  have hs : sizeofFatDirectoryItem = 32 := rfl
  refine List.ext_getElem (by rw [length_readBytes, hlen, hs]) fun x hx hx' => ?_
  have hbyte := h.bytes (32 * i + x) (by omega)
  unfold entryByte at hbyte
  rw [show (32 * i + x) / 32 = i by omega, show (32 * i + x) % 32 = x by omega,
    List.getD_eq_getElem _ _ hx', BitVec.ofNat_add, ← BitVec.add_assoc] at hbyte
  rw [← List.getD_eq_getElem _ 0 hx, readBytes_getD (by omega)]
  exact hbyte

theorem Loaded.reads (h : Loaded k d es total size) {i : Nat} (hi : i < total) {a : Addr}
    (ha : a ∈ filenameReads k.mem (itemAt d.item i) maxPath ∨ Within (itemAt d.item i) 32 a) :
    Within d.item size a := by
  have hitems := h.items
  obtain ⟨room, hb, hroom⟩ := h.block
  have hplaced := (k.heap.placed _ hb).2.2
  have hle := size_le_extent (g := blockSize) room
  dsimp only at hplaced
  rcases ha with ha | ha
  · rw [(h.filename hi).2] at ha
    obtain ⟨b, hb, rfl⟩ := List.mem_map.mp ha
    have := h.names i hi b hb
    unfold Within
    bv_omega
  · unfold Within itemAt sizeofFatDirectoryItem at *
    bv_omega

end MultitaskOs.Directory
