import MultitaskOs.FileRead
import MultitaskOs.Lib.Run

/-!
# Moving the file position

`fat16_seek` compares the offset with the size of the file, whatever it is
relative to. So a step from the current position may leave the file.
-/

open Lib Lib.Run Lib.Memory MultitaskOs.Files MultitaskOs.FileRead MultitaskOs.Tasks

namespace MultitaskOs.FileSeek

variable {k k' : Kernel} {fd res : Int} {n : Nat} {offset : BitVec 32} {whence : FileSeekMode}

structure Call where
  offset : BitVec 32
  whence : FileSeekMode

def step (fd : Int) (k : Kernel) (c : Call) : Kernel := (fseek k fd c.offset c.whence).1

/-- An open file of `n` bytes. -/
structure Seekable (k : Kernel) (fd : Int) (n : Nat) : Prop where
  opened : fileGetDescriptor k fd ≠ 0
  type : (k.fatItems (itemOf k (fileGetDescriptor k fd))).type = fatItemTypeFile
  size : fileBytes k fd = n

/-- A call that fails leaves the position, and one that does not moves it as it says. -/
structure SeekExact (k : Kernel) (fd : Int) (c : Call) : Prop where
  refused : (fseek k fd c.offset c.whence).2 < 0 → filePos (step fd k c) fd = filePos k fd
  set : 0 ≤ (fseek k fd c.offset c.whence).2 → c.whence = .set → (filePos (step fd k c) fd : Int) = c.offset.toInt
  cur : 0 ≤ (fseek k fd c.offset c.whence).2 → c.whence = .cur →
    (filePos (step fd k c) fd : Int) = filePos k fd + c.offset.toInt

/-- An offset that is taken for one within the file leads to a place in the file. -/
def WithinFile (fd : Int) (n : Nat) (k : Kernel) (c : Call) : Prop :=
  c.offset.toNat < n → (c.whence = .set → 0 ≤ c.offset.toInt) ∧
    (c.whence = .cur → 0 ≤ filePos k fd + c.offset.toInt ∧ filePos k fd + c.offset.toInt < n)

def moveTo (k : Kernel) (fd : Int) (pos : BitVec 32) : Kernel :=
  let priv := (k.fileDescs (fileGetDescriptor k fd)).priv
  { k with fatDescs := Function.update k.fatDescs priv { k.fatDescs priv with pos } }

theorem fatDescs_moveTo (k : Kernel) (fd : Int) (pos : BitVec 32) :
    (moveTo k fd pos).fatDescs (k.fileDescs (fileGetDescriptor k fd)).priv =
      { k.fatDescs (k.fileDescs (fileGetDescriptor k fd)).priv with pos } := Function.update_self _ _ _

theorem filePos_moveTo (k : Kernel) (fd : Int) (pos : BitVec 32) : filePos (moveTo k fd pos) fd = pos.toNat :=
  congrArg (fun d : FatFileDescriptor => d.pos.toNat) (fatDescs_moveTo k fd pos)

theorem itemOf_moveTo (k : Kernel) (fd : Int) (pos : BitVec 32) :
    itemOf (moveTo k fd pos) (fileGetDescriptor (moveTo k fd pos) fd) = itemOf k (fileGetDescriptor k fd) := by
  have h := congrArg FatFileDescriptor.item (fatDescs_moveTo k fd pos)
  exact h

theorem Seekable.moveTo (h : Seekable k fd n) (pos : BitVec 32) : Seekable (moveTo k fd pos) fd n := by
  refine ⟨h.opened, ?_, ?_⟩
  · rw [itemOf_moveTo]
    exact h.type
  · rw [← h.size]
    unfold fileBytes entryOf copyOf
    rw [itemOf_moveTo]
    rfl

theorem fseek_cases (h : Seekable k fd n) (offset : BitVec 32) (whence : FileSeekMode) :
    (offset.toNat < n ∧ whence = .set ∧ fseek k fd offset whence = (moveTo k fd offset, 0)) ∨
    (offset.toNat < n ∧ whence = .cur ∧
      fseek k fd offset whence = (moveTo k fd (posOf k (fileGetDescriptor k fd) + offset), 0)) ∨
    (¬ (offset.toNat < n ∧ (whence = .set ∨ whence = .cur)) ∧
      ∃ res < 0, fseek k fd offset whence = (k, res)) := by
  have htype := h.type
  have hsize := h.size
  unfold itemOf at htype
  unfold fileBytes entryOf copyOf itemOf at hsize
  unfold fseek fat16Seek
  dsimp only
  rw [if_neg h.opened, if_neg (not_not.mpr htype)]
  by_cases hlt : offset.toNat < n
  · rw [if_neg (by rw [ge_iff_le, BitVec.le_def]; omega)]
    cases whence with
    | set => exact Or.inl ⟨hlt, rfl, rfl⟩
    | cur => exact Or.inr (Or.inl ⟨hlt, rfl, rfl⟩)
    | ending => exact Or.inr (Or.inr ⟨by simp, -EUNIMP, by decide, rfl⟩)
    | other => exact Or.inr (Or.inr ⟨by simp, -EINVARG, by decide, rfl⟩)
  · rw [if_pos (by rw [ge_iff_le, BitVec.le_def]; omega)]
    exact Or.inr (Or.inr ⟨fun hin => hlt hin.1, - EIO, by decide, rfl⟩)

theorem Seekable.step (h : Seekable k fd n) (c : Call) : Seekable (step fd k c) fd n := by
  unfold FileSeek.step
  rcases fseek_cases h c.offset c.whence with ⟨-, -, heq⟩ | ⟨-, -, heq⟩ | ⟨-, res, -, heq⟩
  · rw [heq]
    exact h.moveTo _
  · rw [heq]
    exact h.moveTo _
  · rw [heq]
    exact h

theorem seek_step_iff (h : Seekable k fd n) (hpos : filePos k fd < n) (c : Call) :
    (filePos (step fd k c) fd < n ∧ SeekExact k fd c) ↔ WithinFile fd n k c := by
  have hn : n < 2 ^ 32 := by
    rw [← h.size]
    exact BitVec.isLt _
  unfold WithinFile
  rcases fseek_cases h c.offset c.whence with ⟨hlt, hset, heq⟩ | ⟨hlt, hcur, heq⟩ | ⟨hno, res, hres, heq⟩
  · have hnext : filePos (step fd k c) fd = c.offset.toNat := by
      unfold step
      rw [heq, filePos_moveTo]
    have hint := BitVec.toInt_eq_toNat_cond c.offset
    rw [hset]
    constructor
    · rintro ⟨-, hexact⟩ -
      have := hexact.set (by rw [heq]) hset
      rw [hnext] at this
      exact ⟨fun _ => by omega, fun hc => nomatch hc⟩
    · intro hw
      have h0 := (hw hlt).1 rfl
      refine ⟨by omega, fun hneg => ?_, fun _ _ => ?_, fun _ hc => ?_⟩
      · rw [heq] at hneg
        exact absurd hneg (lt_irrefl 0)
      · rw [hnext]
        split at hint <;> omega
      · rw [hset] at hc
        cases hc
  · have hnext : filePos (step fd k c) fd = (filePos k fd + c.offset.toNat) % 2 ^ 32 := by
      unfold step
      rw [heq, filePos_moveTo, BitVec.toNat_add]
      rfl
    have hint := BitVec.toInt_eq_toNat_cond c.offset
    rw [hcur]
    constructor
    · rintro ⟨hin, hexact⟩ -
      have := hexact.cur (by rw [heq]) hcur
      exact ⟨fun hc => (nomatch hc), fun _ => by omega⟩
    · intro hw
      have hin := (hw hlt).2 rfl
      have hmove : (filePos (step fd k c) fd : Int) = filePos k fd + c.offset.toInt := by
        rw [hnext]
        split at hint <;> omega
      refine ⟨by omega, fun hneg => ?_, fun _ hc => ?_, fun _ _ => hmove⟩
      · rw [heq] at hneg
        exact absurd hneg (lt_irrefl 0)
      · rw [hcur] at hc
        cases hc
  · have hsame : step fd k c = k := by
      unfold step
      rw [heq]
    rw [hsame]
    refine ⟨fun _ hlt => ⟨fun hs => absurd ⟨hlt, Or.inl hs⟩ hno, fun hc => absurd ⟨hlt, Or.inr hc⟩ hno⟩,
      fun _ => ⟨hpos, fun _ => by rw [hsame], fun h0 => ?_, fun h0 => ?_⟩⟩
    all_goals
      rw [heq] at h0
      exact absurd h0 (not_le.mpr hres)

/-- For every open file and sequence of calls: the position stays in the file and every call moves it
as it says, exactly when every offset that is taken leads to a place in the file. -/
theorem seek_run_iff (h : Seekable k fd n) (hpos : filePos k fd < n) (calls : List Call) :
    (Along (step fd) (fun k => filePos k fd < n) k calls ∧ Each (step fd) (fun k c => SeekExact k fd c) k calls) ↔
      Each (step fd) (WithinFile fd n) k calls := by
  induction calls generalizing k with
  | nil => simpa using hpos
  | cons c calls ih =>
    rw [along_cons, each_cons, each_cons, ← seek_step_iff h hpos c]
    constructor
    · rintro ⟨⟨-, halong⟩, hexact, heach⟩
      exact ⟨⟨halong.head, hexact⟩, (ih (h.step c) halong.head).mp ⟨halong, heach⟩⟩
    · rintro ⟨⟨hin, hexact⟩, heach⟩
      obtain ⟨halong, heach'⟩ := (ih (h.step c) hin).mpr heach
      exact ⟨⟨hpos, halong⟩, hexact, heach'⟩

theorem seekable_openA : Seekable openA 1 600 := ⟨by decide +kernel, by decide +kernel, by decide +kernel⟩

/-- To byte 400, and from there 100 on. -/
theorem seek_run_openA :
    Along (step 1) (fun k => filePos k 1 < 600) openA [⟨400, .set⟩, ⟨100, .cur⟩] ∧
      Each (step 1) (fun k c => SeekExact k 1 c) openA [⟨400, .set⟩, ⟨100, .cur⟩] := by
  have hpos : filePos (step 1 openA ⟨400, .set⟩) 1 = 400 := by decide +kernel
  refine (seek_run_iff seekable_openA (by rw [opened_openA.2.2]; decide) _).mpr ?_
  rw [each_cons, each_cons]
  refine ⟨fun _ => ⟨fun _ => by decide, nofun⟩, fun _ => ⟨nofun, fun _ => ?_⟩, trivial⟩
  rw [hpos]
  decide

/-- In a file of 600 bytes, twice 400 on. -/
theorem seek_leaves_file : ¬ Along (step 1) (fun k => filePos k 1 < 600) openA [⟨400, .set⟩, ⟨400, .cur⟩] := by
  have h : filePos (step 1 (step 1 openA ⟨400, .set⟩) ⟨400, .cur⟩) 1 = 800 := by decide +kernel
  rintro ⟨-, -, hlast⟩
  rw [along_nil, h] at hlast
  exact absurd hlast (by decide)

end MultitaskOs.FileSeek
