import MultitaskOs.Code.Isr80h
import MultitaskOs.CopyString

/-!
# The path of a program to start

Both handlers put "0:/" and a name into an array of 108 bytes. Each bounds the
name as if it had the array to itself.
-/

open Lib Lib.Memory Lib.CString MultitaskOs.Paging MultitaskOs.CopyString

namespace MultitaskOs.ProgramPath

variable {a a' : CharArray} {i n : Nat} {s name rest : List Byte}

/-! ## Copying into an array -/

/-- `s` and its zero have been written at `i`. -/
structure Stored (a : CharArray) (i : Nat) (s : List Byte) (a' : CharArray) : Prop where
  written : ∀ j, j ∈ a'.written ↔ j ∈ a.written ∨ (i ≤ j ∧ j ≤ i + s.length)
  stop : a'.bytes (i + s.length) = 0

theorem stored_nil (a : CharArray) (i : Nat) : Stored a i [] (a.set i 0) := by
  constructor
  · intro j
    simp only [CharArray.set, List.mem_cons, List.length_nil]
    grind
  · simp [CharArray.set]

theorem Stored.cons {c : Byte} (h : Stored (a.set i c) (i + 1) s a') : Stored a i (c :: s) a' := by
  constructor
  · intro j
    rw [h.written]
    simp only [CharArray.set, List.mem_cons, List.length_cons]
    grind
  · rw [List.length_cons, show i + (s.length + 1) = i + 1 + s.length by omega]
    exact h.stop

theorem strcpyAt_spec (hs : 0 ∉ s) (rest : List Byte) (a : CharArray) (i : Nat) :
    ∃ a', strcpyAt a i (s ++ 0 :: rest) = some a' ∧ Stored a i s a' := by
  induction s generalizing a i with
  | nil => exact ⟨_, if_pos rfl, stored_nil a i⟩
  | cons c s ih =>
    rw [List.mem_cons, not_or] at hs
    obtain ⟨a', hcopy, hstored⟩ := ih hs.2 (a.set i c) (i + 1)
    refine ⟨a', ?_, hstored.cons⟩
    rw [List.cons_append, strcpyAt, if_neg (Ne.symm hs.1), hcopy]

theorem strncpyAtLoop_spec (hs : 0 ∉ s) (rest : List Byte) (n : Nat) (a : CharArray) (i : Nat) :
    ∃ a', strncpyAtLoop a i n (s ++ 0 :: rest) = some a' ∧ Stored a i (s.take n) a' := by
  induction n generalizing s a i with
  | zero => exact ⟨_, rfl, by simpa using stored_nil a i⟩
  | succ n ih =>
    cases s with
    | nil => exact ⟨_, if_pos rfl, stored_nil a i⟩
    | cons c s =>
      rw [List.mem_cons, not_or] at hs
      obtain ⟨a', hcopy, hstored⟩ := ih hs.2 (a.set i c) (i + 1)
      refine ⟨a', ?_, hstored.cons⟩
      rw [List.cons_append, strncpyAtLoop, if_neg (Ne.symm hs.1), hcopy]

/-! ## The path -/

def unwritten (bytes : Nat → Byte) : CharArray := ⟨bytes, []⟩

/-- A handler has written inside the array only, and if it goes on with the path, the path ends
there. -/
structure Safe (res : Int) (path : CharArray) : Prop where
  inside : ∀ j ∈ path.written, j < maxPath
  ended : 0 ≤ res → ∃ j < maxPath, path.bytes j = 0

theorem safe_unwritten {res : Int} (hres : res < 0) (bytes : Nat → Byte) : Safe res (unwritten bytes) :=
  ⟨fun j hj => absurd hj List.not_mem_nil, fun h => absurd h (by omega)⟩

theorem safe_iff {bytes : Nat → Byte} {res : Int} {p : CharArray} (hdrive : Stored (unwritten bytes) 0 [48, 58, 47] p)
    (hname : Stored p 3 s a') : Safe res a' ↔ s.length ≤ 104 := by
  have hwritten : ∀ j, j ∈ a'.written ↔ j ≤ 3 + s.length := by
    intro j
    rw [hname.written, hdrive.written]
    simp only [unwritten, List.not_mem_nil, false_or, List.length_cons, List.length_nil]
    omega
  have hmax : maxPath = 108 := rfl
  constructor
  · intro h
    have hlast := h.inside (3 + s.length) ((hwritten _).mpr le_rfl)
    omega
  · intro h
    refine ⟨fun j hj => ?_, fun _ => ⟨3 + s.length, by omega, hname.stop⟩⟩
    have hle := (hwritten j).mp hj
    omega

theorem driveZero_stored (bytes : Nat → Byte) :
    ∃ p, strcpyAt (unwritten bytes) 0 driveZero = some p ∧ Stored (unwritten bytes) 0 [48, 58, 47] p :=
  strcpyAt_spec (s := [48, 58, 47]) (by decide) [] _ 0

theorem strlen_string (hs : 0 ∉ s) (rest : List Byte) : strlen (s ++ 0 :: rest) = some s.length := by
  induction s with
  | nil => exact if_pos rfl
  | cons c s ih =>
    rw [List.mem_cons, not_or] at hs
    rw [List.cons_append, strlen, if_neg (Ne.symm hs.1), ih hs.2]
    rfl

theorem command7_path (h0 : 0 ∉ name) (hne : name ≠ []) (rest : List Byte) (bytes : Nat → Byte) :
    ∃ p path, isr80hCommand7Path (some (name ++ 0 :: rest)) (unwritten bytes) = some (0, path) ∧
      Stored (unwritten bytes) 0 [48, 58, 47] p ∧ Stored p 3 (name.take 107) path := by
  obtain ⟨p, hp, hdrive⟩ := driveZero_stored bytes
  obtain ⟨path, hpath, hname⟩ := strncpyAtLoop_spec h0 rest 107 p 3
  have hcopy : strncpyAt p 3 (name ++ 0 :: rest) maxPath = some path := hpath
  refine ⟨p, path, ?_, hdrive, hname⟩
  rw [isr80hCommand7Path, strlen_string h0]
  simp only [Option.bind_eq_bind, Option.bind_some, List.length_eq_zero_iff, if_neg hne, hp, hcopy]
  rfl

theorem command7_safe_iff (h0 : 0 ∉ name) (rest : List Byte) (bytes : Nat → Byte) :
    ∃ res path, isr80hCommand7Path (some (name ++ 0 :: rest)) (unwritten bytes) = some (res, path) ∧
      (Safe res path ↔ name.length ≤ 104) := by
  by_cases hne : name = []
  · subst hne
    exact ⟨-EINVARG, unwritten bytes, rfl, iff_of_true (safe_unwritten (by decide) bytes) (Nat.zero_le _)⟩
  · obtain ⟨p, path, hrun, hdrive, hname⟩ := command7_path h0 hne rest bytes
    refine ⟨0, path, hrun, ?_⟩
    rw [safe_iff hdrive hname, List.length_take]
    omega

variable {k : Kernel} {d : PageDir} {task u filename : Addr}

/-- What the copy leaves in the array `filename`. -/
def left (k : Kernel) (task u filename : Addr) : List Byte :=
  textAt (copyStringFromTask k task u filename maxPath).1.mem filename maxPath

theorem left_of_at {k' : Kernel} (hlen : s.length ≤ 107) (hat : At k'.mem filename s) :
    textAt k'.mem filename maxPath = s ∧ ∃ rest, readBytes k'.mem filename maxPath = s ++ 0 :: rest := by
  have hmax : maxPath = 108 := rfl
  refine ⟨by rw [hat.textAt, List.take_of_length_le (by omega)], ?_⟩
  obtain ⟨w, hw⟩ := Nat.exists_eq_add_of_le (show s.length + 1 ≤ maxPath by omega)
  rw [hw, readBytes_add, hat.bytes, List.append_assoc, List.singleton_append]
  exact ⟨_, rfl⟩

theorem left_of_undisturbed (h : CopyCall k d task u filename maxPath) (hat : At (userMemory d.directory k.mem) u name)
    (hu : Undisturbed k u maxPath (named k d u maxPath)) (hres : (copyStringFromTask k task u filename maxPath).2 = 0) :
    left k task u filename = name.take 107 := by
  have hstring := (copied_of_undisturbed h hu).string hres
  rw [named, hat.textAt] at hstring
  exact (left_of_at (by simp [maxPath]) hstring).1

theorem command6_safe_iff (h : CopyCall k d task u filename maxPath) (bytes : Nat → Byte) :
    ∃ k' res path, isr80hCommand6Path k task u filename (unwritten bytes) = some (k', res, path) ∧
      (Safe res path ↔ (kzalloc k.toKmem maxPath).2 = 0 ∨ (left k task u filename).length ≤ 104) := by
  obtain ⟨⟨k1, tmp⟩, hz⟩ : ∃ r, kzalloc k.toKmem maxPath = r := ⟨_, rfl⟩
  rw [isr80hCommand6Path, hz]
  by_cases h0 : tmp = 0
  · subst h0
    rw [copyStringFromTask_refused h.request hz]
    refine ⟨{ k with toKmem := k1 }, -ENOMEM, unwritten bytes, rfl, ?_⟩
    exact iff_of_true (safe_unwritten (by decide) bytes) (Or.inl rfl)
  · obtain ⟨s, hres, hdone⟩ := copyStringFromTask_done h.request hz h0
    obtain ⟨m2, -, -, hreads⟩ := hdone.found
    have hlen : s.length ≤ 107 := hreads.length_le
    obtain ⟨hleft, rest, hfilename⟩ := left_of_at hlen hdone.string
    obtain ⟨p, hp, hdrive⟩ := driveZero_stored bytes
    obtain ⟨path, hpath, hname⟩ := strcpyAt_spec hreads.noNul rest p 3
    rw [left, hleft]
    generalize copyStringFromTask k task u filename maxPath = r at hres hfilename ⊢
    obtain ⟨k', res⟩ := r
    dsimp only at hres hfilename
    subst hres
    refine ⟨k', 0, path, ?_, ?_⟩
    · simp only [Option.bind_eq_bind, hp, Option.bind_some, hfilename, hpath]
      rfl
    · rw [safe_iff hdrive hname]
      exact ⟨Or.inr, fun h => h.resolve_left h0⟩

/-- Each handler keeps to its array exactly when the name has at most 104 bytes. `left` is what the
first one goes by: the name, cut to 107 bytes, where the copy is undisturbed. -/
theorem programPath_safe_iff (h0 : 0 ∉ name) (bytes : Nat → Byte) :
    (∀ {k d task u filename}, CopyCall k d task u filename maxPath → At (userMemory d.directory k.mem) u name →
      ∃ k' res path, isr80hCommand6Path k task u filename (unwritten bytes) = some (k', res, path) ∧
        (Safe res path ↔ (kzalloc k.toKmem maxPath).2 = 0 ∨ (left k task u filename).length ≤ 104) ∧
        (Undisturbed k u maxPath (named k d u maxPath) →
          (Safe res path ↔ (kzalloc k.toKmem maxPath).2 = 0 ∨ name.length ≤ 104))) ∧
      ∀ rest, ∃ res path, isr80hCommand7Path (some (name ++ 0 :: rest)) (unwritten bytes) = some (res, path) ∧
        (Safe res path ↔ name.length ≤ 104) := by
  refine ⟨fun {k d task u filename} hcall hat => ?_, fun rest => command7_safe_iff h0 rest bytes⟩
  obtain ⟨k', res, path, hrun, hsafe⟩ := command6_safe_iff hcall bytes
  refine ⟨k', res, path, hrun, hsafe, fun hu => hsafe.trans ?_⟩
  refine or_congr_right' fun hne => ?_
  obtain ⟨⟨k1, tmp⟩, hz⟩ : ∃ r, kzalloc k.toKmem maxPath = r := ⟨_, rfl⟩
  rw [hz] at hne
  obtain ⟨s, hres, -⟩ := copyStringFromTask_done hcall.request hz hne
  rw [left_of_undisturbed hcall hat hu hres, List.length_take]
  omega

theorem programPath_safe_a :
    ∃ d, CopyCall (covering loaded page) d (coveringTask loaded) (block loaded) (page + 2048) maxPath ∧
      (∃ k' res path, isr80hCommand6Path (covering loaded page) (coveringTask loaded) (block loaded) (page + 2048)
        (unwritten fun _ => 0) = some (k', res, path) ∧
        (Safe res path ↔ (kzalloc (covering loaded page).toKmem maxPath).2 = 0 ∨
          (left (covering loaded page) (coveringTask loaded) (block loaded) (page + 2048)).length ≤ 104)) ∧
      ∃ res path, isr80hCommand7Path (some ([97] ++ 0 :: [])) (unwritten fun _ => 0) = some (res, path) ∧
        (Safe res path ↔ [(97 : Byte)].length ≤ 104) := by
  obtain ⟨d, hcall, hnamed, -⟩ := loaded_call
  obtain ⟨h6, h7⟩ := @programPath_safe_iff [97] (by decide) fun _ => 0
  obtain ⟨k', res, path, hrun, hsafe, -⟩ := h6 hcall (at_of_named hnamed (by decide))
  exact ⟨d, hcall, ⟨k', res, path, hrun, hsafe⟩, h7 []⟩

/-- A name of 105 bytes: both handlers write behind the array. -/
theorem programPath_overflows :
    (∃ path, isr80hCommand7Path (some (List.replicate 105 97 ++ 0 :: [])) (unwritten fun _ => 0) = some (0, path) ∧
      maxPath ∈ path.written) ∧
      ∃ p path, strcpyAt (unwritten fun _ => 0) 0 driveZero = some p ∧
        strcpyAt p 3 (List.replicate 105 97 ++ 0 :: [0, 0]) = some path ∧ maxPath ∈ path.written := by
  have h0 : (0 : Byte) ∉ List.replicate 105 97 := by simp
  constructor
  · obtain ⟨p, path, hrun, -, hname⟩ := command7_path h0 (by simp) [] fun _ => 0
    refine ⟨path, hrun, (hname.written _).mpr (Or.inr ?_)⟩
    simp [maxPath]
  · obtain ⟨p, hp, -⟩ := driveZero_stored fun _ => 0
    obtain ⟨path, hpath, hname⟩ := strcpyAt_spec h0 [0, 0] p 3
    refine ⟨p, path, hp, hpath, (hname.written _).mpr (Or.inr ?_)⟩
    simp [maxPath]

end MultitaskOs.ProgramPath
