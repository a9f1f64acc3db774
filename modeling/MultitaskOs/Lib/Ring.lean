import Mathlib.Tactic

/-!
# A ring that marks its free cells

`n` cells in a circle. The queue lies from `head` on; a cell outside it holds
`null`, so the reader can tell an empty ring from the cells alone.
-/

namespace Lib.Ring

variable {α : Type*}

/-- The cell `i` places after `head`. -/
def cell (n head i : Nat) : Nat := (head + i) % n

/-- The ring holds the queue `q`, in order from `head` on. -/
structure Holds (n : Nat) (null : α) (buf : Nat → α) (head : Nat) (q : List α) : Prop where
  length_le : q.length ≤ n
  marked : null ∉ q
  queued : ∀ i (h : i < q.length), buf (cell n head i) = q[i]
  clear : ∀ i, q.length ≤ i → i < n → buf (cell n head i) = null

variable {n head : Nat} {null c : α} {buf : Nat → α} {q : List α}

theorem cell_injective {i j : Nat} (hi : i < n) (hj : j < n) (h : cell n head i = cell n head j) :
    i = j := by
  unfold cell at h
  have h1 : head + i ≡ head + j [MOD n] := h
  have h2 : i ≡ j [MOD n] := Nat.ModEq.add_left_cancel' head h1
  rwa [Nat.ModEq, Nat.mod_eq_of_lt hi, Nat.mod_eq_of_lt hj] at h2

theorem cell_add (n head i j : Nat) : cell n (head + i) j = cell n head (i + j) := by
  rw [cell, cell, Nat.add_assoc]

theorem cell_full (n head : Nat) : cell n head n = cell n head 0 := by simp [cell]

theorem Holds.congr {head' : Nat} (h : Holds n null buf head q) (hh : head' % n = head % n) :
    Holds n null buf head' q := by
  have hc : ∀ i, cell n head' i = cell n head i := fun i => Nat.ModEq.add_right i hh
  refine ⟨h.length_le, h.marked, ?_, ?_⟩
  · intro i hi
    rw [hc, h.queued i hi]
  · intro i h1 h2
    rw [hc, h.clear i h1 h2]

theorem holds_nil (h : ∀ i < n, buf i = null) (head : Nat) : Holds n null buf head [] := by
  refine ⟨Nat.zero_le n, List.not_mem_nil, by simp, ?_⟩
  intro i _ hi
  exact h _ (Nat.mod_lt _ (by omega))

theorem Holds.front (h : Holds n null buf head q) (hn : 0 < n) : buf (head % n) = q.head?.getD null := by
  cases q with
  | nil => exact h.clear 0 le_rfl hn
  | cons c q => exact h.queued 0 (by simp)

theorem Holds.front_eq_null (h : Holds n null buf head q) (hn : 0 < n) :
    buf (head % n) = null ↔ q = [] := by
  rw [h.front hn]
  cases q with
  | nil => simp
  | cons c q =>
    simp only [List.head?_cons, Option.getD_some, reduceCtorEq, iff_false]
    exact fun hc => h.marked (hc ▸ List.mem_cons_self)

theorem Holds.push (h : Holds n null buf head q) (hroom : q.length < n) (hc : c ≠ null) :
    Holds n null (Function.update buf (cell n head q.length) c) head (q ++ [c]) := by
  refine ⟨by simpa using hroom, ?_, ?_, ?_⟩
  · rw [List.mem_append, List.mem_singleton, not_or]
    exact ⟨h.marked, hc.symm⟩
  · intro i hi
    rw [List.length_append, List.length_singleton] at hi
    by_cases hiq : i = q.length
    · subst hiq
      rw [Function.update_self]
      simp
    · have hlt : i < q.length := by omega
      have hne : cell n head i ≠ cell n head q.length :=
        fun he => hiq (cell_injective (by omega) hroom he)
      rw [Function.update_of_ne hne, h.queued i hlt, List.getElem_append_left hlt]
  · intro i h1 h2
    rw [List.length_append, List.length_singleton] at h1
    have hne : cell n head i ≠ cell n head q.length :=
      fun he => absurd (cell_injective h2 hroom he) (by omega)
    rw [Function.update_of_ne hne, h.clear i (by omega) h2]

theorem Holds.unpush (h : Holds n null buf head (q ++ [c])) :
    Holds n null (Function.update buf (cell n head q.length) null) head q := by
  have hlen := h.length_le
  have hclear := h.clear
  rw [List.length_append, List.length_singleton] at hlen hclear
  refine ⟨by omega, fun hm => h.marked (List.mem_append_left _ hm), ?_, ?_⟩
  · intro i hi
    have hne : cell n head i ≠ cell n head q.length :=
      fun he => absurd (cell_injective (by omega) (by omega) he) (by omega)
    rw [Function.update_of_ne hne, h.queued i (by simp; omega), List.getElem_append_left hi]
  · intro i h1 h2
    by_cases hi : i = q.length
    · rw [hi, Function.update_self]
    · have hne : cell n head i ≠ cell n head q.length :=
        fun he => hi (cell_injective h2 (by omega) he)
      rw [Function.update_of_ne hne, hclear i (by omega) h2]

theorem Holds.pop (h : Holds n null buf head (c :: q)) :
    Holds n null (Function.update buf (head % n) null) (head + 1) q := by
  have hlen : q.length + 1 ≤ n := h.length_le
  have hhead : head % n = cell n head 0 := rfl
  have hshift : ∀ i, cell n (head + 1) i = cell n head (1 + i) := cell_add n head 1
  refine ⟨by omega, fun hm => h.marked (List.mem_cons_of_mem _ hm), ?_, ?_⟩
  · intro i hi
    have hne : cell n head (1 + i) ≠ cell n head 0 :=
      fun he => absurd (cell_injective (by omega) (by omega) he) (by omega)
    rw [hshift, hhead, Function.update_of_ne hne, h.queued (1 + i) (by simp; omega)]
    simp [Nat.add_comm 1 i]
  · intro i h1 h2
    rw [hshift, hhead]
    by_cases hi : 1 + i = n
    · rw [hi, cell_full, Function.update_self]
    · have hne : cell n head (1 + i) ≠ cell n head 0 :=
        fun he => absurd (cell_injective (by omega) (by omega) he) (by omega)
      rw [Function.update_of_ne hne]
      exact h.clear (1 + i) (by simp; omega) (by omega)

/-- A writer that comes round to a full ring puts its value in the reader's cell. -/
theorem Holds.overwrite {d : α} (h : Holds n null buf head (c :: q)) (hd : d ≠ null) :
    Holds n null (Function.update buf (head % n) d) head (d :: q) := by
  have hlen : q.length + 1 ≤ n := h.length_le
  have hhead : head % n = cell n head 0 := rfl
  refine ⟨h.length_le, ?_, ?_, ?_⟩
  · rw [List.mem_cons, not_or]
    exact ⟨hd.symm, fun hm => h.marked (List.mem_cons_of_mem _ hm)⟩
  · intro i hi
    rw [hhead]
    cases i with
    | zero =>
      rw [Function.update_self]
      rfl
    | succ i =>
      have hi' : i < q.length := by simpa using hi
      have hne : cell n head (i + 1) ≠ cell n head 0 :=
        fun he => absurd (cell_injective (by omega) (by omega) he) (by omega)
      rw [Function.update_of_ne hne, h.queued (i + 1) (by simp; omega)]
      rfl
  · intro i h1 h2
    rw [List.length_cons] at h1
    have hne : cell n head i ≠ cell n head 0 :=
      fun he => absurd (cell_injective h2 (by omega) he) (by omega)
    rw [hhead, Function.update_of_ne hne]
    exact h.clear i (by simpa using h1) h2

end Lib.Ring
