import Mathlib.Tactic

/-!
# Doubly linked lists

A list held in two link functions. `Path` follows the links forward, `Back`
says what each node links back to.
-/

namespace Lib.DList

variable {α : Type*} {next next' prev prev' : α → α} {a p x z : α} {l m : List α}

/-- The forward links lead from `a` through `l` to `z`. -/
def Path (next : α → α) : α → List α → α → Prop
  | a, [], z => a = z
  | a, x :: l, z => a = x ∧ Path next (next x) l z

/-- Each node links back to the one before it, the first to `p`. -/
def Back (prev : α → α) : α → List α → Prop
  | _, [] => True
  | p, x :: l => prev x = p ∧ Back prev x l

@[simp] theorem path_nil : Path next a [] z ↔ a = z := Iff.rfl

@[simp] theorem path_cons : Path next a (x :: l) z ↔ a = x ∧ Path next (next x) l z := Iff.rfl

@[simp] theorem back_nil : Back prev p [] := trivial

@[simp] theorem back_cons : Back prev p (x :: l) ↔ prev x = p ∧ Back prev x l := Iff.rfl

theorem Path.congr (h : Path next a l z) (hl : ∀ x ∈ l, next' x = next x) : Path next' a l z := by
  induction l generalizing a with
  | nil => exact h
  | cons x l ih =>
    refine ⟨h.1, ?_⟩
    rw [hl x List.mem_cons_self]
    exact ih h.2 fun y hy => hl y (List.mem_cons_of_mem _ hy)

theorem Back.congr (h : Back prev p l) (hl : ∀ x ∈ l, prev' x = prev x) : Back prev' p l := by
  induction l generalizing p with
  | nil => trivial
  | cons x l ih =>
    refine ⟨(hl x List.mem_cons_self).trans h.1, ?_⟩
    exact ih h.2 fun y hy => hl y (List.mem_cons_of_mem _ hy)

theorem path_append : Path next a (l ++ m) z ↔ ∃ y, Path next a l y ∧ Path next y m z := by
  induction l generalizing a with
  | nil => simp
  | cons x l ih => simp only [List.cons_append, path_cons, ih, ← exists_and_left, and_assoc]

theorem back_append :
    Back prev p (l ++ m) ↔ Back prev p l ∧ Back prev (l.getLast?.getD p) m := by
  induction l generalizing p with
  | nil => simp
  | cons x l ih =>
    rw [List.cons_append, back_cons, ih, back_cons, and_assoc, List.getLast?_cons]
    rfl

theorem path_concat : Path next a (l ++ [x]) z ↔ Path next a l x ∧ next x = z := by
  rw [path_append]
  constructor
  · rintro ⟨y, h, rfl, hz⟩
    exact ⟨h, hz⟩
  · rintro ⟨h, hz⟩
    exact ⟨x, h, rfl, hz⟩

theorem back_concat : Back prev p (l ++ [x]) ↔ Back prev p l ∧ prev x = l.getLast?.getD p := by
  simp [back_append]

theorem Path.head_eq (h : Path next a l z) : a = l.head?.getD z := by
  cases l with
  | nil => exact h
  | cons x l => exact h.1

theorem Path.next_mem (h : Path next a l z) (hx : x ∈ l) : next x = z ∨ next x ∈ l := by
  induction l generalizing a with
  | nil => cases hx
  | cons y l ih =>
    rcases List.mem_cons.mp hx with rfl | hx
    · cases l with
      | nil => exact Or.inl h.2
      | cons w l => exact Or.inr (List.mem_cons_of_mem _ (h.2.1 ▸ List.mem_cons_self))
    · exact (ih h.2 hx).imp_right fun h => List.mem_cons_of_mem _ h

theorem Back.prev_mem (h : Back prev p l) (hx : x ∈ l) : prev x = p ∨ prev x ∈ l := by
  induction l generalizing p with
  | nil => cases hx
  | cons y l ih =>
    rcases List.mem_cons.mp hx with rfl | hx
    · exact Or.inl h.1
    · refine Or.inr ?_
      rcases ih h.2 hx with h | h
      · exact h ▸ List.mem_cons_self
      · exact List.mem_cons_of_mem _ h

theorem not_back_erase (h : Back prev p (l ++ x :: z :: m)) (hx : x ∉ l) (hp : x ≠ p) :
    ¬ Back prev p (l ++ z :: m) := by
  intro h'
  have hz : prev z = x := (back_append.mp h).2.2.1
  have hz' : prev z = l.getLast?.getD p := (back_append.mp h').2.1
  rw [hz] at hz'
  cases hl : l.getLast? with
  | none =>
    rw [hl] at hz'
    exact hp hz'
  | some y =>
    rw [hl] at hz'
    exact hx (hz' ▸ List.mem_of_getLast? hl)

/-! ## Going round -/

theorem Path.iterate {f : α → α} (h : Path f a l z) : List.iterate f a l.length = l := by
  induction l generalizing a with
  | nil => rfl
  | cons x l ih =>
    obtain ⟨rfl, h⟩ := h
    rw [List.length_cons, List.iterate, ih h]

theorem Path.close [DecidableEq α] (head : α) (h : Path next a l z) (hl : ∀ x ∈ l, x ≠ z) :
    Path (fun x => if next x = z then head else next x) (if a = z then head else a) l head := by
  induction l generalizing a with
  | nil =>
    have ha : a = z := h
    rw [if_pos ha]
    rfl
  | cons x l ih =>
    obtain ⟨rfl, h⟩ := h
    rw [if_neg (hl a List.mem_cons_self)]
    exact ⟨rfl, ih h fun y hy => hl y (List.mem_cons_of_mem _ hy)⟩

/-- From any node the closed list goes on through the nodes behind it, then those before it, and
comes back. -/
theorem Path.cycle [DecidableEq α] {head c : α} (h : Path next head (l ++ c :: m) z)
    (hne : ∀ x ∈ l ++ c :: m, x ≠ z) :
    List.iterate (fun x => if next x = z then head else next x) (if next c = z then head else next c)
      (l ++ c :: m).length = m ++ l ++ [c] := by
  obtain ⟨y, hl, rfl, hm⟩ := path_append.mp h
  have hafter := hm.close head fun x hx => hne x (by simp [hx])
  have hbefore : Path (fun x => if next x = z then head else next x) head l y := by
    refine hl.congr fun x hx => if_neg ?_
    rcases hl.next_mem hx with hn | hn
    · exact hn ▸ hne y (by simp)
    · exact hne _ (List.mem_append_left _ hn)
  have hlength : (l ++ y :: m).length = (m ++ l ++ [y]).length := by
    simp
    omega
  rw [hlength]
  refine Path.iterate (z := if next y = z then head else next y) ?_
  rw [path_concat, path_append]
  exact ⟨⟨head, hafter, hbefore⟩, rfl⟩

end Lib.DList
