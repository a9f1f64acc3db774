import Mathlib.Tactic

/-!
# A running extremum

The best value of a list, kept as the list goes by, with what belongs to it. One
value stands for none so far, and it may occur in the list as well: then it is
forgotten by the next.
-/

namespace Lib.Extremum

variable {α β : Type*} [DecidableEq α] (unset : α) (r : α → α → Prop) [DecidableRel r]

/-- The new value is taken if it is at least as good, or if there is none yet. -/
def keep (current new : α × β) : α × β := if r new.1 current.1 ∨ current.1 = unset then new else current

variable (p : β) (ls : List (α × β)) (x : α × β)

theorem foldl_keep_append : (ls ++ [x]).foldl (keep unset r) (unset, p) =
    keep unset r (ls.foldl (keep unset r) (unset, p)) x := by
  rw [List.foldl_append, List.foldl_cons, List.foldl_nil]

theorem keep_cases (current new : α × β) :
    (keep unset r current new = new ∧ (r new.1 current.1 ∨ current.1 = unset)) ∨
      (keep unset r current new = current ∧ ¬ r new.1 current.1 ∧ current.1 ≠ unset) := by
  unfold keep
  split_ifs with h
  · exact Or.inl ⟨rfl, h⟩
  · rw [not_or] at h
    exact Or.inr ⟨rfl, h⟩

theorem foldl_keep_mem (h0 : ls ≠ []) : ls.foldl (keep unset r) (unset, p) ∈ ls := by
  induction ls using List.reverseRecOn with
  | nil => exact absurd rfl h0
  | append_singleton ls x ih =>
    rw [foldl_keep_append, List.mem_append, List.mem_singleton]
    rcases keep_cases unset r (ls.foldl (keep unset r) (unset, p)) x with ⟨heq, -⟩ | ⟨heq, -, hset⟩
    · exact Or.inr heq
    · rw [heq]
      refine Or.inl (ih ?_)
      rintro rfl
      exact hset rfl

/-- If no value is worse than the one that stands for none, where that occurs, then the best is kept. -/
theorem foldl_keep_best [IsTrans α r] [Std.Total r] (hunset : unset ∈ ls.map Prod.fst → ∀ y ∈ ls, r y.1 unset) :
    ∀ y ∈ ls, r (ls.foldl (keep unset r) (unset, p)).1 y.1 := by
  have hrefl : ∀ a, r a a := fun a => (Std.Total.total a a).elim id id
  induction ls using List.reverseRecOn with
  | nil => simp
  | append_singleton ls x ih =>
    rw [List.map_append] at hunset
    have hbest := ih fun hq y hy => hunset (List.mem_append_left _ hq) y (List.mem_append_left _ hy)
    rw [foldl_keep_append]
    intro y hy
    rw [List.mem_append, List.mem_singleton] at hy
    rcases keep_cases unset r (ls.foldl (keep unset r) (unset, p)) x with ⟨heq, hx⟩ | ⟨heq, hx, -⟩
    · rw [heq]
      rcases hy with hy | rfl
      · have hmem : ls.foldl (keep unset r) (unset, p) ∈ ls :=
          foldl_keep_mem unset r p ls (List.ne_nil_of_mem hy)
        have hcurrent : r x.1 (ls.foldl (keep unset r) (unset, p)).1 := by
          rcases hx with hx | hx
          · exact hx
          · rw [hx]
            exact hunset (List.mem_append_left _ (List.mem_map.mpr ⟨_, hmem, hx⟩)) x (by simp)
        exact IsTrans.trans _ _ _ hcurrent (hbest y hy)
      · exact hrefl _
    · rw [heq]
      rcases hy with hy | rfl
      · exact hbest y hy
      · exact (Std.Total.total _ _).resolve_left hx

theorem foldl_keep_eq_unset_iff (hbest : ∀ a, r unset a) :
    ((ls ++ [x]).foldl (keep unset r) (unset, p)).1 = unset ↔ x.1 = unset := by
  rw [foldl_keep_append]
  rcases keep_cases unset r (ls.foldl (keep unset r) (unset, p)) x with ⟨heq, -⟩ | ⟨heq, hx, hset⟩
  · rw [heq]
  · rw [heq]
    exact iff_of_false hset fun h => hx (h ▸ hbest _)

end Lib.Extremum
