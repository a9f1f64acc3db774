import Mathlib.Tactic

/-!
# Runs of a step function

A program that takes one call after another is a step function on its state.
The rules here carry a fact about one step to every run, and say exactly which
runs keep a property.
-/

namespace Lib.Run

variable {σ α : Type*}

/-- The state after the actions, taken in order. -/
def run (step : σ → α → σ) (s : σ) (as : List α) : σ := as.foldl step s

/-- `P` holds of the first state and of every state the run reaches. -/
def Along (step : σ → α → σ) (P : σ → Prop) : σ → List α → Prop
  | s, [] => P s
  | s, a :: as => P s ∧ Along step P (step s a) as

/-- `ok` holds of each action in the state that takes it. -/
def Each (step : σ → α → σ) (ok : σ → α → Prop) : σ → List α → Prop
  | _, [] => True
  | s, a :: as => ok s a ∧ Each step ok (step s a) as

variable {step : σ → α → σ} {P Inv : σ → Prop} {ok legal : σ → α → Prop} {s : σ}

@[simp] theorem run_nil : run step s [] = s := rfl

@[simp] theorem run_cons (a : α) (as : List α) :
    run step s (a :: as) = run step (step s a) as := rfl

@[simp] theorem along_nil : Along step P s [] ↔ P s := Iff.rfl

@[simp] theorem along_cons (a : α) (as : List α) :
    Along step P s (a :: as) ↔ P s ∧ Along step P (step s a) as := Iff.rfl

@[simp] theorem each_nil : Each step ok s [] := trivial

@[simp] theorem each_cons (a : α) (as : List α) :
    Each step ok s (a :: as) ↔ ok s a ∧ Each step ok (step s a) as := Iff.rfl

theorem run_append (as bs : List α) : run step s (as ++ bs) = run step (run step s as) bs :=
  List.foldl_append

theorem each_append (as bs : List α) :
    Each step ok s (as ++ bs) ↔ Each step ok s as ∧ Each step ok (run step s as) bs := by
  induction as generalizing s with
  | nil => simp
  | cons a as ih => rw [List.cons_append, each_cons, ih, each_cons, run_cons, and_assoc]

theorem Along.head {as : List α} (h : Along step P s as) : P s := by
  cases as with
  | nil => exact h
  | cons a as => exact h.1

theorem along_iff_take (as : List α) :
    Along step P s as ↔ ∀ n ≤ as.length, P (run step s (as.take n)) := by
  induction as generalizing s with
  | nil => simp
  | cons a as ih =>
    rw [along_cons, ih]
    constructor
    · rintro ⟨h0, h⟩ n hn
      cases n with
      | zero => exact h0
      | succ n => exact h n (by simpa using hn)
    · intro h
      refine ⟨h 0 (by simp), ?_⟩
      intro n hn
      exact h (n + 1) (by simpa using hn)

theorem Along.each_next {as : List α} (h : Along step P s as) :
    Each step (fun s a => P (step s a)) s as := by
  induction as generalizing s with
  | nil => trivial
  | cons a as ih => exact ⟨h.2.head, ih h.2⟩

theorem Each.imp {ok' : σ → α → Prop} (h : ∀ s a, ok s a → ok' s a) {as : List α}
    (he : Each step ok s as) : Each step ok' s as := by
  induction as generalizing s with
  | nil => trivial
  | cons a as ih => exact ⟨h s a he.1, ih he.2⟩

theorem each_iff_forall {Q : α → Prop} {as : List α} :
    Each step (fun _ a => Q a) s as ↔ ∀ a ∈ as, Q a := by
  induction as generalizing s with
  | nil => simp
  | cons a as ih => rw [each_cons, ih, List.forall_mem_cons]

theorem each_and {ok' : σ → α → Prop} {as : List α} :
    Each step (fun s a => ok s a ∧ ok' s a) s as ↔ Each step ok s as ∧ Each step ok' s as := by
  induction as generalizing s with
  | nil => simp
  | cons a as ih =>
    rw [each_cons, ih, each_cons, each_cons]
    tauto

theorem along_of_inv (hstep : ∀ s a, Inv s → ok s a → Inv (step s a)) {as : List α}
    (h0 : Inv s) (hok : Each step ok s as) : Along step Inv s as := by
  induction as generalizing s with
  | nil => exact h0
  | cons a as ih => exact ⟨h0, ih (hstep s a h0 hok.1) hok.2⟩

theorem run_of_inv (Inv : σ → Prop) (h0 : Inv s) (hstep : ∀ s a, Inv s → Inv (step s a)) {as : List α} :
    Inv (run step s as) := by
  induction as generalizing s with
  | nil => exact h0
  | cons a as ih => exact ih (hstep s a h0)

theorem Along.mono (h : ∀ s, P s → Inv s) {as : List α} (hP : Along step P s as) :
    Along step Inv s as := by
  induction as generalizing s with
  | nil => exact h s hP
  | cons a as ih => exact ⟨h s hP.1, ih hP.2⟩

/-- Sizes that no step raises by more than one stay below a bound that the run is too short to
reach. -/
theorem along_of_growth {ι : Type*} (size : σ → ι → Nat) {N : Nat}
    (hstep : ∀ s a i, size (step s a) i ≤ size s i + 1) {as : List α} (h : ∀ i, size s i + as.length ≤ N) :
    Along step (fun s => ∀ i, size s i ≤ N) s as := by
  induction as generalizing s with
  | nil => exact h
  | cons a as ih =>
    refine ⟨fun i => (Nat.le_add_right _ _).trans (h i), ih fun i => ?_⟩
    have hi := h i
    have hs := hstep s a i
    rw [List.length_cons] at hi
    omega

theorem each_of_inv {Q : σ → α → Prop} (hstep : ∀ s a, Inv s → ok s a → Inv (step s a))
    (hQ : ∀ s a, Inv s → ok s a → Q s a) {as : List α} (h0 : Inv s)
    (hok : Each step ok s as) : Each step Q s as := by
  induction as generalizing s with
  | nil => trivial
  | cons a as ih => exact ⟨hQ s a h0 hok.1, ih (hstep s a h0 hok.1) hok.2⟩

/-- The exact condition: if an `ok` step keeps the invariant and any other step
breaks `P` at once, the runs that keep `P` are the runs of `ok` steps. -/
theorem along_iff_each (Inv : σ → Prop) (hP : ∀ s, Inv s → P s)
    (hgood : ∀ s a, Inv s → legal s a → ok s a → Inv (step s a))
    (hbad : ∀ s a, Inv s → legal s a → ¬ ok s a → ¬ P (step s a))
    {as : List α} (h0 : Inv s) (hlegal : Each step legal s as) :
    Along step P s as ↔ Each step ok s as := by
  induction as generalizing s with
  | nil => simpa using hP s h0
  | cons a as ih =>
    by_cases hok : ok s a
    · simp only [along_cons, each_cons, hP s h0, hok, true_and]
      exact ih (hgood s a h0 hlegal.1 hok) hlegal.2
    · simp only [along_cons, each_cons, hok, false_and, iff_false, not_and]
      intro _ h
      exact hbad s a h0 hlegal.1 hok h.head

/-! ## Answers -/

section Answers

variable {τ β : Type*} {f : σ → α → σ × β} {g : τ → α → τ × β} {t : τ}

/-- What a program answers to each of its calls, in order. -/
def answers (f : σ → α → σ × β) : σ → List α → List β
  | _, [] => []
  | s, a :: as => (f s a).2 :: answers f (f s a).1 as

/-- Two programs that answer the same and stay related, call after call, answer the same in every run. -/
theorem answers_simulated (R : σ → τ → Prop) (hstep : ∀ s t a, R s t → (f s a).2 = (g t a).2 ∧ R (f s a).1 (g t a).1)
    (h : R s t) (as : List α) : answers f s as = answers g t as := by
  induction as generalizing s t with
  | nil => rfl
  | cons a as ih =>
    obtain ⟨hout, hnext⟩ := hstep s t a h
    rw [answers, answers, hout, ih hnext]

end Answers

/-! ## Counted loops -/

/-- `for (i = 0; i < n; i++) s = body(i, s)` -/
def forN {σ : Type*} (n : Nat) (body : Nat → σ → σ) (s : σ) : σ :=
  match n with
  | 0 => s
  | n + 1 => body n (forN n body s)

@[simp] theorem forN_zero (body : Nat → σ → σ) (s : σ) : forN 0 body s = s := rfl

theorem forN_succ (n : Nat) (body : Nat → σ → σ) (s : σ) :
    forN (n + 1) body s = body n (forN n body s) := rfl

theorem forN_of_inv {n : Nat} {body : Nat → σ → σ} {s : σ} (Inv : Nat → σ → Prop)
    (h0 : Inv 0 s) (hstep : ∀ i s, i < n → Inv i s → Inv (i + 1) (body i s)) :
    Inv n (forN n body s) := by
  induction n with
  | zero => exact h0
  | succ n ih =>
    rw [forN_succ]
    exact hstep n _ (by omega) (ih fun i s hi => hstep i s (by omega))

-- A loop of a thousand turns is not to be unfolded to check a type.
attribute [irreducible] forN

end Lib.Run
