import MultitaskOs.Lib.Memory

/-!
# Reads of a memory

A computation on a memory that it does not write, with the ranges that it reads.
Whether they all lie in one buffer is told by a rule for each way to build one.
-/

namespace Lib.Memory

/-- What is computed, and the ranges that were read for it, each with its length. -/
def Reading (α : Type) : Type := Mem → α × List (Addr × Nat)

namespace Reading

variable {α β : Type} {m : Mem} {a p : Addr} {n k : Nat}

def value (x : Reading α) (m : Mem) : α := (x m).1

def reads (x : Reading α) (m : Mem) : List (Addr × Nat) := (x m).2

instance : Monad Reading where
  pure v := fun _ => (v, [])
  bind x f := fun m => ((f (x m).1 m).1, (x m).2 ++ (f (x m).1 m).2)

def read8 (p : Addr) : Reading Byte := fun m => (m p, [(p, 1)])

def read16 (p : Addr) : Reading (BitVec 16) := fun m => (load16 m p, [(p, 2)])

def read32 (p : Addr) : Reading (BitVec 32) := fun m => (load32 m p, [(p, 4)])

/-! ## What is computed -/

@[simp] theorem value_pure (v : α) : value (pure v) m = v := rfl

@[simp] theorem value_bind (x : Reading α) (f : α → Reading β) : value (x >>= f) m = (f (x.value m)).value m := rfl

@[simp] theorem value_map (f : α → β) (x : Reading α) : value (f <$> x) m = f (x.value m) := rfl

@[simp] theorem value_read8 : (read8 p).value m = m p := rfl

@[simp] theorem value_read16 : (read16 p).value m = load16 m p := rfl

@[simp] theorem value_read32 : (read32 p).value m = load32 m p := rfl

@[simp] theorem value_ite (c : Prop) [Decidable c] (x y : Reading α) :
    (if c then x else y).value m = if c then x.value m else y.value m := apply_ite (value · m) c x y

@[simp] theorem value_and (x y : Reading Bool) : (x <&&> y).value m = (x.value m && y.value m) := by
  unfold andM
  rw [value_bind]
  cases x.value m <;> rfl

@[simp] theorem value_or (x y : Reading Bool) : (x <||> y).value m = (x.value m || y.value m) := by
  unfold orM
  rw [value_bind]
  cases x.value m <;> rfl

/-! ## What is read -/

/-- Every byte that is read is one of the `n` bytes from `a` on. -/
def Inside (m : Mem) (a : Addr) (n : Nat) (x : Reading α) : Prop :=
  ∀ r ∈ x.reads m, ∀ i < r.2, Within a n (r.1 + BitVec.ofNat 32 i)

theorem inside_pure (v : α) : Inside m a n (pure v) := fun _ hr => absurd hr List.not_mem_nil

@[simp] theorem inside_pure_iff (v : α) : Inside m a n (pure v) ↔ True := iff_true_intro (inside_pure v)

@[simp] theorem inside_bind (x : Reading α) (f : α → Reading β) :
    Inside m a n (x >>= f) ↔ Inside m a n x ∧ Inside m a n (f (x.value m)) := by
  unfold Inside
  show (∀ r ∈ x.reads m ++ (f (x.value m)).reads m, _) ↔ _
  simp only [List.mem_append, or_imp, forall_and]

@[simp] theorem inside_map (f : α → β) (x : Reading α) : Inside m a n (f <$> x) ↔ Inside m a n x :=
  (inside_bind x fun v => pure (f v)).trans (and_iff_left (inside_pure _))

theorem inside_ite (c : Prop) [Decidable c] (x y : Reading α) :
    Inside m a n (if c then x else y) ↔ (c → Inside m a n x) ∧ (¬ c → Inside m a n y) := by
  split <;> simp [*]

theorem inside_and (x y : Reading Bool) :
    Inside m a n (x <&&> y) ↔ Inside m a n x ∧ (x.value m = true → Inside m a n y) := by
  refine (inside_bind x _).trans (and_congr_right fun _ => ?_)
  cases x.value m <;> simp [ToBool.toBool]

theorem inside_or (x y : Reading Bool) :
    Inside m a n (x <||> y) ↔ Inside m a n x ∧ (x.value m = false → Inside m a n y) := by
  refine (inside_bind x _).trans (and_congr_right fun _ => ?_)
  cases x.value m <;> simp [ToBool.toBool]

theorem range_within (hn : n < 2 ^ 32) (hk : 0 < k) :
    (∀ i < k, Within a n (p + BitVec.ofNat 32 i)) ↔ (p - a).toNat + k ≤ n := by
  constructor
  · intro h
    by_contra hout
    have h0 := h 0 hk
    have hlast := h (n - (p - a).toNat) (by omega)
    unfold Within at h0 hlast
    bv_omega
  · intro h i hi
    unfold Within
    bv_omega

theorem inside_read8 (hn : n < 2 ^ 32) : Inside m a n (read8 p) ↔ (p - a).toNat + 1 ≤ n := by
  rw [← range_within hn Nat.one_pos]
  exact List.forall_mem_singleton

theorem inside_read16 (hn : n < 2 ^ 32) : Inside m a n (read16 p) ↔ (p - a).toNat + 2 ≤ n := by
  rw [← range_within hn Nat.two_pos]
  exact List.forall_mem_singleton

theorem inside_read32 (hn : n < 2 ^ 32) : Inside m a n (read32 p) ↔ (p - a).toNat + 4 ≤ n := by
  rw [← range_within hn (Nat.succ_pos 3)]
  exact List.forall_mem_singleton

end Reading

end Lib.Memory
