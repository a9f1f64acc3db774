import Mathlib.Tactic

/-!
# Masks

An aligned address keeps its low bits for flags. These facts take such a word
apart again.
-/

namespace Lib.Bits

variable {w : Nat}

theorem getLsbD_of_aligned {x : BitVec w} {k i : Nat} (h : x.toNat % 2 ^ k = 0) (hi : i < k) :
    x.getLsbD i = false := by
  rw [BitVec.getLsbD]
  have := Nat.testBit_mod_two_pow x.toNat k i
  rw [h, Nat.zero_testBit] at this
  simpa [hi] using this.symm

theorem getLsbD_of_lt {x : BitVec w} {k i : Nat} (h : x.toNat < 2 ^ k) (hi : k ≤ i) :
    x.getLsbD i = false :=
  Nat.testBit_lt_two_pow (lt_of_lt_of_le h (Nat.pow_le_pow_right (by omega) hi))

theorem getLsbD_high_mask {k i : Nat} (hi : i < w) :
    (~~~ BitVec.ofNat w (2 ^ k - 1)).getLsbD i = decide (k ≤ i) := by
  rw [BitVec.getLsbD_not, BitVec.getLsbD_ofNat, Nat.testBit_two_pow_sub_one]
  by_cases h : i < k
  · simp [hi, h]
  · simp [hi, h]
    omega

theorem or_and_high_mask {x f : BitVec w} {k : Nat} (hx : x.toNat % 2 ^ k = 0)
    (hf : f.toNat < 2 ^ k) : (x ||| f) &&& ~~~ BitVec.ofNat w (2 ^ k - 1) = x := by
  apply BitVec.eq_of_getLsbD_eq
  intro i hi
  rw [BitVec.getLsbD_and, BitVec.getLsbD_or, getLsbD_high_mask hi]
  by_cases h : k ≤ i
  · simp [h, getLsbD_of_lt hf h]
  · have hlt : i < k := by omega
    simp [h, getLsbD_of_aligned hx hlt]

theorem or_and_low {x f bit : BitVec w} {k : Nat} (hx : x.toNat % 2 ^ k = 0) (hb : bit.toNat < 2 ^ k) :
    (x ||| f) &&& bit = f &&& bit := by
  apply BitVec.eq_of_getLsbD_eq
  intro i hi
  rw [BitVec.getLsbD_and, BitVec.getLsbD_or, BitVec.getLsbD_and]
  by_cases h : k ≤ i
  · simp [getLsbD_of_lt hb h]
  · simp [getLsbD_of_aligned hx (not_le.mp h)]

end Lib.Bits
