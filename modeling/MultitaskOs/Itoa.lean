import Mathlib.Data.Nat.Digits.Lemmas
import MultitaskOs.Code.Stdio

/-!
# The decimal numbers of the programs' library

`itoa` works on the negated value, which every `int` has room for, and fills its
buffer from the end.
-/

open Lib.Memory

namespace MultitaskOs.Itoa

/-! ## Decimal numbers -/

/-- The digits of `n`, without leading zeros; none for 0. -/
def digitChars (n : Nat) : List Byte := (Nat.digits 10 n).reverse.map fun d => BitVec.ofNat 8 (48 + d)

def decimal (i : Int) : List Byte :=
  if i = 0 then [48] else (if i < 0 then [45] else []) ++ digitChars i.natAbs

/-- A zero, or digits that do not start with one, perhaps behind a minus sign. -/
def Canonical (s : List Byte) : Prop :=
  s = [48] ∨ ∃ d ds, (s = d :: ds ∨ s = 45 :: d :: ds) ∧ d ≠ 48 ∧ ∀ c ∈ d :: ds, isdigit c

def digitsValue (s : List Byte) : Int := s.foldl (fun v c => 10 * v + tonumericdigit c) 0

def readInt : List Byte → Int
  | [] => 0
  | c :: s => if c = 45 then -digitsValue s else digitsValue (c :: s)

variable {n loc : Nat} {i : Int} {text text' : Nat → Byte}

theorem digitChars_eq (h : n ≠ 0) : digitChars n = digitChars (n / 10) ++ [BitVec.ofNat 8 (48 + n % 10)] := by
  rw [digitChars, Nat.digits_def' (by decide) (Nat.pos_of_ne_zero h), List.reverse_cons, List.map_append]
  rfl

theorem length_digitChars_le (h : n < 10 ^ loc) : (digitChars n).length ≤ loc := by
  rw [digitChars, List.length_map, List.length_reverse]
  exact (Nat.digits_length_le_iff (by decide) n).mpr h

theorem toInt_digit {d : Nat} (h : d < 10) : (BitVec.ofNat 8 (48 + d)).toInt = 48 + d := by
  interval_cases d <;> rfl

theorem isdigit_digitChars : ∀ c ∈ digitChars n, isdigit c := by
  intro c hc
  obtain ⟨d, hd, rfl⟩ := List.mem_map.mp hc
  have hlt := Nat.digits_lt_base (by decide) (List.mem_reverse.mp hd)
  rw [isdigit, toInt_digit hlt]
  simp only [decide_eq_true_eq]
  omega

theorem digitsValue_digitChars (n : Nat) : digitsValue (digitChars n) = n := by
  induction n using Nat.strong_induction_on with
  | _ n ih =>
    by_cases h : n = 0
    · rw [h]
      rfl
    · have hdiv := ih (n / 10) (Nat.div_lt_self (Nat.pos_of_ne_zero h) (by decide))
      rw [digitChars_eq h, digitsValue, List.foldl_append, ← digitsValue, hdiv, List.foldl_cons, List.foldl_nil,
        tonumericdigit, toInt_digit (Nat.mod_lt _ (by decide))]
      omega

theorem digitChars_head (h : n ≠ 0) : ∃ d ds, digitChars n = d :: ds ∧ d ≠ 48 := by
  induction n using Nat.strong_induction_on with
  | _ n ih =>
    rw [digitChars_eq h]
    by_cases hsmall : n < 10
    · rw [Nat.div_eq_of_lt hsmall, Nat.mod_eq_of_lt hsmall]
      refine ⟨_, [], rfl, fun hd => ?_⟩
      have hint := congrArg BitVec.toInt hd
      rw [toInt_digit hsmall] at hint
      have hz : (48 : Byte).toInt = 48 := rfl
      omega
    · obtain ⟨d, ds, heq, hd⟩ := ih (n / 10) (Nat.div_lt_self (Nat.pos_of_ne_zero h) (by decide)) (by omega)
      exact ⟨d, ds ++ [BitVec.ofNat 8 (48 + n % 10)], by rw [heq]; rfl, hd⟩

theorem decimal_canonical (i : Int) : Canonical (decimal i) := by
  unfold decimal Canonical
  split_ifs with h0 hneg
  · exact Or.inl rfl
  all_goals
    obtain ⟨d, ds, heq, hd⟩ := digitChars_head (Int.natAbs_ne_zero.mpr h0)
    have hdigits := isdigit_digitChars (n := i.natAbs)
    rw [heq] at hdigits ⊢
  · exact Or.inr ⟨d, ds, Or.inr rfl, hd, hdigits⟩
  · exact Or.inr ⟨d, ds, Or.inl rfl, hd, hdigits⟩

theorem readInt_decimal (i : Int) : readInt (decimal i) = i := by
  unfold decimal
  split_ifs with h0 hneg
  · rw [h0]
    rfl
  · rw [List.singleton_append, readInt, if_pos rfl, digitsValue_digitChars]
    omega
  · obtain ⟨d, ds, heq, -⟩ := digitChars_head (Int.natAbs_ne_zero.mpr h0)
    have hd : d ≠ 45 := by
      rintro rfl
      exact absurd (isdigit_digitChars (n := i.natAbs) 45 (by rw [heq]; exact List.mem_cons_self)) (by decide)
    rw [List.nil_append, heq, readInt, if_neg hd, ← heq, digitsValue_digitChars]
    omega

theorem noNul_decimal (i : Int) : 0 ∉ decimal i := by
  have h0 : isdigit 0 = false := rfl
  have hdigits : 0 ∉ digitChars i.natAbs := fun h => absurd (isdigit_digitChars 0 h) (by rw [h0]; decide)
  unfold decimal
  split_ifs
  · decide
  · simpa using hdigits
  · simpa using hdigits

/-! ## The buffer -/

theorem signedInt_eq (h1 : -2 ^ 31 ≤ i) (h2 : i < 2 ^ 31) : signedInt i = some i := if_pos ⟨h1, h2⟩

/-- The bytes `s` lie in the buffer before `loc`, and the others are as they were. -/
structure Filled (text text' : Nat → Byte) (loc : Nat) (s : List Byte) : Prop where
  room : s.length ≤ loc
  bytes : ∀ j (h : j < s.length), text' (loc - s.length + j) = s[j]
  rest : ∀ j, j < loc - s.length ∨ loc ≤ j → text' j = text j

theorem Filled.prepend {s : List Byte} {c : Byte} (h : Filled text text' loc s) (hroom : s.length < loc) :
    ∃ text'', MultitaskOs.prepend c (loc - s.length, text') = some (loc - (c :: s).length, text'') ∧
      Filled text text'' loc (c :: s) := by
  obtain ⟨k, hk⟩ := Nat.exists_eq_add_of_lt hroom
  obtain rfl : loc = s.length + k + 1 := hk
  have hlen : s.length + k + 1 - (c :: s).length = k := by
    rw [List.length_cons]
    omega
  have hplace : s.length + k + 1 - s.length = k + 1 := by omega
  rw [hplace, hlen]
  refine ⟨Function.update text' k c, rfl, by rw [List.length_cons]; omega, fun j hj => ?_, fun j hj => ?_⟩
  · rw [hlen]
    cases j with
    | zero => exact Function.update_self _ _ _
    | succ j =>
      have hbyte := h.bytes j (by simpa using hj)
      rw [hplace] at hbyte
      rw [Function.update_of_ne (by omega), List.getElem_cons_succ, ← hbyte]
      congr 1
      omega
  · rw [hlen] at hj
    rw [Function.update_of_ne (by omega), h.rest j (by omega)]

theorem itoaLoop_filled (text : Nat → Byte) (hn : n ≤ 2 ^ 31) (hroom : n < 10 ^ loc) : ∃ text',
    itoaLoop loc (-n) text = some (loc - (digitChars n).length, text') ∧ Filled text text' loc (digitChars n) := by
  induction loc generalizing n text with
  | zero =>
    obtain rfl : n = 0 := by omega
    exact ⟨text, rfl, le_rfl, fun j h => absurd h (Nat.not_lt_zero j), fun _ _ => rfl⟩
  | succ loc ih =>
    by_cases h0 : n = 0
    · subst h0
      exact ⟨text, rfl, Nat.zero_le _, fun j h => absurd h (Nat.not_lt_zero j), fun _ _ => rfl⟩
    · have hmod : (-(n : Int)).tmod 10 = -((n % 10 : Nat) : Int) := by
        rw [Int.neg_tmod]
        rfl
      have hdiv : (-(n : Int)).tdiv 10 = -((n / 10 : Nat) : Int) := by
        rw [Int.neg_tdiv]
        rfl
      have hdigit : BitVec.ofInt 8 (48 - -((n % 10 : Nat) : Int)) = BitVec.ofNat 8 (48 + n % 10) := by
        rw [← BitVec.ofInt_natCast]
        congr 1
        push_cast
        ring
      obtain ⟨text', hloop, hfilled⟩ := ih (n := n / 10)
        (Function.update text loc (BitVec.ofNat 8 (48 + n % 10))) (by omega) (by rw [pow_succ] at hroom; omega)
      have hchars := digitChars_eq h0
      have happ : (digitChars (n / 10) ++ [BitVec.ofNat 8 (48 + n % 10)]).length = (digitChars (n / 10)).length + 1 :=
        List.length_append
      have hlen : (digitChars n).length = (digitChars (n / 10)).length + 1 := by rw [hchars, happ]
      have hfit := hfilled.room
      refine ⟨text', ?_, ?_, fun j hj => ?_, fun j hj => ?_⟩
      · rw [itoaLoop, if_neg (by omega)]
        simp only [hmod, hdiv]
        rw [signedInt_eq (by omega) (by omega), Option.bind_eq_bind, Option.bind_some,
          signedInt_eq (by omega) (by omega), Option.bind_some, hdigit, signedInt_eq (by omega) (by omega),
          Option.bind_some, hloop]
        congr 2
        omega
      · omega
      · simp only [hchars]
        rcases Nat.lt_or_ge j (digitChars (n / 10)).length with hlt | hge
        · rw [List.getElem_append_left hlt, ← hfilled.bytes j hlt]
          congr 1
          omega
        · obtain rfl : j = (digitChars (n / 10)).length := by omega
          have hloc : loc + 1 - (digitChars (n / 10) ++ [BitVec.ofNat 8 (48 + n % 10)]).length +
              (digitChars (n / 10)).length = loc := by omega
          rw [hloc, hfilled.rest loc (Or.inr le_rfl), Function.update_self]
          simp
      · rw [hfilled.rest j (by omega), Function.update_of_ne (by omega)]

theorem textFrom_filled {s : List Byte} (h : Filled (Function.update text 11 0) text' 11 s) :
    textFrom (11 - s.length, text') = s ++ [0] := by
  have hroom := h.room
  unfold textFrom
  refine List.ext_getElem ?_ fun j h1 h2 => ?_
  · simp only [List.length_map, List.length_range, List.length_append, List.length_singleton]
    omega
  · simp only [List.length_append, List.length_singleton] at h2
    simp only [List.getElem_map, List.getElem_range]
    rcases Nat.lt_or_ge j s.length with hlt | hge
    · rw [h.bytes j hlt, List.getElem_append_left hlt]
    · obtain rfl : j = s.length := by omega
      rw [Nat.sub_add_cancel hroom, h.rest 11 (Or.inr le_rfl), Function.update_self]
      simp

theorem itoa_filled (text : Nat → Byte) (h1 : -2 ^ 31 ≤ i) (h2 : i < 2 ^ 31) : ∃ text',
    itoa text i = some (11 - (decimal i).length, text') ∧
      Filled (Function.update text 11 0) text' 11 (decimal i) := by
  have hn : i.natAbs ≤ 2 ^ 31 := by omega
  have hdigits : i.natAbs < 10 ^ 11 := hn.trans_lt (by norm_num)
  obtain ⟨text', hloop, hfilled⟩ := itoaLoop_filled (Function.update text 11 0) hn hdigits
  have hten : (digitChars i.natAbs).length ≤ 10 := length_digitChars_le (hn.trans_lt (by norm_num))
  have hneg : (if i ≥ 0 then signedInt (-i) else some i) = some (-(i.natAbs : Int)) := by
    split_ifs
    · rw [signedInt_eq (by omega) (by omega)]
      congr 1
      omega
    · congr 1
      omega
  rw [itoa]
  simp only [hneg, hloop, Option.bind_eq_bind, Option.bind_some]
  unfold decimal
  by_cases h0 : i = 0
  · subst h0
    obtain ⟨text'', hpre, hfilled'⟩ := hfilled.prepend (c := 48) (by decide)
    rw [if_pos (show 11 - (digitChars (Int.natAbs 0)).length = 11 from rfl), hpre]
    exact ⟨text'', rfl, hfilled'⟩
  · obtain ⟨d, ds, hds, -⟩ := digitChars_head (Int.natAbs_ne_zero.mpr h0)
    have hpos : 0 < (digitChars i.natAbs).length := by simp [hds]
    rw [if_neg (by omega), Option.bind_some, if_neg h0]
    by_cases hlt : i < 0
    · obtain ⟨text'', hpre, hfilled'⟩ := hfilled.prepend (c := 45) (by omega)
      rw [if_pos (by simpa using hlt), if_pos hlt, hpre]
      exact ⟨text'', rfl, hfilled'⟩
    · rw [if_neg (by simpa using hlt), if_neg hlt]
      exact ⟨text', rfl, hfilled⟩

/-- For every `int`: no operation overflows, nothing is written outside the twelve bytes, and the
string is the canonical one that reads back as the number. -/
theorem itoa_decimal (text : Nat → Byte) (h1 : -2 ^ 31 ≤ i) (h2 : i < 2 ^ 31) : ∃ loc text',
    itoa text i = some (loc, text') ∧ loc < 12 ∧ (∀ j, 12 ≤ j → text' j = text j) ∧
      textFrom (loc, text') = decimal i ++ [0] ∧ 0 ∉ decimal i ∧ Canonical (decimal i) ∧ readInt (decimal i) = i := by
  obtain ⟨text', hitoa, hfilled⟩ := itoa_filled text h1 h2
  refine ⟨_, text', hitoa, by omega, fun j hj => ?_, textFrom_filled hfilled, noNul_decimal i, decimal_canonical i,
    readInt_decimal i⟩
  rw [hfilled.rest j (Or.inr (by omega)), Function.update_of_ne (by omega)]

/-- The least `int`, whose negation is none. -/
theorem itoa_decimal_least : ∃ loc text',
    itoa (fun _ => 0) (-2 ^ 31) = some (loc, text') ∧ loc < 12 ∧ (∀ j, 12 ≤ j → text' j = 0) ∧
      textFrom (loc, text') = decimal (-2 ^ 31) ++ [0] ∧ 0 ∉ decimal (-2 ^ 31) ∧ Canonical (decimal (-2 ^ 31)) ∧
      readInt (decimal (-2 ^ 31)) = -2 ^ 31 :=
  itoa_decimal (fun _ => 0) (by decide) (by decide)

end MultitaskOs.Itoa
