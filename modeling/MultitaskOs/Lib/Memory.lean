import Mathlib.Tactic
import Mathlib.Data.List.GetD

/-!
# Byte memory

A 32-bit address space of bytes, with little-endian loads and stores. Two ranges
are apart when no byte is in both; addresses wrap, so `Apart` measures the
distance both ways round.
-/

namespace Lib.Memory

abbrev Addr := BitVec 32

abbrev Byte := BitVec 8

abbrev Mem := Addr → Byte

/-! ## Ranges -/

/-- The byte at `x` is one of the `n` bytes from `a` on. -/
def Within (a : Addr) (n : Nat) (x : Addr) : Prop := (x - a).toNat < n

instance (a : Addr) (n : Nat) (x : Addr) : Decidable (Within a n x) := Nat.decLt _ _

/-- The `n` bytes from `a` on and the `k` bytes from `b` on share no byte. -/
def Apart (a : Addr) (n : Nat) (b : Addr) (k : Nat) : Prop :=
  n ≤ (b - a).toNat ∧ k ≤ (a - b).toNat

instance (a : Addr) (n : Nat) (b : Addr) (k : Nat) : Decidable (Apart a n b k) :=
  instDecidableAnd

theorem Apart.symm {a b : Addr} {n k : Nat} (h : Apart a n b k) : Apart b k a n := ⟨h.2, h.1⟩

theorem Apart.not_within {a b x : Addr} {n k : Nat} (h : Apart a n b k) (hx : Within b k x) :
    ¬ Within a n x := by
  obtain ⟨h1, h2⟩ := h
  unfold Within at *
  bv_omega

theorem apart_of_le {a b : Addr} {n k : Nat} (ha : a.toNat + n ≤ 2 ^ 32) (hb : b.toNat + k ≤ 2 ^ 32)
    (h : a.toNat + n ≤ b.toNat ∨ b.toNat + k ≤ a.toNat) (hn : 0 < n) (hk : 0 < k) :
    Apart a n b k := by
  unfold Apart
  constructor <;> bv_omega

theorem Apart.sub {a b a' b' : Addr} {n k n' k' : Nat} (h : Apart a n b k)
    (ha : (a' - a).toNat + n' ≤ n) (hb : (b' - b).toNat + k' ≤ k) (hn : 0 < n') (hk : 0 < k') :
    Apart a' n' b' k' := by
  obtain ⟨h1, h2⟩ := h
  unfold Apart
  constructor <;> bv_omega

/-! ## Loads and stores -/

def load16 (m : Mem) (a : Addr) : BitVec 16 := m (a + 1) ++ m a

def load32 (m : Mem) (a : Addr) : BitVec 32 := m (a + 3) ++ m (a + 2) ++ m (a + 1) ++ m a

def store8 (m : Mem) (a : Addr) (v : Byte) : Mem := fun x => if x = a then v else m x

def store32 (m : Mem) (a : Addr) (v : BitVec 32) : Mem := fun x =>
  if (x - a).toNat < 4 then v.extractLsb' (8 * (x - a).toNat) 8 else m x

def storeBytes (m : Mem) (a : Addr) (bs : List Byte) : Mem := fun x =>
  bs.getD (x - a).toNat (m x)

def readBytes (m : Mem) (a : Addr) (n : Nat) : List Byte :=
  (List.range n).map fun i => m (a + BitVec.ofNat 32 i)

def zero (m : Mem) (a : Addr) (n : Nat) : Mem := fun x => if (x - a).toNat < n then 0 else m x

theorem store32_of_not_within {m : Mem} {a x : Addr} {v : BitVec 32} (h : ¬ Within a 4 x) :
    store32 m a v x = m x := if_neg h

theorem zero_of_not_within {m : Mem} {a x : Addr} {n : Nat} (h : ¬ Within a n x) :
    zero m a n x = m x := if_neg h

theorem storeBytes_of_not_within {m : Mem} {a x : Addr} {bs : List Byte}
    (h : ¬ Within a bs.length x) : storeBytes m a bs x = m x := by
  unfold storeBytes Within at *
  rw [List.getD_eq_default _ _ (by omega)]

theorem storeBytes_at {m : Mem} {a : Addr} {bs : List Byte} {i : Nat} (hi : i < bs.length)
    (hlen : bs.length ≤ 2 ^ 32) : storeBytes m a bs (a + BitVec.ofNat 32 i) = bs[i] := by
  have h : (a + BitVec.ofNat 32 i - a).toNat = i := by bv_omega
  unfold storeBytes
  rw [h, List.getD_eq_getElem _ _ hi]

theorem storeBytes_append {m : Mem} {out : Addr} {as bs : List Byte} {n : Nat} (hn : as.length = n)
    (hlen : (as ++ bs).length ≤ 2 ^ 32) :
    storeBytes (storeBytes m out as) (out + BitVec.ofNat 32 n) bs = storeBytes m out (as ++ bs) := by
  subst hn
  rw [List.length_append] at hlen
  funext x
  unfold storeBytes
  by_cases ha : (x - out).toNat < as.length
  · rw [List.getD_append _ _ _ _ ha, ← List.getD_append as [] _ _ ha, List.append_nil, List.getD_eq_default]
    bv_omega
  · have hoff : bs.length ≠ 0 → (x - (out + BitVec.ofNat 32 as.length)).toNat = (x - out).toNat - as.length := by
      intro h0
      bv_omega
    rw [List.getD_append_right _ _ _ _ (by omega), List.getD_eq_default as _ (by omega)]
    by_cases h0 : bs.length = 0
    · rw [List.eq_nil_of_length_eq_zero h0]
      rfl
    · rw [hoff h0]

/-- Two memories agree on the `n` bytes from `a` on. -/
def Agree (m m' : Mem) (a : Addr) (n : Nat) : Prop := ∀ x, Within a n x → m' x = m x

theorem Agree.trans {m m' m'' : Mem} {a : Addr} {n : Nat} (h : Agree m m' a n)
    (h' : Agree m' m'' a n) : Agree m m'' a n := fun x hx => (h' x hx).trans (h x hx)

theorem Agree.refl (m : Mem) (a : Addr) (n : Nat) : Agree m m a n := fun _ _ => rfl

theorem Agree.sub {m m' : Mem} {a b : Addr} {n k : Nat} (h : Agree m m' a n)
    (hb : (b - a).toNat + k ≤ n) : Agree m m' b k := by
  intro x hx
  apply h
  unfold Within at *
  bv_omega

theorem Agree.load32 {m m' : Mem} {a : Addr} (h : Agree m m' a 4) : load32 m' a = load32 m a := by
  have h0 := h a (by unfold Within; bv_omega)
  have h1 := h (a + 1) (by unfold Within; bv_omega)
  have h2 := h (a + 2) (by unfold Within; bv_omega)
  have h3 := h (a + 3) (by unfold Within; bv_omega)
  simp only [Memory.load32, h0, h1, h2, h3]

theorem Agree.load16 {m m' : Mem} {a : Addr} (h : Agree m m' a 2) : load16 m' a = load16 m a := by
  have h0 := h a (by unfold Within; bv_omega)
  have h1 := h (a + 1) (by unfold Within; bv_omega)
  simp only [Memory.load16, h0, h1]

theorem agree_store32 {m : Mem} {a b : Addr} {n : Nat} {v : BitVec 32} (h : Apart a 4 b n) :
    Agree m (store32 m a v) b n := fun _ hx => store32_of_not_within (h.not_within hx)

theorem bytes_append (v : BitVec 32) :
    v.extractLsb' 24 8 ++ v.extractLsb' 16 8 ++ v.extractLsb' 8 8 ++ v.extractLsb' 0 8 = v := by
  ext i hi
  simp only [BitVec.getElem_append, BitVec.getElem_extractLsb']
  interval_cases i <;> simp

theorem load32_store32 (m : Mem) (a : Addr) (v : BitVec 32) : load32 (store32 m a v) a = v := by
  have h1 : (a + 1 - a).toNat = 1 := by bv_omega
  have h2 : (a + 2 - a).toNat = 2 := by bv_omega
  have h3 : (a + 3 - a).toNat = 3 := by bv_omega
  simp only [load32, store32, h1, h2, h3, BitVec.sub_self, BitVec.toNat_zero, Nat.reduceLT,
    Nat.reduceMul, if_true]
  exact bytes_append v

theorem load32_store32_apart {m : Mem} {a b : Addr} {v : BitVec 32} (h : Apart a 4 b 4) :
    load32 (store32 m a v) b = load32 m b := (agree_store32 h).load32

theorem load16_eq_load32 (m : Mem) (a : Addr) : load16 m a = (load32 m a).setWidth 16 := by
  unfold load16 load32
  rw [BitVec.append_assoc, BitVec.setWidth_cast, BitVec.setWidth_append]
  simp

theorem bytes_load32 (m : Mem) (a : Addr) :
    m a = (load32 m a).extractLsb' 0 8 ∧ m (a + 1) = (load32 m a).extractLsb' 8 8 ∧
      m (a + 2) = (load32 m a).extractLsb' 16 8 ∧ m (a + 3) = (load32 m a).extractLsb' 24 8 := by
  unfold load32
  refine ⟨?_, ?_, ?_, ?_⟩
  all_goals
    ext i hi
    simp only [BitVec.getElem_extractLsb', BitVec.getLsbD_append]
    interval_cases i <;> simp

def storeWords (m : Mem) (a : Addr) : List (BitVec 32) → Mem
  | [] => m
  | v :: vs => storeWords (store32 m a v) (a + 4) vs

theorem storeWords_of_not_within {m : Mem} {a x : Addr} {vs : List (BitVec 32)}
    (h : ¬ Within a (4 * vs.length) x) (hlen : 4 * vs.length ≤ 2 ^ 32) : storeWords m a vs x = m x := by
  induction vs generalizing m a with
  | nil => rfl
  | cons v vs ih =>
    rw [List.length_cons] at h hlen
    rw [storeWords, ih _ (by omega), store32_of_not_within]
    · unfold Within at *
      omega
    · unfold Within at *
      bv_omega

theorem load32_storeWords_past {m : Mem} {a o : Addr} {vs : List (BitVec 32)}
    (h : 4 * vs.length ≤ o.toNat) (ho : o.toNat + 4 ≤ 2 ^ 32) :
    load32 (storeWords m a vs) (a + o) = load32 m (a + o) := by
  induction vs generalizing m a o with
  | nil => rfl
  | cons v vs ih =>
    rw [List.length_cons] at h
    have hfirst : Apart a 4 (a + o) 4 := by
      unfold Apart
      constructor <;> bv_omega
    have hoff : a + o = a + 4 + (o - 4) := by bv_omega
    rw [storeWords, hoff, ih (by bv_omega) (by bv_omega), ← hoff, load32_store32_apart hfirst]

theorem load32_storeWords {m : Mem} {a : Addr} {vs : List (BitVec 32)} (hlen : 4 * vs.length < 2 ^ 32)
    {i : Nat} (hi : i < vs.length) : load32 (storeWords m a vs) (a + BitVec.ofNat 32 (4 * i)) = vs[i] := by
  induction vs generalizing m a i with
  | nil => exact absurd hi (Nat.not_lt_zero i)
  | cons v vs ih =>
    rw [List.length_cons] at hlen hi
    rw [storeWords]
    cases i with
    | zero =>
      have h0 : a + BitVec.ofNat 32 (4 * 0) = a + 4 + 0xfffffffc := by bv_omega
      have hback : a + 4 + 0xfffffffc = a := by bv_omega
      have hoff : (0xfffffffc : Addr).toNat = 0xfffffffc := rfl
      rw [h0, load32_storeWords_past (by omega) (by omega), hback, load32_store32]
      rfl
    | succ i =>
      have hnext : a + BitVec.ofNat 32 (4 * (i + 1)) = a + 4 + BitVec.ofNat 32 (4 * i) := by
        rw [Nat.mul_succ, BitVec.ofNat_add, BitVec.add_comm (BitVec.ofNat 32 (4 * i)), ← BitVec.add_assoc]
        rfl
      rw [hnext, ih (by omega) (by omega)]
      rfl

/-! ## Runs of bytes -/

theorem length_readBytes (m : Mem) (a : Addr) (n : Nat) : (readBytes m a n).length = n := by
  simp [readBytes]

theorem add_ofNat_succ (p : Addr) (i : Nat) : p + BitVec.ofNat 32 (i + 1) = p + 1 + BitVec.ofNat 32 i := by
  rw [BitVec.add_assoc, Nat.add_comm, BitVec.ofNat_add]
  rfl

theorem readBytes_succ (m : Mem) (p : Addr) (n : Nat) : readBytes m p (n + 1) = m p :: readBytes m (p + 1) n := by
  unfold readBytes
  rw [List.range_succ_eq_map, List.map_cons, List.map_map]
  refine congrArg₂ _ (by simp) (List.map_congr_left fun i _ => ?_)
  rw [Function.comp_apply, Nat.succ_eq_add_one, add_ofNat_succ]

theorem readBytes_add (m : Mem) (p : Addr) (i j : Nat) :
    readBytes m p (i + j) = readBytes m p i ++ readBytes m (p + BitVec.ofNat 32 i) j := by
  unfold readBytes
  rw [List.range_add, List.map_append, List.map_map]
  refine congrArg _ (List.map_congr_left fun x _ => ?_)
  rw [Function.comp_apply, BitVec.ofNat_add, ← BitVec.add_assoc]

theorem take_readBytes {m : Mem} {n w : Nat} (hw : w ≤ n) (p : Addr) : (readBytes m p n).take w = readBytes m p w := by
  obtain ⟨d, rfl⟩ := Nat.exists_eq_add_of_le hw
  rw [readBytes_add, List.take_left' (length_readBytes _ _ _)]

theorem drop_readBytes {m : Mem} {n w : Nat} (hw : w ≤ n) (p : Addr) :
    (readBytes m p n).drop w = readBytes m (p + BitVec.ofNat 32 w) (n - w) := by
  obtain ⟨d, rfl⟩ := Nat.exists_eq_add_of_le hw
  rw [readBytes_add, List.drop_left' (length_readBytes _ _ _), Nat.add_sub_cancel_left]

theorem readBytes_getD {m : Mem} {p : Addr} {n i : Nat} (hi : i < n) :
    (readBytes m p n).getD i 0 = m (p + BitVec.ofNat 32 i) := by
  have hlen : i < (readBytes m p n).length := by rwa [length_readBytes]
  rw [List.getD_eq_getElem _ _ hlen]
  simp [readBytes]

theorem readBytes_agree {m m' : Mem} {p : Addr} {n : Nat} (h : Agree m m' p n) (hn : n ≤ 2 ^ 32) :
    readBytes m' p n = readBytes m p n := by
  unfold readBytes
  refine List.map_congr_left fun i hi => h _ ?_
  have hi := List.mem_range.mp hi
  unfold Within
  bv_omega

end Lib.Memory
