import MultitaskOs.Lib.Memory
import Mathlib.Data.List.TakeWhile

/-!
# Strings in memory

A string is bytes up to a zero. The loop that copies one may read what it has
just written, and then it copies something else.
-/

open Lib.Memory

namespace Lib.CString

variable {m m' : Mem} {a dest : Addr} {s t : List Byte} {n : Nat} {read : Mem → Nat → Byte}

/-! ## Strings -/

/-- The string `s` lies at `a`, with its zero. -/
structure At (m : Mem) (a : Addr) (s : List Byte) : Prop where
  noNul : 0 ∉ s
  bytes : readBytes m a (s.length + 1) = s ++ [0]

/-- The string at `a`, cut to `n` bytes. -/
def textAt (m : Mem) (a : Addr) (n : Nat) : List Byte := (readBytes m a n).takeWhile (· ≠ 0)

theorem textAt_succ (m : Mem) (a : Addr) (n : Nat) :
    textAt m a (n + 1) = if m a = 0 then [] else m a :: textAt m (a + 1) n := by
  rw [textAt, readBytes_succ, List.takeWhile_cons]
  by_cases h : m a = 0 <;> simp [h, textAt]

theorem length_textAt_le (m : Mem) (a : Addr) (n : Nat) : (textAt m a n).length ≤ n := by
  have h := (List.takeWhile_prefix (l := readBytes m a n) (· ≠ 0)).length_le
  rwa [length_readBytes] at h

theorem textAt_noNul (m : Mem) (a : Addr) (n : Nat) : 0 ∉ textAt m a n := by
  intro h
  have h0 := List.mem_takeWhile_imp h
  simp at h0

theorem textAt_getElem {i : Nat} (h : i < (textAt m a n).length) : (textAt m a n)[i] = m (a + BitVec.ofNat 32 i) := by
  have hi : i < n := h.trans_le (length_textAt_le m a n)
  have hread : i < (readBytes m a n).length := by rwa [length_readBytes]
  have hget : (textAt m a n)[i] = (readBytes m a n)[i] :=
    (List.takeWhile_prefix _).getElem h
  rw [hget]
  simp [readBytes]

theorem textAt_end (h : (textAt m a n).length < n) : m (a + BitVec.ofNat 32 (textAt m a n).length) = 0 := by
  induction n generalizing a with
  | zero => exact absurd h (Nat.not_lt_zero _)
  | succ n ih =>
    by_cases h0 : m a = 0
    · rw [textAt_succ, if_pos h0]
      simpa using h0
    · rw [textAt_succ, if_neg h0, List.length_cons] at h ⊢
      rw [add_ofNat_succ]
      exact ih (by omega)

theorem textAt_getD {i : Nat} (h : i ≤ (textAt m a n).length) (hi : i < n) :
    (textAt m a n).getD i 0 = m (a + BitVec.ofNat 32 i) := by
  rcases h.lt_or_eq with hlt | heq
  · rw [List.getD_eq_getElem _ _ hlt, textAt_getElem]
  · rw [heq] at hi ⊢
    rw [textAt_end hi]
    simp

theorem at_textAt (h : (textAt m a n).length < n) : At m a (textAt m a n) := by
  refine ⟨textAt_noNul m a n, ?_⟩
  have hread : readBytes m a (textAt m a n).length = textAt m a n := by
    rw [← take_readBytes h.le a]
    exact (List.prefix_iff_eq_take.mp (List.takeWhile_prefix _)).symm
  rw [readBytes_add, hread]
  simp [readBytes, textAt_end h]

theorem At.agree (h : At m a s) (hag : Agree m m' a (s.length + 1)) (hlen : s.length + 1 ≤ 2 ^ 32) : At m' a s :=
  ⟨h.noNul, by rw [readBytes_agree hag hlen, h.bytes]⟩

theorem readBytes_storeBytes (m : Mem) (a : Addr) (bs : List Byte) (hlen : bs.length ≤ 2 ^ 32) :
    readBytes (storeBytes m a bs) a bs.length = bs := by
  refine List.ext_getElem (length_readBytes _ _ _) fun i h1 h2 => ?_
  simp only [readBytes, List.getElem_map, List.getElem_range]
  exact storeBytes_at h2 hlen

theorem at_storeBytes (hs : 0 ∉ s) (hlen : s.length + 1 ≤ 2 ^ 32) : At (storeBytes m a (s ++ [0])) a s := by
  have h := readBytes_storeBytes m a (s ++ [0]) (by simpa using hlen)
  rw [List.length_append, List.length_singleton] at h
  exact ⟨hs, h⟩

theorem At.textAt (h : At m a s) (n : Nat) : textAt m a n = s.take n := by
  have hall : ∀ c ∈ s, decide (c ≠ 0) = true := by
    intro c hc
    rw [decide_eq_true_eq]
    exact fun h0 => h.noNul (h0 ▸ hc)
  by_cases hn : n ≤ s.length
  · have hread : readBytes m a n = s.take n := by
      rw [← take_readBytes (m := m) (n := s.length + 1) (by omega) a, h.bytes, List.take_append_of_le_length hn]
    rw [CString.textAt, hread, List.takeWhile_eq_self_iff]
    exact fun c hc => hall c (List.mem_of_mem_take hc)
  · obtain ⟨k, rfl⟩ := Nat.exists_eq_add_of_le (show s.length + 1 ≤ n by omega)
    rw [CString.textAt, readBytes_add, h.bytes, List.append_assoc, List.takeWhile_append_of_pos hall,
      List.take_of_length_le (by omega)]
    simp

theorem At.unique (h : At m a s) (h' : At m a t) : s = t := by
  have h1 := h.textAt (s.length + t.length)
  rw [h'.textAt, List.take_of_length_le (by omega), List.take_of_length_le (by omega)] at h1
  exact h1.symm

theorem at_nil : At m a [] ↔ m a = 0 := by
  constructor
  · intro h
    simpa [readBytes] using h.bytes
  · intro h
    exact ⟨by simp, by simpa [readBytes] using h⟩

theorem at_cons {c : Byte} : At m a (c :: s) ↔ m a = c ∧ c ≠ 0 ∧ At m (a + 1) s := by
  constructor
  · rintro ⟨hnul, hbytes⟩
    rw [List.length_cons, readBytes_succ, List.cons_append, List.cons.injEq] at hbytes
    rw [List.mem_cons, not_or] at hnul
    exact ⟨hbytes.1, Ne.symm hnul.1, hnul.2, hbytes.2⟩
  · rintro ⟨hc, hne, hnul, hbytes⟩
    refine ⟨?_, ?_⟩
    · rw [List.mem_cons, not_or]
      exact ⟨Ne.symm hne, hnul⟩
    · rw [List.length_cons, readBytes_succ, hbytes, hc]
      rfl

theorem At.drop (h : At m a (s ++ t)) : At m (a + BitVec.ofNat 32 s.length) t := by
  induction s generalizing a with
  | nil => simpa using h
  | cons c s ih =>
    rw [List.length_cons, add_ofNat_succ]
    exact ih (at_cons.mp h).2.2

theorem At.byte (h : At m a (s ++ t)) : m (a + BitVec.ofNat 32 s.length) = t.headD 0 := by
  have hdrop := h.drop
  cases t with
  | nil => exact at_nil.mp hdrop
  | cons c t => exact (at_cons.mp hdrop).1

theorem agree_store8 {b : Addr} {c : Byte} (h : ¬ Within b n a) : Agree m (store8 m a c) b n := by
  intro x hx
  refine if_neg ?_
  rintro rfl
  exact h hx

theorem At.cut {c : Byte} (h : At m a (s ++ c :: t)) (hlen : (s ++ c :: t).length < 2 ^ 32) :
    At (store8 m (a + BitVec.ofNat 32 s.length) 0) a s ∧
      At (store8 m (a + BitVec.ofNat 32 s.length) 0) (a + BitVec.ofNat 32 (s.length + 1)) t := by
  rw [List.length_append, List.length_cons] at hlen
  constructor
  · refine ⟨fun hmem => h.noNul (List.mem_append_left _ hmem), ?_⟩
    have hread : readBytes m a s.length = s := by
      have hbytes := congrArg (List.take s.length) h.bytes
      rwa [take_readBytes (by rw [List.length_append]; omega), List.append_assoc, List.take_left' rfl] at hbytes
    have hsame : readBytes (store8 m (a + BitVec.ofNat 32 s.length) 0) a s.length = s := by
      rw [readBytes_agree (agree_store8 fun hw => ?_) (by omega), hread]
      unfold Within at hw
      bv_omega
    rw [readBytes_add, hsame]
    simp [readBytes, store8]
  · have hrest : At m (a + BitVec.ofNat 32 (s.length + 1)) t := by
      rw [add_ofNat_succ, BitVec.add_assoc, BitVec.add_comm 1, ← BitVec.add_assoc]
      exact (at_cons.mp h.drop).2.2
    refine hrest.agree (agree_store8 fun hw => ?_) (by omega)
    unfold Within at hw
    bv_omega

theorem exists_at {z : Addr} (hz : m z = 0) (a : Addr) : ∃ s, At m a s ∧ s.length < 2 ^ 32 := by
  have hlt : (textAt m a (2 ^ 32)).length < 2 ^ 32 := by
    refine (length_textAt_le m a _).lt_of_ne fun heq => textAt_noNul m a (2 ^ 32) ?_
    have hi : (z - a).toNat < (textAt m a (2 ^ 32)).length := by
      rw [heq]
      exact (z - a).isLt
    have hbyte := textAt_getElem hi
    have hplace : a + BitVec.ofNat 32 (z - a).toNat = z := by bv_omega
    rw [hplace, hz] at hbyte
    exact hbyte ▸ List.getElem_mem hi
  exact ⟨_, at_textAt hlt, hlt⟩

/-! ## Copying -/

/-- `while (i < n && read(i) != 0) { write(i) = read(i); i++; } write(i) = 0;`, with `n` turns left
from `i` on. -/
def copyLoop (read : Mem → Nat → Byte) (write : Mem → Nat → Addr) : Nat → Nat → Mem → Mem
  | 0, i, m => store8 m (write m i) 0
  | n + 1, i, m =>
    let c := read m i
    if c = 0 then store8 m (write m i) 0 else copyLoop read write n (i + 1) (store8 m (write m i) c)

/-- Each byte of `s` is what the loop reads once those before it are stored at `dest`, and so is
the end, if it comes before `n` bytes. -/
structure Reads (read : Mem → Nat → Byte) (m : Mem) (dest : Addr) (n : Nat) (s : List Byte) : Prop where
  length_le : s.length ≤ n
  noNul : 0 ∉ s
  bytes : ∀ i (h : i < s.length), read (storeBytes m dest (s.take i)) i = s[i]
  stop : s.length < n → read (storeBytes m dest s) s.length = 0

theorem reads_iff (hlen : s.length ≤ n) (hnul : 0 ∉ s) :
    Reads read m dest n s ↔ ∀ i ≤ s.length, i < n → read (storeBytes m dest (s.take i)) i = s.getD i 0 := by
  constructor
  · intro h i hi hn
    rcases hi.lt_or_eq with hlt | heq
    · rw [h.bytes i hlt, List.getD_eq_getElem _ _ hlt]
    · rw [heq] at hn ⊢
      rw [List.take_length, h.stop hn]
      simp
  · intro h
    refine ⟨hlen, hnul, fun i hi => ?_, fun hlt => ?_⟩
    · rw [h i hi.le (hi.trans_le hlen), List.getD_eq_getElem _ _ hi]
    · have hend := h s.length le_rfl hlt
      rw [List.take_length] at hend
      rw [hend]
      simp

theorem store8_eq (m : Mem) (a : Addr) (c : Byte) : store8 m a c = storeBytes m a [c] := by
  funext x
  unfold store8 storeBytes
  by_cases h : x = a
  · subst h
    simp
  · have hne : (x - a).toNat ≠ 0 := by bv_omega
    obtain ⟨k, hk⟩ := Nat.exists_eq_succ_of_ne_zero hne
    rw [if_neg h, hk]
    rfl

theorem storeBytes_concat {m : Mem} {bs : List Byte} (c : Byte) (hlen : bs.length < 2 ^ 32) :
    store8 (storeBytes m dest bs) (dest + BitVec.ofNat 32 bs.length) c = storeBytes m dest (bs ++ [c]) := by
  rw [store8_eq]
  exact storeBytes_append rfl (by simpa using hlen)

theorem copyLoop_append (read : Mem → Nat → Byte) {write : Mem → Nat → Addr} {N : Nat} (hN : N < 2 ^ 32)
    (hwrite : ∀ p : List Byte, p.length ≤ N → write (storeBytes m dest p) p.length = dest + BitVec.ofNat 32 p.length)
    (n : Nat) (p : List Byte) (hp : p.length + n = N) (hnul : 0 ∉ p)
    (hread : ∀ i (h : i < p.length), read (storeBytes m dest (p.take i)) i = p[i]) :
    ∃ s, Reads read m dest N s ∧
      copyLoop read write n p.length (storeBytes m dest p) = storeBytes m dest (s ++ [0]) := by
  induction n generalizing p with
  | zero =>
    refine ⟨p, ⟨by omega, hnul, hread, fun hlt => absurd hlt (by omega)⟩, ?_⟩
    rw [copyLoop, hwrite p (by omega), storeBytes_concat 0 (by omega)]
  | succ n ih =>
    rw [copyLoop, hwrite p (by omega)]
    by_cases hc : read (storeBytes m dest p) p.length = 0
    · refine ⟨p, ⟨by omega, hnul, hread, fun _ => hc⟩, ?_⟩
      rw [if_pos hc, storeBytes_concat 0 (by omega)]
    · rw [if_neg hc, storeBytes_concat _ (by omega)]
      have hlen : (p ++ [read (storeBytes m dest p) p.length]).length = p.length + 1 := by simp
      have hnext := ih (p ++ [read (storeBytes m dest p) p.length]) (by omega) ?_ ?_
      · rwa [hlen] at hnext
      · rw [List.mem_append, List.mem_singleton, not_or]
        exact ⟨hnul, Ne.symm hc⟩
      · intro i hi
        rw [hlen] at hi
        rw [List.take_append_of_le_length (by omega)]
        by_cases hip : i < p.length
        · rw [hread i hip, List.getElem_append_left hip]
        · have hie : i = p.length := by omega
          subst hie
          simp

theorem storeBytes_nil (m : Mem) (a : Addr) : storeBytes m a [] = m := rfl

theorem copyLoop_spec (read : Mem → Nat → Byte) {write : Mem → Nat → Addr} (hn : n < 2 ^ 32)
    (hwrite : ∀ p : List Byte, p.length ≤ n → write (storeBytes m dest p) p.length = dest + BitVec.ofNat 32 p.length) :
    ∃ s, Reads read m dest n s ∧ copyLoop read write n 0 m = storeBytes m dest (s ++ [0]) := by
  have h := copyLoop_append read hn hwrite n [] (by simp) (by simp) (by simp)
  rwa [storeBytes_nil] at h

/-- What the loop reads is one string: each byte follows from those before it. -/
theorem Reads.unique (h : Reads read m dest n s) (h' : Reads read m dest n t) : s = t := by
  have hcommon : ∀ i, i ≤ s.length → i ≤ t.length → s.take i = t.take i := by
    intro i
    induction i with
    | zero => simp
    | succ i ih =>
      intro hs ht
      have hi := ih (by omega) (by omega)
      rw [← List.take_append_getElem (by omega : i < s.length), ← List.take_append_getElem (by omega : i < t.length),
        hi, ← h.bytes i (by omega), ← h'.bytes i (by omega), hi]
  have hle : ∀ {s t : List Byte}, Reads read m dest n s → Reads read m dest n t →
      (∀ i, i ≤ s.length → i ≤ t.length → s.take i = t.take i) → ¬ s.length < t.length := by
    intro s t h h' hcommon hlt
    have hs := hcommon s.length le_rfl hlt.le
    rw [List.take_length] at hs
    have h0 := h.stop (hlt.trans_le h'.length_le)
    rw [hs, List.length_take, Nat.min_eq_left hlt.le, h'.bytes _ hlt] at h0
    exact h'.noNul (h0 ▸ List.getElem_mem hlt)
  have hlen : s.length = t.length := by
    have h1 := hle h h' hcommon
    have h2 := hle h' h fun i ht hs => (hcommon i hs ht).symm
    omega
  have hall := hcommon s.length le_rfl hlen.le
  rwa [List.take_length, hlen, List.take_length] at hall

theorem Reads.copyLoop {write : Mem → Nat → Addr} (h : Reads read m dest n s) (hn : n < 2 ^ 32)
    (hwrite : ∀ p : List Byte, p.length ≤ n → write (storeBytes m dest p) p.length = dest + BitVec.ofNat 32 p.length) :
    CString.copyLoop read write n 0 m = storeBytes m dest (s ++ [0]) := by
  obtain ⟨t, ht, hloop⟩ := copyLoop_spec read hn hwrite
  rw [hloop, h.unique ht]

theorem reads_textAt {src : Addr}
    (hapart : ∀ i < n, i ≤ (textAt m src n).length → ¬ Within dest (n + 1) (src + BitVec.ofNat 32 i)) :
    Reads (fun m i => m (src + BitVec.ofNat 32 i)) m dest n (textAt m src n) := by
  have hout : ∀ p : List Byte, p.length ≤ n → ∀ i < n, i ≤ (textAt m src n).length →
      storeBytes m dest p (src + BitVec.ofNat 32 i) = m (src + BitVec.ofNat 32 i) := by
    intro p hp i hi hle
    refine storeBytes_of_not_within fun hw => hapart i hi hle ?_
    unfold Within at *
    omega
  have hlen := length_textAt_le m src n
  refine ⟨hlen, textAt_noNul m src n, fun i hi => ?_, fun hlt => ?_⟩
  · rw [hout _ (by simp; omega) i (by omega) hi.le, textAt_getElem]
  · rw [hout _ hlen _ hlt le_rfl, textAt_end hlt]

end Lib.CString
