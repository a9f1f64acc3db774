import MultitaskOs.Code.Command
import MultitaskOs.PathParser

/-!
# The tokens of a string

`strtok` goes on from its cursor as long as there is one, even if it is given
another string.
-/

open Lib Lib.Memory Lib.CString MultitaskOs.PathParser

namespace MultitaskOs.Strtok

variable {p p' : Program} {m : Mem} {a str : Addr} {ds s t : List Byte} {c : Byte} {n : Nat}

/-! ## What the tokens of a string are -/

/-- The string that lies at `a`, cut at every delimiter, with the place of each piece. -/
def pieces (ds : List Byte) (a : Addr) : List Byte → List (Addr × List Byte)
  | [] => [(a, [])]
  | c :: s =>
    if c ∈ ds then (a, []) :: pieces ds (a + 1) s
    else (pieces ds (a + 1) s).modifyHead fun piece => (a, c :: piece.2)

def words (ds : List Byte) (a : Addr) (s : List Byte) : List (Addr × List Byte) :=
  (pieces ds a s).filter (·.2 ≠ [])

theorem pieces_texts (ds : List Byte) (a : Addr) (s : List Byte) :
    (pieces ds a s).map Prod.snd = s.splitOnP (· ∈ ds) := by
  induction s generalizing a with
  | nil => rfl
  | cons c s ih =>
    rw [pieces, List.splitOnP_cons_eq_if_modifyHead, ← ih (a + 1)]
    by_cases hc : c ∈ ds
    · rw [if_pos hc, if_pos (by simpa using hc)]
      rfl
    · rw [if_neg hc, if_neg (by simpa using hc)]
      cases pieces ds (a + 1) s <;> rfl

theorem words_texts (ds : List Byte) (a : Addr) (s : List Byte) :
    (words ds a s).map Prod.snd = (s.splitOnP (· ∈ ds)).filter (· ≠ []) := by
  rw [words, ← pieces_texts ds a s, List.filter_map]
  rfl

/-- The delimiters in front of the string, and what is behind them. -/
def leading (ds s : List Byte) : List Byte := s.takeWhile (· ∈ ds)

def behind (ds s : List Byte) : List Byte := s.dropWhile (· ∈ ds)

def token (ds s : List Byte) : List Byte := s.takeWhile (· ∉ ds)

def afterToken (ds s : List Byte) : List Byte := s.dropWhile (· ∉ ds)

theorem length_leading_le (ds s : List Byte) : (leading ds s).length ≤ s.length :=
  (List.takeWhile_prefix _).length_le

theorem leading_append_behind (ds s : List Byte) : leading ds s ++ behind ds s = s := List.takeWhile_append_dropWhile

theorem token_append_afterToken (ds s : List Byte) : token ds s ++ afterToken ds s = s :=
  List.takeWhile_append_dropWhile

theorem leading_delimiter (hc : c ∈ ds) (s : List Byte) :
    leading ds (c :: s) = c :: leading ds s ∧ behind ds (c :: s) = behind ds s :=
  ⟨List.takeWhile_cons_of_pos (by simpa using hc), List.dropWhile_cons_of_pos (by simpa using hc)⟩

theorem leading_other (hc : c ∉ ds) (s : List Byte) : leading ds (c :: s) = [] ∧ behind ds (c :: s) = c :: s :=
  ⟨List.takeWhile_cons_of_neg (by simpa using hc), List.dropWhile_cons_of_neg (by simpa using hc)⟩

theorem token_delimiter (hc : c ∈ ds) (s : List Byte) : token ds (c :: s) = [] ∧ afterToken ds (c :: s) = c :: s :=
  ⟨List.takeWhile_cons_of_neg (by simpa using hc), List.dropWhile_cons_of_neg (by simpa using hc)⟩

theorem token_other (hc : c ∉ ds) (s : List Byte) :
    token ds (c :: s) = c :: token ds s ∧ afterToken ds (c :: s) = afterToken ds s :=
  ⟨List.takeWhile_cons_of_pos (by simpa using hc), List.dropWhile_cons_of_pos (by simpa using hc)⟩

theorem words_leading (ds : List Byte) (a : Addr) (s : List Byte) :
    words ds a s = words ds (a + BitVec.ofNat 32 (leading ds s).length) (behind ds s) := by
  induction s generalizing a with
  | nil => simp [leading, behind]
  | cons c s ih =>
    by_cases hc : c ∈ ds
    · obtain ⟨hl, hb⟩ := leading_delimiter hc s
      rw [hl, hb, List.length_cons, add_ofNat_succ, ← ih (a + 1), words, pieces, if_pos hc]
      rfl
    · obtain ⟨hl, hb⟩ := leading_other hc s
      rw [hl, hb]
      simp

theorem pieces_token (ds : List Byte) (a : Addr) (s : List Byte) : pieces ds a s =
    (a, token ds s) :: (pieces ds (a + BitVec.ofNat 32 (token ds s).length) (afterToken ds s)).tail := by
  induction s generalizing a with
  | nil => simp [token, afterToken, pieces]
  | cons c s ih =>
    by_cases hc : c ∈ ds
    · obtain ⟨ht, hr⟩ := token_delimiter hc s
      rw [ht, hr]
      simp [pieces, hc]
    · obtain ⟨ht, hr⟩ := token_other hc s
      rw [ht, hr, List.length_cons, add_ofNat_succ, pieces, if_neg hc, ih (a + 1)]
      rfl

theorem words_token (hc : c ∉ ds) : words ds a (c :: s) = (a, token ds (c :: s)) ::
    words ds (a + BitVec.ofNat 32 ((token ds (c :: s)).length + 1)) (afterToken ds (c :: s)).tail := by
  have htoken : token ds (c :: s) ≠ [] := by
    rw [(token_other hc s).1]
    simp
  rw [words, pieces_token, List.filter_cons_of_pos (by simpa using htoken)]
  congr 1
  have hrest : ∀ b : Addr, ∀ r : List Byte, (∀ x ∈ r.head?, x ∈ ds) →
      (pieces ds b r).tail.filter (·.2 ≠ []) = words ds (b + 1) r.tail := by
    intro b r hr
    cases r with
    | nil => simp [pieces, words]
    | cons x r =>
      rw [pieces, if_pos (hr x rfl)]
      rfl
  rw [add_ofNat_succ, BitVec.add_assoc, BitVec.add_comm 1, ← BitVec.add_assoc]
  refine hrest _ _ fun x hx => ?_
  have hhead := List.head?_dropWhile_not (fun c : Byte => decide (c ∉ ds)) (c :: s)
  rw [← afterToken] at hhead
  rw [Option.mem_def] at hx
  rw [hx] at hhead
  simpa using hhead

/-! ## The scans -/

theorem delimiterIndex_lt (ds : List Byte) (c : Byte) :
    delimiterIndex (cstr ds) ds.length c < ds.length ↔ c ∈ ds := by
  rw [delimiterIndex, cstr, List.take_left' rfl, List.findIdx_lt_length]
  simp

theorem delimiterIndex_eq (ds : List Byte) (c : Byte) :
    delimiterIndex (cstr ds) ds.length c = ds.length ↔ c ∉ ds := by
  have hle : delimiterIndex (cstr ds) ds.length c ≤ ds.length := by
    rw [delimiterIndex, cstr, List.take_left' rfl]
    exact List.findIdx_le_length
  have hlt := delimiterIndex_lt ds c
  rw [← hlt]
  omega

theorem strtokSkip_at (hds : NoNul ds) (h : At m a s) (hn : s.length < n) :
    strtokSkip (cstr ds) ds.length m n a = some (a + BitVec.ofNat 32 (leading ds s).length) := by
  induction s generalizing a n with
  | nil =>
    obtain ⟨n, rfl⟩ := Nat.exists_eq_add_one_of_ne_zero (Nat.ne_of_gt hn)
    have h0 : (0 : Byte) ∉ ds := fun hmem => hds 0 hmem rfl
    have hlt := (delimiterIndex_lt ds 0).not.mpr h0
    have heq := (delimiterIndex_eq ds 0).mpr h0
    rw [strtokSkip, at_nil.mp h, if_pos heq, if_neg hlt]
    simp [leading]
  | cons c s ih =>
    obtain ⟨hbyte, -, hrest⟩ := at_cons.mp h
    rw [List.length_cons] at hn
    obtain ⟨n, rfl⟩ := Nat.exists_eq_add_one_of_ne_zero (Nat.ne_of_gt (Nat.zero_lt_of_lt hn))
    rw [strtokSkip, hbyte]
    by_cases hc : c ∈ ds
    · have hlt := (delimiterIndex_lt ds c).mpr hc
      rw [if_neg (by omega), if_pos hlt, ih hrest (by omega), (leading_delimiter hc s).1, List.length_cons,
        add_ofNat_succ]
    · have hlt := (delimiterIndex_lt ds c).not.mpr hc
      rw [if_pos ((delimiterIndex_eq ds c).mpr hc), if_neg hlt, (leading_other hc s).1]
      simp

theorem strtokEnd_at (h : At m a s) (hn : s.length < n) : strtokEnd (cstr ds) ds.length n m a =
    if afterToken ds s = [] then some (m, a + BitVec.ofNat 32 (token ds s).length)
    else some (store8 m (a + BitVec.ofNat 32 (token ds s).length) 0,
      a + BitVec.ofNat 32 ((token ds s).length + 1)) := by
  induction s generalizing a n with
  | nil =>
    obtain ⟨n, rfl⟩ := Nat.exists_eq_add_one_of_ne_zero (Nat.ne_of_gt hn)
    rw [strtokEnd, if_pos (at_nil.mp h)]
    simp [token, afterToken]
  | cons c s ih =>
    obtain ⟨hbyte, hne, hrest⟩ := at_cons.mp h
    rw [List.length_cons] at hn
    obtain ⟨n, rfl⟩ := Nat.exists_eq_add_one_of_ne_zero (Nat.ne_of_gt (Nat.zero_lt_of_lt hn))
    rw [strtokEnd, hbyte, if_neg hne]
    dsimp only
    by_cases hc : c ∈ ds
    · have hlt := (delimiterIndex_lt ds c).mpr hc
      obtain ⟨ht, hr⟩ := token_delimiter hc s
      rw [if_pos hlt, if_pos hlt, ht, hr, if_neg (by simp)]
      simp
    · have hlt := (delimiterIndex_lt ds c).not.mpr hc
      obtain ⟨ht, hr⟩ := token_other hc s
      rw [if_neg hlt, if_neg hlt, ih hrest (by omega), ht, hr, List.length_cons]
      generalize (token ds s).length = k
      rw [add_ofNat_succ a k, add_ofNat_succ a (k + 1)]

/-! ## One call -/

/-- A string in one piece of the address space, which does not begin at NULL. -/
def Fits (a : Addr) (s : List Byte) : Prop := a ≠ 0 ∧ a.toNat + s.length < 2 ^ 32

/-- Where a call begins to read. -/
def start (p : Program) (str : Addr) : Addr := if str ≠ 0 ∧ p.sp = 0 then str else p.sp

theorem strtok_eq (hds : NoNul ds) (hne : ¬ (str = 0 ∧ p.sp = 0)) (h : At p.mem (start p str) s)
    (hlen : s.length < 2 ^ 32) : strtok p str (cstr ds) =
      if behind ds s = [] then some ({ p with sp := 0 }, 0)
      else
        (if afterToken ds (behind ds s) = [] then
            some (p.mem, start p str + BitVec.ofNat 32 (leading ds s).length +
              BitVec.ofNat 32 (token ds (behind ds s)).length)
          else some (store8 p.mem (start p str + BitVec.ofNat 32 (leading ds s).length +
                BitVec.ofNat 32 (token ds (behind ds s)).length) 0,
              start p str + BitVec.ofNat 32 (leading ds s).length +
                BitVec.ofNat 32 ((token ds (behind ds s)).length + 1))).bind fun r =>
          some ({ p with mem := r.1, sp := r.2 }, start p str + BitVec.ofNat 32 (leading ds s).length) := by
  have hat : At p.mem (start p str) (leading ds s ++ behind ds s) := by rwa [leading_append_behind]
  have hbyte := hat.byte
  have hdrop := hat.drop
  have hle : (behind ds s).length ≤ s.length := List.length_dropWhile_le _ _
  rw [strtok, strlen_spec hds]
  simp only [Option.bind_eq_bind, Option.bind_some, if_neg hne]
  rw [← start, strtokSkip_at (n := addressSpace) hds h hlen]
  simp only [Option.bind_some, hbyte]
  by_cases hb : behind ds s = []
  · rw [if_pos hb, hb]
    rfl
  · obtain ⟨c, r, hcr⟩ := List.exists_cons_of_ne_nil hb
    have hc : c ≠ 0 := by
      rw [hcr] at hdrop
      exact (at_cons.mp hdrop).2.1
    rw [if_neg hb, if_neg (by rw [hcr]; exact hc), strtokEnd_at hdrop (by unfold addressSpace; omega)]
    rfl

/-- What a call leaves that returns the token `t` at `q`, of the string `s` at `a`; `rest` is what it
leaves for the next. -/
structure Taken (p p' : Program) (a : Addr) (s : List Byte) (q : Addr) (t rest : List Byte) : Prop where
  tokenAt : At p'.mem q t
  restAt : At p'.mem p'.sp rest
  fitsToken : Fits q t
  fitsRest : Fits p'.sp rest
  heap : p'.heap = p.heap
  outside : ∀ x, ¬ Within a s.length x → p'.mem x = p.mem x
  shorter : rest.length < s.length
  tokenInside : (q - a).toNat + t.length ≤ s.length
  restInside : (p'.sp - a).toNat + rest.length ≤ s.length

theorem words_nil (ds : List Byte) (a : Addr) : words ds a [] = [] := by simp [words, pieces]

theorem Fits.offset {k : Nat} (h : Fits a s) (hk : k ≤ s.length) : a + BitVec.ofNat 32 k ≠ 0 ∧
    (a + BitVec.ofNat 32 k).toNat = a.toNat + k ∧ (a + BitVec.ofNat 32 k - a).toNat = k := by
  obtain ⟨h0, hlt⟩ := h
  refine ⟨?_, ?_, ?_⟩ <;> bv_omega

theorem taken_last {w : List Byte} (h : At p.mem a (w ++ t)) (hf : Fits a (w ++ t)) (ht : t ≠ []) :
    Taken p { p with sp := a + BitVec.ofNat 32 w.length + BitVec.ofNat 32 t.length } a (w ++ t)
      (a + BitVec.ofNat 32 w.length) t [] := by
  have hlen : (w ++ t).length = w.length + t.length := List.length_append
  have hpos := List.length_pos_iff.mpr ht
  have hq := hf.offset (k := w.length) (by omega)
  have hend := hf.offset (k := w.length + t.length) (by omega)
  have hsum := hf.2
  rw [BitVec.ofNat_add, ← BitVec.add_assoc] at hend
  refine ⟨h.drop, At.drop (s := t) (by rw [List.append_nil]; exact h.drop), ⟨hq.1, by omega⟩, ⟨hend.1, ?_⟩, rfl,
    fun _ _ => rfl, by rw [List.length_nil]; omega, by omega, ?_⟩
  · rw [hend.2.1, List.length_nil]
    omega
  · rw [hend.2.2, List.length_nil]
    omega

theorem taken_cut {w rest : List Byte} {x : Byte} (h : At p.mem a (w ++ (t ++ x :: rest)))
    (hf : Fits a (w ++ (t ++ x :: rest))) :
    Taken p { p with
        mem := store8 p.mem (a + BitVec.ofNat 32 w.length + BitVec.ofNat 32 t.length) 0
        sp := a + BitVec.ofNat 32 w.length + BitVec.ofNat 32 (t.length + 1) } a (w ++ (t ++ x :: rest))
      (a + BitVec.ofNat 32 w.length) t rest := by
  have hlen : (w ++ (t ++ x :: rest)).length = w.length + (t.length + (rest.length + 1)) := by simp
  have hinner : (t ++ x :: rest).length = t.length + (rest.length + 1) := by simp
  have hsum := hf.2
  obtain ⟨htoken, hrest⟩ := h.drop.cut (by omega)
  have hq := hf.offset (k := w.length) (by omega)
  have hmid := hf.offset (k := w.length + t.length) (by omega)
  have hend := hf.offset (k := w.length + (t.length + 1)) (by omega)
  rw [BitVec.ofNat_add, ← BitVec.add_assoc] at hend hmid
  refine ⟨htoken, hrest, ⟨hq.1, by omega⟩, ⟨hend.1, by rw [hend.2.1]; omega⟩, rfl, fun y hy => if_neg ?_, by omega,
    by omega, by rw [hend.2.2]; omega⟩
  rintro rfl
  unfold Within at hy
  omega

theorem strtok_at (hds : NoNul ds) (hstart : start p str = a) (h : At p.mem a s) (hf : Fits a s) :
    (words ds a s = [] ∧ strtok p str (cstr ds) = some ({ p with sp := 0 }, 0)) ∨
      ∃ p' q t rest, strtok p str (cstr ds) = some (p', q) ∧ words ds a s = (q, t) :: words ds p'.sp rest ∧
        Taken p p' a s q t rest := by
  subst hstart
  have hne : ¬ (str = 0 ∧ p.sp = 0) := by
    rintro ⟨h1, h2⟩
    refine hf.1 ?_
    rw [start, if_neg fun hs => hs.1 h1, h2]
  have hlen := hf.2
  rw [strtok_eq hds hne h (by omega), words_leading]
  generalize start p str = a at *
  have hsplit := leading_append_behind ds s
  generalize leading ds s = w at *
  cases hb : behind ds s with
  | nil =>
    rw [if_pos rfl]
    exact Or.inl ⟨words_nil _ _, rfl⟩
  | cons c r =>
    have hc : c ∉ ds := by
      have hhead := List.head?_dropWhile_not (fun c : Byte => decide (c ∈ ds)) s
      rw [← behind, hb] at hhead
      simpa using hhead
    have htoken := token_append_afterToken ds (c :: r)
    have ht : token ds (c :: r) ≠ [] := by
      rw [(token_other hc r).1]
      simp
    rw [hb] at hsplit
    rw [if_neg (by simp), words_token hc]
    generalize token ds (c :: r) = t at *
    refine Or.inr ?_
    cases hrest : afterToken ds (c :: r) with
    | nil =>
      rw [hrest, List.append_nil] at htoken
      rw [← htoken] at hsplit
      rw [← hsplit] at h hf ⊢
      exact ⟨_, _, t, [], rfl, by rw [List.tail_nil, words_nil, words_nil], taken_last h hf ht⟩
    | cons x rest =>
      rw [hrest] at htoken
      rw [← htoken] at hsplit
      rw [← hsplit] at h hf ⊢
      rw [if_neg (by simp)]
      exact ⟨_, _, t, rest, rfl, rfl, taken_cut h hf⟩

/-! ## One call after another -/

/-- `strtok(str, d)`, and then `strtok(NULL, d)` until it returns NULL: the tokens with their places. -/
inductive Yields (delimiters : CharPtr) : Program → Addr → List (Addr × List Byte) → Program → Prop
  | done {p p' : Program} {str : Addr} (h : strtok p str delimiters = some (p', 0)) : Yields delimiters p str [] p'
  | next {p p' p'' : Program} {str q : Addr} {t : List Byte} {ts : List (Addr × List Byte)}
    (h : strtok p str delimiters = some (p', q)) (h0 : q ≠ 0) (ht : At p'.mem q t)
    (hrest : Yields delimiters p' 0 ts p'') : Yields delimiters p str ((q, t) :: ts) p''

theorem yields_nil {d : CharPtr} : Yields d p str [] p' ↔ strtok p str d = some (p', 0) := by
  constructor
  · rintro ⟨h⟩
    exact h
  · exact .done

theorem yields_cons {d : CharPtr} {p'' : Program} {q : Addr} {ts : List (Addr × List Byte)} :
    Yields d p str ((q, t) :: ts) p'' ↔
      ∃ p', strtok p str d = some (p', q) ∧ q ≠ 0 ∧ At p'.mem q t ∧ Yields d p' 0 ts p'' := by
  constructor
  · rintro (_ | ⟨h, h0, ht, hrest⟩)
    exact ⟨_, h, h0, ht, hrest⟩
  · rintro ⟨p', h, h0, ht, hrest⟩
    exact .next h h0 ht hrest

theorem Yields.congr {d : CharPtr} {p1 p2 : Program} {str1 str2 : Addr} {ts : List (Addr × List Byte)}
    (hsame : strtok p1 str1 d = strtok p2 str2 d) (h : Yields d p2 str2 ts p') : Yields d p1 str1 ts p' := by
  cases h with
  | done h => exact .done (hsame.trans h)
  | next h h0 ht hrest => exact .next (hsame.trans h) h0 ht hrest

/-- The first byte from `a` on that is no delimiter. -/
def firstOther (ds : List Byte) (m : Mem) (a : Addr) : Addr :=
  a + BitVec.ofNat 32 (leading ds (readBytes m a (2 ^ 32))).length

/-- It ends the string, or is one that no token can begin with. -/
def NoToken (ds : List Byte) (m : Mem) (a : Addr) : Prop := m (firstOther ds m a) = 0 ∨ firstOther ds m a = 0

theorem leading_append_nul (hds : NoNul ds) (s r : List Byte) : leading ds (s ++ 0 :: r) = leading ds s := by
  induction s with
  | nil => exact (leading_other (fun hmem => hds 0 hmem rfl) r).1
  | cons c s ih =>
    by_cases hc : c ∈ ds
    · rw [List.cons_append, (leading_delimiter hc _).1, (leading_delimiter hc _).1, ih]
    · rw [List.cons_append, (leading_other hc _).1, (leading_other hc _).1]

theorem firstOther_at (hds : NoNul ds) (h : At m a s) (hlen : s.length < 2 ^ 32) :
    firstOther ds m a = a + BitVec.ofNat 32 (leading ds s).length := by
  obtain ⟨k, hk⟩ := Nat.exists_eq_add_of_le (show s.length + 1 ≤ 2 ^ 32 by omega)
  rw [firstOther, hk, readBytes_add, h.bytes, List.append_assoc, List.singleton_append, leading_append_nul hds]

theorem strtok_first (hds : NoNul ds) (hne : ¬ (str = 0 ∧ p.sp = 0)) {z : Addr} (hz : p.mem z = 0) :
    ∃ p', strtok p str (cstr ds) = some (p', if p.mem (firstOther ds p.mem (start p str)) = 0 then 0
      else firstOther ds p.mem (start p str)) := by
  obtain ⟨s, h, hlen⟩ := exists_at hz (start p str)
  have hat : At p.mem (start p str) (leading ds s ++ behind ds s) := by rwa [leading_append_behind]
  have hbyte := hat.byte
  have hdrop := hat.drop
  rw [strtok_eq hds hne h hlen, firstOther_at hds h hlen, hbyte]
  cases hb : behind ds s with
  | nil => exact ⟨_, rfl⟩
  | cons c r =>
    rw [hb] at hdrop
    have hc : c ≠ 0 := (at_cons.mp hdrop).2.1
    rw [if_neg (by simp), List.headD_cons, if_neg hc]
    split_ifs <;> exact ⟨_, rfl⟩

theorem yields_words (hds : NoNul ds) (hstart : start p str = a) (h : At p.mem a s) (hf : Fits a s) :
    ∃ p', Yields (cstr ds) p str (words ds a s) p' ∧ p'.sp = 0 := by
  induction hn : s.length using Nat.strong_induction_on generalizing p str a s with
  | _ n ih =>
    rcases strtok_at hds hstart h hf with ⟨hw, heq⟩ | ⟨p', q, t, rest, heq, hw, htaken⟩
    · rw [hw]
      exact ⟨_, .done heq, rfl⟩
    · have hsp : start p' 0 = p'.sp := by rw [start, if_neg fun h => h.1 rfl]
      obtain ⟨p'', hyields, h0⟩ := ih _ (hn ▸ htaken.shorter) hsp htaken.restAt htaken.fitsRest rfl
      rw [hw]
      exact ⟨p'', .next heq htaken.fitsToken.1 htaken.tokenAt hyields, h0⟩

/-- What a call does depends on where the scan over the delimiters ends. -/
theorem strtok_congr (hds : NoNul ds) {p1 p2 : Program} {str1 str2 z : Addr} (hsame : p1.toKmem = p2.toKmem)
    (h1 : ¬ (str1 = 0 ∧ p1.sp = 0)) (h2 : ¬ (str2 = 0 ∧ p2.sp = 0)) (hz : p1.mem z = 0)
    (heq : firstOther ds p1.mem (start p1 str1) = firstOther ds p1.mem (start p2 str2)) :
    strtok p1 str1 (cstr ds) = strtok p2 str2 (cstr ds) := by
  obtain ⟨s1, hat1, hlen1⟩ := exists_at hz (start p1 str1)
  obtain ⟨s2, hat2, hlen2⟩ := exists_at hz (start p2 str2)
  rw [firstOther_at hds hat1 hlen1, firstOther_at hds hat2 hlen2] at heq
  have hbehind : behind ds s1 = behind ds s2 := by
    have hd1 : At p1.mem (start p1 str1 + BitVec.ofNat 32 (leading ds s1).length) (behind ds s1) :=
      At.drop (by rwa [leading_append_behind])
    have hd2 : At p1.mem (start p2 str2 + BitVec.ofNat 32 (leading ds s2).length) (behind ds s2) :=
      At.drop (by rwa [leading_append_behind])
    exact hd1.unique (heq ▸ hd2)
  rw [strtok_eq hds h1 hat1 hlen1, strtok_eq hds h2 (hsame ▸ hat2) hlen2, hbehind, heq, hsame]

theorem words_first (hds : NoNul ds) (h : At p.mem a s) (hf : Fits a s) :
    (words ds a s = [] ∧ p.mem (firstOther ds p.mem a) = 0) ∨
      ∃ t ts, words ds a s = (firstOther ds p.mem a, t) :: ts ∧ p.mem (firstOther ds p.mem a) ≠ 0 := by
  have hstart : start { p with sp := 0 } a = a := by rw [start, if_pos ⟨hf.1, rfl⟩]
  have hz : p.mem (a + BitVec.ofNat 32 s.length) = 0 := At.byte (t := []) (by rwa [List.append_nil])
  have hne : ¬ (a = 0 ∧ ({ p with sp := 0 } : Program).sp = 0) := fun hn => hf.1 hn.1
  obtain ⟨p1, hfirst⟩ := strtok_first (p := { p with sp := 0 }) hds hne hz
  rw [hstart] at hfirst
  rcases strtok_at (p := { p with sp := 0 }) hds hstart h hf with ⟨hw, heq⟩ | ⟨p', q, t, rest, heq, hw, htaken⟩
  · rw [hfirst, Option.some.injEq, Prod.mk.injEq] at heq
    refine Or.inl ⟨hw, ?_⟩
    by_contra hne
    have h0 := heq.2
    rw [if_neg hne, firstOther_at hds h (by have := hf.2; omega)] at h0
    exact (hf.offset (length_leading_le ds s)).1 h0
  · rw [hfirst, Option.some.injEq, Prod.mk.injEq] at heq
    have hq := heq.2
    have hne : p.mem (firstOther ds p.mem a) ≠ 0 := by
      intro h0
      rw [if_pos h0] at hq
      exact htaken.fitsToken.1 hq.symm
    rw [if_neg hne] at hq
    exact Or.inr ⟨t, _, by rw [hw, hq], hne⟩

/-- The words of the string are what the calls return exactly when the cursor is free, or leads to the
same first character as the string does, or neither leads to any. -/
theorem strtok_yields_iff (hds : NoNul ds) (h : At p.mem a s) (hf : Fits a s) :
    (∃ p', Yields (cstr ds) p a (words ds a s) p') ↔
      p.sp = 0 ∨ firstOther ds p.mem p.sp = firstOther ds p.mem a ∨
        NoToken ds p.mem p.sp ∧ NoToken ds p.mem a := by
  have hne : ¬ (a = 0 ∧ p.sp = 0) := fun hn => hf.1 hn.1
  have hz : p.mem (a + BitVec.ofNat 32 s.length) = 0 := At.byte (t := []) (by rwa [List.append_nil])
  by_cases hsp : p.sp = 0
  · have hstart : start p a = a := by rw [start, if_pos ⟨hf.1, hsp⟩]
    obtain ⟨p', hyields, -⟩ := yields_words hds hstart h hf
    exact iff_of_true ⟨p', hyields⟩ (Or.inl hsp)
  rw [or_iff_right hsp]
  have hstart : start p a = p.sp := by rw [start, if_neg fun hs => hsp hs.2]
  obtain ⟨p1, hfirst⟩ := strtok_first hds hne hz
  rw [hstart] at hfirst
  have hG : firstOther ds p.mem a ≠ 0 := by
    rw [firstOther_at hds h (by have := hf.2; omega)]
    exact (hf.offset (length_leading_le ds s)).1
  rcases words_first hds h hf with ⟨hw, h0⟩ | ⟨t, ts, hw, hne0⟩
  · rw [hw]
    have hnone : NoToken ds p.mem a := Or.inl h0
    constructor
    · rintro ⟨p', hyields⟩
      rw [yields_nil, hfirst, Option.some.injEq, Prod.mk.injEq] at hyields
      obtain ⟨-, hnull⟩ := hyields
      refine Or.inr ⟨?_, hnone⟩
      by_cases hF : p.mem (firstOther ds p.mem p.sp) = 0
      · exact Or.inl hF
      · rw [if_neg hF] at hnull
        exact Or.inr hnull
    · intro hcond
      have hnull : (if p.mem (firstOther ds p.mem p.sp) = 0 then 0 else firstOther ds p.mem p.sp) = 0 := by
        rcases hcond with heq | ⟨hF | hF, -⟩
        · rw [heq, if_pos h0]
        · rw [if_pos hF]
        · rw [hF]
          split_ifs <;> rfl
      rw [hnull] at hfirst
      exact ⟨p1, yields_nil.mpr hfirst⟩
  · constructor
    · rintro ⟨p', hyields⟩
      rw [hw, yields_cons] at hyields
      obtain ⟨p2, heq, hq0, -, -⟩ := hyields
      rw [hfirst, Option.some.injEq, Prod.mk.injEq] at heq
      by_cases hF : p.mem (firstOther ds p.mem p.sp) = 0
      · rw [if_pos hF] at heq
        exact absurd heq.2.symm hq0
      · rw [if_neg hF] at heq
        exact Or.inl heq.2
    · rintro (heq | ⟨-, hnone⟩)
      · have hstart0 : start { p with sp := 0 } a = a := by rw [start, if_pos ⟨hf.1, rfl⟩]
        obtain ⟨p', hyields, -⟩ := yields_words (p := { p with sp := 0 }) hds hstart0 h hf
        have hsame : strtok p a (cstr ds) = strtok { p with sp := 0 } a (cstr ds) :=
          strtok_congr hds rfl hne (fun hn => hf.1 hn.1) hz (by rw [hstart, hstart0, heq])
        exact ⟨p', hyields.congr hsame⟩
      · exact absurd hnone (not_or.mpr ⟨hne0, hG⟩)

def twoStrings : Program :=
  { emptyKmem with
    mem := storeBytes (storeBytes (fun _ => 0) 0x1000 [98, 32, 99, 0]) 0x2000 [97, 0]
    sp := 0 }

theorem strtok_yields_twoStrings :
    (∃ p', Yields (cstr [32]) twoStrings 0x1000 (words [32] 0x1000 [98, 32, 99]) p') ↔
      twoStrings.sp = 0 ∨ firstOther [32] twoStrings.mem twoStrings.sp = firstOther [32] twoStrings.mem 0x1000 ∨
        NoToken [32] twoStrings.mem twoStrings.sp ∧ NoToken [32] twoStrings.mem 0x1000 :=
  strtok_yields_iff (by unfold NoNul; decide) ⟨by decide, by decide⟩ ⟨by decide, by decide⟩

/-- After the first token of "b c" is taken, a call on "a" returns the second one. -/
theorem strtok_keeps_cursor : ∃ p', strtok twoStrings 0x1000 space = some (p', 0x1000) ∧
    At p'.mem 0x2000 [97] ∧ words [32] 0x2000 [97] = [(0x2000, [97])] ∧
    (strtok p' 0x2000 space).map Prod.snd = some 0x1002 ∧
    ¬ ∃ p'', Yields space p' 0x2000 (words [32] 0x2000 [97]) p'' := by
  have hfirst : (strtok twoStrings 0x1000 space).map (fun r => (r.2, readBytes r.1.mem 0x2000 2)) =
      some (0x1000, [97, 0]) := by decide +kernel
  have hsecond : ((strtok twoStrings 0x1000 space).bind fun r => strtok r.1 0x2000 space).map Prod.snd =
      some 0x1002 := by decide +kernel
  have hwords : words [32] 0x2000 [97] = [(0x2000, [97])] := by decide
  cases hcall : strtok twoStrings 0x1000 space with
  | none =>
    rw [hcall] at hfirst
    cases hfirst
  | some r =>
    obtain ⟨p', q⟩ := r
    rw [hcall] at hfirst hsecond
    simp only [Option.map_some, Option.some.injEq, Prod.mk.injEq, Option.bind_some] at hfirst hsecond
    obtain ⟨rfl, hbytes⟩ := hfirst
    refine ⟨p', rfl, ⟨by decide, hbytes⟩, hwords, hsecond, ?_⟩
    rintro ⟨p'', hyields⟩
    rw [hwords, yields_cons] at hyields
    obtain ⟨p2, heq, -⟩ := hyields
    rw [heq] at hsecond
    exact absurd (show (0x2000 : Addr) = 0x1002 from Option.some.inj hsecond) (by decide)

end MultitaskOs.Strtok
