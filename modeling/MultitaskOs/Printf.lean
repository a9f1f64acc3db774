import MultitaskOs.Itoa
import MultitaskOs.PathParser

/-!
# Formatted output

`printf` steps over the character behind a `%` whatever it is. If it is the
terminator, the format does not end there. A number is formatted in the one text
that `itoa` has, so a string that lies in it is shown as it was at the call only
if no conversion before it has written over it.
-/

open Lib.Memory MultitaskOs.Itoa MultitaskOs.PathParser

namespace MultitaskOs.Printf

/-- The string behind a pointer; none if its array ends before a terminator. -/
def stringAt (text : Nat → Byte) (p : StrPtr) : Option (List Byte) :=
  (strlen (p.bytes text)).map fun n => (p.bytes text).take n

/-- What a format stands for: each conversion gives way to its argument, any other `%x` to `x`. -/
def expand (text : Nat → Byte) : List Byte → List VaArg → List Byte
  | [], _ => []
  | c :: s, ap =>
    if c ≠ percent then c :: expand text s ap
    else
      match s with
      | [] => []
      | x :: s =>
        if x = 0x69 then
          match ap with
          | .int i :: ap => decimal i ++ expand text s ap
          | _ => []
        else if x = 0x73 then
          match ap with
          | .ptr q :: ap => (stringAt text q).getD [] ++ expand text s ap
          | _ => []
        else x :: expand text s ap

/-- The arguments are those that the conversions of the format call for. -/
inductive Matching (text : Nat → Byte) : List Byte → List VaArg → Prop
  | nil : Matching text [] []
  | lone : Matching text [percent] []
  | char (c : Byte) {s ap} (hc : c ≠ percent) (h : Matching text s ap) : Matching text (c :: s) ap
  | int (i : Int) {s ap} (hi : -2 ^ 31 ≤ i ∧ i < 2 ^ 31) (h : Matching text s ap) :
    Matching text (percent :: 0x69 :: s) (.int i :: ap)
  | str {q t s ap} (hq : stringAt text q = some t) (h : Matching text s ap) :
    Matching text (percent :: 0x73 :: s) (.ptr q :: ap)
  | other (x : Byte) {s ap} (hi : x ≠ 0x69) (hs : x ≠ 0x73) (h : Matching text s ap) :
    Matching text (percent :: x :: s) ap

/-- Read in pairs from the left, the format ends with a `%` that nothing follows. -/
def loneEnd : List Byte → Bool
  | [] => false
  | c :: s =>
    if c ≠ percent then loneEnd s
    else
      match s with
      | [] => true
      | _ :: s => loneEnd s

/-- What is read after a number was formatted is what it was at the call, when the text of `itoa` was
`text₀`: the rest of the format, and each string in its turn. -/
def Intact (text₀ : Nat → Byte) : List Byte → StrPtr → List VaArg → (Nat → Byte) → Prop
  | [], _, _, _ => True
  | c :: s, p, ap, text =>
    if c ≠ percent then Intact text₀ s p.next ap text
    else
      match s with
      | [] => True
      | x :: s =>
        if x = 0x69 then
          match ap with
          | .int i :: ap => ∀ r, itoa text i = some r →
            stringAt r.2 p.next.next = some s ∧ Intact text₀ s p.next.next ap r.2
          | _ => True
        else if x = 0x73 then
          match ap with
          | .ptr q :: ap => stringAt text q = stringAt text₀ q ∧ Intact text₀ s p.next.next ap text
          | _ => True
        else Intact text₀ s p.next.next ap text

/-- It shows `out`, and reads no byte behind the terminator of its format `s`. -/
def Prints (fmt : StrPtr) (s : List Byte) (ap : List VaArg) (o : Stdio) (out : List Byte) : Prop :=
  ∃ o', printf fmt ap o = some o' ∧ printfLoop (s.length + 1) fmt ap o = some o' ∧ o'.shown = o.shown ++ out

variable {s t u : List Byte} {ap : List VaArg} {o o' : Stdio} {c x : Byte} {i : Int} {p q : StrPtr}
  {text text₀ : Nat → Byte} {n loc : Nat}

/-! ## Strings behind pointers -/

theorem bytes_next (text : Nat → Byte) (p : StrPtr) : p.next.bytes text = (p.bytes text).tail := by
  cases p with
  | array s => rfl
  | text loc =>
    simp only [StrPtr.next, StrPtr.bytes, textFrom, ← List.map_tail]
    refine List.ext_getElem (by simp; omega) fun j h1 h2 => ?_
    simp only [List.getElem_map, List.getElem_range, List.getElem_tail]
    congr 1
    omega

theorem stringAt_eq (text : Nat → Byte) (p : StrPtr) : stringAt text p =
    (p.bytes text).head?.bind fun c => if c = 0 then some [] else (stringAt text p.next).map (c :: ·) := by
  unfold stringAt
  rw [bytes_next]
  cases p.bytes text with
  | nil => rfl
  | cons c b =>
    rw [strlen, List.head?_cons, Option.bind_some, List.tail_cons]
    split_ifs
    · rfl
    · cases strlen b <;> rfl

theorem stringAt_array (h : NoNul s) : stringAt text (.array (cstr s)) = some s := by
  rw [stringAt, StrPtr.bytes, strlen_spec h]
  simp [cstr]

theorem stringAt_nil (h : stringAt text p = some []) : (p.bytes text).head? = some 0 := by
  rw [stringAt_eq] at h
  obtain ⟨c, hc, h⟩ := Option.bind_eq_some_iff.mp h
  split_ifs at h with h0
  · rw [hc, h0]
  · obtain ⟨s, -, hs⟩ := Option.map_eq_some_iff.mp h
    cases hs

theorem stringAt_cons (h : stringAt text p = some (c :: s)) :
    (p.bytes text).head? = some c ∧ c ≠ 0 ∧ stringAt text p.next = some s := by
  rw [stringAt_eq] at h
  obtain ⟨d, hd, h⟩ := Option.bind_eq_some_iff.mp h
  split_ifs at h with h0
  · cases h
  · obtain ⟨s', hs, heq⟩ := Option.map_eq_some_iff.mp h
    cases heq
    exact ⟨hd, h0, hs⟩

theorem stringAt_length (h : stringAt text p = some s) : s.length + 1 ≤ (p.bytes text).length := by
  induction s generalizing p with
  | nil =>
    obtain ⟨b, hb⟩ := List.head?_eq_some_iff.mp (stringAt_nil h)
    rw [hb]
    exact Nat.le_add_left _ _
  | cons c s ih =>
    obtain ⟨hhead, -, hnext⟩ := stringAt_cons h
    obtain ⟨b, hb⟩ := List.head?_eq_some_iff.mp hhead
    have hrest := ih hnext
    rw [bytes_next, hb, List.tail_cons] at hrest
    rw [hb, List.length_cons, List.length_cons]
    exact Nat.add_le_add_right hrest 1

theorem print_eq (p : StrPtr) (o : Stdio) :
    print p o = (stringAt o.text p).map fun t => ⟨o.shown ++ t, o.text⟩ := by
  unfold print stringAt
  cases strlen (p.bytes o.text) <;> rfl

/-! ## The text of `itoa` -/

/-- No string in the text is shorter than in `text₀`. -/
def Later (text₀ text : Nat → Byte) : Prop := ∀ j < 11, text₀ j ≠ 0 → text j ≠ 0

/-- `itoa` puts its digits where it pleases, but ends no string. -/
theorem itoa_later (text : Nat → Byte) (hi : -2 ^ 31 ≤ i ∧ i < 2 ^ 31) : ∃ r,
    itoa text i = some r ∧ stringAt r.2 (.text r.1) = some (decimal i) ∧ Later text r.2 := by
  obtain ⟨text', hitoa, hfilled⟩ := itoa_filled text hi.1 hi.2
  have hnul : NoNul (decimal i) := fun b hb h0 => noNul_decimal i (h0 ▸ hb)
  refine ⟨_, hitoa, ?_, fun j hj h0 => ?_⟩
  · rw [stringAt, StrPtr.bytes, textFrom_filled hfilled, ← cstr]
    have hstring : stringAt text' (.array (cstr (decimal i))) = some (decimal i) := stringAt_array hnul
    exact hstring
  · rcases Nat.lt_or_ge j (11 - (decimal i).length) with hlt | hge
    · have hbyte := hfilled.rest j (Or.inl hlt)
      rw [Function.update_of_ne (by omega)] at hbyte
      exact fun h => h0 (hbyte.symm.trans h)
    · obtain ⟨k, rfl⟩ := Nat.exists_eq_add_of_le hge
      have hbyte := hfilled.bytes k (by omega)
      exact fun h => hnul _ (List.getElem_mem _) (hbyte.symm.trans h)

theorem Later.length_le (h : Later text₀ text) (ht : stringAt text₀ q = some t) (hu : stringAt text q = some u) :
    t.length ≤ u.length := by
  cases q with
  | array a => exact (Option.some.inj (ht.symm.trans hu)) ▸ le_rfl
  | text loc =>
    induction t generalizing loc u with
    | nil => exact Nat.zero_le _
    | cons c t ih =>
      obtain ⟨hhead, hc, hnext⟩ := stringAt_cons ht
      have hroom := stringAt_length hnext
      simp only [StrPtr.next, StrPtr.bytes, textFrom, List.length_map, List.length_range] at hroom
      have hbyte : ∀ text, ((StrPtr.text loc).bytes text).head? = some (text loc) := fun text => by
        rw [StrPtr.bytes, textFrom, show 12 - loc = (11 - loc) + 1 by omega, List.range_succ_eq_map]
        rfl
      rw [hbyte] at hhead
      have hne : text loc ≠ 0 := h loc (by omega) (Option.some.inj hhead ▸ hc)
      cases u with
      | nil => exact absurd (Option.some.inj ((hbyte text).symm.trans (stringAt_nil hu))) hne
      | cons d u => exact Nat.succ_le_succ (ih (loc + 1) hnext (stringAt_cons hu).2.2)

/-! ## One step of the loop -/

theorem printfLoop_end (n : Nat) (ap : List VaArg) (hp : stringAt o.text p = some []) :
    printfLoop (n + 1) p ap o = some o := by
  rw [printfLoop.eq_def]
  dsimp only
  rw [stringAt_nil hp]
  rfl

theorem printfLoop_char (n : Nat) (ap : List VaArg) (hp : stringAt o.text p = some (c :: s)) (hc : c ≠ percent) :
    printfLoop (n + 1) p ap o = printfLoop n p.next ap ⟨o.shown ++ [c], o.text⟩ := by
  obtain ⟨hhead, h0, -⟩ := stringAt_cons hp
  rw [printfLoop.eq_def]
  dsimp only
  rw [hhead]
  dsimp only
  rw [if_neg h0, if_pos hc]
  rfl

theorem printfLoop_conversion (n : Nat) (ap : List VaArg) (hhead : (p.bytes o.text).head? = some percent)
    (hnext : (p.next.bytes o.text).head? = some x) : printfLoop (n + 2) p ap o =
      if x = 0x69 then
        match ap with
        | .int i :: ap => (itoa o.text i).bind fun r =>
          (print (.text r.1) { o with text := r.2 }).bind (printfLoop n p.next.next ap)
        | _ => none
      else if x = 0x73 then
        match ap with
        | .ptr q :: ap => (print q o).bind (printfLoop n p.next.next ap)
        | _ => none
      else printfLoop n p.next.next ap (putchar x o) := by
  rw [printfLoop.eq_def]
  dsimp only
  rw [hhead]
  dsimp only
  rw [if_neg (by decide), if_neg (by decide), hnext]
  rfl

theorem printfLoop_int (n : Nat) (ap : List VaArg) (hp : stringAt o.text p = some (percent :: 0x69 :: s))
    {r : Nat × (Nat → Byte)} (hr : itoa o.text i = some r) (ht : stringAt r.2 (.text r.1) = some t) :
    printfLoop (n + 2) p (.int i :: ap) o = printfLoop n p.next.next ap ⟨o.shown ++ t, r.2⟩ := by
  obtain ⟨hhead, -, hnext⟩ := stringAt_cons hp
  rw [printfLoop_conversion _ _ hhead (stringAt_cons hnext).1, if_pos rfl]
  dsimp only
  rw [hr, Option.bind_some, print_eq, ht]
  rfl

theorem printfLoop_str (n : Nat) (ap : List VaArg) (hp : stringAt o.text p = some (percent :: 0x73 :: s))
    (q : StrPtr) : printfLoop (n + 2) p (.ptr q :: ap) o =
      (stringAt o.text q).bind fun t => printfLoop n p.next.next ap ⟨o.shown ++ t, o.text⟩ := by
  obtain ⟨hhead, -, hnext⟩ := stringAt_cons hp
  rw [printfLoop_conversion _ _ hhead (stringAt_cons hnext).1, if_neg (by decide), if_pos rfl]
  dsimp only
  rw [print_eq, Option.bind_map]
  rfl

theorem printfLoop_other (n : Nat) (ap : List VaArg) (hp : stringAt o.text p = some (percent :: x :: s))
    (hi : x ≠ 0x69) (hs : x ≠ 0x73) :
    printfLoop (n + 2) p ap o = printfLoop n p.next.next ap ⟨o.shown ++ [x], o.text⟩ := by
  obtain ⟨hhead, -, hnext⟩ := stringAt_cons hp
  rw [printfLoop_conversion _ _ hhead (stringAt_cons hnext).1, if_neg hi, if_neg hs]
  rfl

/-- The terminator is shown as a character, and what is behind it would be read. -/
theorem printfLoop_lone (ap : List VaArg) (hp : stringAt o.text p = some [percent]) :
    printfLoop 2 p ap o = none := by
  obtain ⟨hhead, -, hnext⟩ := stringAt_cons hp
  rw [printfLoop_conversion 0 _ hhead (stringAt_nil hnext), if_neg (by decide), if_neg (by decide)]
  rfl

theorem printfLoop_succ (h : printfLoop n p ap o = some o') : printfLoop (n + 1) p ap o = some o' := by
  fun_induction printfLoop n p ap o with
  | case1 => cases h
  | case7 p o c n h0 hc hhead hx ival ap ih =>
    obtain ⟨r, hr, h⟩ := Option.bind_eq_some_iff.mp h
    obtain ⟨o₁, hprint, h⟩ := Option.bind_eq_some_iff.mp h
    have hrest := ih o₁ h
    rw [printfLoop.eq_def]
    simp_all
  | case9 p o c n h0 hc hhead hx sval ap hne ih =>
    obtain ⟨o₁, hprint, h⟩ := Option.bind_eq_some_iff.mp h
    have hrest := ih o₁ h
    rw [printfLoop.eq_def]
    simp_all
  | _ => rw [printfLoop.eq_def]; simp_all

/-! ## A whole format -/

theorem printf_of_loop (hp : stringAt o.text p = some s) (h : printfLoop (s.length + 1) p ap o = some o') :
    printf p ap o = some o' :=
  Nat.le_induction (P := fun n _ => printfLoop n p ap o = some o') h (fun _ _ => printfLoop_succ) _ (stringAt_length hp)

theorem expand_char (hc : c ≠ percent) : expand text (c :: s) ap = c :: expand text s ap := by
  rw [expand.eq_def]
  exact if_pos hc

theorem expand_int (i : Int) :
    expand text (percent :: 0x69 :: s) (.int i :: ap) = decimal i ++ expand text s ap := rfl

theorem expand_str (hq : stringAt text q = some t) :
    expand text (percent :: 0x73 :: s) (.ptr q :: ap) = t ++ expand text s ap := by
  show (stringAt text q).getD [] ++ expand text s ap = _
  rw [hq, Option.getD_some]

theorem expand_other (hi : x ≠ 0x69) (hs : x ≠ 0x73) :
    expand text (percent :: x :: s) ap = x :: expand text s ap :=
  (if_neg hi).trans (if_neg hs)

theorem loneEnd_char (hc : c ≠ percent) : loneEnd (c :: s) = loneEnd s := by
  rw [loneEnd.eq_def]
  exact if_pos hc

theorem loneEnd_pair (x : Byte) (s : List Byte) : loneEnd (percent :: x :: s) = loneEnd s := rfl

theorem intact_char (hc : c ≠ percent) : Intact text₀ (c :: s) p ap text ↔ Intact text₀ s p.next ap text := by
  rw [Intact.eq_def]
  exact iff_of_eq (if_pos hc)

theorem intact_int {r : Nat × (Nat → Byte)} (hr : itoa text i = some r) :
    Intact text₀ (percent :: 0x69 :: s) p (.int i :: ap) text ↔
      stringAt r.2 p.next.next = some s ∧ Intact text₀ s p.next.next ap r.2 := by
  show (∀ r, itoa text i = some r → _) ↔ _
  rw [hr]
  exact ⟨fun h => h r rfl, fun h r' hr' => Option.some.inj hr' ▸ h⟩

theorem intact_str : Intact text₀ (percent :: 0x73 :: s) p (.ptr q :: ap) text ↔
    stringAt text q = stringAt text₀ q ∧ Intact text₀ s p.next.next ap text := Iff.rfl

theorem intact_other (hi : x ≠ 0x69) (hs : x ≠ 0x73) :
    Intact text₀ (percent :: x :: s) p ap text ↔ Intact text₀ s p.next.next ap text :=
  iff_of_eq ((if_neg hi).trans (if_neg hs))

theorem loop_of_intact (hm : Matching text₀ s ap) (hp : stringAt o.text p = some s) (hlone : loneEnd s = false)
    (hintact : Intact text₀ s p ap o.text) :
    ∃ o', printfLoop (s.length + 1) p ap o = some o' ∧ o'.shown = o.shown ++ expand text₀ s ap := by
  induction hm generalizing p o with
  | nil => exact ⟨o, printfLoop_end 0 _ hp, (List.append_nil _).symm⟩
  | lone => cases hlone
  | @char c s ap hc h ih =>
    rw [loneEnd_char hc] at hlone
    obtain ⟨o', hloop, hshown⟩ :=
      ih (o := ⟨o.shown ++ [c], o.text⟩) (stringAt_cons hp).2.2 hlone ((intact_char hc).mp hintact)
    refine ⟨o', (printfLoop_char _ _ hp hc).trans hloop, ?_⟩
    rw [hshown, expand_char hc, List.append_assoc]
    rfl
  | @int i s ap hi h ih =>
    rw [loneEnd_pair] at hlone
    obtain ⟨r, hr, ht, -⟩ := itoa_later o.text hi
    obtain ⟨hrest, hintact⟩ := (intact_int hr).mp hintact
    obtain ⟨o', hloop, hshown⟩ := ih (o := ⟨o.shown ++ decimal i, r.2⟩) hrest hlone hintact
    refine ⟨o', (printfLoop_int _ _ hp hr ht).trans hloop, ?_⟩
    rw [hshown, expand_int, List.append_assoc]
  | @str q t s ap hq h ih =>
    rw [loneEnd_pair] at hlone
    obtain ⟨hsame, hintact⟩ := intact_str.mp hintact
    have hrest := (stringAt_cons (stringAt_cons hp).2.2).2.2
    obtain ⟨o', hloop, hshown⟩ := ih (o := ⟨o.shown ++ t, o.text⟩) hrest hlone hintact
    refine ⟨o', ?_, ?_⟩
    · rw [List.length_cons, List.length_cons, printfLoop_str _ _ hp, hsame, hq]
      exact hloop
    · rw [hshown, expand_str hq, List.append_assoc]
  | @other x s ap hi hs h ih =>
    rw [loneEnd_pair] at hlone
    have hrest := (stringAt_cons (stringAt_cons hp).2.2).2.2
    obtain ⟨o', hloop, hshown⟩ := ih (o := ⟨o.shown ++ [x], o.text⟩) hrest hlone ((intact_other hi hs).mp hintact)
    refine ⟨o', (printfLoop_other _ _ hp hi hs).trans hloop, ?_⟩
    rw [hshown, expand_other hi hs, List.append_assoc]
    rfl

/-- What is shown is never shorter than what the format at the call has, and if it is that, everything
was read unchanged. -/
theorem intact_of_loop {a : CharPtr} (hm : Matching text₀ s ap) (hp : stringAt o.text (.array a) = some s)
    (hlater : Later text₀ o.text) (h : printfLoop (s.length + 1) (.array a) ap o = some o') :
    ∃ w, o'.shown = o.shown ++ w ∧ (expand text₀ s ap).length ≤ w.length ∧
      (w = expand text₀ s ap → loneEnd s = false ∧ Intact text₀ s (.array a) ap o.text) := by
  induction hm generalizing a o with
  | nil =>
    rw [List.length_nil, printfLoop_end 0 _ hp] at h
    exact ⟨[], by rw [Option.some.inj h, List.append_nil], le_rfl, fun _ => ⟨rfl, trivial⟩⟩
  | lone => exact absurd (h.symm.trans (printfLoop_lone _ hp)) nofun
  | @char c s ap hc hm ih =>
    rw [List.length_cons, printfLoop_char _ _ hp hc] at h
    obtain ⟨w, hshown, hle, heq⟩ := ih (o := ⟨o.shown ++ [c], o.text⟩) (stringAt_cons hp).2.2 hlater h
    rw [loneEnd_char hc, intact_char hc, expand_char hc]
    exact ⟨c :: w, by rw [hshown, List.append_assoc]; rfl, Nat.succ_le_succ hle, fun h => heq (List.cons.inj h).2⟩
  | @int i s ap hi hm ih =>
    obtain ⟨r, hr, ht, hnext⟩ := itoa_later o.text hi
    have hrest : stringAt r.2 (StrPtr.array a).next.next = some s := (stringAt_cons (stringAt_cons hp).2.2).2.2
    rw [List.length_cons, List.length_cons, printfLoop_int _ _ hp hr ht] at h
    obtain ⟨w, hshown, hle, heq⟩ := ih (o := ⟨o.shown ++ decimal i, r.2⟩) hrest
      (fun j hj h0 => hnext j hj (hlater j hj h0)) h
    rw [loneEnd_pair, intact_int hr, expand_int]
    refine ⟨decimal i ++ w, by rw [hshown, List.append_assoc], ?_, fun h => ?_⟩
    · rw [List.length_append, List.length_append]
      exact Nat.add_le_add_left hle _
    · obtain ⟨hlone, hintact⟩ := heq (List.append_cancel_left h)
      exact ⟨hlone, hrest, hintact⟩
  | @str q t s ap hq hm ih =>
    rw [List.length_cons, List.length_cons, printfLoop_str _ _ hp] at h
    obtain ⟨u, hu, h⟩ := Option.bind_eq_some_iff.mp h
    have hrest := (stringAt_cons (stringAt_cons hp).2.2).2.2
    obtain ⟨w, hshown, hle, heq⟩ := ih (o := ⟨o.shown ++ u, o.text⟩) hrest hlater h
    have hlonger := hlater.length_le hq hu
    rw [loneEnd_pair, intact_str, expand_str hq]
    refine ⟨u ++ w, by rw [hshown, List.append_assoc], ?_, fun h => ?_⟩
    · rw [List.length_append, List.length_append]
      exact Nat.add_le_add hlonger hle
    · -- neither part is shorter than what it stands for, so each is that
      have hlen := congrArg List.length h
      rw [List.length_append, List.length_append] at hlen
      obtain ⟨rfl, rfl⟩ := List.append_inj h (by omega)
      obtain ⟨hlone, hintact⟩ := heq rfl
      exact ⟨hlone, hu.trans hq.symm, hintact⟩
  | @other x s ap hi hs hm ih =>
    rw [List.length_cons, List.length_cons, printfLoop_other _ _ hp hi hs] at h
    have hrest := (stringAt_cons (stringAt_cons hp).2.2).2.2
    obtain ⟨w, hshown, hle, heq⟩ := ih (o := ⟨o.shown ++ [x], o.text⟩) hrest hlater h
    rw [loneEnd_pair, intact_other hi hs, expand_other hi hs]
    exact ⟨x :: w, by rw [hshown, List.append_assoc]; rfl, Nat.succ_le_succ hle, fun h => heq (List.cons.inj h).2⟩

/-- A format is shown, and read to its terminator only, if no single `%` ends it and no conversion
writes over what is still to be read; a format outside the text of `itoa` only then. -/
theorem printf_prints_iff {fmt : StrPtr} (hf : stringAt o.text fmt = some s) (hm : Matching o.text s ap) :
    (loneEnd s = false ∧ Intact o.text s fmt ap o.text → Prints fmt s ap o (expand o.text s ap)) ∧
      (∀ a, fmt = .array a → Prints fmt s ap o (expand o.text s ap) →
        loneEnd s = false ∧ Intact o.text s fmt ap o.text) := by
  constructor
  · rintro ⟨hlone, hintact⟩
    obtain ⟨o', hloop, hshown⟩ := loop_of_intact hm hf hlone hintact
    exact ⟨o', printf_of_loop hf hloop, hloop, hshown⟩
  · rintro a rfl ⟨o', -, hloop, hshown⟩
    obtain ⟨w, hw, -, heq⟩ := intact_of_loop hm hf (fun _ _ h => h) hloop
    exact heq (List.append_cancel_left (hw.symm.trans hshown))

def seven : Stdio := ⟨[], fun j => if j = 10 then 0x37 else 0⟩

/-- `printf("A%s%%%i", itoa(7), 5)`: the string is shown before the number is formatted. -/
theorem printf_prints_seven :
    Prints (.array (cstr [0x41, percent, 0x73, percent, percent, percent, 0x69]))
      [0x41, percent, 0x73, percent, percent, percent, 0x69] [.ptr (.text 10), .int 5] seven
      [0x41, 0x37, percent, 0x35] := by
  have hm : Matching seven.text [0x41, percent, 0x73, percent, percent, percent, 0x69] [.ptr (.text 10), .int 5] :=
    .char 0x41 (by decide) (.str (t := [0x37]) (by decide) (.other percent (by decide) (by decide)
      (.int 5 (by decide) .nil)))
  refine (printf_prints_iff (stringAt_array (by unfold NoNul; decide)) hm).1 ⟨by decide, ?_⟩
  rw [intact_char (by decide), intact_str, intact_other (by decide) (by decide)]
  exact ⟨rfl, (intact_int (r := (itoa seven.text 5).get rfl) rfl).mpr ⟨by decide, trivial⟩⟩

/-- `"A%"`: what lies behind the format is shown as well, from its terminator on. And
`printf("%i%s", 5, itoa(7))` shows `"55"`, since the number is formatted where the string is. -/
theorem printf_passes_terminator :
    (Matching seven.text [0x41, percent] [] ∧ printf (.array (cstr [0x41, percent])) [] seven = none ∧
      (printf (.array (cstr [0x41, percent] ++ [0x42, 0])) [] seven).map Stdio.shown = some [0x41, 0, 0x42] ∧
      ¬ Prints (.array (cstr [0x41, percent])) [0x41, percent] [] seven (expand seven.text [0x41, percent] [])) ∧
    Matching seven.text [percent, 0x69, percent, 0x73] [.int 5, .ptr (.text 10)] ∧
      expand seven.text [percent, 0x69, percent, 0x73] [.int 5, .ptr (.text 10)] = [0x35, 0x37] ∧
      (printf (.array (cstr [percent, 0x69, percent, 0x73])) [.int 5, .ptr (.text 10)] seven).map Stdio.shown =
        some [0x35, 0x35] ∧
      ¬ Prints (.array (cstr [percent, 0x69, percent, 0x73])) [percent, 0x69, percent, 0x73]
        [.int 5, .ptr (.text 10)] seven [0x35, 0x37] := by
  have hnone : printf (.array (cstr [0x41, percent])) [] seven = none := rfl
  have hshown : (printf (.array (cstr [percent, 0x69, percent, 0x73])) [.int 5, .ptr (.text 10)] seven).map
      Stdio.shown = some [0x35, 0x35] := by decide +kernel
  refine ⟨⟨.char 0x41 (by decide) .lone, hnone, by decide +kernel, ?_⟩,
    .int 5 (by decide) (.str (t := [0x37]) (by decide) .nil), ?_, hshown, ?_⟩
  · rintro ⟨o', h, -⟩
    rw [hnone] at h
    cases h
  · rw [expand_int, expand_str (t := [0x37]) (by decide)]
    decide +kernel
  · rintro ⟨o', h, -, hout⟩
    rw [h, Option.map_some, hout] at hshown
    exact absurd hshown (by decide)

end MultitaskOs.Printf
