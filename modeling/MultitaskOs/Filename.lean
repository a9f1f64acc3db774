import MultitaskOs.FatLookup

/-!
# The name of an entry

`fat16_to_proper_string` copies up to a space or a 0, wherever that is. A field
that is filled runs on into what follows it.
-/

open Lib Lib.Memory MultitaskOs.Files MultitaskOs.PathParser MultitaskOs.FatLookup

namespace MultitaskOs.Filename

variable {m m' : Mem} {inp item a : Addr} {room w : Nat}

/-! ## What the copying reads -/

def stringReads (m : Mem) : Nat → Addr → List Addr
  | 0, inp => [inp]
  | room + 1, inp => if m inp ≠ 0 ∧ m inp ≠ 0x20 then inp :: stringReads m room (inp + 1) else [inp]

def filenameReads (m : Mem) (item : Addr) (max_len : Nat) : List Addr :=
  let name := (fat16ToProperString m max_len item).getD []
  stringReads m max_len item ++ itemExt item ::
    if m (itemExt item) ≠ 0 ∧ m (itemExt item) ≠ 0x20 then
      stringReads m (max_len - name.length - 1) (itemExt item)
    else []

theorem isNameByte_iff {c : Byte} : isNameByte c = true ↔ c ≠ 0 ∧ c ≠ 0x20 := by
  simp [isNameByte]

theorem properString_run (hall : ∀ i < w, isNameByte (m (inp + BitVec.ofNat 32 i)) = true)
    (hstop : ¬ isNameByte (m (inp + BitVec.ofNat 32 w)) = true) (hw : w < room) :
    fat16ToProperString m room inp = some (readBytes m inp w) := by
  have hbytes : ∀ c ∈ readBytes m inp w, isNameByte c = true := by
    intro c hc
    obtain ⟨i, hi, rfl⟩ := List.mem_map.mp hc
    exact hall i (List.mem_range.mp hi)
  have hrun : (readBytes m inp (w + 1)).takeWhile isNameByte = readBytes m inp w := by
    rw [readBytes_add, List.takeWhile_append_of_pos hbytes, readBytes_succ, List.takeWhile_cons_of_neg hstop,
      List.append_nil]
  have hlen := congrArg List.length hrun
  rw [length_readBytes] at hlen
  rw [toProperString_spec (w := w + 1) (by omega) (by omega), hrun]

theorem mem_stringReads (hall : ∀ i < w, isNameByte (m (inp + BitVec.ofNat 32 i)) = true) (hw : w ≤ room) :
    inp + BitVec.ofNat 32 w ∈ stringReads m room inp := by
  induction w generalizing inp room with
  | zero =>
    rw [BitVec.add_zero]
    cases room with
    | zero => exact List.mem_singleton_self inp
    | succ room =>
      unfold stringReads
      split
      · exact List.mem_cons_self
      · exact List.mem_singleton_self inp
  | succ w ih =>
    cases room with
    | zero => exact absurd hw (Nat.not_succ_le_zero w)
    | succ room =>
      have h0 := hall 0 (Nat.succ_pos w)
      rw [BitVec.add_zero, isNameByte_iff] at h0
      unfold stringReads
      rw [if_pos h0, add_ofNat_succ]
      refine List.mem_cons_of_mem _ (ih (fun i hi => ?_) (by omega))
      rw [← add_ofNat_succ]
      exact hall (i + 1) (by omega)

theorem stringReads_within (hstop : ¬ isNameByte (m (inp + BitVec.ofNat 32 w)) = true) (hmax : w < 2 ^ 32)
    (ha : a ∈ stringReads m room inp) : Within inp (w + 1) a := by
  induction w generalizing inp room with
  | zero =>
    rw [BitVec.add_zero, isNameByte_iff] at hstop
    have hinp : a = inp := by
      cases room with
      | zero => exact List.mem_singleton.mp ha
      | succ room =>
        unfold stringReads at ha
        rw [if_neg hstop] at ha
        exact List.mem_singleton.mp ha
    rw [hinp]
    unfold Within
    bv_omega
  | succ w ih =>
    have hself : Within inp (w + 1 + 1) inp := by
      unfold Within
      bv_omega
    cases room with
    | zero =>
      rw [List.mem_singleton.mp ha]
      exact hself
    | succ room =>
      unfold stringReads at ha
      split at ha
      · rcases List.mem_cons.mp ha with rfl | ha
        · exact hself
        · rw [add_ofNat_succ] at hstop
          have := ih hstop (by omega) ha
          unfold Within at *
          bv_omega
      · rw [List.mem_singleton.mp ha]
        exact hself

theorem filenameReads_within {n : Nat} (hstop : ¬ isNameByte (m (item + BitVec.ofNat 32 w)) = true) (h8 : 8 ≤ w)
    (hmax : w < 2 ^ 32) (ha : a ∈ filenameReads m item n) : Within item (w + 1) a := by
  have hext : itemExt item + BitVec.ofNat 32 (w - 8) = item + BitVec.ofNat 32 w := by
    unfold itemExt
    bv_omega
  have hin : ∀ b, Within (itemExt item) (w - 8 + 1) b → Within item (w + 1) b := by
    intro b hb
    unfold Within itemExt at *
    bv_omega
  unfold filenameReads at ha
  rcases List.mem_append.mp ha with ha | ha
  · exact stringReads_within hstop hmax ha
  · rcases List.mem_cons.mp ha with rfl | ha
    · unfold Within itemExt
      bv_omega
    · split at ha
      · exact hin a (stringReads_within (by rwa [hext]) (by omega) ha)
      · exact absurd ha List.not_mem_nil

theorem properString_noNul {s : List Byte} (h : fat16ToProperString m room inp = some s) :
    NoNul s ∧ s.length ≤ room := by
  induction room generalizing inp s with
  | zero =>
    unfold fat16ToProperString at h
    split at h <;> cases h
    exact ⟨fun _ hc => absurd hc List.not_mem_nil, Nat.le_refl 0⟩
  | succ room ih =>
    unfold fat16ToProperString at h
    split at h
    · rename_i hc
      obtain ⟨t, ht, rfl⟩ := Option.map_eq_some_iff.mp h
      obtain ⟨hn, hlen⟩ := ih ht
      refine ⟨fun c hmem => ?_, Nat.succ_le_succ hlen⟩
      rcases List.mem_cons.mp hmem with rfl | hmem
      · exact hc.1
      · exact hn c hmem
    · cases h
      exact ⟨fun _ hc => absurd hc List.not_mem_nil, Nat.zero_le _⟩

theorem filename_shape {n : Nat} {out : List Byte} (h : fat16GetFullRelativeFilename m item n = some out) :
    ∃ s, NoNul s ∧ s.length ≤ n ∧ out = s ++ List.replicate (n - s.length) 0 := by
  unfold fat16GetFullRelativeFilename at h
  obtain ⟨name, hname, h⟩ := Option.bind_eq_some_iff.mp h
  obtain ⟨hn, hlen⟩ := properString_noNul hname
  dsimp only at h
  split at h
  · split at h
    · cases h
    · obtain ⟨ext, hext, h⟩ := Option.bind_eq_some_iff.mp h
      obtain ⟨hx, hxlen⟩ := properString_noNul hext
      cases h
      refine ⟨_, hn.append (hx.cons (by decide)), ?_, rfl⟩
      rw [List.length_append, List.length_cons]
      omega
  · cases h
    exact ⟨name, hn, hlen, rfl⟩

/-! ## The same bytes elsewhere -/

variable {d : Addr}

theorem properString_congr (h : ∀ a ∈ stringReads m room inp, m' (a + d) = m a) :
    fat16ToProperString m' room (inp + d) = fat16ToProperString m room inp ∧
      stringReads m' room (inp + d) = (stringReads m room inp).map (· + d) := by
  induction room generalizing inp with
  | zero =>
    have h0 : m' (inp + d) = m inp := h inp (List.mem_singleton_self inp)
    unfold fat16ToProperString stringReads
    rw [h0]
    exact ⟨rfl, rfl⟩
  | succ room ih =>
    have hnext : inp + d + 1 = inp + 1 + d := by bv_omega
    unfold stringReads at h
    unfold fat16ToProperString stringReads
    by_cases hc : m inp ≠ 0 ∧ m inp ≠ 0x20
    · rw [if_pos hc] at h
      have h0 : m' (inp + d) = m inp := h inp List.mem_cons_self
      obtain ⟨hs, hr⟩ := ih fun a ha => h a (List.mem_cons_of_mem _ ha)
      rw [h0, if_pos hc, if_pos hc, if_pos hc, if_pos hc, hnext, hs, hr]
      exact ⟨rfl, rfl⟩
    · rw [if_neg hc] at h
      have h0 : m' (inp + d) = m inp := h inp (List.mem_singleton_self inp)
      rw [h0, if_neg hc, if_neg hc, if_neg hc, if_neg hc]
      exact ⟨rfl, rfl⟩

theorem filename_congr {n : Nat} (h : ∀ a ∈ filenameReads m item n, m' (a + d) = m a) :
    fat16GetFullRelativeFilename m' (item + d) n = fat16GetFullRelativeFilename m item n ∧
      filenameReads m' (item + d) n = (filenameReads m item n).map (· + d) := by
  have hext : itemExt (item + d) = itemExt item + d := by
    unfold itemExt
    bv_omega
  unfold filenameReads at h
  dsimp only at h
  obtain ⟨hs, hr⟩ := properString_congr fun a ha => h a (List.mem_append_left _ ha)
  have h0 : m' (itemExt item + d) = m (itemExt item) := h _ (List.mem_append_right _ List.mem_cons_self)
  unfold fat16GetFullRelativeFilename filenameReads
  dsimp only
  rw [hs, hr, hext, h0]
  by_cases hc : m (itemExt item) ≠ 0 ∧ m (itemExt item) ≠ 0x20
  · rw [if_pos hc] at h
    obtain ⟨hs', hr'⟩ := properString_congr fun a ha =>
      h a (List.mem_append_right _ (List.mem_cons_of_mem _ ha))
    simp only [if_pos hc, List.map_append, List.map_cons]
    rw [hr']
    refine ⟨?_, rfl⟩
    cases hname : fat16ToProperString m n item with
    | none => rfl
    | some name =>
      rw [hname, Option.getD_some] at hs'
      simp only [Option.bind_eq_bind, Option.bind_some]
      rw [hs']
  · simp only [if_neg hc, List.map_append, List.map_cons, List.map_nil, and_self]

/-! ## A name and an extension, padded -/

/-- A field of `n` bytes that holds `s`, and spaces behind it. -/
structure Padded (m : Mem) (a : Addr) (n : Nat) (s : List Byte) : Prop where
  length : s.length ≤ n
  name : ∀ c ∈ s, isNameByte c = true
  bytes : readBytes m a n = s ++ List.replicate (n - s.length) 0x20

variable {n : Nat} {s nm ex : List Byte}

theorem Padded.char (h : Padded m a n s) {i : Nat} (hi : i < s.length) :
    m (a + BitVec.ofNat 32 i) = s[i] ∧ isNameByte (m (a + BitVec.ofNat 32 i)) = true := by
  have hn := h.length
  have hbyte : m (a + BitVec.ofNat 32 i) = s[i] := by
    rw [← readBytes_getD (m := m) (n := n) (by omega), h.bytes, List.getD_append _ _ _ _ hi, List.getD_eq_getElem]
  exact ⟨hbyte, by rw [hbyte]; exact h.name _ (List.getElem_mem hi)⟩

theorem Padded.space (h : Padded m a n s) {i : Nat} (hi : s.length ≤ i) (hn : i < n) :
    m (a + BitVec.ofNat 32 i) = 0x20 := by
  rw [← readBytes_getD (m := m) (n := n) (by omega), h.bytes, List.getD_append_right _ _ _ _ hi,
    List.getD_replicate _ (by omega)]

theorem Padded.text (h : Padded m a n s) : readBytes m a s.length = s := by
  rw [← take_readBytes h.length, h.bytes, List.take_left' rfl]

/-- `NAME.EXT`, and 0 behind it. -/
def fullName (nm ex : List Byte) : List Byte :=
  let name := nm ++ if ex = [] then [] else 0x2e :: ex
  name ++ List.replicate (maxPath - name.length) 0

/-- The name and the extension are written, and nothing but the two fields is read for them. -/
structure NameExact (m : Mem) (item : Addr) (nm ex : List Byte) : Prop where
  written : fat16GetFullRelativeFilename m item maxPath = some (fullName nm ex)
  reads : ∀ a ∈ filenameReads m item maxPath, Within item 11 a

theorem itemExt_eq (item : Addr) (i : Nat) : itemExt item + BitVec.ofNat 32 i = item + BitVec.ofNat 32 (8 + i) := by
  unfold itemExt
  rw [BitVec.add_assoc, BitVec.ofNat_add]
  rfl

theorem hasExt_iff (hx : Padded m (itemExt item) 3 ex) :
    (m (itemExt item) ≠ 0 ∧ m (itemExt item) ≠ 0x20) ↔ ex ≠ [] := by
  rw [← isNameByte_iff]
  constructor
  · rintro h rfl
    have := hx.space (i := 0) (Nat.le_refl 0) (by decide)
    rw [BitVec.add_zero] at this
    rw [this] at h
    exact absurd h (by decide)
  · intro h
    have := (hx.char (List.length_pos_iff.mpr h)).2
    rwa [BitVec.add_zero] at this

theorem name_stop (hn : Padded m item 8 nm) (hx : Padded m (itemExt item) 3 ex) (h : nm.length < 8 ∨ ex = []) :
    m (item + BitVec.ofNat 32 nm.length) = 0x20 := by
  by_cases hlt : nm.length < 8
  · exact hn.space le_rfl hlt
  · have hlen := hn.length
    obtain rfl := h.resolve_left hlt
    have := hx.space (i := 0) (Nat.le_refl 0) (by decide)
    rwa [itemExt_eq, show 8 + 0 = nm.length by omega] at this

theorem nameExact_of_short (hn : Padded m item 8 nm) (hx : Padded m (itemExt item) 3 ex) (hext : ex.length < 3)
    (h : nm.length < 8 ∨ ex = []) : NameExact m item nm ex := by
  have hmax : maxPath = 108 := rfl
  have hlen := hn.length
  have hstop := name_stop hn hx h
  have hname : fat16ToProperString m maxPath item = some nm := by
    rw [properString_run (fun i hi => (hn.char hi).2) (by rw [hstop]; decide) (by omega), hn.text]
  have hspace : m (itemExt item + BitVec.ofNat 32 ex.length) = 0x20 := hx.space le_rfl hext
  refine ⟨?_, fun a ha => ?_⟩
  · unfold fat16GetFullRelativeFilename fullName
    rw [hname]
    simp only [Option.bind_eq_bind, Option.bind_some]
    by_cases hnone : ex = []
    · rw [if_neg (by rw [hasExt_iff hx]; simpa using hnone), if_pos hnone]
      simp
    · rw [if_pos ((hasExt_iff hx).mpr hnone), if_neg hnone, if_neg (by omega),
        properString_run (fun i hi => (hx.char hi).2) (by rw [hspace]; decide) (by omega), hx.text]
      rfl
  · rw [itemExt_eq] at hspace
    have := filenameReads_within (w := 8 + ex.length) (by rw [hspace]; decide) (by omega) (by omega) ha
    unfold Within at *
    omega

theorem attribute_not_within (item : Addr) : ¬ Within item 11 (item + BitVec.ofNat 32 11) := by
  unfold Within
  bv_omega

/-- An extension that fills its field has the attribute behind it read. -/
theorem attribute_read (hn : Padded m item 8 nm) (hx : Padded m (itemExt item) 3 ex) (hext : ex.length = 3) :
    item + BitVec.ofNat 32 11 ∈ filenameReads m item maxPath := by
  have hmax : maxPath = 108 := rfl
  have hlen := hn.length
  have hchar : ∀ i < 3, isNameByte (m (itemExt item + BitVec.ofNat 32 i)) = true := fun i hi =>
    (hx.char (by omega)).2
  unfold filenameReads
  by_cases hlt : nm.length < 8
  · have hname : fat16ToProperString m maxPath item = some nm := by
      rw [properString_run (fun i hi => (hn.char hi).2) (by rw [hn.space le_rfl hlt]; decide) (by omega), hn.text]
    have hne : ex ≠ [] := by
      rintro rfl
      cases hext
    rw [hname]
    dsimp only [Option.getD_some]
    rw [if_pos ((hasExt_iff hx).mpr hne)]
    refine List.mem_append_right _ (List.mem_cons_of_mem _ ?_)
    rw [← itemExt_eq item 3]
    exact mem_stringReads hchar (show 3 ≤ maxPath - nm.length - 1 by omega)
  · refine List.mem_append_left _ (mem_stringReads (fun i hi => ?_) (by decide))
    by_cases hi8 : i < 8
    · exact (hn.char (by omega)).2
    · have := hchar (i - 8) (by omega)
      rwa [itemExt_eq, Nat.add_sub_cancel' (by omega)] at this

theorem takeWhile_zeros {s : List Byte} (hs : NoNul s) (i : Nat) :
    (s ++ List.replicate i 0).takeWhile (· != 0) = s := by
  rw [List.takeWhile_append_of_pos fun c hc => bne_iff_ne.mpr (hs c hc)]
  cases i with
  | zero => simp
  | succ i => simp [List.replicate_succ]

theorem eq_of_padded {x y : List Byte} {i j : Nat} (hx : NoNul x) (hy : NoNul y)
    (h : x ++ List.replicate i 0 = y ++ List.replicate j 0) : x = y := by
  rw [← takeWhile_zeros hx i, h, takeWhile_zeros hy]

/-- A name that fills its field has the extension copied behind it, before it is copied again. -/
theorem extension_twice (hn : Padded m item 8 nm) (hx : Padded m (itemExt item) 3 ex) (hlen : nm.length = 8)
    (hext : ex.length < 3) (hne : ex ≠ []) :
    fat16GetFullRelativeFilename m item maxPath ≠ some (fullName nm ex) := by
  have hmax : maxPath = 108 := rfl
  have hspace : m (itemExt item + BitVec.ofNat 32 ex.length) = 0x20 := hx.space le_rfl hext
  have hall : ∀ i < 8 + ex.length, isNameByte (m (item + BitVec.ofNat 32 i)) = true := by
    intro i hi
    by_cases hi8 : i < 8
    · exact (hn.char (by omega)).2
    · have := (hx.char (i := i - 8) (by omega)).2
      rwa [itemExt_eq, Nat.add_sub_cancel' (by omega)] at this
  have hname : fat16ToProperString m maxPath item = some (nm ++ ex) := by
    rw [properString_run hall (by rw [← itemExt_eq, hspace]; decide) (by omega), readBytes_add, ← hlen, hn.text, hlen]
    have := hx.text
    unfold itemExt at this
    exact congrArg (fun l => some (nm ++ l)) this
  have hext' : fat16ToProperString m (maxPath - (nm ++ ex).length - 1) (itemExt item) = some ex := by
    rw [properString_run (fun i hi => (hx.char hi).2) (by rw [hspace]; decide)
      (by rw [List.length_append]; omega), hx.text]
  intro h
  unfold fat16GetFullRelativeFilename fullName at h
  rw [hname] at h
  simp only [Option.bind_eq_bind, Option.bind_some] at h
  rw [if_pos ((hasExt_iff hx).mpr hne), if_neg (by rw [List.length_append]; omega), hext', if_neg hne] at h
  have hnz : ∀ l : List Byte, (∀ c ∈ l, isNameByte c = true) → NoNul l := fun l hl c hc =>
    isNameByte_ne_zero (hl c hc)
  have hname' := hnz nm hn.name
  have hdot : NoNul (0x2e :: ex) := (hnz ex hx.name).cons (by decide)
  have heq := congrArg List.length
    (eq_of_padded ((hname'.append (hnz ex hx.name)).append hdot) (hname'.append hdot) (Option.some.inj h))
  have := List.length_pos_iff.mpr hne
  simp only [List.length_append, List.length_cons] at *
  omega

/-- For every name and extension, attribute and bytes behind it: the name is written as it is, out of
its fields, exactly when the extension leaves its field a space, and the name does or there is no
extension. -/
theorem nameExact_iff (hn : Padded m item 8 nm) (hx : Padded m (itemExt item) 3 ex) :
    NameExact m item nm ex ↔ ex.length < 3 ∧ (nm.length < 8 ∨ ex = []) := by
  constructor
  · intro h
    have hext : ex.length < 3 := by
      by_contra hge
      have hlen := hx.length
      exact attribute_not_within item (h.reads _ (attribute_read hn hx (by omega)))
    refine ⟨hext, ?_⟩
    by_contra hno
    push Not at hno
    have hlen := hn.length
    exact extension_twice hn hx (by omega) hext hno.2 h.written
  · rintro ⟨hext, h⟩
    exact nameExact_of_short hn hx hext h

def fullItem (ext : List Byte) : Mem :=
  storeBytes (fun _ => 0) 0 (List.replicate 8 0x41 ++ ext ++ List.replicate (3 - ext.length) 0x20)

theorem padded_fullItem {ext : List Byte} (h : ext = [] ∨ ext = [0x42, 0x42]) :
    Padded (fullItem ext) 0 8 (List.replicate 8 0x41) ∧ Padded (fullItem ext) (itemExt 0) 3 ext := by
  rcases h with rfl | rfl
  · exact ⟨⟨by decide, by decide, by decide +kernel⟩, ⟨by decide, by decide, by decide +kernel⟩⟩
  · exact ⟨⟨by decide, by decide, by decide +kernel⟩, ⟨by decide, by decide, by decide +kernel⟩⟩

theorem nameExact_fullItem :
    NameExact (fullItem []) 0 (List.replicate 8 0x41) [] ↔ 0 < 3 ∧ (8 < 8 ∨ ([] : List Byte) = []) :=
  nameExact_iff (padded_fullItem (Or.inl rfl)).1 (padded_fullItem (Or.inl rfl)).2

/-- `AAAAAAAA.BB` is written as `AAAAAAAABB.BB`. -/
theorem full_name_runs_on : ¬ NameExact (fullItem [0x42, 0x42]) 0 (List.replicate 8 0x41) [0x42, 0x42] := by
  intro h
  have hwritten : (fat16GetFullRelativeFilename (fullItem [0x42, 0x42]) 0 maxPath).map (·.take 13) =
      some (List.replicate 8 0x41 ++ [0x42, 0x42, 0x2e, 0x42, 0x42]) := by decide +kernel
  rw [h.written, Option.map_some, Option.some.injEq] at hwritten
  exact absurd hwritten (by decide)

end MultitaskOs.Filename
