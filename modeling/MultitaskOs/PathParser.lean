import Mathlib.Data.List.TakeWhile
import MultitaskOs.Code.PathParser
import MultitaskOs.Task

/-!
# The path parser

What `pathparser_parse` makes of a string: the list of its components, up to the
first empty one.
-/

open Lib Lib.Memory Lib.Arena MultitaskOs.Tasks

namespace MultitaskOs.PathParser

/-- The bytes of a string, before its terminator. -/
def NoNul (s : List Byte) : Prop := ∀ c ∈ s, c ≠ 0

/-- A pointer to the string `s`. -/
def cstr (s : List Byte) : CharPtr := s ++ [0]

@[simp] theorem cstr_nil : cstr [] = [0] := rfl

@[simp] theorem cstr_cons (c : Byte) (s : List Byte) : cstr (c :: s) = c :: cstr s := rfl

variable {s : List Byte} {k k' : Kernel}

theorem NoNul.tail {c : Byte} (h : NoNul (c :: s)) : NoNul s := fun x hx => h x (List.mem_cons_of_mem _ hx)

theorem NoNul.head {c : Byte} (h : NoNul (c :: s)) : c ≠ 0 := h c List.mem_cons_self

theorem NoNul.cons {c : Byte} (h : NoNul s) (hc : c ≠ 0) : NoNul (c :: s) := List.forall_mem_cons.mpr ⟨hc, h⟩

theorem NoNul.append {t : List Byte} (h : NoNul s) (ht : NoNul t) : NoNul (s ++ t) :=
  List.forall_mem_append.mpr ⟨h, ht⟩

/-! ## Strings -/

theorem strlen_spec (h : NoNul s) : strlen (cstr s) = some s.length := by
  induction s with
  | nil => rfl
  | cons c s ih =>
    rw [cstr_cons, strlen, if_neg h.head, ih h.tail]
    rfl

theorem strnlen_spec (h : NoNul s) (n : Nat) : strnlen (cstr s) n = some (min s.length n) := by
  induction s generalizing n with
  | nil => cases n <;> rfl
  | cons c s ih =>
    cases n with
    | zero => rfl
    | succ n =>
      rw [cstr_cons, strnlen, if_neg h.head, ih h.tail, Option.map_some, List.length_cons,
        Nat.succ_min_succ]

theorem memcmp_eq_zero {a b x y : Byte} {r : CharPtr} :
    ∃ n, memcmp (a :: b :: r) [x, y] 2 = some n ∧ (n = 0 ↔ a = x ∧ b = y) := by
  by_cases ha : a = x
  · by_cases hb : b = y
    · exact ⟨0, by simp [memcmp, ha, hb], by simp [ha, hb]⟩
    · refine ⟨if b.toInt < y.toInt then -1 else 1, by simp [memcmp, ha, hb], ?_⟩
      split <;> simp [hb]
  · refine ⟨if a.toInt < x.toInt then -1 else 1, by simp [memcmp, ha], ?_⟩
    split <;> simp [ha]

/-- `d` is the drive digit and `rest` what follows the prefix. -/
structure Drive (s : List Byte) (d : Byte) (rest : List Byte) : Prop where
  digit : isdigit d
  eq : s = d :: colon :: slash :: rest

theorem validFormat_drive {d : Byte} {rest : List Byte} (h : Drive s d rest) (hs : NoNul s) :
    pathparserPathValidFormat (cstr s) = some true := by
  have hlen := strnlen_spec hs maxPath
  have h3 : ¬ min s.length maxPath < 3 := by
    rw [h.eq]
    simp [maxPath]
  simp only [pathparserPathValidFormat, hlen, Option.bind_eq_bind, Option.bind_some, if_neg h3]
  obtain ⟨n, hn, h0⟩ := memcmp_eq_zero (a := colon) (b := slash) (x := colon) (y := slash) (r := cstr rest)
  have hn0 : n = 0 := h0.mpr ⟨rfl, rfl⟩
  simp [h.eq, h.digit, hn, hn0]

theorem validFormat_not (hs : NoNul s) (h : ¬ ∃ d rest, Drive s d rest) :
    pathparserPathValidFormat (cstr s) = some false := by
  have hlen := strnlen_spec hs maxPath
  simp only [pathparserPathValidFormat, hlen, Option.bind_eq_bind, Option.bind_some]
  match s with
  | [] | [_] | [_, _] => simp [maxPath]
  | a :: b :: c :: rest =>
    have h3 : ¬ min (a :: b :: c :: rest).length maxPath < 3 := by simp [maxPath]
    rw [if_neg h3]
    by_cases hd : isdigit a
    · obtain ⟨n, hn, h0⟩ := memcmp_eq_zero (a := b) (b := c) (x := colon) (y := slash) (r := cstr rest)
      have hn0 : n ≠ 0 := by
        intro hz
        obtain ⟨rfl, rfl⟩ := h0.mp hz
        exact h ⟨a, rest, hd, rfl⟩
      simp [hd, hn, hn0]
    · simp [hd]

/-! ## One component -/

/-- The bytes before the next slash. -/
def firstPart (s : List Byte) : List Byte := s.takeWhile (· ≠ slash)

/-- What follows the next slash. -/
def restParts (s : List Byte) : List Byte := (s.dropWhile (· ≠ slash)).tail

theorem NoNul.rest (h : NoNul s) : NoNul (restParts s) := fun c hc =>
  h c ((List.dropWhile_sublist _).subset (List.mem_of_mem_tail hc))

theorem firstPart_length_le (s : List Byte) : (firstPart s).length ≤ s.length :=
  (List.takeWhile_sublist _).length_le

theorem restParts_length (h : firstPart s ≠ []) : (restParts s).length < s.length := by
  have hsum : (firstPart s).length + (s.dropWhile (· ≠ slash)).length = s.length := by
    rw [firstPart, ← List.length_append, List.takeWhile_append_dropWhile]
  have hpos := List.length_pos_of_ne_nil h
  rw [restParts, List.length_tail]
  omega

theorem storeBytes_store8 {m : Mem} {a : Addr} {c : Byte} {cs : List Byte} (h : cs.length + 1 < 2 ^ 32) :
    storeBytes (store8 m a c) (a + 1) cs = storeBytes m a (c :: cs) := by
  funext x
  unfold storeBytes store8
  by_cases hx : x = a
  · have h1 : (x - (a + 1)).toNat = 2 ^ 32 - 1 := by bv_omega
    have h2 : (x - a).toNat = 0 := by bv_omega
    rw [if_pos hx, h1, h2, List.getD_eq_default _ _ (by omega), List.getD_cons_zero]
  · have h1 : (x - a).toNat = (x - (a + 1)).toNat + 1 := by bv_omega
    rw [if_neg hx, h1, List.getD_cons_succ]

theorem getPathPartLoop_spec (hs : NoNul s) (hlen : s.length + 1 < 2 ^ 32) (buf : Addr) (i : Nat) (m : Mem) :
    getPathPartLoop buf (cstr s) i m =
      some (storeBytes m (buf + BitVec.ofNat 32 i) (firstPart s), cstr (s.dropWhile (· ≠ slash)),
        i + (firstPart s).length) := by
  induction s generalizing i m with
  | nil =>
    rw [cstr_nil, getPathPartLoop, if_neg (by simp)]
    rfl
  | cons c s ih =>
    rw [cstr_cons, getPathPartLoop]
    by_cases hc : c = slash
    · rw [if_neg (by simp [hc]), firstPart, List.takeWhile_cons_of_neg (by simp [hc]),
        List.dropWhile_cons_of_neg (by simp [hc])]
      rfl
    · have hlen' : s.length + 1 < 2 ^ 32 := by
        rw [List.length_cons] at hlen
        omega
      have hle := firstPart_length_le s
      have hsucc : buf + BitVec.ofNat 32 (i + 1) = buf + BitVec.ofNat 32 i + 1 := by
        rw [BitVec.ofNat_add, BitVec.add_assoc]
        rfl
      rw [if_pos ⟨hc, hs.head⟩, ih hs.tail hlen', hsucc, storeBytes_store8 (by omega),
        List.dropWhile_cons_of_pos (by simp [hc]), firstPart, firstPart,
        List.takeWhile_cons_of_pos (by simp [hc]), List.length_cons, Nat.add_assoc, Nat.add_comm 1]

theorem skip_slash (s : List Byte) : ∃ c, (cstr (s.dropWhile (· ≠ slash))).head? = some c ∧
    (if c = slash then (cstr (s.dropWhile (· ≠ slash))).tail else cstr (s.dropWhile (· ≠ slash))) =
      cstr (restParts s) := by
  unfold restParts
  cases h : s.dropWhile (· ≠ slash) with
  | nil => exact ⟨0, rfl, if_neg (by decide)⟩
  | cons c r =>
    have hc := List.head?_dropWhile_not (fun x : Byte => decide (x ≠ slash)) s
    rw [h] at hc
    have hslash : c = slash := by simpa using hc
    exact ⟨c, rfl, if_pos hslash⟩

theorem getPathPart_eq (hs : NoNul s) (hlen : s.length + 1 < 2 ^ 32) {k1 : Kmem} {buf : Addr}
    (h : kzalloc k.toKmem maxPath = (k1, buf)) :
    pathparserGetPathPart k (cstr s) =
      if firstPart s = [] then some ({ k with toKmem := kfree k1 buf }, 0, cstr (restParts s))
      else some ({ k with toKmem := { k1 with mem := storeBytes k1.mem buf (firstPart s) } }, buf,
        cstr (restParts s)) := by
  obtain ⟨c, hc, hskip⟩ := skip_slash s
  have hloop := getPathPartLoop_spec hs hlen buf 0 k1.mem
  rw [pathparserGetPathPart, Kernel.onKmem_eq h]
  simp only [hloop, hc, hskip, Option.bind_eq_bind, Option.bind_some, Nat.zero_add]
  have h0 : buf + BitVec.ofNat 32 0 = buf := by simp
  rw [h0]
  by_cases hw : firstPart s = []
  · have hlen0 : (firstPart s).length = 0 := by rw [hw, List.length_nil]
    have hmem : storeBytes k1.mem buf (firstPart s) = k1.mem := by
      rw [hw]
      rfl
    rw [if_pos hw, if_pos hlen0, hmem]
    rfl
  · rw [if_neg hw, if_neg fun hl => hw (List.eq_nil_of_length_eq_zero hl)]
    rfl

/-- The string of a component: `c`, then NULs to the end of its 108-byte buffer. -/
def Text (m : Mem) (buf : Addr) (c : List Byte) : Prop :=
  c.length < maxPath ∧ ∀ i < maxPath, m (buf + BitVec.ofNat 32 i) = c.getD i 0

/-- A component parsed: its string on the block `buf`, its record on the block `part`, and the
record before it linked to it. -/
structure NewPart (k k' : Kernel) (last part buf : Addr) (c : List Byte) : Prop where
  keeps : k.toKmem.Keeps k'.toKmem
  live : k'.heap.Live part ∧ k'.heap.Live buf
  fresh : ¬ k.heap.Live part
  text : Text k'.mem buf c
  parts : k'.pathParts = (if last = 0 then Function.update k.pathParts part ⟨buf, 0⟩
    else Function.update (Function.update k.pathParts part ⟨buf, 0⟩) last
      { Function.update k.pathParts part ⟨buf, 0⟩ last with next := part })

/-- Only the memory, its heap and the records of the components have changed. -/
def OnlyParts (k k' : Kernel) : Prop := ∃ m p, k' = { k with toKmem := m, pathParts := p }

theorem OnlyParts.refl (k : Kernel) : OnlyParts k k := ⟨k.toKmem, k.pathParts, rfl⟩

theorem OnlyParts.trans {k'' : Kernel} (h : OnlyParts k k') (h' : OnlyParts k' k'') : OnlyParts k k'' := by
  obtain ⟨m, p, rfl⟩ := h
  obtain ⟨m', p', rfl⟩ := h'
  exact ⟨m', p', rfl⟩

theorem text_storeBytes {m : Mem} {buf : Addr} {c : List Byte} (hc : c.length < maxPath) :
    Text (storeBytes (zero m buf maxPath) buf c) buf c := by
  refine ⟨hc, fun i hi => ?_⟩
  have hix : (buf + BitVec.ofNat 32 i - buf).toNat = i := by
    unfold maxPath at hi
    bv_omega
  unfold storeBytes zero
  rw [hix, if_pos hi]

theorem Text.keeps {k k' : Kmem} {buf : Addr} {c : List Byte} (h : Text k.mem buf c) (hk : k.Keeps k')
    (hl : k.heap.Live buf) : Text k'.mem buf c := by
  refine ⟨h.1, fun i hi => ?_⟩
  rw [← h.2 i hi]
  apply hk.page hl
  unfold Within maxPath blockSize at *
  bv_omega

theorem keeps_storeBytes {k k1 : Kmem} {buf : Addr} {size : Nat} (h : kzalloc k size = (k1, buf)) {c : List Byte}
    (hc : c.length ≤ 4096) : k.Keeps { k1 with mem := storeBytes k1.mem buf c } := by
  have hcases := kzalloc_cases k size
  have hk := kzalloc_keeps k size
  rw [h] at hcases hk
  rcases hcases with ⟨h0, hl, hm, -⟩ | ⟨h0, hl, hm, -, hfit⟩
  · refine ⟨hk.live, fun b hb x hx => ?_⟩
    have hplaced := k.heap.placed b hb
    have hblock : b.base ≠ 0 ∧ b.base.toNat % 4096 = 0 ∧ b.base.toNat + extent 4096 b.size ≤ 2 ^ 32 := hplaced
    have hbpos : b.base.toNat ≠ 0 := fun hz => hblock.1 (BitVec.eq_of_toNat_eq hz)
    dsimp only at h0 hm ⊢
    rw [storeBytes_of_not_within, hm]
    rw [h0]
    unfold Within at *
    unfold blockSize at hx
    bv_omega
  · have hfresh : Fresh k k1 buf size := ⟨h0, hl, hm, hfit⟩
    refine hk.store hfresh.mem_live hfresh.not_live fun x hx => storeBytes_of_not_within fun hw => hx ?_
    have hle := le_extent (g := blockSize) size
    unfold Within blockSize at *
    dsimp only at *
    omega

/-- What `pathparser_parse_path_part` does, whatever the heap answers. -/
structure PartStep (s : List Byte) (k k' : Kernel) (last part : Addr) : Prop where
  failures : k.heap.failures ≤ k'.heap.failures
  keeps : k.toKmem.Keeps k'.toKmem
  only : OnlyParts k k'
  nonempty : part ≠ 0 → firstPart s ≠ []
  ok : k'.heap.failures = k.heap.failures →
    (firstPart s = [] ∧ part = 0 ∧ k'.pathParts = k.pathParts) ∨
      ∃ buf, part ≠ 0 ∧ NewPart k k' last part buf (firstPart s)

theorem parsePathPart_eq (hs : NoNul s) (hlen : s.length < maxPath) {k1 k2 : Kmem} {buf part last : Addr}
    (h1 : kzalloc k.toKmem maxPath = (k1, buf))
    (h2 : kzalloc { k1 with mem := storeBytes k1.mem buf (firstPart s) } sizeofPathPart = (k2, part)) :
    pathparserParsePathPart k last (cstr s) =
      if firstPart s = [] then some ({ k with toKmem := kfree k1 buf }, 0, cstr (restParts s))
      else if buf = 0 then
        some ({ k with toKmem := { k1 with mem := storeBytes k1.mem buf (firstPart s) } }, 0, cstr (restParts s))
      else some ({ k with
        toKmem := k2
        pathParts := if last = 0 then Function.update k.pathParts part ⟨buf, 0⟩
          else Function.update (Function.update k.pathParts part ⟨buf, 0⟩) last
            { Function.update k.pathParts part ⟨buf, 0⟩ last with next := part } }, part,
        cstr (restParts s)) := by
  have hlen' : s.length + 1 < 2 ^ 32 := by
    unfold maxPath at hlen
    omega
  rw [pathparserParsePathPart, getPathPart_eq hs hlen' h1]
  by_cases hw : firstPart s = []
  · simp [hw]
  · simp only [if_neg hw, Option.bind_eq_bind, Option.bind_some]
    by_cases hb : buf = 0
    · simp [hb]
    · rw [if_neg hb, if_neg hb]
      rw [Kernel.onKmem_eq h2]
      by_cases hl : last = 0
      · simp [hl, Kernel.setPart]
      · have hl' : ¬ last = 0#32 := hl
        simp [hl', Kernel.setPart]

theorem parsePathPart_spec (hs : NoNul s) (hlen : s.length < maxPath) (k : Kernel) (last : Addr) :
    ∃ k' part, pathparserParsePathPart k last (cstr s) = some (k', part, cstr (restParts s)) ∧
      PartStep s k k' last part := by
  obtain ⟨⟨k1, buf⟩, h1⟩ : ∃ r, kzalloc k.toKmem maxPath = r := ⟨_, rfl⟩
  obtain ⟨⟨k2, part⟩, h2⟩ : ∃ r, kzalloc { k1 with mem := storeBytes k1.mem buf (firstPart s) }
    sizeofPathPart = r := ⟨_, rfl⟩
  have hwlen : (firstPart s).length < maxPath := lt_of_le_of_lt (firstPart_length_le s) hlen
  have hk1 := keeps_storeBytes h1 (c := firstPart s) (by unfold maxPath at hwlen; omega)
  have hk2 := kzalloc_keeps { k1 with mem := storeBytes k1.mem buf (firstPart s) } sizeofPathPart
  have hf1 := kzalloc_failures_le k.toKmem maxPath
  have hf2 := kzalloc_failures_le { k1 with mem := storeBytes k1.mem buf (firstPart s) } sizeofPathPart
  rw [h1] at hf1
  rw [h2] at hk2 hf2
  dsimp only at hf1 hf2 hk2
  rw [parsePathPart_eq hs hlen h1 h2]
  by_cases hw : firstPart s = []
  · rw [if_pos hw]
    have hbuf : ¬ k.heap.Live buf := by
      have hnot := kzalloc_not_live k.toKmem maxPath
      rwa [h1] at hnot
    have hk := kzalloc_keeps k.toKmem maxPath
    rw [h1] at hk
    exact ⟨_, _, rfl, hf1, hk.kfree hbuf, ⟨_, _, rfl⟩, fun h => absurd rfl h,
      fun _ => Or.inl ⟨hw, rfl, rfl⟩⟩
  · rw [if_neg hw]
    by_cases hb : buf = 0
    · rw [if_pos hb]
      refine ⟨_, _, rfl, hf1, hk1, ⟨_, _, rfl⟩, fun h => absurd rfl h, fun hok => ?_⟩
      have hok1 := kzalloc_ok (k := k.toKmem) maxPath (by rw [h1]; exact hok)
      rw [h1] at hok1
      exact absurd hb hok1.ne_zero
    · rw [if_neg hb]
      refine ⟨_, _, rfl, hf1.trans hf2, hk1.trans hk2, ⟨_, _, rfl⟩, fun _ => hw, fun hok => Or.inr ⟨buf, ?_⟩⟩
      have hok1 := kzalloc_ok (k := k.toKmem) maxPath (by rw [h1]; dsimp only at hok ⊢; omega)
      have hok2 := kzalloc_ok (k := { k1 with mem := storeBytes k1.mem buf (firstPart s) }) sizeofPathPart
        (by rw [h2]; dsimp only at hok ⊢; omega)
      rw [h1] at hok1
      rw [h2] at hok2
      dsimp only at hok1 hok2
      have hbl : ({ k1 with mem := storeBytes k1.mem buf (firstPart s) } : Kmem).heap.Live buf := hok1.isLive
      have htext : Text (storeBytes k1.mem buf (firstPart s)) buf (firstPart s) :=
        hok1.mem_eq ▸ text_storeBytes hwlen
      refine ⟨hok2.ne_zero, hk1.trans hk2, ⟨hok2.isLive, hk2.isLive hbl⟩, ?_, ?_, rfl⟩
      · exact fun hl => hok2.not_live (hk1.isLive hl)
      · exact Text.keeps (k := { k1 with mem := storeBytes k1.mem buf (firstPart s) }) htext hk2 hbl

/-! ## The list of components -/

/-- The components up to the first empty one. -/
def components (s : List Byte) : List (List Byte) := (s.splitOn slash).takeWhile (· ≠ [])

theorem splitOn_firstPart (s : List Byte) :
    s.splitOn slash = firstPart s ::
      if s.dropWhile (· ≠ slash) = [] then [] else (restParts s).splitOn slash := by
  have hnot : slash ∉ firstPart s := by
    intro hmem
    simpa using List.mem_takeWhile_imp hmem
  have hsum : firstPart s ++ s.dropWhile (· ≠ slash) = s := List.takeWhile_append_dropWhile
  unfold restParts
  cases hd : s.dropWhile (· ≠ slash) with
  | nil =>
    rw [hd, List.append_nil] at hsum
    rw [if_pos rfl]
    conv_lhs => rw [← hsum]
    exact List.splitOn_eq_singleton hnot
  | cons c r =>
    have hc := List.head?_dropWhile_not (fun x : Byte => decide (x ≠ slash)) s
    rw [hd] at hc
    have hslash : c = slash := by simpa using hc
    rw [if_neg (by simp)]
    conv_lhs => rw [← hsum, hd, hslash]
    exact List.splitOn_append_cons_self_of_not_mem hnot r

theorem components_eq (s : List Byte) :
    components s = if firstPart s = [] then [] else firstPart s :: components (restParts s) := by
  rw [components, splitOn_firstPart]
  by_cases hw : firstPart s = []
  · simp [hw]
  · rw [List.takeWhile_cons_of_pos (by simpa using hw), if_neg hw]
    by_cases hd : s.dropWhile (· ≠ slash) = []
    · rw [if_pos hd, components, restParts, hd]
      rfl
    · rw [if_neg hd, components]

/-- The records from `a` on hold the components `cs`, and then the list ends. -/
def Parts (k : Kernel) : Addr → List (List Byte) → Prop
  | a, [] => a = 0
  | a, c :: cs => a ≠ 0 ∧ Text k.mem (k.pathParts a).part c ∧ Parts k (k.pathParts a).next cs

/-- What has become of the list behind the record `part` once the rest of the path is parsed. -/
structure Rest (s : List Byte) (k k' : Kernel) (part : Addr) : Prop where
  failures : k.heap.failures ≤ k'.heap.failures
  keeps : k.toKmem.Keeps k'.toKmem
  only : OnlyParts k k'
  ok : k'.heap.failures = k.heap.failures → k.heap.Live part → (k.pathParts part).next = 0 →
    (∀ a, k.heap.Live a → a ≠ part → k'.pathParts a = k.pathParts a) ∧
      (k'.pathParts part).part = (k.pathParts part).part ∧
      Parts k' (k'.pathParts part).next (components s)

theorem Rest.step {k1 : Kernel} {part part1 : Addr} (h0 : part ≠ 0) (hstep : PartStep s k k1 part part1)
    (hend : part1 = 0 → k' = k1) (hrest : part1 ≠ 0 → Rest (restParts s) k1 k' part1) :
    Rest s k k' part := by
  by_cases h1 : part1 = 0
  · rw [hend h1]
    refine ⟨hstep.failures, hstep.keeps, hstep.only, fun hok _ hnext => ?_⟩
    rcases hstep.ok hok with ⟨hw, -, hparts⟩ | ⟨buf, hne, -⟩
    · rw [hparts, components_eq, if_pos hw]
      exact ⟨fun _ _ _ => rfl, rfl, hnext⟩
    · exact absurd h1 hne
  · have hr := hrest h1
    refine ⟨hstep.failures.trans hr.failures, hstep.keeps.trans hr.keeps, hstep.only.trans hr.only,
      fun hok hlive hnext => ?_⟩
    have hf1 := hstep.failures
    have hf2 := hr.failures
    obtain ⟨buf, -, hnew⟩ := (hstep.ok (by omega)).resolve_left fun h => h1 h.2.1
    have hne : part ≠ part1 := fun he => hnew.fresh (he ▸ hlive)
    have hparts := hnew.parts
    rw [if_neg h0] at hparts
    have hpart1 : k1.pathParts part1 = ⟨buf, 0⟩ := by
      rw [hparts, Function.update_of_ne hne.symm, Function.update_self]
    have hpart : k1.pathParts part = { k.pathParts part with next := part1 } := by
      rw [hparts, Function.update_self, Function.update_of_ne hne]
    obtain ⟨hothers, hkept, hlist⟩ := hr.ok (by omega) hnew.live.1 (by rw [hpart1])
    have hpart' : k'.pathParts part = { k.pathParts part with next := part1 } := by
      rw [hothers part (hnew.keeps.isLive hlive) hne, hpart]
    refine ⟨fun a ha hap => ?_, by rw [hpart'], ?_⟩
    · have hap1 : a ≠ part1 := fun he => hnew.fresh (he ▸ ha)
      rw [hothers a (hnew.keeps.isLive ha) hap1, hparts, Function.update_of_ne hap, Function.update_of_ne hap1]
    · rw [hpart', components_eq, if_neg (hstep.nonempty h1)]
      refine ⟨h1, ?_, hlist⟩
      rw [hkept, hpart1]
      exact hnew.text.keeps hr.keeps hnew.live.2

theorem parsePartsLoop_spec {n : Nat} (hs : NoNul s) (hlen : s.length < maxPath) (hn : s.length + 2 ≤ n)
    (k : Kernel) (part : Addr) :
    ∃ k', parsePartsLoop n k part (cstr s) = some k' ∧ (part = 0 → k' = k) ∧
      (part ≠ 0 → Rest s k k' part) := by
  induction n generalizing s k part with
  | zero => omega
  | succ n ih =>
    unfold parsePartsLoop
    by_cases h0 : part = 0
    · exact ⟨k, if_pos h0, fun _ => rfl, fun h => absurd h0 h⟩
    · obtain ⟨k1, part1, heq, hstep⟩ := parsePathPart_spec hs hlen k part
      simp only [if_neg h0, heq, Option.bind_eq_bind, Option.bind_some]
      by_cases h1 : part1 = 0
      · obtain ⟨m, rfl⟩ : ∃ m, n = m + 1 := ⟨n - 1, by omega⟩
        refine ⟨k1, ?_, fun h => absurd h h0, fun _ => Rest.step h0 hstep (fun _ => rfl) fun h => absurd h1 h⟩
        rw [parsePartsLoop, if_pos h1]
      · have hlt := restParts_length (hstep.nonempty h1)
        obtain ⟨k', hk', -, hrest⟩ := ih hs.rest (by omega) (by omega) k1 part1
        exact ⟨k', hk', fun h => absurd h h0, fun _ => Rest.step h0 hstep (fun h => absurd h h1) hrest⟩

/-! ## The whole path -/

theorem getDriveByPath_drive {d : Byte} {rest : List Byte} (h : Drive s d rest) (hs : NoNul s) :
    pathparserGetDriveByPath (cstr s) = some (tonumericdigit d, cstr rest) := by
  obtain ⟨hdigit, rfl⟩ := h
  have hv := validFormat_drive ⟨hdigit, rfl⟩ hs
  simp only [cstr_cons] at hv
  simp [pathparserGetDriveByPath, hv]

theorem getDriveByPath_not (hs : NoNul s) (h : ¬ ∃ d rest, Drive s d rest) :
    pathparserGetDriveByPath (cstr s) = some (-EBADPATH, cstr s) := by
  simp [pathparserGetDriveByPath, validFormat_not hs h]

theorem tonumericdigit_nonneg {d : Byte} (h : isdigit d) : ¬ tonumericdigit d < 0 := by
  simp only [isdigit, decide_eq_true_eq] at h
  unfold tonumericdigit
  omega

/-- A path that is not too long and starts with a digit and `:/`. -/
def Accepts (s : List Byte) : Prop := s.length ≤ maxPath ∧ ∃ d rest, Drive s d rest

/-- Only the memory, its heap and the records of paths have changed. -/
def OnlyPaths (k k' : Kernel) : Prop :=
  ∃ m r p, k' = { k with toKmem := m, pathRoots := r, pathParts := p }

/-- What `pathparser_parse` does, whatever the heap answers. -/
structure Parsed (s : List Byte) (k k' : Kernel) (root : Addr) : Prop where
  failures : k.heap.failures ≤ k'.heap.failures
  keeps : k.toKmem.Keeps k'.toKmem
  only : OnlyPaths k k'
  rejected : ¬ Accepts s → root = 0 ∧ k' = k
  accepted : Accepts s → root = (kzalloc k.toKmem sizeofPathRoot).2
  null : root = 0 → k'.heap.live = k.heap.live
  live : root ≠ 0 → k'.heap.Live root ∧ ¬ k.heap.Live root
  ok : k'.heap.failures = k.heap.failures → ∀ d rest, s.length ≤ maxPath → Drive s d rest →
    root ≠ 0 ∧ (k'.pathRoots root).drive_no = tonumericdigit d ∧
      Parts k' (k'.pathRoots root).first (components rest)

theorem parsed_rejected (h : ¬ Accepts s) : Parsed s k k 0 := by
  refine ⟨le_rfl, Kmem.Keeps.refl _, ⟨_, _, _, rfl⟩, fun _ => ⟨rfl, rfl⟩, fun ha => absurd ha h, fun _ => rfl,
    fun h0 => absurd rfl h0, fun _ d rest hlen hd => absurd ⟨hlen, d, rest, hd⟩ h⟩

theorem parsed_accepted {d : Byte} {rest : List Byte} {k1 : Kmem} {root : Addr} (hlen : s.length ≤ maxPath)
    (hd : Drive s d rest) (h1 : kzalloc k.toKmem sizeofPathRoot = (k1, root)) (h0 : root ≠ 0)
    (hk : k1.Keeps k'.toKmem) (hf : k1.heap.failures ≤ k'.heap.failures) (honly : OnlyPaths k k')
    (hok : k'.heap.failures = k1.heap.failures → (k'.pathRoots root).drive_no = tonumericdigit d ∧
      Parts k' (k'.pathRoots root).first (components rest)) : Parsed s k k' root := by
  have hfresh := fresh_of_eq h1 h0
  have hle := kzalloc_failures_le k.toKmem sizeofPathRoot
  rw [h1] at hle
  dsimp only at hle
  have haccepts : Accepts s := ⟨hlen, d, rest, hd⟩
  refine ⟨hle.trans hf, hfresh.keeps.trans hk, honly, fun h => absurd haccepts h, fun _ => by rw [h1],
    fun h => absurd h h0, fun _ => ⟨hk.isLive hfresh.isLive, hfresh.not_live⟩, ?_⟩
  intro heq d' rest' _ hd'
  obtain ⟨rfl, hr⟩ : d = d' ∧ rest = rest' := by
    have := hd.eq.symm.trans hd'.eq
    simpa using this
  rw [← hr]
  exact ⟨h0, hok (by omega)⟩

/-- The root record is made: `kk`. Then the first component is parsed, and the others behind it. -/
structure Behind (rest : List Byte) (kk k' : Kernel) (root : Addr) (k2 : Kernel) (first : Addr) : Prop where
  step : PartStep rest kk k2 0 first
  stop : first = 0 → k' = k2
  behind : first ≠ 0 → Rest (restParts rest) (k2.setRoot root fun r => { r with first := first }) k' first

def withRoot (k : Kernel) (k1 : Kmem) (root : Addr) (d : Byte) : Kernel :=
  ({ k with toKmem := k1 } : Kernel).setRoot root fun _ => ⟨tonumericdigit d, 0⟩

theorem Accepts.rest {d : Byte} {rest : List Byte} (hlen : s.length ≤ maxPath) (hd : Drive s d rest) (hs : NoNul s) :
    NoNul rest ∧ rest.length < maxPath := by
  rw [hd.eq] at hlen hs
  rw [List.length_cons, List.length_cons, List.length_cons] at hlen
  exact ⟨hs.tail.tail.tail, by omega⟩

theorem pathparserParse_run {d : Byte} {rest : List Byte} (hs : NoNul s) (hlen : s.length ≤ maxPath)
    (hd : Drive s d rest) {k1 : Kmem} {root : Addr} (h1 : kzalloc k.toKmem sizeofPathRoot = (k1, root)) :
    pathparserParse k (cstr s) = if root = 0 then some (withRoot k k1 root d, 0)
      else (pathparserParsePathPart (withRoot k k1 root d) 0 (cstr rest)).bind fun r =>
        if r.2.1 = 0 then some (r.1, root)
        else (pathparserParsePathPart (r.1.setRoot root fun f => { f with first := r.2.1 }) r.2.1 r.2.2).bind fun q =>
          (parsePartsLoop (q.2.2.length + 2) q.1 q.2.1 q.2.2).bind fun k => some (k, root) := by
  unfold pathparserParse
  simp only [strlen_spec hs, Option.bind_eq_bind, Option.bind_some, if_neg (Nat.not_lt.mpr hlen),
    getDriveByPath_drive hd hs, if_neg (tonumericdigit_nonneg hd.digit)]
  rw [pathparserCreateRoot, Kernel.onKmem_eq h1]
  rfl

theorem pathparserParse_root {d : Byte} {rest : List Byte} (hs : NoNul s) (hlen : s.length ≤ maxPath)
    (hd : Drive s d rest) {k1 : Kmem} {root : Addr} (h1 : kzalloc k.toKmem sizeofPathRoot = (k1, root)) :
    (root = 0 → pathparserParse k (cstr s) = some (withRoot k k1 root d, 0)) ∧
    (root ≠ 0 → ∃ k' k2 first, pathparserParse k (cstr s) = some (k', root) ∧
      Behind rest (withRoot k k1 root d) k' root k2 first) := by
  obtain ⟨hrest, hrlen⟩ := Accepts.rest hlen hd hs
  rw [pathparserParse_run hs hlen hd h1]
  refine ⟨fun h0 => if_pos h0, fun h0 => ?_⟩
  rw [if_neg h0]
  obtain ⟨k2, first, heq, hstep⟩ := parsePathPart_spec hrest hrlen (withRoot k k1 root d) 0
  simp only [heq, Option.bind_some]
  by_cases hfirst : first = 0
  · rw [if_pos hfirst]
    exact ⟨k2, k2, first, rfl, hstep, fun _ => rfl, fun h => absurd hfirst h⟩
  rw [if_neg hfirst]
  have hlt := restParts_length (hstep.nonempty hfirst)
  obtain ⟨k4, part, heq4, hstep4⟩ :=
    parsePathPart_spec hrest.rest (by omega) (k2.setRoot root fun r => { r with first := first }) first
  simp only [heq4, Option.bind_some]
  have hfuel : (restParts (restParts rest)).length + 2 ≤ (cstr (restParts (restParts rest))).length + 2 := by
    simp [cstr]
  have hlt4 : (restParts (restParts rest)).length < maxPath := by
    have := (List.dropWhile_sublist (l := restParts rest) (· ≠ slash)).length_le
    have hle : (restParts (restParts rest)).length ≤ (restParts rest).length := by
      conv_lhs => rw [restParts, List.length_tail]
      omega
    omega
  obtain ⟨k5, heq5, hend, hloop⟩ := parsePartsLoop_spec hrest.rest.rest hlt4 hfuel k4 part
  rw [heq5]
  exact ⟨k5, k2, first, rfl, hstep, fun h => absurd h hfirst, fun _ => Rest.step hfirst hstep4 hend hloop⟩

theorem Behind.parsed {rest : List Byte} {kk k2 : Kernel} {root first : Addr} {drive : Int}
    (h : Behind rest kk k' root k2 first) (hroot : kk.pathRoots root = ⟨drive, 0⟩) :
    kk.heap.failures ≤ k'.heap.failures ∧ kk.toKmem.Keeps k'.toKmem ∧ OnlyPaths kk k' ∧
      (k'.heap.failures = kk.heap.failures → k'.pathRoots root = ⟨drive, first⟩ ∧ Parts k' first (components rest) ∧
        (first ≠ 0 → k'.heap.Live (k'.pathParts first).part)) := by
  have hstep := h.step
  obtain ⟨m2, p2, hk2⟩ := hstep.only
  have hroots2 : k2.pathRoots = kk.pathRoots := by rw [hk2]
  by_cases hfirst : first = 0
  · rw [h.stop hfirst]
    refine ⟨hstep.failures, hstep.keeps, ⟨_, _, _, hk2⟩, fun hok => ?_⟩
    rcases hstep.ok hok with ⟨hw, -, -⟩ | ⟨buf, hne, -⟩
    · rw [hroots2, hroot, components_eq, if_pos hw, hfirst]
      exact ⟨rfl, rfl, fun h => absurd rfl h⟩
    · exact absurd hfirst hne
  · have hrest := h.behind hfirst
    generalize hk3 : k2.setRoot root (fun r => { r with first := first }) = k3 at hrest
    have hk32 : k3.toKmem = k2.toKmem := by rw [← hk3]; rfl
    have hparts3 : k3.pathParts = k2.pathParts := by rw [← hk3]; rfl
    have hroots3 : k3.pathRoots root = ⟨drive, first⟩ := by
      rw [← hk3]
      simp [Kernel.setRoot, hroots2, hroot]
    obtain ⟨m5, p5, hk5⟩ := hrest.only
    have hf2 := hstep.failures
    have hf5 := hrest.failures
    have hkeeps5 := hrest.keeps
    rw [hk32] at hf5 hkeeps5
    refine ⟨hf2.trans hf5, hstep.keeps.trans hkeeps5, ⟨m5, k3.pathRoots, p5, by rw [hk5, ← hk3, hk2]; rfl⟩,
      fun hok => ?_⟩
    obtain ⟨buf, -, hnew⟩ := (hstep.ok (by omega)).resolve_left fun h => hfirst h.2.1
    have hpart2 : k2.pathParts first = ⟨buf, 0⟩ := by
      rw [hnew.parts, if_pos rfl, Function.update_self]
    obtain ⟨-, hkept, hlist⟩ := hrest.ok (by rw [hk32]; omega) (hk32 ▸ hnew.live.1) (by rw [hparts3, hpart2])
    rw [components_eq, if_neg (hstep.nonempty hfirst)]
    refine ⟨by rw [hk5, ← hroots3], ⟨hfirst, ?_, hlist⟩, fun _ => ?_⟩
    all_goals rw [hkept, hparts3, hpart2]
    · exact hnew.text.keeps hkeeps5 hnew.live.2
    · exact hkeeps5.isLive hnew.live.2

theorem withRoot_self (k : Kernel) (k1 : Kmem) (root : Addr) (d : Byte) :
    (withRoot k k1 root d).pathRoots root = ⟨tonumericdigit d, 0⟩ := Function.update_self _ _ _

theorem pathparserParse_spec (hs : NoNul s) (k : Kernel) :
    ∃ k' root, pathparserParse k (cstr s) = some (k', root) ∧ Parsed s k k' root := by
  by_cases hacc : Accepts s
  swap
  · refine ⟨k, 0, ?_, parsed_rejected hacc⟩
    unfold pathparserParse
    simp only [strlen_spec hs, Option.bind_eq_bind, Option.bind_some]
    by_cases hlen : s.length > maxPath
    · rw [if_pos hlen]
      rfl
    · have hdrive : ¬ ∃ d rest, Drive s d rest := fun h => hacc ⟨by omega, h⟩
      simp [getDriveByPath_not hs hdrive, EBADPATH]
  obtain ⟨hlen, d, rest, hd⟩ := hacc
  obtain ⟨⟨k1, root⟩, h1⟩ : ∃ r, kzalloc k.toKmem sizeofPathRoot = r := ⟨_, rfl⟩
  obtain ⟨hnull, hmade⟩ := pathparserParse_root hs hlen hd h1
  by_cases h0 : root = 0
  · -- the root itself could not be had
    refine ⟨_, _, hnull h0, ?_⟩
    have hcases := kzalloc_cases k.toKmem sizeofPathRoot
    have hkeeps := kzalloc_keeps k.toKmem sizeofPathRoot
    rw [h1] at hcases hkeeps
    obtain ⟨-, hl, -, hf⟩ := hcases.resolve_right fun h => h.1 h0
    dsimp only at hf
    refine ⟨?_, hkeeps, ⟨_, _, _, rfl⟩, fun h => absurd ⟨hlen, d, rest, hd⟩ h, fun _ => ?_, fun _ => hl,
      fun h => absurd rfl h, fun hok => ?_⟩
    · exact hf.symm ▸ Nat.le_succ _
    · rw [h1, h0]
    · have hbad : k1.heap.failures = k.heap.failures := hok
      omega
  · obtain ⟨k', k2, first, heq, hb⟩ := hmade h0
    obtain ⟨hf, hkeeps, ⟨m, r, p, honly⟩, hok⟩ := hb.parsed (withRoot_self k k1 root d)
    refine ⟨k', root, heq, parsed_accepted hlen hd h1 h0 hkeeps hf ⟨m, r, p, honly⟩ fun hfail => ?_⟩
    obtain ⟨hroot, hparts, -⟩ := hok hfail
    rw [hroot]
    exact ⟨rfl, hparts⟩

theorem firstPart_live (hs : NoNul s) {root : Addr} (h : pathparserParse k (cstr s) = some (k', root))
    (h0 : root ≠ 0) (hok : k'.heap.failures = k.heap.failures) (hfirst : (k'.pathRoots root).first ≠ 0) :
    k'.heap.Live (k'.pathParts (k'.pathRoots root).first).part := by
  obtain ⟨k'', root', heq, hp⟩ := pathparserParse_spec hs k
  rw [h] at heq
  cases heq
  by_cases hacc : Accepts s
  swap
  · exact absurd (hp.rejected hacc).1 h0
  obtain ⟨hlen, d, rest, hd⟩ := hacc
  obtain ⟨⟨k1, root1⟩, h1⟩ : ∃ r, kzalloc k.toKmem sizeofPathRoot = r := ⟨_, rfl⟩
  have hroot : root = root1 := by rw [hp.accepted ⟨hlen, d, rest, hd⟩, h1]
  subst hroot
  obtain ⟨k3, k2, first, heq, hb⟩ := (pathparserParse_root hs hlen hd h1).2 h0
  rw [h] at heq
  cases heq
  obtain ⟨hf, -, -, hlive⟩ := hb.parsed (withRoot_self k k1 root d)
  have hle := kzalloc_failures_le k.toKmem sizeofPathRoot
  rw [h1] at hle
  have hf1 : k1.heap.failures ≤ k'.heap.failures := hf
  dsimp only at hle
  obtain ⟨hroots, -, hl⟩ := hlive (show k'.heap.failures = k1.heap.failures by omega)
  rw [hroots] at hfirst ⊢
  exact hl hfirst

/-! ## Rendering and parsing -/

/-- `d:/c1/c2/.../cn` -/
def render (d : Byte) (cs : List (List Byte)) : List Byte :=
  d :: colon :: slash :: [slash].intercalate cs

theorem components_intercalate {cs : List (List Byte)} (h0 : cs ≠ []) (hne : ∀ c ∈ cs, c ≠ [])
    (hslash : ∀ c ∈ cs, slash ∉ c) : components ([slash].intercalate cs) = cs := by
  unfold components
  rw [List.splitOn_intercalate slash hslash h0, List.takeWhile_eq_self_iff]
  simpa using hne

theorem components_intercalate_slash {cs : List (List Byte)} (h0 : cs ≠ []) (hne : ∀ c ∈ cs, c ≠ [])
    (hslash : ∀ c ∈ cs, slash ∉ c) : components ([slash].intercalate cs ++ [slash]) = cs := by
  have hall : ∀ c ∈ cs, decide (c ≠ []) = true := by simpa using hne
  unfold components
  rw [List.splitOn_append_cons_self, List.splitOn_intercalate slash hslash h0, List.splitOn_nil,
    List.takeWhile_append_of_pos hall]
  simp

/-- What the caller of `pathparser_parse` is promised. -/
structure ParseExact (s : List Byte) (k' : Kernel) (root : Addr) : Prop where
  null : root = 0 ↔
    s.length > maxPath ∨ s.length < 3 ∨ ¬ ∃ d rest, isdigit d ∧ s = d :: colon :: slash :: rest
  terminated : root ≠ 0 → ∃ cs, Parts k' (k'.pathRoots root).first cs
  rendering : ∀ d cs, isdigit d → cs ≠ [] → (∀ c ∈ cs, c ≠ [] ∧ slash ∉ c) → s.length ≤ maxPath →
    s = render d cs ∨ s = render d cs ++ [slash] →
      (k'.pathRoots root).drive_no = tonumericdigit d ∧ Parts k' (k'.pathRoots root).first cs

theorem Parsed.exact {root : Addr} (h : Parsed s k k' root) (hok : k'.heap.failures = k.heap.failures) :
    ParseExact s k' root := by
  have haccepts : Accepts s → root ≠ 0 ∧ ∃ cs, Parts k' (k'.pathRoots root).first cs := by
    rintro ⟨hlen, d, rest, hd⟩
    obtain ⟨h0, -, hparts⟩ := h.ok hok d rest hlen hd
    exact ⟨h0, _, hparts⟩
  refine ⟨?_, ?_, ?_⟩
  · constructor
    · intro h0
      by_contra hnot
      simp only [not_or, not_not] at hnot
      obtain ⟨hlen, -, d, rest, hd, hs⟩ := hnot
      exact (haccepts ⟨by omega, d, rest, hd, hs⟩).1 h0
    · intro hbad
      refine (h.rejected fun hacc => ?_).1
      obtain ⟨hlen, d, rest, hd⟩ := hacc
      have h3 : 3 ≤ s.length := by
        rw [hd.eq]
        simp
      rcases hbad with hb | hb | hb
      · omega
      · omega
      · exact hb ⟨d, rest, hd.digit, hd.eq⟩
  · intro h0
    by_cases hacc : Accepts s
    · exact (haccepts hacc).2
    · exact absurd (h.rejected hacc).1 h0
  · intro d cs hd h0 hcs hlen hrender
    have hne := fun c hc => (hcs c hc).1
    have hslash := fun c hc => (hcs c hc).2
    rcases hrender with hs | hs
    · obtain ⟨-, hdrive, hparts⟩ := h.ok hok d _ hlen ⟨hd, hs⟩
      rw [components_intercalate h0 hne hslash] at hparts
      exact ⟨hdrive, hparts⟩
    · obtain ⟨-, hdrive, hparts⟩ := h.ok hok d ([slash].intercalate cs ++ [slash]) hlen ⟨hd, hs⟩
      rw [components_intercalate_slash h0 hne hslash] at hparts
      exact ⟨hdrive, hparts⟩

/-- Whatever the heap answers the parser ends and never reads past the terminator; and when no
request fails its result is exact. -/
theorem pathparserParse_exact (hs : NoNul s) (k : Kernel) :
    ∃ k' root, pathparserParse k (cstr s) = some (k', root) ∧
      (k'.heap.failures = k.heap.failures → ParseExact s k' root) := by
  obtain ⟨k', root, heq, h⟩ := pathparserParse_spec hs k
  exact ⟨k', root, heq, h.exact⟩

def pathAB : List Byte := render 0x30 [[0x61], [0x62]] ++ [slash]

theorem pathparserParse_exact_pathAB :
    ∃ k' root, pathparserParse emptyKernel (cstr pathAB) = some (k', root) ∧ ParseExact pathAB k' root := by
  have hruns : (pathparserParse emptyKernel (cstr pathAB)).map (fun r => r.1.heap.failures) = some 0 := by
    decide +kernel
  obtain ⟨k', root, heq, h⟩ := pathparserParse_exact (s := pathAB) (by unfold NoNul; decide) emptyKernel
  rw [heq] at hruns
  exact ⟨k', root, heq, h (Option.some.inj hruns)⟩

/-! ## Components that are dropped -/

/-- All the non-empty substrings between slashes. -/
def allComponents (s : List Byte) : List (List Byte) := (s.splitOn slash).filter (· ≠ [])

/-- No component follows an empty one. -/
def NoneAfterEmpty (s : List Byte) : Prop := ∀ c ∈ (s.splitOn slash).dropWhile (· ≠ []), c = []

theorem components_eq_all_iff (s : List Byte) : components s = allComponents s ↔ NoneAfterEmpty s := by
  unfold components allComponents NoneAfterEmpty
  generalize s.splitOn slash = cs
  have hfilter : cs.filter (· ≠ []) =
      cs.takeWhile (· ≠ []) ++ (cs.dropWhile (· ≠ [])).filter (· ≠ []) := by
    have hself : (cs.takeWhile (· ≠ [])).filter (· ≠ []) = cs.takeWhile (· ≠ []) := by
      apply List.filter_eq_self.mpr
      intro c hc
      exact List.mem_takeWhile_imp (p := fun x : List Byte => decide (x ≠ [])) hc
    conv_lhs => rw [← List.takeWhile_append_dropWhile (p := fun c : List Byte => decide (c ≠ [])) (l := cs)]
    rw [List.filter_append, hself]
  rw [hfilter, eq_comm, List.append_right_eq_self, List.filter_eq_nil_iff]
  simp

theorem Text.injective {m : Mem} {buf : Addr} {c c' : List Byte} (h : Text m buf c) (h' : Text m buf c')
    (hc : NoNul c) (hc' : NoNul c') : c = c' := by
  have hget : ∀ i < maxPath, c.getD i 0 = c'.getD i 0 := fun i hi => (h.2 i hi).symm.trans (h'.2 i hi)
  have hnot : ∀ {a b : List Byte}, NoNul b → b.length < maxPath → a.length < b.length →
      (∀ i < maxPath, a.getD i 0 = b.getD i 0) → False := by
    intro a b hb hlen hlt hab
    have hz := hab a.length (by omega)
    rw [List.getD_eq_default _ _ le_rfl, List.getD_eq_getElem _ _ hlt] at hz
    exact hb _ (List.getElem_mem hlt) hz.symm
  have hlen : c.length = c'.length := by
    rcases Nat.lt_trichotomy c.length c'.length with hlt | heq | hlt
    · exact absurd (hnot hc' h'.1 hlt hget) id
    · exact heq
    · exact absurd (hnot hc h.1 hlt fun i hi => (hget i hi).symm) id
  apply List.ext_getElem hlen
  intro i hi hi'
  have := hget i (by have := h.1; omega)
  rwa [List.getD_eq_getElem _ _ hi, List.getD_eq_getElem _ _ hi'] at this

theorem Parts.injective {a : Addr} {cs cs' : List (List Byte)} (h : Parts k a cs) (h' : Parts k a cs')
    (hc : ∀ c ∈ cs, NoNul c) (hc' : ∀ c ∈ cs', NoNul c) : cs = cs' := by
  induction cs generalizing a cs' with
  | nil =>
    cases cs' with
    | nil => rfl
    | cons c' cs' => exact absurd h h'.1
  | cons c cs ih =>
    cases cs' with
    | nil => exact absurd h' h.1
    | cons c' cs' =>
      obtain ⟨-, htext, hrest⟩ := h
      obtain ⟨-, htext', hrest'⟩ := h'
      rw [List.forall_mem_cons] at hc hc'
      rw [htext.injective htext' hc.1 hc'.1, ih hrest hrest' hc.2 hc'.2]

theorem splitOn_noNul (hs : NoNul s) : ∀ c ∈ s.splitOn slash, NoNul c := by
  induction hn : s.length using Nat.strong_induction_on generalizing s with
  | _ n ih =>
    have hfirst : NoNul (firstPart s) := fun c hc => hs c ((List.takeWhile_sublist _).subset hc)
    rw [splitOn_firstPart]
    intro c hc
    rcases List.mem_cons.mp hc with rfl | hc
    · exact hfirst
    · split at hc
      · cases hc
      · rename_i hd
        have hpos := List.length_pos_of_ne_nil hd
        have hle := (List.dropWhile_sublist (l := s) (· ≠ slash)).length_le
        have hlt : (restParts s).length < n := by
          rw [restParts, List.length_tail]
          omega
        exact ih _ hlt hs.rest rfl c hc

theorem Parsed.all_iff {d : Byte} {rest : List Byte} {root : Addr} (h : Parsed s k k' root) (hs : NoNul s)
    (hok : k'.heap.failures = k.heap.failures) (hlen : s.length ≤ maxPath) (hd : Drive s d rest) :
    Parts k' (k'.pathRoots root).first (allComponents rest) ↔ NoneAfterEmpty rest := by
  obtain ⟨-, -, hparts⟩ := h.ok hok d rest hlen hd
  rw [← components_eq_all_iff]
  constructor
  · intro hall
    have hrest : NoNul rest := by
      intro c hc
      exact hs c (by rw [hd.eq]; simp [hc])
    refine hparts.injective hall (fun c hc => ?_) (fun c hc => ?_)
    · exact splitOn_noNul hrest c ((List.takeWhile_sublist _).subset hc)
    · exact splitOn_noNul hrest c (List.mem_of_mem_filter hc)
  · intro he
    rwa [← he]

/-- For every path the parser accepts, its list is all the non-empty components exactly when no
component follows an empty one. -/
theorem pathparserParse_all_iff {d : Byte} {rest : List Byte} (hs : NoNul s) (hlen : s.length ≤ maxPath)
    (hd : Drive s d rest) (k : Kernel) :
    ∃ k' root, pathparserParse k (cstr s) = some (k', root) ∧ (k'.heap.failures = k.heap.failures →
      (Parts k' (k'.pathRoots root).first (allComponents rest) ↔ NoneAfterEmpty rest)) := by
  obtain ⟨k', root, heq, h⟩ := pathparserParse_spec hs k
  exact ⟨k', root, heq, fun hok => h.all_iff hs hok hlen hd⟩

instance (s : List Byte) : Decidable (NoNul s) := inferInstanceAs (Decidable (∀ c ∈ s, c ≠ 0))

instance (s : List Byte) : Decidable (NoneAfterEmpty s) :=
  inferInstanceAs (Decidable (∀ c ∈ (s.splitOn slash).dropWhile (· ≠ []), c = []))

theorem pathparserParse_all_pathAB :
    ∃ k' root, pathparserParse emptyKernel (cstr pathAB) = some (k', root) ∧
      (k'.heap.failures = emptyKernel.heap.failures →
        (Parts k' (k'.pathRoots root).first (allComponents (pathAB.drop 3)) ↔
          NoneAfterEmpty (pathAB.drop 3))) :=
  pathparserParse_all_iff (d := 0x30) (by decide) (by decide) ⟨by decide, by decide⟩ emptyKernel

def pathADoubleB : List Byte := render 0x30 [[0x61], [], [0x62]]

theorem pathparserParse_drops_pathADoubleB :
    ∃ k' root, pathparserParse emptyKernel (cstr pathADoubleB) = some (k', root) ∧ root ≠ 0 ∧
      k'.heap.failures = emptyKernel.heap.failures ∧
        ¬ Parts k' (k'.pathRoots root).first (allComponents (pathADoubleB.drop 3)) := by
  have hruns : (pathparserParse emptyKernel (cstr pathADoubleB)).map (fun r => r.1.heap.failures) = some 0 := by
    decide +kernel
  have hs : NoNul pathADoubleB := by decide
  have hd : Drive pathADoubleB 0x30 (pathADoubleB.drop 3) := ⟨by decide, by decide⟩
  obtain ⟨k', root, heq, h⟩ := pathparserParse_spec hs emptyKernel
  rw [heq] at hruns
  have hok : k'.heap.failures = emptyKernel.heap.failures := Option.some.inj hruns
  refine ⟨k', root, heq, (h.ok hok _ _ (by decide) hd).1, hok, ?_⟩
  rw [h.all_iff hs hok (by decide) hd]
  decide

end MultitaskOs.PathParser
