import MultitaskOs.Strtok

/-!
# The list of a command's arguments

`peachos_parse_command` cuts its copy of the command, an array on the stack, into
tokens, and gives each one a node of its own.
-/

open Lib Lib.Run Lib.Memory Lib.Arena Lib.CString MultitaskOs.Kmem MultitaskOs.PathParser MultitaskOs.Strtok

namespace MultitaskOs.ParseCommand

variable {p p' : Program} {k k1 : Kmem} {m m' : Mem} {b c : Block} {frame a current new token str command x : Addr}
  {s t rest : List Byte} {ws : List (Addr × List Byte)} {n : Nat} {max : Int}

/-! ## What a call is to return -/

/-- The maximal runs without a space, each cut to what an argument has room for. -/
def arguments (s : List Byte) : List (List Byte) :=
  ((s.splitOnP (· = 32)).filter (· ≠ [])).map (·.take (sizeofArgument - 1))

/-- From `a` on the nodes of a list hold these arguments, and then it ends. -/
def ListAt (m : Mem) : Addr → List (List Byte) → Prop
  | a, [] => a = 0
  | a, t :: ts => a ≠ 0 ∧ At m a t ∧ ListAt m (nextArgument m a) ts

theorem arguments_eq (a : Addr) (s : List Byte) :
    arguments s = (words [32] a s).map fun w => w.2.take (sizeofArgument - 1) := by
  have htexts := words_texts [32] a s
  simp only [List.mem_singleton] at htexts
  rw [arguments, ← htexts, List.map_map]
  rfl

theorem length_words_le (ds : List Byte) (a : Addr) (s : List Byte) : (words ds a s).length ≤ s.length + 1 := by
  refine (List.length_filter_le _ _).trans ?_
  induction s generalizing a with
  | nil => exact le_rfl
  | cons c s ih =>
    have hle := ih (a + 1)
    rw [pieces, List.length_cons]
    split_ifs
    · rw [List.length_cons]
      omega
    · rw [List.length_modifyHead]
      omega

/-! ## The array on the stack -/

/-- The stack is a block that has been handed out, and the array lies in it. -/
structure Stack (k : Kmem) (b : Block) (frame : Addr) : Prop where
  live : b ∈ k.heap.live
  inside : (frame - b.base).toNat + sizeofScommand.toNat ≤ extent blockSize b.size

structure InFrame (m : Mem) (frame a : Addr) (s : List Byte) : Prop where
  text : At m a s
  fits : Fits a s
  inside : (a - frame).toNat + s.length < sizeofScommand.toNat

theorem InFrame.agree (h : InFrame m frame a s) (hag : Agree m m' frame sizeofScommand.toNat) :
    InFrame m' frame a s := by
  obtain ⟨htext, hfits, hinside⟩ := h
  refine ⟨htext.agree (hag.sub (by omega)) ?_, hfits, hinside⟩
  have := hfits.2
  omega

theorem Stack.keeps (h : Stack k b frame) (hk : Keeps k k1) : Stack k1 b frame := ⟨hk.live b h.live, h.inside⟩

theorem Stack.not_within (h : Stack k b frame) (hc : c ∈ k.heap.live) (hne : c.base ≠ b.base)
    (hx : Within frame sizeofScommand.toNat x) : ¬ Within c.base (extent blockSize c.size) x := by
  refine (live_apart hc h.live hne).not_within ?_
  have hinside := h.inside
  unfold Within at *
  bv_omega

/-! ## The tokenizer on it -/

/-- The first of `ws` has been returned, and the others are still to come. -/
def Pending (p : Program) (frame token : Addr) : List (Addr × List Byte) → Prop
  | [] => token = 0 ∧ p.sp = 0
  | w :: ws => token = w.1 ∧ InFrame p.mem frame w.1 w.2 ∧
    ∃ rest, InFrame p.mem frame p.sp rest ∧ words [32] p.sp rest = ws

theorem strtok_pending (hstart : start p str = a) (h : InFrame p.mem frame a s) :
    ∃ p' token, strtok p str space = some (p', token) ∧ Pending p' frame token (words [32] a s) ∧
      p'.heap = p.heap ∧ ∀ x, ¬ Within frame sizeofScommand.toNat x → p'.mem x = p.mem x := by
  obtain ⟨htext, hfits, hinside⟩ := h
  have hcstr : space = cstr [32] := rfl
  have hspace : NoNul [32] := by unfold NoNul; decide
  rw [hcstr]
  rcases strtok_at hspace hstart htext hfits with ⟨hw, heq⟩ | ⟨p', q, t, rest, heq, hw, htaken⟩
  · rw [hw]
    exact ⟨_, _, heq, ⟨rfl, rfl⟩, rfl, fun _ _ => rfl⟩
  · have htoken := htaken.tokenInside
    have hrest := htaken.restInside
    rw [hw]
    refine ⟨p', q, heq, ⟨rfl, ⟨htaken.tokenAt, htaken.fitsToken, ?_⟩, rest, ⟨htaken.restAt, htaken.fitsRest, ?_⟩, rfl⟩,
      htaken.heap, fun x hx => htaken.outside x fun hin => hx ?_⟩
    · bv_omega
    · bv_omega
    · unfold Within at *
      bv_omega

/-! ## A node -/

/-- The node at `current` holds the text `t`, and the list ends there. -/
structure Last (p : Program) (b : Block) (current : Addr) (t : List Byte) : Prop where
  live : ⟨current, sizeofCommandArgument⟩ ∈ p.heap.live
  apart : current ≠ b.base
  ne_zero : current ≠ 0
  text : At p.mem current (t.take (sizeofArgument - 1))
  next : nextArgument p.mem current = 0

theorem length_take_lt (t : List Byte) : (t.take (sizeofArgument - 1)).length < sizeofArgument := by
  rw [List.length_take]
  unfold sizeofArgument
  omega

theorem text_within (t : List Byte) (hx : Within a ((t.take (sizeofArgument - 1)).length + 1) x) :
    Within a (extent blockSize sizeofCommandArgument) x ∧ ¬ Within (a + BitVec.ofNat 32 sizeofArgument) 4 x := by
  have hlen := length_take_lt t
  have hext : extent blockSize sizeofCommandArgument = 4096 := by decide
  rw [hext]
  generalize (t.take (sizeofArgument - 1)).length = w at *
  unfold Within sizeofArgument at *
  constructor
  · omega
  · bv_omega

theorem next_within (hx : Within (a + BitVec.ofNat 32 sizeofArgument) 4 x) :
    Within a (extent blockSize sizeofCommandArgument) x := by
  have hext : extent blockSize sizeofCommandArgument = 4096 := by decide
  rw [hext]
  unfold Within sizeofArgument at *
  bv_omega

theorem text_agree (h : At m a (t.take (sizeofArgument - 1))) (hag : ∀ x,
    Within a (extent blockSize sizeofCommandArgument) x → ¬ Within (a + BitVec.ofNat 32 sizeofArgument) 4 x →
      m' x = m x) : At m' a (t.take (sizeofArgument - 1)) := by
  refine h.agree (fun x hx => ?_) ?_
  · obtain ⟨hin, hout⟩ := text_within t hx
    exact hag x hin hout
  · have hlen := length_take_lt t
    unfold sizeofArgument at *
    omega

theorem Last.agree (h : Last p b current t) (hheap : p'.heap = p.heap)
    (hag : Agree p.mem p'.mem current (extent blockSize sizeofCommandArgument)) : Last p' b current t := by
  obtain ⟨hlive, hapart, h0, htext, hnext⟩ := h
  refine ⟨hheap ▸ hlive, hapart, h0, text_agree htext fun x hx _ => hag x hx, ?_⟩
  have hlink : Agree p.mem p'.mem (current + BitVec.ofNat 32 sizeofArgument) 4 := fun x hx => hag x (next_within hx)
  rw [nextArgument, hlink.load32]
  exact hnext

theorem copy_text (hout : ∀ y, Within frame sizeofScommand.toNat y → ¬ Within new sizeofArgument y)
    (h : InFrame m frame a t) :
    programStrncpy m new a sizeofArgument = storeBytes m new (t.take (sizeofArgument - 1) ++ [0]) := by
  obtain ⟨htext, -, hinside⟩ := h
  have hread : textAt m a (sizeofArgument - 1) = t.take (sizeofArgument - 1) := htext.textAt _
  have hcount : ((sizeofArgument : Int) - 1).toNat = sizeofArgument - 1 := by decide
  rw [programStrncpy, strncpyMem_apart (by decide), hcount, hread]
  intro i hi hle
  rw [hcount, hread, List.length_take] at *
  refine hout _ ?_
  unfold Within
  bv_omega

theorem last_fresh (hs : Stack p.toKmem b frame) (hf : Fresh p.toKmem k1 new sizeofCommandArgument)
    (h : InFrame p.mem frame a t) (hm : m = setNext (programStrncpy k1.mem new a sizeofArgument) new 0) :
    Last ⟨⟨m, k1.heap⟩, p.sp⟩ b new t ∧
      ∀ x, ¬ Within new (extent blockSize sizeofCommandArgument) x → m x = p.mem x := by
  have hne : new ≠ b.base := fun he => hf.not_live (he ▸ ⟨b.size, hs.live⟩)
  have hle := size_le_extent (g := blockSize) sizeofCommandArgument
  have hsize : sizeofArgument ≤ sizeofCommandArgument := by decide
  have hframe : ∀ y, Within frame sizeofScommand.toNat y →
      ¬ Within new (extent blockSize sizeofCommandArgument) y :=
    fun y hy => (hs.keeps hf.keeps).not_within hf.mem_live hne hy
  have hin : InFrame k1.mem frame a t := h.agree fun y hy => by
    rw [hf.mem_eq]
    refine zero_of_not_within fun hw => hframe y hy ?_
    unfold Within at *
    omega
  have hlen := length_take_lt t
  rw [copy_text (fun y hy hw => hframe y hy (by unfold Within at *; omega)) hin] at hm
  have hcopied : At (storeBytes k1.mem new (t.take (sizeofArgument - 1) ++ [0])) new (t.take (sizeofArgument - 1)) :=
    at_storeBytes (fun h0 => h.text.noNul (List.mem_of_mem_take h0)) (by unfold sizeofArgument at *; omega)
  refine ⟨⟨hf.mem_live, hne, hf.ne_zero, ?_, ?_⟩, fun x hx => ?_⟩
  · rw [hm]
    exact text_agree hcopied fun x _ hx => store32_of_not_within hx
  · rw [hm]
    exact load32_store32 _ _ _
  · rw [hm, setNext, store32_of_not_within fun hw => hx (next_within hw), storeBytes_of_not_within, hf.mem_eq]
    · refine zero_of_not_within fun hw => hx ?_
      unfold Within at *
      omega
    · intro hw
      rw [List.length_append, List.length_singleton] at hw
      exact hx (text_within t hw).1

theorem last_linked {t0 : List Byte} (hs : Stack p.toKmem b frame) (hl : Last p b current t0)
    (hf : Fresh p.toKmem k1 new sizeofCommandArgument) (h : InFrame p.mem frame a t)
    (hm : m = setNext (setNext (programStrncpy k1.mem new a sizeofArgument) new 0) current new) :
    Last ⟨⟨m, k1.heap⟩, p.sp⟩ b new t ∧ nextArgument m current = new ∧
      ∀ x, ¬ Within new (extent blockSize sizeofCommandArgument) x →
        ¬ Within (current + BitVec.ofNat 32 sizeofArgument) 4 x → m x = p.mem x := by
  subst hm
  obtain ⟨hlast, hout⟩ := last_fresh hs hf h rfl
  have hne : new ≠ current := fun he => hf.not_live (he ▸ ⟨_, hl.live⟩)
  have hap := live_apart hf.mem_live (hf.keeps.live _ hl.live) hne
  refine ⟨hlast.agree rfl fun x hx => ?_, load32_store32 _ _ _, fun x hnew hlink => ?_⟩
  · exact store32_of_not_within fun hw => hap.symm.not_within hx (next_within hw)
  · rw [setNext, store32_of_not_within hlink, hout x hnew]

/-! ## The loop -/

/-- The list ends with the node `current`, and `token` is the next token, if there is one. -/
structure Ready (p : Program) (b : Block) (frame current : Addr) (t : List Byte) (token : Addr)
    (ws : List (Addr × List Byte)) : Prop where
  stack : Stack p.toKmem b frame
  last : Last p b current t
  pending : Pending p frame token ws

theorem strtok_ready (hs : Stack p.toKmem b frame) (hl : Last p b current t)
    (hrest : InFrame p.mem frame p.sp rest) :
    ∃ p' token, strtok p 0 space = some (p', token) ∧ Ready p' b frame current t token (words [32] p.sp rest) ∧
      p'.heap = p.heap ∧ ∀ x, ¬ Within frame sizeofScommand.toNat x → p'.mem x = p.mem x := by
  have hstart : start p 0 = p.sp := if_neg fun h => h.1 rfl
  obtain ⟨p', token, heq, hpending, hheap, hout⟩ := strtok_pending hstart hrest
  refine ⟨p', token, heq, ⟨⟨hheap ▸ hs.live, hs.inside⟩, hl.agree hheap fun x hx => hout x ?_, hpending⟩, hheap, hout⟩
  exact fun hw => hs.not_within hl.live hl.apart hw hx

/-- What the loop makes of the list that ends with the node `current`. -/
structure Grown (p p' : Program) (b : Block) (current : Addr) (t : List Byte) (ws : List (Addr × List Byte)) :
    Prop where
  cursor : p'.sp = 0
  list : ListAt p'.mem current (t.take (sizeofArgument - 1) :: ws.map fun w => w.2.take (sizeofArgument - 1))
  others : ∀ c ∈ p.heap.live, c.base ≠ b.base → ∀ x, Within c.base (extent blockSize c.size) x →
    ¬ Within (current + BitVec.ofNat 32 sizeofArgument) 4 x → p'.mem x = p.mem x

theorem Grown.cons {p2 : Program} {w : Addr × List Byte} (hs : Stack p.toKmem b frame) (hl : Last p b current t)
    (hf : Fresh p.toKmem k1 new sizeofCommandArgument) (hheap : p2.heap = k1.heap)
    (hnext : nextArgument p2.mem current = new)
    (hkept : ∀ x, ¬ Within frame sizeofScommand.toNat x → ¬ Within new (extent blockSize sizeofCommandArgument) x →
      ¬ Within (current + BitVec.ofNat 32 sizeofArgument) 4 x → p2.mem x = p.mem x)
    (h : Grown p2 p' b new w.2 ws) : Grown p p' b current t (w :: ws) := by
  have hnew : ∀ c ∈ p.heap.live, ∀ x, Within c.base (extent blockSize c.size) x →
      ¬ Within new (extent blockSize sizeofCommandArgument) x :=
    fun c hc x hx => (fits_apart hf.fits hc).not_within hx
  have hout : ∀ c ∈ p.heap.live, c.base ≠ b.base → ∀ x, Within c.base (extent blockSize c.size) x →
      p'.mem x = p2.mem x := by
    intro c hc hne x hx
    refine h.others c (hheap ▸ hf.keeps.live c hc) hne x hx fun hw => hnew c hc x hx (next_within hw)
  have hothers : ∀ c ∈ p.heap.live, c.base ≠ b.base → ∀ x, Within c.base (extent blockSize c.size) x →
      ¬ Within (current + BitVec.ofNat 32 sizeofArgument) 4 x → p'.mem x = p.mem x := by
    intro c hc hne x hx hlink
    rw [hout c hc hne x hx, hkept x (fun hw => hs.not_within hc hne hw hx) (hnew c hc x hx) hlink]
  have hlink : nextArgument p'.mem current = new := by
    have hag : Agree p2.mem p'.mem (current + BitVec.ofNat 32 sizeofArgument) 4 :=
      fun x hx => hout _ hl.live hl.apart x (next_within hx)
    rw [nextArgument, hag.load32]
    exact hnext
  refine ⟨h.cursor, ⟨hl.ne_zero, text_agree hl.text (hothers _ hl.live hl.apart), ?_⟩, hothers⟩
  rw [hlink]
  exact h.list

theorem malloc_eq (h : kzalloc p.toKmem n = (k1, new)) : multitaskosMalloc p n = (⟨k1, p.sp⟩, new) := by
  rw [multitaskosMalloc, h]

theorem refused {size : Nat} (h : kzalloc k size = (k1, 0)) : k1.heap.failures = k.heap.failures + 1 := by
  rcases kzalloc_cases k size with ⟨-, -, -, hf⟩ | ⟨h0, -⟩
  · rwa [h] at hf
  · rw [h] at h0
    exact absurd rfl h0

theorem loop_grown (h : Ready p b frame current t token ws) (hturns : ws.length < n) :
    ∃ p', peachosParseCommandLoop n p current token = some p' ∧ p.heap.failures ≤ p'.heap.failures ∧
      (p'.heap.failures = p.heap.failures → Grown p p' b current t ws) := by
  obtain ⟨hs, hl, hpending⟩ := h
  induction ws generalizing p current t token n with
  | nil =>
    obtain ⟨htoken, hsp⟩ := hpending
    obtain ⟨n, rfl⟩ := Nat.exists_eq_add_one_of_ne_zero (Nat.ne_of_gt hturns)
    rw [peachosParseCommandLoop, if_pos htoken]
    exact ⟨p, rfl, le_rfl, fun _ => ⟨hsp, ⟨hl.ne_zero, hl.text, hl.next⟩, fun _ _ _ _ _ _ => rfl⟩⟩
  | cons w ws ih =>
    obtain ⟨htoken, hin, rest, hrest, hwords⟩ := hpending
    rw [List.length_cons] at hturns
    obtain ⟨n, rfl⟩ := Nat.exists_eq_add_one_of_ne_zero (Nat.ne_of_gt (Nat.zero_lt_of_lt hturns))
    obtain ⟨⟨k1, new⟩, h1⟩ : ∃ r, kzalloc p.toKmem sizeofCommandArgument = r := ⟨_, rfl⟩
    rw [peachosParseCommandLoop, htoken, if_neg hin.fits.1, malloc_eq h1]
    dsimp only
    by_cases h0 : new = 0
    · have hfail := refused (h0 ▸ h1)
      rw [if_pos h0]
      exact ⟨_, rfl, by dsimp only; omega, fun hok => absurd hok (by dsimp only; omega)⟩
    rw [if_neg h0]
    have hf := fresh_of_eq h1 h0
    have hle := kzalloc_failures_le p.toKmem sizeofCommandArgument
    rw [h1] at hle
    generalize hm : setNext (setNext (programStrncpy k1.mem new w.1 sizeofArgument) new 0) current new = m
    obtain ⟨hlast, hnext, hout⟩ := last_linked hs hl hf hin hm.symm
    have hnew : new ≠ b.base := hlast.apart
    have hframe : Agree p.mem m frame sizeofScommand.toNat := fun x hx => hout x
      ((hs.keeps hf.keeps).not_within hf.mem_live hnew hx) fun hw => hs.not_within hl.live hl.apart hx (next_within hw)
    obtain ⟨p2, token2, heq, ⟨hs2, hl2, hpending2⟩, hheap, hkept⟩ := strtok_ready
      ⟨hf.keeps.live b hs.live, hs.inside⟩ hlast (hrest.agree hframe)
    have hlink : nextArgument p2.mem current = new := by
      have hag : Agree m p2.mem (current + BitVec.ofNat 32 sizeofArgument) 4 :=
        fun x hx => hkept x fun hw => hs.not_within hl.live hl.apart hw (next_within hx)
      rw [nextArgument, hag.load32]
      exact hnext
    obtain ⟨p', hloop, hle', hgrown⟩ := ih (n := n) (by omega) hs2 hl2 (hwords ▸ hpending2)
    have hfail : p2.heap.failures = k1.heap.failures := congrArg Arena.failures hheap
    dsimp only at hle
    refine ⟨p', ?_, by omega, fun hok => ?_⟩
    · rw [heq]
      exact hloop
    · refine Grown.cons hs hl hf hheap hlink (fun x hx hxnew hxlink => ?_) (hgrown (by omega))
      exact (hkept x hx).trans (hout x hxnew hxlink)

/-! ## One call -/

/-- The call is given the command `s`, and its array is on a stack. -/
structure Call (p : Program) (frame command : Addr) (s : List Byte) (max : Int) : Prop where
  text : At p.mem command s
  length_le : s.length ≤ 1024
  max_le : max ≤ 1024
  stack : ∃ b, Stack p.toKmem b frame
  apart : ∀ i ≤ s.length, ¬ Within frame sizeofScommand.toNat (command + BitVec.ofNat 32 i)

theorem Call.copied (h : Call p frame command s max) :
    InFrame (programStrncpy p.mem frame command sizeofScommand) frame frame s := by
  obtain ⟨htext, hlen, -, ⟨b, hs⟩, hapart⟩ := h
  have hread : textAt p.mem command (sizeofScommand - 1).toNat = s := by
    rw [htext.textAt]
    exact List.take_of_length_le hlen
  have hcopy : programStrncpy p.mem frame command sizeofScommand = storeBytes p.mem frame (s ++ [0]) := by
    rw [programStrncpy, strncpyMem_apart (by decide), hread]
    intro i _ hi
    rw [hread] at hi
    exact hapart i hi
  obtain ⟨h0, -, hroom⟩ := p.heap.placed b hs.live
  have hinside := hs.inside
  have hsize : sizeofScommand.toNat = 1025 := rfl
  refine ⟨hcopy ▸ at_storeBytes htext.noNul (by omega), ⟨?_, ?_⟩, by simp; omega⟩
  · bv_omega
  · bv_omega

theorem parseCommand_run (h : Call p frame command s max) (hsp : p.sp = 0) :
    ∃ p' root, peachosParseCommand p frame command max = some (p', root) ∧
      (p'.heap.failures = p.heap.failures → ListAt p'.mem root (arguments s) ∧ p'.sp = 0) := by
  have hin := h.copied
  have hmax := h.max_le
  have hlen := h.length_le
  obtain ⟨b, hs⟩ := h.stack
  rw [peachosParseCommand, if_neg (by unfold sizeofScommand; omega), arguments_eq frame]
  generalize programStrncpy p.mem frame command sizeofScommand = m at *
  have hstart : start ⟨⟨m, p.heap⟩, p.sp⟩ frame = frame := if_pos ⟨hin.fits.1, hsp⟩
  obtain ⟨p2, token, heq, hpending, hheap, -⟩ := strtok_pending hstart hin
  have hs2 : Stack p2.toKmem b frame := ⟨hheap ▸ hs.live, hs.inside⟩
  have hwords := length_words_le [32] frame s
  simp only [Option.bind_eq_bind, heq, Option.bind_some]
  cases hw : words [32] frame s with
  | nil =>
    rw [hw] at hpending
    rw [if_pos hpending.1]
    exact ⟨p2, 0, rfl, fun _ => ⟨rfl, hpending.2⟩⟩
  | cons w ws =>
    rw [hw] at hpending hwords
    rw [List.length_cons] at hwords
    obtain ⟨htoken, htext, rest, hrest, hws⟩ := hpending
    obtain ⟨⟨k1, root⟩, h1⟩ : ∃ r, kzalloc p2.toKmem sizeofCommandArgument = r := ⟨_, rfl⟩
    rw [htoken, if_neg htext.fits.1, malloc_eq h1]
    dsimp only
    have hfail : p2.heap.failures = p.heap.failures := congrArg Arena.failures hheap
    by_cases h0 : root = 0
    · have hrefused := refused (h0 ▸ h1)
      rw [if_pos h0]
      exact ⟨_, _, rfl, fun hok => absurd hok (by dsimp only; omega)⟩
    rw [if_neg h0]
    have hf := fresh_of_eq h1 h0
    have hle := kzalloc_failures_le p2.toKmem sizeofCommandArgument
    rw [h1] at hle
    dsimp only at hle
    generalize hm : setNext (programStrncpy k1.mem root w.1 sizeofArgument) root 0 = m1
    obtain ⟨hlast, hout⟩ := last_fresh hs2 hf htext hm.symm
    have hs3 : Stack ⟨m1, k1.heap⟩ b frame := ⟨hf.keeps.live b hs2.live, hs2.inside⟩
    have hframe : Agree p2.mem m1 frame sizeofScommand.toNat :=
      fun x hx => hout x (hs3.not_within hf.mem_live hlast.apart hx)
    obtain ⟨p4, token4, heq4, hready, hheap4, -⟩ := strtok_ready hs3 hlast (hrest.agree hframe)
    have hfail4 : p4.heap.failures = k1.heap.failures := congrArg Arena.failures hheap4
    obtain ⟨p', hloop, hle', hgrown⟩ := loop_grown (n := addressSpace) hready (by
      rw [hws]
      unfold addressSpace
      omega)
    rw [heq4]
    simp only [Option.bind_some, hloop]
    refine ⟨p', root, rfl, fun hok => ?_⟩
    have hg := hgrown (by omega)
    rw [hws] at hg
    exact ⟨hg.list, hg.cursor⟩

/-! ## One call after another -/

/-- What a program does: a call, or anything that leaves the cursor alone. -/
inductive Event
  | parse (frame command : Addr) (s : List Byte) (max : Int)
  | other (k : Kmem)

def step (p : Program) : Event → Program
  | .parse frame command _ max => ((peachosParseCommand p frame command max).map Prod.fst).getD p
  | .other k => ⟨k, p.sp⟩

/-- No request of a call fails. -/
def Legal (p : Program) : Event → Prop
  | .parse frame command s max =>
    Call p frame command s max ∧ (step p (.parse frame command s max)).heap.failures = p.heap.failures
  | .other _ => True

/-- A call returns the arguments of its own command, and leaves the cursor free. -/
def Parsed (p : Program) : Event → Prop
  | .parse frame command s max => ∃ p' root, peachosParseCommand p frame command max = some (p', root) ∧
    ListAt p'.mem root (arguments s) ∧ p'.sp = 0
  | .other _ => True

theorem parsed_of_legal {e : Event} (hsp : p.sp = 0) (h : Legal p e) : Parsed p e ∧ (step p e).sp = 0 := by
  cases e with
  | other k => exact ⟨trivial, hsp⟩
  | parse frame command s max =>
    obtain ⟨hcall, hok⟩ := h
    obtain ⟨p', root, heq, hrun⟩ := parseCommand_run hcall hsp
    have hstep : step p (.parse frame command s max) = p' := by
      rw [step, heq]
      rfl
    rw [hstep] at hok ⊢
    obtain ⟨hlist, hfree⟩ := hrun hok
    exact ⟨⟨p', root, heq, hlist, hfree⟩, hfree⟩

/-- Whatever the calls before it were, each call returns the arguments of its own command. -/
theorem parseCommand_each {es : List Event} (hsp : p.sp = 0) (h : Each step Legal p es) : Each step Parsed p es :=
  each_of_inv (fun _ _ h0 hl => (parsed_of_legal h0 hl).2) (fun _ _ h0 hl => (parsed_of_legal h0 hl).1) hsp h

/-- A program with a stack at 0x4000, and with " a  b" and "c" in its memory. -/
def shell : Program :=
  { (kzalloc emptyKmem 4096).1 with
    mem := storeBytes (storeBytes (fun _ => 0) 0x1000 [32, 97, 32, 32, 98, 0]) 0x2000 [99, 0]
    sp := 0 }

theorem parseCommand_each_shell :
    Each step Parsed shell [.parse 0x4000 0x1000 [32, 97, 32, 32, 98] 1024, .parse 0x4000 0x2000 [99] 10] := by
  have hstack : (⟨0x4000, 4096⟩ : Block) ∈ shell.heap.live := by decide +kernel
  have hkept : (⟨0x4000, 4096⟩ : Block) ∈
      (step shell (.parse 0x4000 0x1000 [32, 97, 32, 32, 98] 1024)).heap.live := by decide +kernel
  refine parseCommand_each rfl ⟨⟨⟨⟨by decide, by decide +kernel⟩, by decide, by decide, ⟨_, hstack, by decide⟩,
    by decide⟩, by decide +kernel⟩, ⟨⟨⟨by decide, by decide +kernel⟩, by decide, by decide, ⟨_, hkept, by decide⟩,
    by decide⟩, by decide +kernel⟩, trivial⟩

end MultitaskOs.ParseCommand
