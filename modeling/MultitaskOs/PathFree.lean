import MultitaskOs.PathParser

/-!
# Parsing a path and freeing it again

Each component has a block for its text and one for its record, and the reader
of a component gives the text back itself where there is none.
-/

open Lib Lib.Memory Lib.Arena MultitaskOs.Tasks MultitaskOs.PathParser

namespace MultitaskOs.PathFree

variable {s : List Byte} {k k' : Kernel} {part buf last root : Addr} {ps : List (Addr × Addr)}

/-! ## The blocks of a list -/

/-- From `a` on the records are those of `ps`, each with its text, and then the list ends. -/
def Chain (parts : Addr → PathPart) : Addr → List (Addr × Addr) → Prop
  | a, [] => a = 0
  | a, p :: ps => a = p.1 ∧ a ≠ 0 ∧ (parts a).part = p.2 ∧ Chain parts (parts a).next ps

/-- The blocks of these records and their texts, the latest first. -/
def made : List (Addr × Addr) → List Block
  | [] => []
  | p :: ps => made ps ++ [⟨p.1, sizeofPathPart⟩, ⟨p.2, maxPath⟩]

/-- What `pathparser_free` gives back of them, in its order. -/
def given : List (Addr × Addr) → List Addr
  | [] => []
  | p :: ps => p.2 :: p.1 :: given ps

theorem given_eq (ps : List (Addr × Addr)) : given ps = ((made ps).map Block.base).reverse := by
  induction ps with
  | nil => rfl
  | cons p ps ih => simp [given, made, ih]

/-! ## Freeing -/

/-- The blocks at the addresses `as` are given back, one after the other. -/
structure GivesBack (h h' : Arena blockSize) (as : List Addr) : Prop where
  freed : h'.freed = h.freed ++ as
  live : h'.live = h.live.filter fun b => b.base ∉ as

theorem GivesBack.refl (h : Arena blockSize) : GivesBack h h [] := ⟨by simp, by simp⟩

theorem GivesBack.free {h h' : Arena blockSize} {as : List Addr} (hg : GivesBack h h' as) (a : Addr) :
    GivesBack h (h'.free a) (as ++ [a]) := by
  refine ⟨?_, ?_⟩
  · rw [← List.append_assoc, ← hg.freed]
    rfl
  · have hlive : (h'.free a).live = h'.live.filter (·.base ≠ a) := rfl
    rw [hlive, hg.live, List.filter_filter]
    refine List.filter_congr fun b _ => ?_
    simp [Bool.and_comm]

theorem GivesBack.trans {h h' h'' : Arena blockSize} {as bs : List Addr} (hg : GivesBack h h' as)
    (hg' : GivesBack h' h'' bs) : GivesBack h h'' (as ++ bs) := by
  refine ⟨?_, ?_⟩
  · rw [hg'.freed, hg.freed, List.append_assoc]
  · rw [hg'.live, hg.live, List.filter_filter]
    refine List.filter_congr fun b _ => ?_
    simp [Bool.and_comm]

theorem freeLoop_chain {a : Addr} {turns : Nat} (h : Chain k.pathParts a ps) (hturns : ps.length < turns) :
    ∃ k', pathparserFreeLoop turns k a = some k' ∧ GivesBack k.heap k'.heap (given ps) := by
  induction ps generalizing k a turns with
  | nil =>
    obtain ⟨n, rfl⟩ := Nat.exists_eq_add_one_of_ne_zero (Nat.ne_of_gt hturns)
    exact ⟨k, if_pos h, GivesBack.refl _⟩
  | cons p ps ih =>
    obtain ⟨rfl, h0, htext, hrest⟩ := h
    rw [List.length_cons] at hturns
    obtain ⟨n, rfl⟩ := Nat.exists_eq_add_one_of_ne_zero (Nat.ne_of_gt (Nat.zero_lt_of_lt hturns))
    rw [pathparserFreeLoop, if_neg h0, htext]
    have hturn : ps.length < n := by omega
    obtain ⟨k', hloop, hgives⟩ := ih (k := { k with toKmem := kfree (kfree k.toKmem p.2) p.1 }) hrest hturn
    refine ⟨k', hloop, ?_⟩
    have hfirst : GivesBack k.heap ((k.heap.free p.2).free p.1) [p.2, p.1] := ((GivesBack.refl _).free p.2).free p.1
    exact hfirst.trans hgives

/-! ## Parsing -/

/-- What a component that is parsed adds. -/
structure Added (k k' : Kernel) (last part buf : Addr) : Prop where
  ne_zero : part ≠ 0
  fresh : ¬ k.heap.Live part
  live : k'.heap.live = ⟨part, sizeofPathPart⟩ :: ⟨buf, maxPath⟩ :: k.heap.live
  parts : k'.pathParts = (if last = 0 then Function.update k.pathParts part ⟨buf, 0⟩
    else Function.update (Function.update k.pathParts part ⟨buf, 0⟩) last
      { Function.update k.pathParts part ⟨buf, 0⟩ last with next := part })

theorem parsePathPart_added (hs : NoNul s) (hlen : s.length < maxPath) {p : CharPtr}
    (hrun : pathparserParsePathPart k last (cstr s) = some (k', part, p))
    (hok : k'.heap.failures = k.heap.failures) :
    (part = 0 ∧ k'.heap.live = k.heap.live ∧ k'.pathParts = k.pathParts) ∨ ∃ buf, Added k k' last part buf := by
  obtain ⟨⟨k1, buf⟩, h1⟩ : ∃ r, kzalloc k.toKmem maxPath = r := ⟨_, rfl⟩
  obtain ⟨⟨k2, part2⟩, h2⟩ : ∃ r, kzalloc { k1 with mem := storeBytes k1.mem buf (firstPart s) }
    sizeofPathPart = r := ⟨_, rfl⟩
  have hf1 := kzalloc_failures_le k.toKmem maxPath
  have hf2 := kzalloc_failures_le { k1 with mem := storeBytes k1.mem buf (firstPart s) } sizeofPathPart
  have hok1 := kzalloc_ok (k := k.toKmem) maxPath
  have hok2 := kzalloc_ok (k := { k1 with mem := storeBytes k1.mem buf (firstPart s) }) sizeofPathPart
  rw [h1] at hf1 hok1
  rw [h2] at hf2 hok2
  rw [parsePathPart_eq hs hlen h1 h2] at hrun
  dsimp only at hf1 hf2 hok1 hok2
  by_cases hw : firstPart s = []
  · rw [if_pos hw] at hrun
    cases hrun
    exact Or.inl ⟨rfl, (hok1 hok).free_live, rfl⟩
  rw [if_neg hw] at hrun
  by_cases hb : buf = 0
  · rw [if_pos hb] at hrun
    cases hrun
    exact absurd hb (hok1 hok).ne_zero
  rw [if_neg hb] at hrun
  cases hrun
  dsimp only at hok
  have hfresh1 := hok1 (by omega)
  have hfresh2 := hok2 (by omega)
  refine Or.inr ⟨buf, hfresh2.ne_zero, fun hl => hfresh2.not_live ?_, ?_, rfl⟩
  · exact hfresh1.keeps.isLive hl
  · rw [hfresh2.live_eq, hfresh1.live_eq]

/-- What the rest of a path makes of the list that ends with the record `part`. -/
structure Grown (k k' : Kernel) (part : Addr) (ps : List (Addr × Addr)) : Prop where
  chain : Chain k'.pathParts (k'.pathParts part).next ps
  live : k'.heap.live = made ps ++ k.heap.live
  others : ∀ a, k.heap.Live a → a ≠ part → k'.pathParts a = k.pathParts a
  kept : (k'.pathParts part).part = (k.pathParts part).part
  roots : k'.pathRoots = k.pathRoots

theorem Grown.step {k1 : Kernel} {part1 : Addr} (hlive : k.heap.Live part) (h0 : part ≠ 0)
    (hadd : Added k k1 part part1 buf) (hroots : k1.pathRoots = k.pathRoots) (h : Grown k1 k' part1 ps) :
    Grown k k' part ((part1, buf) :: ps) := by
  have hne : part ≠ part1 := fun he => hadd.fresh (he ▸ hlive)
  have hparts := hadd.parts
  rw [if_neg h0] at hparts
  have hold : ∀ a, k.heap.Live a → k1.heap.Live a := by
    rintro a ⟨size, ha⟩
    refine ⟨size, ?_⟩
    rw [hadd.live]
    exact List.mem_cons_of_mem _ (List.mem_cons_of_mem _ ha)
  have hpart : k'.pathParts part = { k.pathParts part with next := part1 } := by
    rw [h.others part (hold part hlive) hne, hparts, Function.update_self, Function.update_of_ne hne]
  have hpart1 : k1.pathParts part1 = ⟨buf, 0⟩ := by
    rw [hparts, Function.update_of_ne hne.symm, Function.update_self]
  refine ⟨?_, ?_, fun a ha hap => ?_, by rw [hpart], h.roots.trans hroots⟩
  · rw [hpart]
    exact ⟨rfl, hadd.ne_zero, by rw [h.kept, hpart1], h.chain⟩
  · rw [h.live, hadd.live, made, List.append_assoc]
    rfl
  · have hap1 : a ≠ part1 := fun he => hadd.fresh (he ▸ ha)
    rw [h.others a (hold a ha) hap1, hparts, Function.update_of_ne hap, Function.update_of_ne hap1]

theorem partsLoop_grown {n : Nat} (hs : NoNul s) (hlen : s.length < maxPath)
    (hrun : parsePartsLoop n k part (cstr s) = some k') :
    k.heap.failures ≤ k'.heap.failures ∧ (k'.heap.failures = k.heap.failures → part ≠ 0 → k.heap.Live part →
      (k.pathParts part).next = 0 → ∃ ps, Grown k k' part ps) := by
  induction n generalizing s k part with
  | zero => cases hrun
  | succ n ih =>
    unfold parsePartsLoop at hrun
    by_cases h0 : part = 0
    · rw [if_pos h0] at hrun
      cases hrun
      exact ⟨le_rfl, fun _ hne => absurd h0 hne⟩
    obtain ⟨k1, part1, heq, hstep⟩ := parsePathPart_spec hs hlen k part
    simp only [if_neg h0, heq, Option.bind_eq_bind, Option.bind_some] at hrun
    have hf1 := hstep.failures
    obtain ⟨m, p, honly⟩ := hstep.only
    have hroots : k1.pathRoots = k.pathRoots := by rw [honly]
    by_cases h1 : part1 = 0
    · -- the path is at its end
      have hend : k' = k1 := by
        cases n with
        | zero => cases hrun
        | succ n =>
          rw [parsePartsLoop, if_pos h1] at hrun
          exact (Option.some.inj hrun).symm
      rw [hend]
      refine ⟨hf1, fun hok _ _ hnext => ⟨[], ?_⟩⟩
      rcases parsePathPart_added hs hlen heq hok with ⟨-, hl, hp⟩ | ⟨buf, hadd⟩
      · exact ⟨by rw [hp]; exact hnext, hl, fun a _ _ => by rw [hp], by rw [hp], hroots⟩
      · exact absurd h1 hadd.ne_zero
    · have hlt := restParts_length (hstep.nonempty h1)
      obtain ⟨hf2, hgrown⟩ := ih hs.rest (by omega) hrun
      refine ⟨hf1.trans hf2, fun hok _ hlive hnext => ?_⟩
      rcases parsePathPart_added hs hlen heq (by omega) with ⟨h, -⟩ | ⟨buf, hadd⟩
      · exact absurd h h1
      have hlive1 : k1.heap.Live part1 := ⟨_, by rw [hadd.live]; exact List.mem_cons_self⟩
      have hne : part ≠ part1 := fun he => hadd.fresh (he ▸ hlive)
      have hnext1 : (k1.pathParts part1).next = 0 := by
        rw [hadd.parts, if_neg h0, Function.update_of_ne hne.symm, Function.update_self]
      obtain ⟨ps, h⟩ := hgrown (by omega) h1 hlive1 hnext1
      exact ⟨_, h.step hlive h0 hadd hroots⟩

/-! ## A whole path -/

/-- What a parse that makes a root leaves on the heap. -/
structure Owned (k k' : Kernel) (root : Addr) (ps : List (Addr × Addr)) : Prop where
  chain : Chain k'.pathParts (k'.pathRoots root).first ps
  live : k'.heap.live = made ps ++ ⟨root, sizeofPathRoot⟩ :: k.heap.live

theorem parse_owned (hs : NoNul s) (hrun : pathparserParse k (cstr s) = some (k', root))
    (hok : k'.heap.failures = k.heap.failures) (hroot : root ≠ 0) : ∃ ps, Owned k k' root ps := by
  obtain ⟨k'', root', heq, hp⟩ := pathparserParse_spec hs k
  rw [hrun] at heq
  cases heq
  by_cases hacc : Accepts s
  swap
  · exact absurd (hp.rejected hacc).1 hroot
  obtain ⟨hlen, d, rest, hd⟩ := hacc
  obtain ⟨⟨k1, root1⟩, h1⟩ : ∃ r, kzalloc k.toKmem sizeofPathRoot = r := ⟨_, rfl⟩
  obtain rfl : root = root1 := by rw [hp.accepted ⟨hlen, d, rest, hd⟩, h1]
  obtain ⟨hrest, hrlen⟩ := Accepts.rest hlen hd hs
  have hfresh := fresh_of_eq h1 hroot
  have hle := kzalloc_failures_le k.toKmem sizeofPathRoot
  rw [h1] at hle
  dsimp only at hle
  rw [pathparserParse_run hs hlen hd h1, if_neg hroot] at hrun
  obtain ⟨k2, first, heq, hstep⟩ := parsePathPart_spec hrest hrlen (withRoot k k1 root d) 0
  have hf2 := hstep.failures
  have hf1 : (withRoot k k1 root d).heap = k1.heap := rfl
  rw [hf1] at hf2
  obtain ⟨m, p, honly⟩ := hstep.only
  have hrec : k2.pathRoots root = ⟨tonumericdigit d, 0⟩ := by
    rw [honly]
    exact withRoot_self k k1 root d
  simp only [heq, Option.bind_some] at hrun
  by_cases hfirst : first = 0
  · rw [if_pos hfirst] at hrun
    cases hrun
    rcases parsePathPart_added hrest hrlen heq (by rw [hf1]; omega) with ⟨-, hl, -⟩ | ⟨buf, hadd⟩
    · exact ⟨[], by rw [hrec]; rfl, hl.trans hfresh.live_eq⟩
    · exact absurd hfirst hadd.ne_zero
  · rw [if_neg hfirst] at hrun
    have hlt := restParts_length (hstep.nonempty hfirst)
    -- the second component is read as the loop reads the others
    obtain ⟨n, hloop⟩ : ∃ n, parsePartsLoop n (k2.setRoot root fun r => { r with first := first }) first
        (cstr (restParts rest)) = some k' := by
      obtain ⟨q, hq, hrun⟩ := Option.bind_eq_some_iff.mp hrun
      obtain ⟨k4, hk4, heq4⟩ := Option.bind_eq_some_iff.mp hrun
      cases heq4
      refine ⟨q.2.2.length + 3, ?_⟩
      rw [parsePartsLoop, if_neg hfirst, hq]
      exact hk4
    have hheap : (k2.setRoot root fun r => { r with first := first }).heap = k2.heap := rfl
    obtain ⟨hf4, hgrown⟩ := partsLoop_grown hrest.rest (by omega) hloop
    rw [hheap] at hf4 hgrown
    rcases parsePathPart_added hrest hrlen heq (by rw [hf1]; omega) with ⟨h, -⟩ | ⟨buf, hadd⟩
    · exact absurd h hfirst
    have hparts : k2.pathParts first = ⟨buf, 0⟩ := by
      rw [hadd.parts, if_pos rfl, Function.update_self]
    obtain ⟨ps, h⟩ := hgrown (by omega) hfirst ⟨_, by rw [hadd.live]; exact List.mem_cons_self⟩
      (congrArg PathPart.next hparts)
    refine ⟨(first, buf) :: ps, ?_, ?_⟩
    · have hroots : (k'.pathRoots root).first = first := by
        rw [h.roots]
        simp [Kernel.setRoot]
      have htext : (k'.pathParts first).part = buf := h.kept.trans (congrArg PathPart.part hparts)
      rw [hroots]
      exact ⟨rfl, hfirst, htext, h.chain⟩
    · rw [h.live, hheap, hadd.live, hf1, hfresh.live_eq, made, List.append_assoc]
      rfl

theorem nodup_bases (h : Arena blockSize) : (h.live.map Block.base).Nodup := by
  rw [List.Nodup, List.pairwise_map]
  refine h.apart.imp fun {b c} hap he => ?_
  have h1 := le_extent (g := blockSize) b.size
  have h2 := le_extent (g := blockSize) c.size
  unfold Block.Apart at hap
  rw [he] at hap
  unfold blockSize at *
  omega

/-- If no request fails, then a parse without a result leaves no block behind, and one with a result
leaves blocks that `pathparser_free` gives back, each of them once, and no others. -/
theorem pathparserParse_freed (hs : NoNul s) (k : Kernel) :
    ∃ k' root, pathparserParse k (cstr s) = some (k', root) ∧ (k'.heap.failures = k.heap.failures →
      (root = 0 → k'.heap.live = k.heap.live) ∧
      (root ≠ 0 → ∃ turns k'', ∃ left : List Block, pathparserFree turns k' root = some k'' ∧
        k'.heap.live = left ++ k.heap.live ∧ (left.map Block.base).Nodup ∧
        (∃ as : List Addr, as.Perm (left.map Block.base) ∧ k''.heap.freed = k'.heap.freed ++ as) ∧
        k''.heap.live = k.heap.live)) := by
  obtain ⟨k', root, heq, hp⟩ := pathparserParse_spec hs k
  refine ⟨k', root, heq, fun hok => ⟨hp.null, fun hroot => ?_⟩⟩
  obtain ⟨ps, h⟩ := parse_owned hs heq hok hroot
  obtain ⟨k1, hloop, hgives⟩ := freeLoop_chain h.chain (Nat.lt_succ_self _)
  have hgives := hgives.free root
  have hleft : k'.heap.live = (made ps ++ [⟨root, sizeofPathRoot⟩]) ++ k.heap.live := by
    rw [h.live, List.append_assoc]
    rfl
  have hperm : (given ps ++ [root]).Perm ((made ps ++ [(⟨root, sizeofPathRoot⟩ : Block)]).map Block.base) := by
    rw [given_eq, List.map_append]
    exact (List.reverse_perm _).append_right _
  have hnodup := nodup_bases k'.heap
  generalize made ps ++ [(⟨root, sizeofPathRoot⟩ : Block)] = left at *
  rw [hleft, List.map_append, List.nodup_append] at hnodup
  refine ⟨ps.length + 1, { k1 with toKmem := kfree k1.toKmem root }, left, ?_, hleft, hnodup.1,
    ⟨_, hperm, hgives.freed⟩, ?_⟩
  · rw [pathparserFree, hloop]
    rfl
  · have hlive := hgives.live
    have hgone : left.filter (fun b => b.base ∉ given ps ++ [root]) = [] := by
      rw [List.filter_eq_nil_iff]
      intro b hb
      simpa only [decide_eq_true_eq, not_not] using hperm.mem_iff.mpr (List.mem_map_of_mem hb)
    have hkept : k.heap.live.filter (fun b => b.base ∉ given ps ++ [root]) = k.heap.live := by
      rw [List.filter_eq_self]
      intro b hb
      rw [decide_eq_true_eq, hperm.mem_iff]
      exact fun hl => hnodup.2.2 _ hl _ (List.mem_map_of_mem hb) rfl
    rw [hleft, List.filter_append, hgone, hkept, List.nil_append] at hlive
    exact hlive

/-- `0:/a/b/`, where nothing fails. -/
theorem pathparserParse_freed_pathAB :
    ∃ k' root, pathparserParse emptyKernel (cstr pathAB) = some (k', root) ∧
      (root = 0 → k'.heap.live = []) ∧
      (root ≠ 0 → ∃ turns k'', ∃ left : List Block, pathparserFree turns k' root = some k'' ∧
        k'.heap.live = left ++ [] ∧ (left.map Block.base).Nodup ∧
        (∃ as : List Addr, as.Perm (left.map Block.base) ∧ k''.heap.freed = k'.heap.freed ++ as) ∧
        k''.heap.live = []) := by
  have hruns : (pathparserParse emptyKernel (cstr pathAB)).map (fun r => r.1.heap.failures) = some 0 := by
    decide +kernel
  obtain ⟨k', root, heq, h⟩ := pathparserParse_freed (s := pathAB) (by unfold NoNul; decide) emptyKernel
  rw [heq] at hruns
  exact ⟨k', root, heq, h (Option.some.inj hruns)⟩

end MultitaskOs.PathFree
