import MultitaskOs.Code.Gdt
import MultitaskOs.Lib.X86

/-!
# The segment table

What the processor reads in a descriptor is what the kernel put in the table.
-/

open Lib.Memory Lib.X86

namespace MultitaskOs.Gdt

/-- The processor reads the entry in the descriptor. -/
structure Decodes (d : Gdt) (s : GdtStructured) : Prop where
  base : descriptorBase d = s.base
  limit : descriptorLimit d = s.limit.toNat
  access : descriptorAccess d = s.type

/-! ## One entry -/

variable {target d : Gdt} {s : GdtStructured}

theorem byte_of_word (x : BitVec 32) (k : Nat) : (x >>> k &&& 0xFF).setWidth 8 = x.extractLsb' k 8 := by
  ext i hi
  have hmask : (255#8)[i] = true := by
    interval_cases i <;> simp
  simp [hmask]

theorem base_bytes (base : BitVec 32) :
    (base >>> 24 &&& 0xFF).setWidth 8 ++ (base >>> 16 &&& 0xFF).setWidth 8 ++ (base >>> 8 &&& 0xFF).setWidth 8 ++
      (base &&& 0xFF).setWidth 8 = base := by
  have hlow := byte_of_word base 0
  rw [BitVec.ushiftRight_zero] at hlow
  rw [byte_of_word, byte_of_word, byte_of_word, hlow]
  exact bytes_append base

theorem limit_bytes (limit : BitVec 32) {high : BitVec 8} (hhigh : high = 0x40 ∨ high = 0xC0) :
    (high ||| (limit >>> 16 &&& 0x0F).setWidth 8).extractLsb' 0 4 ++ (limit >>> 8 &&& 0xFF).setWidth 8 ++
      (limit &&& 0xFF).setWidth 8 = limit.setWidth 20 := by
  rcases hhigh with rfl | rfl
  all_goals
    ext i hi
    simp only [BitVec.getElem_append, BitVec.getElem_extractLsb', BitVec.getElem_setWidth]
    interval_cases i <;> simp

/-- A limit in pages: the bytes that the scaling adds are the ones the shift dropped. -/
theorem limit_pages {limit : BitVec 32} (h : limit &&& 0xFFF = 0xFFF) :
    ((limit >>> 12).setWidth 20).toNat * 4096 + 4095 = limit.toNat := by
  have hlow : limit.toNat % 4096 = 4095 := by
    have := congrArg BitVec.toNat h
    rw [BitVec.toNat_and] at this
    exact (Nat.and_two_pow_sub_one_eq_mod limit.toNat 12).symm.trans this
  rw [BitVec.toNat_setWidth, BitVec.toNat_ushiftRight, Nat.shiftRight_eq_div_pow]
  omega

/-- The descriptor of an entry, with the flags `high` and `limit` in their unit. -/
structure Encodes (d : Gdt) (s : GdtStructured) (high : BitVec 8) (limit : BitVec 32) : Prop where
  base : descriptorBase d = s.base
  field : descriptorLimitField d = limit.setWidth 20
  granular : descriptorGranular d = high.getLsbD 7
  access : descriptorAccess d = s.type

theorem encodeGdtEntry_cases (h : encodeGdtEntry target s = some d) :
    (s.limit ≤ 65536 ∧ Encodes d s 0x40 s.limit) ∨
      (s.limit &&& 0xFFF = 0xFFF ∧ Encodes d s 0xC0 (s.limit >>> 12)) := by
  unfold encodeGdtEntry at h
  by_cases hbig : s.limit > 65536
  · right
    by_cases hpages : s.limit &&& 0xFFF = 0xFFF
    · rw [if_neg fun hbad => hbad.2 hpages] at h
      dsimp only at h
      rw [if_pos hbig] at h
      cases h
      exact ⟨hpages, base_bytes s.base, limit_bytes _ (Or.inr rfl), by simp [descriptorGranular], rfl⟩
    · rw [if_pos ⟨hbig, hpages⟩] at h
      cases h
  · left
    rw [if_neg fun hbad => hbig hbad.1] at h
    dsimp only at h
    rw [if_neg hbig] at h
    cases h
    exact ⟨BitVec.not_lt.mp hbig, base_bytes s.base, limit_bytes _ (Or.inl rfl), by simp [descriptorGranular], rfl⟩

theorem encodeGdtEntry_decodes (h : encodeGdtEntry target s = some d) : Decodes d s := by
  rcases encodeGdtEntry_cases h with ⟨hsmall, he⟩ | ⟨hpages, he⟩
  · refine ⟨he.base, ?_, he.access⟩
    have hlt : s.limit.toNat ≤ 65536 := hsmall
    rw [descriptorLimit, he.granular, if_neg (by decide), he.field, BitVec.toNat_setWidth]
    omega
  · refine ⟨he.base, ?_, he.access⟩
    rw [descriptorLimit, he.granular, if_pos (by decide), he.field]
    exact limit_pages hpages

theorem encodeGdtEntry_none : encodeGdtEntry target s = none ↔ s.limit > 65536 ∧ s.limit &&& 0xFFF ≠ 0xFFF := by
  unfold encodeGdtEntry
  split
  · rename_i hbad
    exact iff_of_true rfl hbad
  · rename_i hok
    exact iff_of_false (Option.some_ne_none _) hok

/-! ## The table -/

variable {structured : Nat → GdtStructured}

theorem loop_decodes (n i : Nat) (gdt : Nat → Gdt)
    (h : ∀ j, i ≤ j → j < i + n → encodeGdtEntry (gdt j) (structured j) ≠ none) :
    ∃ gdt', gdtStructuredToGdtLoop structured n i gdt = some gdt' ∧
      ∀ j, if i ≤ j ∧ j < i + n then Decodes (gdt' j) (structured j) else gdt' j = gdt j := by
  induction n generalizing i gdt with
  | zero =>
    refine ⟨gdt, rfl, fun j => ?_⟩
    rw [if_neg (by omega)]
  | succ n ih =>
    obtain ⟨d, hd⟩ := Option.ne_none_iff_exists'.mp (h i le_rfl (by omega))
    obtain ⟨gdt', hloop, hgdt⟩ := ih (i + 1) (Function.update gdt i d) fun j hj hn => by
      rw [Function.update_of_ne (by omega)]
      exact h j (by omega) (by omega)
    refine ⟨gdt', ?_, fun j => ?_⟩
    · rw [gdtStructuredToGdtLoop, hd, Option.bind_some]
      exact hloop
    · have hj := hgdt j
      by_cases hji : j = i
      · rw [if_neg (by omega), hji, Function.update_self] at hj
        rw [if_pos (by omega), hji, hj]
        exact encodeGdtEntry_decodes hd
      · rw [Function.update_of_ne hji] at hj
        simpa [show i ≤ j ∧ j < i + (n + 1) ↔ i + 1 ≤ j ∧ j < i + 1 + n by omega] using hj

/-- For every table that does not panic, of any length. -/
theorem gdtStructuredToGdt_decodes (gdt : Nat → Gdt) (structured : Nat → GdtStructured) (total : Int)
    (h : ∀ i : Nat, i < total → encodeGdtEntry (gdt i) (structured i) ≠ none) :
    ∃ gdt', gdtStructuredToGdt gdt structured total = some gdt' ∧
      ∀ i : Nat, if i < total then Decodes (gdt' i) (structured i) else gdt' i = gdt i := by
  obtain ⟨gdt', hloop, hgdt⟩ := loop_decodes total.toNat 0 gdt fun j _ hj => h j (by omega)
  refine ⟨gdt', hloop, fun i => ?_⟩
  have hi := hgdt i
  simpa [show 0 ≤ i ∧ i < 0 + total.toNat ↔ (i : Int) < total by omega] using hi

def kernelTable (tss : Addr) (i : Nat) : GdtStructured :=
  [⟨0, 0, 0⟩, ⟨0, 0xffffffff, 0x9a⟩, ⟨0, 0xffffffff, 0x92⟩, ⟨0, 0xffffffff, 0xf8⟩, ⟨0, 0xffffffff, 0xf2⟩,
    ⟨tss, 104, 0xE9⟩].getD i ⟨0, 0, 0⟩

theorem kernelTable_decodes :
    ∃ gdt', gdtStructuredToGdt (fun _ _ => 0) (kernelTable 0x123456) 6 = some gdt' ∧
      ∀ i : Nat, if (i : Int) < 6 then Decodes (gdt' i) (kernelTable 0x123456 i) else gdt' i = fun _ => 0 := by
  refine gdtStructuredToGdt_decodes _ _ 6 fun i hi => ?_
  rw [Ne, encodeGdtEntry_none]
  have hi' : i < 6 := by omega
  interval_cases i <;> simp [kernelTable]

end MultitaskOs.Gdt
