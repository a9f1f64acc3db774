import MultitaskOs.Code.Kheap

/-!
# The kernel heap

What `kmalloc`, `kzalloc` and `kfree` leave alone.
-/

open Lib Lib.Memory Lib.Arena

namespace MultitaskOs

instance : NeZero blockSize := ⟨by decide⟩

namespace Kmem

/-- Every live block stays live, and its bytes stay as they are. -/
structure Keeps (k k' : Kmem) : Prop where
  live : ∀ b ∈ k.heap.live, b ∈ k'.heap.live
  bytes : ∀ b ∈ k.heap.live, Agree k.mem k'.mem b.base (extent blockSize b.size)

variable {k k' k'' : Kmem}

theorem Keeps.refl (k : Kmem) : Keeps k k := ⟨fun _ hb => hb, fun _ _ => Agree.refl _ _ _⟩

theorem Keeps.trans (h : Keeps k k') (h' : Keeps k' k'') : Keeps k k'' :=
  ⟨fun b hb => h'.live b (h.live b hb), fun b hb => (h.bytes b hb).trans (h'.bytes b (h.live b hb))⟩

theorem Keeps.isLive (h : Keeps k k') {a : Addr} (ha : k.heap.Live a) : k'.heap.Live a :=
  ⟨_, h.live _ ha.choose_spec⟩

theorem Keeps.page (h : Keeps k k') {a : Addr} (ha : k.heap.Live a) :
    Agree k.mem k'.mem a blockSize := by
  obtain ⟨size, hb⟩ := ha
  apply (h.bytes _ hb).sub
  have := le_extent (g := blockSize) size
  simpa using this

theorem Keeps.readBytes_eq (h : Keeps k k') {a : Addr} {n : Nat} (hb : ⟨a, n⟩ ∈ k.heap.live) :
    readBytes k'.mem a n = readBytes k.mem a n := by
  have hend := (k.heap.placed _ hb).2.2
  have hle := size_le_extent (g := blockSize) n
  dsimp only at hend
  exact readBytes_agree ((h.bytes _ hb).sub (by simpa using hle)) (by omega)

theorem live_aligned {a : Addr} (ha : k.heap.Live a) : a.toNat % 4096 = 0 := by
  obtain ⟨size, hb⟩ := ha
  exact (k.heap.placed _ hb).2.1

theorem live_ne_zero {a : Addr} (ha : k.heap.Live a) : a ≠ 0 :=
  fun h => k.heap.not_live_zero (h ▸ ha)

theorem live_apart {b c : Block} (hb : b ∈ k.heap.live) (hc : c ∈ k.heap.live)
    (hne : b.base ≠ c.base) :
    Apart b.base (extent blockSize b.size) c.base (extent blockSize c.size) := by
  have hb' := (k.heap.placed b hb).2.2
  have hc' := (k.heap.placed c hc).2.2
  have h1 := le_extent (g := blockSize) b.size
  have h2 := le_extent (g := blockSize) c.size
  have hpos : 0 < blockSize := by decide
  exact apart_of_le hb' hc' (k.heap.apart_of_ne hb hc hne) (by omega) (by omega)

theorem fits_apart {h : Arena blockSize} {b c : Block} (hfit : h.Fits b) (hc : c ∈ h.live) :
    Apart b.base (extent blockSize b.size) c.base (extent blockSize c.size) := by
  have h1 := le_extent (g := blockSize) b.size
  have h2 := le_extent (g := blockSize) c.size
  have hpos : 0 < blockSize := by decide
  exact apart_of_le hfit.1.2.2 (h.placed c hc).2.2 (hfit.2 c hc) (by omega) (by omega)

theorem Keeps.store (h : Keeps k k') {b : Block} (hb : b ∈ k'.heap.live) (hnew : ¬ k.heap.Live b.base)
    {m : Mem} (hm : ∀ x, ¬ Within b.base (extent blockSize b.size) x → m x = k'.mem x) :
    Keeps k { k' with mem := m } := by
  refine ⟨h.live, ?_⟩
  intro c hc x hx
  have hne : b.base ≠ c.base := fun he => hnew ⟨c.size, he ▸ hc⟩
  have hap := live_apart hb (h.live c hc) hne
  exact (hm x (hap.not_within hx)).trans (h.bytes c hc x hx)

theorem Keeps.kfree (h : Keeps k k') {a : Addr} (ha : ¬ k.heap.Live a) : Keeps k (kfree k' a) := by
  refine ⟨fun b hb => ?_, h.bytes⟩
  rw [MultitaskOs.kfree, Arena.mem_free_live]
  exact ⟨h.live b hb, fun he => ha ⟨b.size, he ▸ hb⟩⟩

end Kmem

open Kmem

/-! ## What a request does -/

theorem kzalloc_cases (k : Kmem) (size : Nat) :
    ((kzalloc k size).2 = 0 ∧ (kzalloc k size).1.heap.live = k.heap.live ∧
      (kzalloc k size).1.mem = k.mem ∧
      (kzalloc k size).1.heap.failures = k.heap.failures + 1) ∨
    ((kzalloc k size).2 ≠ 0 ∧
      (kzalloc k size).1.heap.live = ⟨(kzalloc k size).2, size⟩ :: k.heap.live ∧
      (kzalloc k size).1.mem = zero k.mem (kzalloc k size).2 size ∧
      (kzalloc k size).1.heap.failures = k.heap.failures ∧
      k.heap.Fits ⟨(kzalloc k size).2, size⟩) := by
  rcases k.heap.alloc_cases size with ⟨h0, hl, hf⟩ | ⟨h0, hl, hf, hfit⟩
  · left
    have he : kzalloc k size = ({ k with heap := (k.heap.alloc size).1 }, 0) := by
      simp only [kzalloc, kmalloc, h0, if_true]
    rw [he]
    exact ⟨rfl, hl, rfl, hf⟩
  · right
    have he : kzalloc k size = ({ k with
        heap := (k.heap.alloc size).1
        mem := zero k.mem (k.heap.alloc size).2 size }, (k.heap.alloc size).2) := by
      simp only [kzalloc, kmalloc, h0, if_false]
    rw [he]
    exact ⟨h0, hl, rfl, hf, hfit⟩

theorem kzalloc_failures_le (k : Kmem) (size : Nat) :
    k.heap.failures ≤ (kzalloc k size).1.heap.failures := by
  rcases kzalloc_cases k size with ⟨_, _, _, hf⟩ | ⟨_, _, _, hf, _⟩ <;> omega

/-- A request that does not count as a failure hands out a fresh block. -/
structure Fresh (k k' : Kmem) (a : Addr) (size : Nat) : Prop where
  ne_zero : a ≠ 0
  live_eq : k'.heap.live = ⟨a, size⟩ :: k.heap.live
  mem_eq : k'.mem = zero k.mem a size
  fits : k.heap.Fits ⟨a, size⟩

theorem kzalloc_fresh {k : Kmem} {size : Nat} (h0 : (kzalloc k size).2 ≠ 0) :
    Fresh k (kzalloc k size).1 (kzalloc k size).2 size := by
  rcases kzalloc_cases k size with ⟨h, _⟩ | ⟨h, hl, hm, _, hfit⟩
  · exact absurd h h0
  · exact ⟨h, hl, hm, hfit⟩

theorem fresh_of_eq {k m : Kmem} {size : Nat} {a : Addr} (h : kzalloc k size = (m, a)) (h0 : a ≠ 0) :
    Fresh k m a size := by
  have hf : Fresh k (kzalloc k size).1 (kzalloc k size).2 size := kzalloc_fresh (by rwa [h])
  rwa [h] at hf

theorem kzalloc_ok {k : Kmem} (size : Nat)
    (hf : (kzalloc k size).1.heap.failures = k.heap.failures) :
    Fresh k (kzalloc k size).1 (kzalloc k size).2 size := by
  apply kzalloc_fresh
  rcases kzalloc_cases k size with ⟨_, _, _, h⟩ | ⟨h, _⟩
  · omega
  · exact h

namespace Fresh

variable {k k' : Kmem} {a : Addr} {size : Nat}

theorem mem_live (h : Fresh k k' a size) : (⟨a, size⟩ : Block) ∈ k'.heap.live := by
  rw [h.live_eq]
  exact List.mem_cons_self

theorem isLive (h : Fresh k k' a size) : k'.heap.Live a := ⟨size, h.mem_live⟩

theorem not_live (h : Fresh k k' a size) : ¬ k.heap.Live a := h.fits.not_live

theorem free_live (h : Fresh k k' a size) : (k'.heap.free a).live = k.heap.live := by
  have hnot : ∀ b ∈ k.heap.live, b.base ≠ a := fun b hb he => h.not_live (he ▸ ⟨b.size, hb⟩)
  have hfree : (k'.heap.free a).live = k'.heap.live.filter (·.base ≠ a) := rfl
  rw [hfree, h.live_eq, List.filter_cons_of_neg (by simp), List.filter_eq_self]
  simpa using hnot

theorem keeps (h : Fresh k k' a size) : Keeps k k' := by
  constructor
  · intro b hb
    rw [h.live_eq]
    exact List.mem_cons_of_mem _ hb
  · intro b hb x hx
    have hout := (fits_apart h.fits hb).not_within hx
    have hle := Arena.size_le_extent (g := blockSize) size
    rw [h.mem_eq]
    apply zero_of_not_within
    unfold Within at *
    simp only at hout
    omega

end Fresh

theorem kzalloc_keeps (k : Kmem) (size : Nat) : Keeps k (kzalloc k size).1 := by
  rcases kzalloc_cases k size with ⟨_, hl, hm, _⟩ | ⟨h, _⟩
  · constructor
    · intro b hb
      rwa [hl]
    · intro b _
      rw [hm]
      exact Agree.refl _ _ _
  · exact (kzalloc_fresh h).keeps

theorem kzalloc_not_live (k : Kmem) (size : Nat) : ¬ k.heap.Live (kzalloc k size).2 := by
  rcases kzalloc_cases k size with ⟨h0, _⟩ | ⟨h, _⟩
  · rw [h0]
    exact k.heap.not_live_zero
  · exact (kzalloc_fresh h).not_live

theorem mem_live_kzalloc {m : Kmem} {b : Block} {size : Nat} (h : b ∈ (kzalloc m size).1.heap.live) :
    b ∈ m.heap.live ∨ b.base = (kzalloc m size).2 := by
  rcases kzalloc_cases m size with ⟨-, hl, -⟩ | ⟨-, hl, -⟩
  · rw [hl] at h
    exact Or.inl h
  · rw [hl, List.mem_cons] at h
    exact h.symm.imp_right fun he => congrArg Block.base he

theorem base_ne_kzalloc {m : Kmem} {b : Block} (h : b ∈ m.heap.live) (size : Nat) : b.base ≠ (kzalloc m size).2 := by
  intro he
  refine kzalloc_not_live m size ⟨b.size, ?_⟩
  rw [← he]
  exact h

theorem live_of_refused (m : Kmem) (size : Nat) (h : (kzalloc m size).2 = 0) :
    (kzalloc m size).1.heap.live = m.heap.live := by
  rcases kzalloc_cases m size with ⟨-, hl, -⟩ | ⟨h0, -⟩
  · exact hl
  · exact absurd h h0

/-! ## A heap that has not run out -/

def bumpStride : Nat := 4 * blockSize

/-- A heap whose answers lie four pages apart, with room for `n` more. -/
structure Spare (k : Kmem) (n : Nat) : Prop where
  bumped : k.heap.Bumped bumpStride n
  room : k.heap.asked + n < 2 ^ 18

theorem Spare.mono {k : Kmem} {n n' : Nat} (h : Spare k n) (hn : n' ≤ n) : Spare k n' :=
  ⟨h.bumped.mono hn, by have := h.room; omega⟩

theorem extent_le_bumpStride {size : Nat} (h : size ≤ bumpStride) : extent blockSize size ≤ bumpStride := by
  unfold extent bumpStride blockSize at *
  omega

theorem Spare.kzalloc {k : Kmem} {n : Nat} (h : Spare k (n + 1)) (size : Nat) (hsize : size ≤ bumpStride) :
    Spare (kzalloc k size).1 n ∧ (kzalloc k size).1.heap.failures = k.heap.failures := by
  have hroom := h.room
  obtain ⟨hb, ha, hf⟩ := h.bumped.alloc size (by decide) (by decide)
    (extent_le_bumpStride hsize) (by unfold bumpStride blockSize; omega)
  have hheap : (MultitaskOs.kzalloc k size).1.heap = (k.heap.alloc size).1 := by
    unfold MultitaskOs.kzalloc kmalloc
    dsimp only
    split <;> rfl
  rw [hheap]
  exact ⟨⟨hheap ▸ hb, by rw [hheap, ha]; omega⟩, hf⟩

theorem Spare.kzalloc_room {k : Kmem} {n : Nat} (h : Spare k (n + 1)) (size : Nat) (hsize : size ≤ bumpStride) :
    (MultitaskOs.kzalloc k size).2.toNat + bumpStride ≤ 2 ^ 32 := by
  have hroom := h.room
  obtain ⟨ha, hfit⟩ := h.bumped.fits size (by decide) (by decide)
    (extent_le_bumpStride hsize) (by unfold bumpStride blockSize; omega)
  have hptr : (MultitaskOs.kzalloc k size).2 = k.heap.answer k.heap.asked := by
    have h2 : (k.heap.alloc size).2 = k.heap.answer k.heap.asked := by rw [Arena.alloc, dif_pos hfit]
    unfold MultitaskOs.kzalloc kmalloc
    dsimp only
    rw [h2, if_neg hfit.1.1]
  rw [hptr, ha]
  unfold bumpStride blockSize
  omega

/-- While half of the answers are left they lie in the lower half of the address space. -/
theorem Spare.kzalloc_low {k : Kmem} {n : Nat} (h : Spare k (n + 1)) (hn : 2 ^ 17 ≤ n) (size : Nat) :
    (MultitaskOs.kzalloc k size).2.toNat < 2 ^ 31 := by
  have hroom := h.room
  have ha := h.bumped.answers 0 (by omega)
  rw [Nat.add_zero] at ha
  have hptr : (MultitaskOs.kzalloc k size).2 = 0 ∨ (MultitaskOs.kzalloc k size).2 = k.heap.answer k.heap.asked := by
    unfold MultitaskOs.kzalloc kmalloc Arena.alloc
    dsimp only
    split_ifs
    · exact Or.inl rfl
    · exact Or.inr rfl
    · exact Or.inl rfl
    · exact Or.inl rfl
  rcases hptr with h0 | h0
  · rw [h0]
    decide
  · rw [h0, ha, BitVec.toNat_ofNat]
    unfold bumpStride blockSize
    omega

def emptyKmem : Kmem := ⟨fun _ => 0, Arena.bump blockSize bumpStride⟩

theorem spare_emptyKmem {n : Nat} (hn : n < 2 ^ 18) : Spare emptyKmem n :=
  ⟨Arena.bumped_bump _ _, by simpa [emptyKmem, Arena.bump] using hn⟩

end MultitaskOs
