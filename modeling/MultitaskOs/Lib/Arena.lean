import MultitaskOs.Lib.Memory

/-!
# An allocator by its contract

An arena hands out ranges of whole granules of `g` bytes, or fails with the null
address. Where it puts a range, and when it fails, is its own business: `answer`
is an arbitrary function, and an answer that would break the contract counts as
a failure. So a value of `Arena g` is any allocator that keeps the contract,
and no value breaks it.
-/

namespace Lib.Arena

open Lib.Memory

/-- A range handed out: where it starts and how many bytes were asked for. -/
structure Block where
  base : Addr
  size : Nat
deriving DecidableEq

/-- The bytes that a request for `size` bytes takes: whole granules, at least one. -/
def extent (g size : Nat) : Nat := max 1 ((size + (g - 1)) / g) * g

/-- On a granule boundary, not null, and inside the address space. -/
def Block.Placed (g : Nat) (b : Block) : Prop :=
  b.base ≠ 0 ∧ b.base.toNat % g = 0 ∧ b.base.toNat + extent g b.size ≤ 2 ^ 32

def Block.Apart (g : Nat) (b c : Block) : Prop :=
  b.base.toNat + extent g b.size ≤ c.base.toNat ∨ c.base.toNat + extent g c.size ≤ b.base.toNat

instance (g : Nat) (b : Block) : Decidable (b.Placed g) :=
  inferInstanceAs (Decidable (_ ∧ _ ∧ _))

instance (g : Nat) (b c : Block) : Decidable (b.Apart g c) := inferInstanceAs (Decidable (_ ∨ _))

end Lib.Arena

namespace Lib

open Lib.Memory Lib.Arena

/-- An allocator with granules of `g` bytes. -/
structure Arena (g : Nat) where
  /-- What it proposes for its n-th request. -/
  answer : Nat → Addr
  /-- Requests so far, and how many of them failed. -/
  asked : Nat
  failures : Nat
  /-- Every address given back, in order. -/
  freed : List Addr
  live : List Block
  placed : ∀ b ∈ live, b.Placed g
  apart : live.Pairwise (Block.Apart g)

namespace Arena

variable {g : Nat}

def Fits (h : Arena g) (b : Block) : Prop := b.Placed g ∧ ∀ c ∈ h.live, b.Apart g c

instance (h : Arena g) (b : Block) : Decidable (h.Fits b) := inferInstanceAs (Decidable (_ ∧ _))

def alloc (h : Arena g) (size : Nat) : Arena g × Addr :=
  if hfit : h.Fits ⟨h.answer h.asked, size⟩ then
    ({ h with
        asked := h.asked + 1
        live := ⟨h.answer h.asked, size⟩ :: h.live
        placed := List.forall_mem_cons.mpr ⟨hfit.1, h.placed⟩
        apart := List.pairwise_cons.mpr ⟨hfit.2, h.apart⟩ },
      h.answer h.asked)
  else ({ h with asked := h.asked + 1, failures := h.failures + 1 }, 0)

/-- Gives back the range at `a`. An address that starts no live range changes none. -/
def free (h : Arena g) (a : Addr) : Arena g :=
  { h with
    freed := h.freed ++ [a]
    live := h.live.filter (·.base ≠ a)
    placed := fun b hb => h.placed b (List.mem_of_mem_filter hb)
    apart := h.apart.filter _ }

def Live (h : Arena g) (a : Addr) : Prop := ∃ size, ⟨a, size⟩ ∈ h.live

/-! ## What a request does -/

theorem alloc_cases (h : Arena g) (size : Nat) :
    ((h.alloc size).2 = 0 ∧ (h.alloc size).1.live = h.live ∧
      (h.alloc size).1.failures = h.failures + 1) ∨
    ((h.alloc size).2 ≠ 0 ∧ (h.alloc size).1.live = ⟨(h.alloc size).2, size⟩ :: h.live ∧
      (h.alloc size).1.failures = h.failures ∧ h.Fits ⟨(h.alloc size).2, size⟩) := by
  unfold alloc
  split
  · rename_i hfit
    exact Or.inr ⟨hfit.1.1, rfl, rfl, hfit⟩
  · exact Or.inl ⟨rfl, rfl, rfl⟩

theorem alloc_live_mono (h : Arena g) (size : Nat) {b : Block} (hb : b ∈ h.live) :
    b ∈ (h.alloc size).1.live := by
  rcases alloc_cases h size with ⟨_, hl, _⟩ | ⟨_, hl, _⟩ <;> rw [hl]
  · exact hb
  · exact List.mem_cons_of_mem _ hb

@[simp] theorem free_failures (h : Arena g) (a : Addr) : (h.free a).failures = h.failures := rfl

theorem mem_free_live {h : Arena g} {a : Addr} {b : Block} :
    b ∈ (h.free a).live ↔ b ∈ h.live ∧ b.base ≠ a := by
  simp [free]

theorem live_free {h : Arena g} {a c : Addr} : (h.free a).Live c ↔ h.Live c ∧ c ≠ a := by
  simp [Live, mem_free_live]

theorem Live.alloc {h : Arena g} {a : Addr} (size : Nat) (ha : h.Live a) :
    (h.alloc size).1.Live a := ⟨_, alloc_live_mono h size ha.choose_spec⟩

theorem alloc_freed (h : Arena g) (size : Nat) : (h.alloc size).1.freed = h.freed := by
  unfold alloc
  split <;> rfl

theorem count_freed (h : Arena g) (a c : Addr) :
    (h.free a).freed.count c = h.freed.count c + if a = c then 1 else 0 := by
  simp [free, List.count_singleton]

theorem not_live_zero (h : Arena g) : ¬ h.Live 0 := fun ⟨_, hb⟩ => (h.placed _ hb).1 rfl

/-! ## An arena that never fails

Each answer lies one stride above the last, so requests of at most a stride
succeed until the address space ends. -/

def bump (g stride : Nat) : Arena g where
  answer n := BitVec.ofNat 32 (stride * (n + 1))
  asked := 0
  failures := 0
  freed := []
  live := []
  placed := by simp
  apart := List.Pairwise.nil

/-- The next `n` answers lie a stride apart, with the live ranges below them. -/
structure Bumped (stride n : Nat) (h : Arena g) : Prop where
  answers : ∀ i < n, h.answer (h.asked + i) = BitVec.ofNat 32 (stride * (h.asked + i + 1))
  below : ∀ b ∈ h.live, b.base.toNat + extent g b.size ≤ stride * (h.asked + 1)

theorem bumped_bump (stride n : Nat) : Bumped stride n (bump g stride) :=
  ⟨fun _ _ => rfl, by simp [bump]⟩

theorem Bumped.mono {stride n n' : Nat} {h : Arena g} (hb : Bumped stride n h) (hn : n' ≤ n) : Bumped stride n' h :=
  ⟨fun i hi => hb.answers i (by omega), hb.below⟩

theorem Bumped.fits {stride n : Nat} {h : Arena g} (hb : Bumped stride (n + 1) h) (size : Nat)
    (hs : 0 < stride) (hg : g ∣ stride) (hsize : extent g size ≤ stride)
    (hroom : stride * (h.asked + 2) ≤ 2 ^ 32) :
    (h.answer h.asked).toNat = stride * (h.asked + 1) ∧ h.Fits ⟨h.answer h.asked, size⟩ := by
  have hlt : stride * (h.asked + 1) < 2 ^ 32 := by
    rw [show stride * (h.asked + 2) = stride * (h.asked + 1) + stride by ring] at hroom
    omega
  have ha : (h.answer h.asked).toNat = stride * (h.asked + 1) := by
    rw [show h.answer h.asked = _ from hb.answers 0 (by omega), Nat.add_zero, BitVec.toNat_ofNat, Nat.mod_eq_of_lt hlt]
  have hpos : 0 < stride * (h.asked + 1) := Nat.mul_pos hs (by omega)
  refine ⟨ha, ⟨?_, ?_, ?_⟩, ?_⟩
  · intro h0
    have : (h.answer h.asked).toNat = 0 := congrArg BitVec.toNat h0
    omega
  · simpa only [ha] using Nat.mod_eq_zero_of_dvd (Dvd.dvd.mul_right hg _)
  · rw [show stride * (h.asked + 2) = stride * (h.asked + 1) + stride by ring] at hroom
    simp only [ha]
    omega
  · intro c hc
    right
    simpa only [ha] using hb.below c hc

theorem Bumped.alloc {stride n : Nat} {h : Arena g} (hb : Bumped stride (n + 1) h) (size : Nat)
    (hs : 0 < stride) (hg : g ∣ stride) (hsize : extent g size ≤ stride)
    (hroom : stride * (h.asked + 2) ≤ 2 ^ 32) :
    Bumped stride n (h.alloc size).1 ∧ (h.alloc size).1.asked = h.asked + 1 ∧
      (h.alloc size).1.failures = h.failures := by
  obtain ⟨ha, hfit⟩ := hb.fits size hs hg hsize hroom
  rw [Arena.alloc, dif_pos hfit]
  refine ⟨⟨fun i hi => ?_, ?_⟩, rfl, rfl⟩
  · have hnext := hb.answers (i + 1) (by omega)
    rw [show h.asked + 1 + i = h.asked + (i + 1) by ring]
    exact hnext
  intro b hbl
  rw [show stride * (h.asked + 1 + 1) = stride * (h.asked + 1) + stride by ring]
  rcases List.mem_cons.mp hbl with rfl | hbl
  · simp only [ha]
    omega
  · have := hb.below b hbl
    omega

/-! ## Ranges that do not overlap -/

theorem le_extent (size : Nat) : g ≤ extent g size := by
  unfold extent
  exact Nat.le_mul_of_pos_left _ (by omega)

instance : Std.Symm (Block.Apart g) := ⟨fun _ _ h => Or.symm h⟩

theorem apart_of_ne {h : Arena g} {b c : Block} (hb : b ∈ h.live) (hc : c ∈ h.live)
    (hne : b.base ≠ c.base) : b.Apart g c :=
  h.apart.forall hb hc fun he => hne (he ▸ rfl)

variable [NeZero g]

theorem pos : 0 < g := Nat.pos_of_ne_zero (NeZero.ne g)

theorem size_le_extent (size : Nat) : size ≤ extent g size := by
  have hg : 0 < g := pos
  have h1 : (size + (g - 1)) / g * g ≤ extent g size := Nat.mul_le_mul_right _ (by omega)
  have h2 := Nat.div_add_mod (size + (g - 1)) g
  have h3 := Nat.mod_lt (size + (g - 1)) hg
  rw [Nat.mul_comm] at h2
  omega

theorem Block.apart_irrefl (b : Block) : ¬ b.Apart g b := by
  have := le_extent (g := g) b.size
  have hg : 0 < g := pos
  unfold Block.Apart
  omega

theorem eq_of_base_eq {h : Arena g} {b c : Block} (hb : b ∈ h.live) (hc : c ∈ h.live)
    (he : b.base = c.base) : b = c := by
  by_contra hne
  have happ := h.apart.forall hb hc hne
  have h1 := le_extent (g := g) b.size
  have h2 := le_extent (g := g) c.size
  have hg : 0 < g := pos
  unfold Block.Apart at happ
  rw [he] at happ
  omega

theorem Fits.not_live {h : Arena g} {a : Addr} {size : Nat} (hfit : h.Fits ⟨a, size⟩) :
    ¬ h.Live a := by
  rintro ⟨k, hk⟩
  have := hfit.2 _ hk
  have h1 := le_extent (g := g) size
  have h2 := le_extent (g := g) k
  have hg : 0 < g := pos
  simp only [Block.Apart] at this
  omega

end Arena

end Lib
