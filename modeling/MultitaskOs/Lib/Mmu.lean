import MultitaskOs.Lib.Memory
import MultitaskOs.Lib.Run

/-!
# Two-level paging

How a 32-bit x86 takes a linear address to a physical one, with pages of 4096
bytes only. The accessed and dirty bits that the processor sets in an entry are
not kept: no translation looks at them.
-/

open Lib.Memory Lib.Run

namespace Lib.Mmu

/-- What is done at an address: by user code or not, and to write or not. -/
structure Access where
  user : Bool
  write : Bool
deriving DecidableEq

def userRead : Access := ⟨true, false⟩

def userWrite : Access := ⟨true, true⟩

/-- One entry lets the access through. `wp` is the bit of `cr0` that holds the supervisor to the
write bits too. -/
def grants (wp : Bool) (a : Access) (entry : BitVec 32) : Bool :=
  entry.getLsbD 0 && (!a.user || entry.getLsbD 2) && (!a.write || entry.getLsbD 1 || (!a.user && !wp))

/-- The page that an entry, or the directory register, points at. -/
def frame (entry : BitVec 32) : Addr := entry &&& 0xfffff000

def word (page : Addr) (i : Nat) : Addr := page + BitVec.ofNat 32 (4 * i)

def directorySlot (cr3 v : Addr) : Addr := word (frame cr3) (v.toNat / 2 ^ 22)

def tableSlot (m : Mem) (cr3 v : Addr) : Addr :=
  word (frame (load32 m (directorySlot cr3 v))) (v.toNat / 4096 % 1024)

/-- Where an access ends up. `none` is a page fault. -/
def translate (wp : Bool) (m : Mem) (cr3 : Addr) (a : Access) (v : Addr) : Option Addr :=
  let pde := load32 m (directorySlot cr3 v)
  let pte := load32 m (tableSlot m cr3 v)
  if grants wp a pde && grants wp a pte then some (frame pte + v % 4096) else none

variable {wp : Bool} {m m' : Mem} {cr3 v x : Addr} {a : Access}

/-! ## What a translation reads -/

/-- The byte at `x` is one that some translation of the space reads. -/
def Footprint (m : Mem) (cr3 x : Addr) : Prop :=
  ∃ v, Within (directorySlot cr3 v) 4 x ∨ Within (tableSlot m cr3 v) 4 x

theorem directoryEntry_agree (h : ∀ x, Footprint m cr3 x → m' x = m x) (v : Addr) :
    load32 m' (directorySlot cr3 v) = load32 m (directorySlot cr3 v) :=
  Agree.load32 fun x hx => h x ⟨v, Or.inl hx⟩

theorem tableSlot_agree (h : ∀ x, Footprint m cr3 x → m' x = m x) (v : Addr) :
    tableSlot m' cr3 v = tableSlot m cr3 v := by
  rw [tableSlot, directoryEntry_agree h, tableSlot]

theorem translate_agree (h : ∀ x, Footprint m cr3 x → m' x = m x) (wp : Bool) (a : Access) (v : Addr) :
    translate wp m' cr3 a v = translate wp m cr3 a v := by
  have hpte : load32 m' (tableSlot m cr3 v) = load32 m (tableSlot m cr3 v) :=
    Agree.load32 fun x hx => h x ⟨v, Or.inr hx⟩
  rw [translate, translate, directoryEntry_agree h, tableSlot_agree h, hpte]

theorem footprint_agree (h : ∀ x, Footprint m cr3 x → m' x = m x) : Footprint m' cr3 x ↔ Footprint m cr3 x := by
  simp only [Footprint, tableSlot_agree h]

/-! ## Stores of user code -/

/-- A byte stored by user code in the space `cr3`. A store that faults changes nothing. -/
structure Store where
  cr3 : Addr
  address : Addr
  value : Byte

def store (wp : Bool) (m : Mem) (s : Store) : Mem :=
  match translate wp m s.cr3 userWrite s.address with
  | some x => store8 m x s.value
  | none => m

/-- User code can write the byte at `x` in the space `cr3`. -/
def Reaches (wp : Bool) (m : Mem) (cr3 x : Addr) : Prop := ∃ v, translate wp m cr3 userWrite v = some x

/-- No space of the set can write what a translation in one of them reads. -/
def Sealed (wp : Bool) (m : Mem) (spaces : Addr → Prop) : Prop :=
  ∀ s, spaces s → ∀ x, Reaches wp m s x → ∀ t, spaces t → ¬ Footprint m t x

variable {spaces : Addr → Prop} {s : Store} {stores : List Store}

theorem store_of_ne (h : translate wp m s.cr3 userWrite s.address ≠ some x) : store wp m s x = m x := by
  unfold store
  cases hy : translate wp m s.cr3 userWrite s.address with
  | none => rfl
  | some y =>
    refine if_neg ?_
    rintro rfl
    exact h hy

theorem store_of_not_reaches (h : ¬ Reaches wp m s.cr3 x) : store wp m s x = m x :=
  store_of_ne fun hx => h ⟨s.address, hx⟩

theorem Sealed.store_agree (h : Sealed wp m spaces) (hs : spaces s.cr3) {t : Addr} (ht : spaces t) :
    ∀ x, Footprint m t x → store wp m s x = m x :=
  fun x hx => store_of_not_reaches fun hr => h s.cr3 hs x hr t ht hx

theorem Sealed.store (h : Sealed wp m spaces) (hs : spaces s.cr3) : Sealed wp (store wp m s) spaces := by
  intro t ht x hr u hu
  rw [footprint_agree (h.store_agree hs hu)]
  refine h t ht x ?_ u hu
  obtain ⟨v, hv⟩ := hr
  exact ⟨v, by rwa [translate_agree (h.store_agree hs ht)] at hv⟩

/-- What a run of stores leaves as it was: every translation of the spaces, and every byte that no
store goes to. -/
structure Confines (wp : Bool) (spaces : Addr → Prop) (stores : List Store) (m m' : Mem) : Prop where
  sealed : Sealed wp m' spaces
  translate : ∀ t, spaces t → ∀ a v, translate wp m' t a v = Mmu.translate wp m t a v
  bytes : ∀ x, (∀ s ∈ stores, Mmu.translate wp m s.cr3 userWrite s.address ≠ some x) → m' x = m x

theorem Sealed.run (h : Sealed wp m spaces) (hs : ∀ s ∈ stores, spaces s.cr3) :
    Confines wp spaces stores m (run (Mmu.store wp) m stores) := by
  induction stores generalizing m with
  | nil => exact ⟨h, fun _ _ _ _ => rfl, fun _ _ => rfl⟩
  | cons s stores ih =>
    obtain ⟨hs0, hrest⟩ := List.forall_mem_cons.mp hs
    have hkeep : ∀ t, spaces t → ∀ a v, Mmu.translate wp (Mmu.store wp m s) t a v = Mmu.translate wp m t a v :=
      fun t ht => translate_agree (h.store_agree hs0 ht) wp
    have hnext := ih (h.store hs0) hrest
    refine ⟨hnext.sealed, fun t ht a v => (hnext.translate t ht a v).trans (hkeep t ht a v), fun x hx => ?_⟩
    obtain ⟨hx0, hxs⟩ := List.forall_mem_cons.mp hx
    refine (hnext.bytes x fun t ht => ?_).trans (store_of_ne hx0)
    rw [hkeep t.cr3 (hrest t ht)]
    exact hxs t ht

end Lib.Mmu
