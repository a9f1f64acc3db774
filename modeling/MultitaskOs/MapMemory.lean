import MultitaskOs.Code.Load
import MultitaskOs.ElfMap

/-!
# The memory of an ELF process

`process_map_memory`, in a directory that maps every page to itself. Each segment
is rounded at both ends, in the process and in the image alike, so its pages go to
its place in the image.
-/

open Lib Lib.Memory Lib.Arena Lib.Run MultitaskOs.Paging MultitaskOs.Tasks MultitaskOs.ProcessMemory
  MultitaskOs.ElfMap

namespace MultitaskOs.MapMemory

variable {k k' : Kernel} {k0 : Kmem} {m m' : Mem} {d : PageDir} {p elf phdr stack v : Addr} {filesize q : Nat}

def translate (k : Kernel) (process v : Addr) : Addr :=
  pagingGetPhysicalAddress k.mem (load32 k.mem (pageDirectory k process)) v

def Present (entry : BitVec 32) : Prop := entry &&& pagingIsPresent ≠ 0

def User (entry : BitVec 32) : Prop := entry &&& pagingAccessFromAll ≠ 0

def Writable (entry : BitVec 32) : Prop := entry &&& pagingIsWriteable ≠ 0

/-! ## Segments -/

def InSegment (m : Mem) (phdr v : Addr) : Prop := Within (pVaddr m phdr) (pMemsz m phdr).toNat v

/-- The segment has a byte on page `q`. -/
def Touches (m : Mem) (phdr : Addr) (q : Nat) : Prop := ∃ v, v.toNat / 4096 = q ∧ InSegment m phdr v

/-- `0x3FB000` to `0x3FEFFF`. -/
def StackPage (q : Nat) : Prop := 0x3FB ≤ q ∧ q ≤ 0x3FE

instance (q : Nat) : Decidable (StackPage q) := instDecidableAnd

def pageUp (n : Nat) : Nat := (n + 4095) / 4096 * 4096

/-- The segment is not empty, its bytes have the same place in a page as in the image, and neither
of its ends wraps when it is rounded up. -/
structure Mappable (m : Mem) (elf phdr : Addr) : Prop where
  size : 1 ≤ (pMemsz m phdr).toNat
  congruent : (pVaddr m phdr).toNat % 4096 = (pOffset m phdr).toNat % 4096
  virt_end : pageUp ((pVaddr m phdr).toNat + (pMemsz m phdr).toNat) ≤ 2 ^ 32
  phys_end : pageUp (elf.toNat + (pOffset m phdr).toNat + (pMemsz m phdr).toNat) < 2 ^ 32

/-- The segments of an image, on pages of their own. -/
structure Segments (m : Mem) (elf : Addr) : Prop where
  mappable : ∀ i < (ePhnum m elf).toNat, Mappable m elf (elfProgramHeader m elf i)
  disjoint : ∀ i < (ePhnum m elf).toNat, ∀ j < (ePhnum m elf).toNat, i ≠ j → ∀ q,
    Touches m (elfProgramHeader m elf i) q → ¬ Touches m (elfProgramHeader m elf j) q
  stack : ∀ i < (ePhnum m elf).toNat, ∀ q, Touches m (elfProgramHeader m elf i) q → ¬ StackPage q

theorem Mappable.touches_iff (h : Mappable m elf phdr) : Touches m phdr q ↔
    (pVaddr m phdr).toNat / 4096 ≤ q ∧ 4096 * q < (pVaddr m phdr).toNat + (pMemsz m phdr).toNat := by
  have hend := h.virt_end
  have hsize := h.size
  unfold pageUp at hend
  unfold Touches InSegment Within
  constructor
  · rintro ⟨v, rfl, hv⟩
    constructor <;> bv_omega
  · rintro ⟨hlow, hhigh⟩
    refine ⟨BitVec.ofNat 32 (max (pVaddr m phdr).toNat (4096 * q)), ?_, ?_⟩
    · rw [BitVec.toNat_ofNat]
      omega
    · rw [BitVec.toNat_sub, BitVec.toNat_ofNat]
      omega

/-! ## A call that maps its range -/

theorem entry_page {c : MapCall} (hc : ¬ c.Rejected) (hend : c.virt.toNat + (c.phys_end - c.phys).toNat ≤ 2 ^ 32)
    (hq : q < 2 ^ 20) : c.entry q =
      if c.virt.toNat ≤ 4096 * q ∧ 4096 * q < c.virt.toNat + (c.phys_end - c.phys).toNat then
        some ((c.phys + (BitVec.ofNat 32 (4096 * q) - c.virt)) ||| c.flags)
      else none := by
  have hacc := hc
  simp only [MapCall.Rejected, not_or, not_not] at hacc
  obtain ⟨hv, hp, he, hle⟩ := hacc
  have hcount : (c.phys_end - c.phys).toNat % 4096 = 0 := by bv_omega
  have hvirt := c.virt.isLt
  unfold MapCall.entry mapped
  rw [if_neg hc]
  dsimp only
  by_cases hin : c.virt.toNat ≤ 4096 * q ∧ 4096 * q < c.virt.toNat + (c.phys_end - c.phys).toNat
  · have hk : (q + 2 ^ 20 - c.virt.toNat / 4096) % 2 ^ 20 = q - c.virt.toNat / 4096 := by omega
    rw [if_pos hin, hk, if_pos (by omega)]
    congr 2
    apply congrArg (c.phys + ·)
    apply BitVec.eq_of_toNat_eq
    rw [BitVec.toNat_sub, BitVec.toNat_ofNat, BitVec.toNat_ofNat]
    omega
  · rw [if_neg hin, if_neg (by omega)]

theorem sub_shift (s v r x : Addr) : s - r + (x - (v - r)) = s + (x - v) := by grind

section

variable (h : Mappable m elf phdr) (ha : elf.toNat % 4096 = 0)
include h ha

theorem Mappable.bounds :
    (elf + pOffset m phdr).toNat = elf.toNat + (pOffset m phdr).toNat ∧
      (elf + pOffset m phdr).toNat % 4096 = (pVaddr m phdr).toNat % 4096 ∧
      (headerCall m elf phdr).phys_end.toNat = pageUp ((elf + pOffset m phdr).toNat + (pMemsz m phdr).toNat) := by
  have hend := h.phys_end
  have hcong := h.congruent
  have hlast := toNat_alignAddress (elf + pOffset m phdr + pMemsz m phdr)
  unfold pageUp at *
  have hstart : (elf + pOffset m phdr).toNat = elf.toNat + (pOffset m phdr).toNat := by
    rw [BitVec.toNat_add]
    omega
  refine ⟨hstart, by omega, ?_⟩
  show (pagingAlignAddress (elf + pOffset m phdr + pMemsz m phdr)).toNat = _
  rw [hlast, BitVec.toNat_add, hstart]
  omega

theorem Mappable.accepted : ¬ (headerCall m elf phdr).Rejected := by
  obtain ⟨hstart, -, hlast⟩ := h.bounds ha
  have hlow := toNat_alignToLowerPage (elf + pOffset m phdr)
  have hvirt := toNat_alignToLowerPage (pVaddr m phdr)
  rintro (hv | hp | he | hle)
  · exact hv (by show (pagingAlignToLowerPage (pVaddr m phdr)).toNat % 4096 = 0; omega)
  · exact hp (by show (pagingAlignToLowerPage (elf + pOffset m phdr)).toNat % 4096 = 0; omega)
  · rw [hlast] at he
    unfold pageUp at he
    omega
  · rw [BitVec.lt_def, hlast] at hle
    change _ < (pagingAlignToLowerPage (elf + pOffset m phdr)).toNat at hle
    unfold pageUp at hle
    omega

theorem Mappable.entry (hq : q < 2 ^ 20) [Decidable (Touches m phdr q)] : (headerCall m elf phdr).entry q =
    if Touches m phdr q then
      some ((elf + pOffset m phdr + (BitVec.ofNat 32 (4096 * q) - pVaddr m phdr)) ||| phdrFlags m phdr)
    else none := by
  obtain ⟨hstart, hcong, hlast⟩ := h.bounds ha
  have hacc := h.accepted ha
  have hend := h.virt_end
  have htouches := h.touches_iff (q := q)
  have hvirt : (headerCall m elf phdr).virt.toNat = (pVaddr m phdr).toNat / 4096 * 4096 :=
    toNat_alignToLowerPage (pVaddr m phdr)
  have hphys : (headerCall m elf phdr).phys.toNat = (elf + pOffset m phdr).toNat / 4096 * 4096 :=
    toNat_alignToLowerPage (elf + pOffset m phdr)
  have hle : (headerCall m elf phdr).phys ≤ (headerCall m elf phdr).phys_end := by
    by_contra hlt
    exact hacc (Or.inr (Or.inr (Or.inr (BitVec.not_le.mp hlt))))
  have hcount : (headerCall m elf phdr).virt.toNat +
      ((headerCall m elf phdr).phys_end - (headerCall m elf phdr).phys).toNat =
        pageUp ((pVaddr m phdr).toNat + (pMemsz m phdr).toNat) := by
    rw [BitVec.toNat_sub_of_le hle, hlast, hvirt, hphys]
    unfold pageUp
    omega
  have hplace : (headerCall m elf phdr).phys + (BitVec.ofNat 32 (4096 * q) - (headerCall m elf phdr).virt) =
      elf + pOffset m phdr + (BitVec.ofNat 32 (4096 * q) - pVaddr m phdr) := by
    have hmod : (elf + pOffset m phdr) % 4096 = pVaddr m phdr % 4096 := by
      apply BitVec.eq_of_toNat_eq
      rw [toNat_umod_page, toNat_umod_page, hcong]
    show elf + pOffset m phdr - (elf + pOffset m phdr) % 4096 +
      (BitVec.ofNat 32 (4096 * q) - (pVaddr m phdr - pVaddr m phdr % 4096)) = _
    rw [hmod, sub_shift]
  rw [entry_page hacc (by rw [hcount]; exact hend) hq, hplace, hcount, hvirt]
  unfold pageUp
  split_ifs with h1 h2 h2
  · rfl
  · exact absurd (htouches.mpr (by omega)) h2
  · exact absurd (htouches.mp h2) (by omega)
  · rfl

end

/-! ## What an entry says -/

theorem flags_or {frame flags bit : BitVec 32} (hf : frame.toNat % 4096 = 0) (hb : bit.toNat < 4096) :
    (frame ||| flags) &&& bit = flags &&& bit := Lib.Bits.or_and_low (k := 12) hf hb

theorem present_or {frame flags : BitVec 32} (hf : frame.toNat % 4096 = 0) :
    Present (frame ||| flags) ↔ Present flags := by
  rw [Present, flags_or hf (by decide), Present]

theorem user_or {frame flags : BitVec 32} (hf : frame.toNat % 4096 = 0) : User (frame ||| flags) ↔ User flags := by
  rw [User, flags_or hf (by decide), User]

theorem writable_or {frame flags : BitVec 32} (hf : frame.toNat % 4096 = 0) :
    Writable (frame ||| flags) ↔ Writable flags := by
  rw [Writable, flags_or hf (by decide), Writable]

theorem phdrFlags_bits (m : Mem) (phdr : Addr) : Present (phdrFlags m phdr) ∧ User (phdrFlags m phdr) ∧
    (Writable (phdrFlags m phdr) ↔ pFlags m phdr &&& pfW ≠ 0) := by
  unfold Present User Writable phdrFlags
  dsimp only
  split_ifs with h
  · exact ⟨by decide, by decide, iff_of_true (by decide) h⟩
  · exact ⟨by decide, by decide, iff_of_false (by decide) h⟩

theorem userWriteable_bits : Present pagingUserWriteable ∧ User pagingUserWriteable ∧ Writable pagingUserWriteable := by
  unfold Present User Writable
  decide

theorem frame_aligned {base virt : Addr} (h : base.toNat % 4096 = virt.toNat % 4096) :
    (base + (BitVec.ofNat 32 (4096 * q) - virt)).toNat % 4096 = 0 := by
  rw [BitVec.toNat_add, BitVec.toNat_sub, BitVec.toNat_ofNat]
  omega

theorem place_add {base virt page r : Addr} (h : page + r = v) : base + (page - virt) + r = base + (v - virt) := by
  grind

theorem translate_eq (hd : pageDirectory k p = d.chunk) (h : d.Holds k.mem) {base virt flags : BitVec 32}
    (hbase : base.toNat % 4096 = virt.toNat % 4096) (hf : flags.toNat < 4096)
    (he : d.entry k.mem (v.toNat / 4096) = (base + (BitVec.ofNat 32 (4096 * (v.toNat / 4096)) - virt)) ||| flags) :
    translate k p v = base + (v - virt) := by
  rw [translate, hd, h.chunk, pagingGetPhysicalAddress_spec h, he, tableAddress_or (frame_aligned hbase) hf]
  apply place_add
  apply BitVec.eq_of_toNat_eq
  rw [BitVec.toNat_add, BitVec.toNat_ofNat, toNat_umod_page]
  omega

theorem mapped_eq (hd : pageDirectory k p = d.chunk) (h : d.Holds k.mem) {base virt flags : BitVec 32}
    (hbase : base.toNat % 4096 = virt.toNat % 4096) (hf : flags.toNat < 4096)
    (he : d.entry k.mem (v.toNat / 4096) = (base + (BitVec.ofNat 32 (4096 * (v.toNat / 4096)) - virt)) ||| flags) :
    translate k p v = base + (v - virt) ∧ (Present (pageEntry k p (v.toNat / 4096)) ↔ Present flags) ∧
      (User (pageEntry k p (v.toNat / 4096)) ↔ User flags) ∧
      (Writable (pageEntry k p (v.toNat / 4096)) ↔ Writable flags) := by
  have hframe := frame_aligned hbase (q := v.toNat / 4096)
  have hentry := (pageEntry_eq hd h (show v.toNat / 4096 < 2 ^ 20 by omega)).trans he
  rw [hentry, present_or hframe, user_or hframe, writable_or hframe]
  exact ⟨translate_eq hd h hbase hf he, Iff.rfl, Iff.rfl, Iff.rfl⟩

/-! ## The calls -/

theorem lastEntry_concat (calls : List MapCall) (c : MapCall) (q : Nat) :
    lastEntry (calls ++ [c]) q = (c.entry q).or (lastEntry calls q) := by
  rw [lastEntry, List.reverse_append, List.reverse_singleton, List.singleton_append, List.findSome?_cons]
  cases c.entry q <;> rfl

theorem lastEntry_none {calls : List MapCall} (h : ∀ c ∈ calls, c.entry q = none) : lastEntry calls q = none := by
  simpa [lastEntry] using h

theorem lastEntry_some {calls : List MapCall} {e : BitVec 32} (h : ∀ c ∈ calls, c.entry q = none ∨ c.entry q = some e)
    (hex : ∃ c ∈ calls, c.entry q = some e) : lastEntry calls q = some e := by
  cases hlast : lastEntry calls q with
  | none =>
    obtain ⟨c, hc, he⟩ := hex
    have hnone : ∀ c ∈ calls, c.entry q = none := by simpa [lastEntry] using hlast
    rw [hnone c hc] at he
    cases he
  | some e' =>
    obtain ⟨c, hc, he⟩ := List.exists_of_findSome?_eq_some hlast
    rcases h c (List.mem_reverse.mp hc) with h0 | h0
    · rw [h0] at he
      cases he
    · rw [← he, h0]

def headerCalls (m : Mem) (elf : Addr) (n : Nat) : List MapCall :=
  (List.range n).map fun i => headerCall m elf (elfProgramHeader m elf i)

theorem headerCalls_succ (m : Mem) (elf : Addr) (n : Nat) :
    headerCalls m elf (n + 1) = headerCalls m elf n ++ [headerCall m elf (elfProgramHeader m elf n)] := by
  simp [headerCalls, List.range_succ]

theorem headerCalls_image (h : Agree m m' elf (extent blockSize filesize))
    (hp : (⟨elf, filesize⟩ : Block).Placed blockSize) (h0 : ePhoff m elf ≠ 0)
    (htable : (ePhoff m elf).toNat + sizeofElf32Phdr * (ePhnum m elf).toNat ≤ extent blockSize filesize) :
    headerCalls m' elf (ePhnum m' elf).toNat = headerCalls m elf (ePhnum m elf).toNat := by
  have hbound := hp.2.2
  dsimp only at hbound
  rw [ePhnum_image h]
  refine List.map_congr_left fun i hi => ?_
  have hi := List.mem_range.mp hi
  have hsame : elfProgramHeader m' elf i = elfProgramHeader m elf i := by
    rw [elfProgramHeader, elfPheader, ePhoff_image h]
    rfl
  rw [hsame]
  refine headerCall_agree (h.sub ?_)
  unfold sizeofElf32Phdr at htable
  rw [header_offset h0 (by unfold sizeofElf32Phdr; omega), sizeofElf32Phdr]
  omega

/-- The loop from header `i` on makes the calls that the headers stood for before it began. -/
theorem processMapElfLoop_spec {file : ElfFile} (hfile : file.elf_memory = elf)
    (himage : ∀ t < 1024, Apart (d.table t) 4096 elf (extent blockSize filesize))
    (hheaders : ∀ t < 1024, ∀ i < (ePhnum m elf).toNat,
      Apart (d.table t) 4096 (elfProgramHeader m elf i) sizeofElf32Phdr)
    (hacc : ∀ i < (ePhnum m elf).toNat, ¬ (headerCall m elf (elfProgramHeader m elf i)).Rejected) {n i : Nat}
    (hr : Remap d m m' (lastEntry (headerCalls m elf i))) (hi : i ≤ (ePhnum m elf).toNat)
    (hn : (ePhnum m elf).toNat < i + n) :
    ∃ m2, processMapElfLoop d.chunk file (elfPheader m elf) n i 0 m' = (m2, 0) ∧
      Remap d m m2 (lastEntry (headerCalls m elf (ePhnum m elf).toNat)) := by
  induction n generalizing i m' with
  | zero => exact absurd hn (not_lt.mpr hi)
  | succ n ih =>
    by_cases hlt : i < (ePhnum m elf).toNat
    · have hcall : headerCall m' elf (elfProgramHeader m elf i) = headerCall m elf (elfProgramHeader m elf i) :=
        headerCall_agree (hr.agree fun t ht => hheaders t ht i hlt)
      obtain ⟨m2, hturn, hr2⟩ := processMapElfLoop_turn hfile himage hr hlt n 0
      rw [hcall] at hturn hr2
      rw [hturn, if_neg (hacc i hlt)]
      refine ih (hr2.congr fun q _ => ?_) hlt (by omega)
      rw [headerCalls_succ, lastEntry_concat]
    · obtain rfl : i = (ePhnum m elf).toNat := by omega
      exact ⟨m', processMapElfLoop_end hfile himage hr le_rfl _ _, hr⟩

/-! ## The stack -/

def stackCall (stack : Addr) : MapCall :=
  ⟨programVirtualStackAddressEnd, stack, pagingAlignAddress (stack + BitVec.ofNat 32 userProgramStackSize),
    pagingUserWriteable⟩

theorem mapCall_stackCall (m : Mem) (directory stack : Addr) : mapCall directory m (stackCall stack) =
    (pagingMapTo m directory programVirtualStackAddressEnd stack
      (pagingAlignAddress (stack + BitVec.ofNat 32 userProgramStackSize)) pagingUserWriteable).1 := by
  rw [mapCall, stackCall]

/-- A stack on pages of its own that does not end the address space. -/
structure StackAt (stack : Addr) : Prop where
  aligned : stack.toNat % 4096 = 0
  room : stack.toNat + userProgramStackSize < 2 ^ 32

theorem stackCall_end (haligned : stack.toNat % 4096 = 0) :
    (stackCall stack).phys_end.toNat = (stack.toNat + userProgramStackSize) % 2 ^ 32 := by
  have hsize : userProgramStackSize = 16384 := rfl
  have hsum : (stack + BitVec.ofNat 32 userProgramStackSize).toNat = (stack.toNat + userProgramStackSize) % 2 ^ 32 := by
    rw [BitVec.toNat_add, BitVec.toNat_ofNat, hsize]
  rw [stackCall]
  dsimp only
  rw [toNat_alignAddress, hsum]
  omega

/-- A stack on pages of its own is refused only at the end of the address space. -/
theorem stackCall_rejected_iff (haligned : stack.toNat % 4096 = 0)
    (hroom : stack.toNat + userProgramStackSize ≤ 2 ^ 32) :
    (stackCall stack).Rejected ↔ stack.toNat + userProgramStackSize = 2 ^ 32 := by
  have hend := stackCall_end haligned
  have hphys : (stackCall stack).phys.toNat = stack.toNat := rfl
  have hsize : userProgramStackSize = 16384 := rfl
  constructor
  · rintro (hv | hp | he | hle)
    · exact absurd (show programVirtualStackAddressEnd.toNat % 4096 = 0 by decide) hv
    · exact absurd haligned hp
    · omega
    · rw [BitVec.lt_def] at hle
      omega
  · intro heq
    refine Or.inr (Or.inr (Or.inr ?_))
    rw [BitVec.lt_def]
    omega

theorem StackAt.entry (h : StackAt stack) (hq : q < 2 ^ 20) : (stackCall stack).entry q =
    if StackPage q then
      some ((stack + (BitVec.ofNat 32 (4096 * q) - programVirtualStackAddressEnd)) ||| pagingUserWriteable)
    else none := by
  obtain ⟨haligned, hroom⟩ := h
  have hsize : userProgramStackSize = 16384 := rfl
  have hend := stackCall_end haligned
  have hstart : programVirtualStackAddressEnd.toNat = 0x3FB000 := by decide
  have hvirt : (stackCall stack).virt.toNat = 0x3FB000 := hstart
  have hphys : (stackCall stack).phys.toNat = stack.toNat := rfl
  have hacc : ¬ (stackCall stack).Rejected := by
    rw [stackCall_rejected_iff haligned hroom.le]
    omega
  have hle : (stackCall stack).phys ≤ (stackCall stack).phys_end := by
    rw [BitVec.le_def]
    omega
  have hcount : ((stackCall stack).phys_end - (stackCall stack).phys).toNat = 16384 := by
    rw [BitVec.toNat_sub_of_le hle]
    omega
  have hpage : 0x3FB000 ≤ 4096 * q ∧ 4096 * q < 0x3FB000 + 16384 ↔ StackPage q := by
    unfold StackPage
    omega
  rw [entry_page hacc (by omega) hq, hcount, hvirt]
  simp only [hpage, stackCall]

/-! ## The whole process -/

/-- The process has an image that `elf_load` accepted, in a block that was live when its directory
was made. Its program headers are in none of the directory's blocks. -/
structure HasElf (k0 : Kmem) (k : Kernel) (p elf : Addr) (filesize : Nat) : Prop where
  filetype : (k.procs p).filetype = processFiletypeElf
  image : (k.elfFiles (k.procs p).elf_file).elf_memory = elf
  accepted : elfValidateLoaded k.mem elf = 0
  live : (⟨elf, filesize⟩ : Block) ∈ k0.heap.live
  headers : ∀ b, k.heap.Live b → ¬ k0.heap.Live b → ∀ i < (ePhnum k.mem elf).toNat,
    Apart b 4096 (elfProgramHeader k.mem elf i) sizeofElf32Phdr

theorem headers_inside (hkeeps : k0.Keeps k.toKmem) (hlive : (⟨elf, filesize⟩ : Block) ∈ k0.heap.live)
    (h0 : ePhoff k.mem elf ≠ 0) (htable : (ePhoff k.mem elf).toNat + sizeofElf32Phdr * (ePhnum k.mem elf).toNat ≤
      extent blockSize filesize) {b : Addr} (hb : k.heap.Live b) (hnew : ¬ k0.heap.Live b) {i : Nat}
    (hi : i < (ePhnum k.mem elf).toNat) : Apart b 4096 (elfProgramHeader k.mem elf i) sizeofElf32Phdr := by
  obtain ⟨n, hn⟩ := hb
  have hne : b ≠ elf := fun he => hnew (he ▸ ⟨filesize, hlive⟩)
  have hap := Kmem.live_apart hn (hkeeps.live _ hlive) hne
  have hle := le_extent (g := blockSize) n
  have hbound := (k0.heap.placed _ hlive).2.2
  dsimp only at hap hbound
  unfold sizeofElf32Phdr at htable
  refine hap.sub ?_ ?_ (by omega) (by decide)
  · rw [BitVec.sub_self]
    exact (Nat.zero_add _).trans_le hle
  · rw [header_offset h0 (by unfold sizeofElf32Phdr; omega), sizeofElf32Phdr]
    omega

/-- What the directory of the process says in `k'`, when the image was at `elf` in `k`. -/
structure Maps (k k' : Kernel) (p elf stack : Addr) (flags : BitVec 8) : Prop where
  segment : ∀ i < (ePhnum k.mem elf).toNat, ∀ v, InSegment k.mem (elfProgramHeader k.mem elf i) v →
    translate k' p v = elf + pOffset k.mem (elfProgramHeader k.mem elf i) +
      (v - pVaddr k.mem (elfProgramHeader k.mem elf i)) ∧
    Present (pageEntry k' p (v.toNat / 4096)) ∧ User (pageEntry k' p (v.toNat / 4096)) ∧
    (Writable (pageEntry k' p (v.toNat / 4096)) ↔ pFlags k.mem (elfProgramHeader k.mem elf i) &&& pfW ≠ 0)
  stack : ∀ v, Within programVirtualStackAddressEnd userProgramStackSize v →
    translate k' p v = stack + (v - programVirtualStackAddressEnd) ∧
    Present (pageEntry k' p (v.toNat / 4096)) ∧ User (pageEntry k' p (v.toNat / 4096)) ∧
    Writable (pageEntry k' p (v.toNat / 4096))
  other : ∀ q < 2 ^ 20, (∀ i < (ePhnum k.mem elf).toNat, ¬ Touches k.mem (elfProgramHeader k.mem elf i) q) →
    ¬ StackPage q → pageEntry k' p q = BitVec.ofNat 32 (4096 * q) ||| flags.setWidth 32

theorem Segments.lastEntry_page (h : Segments m elf) (ha : elf.toNat % 4096 = 0) (hs : StackAt stack)
    (hq : q < 2 ^ 20) :
    (∀ i < (ePhnum m elf).toNat, Touches m (elfProgramHeader m elf i) q →
      lastEntry (headerCalls m elf (ePhnum m elf).toNat ++ [stackCall stack]) q =
        some ((elf + pOffset m (elfProgramHeader m elf i) +
          (BitVec.ofNat 32 (4096 * q) - pVaddr m (elfProgramHeader m elf i))) |||
            phdrFlags m (elfProgramHeader m elf i))) ∧
    (StackPage q → lastEntry (headerCalls m elf (ePhnum m elf).toNat ++ [stackCall stack]) q =
      some ((stack + (BitVec.ofNat 32 (4096 * q) - programVirtualStackAddressEnd)) ||| pagingUserWriteable)) ∧
    ((∀ i < (ePhnum m elf).toNat, ¬ Touches m (elfProgramHeader m elf i) q) → ¬ StackPage q →
      lastEntry (headerCalls m elf (ePhnum m elf).toNat ++ [stackCall stack]) q = none) := by
  classical
  rw [lastEntry_concat, hs.entry hq]
  have hmem : ∀ c ∈ headerCalls m elf (ePhnum m elf).toNat, ∃ j < (ePhnum m elf).toNat,
      c = headerCall m elf (elfProgramHeader m elf j) := by
    intro c hc
    obtain ⟨j, hj, rfl⟩ := List.mem_map.mp hc
    exact ⟨j, List.mem_range.mp hj, rfl⟩
  refine ⟨fun i hi htouch => ?_, fun hstack => ?_, fun hnone hstack => ?_⟩
  · rw [if_neg (h.stack i hi q htouch), Option.none_or]
    refine lastEntry_some (fun c hc => ?_) ⟨_, List.mem_map.mpr ⟨i, List.mem_range.mpr hi, rfl⟩, ?_⟩
    · obtain ⟨j, hj, rfl⟩ := hmem c hc
      rw [(h.mappable j hj).entry ha hq]
      by_cases hij : i = j
      · subst hij
        exact Or.inr (if_pos htouch)
      · exact Or.inl (if_neg (h.disjoint i hi j hj hij q htouch))
    · rw [(h.mappable i hi).entry ha hq, if_pos htouch]
  · rw [if_pos hstack, Option.some_or]
  · rw [if_neg hstack, Option.none_or]
    refine lastEntry_none fun c hc => ?_
    obtain ⟨j, hj, rfl⟩ := hmem c hc
    rw [(h.mappable j hj).entry ha hq, if_neg (hnone j hj)]

theorem processMapMemory_elf (hd : pageDirectory k p = d.chunk) (hfile : (k.procs p).filetype = processFiletypeElf)
    (hmap : processMapElf k p = ({ k with mem := m }, 0)) : processMapMemory k p =
      some ({ k with mem := run (mapCall d.chunk) m [stackCall (k.procs p).stack] }, 0) := by
  unfold processMapMemory
  rw [if_pos hfile, hmap, run_cons, run_nil, mapCall_stackCall, ← hd]
  rfl

theorem processMapMemory_remap (hd : pageDirectory k p = d.chunk) {flags : BitVec 32} (hnew : New k0 k.toKmem d flags)
    (helf : HasElf k0 k p elf filesize) (hseg : Segments k.mem elf) :
    ∃ m3, processMapMemory k p = some ({ k with mem := m3 }, 0) ∧ Remap d k.mem m3
      (lastEntry (headerCalls k.mem elf (ePhnum k.mem elf).toNat ++ [stackCall (k.procs p).stack])) := by
  have ha := Kmem.live_aligned ⟨_, helf.live⟩
  have himage := tables_apart_image hnew.inMem (hnew.keeps.live _ helf.live) fun hmem =>
    hnew.fresh _ hmem ⟨_, helf.live⟩
  have hheaders : ∀ t < 1024, ∀ i < (ePhnum k.mem elf).toNat,
      Apart (d.table t) 4096 (elfProgramHeader k.mem elf i) sizeofElf32Phdr := fun t ht =>
    helf.headers _ (hnew.inMem.live _ (d.table_mem ht)) (hnew.fresh _ (d.table_mem ht))
  have hlt := (ePhnum k.mem elf).isLt
  obtain ⟨m2, hm2, hr2⟩ := processMapElfLoop_spec helf.image himage hheaders
    (fun i hi => (hseg.mappable i hi).accepted ha) (Remap.refl hnew.inMem.holds) (Nat.zero_le _)
    (show (ePhnum k.mem elf).toNat < 0 + 2 ^ 16 by omega)
  have hmap : processMapElf k p = ({ k with mem := m2 }, 0) := by
    unfold processMapElf
    dsimp only
    rw [helf.image, hd, hm2]
  have hr3 := hr2.trans (run_mapCall_spec hr2.holds [stackCall (k.procs p).stack])
  refine ⟨_, processMapMemory_elf hd helf.filetype hmap, hr3.congr fun q _ => ?_⟩
  rw [lastEntry_concat, lastEntry_cons]
  rfl

/-- For every image, with any segments in any order: `process_map_memory` succeeds in a new
directory, and each byte of a segment and of the stack is where it belongs. -/
theorem processMapMemory_maps {flags : BitVec 8}
    (hok : (pagingNew4gb k0 flags).1.heap.failures = k0.heap.failures)
    (hmem : k.toKmem = (pagingNew4gb k0 flags).1) (hd : pageDirectory k p = (pagingNew4gb k0 flags).2)
    (helf : HasElf k0 k p elf filesize) (hseg : Segments k.mem elf) (hstack : StackAt (k.procs p).stack) :
    ∃ k', processMapMemory k p = some (k', 0) ∧ Maps k k' p elf (k.procs p).stack flags := by
  obtain ⟨d, hchunk, hnew⟩ := pagingNew4gb_spec hok
  rw [← hmem] at hnew
  rw [← hchunk] at hd
  obtain ⟨m3, hmap, hr⟩ := processMapMemory_remap hd hnew helf hseg
  have ha := Kmem.live_aligned ⟨_, helf.live⟩
  have hd' : pageDirectory { k with mem := m3 } p = d.chunk := hd
  refine ⟨_, hmap, ?_, ?_, ?_⟩
  · intro i hi v hv
    have hq : v.toNat / 4096 < 2 ^ 20 := by omega
    have he := hr.entry _ hq
    rw [(hseg.lastEntry_page ha hstack hq).1 i hi ⟨v, rfl, hv⟩, Option.getD_some] at he
    obtain ⟨htranslate, hpresent, huser, hwritable⟩ :=
      mapped_eq hd' hr.holds ((hseg.mappable i hi).bounds ha).2.1 (phdrFlags_lt _ _) he
    rw [hpresent, huser, hwritable]
    exact ⟨htranslate, phdrFlags_bits _ _⟩
  · intro v hv
    have hq : v.toNat / 4096 < 2 ^ 20 := by omega
    have hpage : StackPage (v.toNat / 4096) := by
      have hstart : programVirtualStackAddressEnd.toNat = 0x3FB000 := by decide
      have hsize : userProgramStackSize = 16384 := rfl
      unfold Within at hv
      unfold StackPage
      constructor <;> bv_omega
    have he := hr.entry _ hq
    rw [(hseg.lastEntry_page ha hstack hq).2.1 hpage, Option.getD_some] at he
    obtain ⟨htranslate, hpresent, huser, hwritable⟩ :=
      mapped_eq hd' hr.holds (hstack.aligned.trans (by decide)) (by decide) he
    rw [hpresent, huser, hwritable]
    exact ⟨htranslate, userWriteable_bits⟩
  · intro q hq hnone hpage
    rw [pageEntry_eq hd' hr.holds hq, hr.entry q hq, (hseg.lastEntry_page ha hstack hq).2.2 hnone hpage,
      Option.getD_none]
    exact hnew.entry q hq

/-! ## One segment -/

def imageKmem (words : List (BitVec 32)) : Kmem :=
  let (m, elf) := kzalloc emptyKmem (4 * words.length)
  { m with mem := storeWords m.mem elf words }

/-- A process with the image at 0x4000 and a stack, in the directory at `chunk`. -/
def elfProcess (m : Kmem) (chunk : Addr) : Kernel :=
  { emptyKernel with
    toKmem := m
    tasks := fun _ => { zeroTask with page_directory := chunk }
    procs := fun _ => { zeroProcess with filetype := processFiletypeElf, stack := 0x8000 }
    elfFiles := fun _ => ⟨0x4000, 0, 0, 0, 0⟩ }

section

variable {words : List (BitVec 32)} (hlen : 4 * words.length ≤ 4096)
  (helf : (kzalloc emptyKmem (4 * words.length)).2 = 0x4000)

include hlen helf

theorem imageKmem_ok : (⟨0x4000, 4 * words.length⟩ : Block) ∈ (imageKmem words).heap.live ∧
    Spare (imageKmem words) 1026 ∧
    ∀ i, (hi : i < words.length) → load32 (imageKmem words).mem (0x4000 + BitVec.ofNat 32 (4 * i)) = words[i] := by
  obtain ⟨⟨m, elf⟩, hm⟩ : ∃ r, kzalloc emptyKmem (4 * words.length) = r := ⟨_, rfl⟩
  have hsmall : 4 * words.length ≤ bumpStride := by
    unfold bumpStride blockSize
    omega
  obtain ⟨hroom, hok⟩ := (spare_emptyKmem (n := 1027) (by decide)).kzalloc (n := 1026) (4 * words.length) hsmall
  have hf := kzalloc_ok _ hok
  rw [hm] at helf hroom hf
  dsimp only at helf hroom hf
  subst helf
  have heq : imageKmem words = { m with mem := storeWords m.mem 0x4000 words } := by
    rw [imageKmem, hm]
  rw [heq]
  exact ⟨hf.mem_live, ⟨hroom.bumped, hroom.room⟩, fun i hi => load32_storeWords (by omega) hi⟩

theorem elfProcess_hasImage {m : Kmem} {chunk : Addr} {flags : BitVec 32} (hd : d.chunk = chunk)
    (hnew : New (imageKmem words) m d flags) (hflags : flags = 5) :
    HasImage (elfProcess m chunk) 0 0x4000 d words := by
  obtain ⟨hlive, -, hword⟩ := imageKmem_ok hlen helf
  have hfresh : (0x4000 : Addr) ∉ d.blocks := fun h => hnew.fresh _ h ⟨_, hlive⟩
  have hdir : pageDirectory (elfProcess m chunk) 0 = d.chunk := hd.symm
  refine ⟨hdir, hnew.inMem, rfl, hnew.keeps.live _ hlive, hfresh, fun i hi => ?_, fun v hv => ?_⟩
  · have hle := size_le_extent (g := blockSize) (4 * words.length)
    rw [← hword i hi]
    refine ((hnew.keeps.bytes _ hlive).sub ?_).load32
    dsimp only
    rw [BitVec.add_comm, BitVec.add_sub_cancel, BitVec.toNat_ofNat]
    omega
  · rw [pageEntry_eq hdir hnew.inMem.holds hv, ← hflags]
    exact hnew.entry v hv

end

theorem segments_of_words {m : Mem} (h : HasWords m elf (elfWords 0)) (ha : elf.toNat % 4096 = 0)
    (hend : elf.toNat + 4096 < 2 ^ 32) : Segments m elf := by
  obtain ⟨-, hphoff, hphnum⟩ := h.header
  obtain ⟨-, hoffset, hmemsz⟩ := h.segment
  have hphdr : elfProgramHeader m elf 0 = elf + 52 := by
    rw [elfProgramHeader_first (by rw [hphoff]; decide), hphoff]
  have hvaddr : pVaddr m (elfProgramHeader m elf 0) = 0x400000 := by
    rw [hphdr, pVaddr, BitVec.add_assoc]
    exact h.load (i := 15) (by decide)
  have hone : ∀ i < (ePhnum m elf).toNat, i = 0 := by
    intro i hi
    rw [hphnum] at hi
    exact Nat.lt_one_iff.mp hi
  have hmap : Mappable m elf (elfProgramHeader m elf 0) := by
    constructor
    all_goals simp only [hvaddr, hoffset, hmemsz, pageUp]
    · decide
    · decide
    · decide
    · show (elf.toNat + 0 + 84 + 4095) / 4096 * 4096 < 2 ^ 32
      omega
  refine ⟨fun i hi => ?_, fun i hi j hj hij => ?_, fun i hi q hq => ?_⟩
  · obtain rfl := hone i hi
    exact hmap
  · exact absurd ((hone i hi).trans (hone j hj).symm) hij
  · obtain rfl := hone i hi
    rw [hmap.touches_iff, hvaddr, hmemsz] at hq
    have hv : (0x400000 : Addr).toNat = 0x400000 := rfl
    unfold StackPage
    omega

theorem processMapMemory_maps_elfProcess : ∃ m chunk k', pagingNew4gb (imageKmem (elfWords 0)) 5 = (m, chunk) ∧
    processMapMemory (elfProcess m chunk) 0 = some (k', 0) ∧ Maps (elfProcess m chunk) k' 0 0x4000 0x8000 5 := by
  have hlen : 4 * (elfWords 0).length ≤ 4096 := by decide
  have helf : (kzalloc emptyKmem (4 * (elfWords 0).length)).2 = 0x4000 := by decide +kernel
  obtain ⟨hlive, hroom, -⟩ := imageKmem_ok hlen helf
  have hok := (pagingNew4gb_spare (n := 0) hroom 5).2
  obtain ⟨d, hchunk, hnew⟩ := pagingNew4gb_spec hok
  obtain ⟨⟨m, chunk⟩, hm⟩ : ∃ r, pagingNew4gb (imageKmem (elfWords 0)) 5 = r := ⟨_, rfl⟩
  rw [hm] at hchunk hnew
  have himage := elfProcess_hasImage hlen helf hchunk hnew rfl
  obtain ⟨hvalid, hphoff, hphnum⟩ := himage.words.header
  have helf : HasElf (imageKmem (elfWords 0)) (elfProcess m chunk) 0 0x4000 84 := by
    refine ⟨rfl, rfl, hvalid, hlive, fun b hb hb' i hi => headers_inside hnew.keeps hlive ?_ ?_ hb hb' hi⟩
    · rw [hphoff]
      decide
    · rw [hphoff, hphnum]
      decide
  have hstack : StackAt 0x8000 := ⟨by decide, by decide⟩
  obtain ⟨k', h⟩ := processMapMemory_maps hok (by rw [hm]; rfl) (by rw [hm]; rfl) helf
    (segments_of_words himage.words (Kmem.live_aligned ⟨_, himage.live⟩) (by decide)) hstack
  exact ⟨m, chunk, k', hm, h⟩

/-! ## Program headers in the directory

`e_phoff` is not compared with the size of the image. -/

/-- An image of a header alone, with two program headers at `phoff`. -/
def strayWords (phoff : BitVec 32) : List (BitVec 32) :=
  [0x464c457f, 0x00000101, 0, 0, 0x00030002, 1, 0x400000, phoff, 0, 0, 0x00200034, 2, 0]

theorem table_word (htable : d.table 0 = 0xc000) (m : Mem) (hq : q < 1024) :
    load32 m (0xc000 + BitVec.ofNat 32 (4 * q)) = d.entry m q := by
  rw [PageDir.entry, PageDir.slot, Nat.div_eq_of_lt hq, Nat.mod_eq_of_lt hq, htable]
  rfl

theorem table_header (htable : d.table 0 = 0xc000) (m : Mem) (hq : q < 1000)
    (hphdr : phdr = 0xc000 + BitVec.ofNat 32 (4 * q)) :
    pOffset m phdr = d.entry m (q + 1) ∧ pVaddr m phdr = d.entry m (q + 2) ∧ pMemsz m phdr = d.entry m (q + 5) ∧
      pFlags m phdr = d.entry m (q + 6) := by
  have hword : ∀ i < 8, ∀ c : BitVec 32, c = BitVec.ofNat 32 (4 * i) → load32 m (phdr + c) = d.entry m (q + i) := by
    intro i hi c hc
    rw [← table_word htable m (by omega), hc, hphdr, BitVec.add_assoc, ← BitVec.ofNat_add, ← Nat.mul_add]
  exact ⟨hword 1 (by decide) 4 rfl, hword 2 (by decide) 8 rfl, hword 5 (by decide) 20 rfl, hword 6 (by decide) 24 rfl⟩

section

variable (h : HasImage k p 0x4000 d (strayWords 0x8008))

include h

theorem stray_header : elfValidateLoaded k.mem 0x4000 = 0 ∧ ePhnum k.mem 0x4000 = 2 ∧
    elfProgramHeader k.mem 0x4000 0 = 0xc008 ∧ elfProgramHeader k.mem 0x4000 1 = 0xc028 := by
  have hlen : (strayWords 0x8008).length = 13 := rfl
  have hphoff : ePhoff k.mem 0x4000 = 0x8008 := h.word 7 (by omega)
  have hphnum : load32 k.mem (0x4000 + 44) = 2 := h.word 11 (by omega)
  refine ⟨elfValidateLoaded_of_words (h.word 0 (by omega)) (h.word 1 (by omega)) (by rw [hphoff]; decide), ?_, ?_, ?_⟩
  · unfold ePhnum
    rw [load16_eq_load32, hphnum]
    rfl
  all_goals
    unfold elfProgramHeader elfPheader
    rw [hphoff]
    decide

variable (htable : d.table 0 = 0xc000)

include htable

theorem stray_headers :
    (pOffset k.mem 0xc008 = 0x3005 ∧ pVaddr k.mem 0xc008 = 0x4005 ∧ pMemsz k.mem 0xc008 = 0x7005 ∧
      pFlags k.mem 0xc008 = 0x8005) ∧
    pOffset k.mem 0xc028 = 0xb005 ∧ pVaddr k.mem 0xc028 = 0xc005 ∧ pMemsz k.mem 0xc028 = 0xf005 := by
  have hentry : ∀ q < 1024, d.entry k.mem q = BitVec.ofNat 32 (4096 * q) ||| 5 := fun q hq => by
    rw [← h.entry q (by omega), pageEntry_eq h.directory h.inMem.holds (by omega)]
  obtain ⟨ho, hv, hz, hf⟩ := table_header htable k.mem (q := 2) (by decide) (show (0xc008 : Addr) = _ from rfl)
  obtain ⟨ho', hv', hz', -⟩ := table_header htable k.mem (q := 10) (by decide) (show (0xc028 : Addr) = _ from rfl)
  rw [ho, hv, hz, hf, ho', hv', hz']
  simp only [hentry _ (show 2 + 1 < 1024 by decide), hentry _ (show 2 + 2 < 1024 by decide),
    hentry _ (show 2 + 5 < 1024 by decide), hentry _ (show 2 + 6 < 1024 by decide),
    hentry _ (show 10 + 1 < 1024 by decide), hentry _ (show 10 + 2 < 1024 by decide),
    hentry _ (show 10 + 5 < 1024 by decide)]
  decide

theorem stray_segments : Segments k.mem 0x4000 := by
  obtain ⟨-, hphnum, hfirst, hsecond⟩ := stray_header h
  obtain ⟨⟨ho, hv, hz, -⟩, ho', hv', hz'⟩ := stray_headers h htable
  have htwo : ∀ i < (ePhnum k.mem 0x4000).toNat, i = 0 ∨ i = 1 := by
    intro i hi
    rw [hphnum] at hi
    have : (2 : BitVec 16).toNat = 2 := rfl
    omega
  have hmap0 : Mappable k.mem 0x4000 (elfProgramHeader k.mem 0x4000 0) := by
    rw [hfirst]
    constructor
    all_goals
      simp only [ho, hv, hz, pageUp]
      decide
  have hmap1 : Mappable k.mem 0x4000 (elfProgramHeader k.mem 0x4000 1) := by
    rw [hsecond]
    constructor
    all_goals
      simp only [ho', hv', hz', pageUp]
      decide
  have htouch0 : ∀ q, Touches k.mem (elfProgramHeader k.mem 0x4000 0) q → q < 12 := by
    intro q hq
    rw [hmap0.touches_iff, hfirst, hv, hz] at hq
    have hend : (0x4005 : BitVec 32).toNat + (0x7005 : BitVec 32).toNat = 0xb00a := rfl
    omega
  have htouch1 : ∀ q, Touches k.mem (elfProgramHeader k.mem 0x4000 1) q → 12 ≤ q ∧ q < 28 := by
    intro q hq
    rw [hmap1.touches_iff, hsecond, hv', hz'] at hq
    have hstart : (0xc005 : BitVec 32).toNat = 0xc005 := rfl
    have hend : (0xc005 : BitVec 32).toNat + (0xf005 : BitVec 32).toNat = 0x1b00a := rfl
    omega
  refine ⟨fun i hi => ?_, fun i hi j hj hij q hq hq' => ?_, fun i hi q hq => ?_⟩
  · rcases htwo i hi with rfl | rfl
    · exact hmap0
    · exact hmap1
  · rcases htwo i hi with rfl | rfl <;> rcases htwo j hj with rfl | rfl
    · exact hij rfl
    · exact absurd (htouch1 q hq').1 (not_le.mpr (htouch0 q hq))
    · exact absurd (htouch1 q hq).1 (not_le.mpr (htouch0 q hq'))
    · exact hij rfl
  · unfold StackPage
    rcases htwo i hi with rfl | rfl
    · have := htouch0 q hq
      omega
    · have := htouch1 q hq
      omega

/-- The first mapping has written over the second header by the time it is read. -/
theorem stray_mapped : ∃ m2, processMapElf k p = ({ k with mem := m2 }, 0) ∧ d.Holds m2 ∧
    d.entry m2 12 = 0x12005 := by
  obtain ⟨-, hphnum, hfirst, hsecond⟩ := stray_header h
  obtain ⟨⟨ho, hv, hz, hf⟩, -, hv', -⟩ := stray_headers h htable
  have hentry : ∀ q < 1024, d.entry k.mem q = BitVec.ofNat 32 (4096 * q) ||| 5 := fun q hq => by
    rw [← h.entry q (by omega), pageEntry_eq h.directory h.inMem.holds (by omega)]
  have hap := tables_apart_image h.inMem h.live h.apart
  have htwo : (ePhnum k.mem 0x4000).toNat = 2 := by
    rw [hphnum]
    rfl
  -- the first header, as the directory was made
  have hcall0 : headerCall k.mem 0x4000 (elfProgramHeader k.mem 0x4000 0) = ⟨0x4000, 0x7000, 0xf000, 5⟩ := by
    unfold headerCall phdrFlags
    rw [hfirst, ho, hv, hz, hf, MapCall.mk.injEq]
    decide
  obtain ⟨m1, hturn, hr1⟩ := processMapElfLoop_turn h.image hap (Remap.refl h.inMem.holds) (i := 0) (by omega) 65535 0
  rw [hcall0] at hturn hr1
  have hentry1 : ∀ q < 1024, d.entry m1 q =
      ((⟨0x4000, 0x7000, 0xf000, 5⟩ : MapCall).entry q).getD (BitVec.ofNat 32 (4096 * q) ||| 5) := fun q hq => by
    rw [hr1.entry q (by omega), Option.or_none, hentry q hq]
  -- the second, in the memory that the first call left
  obtain ⟨ho1, hv1, hz1, hf1⟩ := table_header htable m1 (q := 10) (by decide) (show (0xc028 : Addr) = _ from rfl)
  have hcall1 : headerCall m1 0x4000 (elfProgramHeader k.mem 0x4000 1) = ⟨0xc000, 0x12000, 0x22000, 5⟩ := by
    unfold headerCall phdrFlags
    rw [hsecond, ho1, hv1, hz1, hf1, hentry1 _ (by decide), hentry1 _ (by decide), hentry1 _ (by decide),
      hentry1 _ (by decide), MapCall.mk.injEq]
    decide
  obtain ⟨m2, hturn', hr2⟩ := processMapElfLoop_turn h.image hap hr1 (i := 1) (by omega) 65534 0
  rw [hcall1] at hturn' hr2
  refine ⟨m2, ?_, hr2.holds, ?_⟩
  · unfold processMapElf
    dsimp only
    rw [h.directory, h.image, show (2 : Nat) ^ 16 = 65535 + 1 by norm_num, hturn, if_neg (by decide), hturn',
      if_neg (by decide), processMapElfLoop_end h.image hap hr2 (by omega)]
  · rw [hr2.entry 12 (by decide), hentry 12 (by decide)]
    decide

end

/-- An accepted image whose segments are on pages of their own, and whose headers are in the first table:
mapping the first writes over the header of the second. -/
theorem processMapMemory_overwrites_headers : ∃ m chunk, pagingNew4gb (imageKmem (strayWords 0x8008)) 5 = (m, chunk) ∧
    m.heap.failures = (imageKmem (strayWords 0x8008)).heap.failures ∧
    (⟨0x4000, 52⟩ : Block) ∈ (imageKmem (strayWords 0x8008)).heap.live ∧
    elfValidateLoaded m.mem 0x4000 = 0 ∧ Segments m.mem 0x4000 ∧ StackAt 0x8000 ∧
    ¬ ∃ k', processMapMemory (elfProcess m chunk) 0 = some (k', 0) ∧
      Maps (elfProcess m chunk) k' 0 0x4000 0x8000 5 := by
  have hlen : 4 * (strayWords 0x8008).length ≤ 4096 := by decide
  have helf : (kzalloc emptyKmem (4 * (strayWords 0x8008).length)).2 = 0x4000 := by decide +kernel
  obtain ⟨hlive, hroom, -⟩ := imageKmem_ok hlen helf
  have hok := (pagingNew4gb_spare (n := 0) hroom 5).2
  obtain ⟨d, hchunk, hnew, htable⟩ := pagingNew4gb_table hok
  have hsecond : (kzalloc (kzalloc (imageKmem (strayWords 0x8008)) 4096).1 4096).2 = 0xc000 := by decide +kernel
  rw [hsecond] at htable
  obtain ⟨⟨m, chunk⟩, hm⟩ : ∃ r, pagingNew4gb (imageKmem (strayWords 0x8008)) 5 = r := ⟨_, rfl⟩
  rw [hm] at hchunk hnew hok
  dsimp only at hchunk hnew hok
  have himage := elfProcess_hasImage hlen helf hchunk hnew rfl
  obtain ⟨hvalid, hphnum, -, hphdr⟩ := stray_header himage
  obtain ⟨-, ho, hv, hz⟩ := stray_headers himage htable
  have hstack : StackAt 0x8000 := ⟨by decide, by decide⟩
  refine ⟨m, chunk, hm, hok, hlive, hvalid, stray_segments himage htable, hstack, ?_⟩
  rintro ⟨k', hmap, hmaps⟩
  obtain ⟨m2, helfmap, hholds, hentry⟩ := stray_mapped himage htable
  have hr := run_mapCall_spec hholds [stackCall 0x8000]
  have hrun : processMapMemory (elfProcess m chunk) 0 =
      some ({ elfProcess m chunk with mem := run (mapCall d.chunk) m2 [stackCall 0x8000] }, 0) :=
    processMapMemory_elf himage.directory rfl helfmap
  rw [hrun, Option.some.injEq, Prod.mk.injEq] at hmap
  obtain ⟨rfl, -⟩ := hmap
  have hleft : d.entry (run (mapCall d.chunk) m2 [stackCall 0x8000]) 12 = 0x12005 := by
    have hnone : lastEntry [stackCall 0x8000] 12 = none := by
      rw [lastEntry_none]
      intro c hc
      rw [List.mem_singleton.mp hc, hstack.entry (by decide), if_neg (by decide)]
    rw [hr.entry 12 (by decide), hnone, hentry]
    rfl
  have hplace : d.entry (run (mapCall d.chunk) m2 [stackCall 0x8000]) ((0xc005 : Addr).toNat / 4096) =
      ((0x12005 : BitVec 32) + (BitVec.ofNat 32 (4096 * ((0xc005 : Addr).toNat / 4096)) - 0xc005)) ||| 5 :=
    hleft.trans (by decide)
  have hwrong := translate_eq (k := { elfProcess m chunk with mem := run (mapCall d.chunk) m2 [stackCall 0x8000] })
    (p := 0) himage.directory hr.holds (by decide) (by decide) hplace
  have hin : InSegment (elfProcess m chunk).mem (elfProgramHeader (elfProcess m chunk).mem 0x4000 1) 0xc005 := by
    rw [InSegment, hphdr, hv, hz]
    decide
  have hright := (hmaps.segment 1 (by rw [hphnum]; decide) 0xc005 hin).1
  rw [hwrong, hphdr, ho, hv] at hright
  exact absurd hright (by decide)

end MultitaskOs.MapMemory
