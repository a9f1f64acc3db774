import MultitaskOs.Code.Resolve
import MultitaskOs.OpenClose
import MultitaskOs.RootRegion

/-!
# Probing for a volume

`fat16_resolve` marks the disk as a FAT16 volume before it looks at it. When it
gives up, the mark and the three streams stay.
-/

open Lib Lib.Memory Lib.Arena MultitaskOs.Files MultitaskOs.OpenClose MultitaskOs.RootRegion MultitaskOs.Tasks

namespace MultitaskOs.Resolve

variable {d d' : DiskKernel} {k k1 : Kernel} {m : Kmem} {res : Int} {b : Block} {r : Kmem × Addr}

/-! ## The requests -/

/-- The heap that is asked for the streams, behind the request for the volume. -/
def afterPrivate (m : Kmem) : Kmem := (kzalloc m sizeofFatPrivate).1

/-- The heap that was asked for `n` streams. -/
def afterStreams (m : Kmem) : Nat → Kmem
  | 0 => m
  | n + 1 => (kzalloc (afterStreams m n) sizeofDiskStream).1

def NoStreams (m : Kmem) (n : Nat) : Prop := ∀ i < n, (kzalloc (afterStreams m i) sizeofDiskStream).2 = 0

theorem afterStreams_keeps (m : Kmem) (n : Nat) : m.Keeps (afterStreams m n) := by
  induction n with
  | zero => exact Kmem.Keeps.refl m
  | succ n ih => exact ih.trans (kzalloc_keeps _ _)

theorem live_of_noStreams {n : Nat} (h : NoStreams m n) : (afterStreams m n).heap.live = m.heap.live := by
  induction n with
  | zero => rfl
  | succ n ih =>
    unfold afterStreams
    rw [live_of_refused _ _ (h n (Nat.lt_succ_self n)), ih fun i hi => h i (by omega)]

theorem streams_granted {n : Nat} (h : ¬ NoStreams m n) : ∃ a, (afterStreams m n).heap.Live a ∧ ¬ m.heap.Live a := by
  induction n with
  | zero => exact absurd (fun i hi => absurd hi (Nat.not_lt_zero i)) h
  | succ n ih =>
    have hk := kzalloc_keeps (afterStreams m n) sizeofDiskStream
    by_cases hn : NoStreams m n
    · have h0 : (kzalloc (afterStreams m n) sizeofDiskStream).2 ≠ 0 := by
        refine fun h0 => h fun i hi => ?_
        rcases Nat.lt_succ_iff_lt_or_eq.mp hi with hi | rfl
        · exact hn i hi
        · exact h0
      exact ⟨_, (kzalloc_fresh h0).isLive, fun hl => kzalloc_not_live _ _ ((afterStreams_keeps m n).isLive hl)⟩
    · obtain ⟨a, hlive, hnew⟩ := ih hn
      exact ⟨a, hk.isLive hlive, hnew⟩

/-! ## Giving up -/

/-- The disk is as it was, and so are the live blocks. -/
structure Restored (d d' : DiskKernel) : Prop where
  filesystem : d'.disk.filesystem = d.disk.filesystem
  fs_private : d'.fs_private_ptr = d.fs_private_ptr
  live : SameLive d.toKernel d'.toKernel

def opened (d : DiskKernel) (m : Kmem) : Kernel :=
  { d.toKernel with
    toKmem := m
    disk := { d.disk with filesystem := true }
    fs_private := ⟨⟨0, 0, 0, 0, 0⟩, zeroFatDirectory, 0, 0, 0⟩ }

def headerBytes (d : DiskKernel) (m : Kmem) : List Byte := (diskstreamerRead (opened d m).disk 0 sizeofFatH).1

def withHeader (d : DiskKernel) (m : Kmem) : Kernel :=
  (opened d m).setFs fun fs => { fs with header := fatHeader (headerBytes d m) }

/-- What the request for the stream of the header is answered. -/
@[irreducible] def streamAnswer (d : DiskKernel) : Kmem × Addr :=
  kzalloc (afterStreams (afterPrivate d.toKmem) 3) sizeofDiskStream

/-- The volume and its directory stream both lie at 0. The header is read over the stream, and the word
that its OEM identifier ends in is not `&disk`. -/
structure Overread (d : DiskKernel) : Prop where
  volume : (kzalloc d.toKmem sizeofFatPrivate).2 = 0
  directory_stream : (kzalloc (afterStreams (afterPrivate d.toKmem) 2) sizeofDiskStream).2 = 0
  stream : (streamAnswer d).2 ≠ 0
  signature : extendedSignature (headerBytes d (streamAnswer d).1) = fat16Signature
  oem : directoryStreamDisk d.address 0 0 (headerBytes d (streamAnswer d).1) ≠ d.address

@[irreducible] def bufferAnswer (d : DiskKernel) : Kmem × Addr :=
  kzalloc (streamAnswer d).1 (32 * rootEntries (withHeader d (streamAnswer d).1))

/-- The live blocks of a call that gives up are those of the heap `m` that it asked, but for two, which
it frees. -/
structure GivesUp (d : DiskKernel) (m : Kmem) (d' : DiskKernel) : Prop where
  filesystem : d'.disk.filesystem = true
  fs_private : d'.fs_private_ptr = 0
  live : ∀ b, b ∈ d'.heap.live ↔
    b ∈ m.heap.live ∧ b.base ≠ (streamAnswer d).2 ∧ b.base ≠ (kzalloc d.toKmem sizeofFatPrivate).2

theorem resolveOut_fails (d : DiskKernel) (fat_private stream : Addr) (hres : res < 0) :
    (resolveOut d fat_private stream res).2 = res ∧
      (resolveOut d fat_private stream res).1.disk = d.disk ∧
      (resolveOut d fat_private stream res).1.fs_private_ptr = 0 ∧
      ∀ b, b ∈ (resolveOut d fat_private stream res).1.heap.live ↔
        b ∈ d.heap.live ∧ b.base ≠ stream ∧ b.base ≠ fat_private := by
  unfold resolveOut
  dsimp only
  rw [if_pos hres]
  by_cases h0 : stream = 0
  · rw [if_neg (not_not.mpr h0)]
    refine ⟨rfl, rfl, rfl, fun b => mem_free_live.trans ?_⟩
    have hplaced : b ∈ d.heap.live → b.base ≠ stream := fun hb => h0 ▸ (d.heap.placed b hb).1
    tauto
  · rw [if_pos h0]
    refine ⟨rfl, rfl, rfl, fun b => mem_free_live.trans ?_⟩
    refine (and_congr_left' mem_free_live).trans and_assoc

theorem resolveOut_succeeds (d : DiskKernel) (fat_private stream : Addr) (hres : ¬ res < 0) :
    (resolveOut d fat_private stream res).2 = res := by
  unfold resolveOut
  dsimp only
  rw [if_neg hres]

theorem rootDirectory_fails (h : fat16GetRootDirectory k = some (k1, res)) (hres : res ≠ 0) :
    k1.heap.live = k.heap.live ∧ k1.disk = k.disk := by
  obtain ⟨total, pos, -, m, dir, hm, hend⟩ := rootDirectory_cases h
  have hrefused := live_of_refused k.toKmem (32 * rootEntries k)
  rw [hm] at hrefused
  cases hend with
  | refused h0 => exact ⟨hrefused h0, rfl⟩
  | read pos' h0 => exact absurd rfl hres

theorem diskstreamerNew_eq {stream : Addr} (h : kzalloc k.toKmem sizeofDiskStream = (m, stream)) :
    diskstreamerNew k = ({ k with toKmem := m }, stream) := Kernel.onKmem_eq h

def directoryStreamAnswer (m : Kmem) : Addr := (kzalloc (afterStreams m 2) sizeofDiskStream).2

theorem fat16InitPrivate_eq (k : Kernel) :
    fat16InitPrivate k = ({ k with
      toKmem := afterStreams k.toKmem 3
      fs_private := ⟨⟨0, 0, 0, 0, 0⟩, zeroFatDirectory, 0, 0, 0⟩ }, directoryStreamAnswer k.toKmem) := by
  obtain ⟨⟨m1, a1⟩, h1⟩ : ∃ r, kzalloc k.toKmem sizeofDiskStream = r := ⟨_, rfl⟩
  obtain ⟨⟨m2, a2⟩, h2⟩ : ∃ r, kzalloc m1 sizeofDiskStream = r := ⟨_, rfl⟩
  obtain ⟨⟨m3, a3⟩, h3⟩ : ∃ r, kzalloc m2 sizeofDiskStream = r := ⟨_, rfl⟩
  have hstreams : afterStreams k.toKmem 3 = m3 := by simp only [afterStreams, h1, h2, h3]
  have hanswer : directoryStreamAnswer k.toKmem = a3 := by simp only [directoryStreamAnswer, afterStreams, h1, h2, h3]
  rw [hstreams, hanswer]
  unfold fat16InitPrivate
  dsimp only
  rw [diskstreamerNew_eq (k := k.setFs _) h1]
  dsimp only
  rw [diskstreamerNew_eq (k := { k.setFs _ with toKmem := m1 }) h2]
  dsimp only
  rw [diskstreamerNew_eq (k := { k.setFs _ with toKmem := m2 }) h3]
  rfl

theorem rootUnread_eq (h : kzalloc k.toKmem (32 * rootEntries k) = r) :
    ∃ k1, fat16GetRootDirectoryUnread k = (k1, if r.2 = 0 then -ENOMEM else - EIO) ∧
      k1.toKmem = r.1 ∧ k1.disk = k.disk := by
  rw [Nat.mul_comm] at h
  unfold fat16GetRootDirectoryUnread
  dsimp only
  rw [Kernel.onKmem_eq (k := k.setFs _) h]
  exact ⟨_, rfl, rfl, rfl⟩

/-- The stream that the root directory is read through is the disk's. -/
def Readable (d : DiskKernel) (fat_private : Addr) (m : Kmem) : Prop :=
  directoryStreamDisk d.address fat_private (directoryStreamAnswer (afterPrivate d.toKmem)) (headerBytes d m) =
    d.address

instance (d : DiskKernel) (fat_private : Addr) (m : Kmem) : Decidable (Readable d fat_private m) :=
  inferInstanceAs (Decidable (_ = _))

theorem overread_iff {fat_private stream : Addr} (hp : (kzalloc d.toKmem sizeofFatPrivate).2 = fat_private)
    (h : streamAnswer d = (m, stream)) (hs : stream ≠ 0) (hsig : extendedSignature (headerBytes d m) = fat16Signature) :
    Overread d ↔ ¬ Readable d fat_private m := by
  unfold Readable
  constructor
  · intro ho
    have hoem := ho.oem
    rw [h] at hoem
    rw [← hp, ho.volume, show directoryStreamAnswer (afterPrivate d.toKmem) = 0 from ho.directory_stream]
    exact hoem
  · intro hread
    have hboth : fat_private = 0 ∧ directoryStreamAnswer (afterPrivate d.toKmem) = 0 := by
      by_contra hne
      exact hread (if_neg hne)
    rw [hboth.1, hboth.2] at hread
    exact ⟨hp.trans hboth.1, hboth.2, by rw [h]; exact hs, by rw [h]; exact hsig, by rw [h]; exact hread⟩

theorem fat16Resolve_eq {fat_private stream : Addr} (hp : (kzalloc d.toKmem sizeofFatPrivate).2 = fat_private)
    (h : streamAnswer d = (m, stream)) :
    fat16Resolve d =
      if stream = 0 then some (resolveOut ⟨opened d m, fat_private, d.address⟩ fat_private stream (-ENOMEM))
      else if extendedSignature (headerBytes d m) ≠ fat16Signature then
        some (resolveOut ⟨withHeader d m, fat_private, d.address⟩ fat_private stream (-EFSNOTUS))
      else (if Readable d fat_private m then fat16GetRootDirectory (withHeader d m)
          else some (fat16GetRootDirectoryUnread (withHeader d m))).map fun r =>
        resolveOut ⟨r.1, fat_private, d.address⟩ fat_private stream (if r.2 ≠ 0 then - EIO else 0) := by
  have hp : kzalloc d.toKmem sizeofFatPrivate = (afterPrivate d.toKmem, fat_private) := Prod.ext rfl hp
  unfold fat16Resolve
  rw [Kernel.onKmem_eq hp]
  dsimp only
  rw [fat16InitPrivate_eq]
  unfold streamAnswer at h
  generalize hs : afterStreams (afterPrivate d.toKmem) 3 = m3 at h
  have hnew := diskstreamerNew_eq (k := { d.toKernel with
    toKmem := m3
    disk := { d.disk with filesystem := true }
    fs_private := ⟨⟨0, 0, 0, 0, 0⟩, zeroFatDirectory, 0, 0, 0⟩ }) h
  simp only [hnew]
  split
  · rfl
  split
  · rename_i hsig
    rw [if_pos (show extendedSignature (headerBytes d m) ≠ fat16Signature from hsig)]
    rfl
  · rename_i hsig
    rw [if_neg (show ¬ extendedSignature (headerBytes d m) ≠ fat16Signature from hsig), Option.map_eq_bind]
    split
    · rename_i hread
      rw [if_pos (show Readable d fat_private m from hread)]
      rfl
    · rename_i hread
      rw [if_neg (show ¬ Readable d fat_private m from hread)]
      rfl

theorem resolveOut_givesUp {fat_private stream : Addr} {k1 : Kernel} {r : Int}
    (h : resolveOut ⟨k1, fat_private, d.address⟩ fat_private stream r = (d', res))
    (hp : (kzalloc d.toKmem sizeofFatPrivate).2 = fat_private) (hs : (streamAnswer d).2 = stream)
    (hfs : k1.disk.filesystem = true) (hlive : k1.heap.live = m.heap.live) (hr : r < 0) : GivesUp d m d' := by
  obtain ⟨-, hdisk, hptr, hblocks⟩ := resolveOut_fails ⟨k1, fat_private, d.address⟩ fat_private stream hr
  rw [h] at hdisk hptr hblocks
  refine ⟨by rw [hdisk]; exact hfs, hptr, fun b => ?_⟩
  rw [hblocks, hs, hp]
  dsimp only
  rw [hlive]

theorem fat16Resolve_fails (h : fat16Resolve d = some (d', res)) (hneg : res < 0) :
    (Overread d → GivesUp d (bufferAnswer d).1 d') ∧ (¬ Overread d → GivesUp d (streamAnswer d).1 d') := by
  obtain ⟨⟨m, stream⟩, hm⟩ : ∃ r, streamAnswer d = r := ⟨_, rfl⟩
  obtain ⟨fat_private, hp⟩ : ∃ a, (kzalloc d.toKmem sizeofFatPrivate).2 = a := ⟨_, rfl⟩
  have hs : (streamAnswer d).2 = stream := by rw [hm]
  have hheap : (streamAnswer d).1 = m := by rw [hm]
  rw [fat16Resolve_eq hp hm] at h
  rw [hheap]
  split at h
  · rename_i h0
    rw [Option.some.injEq] at h
    exact ⟨fun ho => absurd (hs.trans h0) ho.stream, fun _ => resolveOut_givesUp h hp hs rfl rfl (by decide)⟩
  split at h
  · rename_i hsig
    rw [Option.some.injEq] at h
    exact ⟨fun ho => absurd (hheap ▸ ho.signature) hsig, fun _ => resolveOut_givesUp h hp hs rfl rfl (by decide)⟩
  rename_i hstream hsig
  have hover := overread_iff hp hm hstream (not_not.mp hsig)
  obtain ⟨⟨k1, r⟩, hroot, h⟩ := Option.map_eq_some_iff.mp h
  dsimp only at h
  split at hroot
  · rename_i hread
    refine ⟨fun ho => absurd hread (hover.mp ho), fun _ => ?_⟩
    by_cases hr : r = 0
    · rw [if_neg (not_not.mpr hr)] at h
      have hzero := resolveOut_succeeds ⟨k1, fat_private, d.address⟩ fat_private stream (lt_irrefl (0 : Int))
      rw [h] at hzero
      dsimp only at hzero
      omega
    · rw [if_pos hr] at h
      obtain ⟨hlive, hdisk⟩ := rootDirectory_fails hroot hr
      exact resolveOut_givesUp h hp hs (by rw [hdisk]; rfl) hlive (by decide)
  · rename_i hread
    refine ⟨fun _ => ?_, fun ho => absurd (hover.mpr hread) ho⟩
    have hbuffer : kzalloc (withHeader d m).toKmem (32 * rootEntries (withHeader d m)) = bufferAnswer d := by
      rw [bufferAnswer, hheap]
      rfl
    obtain ⟨k2, hunread, hkmem, hdisk⟩ := rootUnread_eq hbuffer
    rw [hunread, Option.some.injEq, Prod.mk.injEq] at hroot
    obtain ⟨rfl, rfl⟩ := hroot
    rw [if_pos (by split_ifs <;> decide)] at h
    exact resolveOut_givesUp h hp hs (by rw [hdisk]; rfl) (by rw [hkmem]) (by decide)

theorem fat16Resolve_marked (h : fat16Resolve d = some (d', res)) (hneg : res < 0) :
    d'.disk.filesystem = true := by
  by_cases hover : Overread d
  · exact ((fat16Resolve_fails h hneg).1 hover).filesystem
  · exact ((fat16Resolve_fails h hneg).2 hover).filesystem

theorem GivesUp.restored_iff (h : GivesUp d (streamAnswer d).1 d') :
    Restored d d' ↔ d.disk.filesystem = true ∧ d.fs_private_ptr = 0 ∧ NoStreams (afterPrivate d.toKmem) 3 := by
  obtain ⟨hfs, hptr, hblocks⟩ := h
  have hprivate := kzalloc_keeps d.toKmem sizeofFatPrivate
  have hstreams := afterStreams_keeps (afterPrivate d.toKmem) 3
  unfold streamAnswer at hblocks
  constructor
  · rintro ⟨hfs', hptr', hlive⟩
    refine ⟨by rw [← hfs', hfs], by rw [← hptr', hptr], ?_⟩
    by_contra hno
    obtain ⟨a, ⟨size, ha⟩, hnew⟩ := streams_granted hno
    refine hnew ⟨size, hprivate.live _ ((hlive _).mp ((hblocks _).mpr ⟨?_, ?_, ?_⟩))⟩
    · exact (kzalloc_keeps _ _).live _ ha
    · exact base_ne_kzalloc ha sizeofDiskStream
    · intro he
      dsimp only at he
      by_cases h0 : (kzalloc d.toKmem sizeofFatPrivate).2 = 0
      · exact Kmem.live_ne_zero ⟨size, ha⟩ (he.trans h0)
      · exact hnew (he ▸ (kzalloc_fresh h0).isLive)
  · rintro ⟨hfs', hptr', hno⟩
    refine ⟨by rw [hfs, hfs'], by rw [hptr, hptr'], fun b => ?_⟩
    rw [hblocks]
    constructor
    · rintro ⟨hb, hs, hp⟩
      have hb := (mem_live_kzalloc hb).resolve_right hs
      rw [live_of_noStreams hno] at hb
      exact (mem_live_kzalloc hb).resolve_right hp
    · intro hb
      have hb' := hstreams.live _ (hprivate.live _ hb)
      exact ⟨(kzalloc_keeps _ _).live _ hb', base_ne_kzalloc hb' _, base_ne_kzalloc hb _⟩

theorem streamAnswer_keeps (d : DiskKernel) : d.toKmem.Keeps (streamAnswer d).1 := by
  unfold streamAnswer
  exact ((kzalloc_keeps _ _).trans (afterStreams_keeps _ 3)).trans (kzalloc_keeps _ _)

theorem streamAnswer_live (h : (streamAnswer d).2 ≠ 0) : (streamAnswer d).1.heap.Live (streamAnswer d).2 := by
  unfold streamAnswer at h ⊢
  exact (kzalloc_fresh h).isLive

theorem bufferAnswer_eq (d : DiskKernel) : ∃ n, bufferAnswer d = kzalloc (streamAnswer d).1 n := by
  unfold bufferAnswer
  exact ⟨_, rfl⟩

theorem GivesUp.buffer_stays {dir : Addr} (h : GivesUp d m d') (hover : Overread d) (hm : bufferAnswer d = (m, dir))
    (h0 : dir ≠ 0) : ¬ Restored d d' := by
  intro hr
  obtain ⟨n, hn⟩ := bufferAnswer_eq d
  have hfresh := fresh_of_eq (hn.symm.trans hm) h0
  have hstream : dir ≠ (streamAnswer d).2 := by
    rintro rfl
    exact hfresh.not_live (streamAnswer_live hover.stream)
  have hvolume : dir ≠ (kzalloc d.toKmem sizeofFatPrivate).2 := by
    rw [hover.volume]
    exact h0
  have hleft := (h.live ⟨dir, n⟩).mpr ⟨hfresh.mem_live, hstream, hvolume⟩
  exact hfresh.not_live ⟨n, (streamAnswer_keeps d).live _ ((hr.live _).mp hleft)⟩

/-- For every disk, heap and state of the disk: a probe that gives up has undone itself exactly when
the disk was marked before, had no volume, none of the three streams was granted, and no root
directory was given a buffer that its lost stream cannot fill. -/
theorem fat16Resolve_restored_iff (h : fat16Resolve d = some (d', res)) (hneg : res < 0) :
    Restored d d' ↔
      d.disk.filesystem = true ∧ d.fs_private_ptr = 0 ∧ NoStreams (afterPrivate d.toKmem) 3 ∧
        ¬ (Overread d ∧ (bufferAnswer d).2 ≠ 0) := by
  obtain ⟨hlost, hkept⟩ := fat16Resolve_fails h hneg
  by_cases hstays : Overread d ∧ (bufferAnswer d).2 ≠ 0
  · exact iff_of_false ((hlost hstays.1).buffer_stays hstays.1 rfl hstays.2) fun hc => hc.2.2.2 hstays
  · have hgives : GivesUp d (streamAnswer d).1 d' := by
      by_cases hover : Overread d
      · have hrefused : (bufferAnswer d).1.heap.live = (streamAnswer d).1.heap.live := by
          have h0 : (bufferAnswer d).2 = 0 := not_not.mp fun h0 => hstays ⟨hover, h0⟩
          obtain ⟨n, hn⟩ := bufferAnswer_eq d
          rw [hn] at h0 ⊢
          exact live_of_refused _ _ h0
        obtain ⟨hfs, hptr, hlive⟩ := hlost hover
        rw [hrefused] at hlive
        exact ⟨hfs, hptr, hlive⟩
      · exact hkept hover
    rw [hgives.restored_iff, and_iff_left hstays]

/-- A signed image, on a heap that refuses the volume and its streams and then grants what it is asked. -/
def lostDisk : DiskKernel where
  toKernel := { emptyKernel with
    heap := { emptyKmem.heap with answer := fun n => if n < 4 then 0 else emptyKmem.heap.answer n }
    disk := { emptyKernel.disk with sector := fun _ lba i => if lba = 0 ∧ i = 38 then fat16Signature else 0 } }
  fs_private_ptr := 0
  address := 0x10b000

example : (fat16Resolve lostDisk).map (fun r => (r.2, r.1.heap.live.length)) = some (- EIO, 1) := by decide +kernel

def blankDisk : DiskKernel where
  toKernel := { emptyKernel with disk := { emptyKernel.disk with filesystem := false } }
  fs_private_ptr := 0
  address := 0x10b000

theorem resolve_blankDisk : ∃ d', fat16Resolve blankDisk = some (d', -EFSNOTUS) := by
  have h : (fat16Resolve blankDisk).map Prod.snd = some (-EFSNOTUS) := by decide +kernel
  obtain ⟨⟨d', res⟩, h, rfl⟩ := Option.map_eq_some_iff.mp h
  exact ⟨d', h⟩

theorem fat16Resolve_restored_blankDisk : ∃ d', fat16Resolve blankDisk = some (d', -EFSNOTUS) ∧
    (Restored blankDisk d' ↔ blankDisk.disk.filesystem = true ∧ blankDisk.fs_private_ptr = 0 ∧
      NoStreams (afterPrivate blankDisk.toKmem) 3 ∧ ¬ (Overread blankDisk ∧ (bufferAnswer blankDisk).2 ≠ 0)) := by
  obtain ⟨d', h⟩ := resolve_blankDisk
  exact ⟨d', h, fat16Resolve_restored_iff h (by decide)⟩

/-- It is not a volume, and is marked as one. The three streams stay live. -/
theorem blankDisk_not_restored : ∃ d', fat16Resolve blankDisk = some (d', -EFSNOTUS) ∧
    d'.disk.filesystem = true ∧ d'.heap.live.length = 3 ∧ ¬ Restored blankDisk d' := by
  obtain ⟨d', h⟩ := resolve_blankDisk
  have hlive : (fat16Resolve blankDisk).map (fun r => r.1.heap.live.length) = some 3 := by decide +kernel
  have hmarked := fat16Resolve_marked h (by decide)
  rw [h, Option.map_some, Option.some.injEq] at hlive
  refine ⟨d', h, hmarked, hlive, fun hr => ?_⟩
  rw [hr.filesystem] at hmarked
  exact absurd hmarked (by decide)

end MultitaskOs.Resolve
