import MultitaskOs.LoadGranted

/-!
# The address space of a loaded process

What user code of a new process finds at each address: the bytes of its file at
the segments, its stack, and everything else as it lies in memory, to read.
-/

open Lib Lib.Memory Lib.Arena Lib.Run Lib.Mmu MultitaskOs.PathParser MultitaskOs.FatLookup MultitaskOs.Paging
  MultitaskOs.Tasks MultitaskOs.ProcessMemory MultitaskOs.ElfMap MultitaskOs.MapMemory MultitaskOs.LoadSteps
  MultitaskOs.LoadOutcome MultitaskOs.ProcessTable MultitaskOs.Termination MultitaskOs.Translation
  MultitaskOs.LoadedImage MultitaskOs.LoadGranted MultitaskOs.FileType MultitaskOs.FatRead MultitaskOs.Files
  MultitaskOs.Loading MultitaskOs.OpenClose

namespace MultitaskOs.AddressSpace

variable {k k' k1 k2 : Kernel} {s : List Byte} {p t elf stack v : Addr} {m : Kmem} {r : Task} {d : PageDir} {n q : Nat}
  {wp : Bool} {res : Int} {content : List Byte}

/-- What `paging_switch` gives to the processor. -/
def directoryRegister (k : Kernel) (p : Addr) : Addr := load32 k.mem (pageDirectory k p)

/-- Where an access of user code ends up. `enable_paging` sets the top bit of `cr0` and `boot.asm`
the lowest, so the supervisor is not held to the write bits. -/
def userAccess (k : Kernel) (p : Addr) (a : Access) (v : Addr) : Option Addr :=
  Mmu.translate false k.mem (directoryRegister k p) a v

def userByte (k : Kernel) (p v : Addr) : Option Byte := (userAccess k p userRead v).map k.mem

/-! ## The calls of a load -/

theorem remap_mapped (h : Mapped k1 k2 p m t r d) (hready : Ready s k k1 p n)
    (hmap : processMapMemory (withTask k1 p) p = some (k2, res)) (hinside : HeadersInside k2.mem (imageOf k2 p) n)
    (hseg : Segments k2.mem (imageOf k2 p)) : Remap d m.mem k2.mem
      (lastEntry (headerCalls k2.mem (imageOf k2 p) (ePhnum k2.mem (imageOf k2 p)).toNat ++
        [stackCall (k2.procs p).stack])) := by
  rw [h.image] at hinside hseg ⊢
  have hsame := h.sameHeaders hready hinside
  have hn := h.made.task
  obtain ⟨htoKmem, hrecord, -, hdir⟩ := taskMade_withTask h.made
  have hfiles := elfFiles_withTask k1 p
  have hstack : (k2.procs p).stack = ((withTask k1 p).procs p).stack := by rw [h.record, hrecord]
  generalize withTask k1 p = kt at hmap htoKmem hrecord hdir hfiles hstack
  have hmem : kt.mem = m.mem := congrArg Kmem.mem htoKmem
  have hkeeps : k1.toKmem.Keeps kt.toKmem := htoKmem ▸ hn.new.keeps
  have hnew : New k1.toKmem kt.toKmem d 5 := htoKmem ▸ hn.new
  have htable : HeadersInside kt.mem (imageOf k1 p) n := hmem ▸ HeadersInside.agree hinside hsame
  have hvalid : elfValidateLoaded kt.mem (imageOf k1 p) = 0 := hmem ▸ h.accepted hready
  have hself : HasElf k1.toKmem kt p (imageOf k1 p) n := by
    refine ⟨by rw [hrecord]; exact hready.filetype, ?_, hvalid, hready.image, fun b hb hnot i hi => ?_⟩
    · rw [Process.elf_file, hrecord, hfiles]
      rfl
    · exact headers_inside hkeeps hready.image (ePhoff_ne_zero (not_lt.mpr hvalid.ge)) htable.table hb hnot hi
  obtain ⟨m3, hmap3, hr⟩ := processMapMemory_remap hdir hnew hself (hmem ▸ Segments.agree hseg hsame)
  obtain ⟨hk2, -⟩ := Prod.mk.inj (Option.some.inj (hmap.symm.trans hmap3))
  have hmem3 : m3 = k2.mem := (congrArg (fun k : Kernel => k.mem) hk2).symm
  rwa [← hstack, hmem, hsame.calls, hmem3] at hr

/-! ## What the entries grant -/

theorem grants_directory (wp : Bool) : grants wp userRead (directoryFlags 5) = true ∧
    grants wp userWrite (directoryFlags 5) = true := by
  cases wp <;> decide

theorem grants_userWriteable (wp : Bool) : grants wp userRead pagingUserWriteable = true ∧
    grants wp userWrite pagingUserWriteable = true := by
  cases wp <;> decide

/-- The tables begin with pages that are there for all, and nobody may write. -/
theorem grants_identity (wp : Bool) : grants wp userRead 5 = true ∧ grants wp userWrite 5 = false := by
  cases wp <;> decide

theorem grants_phdrFlags (wp : Bool) (m : Mem) (phdr : Addr) : grants wp userRead (phdrFlags m phdr) = true ∧
    (grants wp userWrite (phdrFlags m phdr) = true ↔ pFlags m phdr &&& pfW ≠ 0) := by
  unfold phdrFlags
  dsimp only
  split_ifs with h
  · exact ⟨by cases wp <;> decide, iff_of_true (by cases wp <;> decide) h⟩
  · exact ⟨by cases wp <;> decide, iff_of_false (by cases wp <;> decide) h⟩

theorem translate_place (hd : d.Holds k.mem) (hp : Points d k.mem 5) {a : Access} {base virt flags : BitVec 32}
    (hdir : grants wp a (directoryFlags 5) = true) (hbase : base.toNat % 4096 = virt.toNat % 4096)
    (hf : flags.toNat < 4096)
    (he : d.entry k.mem (v.toNat / 4096) = (base + (BitVec.ofNat 32 (4096 * (v.toNat / 4096)) - virt)) ||| flags) :
    Mmu.translate wp k.mem d.directory a v = if grants wp a flags then some (base + (v - virt)) else none := by
  rw [translate_pageDir hd hp, hdir, Bool.true_and, he, grants_or (frame_aligned hbase),
    pagingGetPhysicalAddress_spec hd, he, tableAddress_or (frame_aligned hbase) hf]
  congr 2
  apply place_add
  apply BitVec.eq_of_toNat_eq
  rw [BitVec.toNat_add, BitVec.toNat_ofNat, toNat_umod_page]
  omega

/-! ## The whole view -/

/-- What user code of `p` finds: the file where the program headers put it, its stack, and every other
page as it lies in memory, to read. It begins at the entry point of the file, on top of the stack. -/
structure UserView (k : Kernel) (p : Addr) (content : List Byte) : Prop where
  image : readBytes k.mem (imageOf k p) content.length = content
  segment : ∀ i < (ePhnum k.mem (imageOf k p)).toNat, ∀ v,
    let phdr := elfProgramHeader k.mem (imageOf k p) i
    let offset := (pOffset k.mem phdr + (v - pVaddr k.mem phdr)).toNat
    InSegment k.mem phdr v → (offset < content.length → userByte k p v = content[offset]?) ∧
      ((userAccess k p userWrite v).isSome ↔ pFlags k.mem phdr &&& pfW ≠ 0)
  stack : ∀ v, Within programVirtualStackAddressEnd userProgramStackSize v → ∀ a ∈ [userRead, userWrite],
    userAccess k p a v = some ((k.procs p).stack + (v - programVirtualStackAddressEnd))
  other : ∀ v : Addr, (∀ i < (ePhnum k.mem (imageOf k p)).toNat,
      ¬ Touches k.mem (elfProgramHeader k.mem (imageOf k p) i) (v.toNat / 4096)) → ¬ StackPage (v.toNat / 4096) →
    userAccess k p userRead v = some v ∧ userAccess k p userWrite v = none
  registers : (k.tasks (k.procs p).task).registers =
    { zeroRegisters with
      ip := eEntry k.mem (imageOf k p)
      ss := userDataSegment
      cs := userCodeSegment
      esp := programVirtualStackAddressStart }

theorem byte_of_readBytes {m : Mem} {a x : Addr} (h : readBytes m a content.length = content)
    (hx : x.toNat < content.length) : m (a + x) = content[x.toNat] := by
  have hlen : x.toNat < (readBytes m a content.length).length := by rwa [length_readBytes]
  have hbyte : (readBytes m a content.length)[x.toNat] = m (a + x) := by simp [readBytes]
  rw [← hbyte]
  exact List.getElem_of_eq h hlen

theorem stackPage_of_within (h : Within programVirtualStackAddressEnd userProgramStackSize v) :
    StackPage (v.toNat / 4096) := by
  have hstart : programVirtualStackAddressEnd.toNat = 0x3FB000 := by decide
  have hsize : userProgramStackSize = 16384 := rfl
  unfold Within at h
  unfold StackPage
  constructor <;> bv_omega

theorem registers_mapped (h : Mapped k1 k2 p m t r d) (hready : Ready s k k1 p n) :
    (k2.tasks (k2.procs p).task).registers =
      { zeroRegisters with
        ip := eEntry k2.mem (imageOf k2 p)
        ss := userDataSegment
        cs := userCodeSegment
        esp := programVirtualStackAddressStart } := by
  have hentry : eEntry m.mem (imageOf k1 p) = eEntry k2.mem (imageOf k1 p) := by
    refine ((h.image_agree hready).sub ?_).load32
    have hpage : 4096 ≤ extent blockSize n := le_extent n
    bv_omega
  rw [h.record, h.tasks, @taskLink_field _ Task.registers (fun _ _ => rfl) (fun _ _ => rfl)]
  dsimp only
  rw [Function.update_self, h.made.registers, initialRegisters, if_pos hready.filetype, h.image, ← hentry]
  rfl

theorem mapped_stackAt (h : Mapped k1 k2 p m t r d) (hready : Ready s k k1 p n)
    (hroom : (k2.procs p).stack.toNat + userProgramStackSize < 2 ^ 32) : StackAt (k2.procs p).stack := by
  refine ⟨?_, hroom⟩
  rw [h.record]
  exact Kmem.live_aligned ⟨_, hready.stack⟩

theorem mapped_stack {a : Access} (h : Mapped k1 k2 p m t r d) (hready : Ready s k k1 p n)
    (hr : Remap d m.mem k2.mem
      (lastEntry (headerCalls k2.mem (imageOf k2 p) (ePhnum k2.mem (imageOf k2 p)).toNat ++
        [stackCall (k2.procs p).stack])))
    (hseg : Segments k2.mem (imageOf k2 p)) (hroom : (k2.procs p).stack.toNat + userProgramStackSize < 2 ^ 32)
    (hv : Within programVirtualStackAddressEnd userProgramStackSize v) (ha : a ∈ [userRead, userWrite]) :
    userAccess k2 p a v = some ((k2.procs p).stack + (v - programVirtualStackAddressEnd)) := by
  have haligned : (imageOf k2 p).toNat % 4096 = 0 := h.image ▸ Kmem.live_aligned ⟨_, h.keeps.live _ hready.image⟩
  have hstack := mapped_stackAt h hready hroom
  have hpoints := h.made.points.remap hr
  have hlt : v.toNat / 4096 < 2 ^ 20 := by omega
  obtain ⟨hread, hwrite⟩ := grants_directory false
  have he := hr.entry _ hlt
  rw [(hseg.lastEntry_page haligned hstack hlt).2.1 (stackPage_of_within hv), Option.getD_some] at he
  have hbase := hstack.aligned.trans (show 0 = programVirtualStackAddressEnd.toNat % 4096 by decide)
  rw [userAccess, directoryRegister, h.directory, hr.holds.chunk]
  rcases List.mem_pair.mp ha with rfl | rfl
  · rw [translate_place hr.holds hpoints hread hbase (by decide) he, if_pos (grants_userWriteable false).1]
  · rw [translate_place hr.holds hpoints hwrite hbase (by decide) he, if_pos (grants_userWriteable false).2]

/-- For every image with segments on pages of their own: user code finds its file, its stack, and the
rest of memory to read. -/
theorem mapped_view (h : Mapped k1 k2 p m t r d) (hready : Ready s k k1 p n)
    (hr : Remap d m.mem k2.mem
      (lastEntry (headerCalls k2.mem (imageOf k2 p) (ePhnum k2.mem (imageOf k2 p)).toNat ++
        [stackCall (k2.procs p).stack])))
    (hseg : Segments k2.mem (imageOf k2 p)) (hroom : (k2.procs p).stack.toNat + userProgramStackSize < 2 ^ 32)
    (hbytes : readBytes k2.mem (imageOf k2 p) content.length = content) : UserView k2 p content := by
  have hlive := h.keeps.live _ hready.image
  have ha : (imageOf k2 p).toNat % 4096 = 0 := h.image ▸ Kmem.live_aligned ⟨_, hlive⟩
  have hstack := mapped_stackAt h hready hroom
  have hdir : directoryRegister k2 p = d.directory := by
    rw [directoryRegister, h.directory, hr.holds.chunk]
  have hpoints := h.made.points.remap hr
  have hlt : ∀ v : Addr, v.toNat / 4096 < 2 ^ 20 := fun v => by omega
  obtain ⟨hread, hwrite⟩ := grants_directory false
  refine ⟨hbytes, fun i hi v => ?_, fun v hv a haccess => ?_, fun v hnone hpage => ?_, registers_mapped h hready⟩
  · intro phdr offset hv
    rw [userByte, userAccess, userAccess, hdir]
    have he := hr.entry _ (hlt v)
    rw [(hseg.lastEntry_page ha hstack (hlt v)).1 i hi ⟨v, rfl, hv⟩, Option.getD_some] at he
    have hbase := ((hseg.mappable i hi).bounds ha).2.1
    obtain ⟨hgr, hgw⟩ := grants_phdrFlags false k2.mem phdr
    rw [translate_place hr.holds hpoints hread hbase (phdrFlags_lt _ _) he,
      translate_place hr.holds hpoints hwrite hbase (phdrFlags_lt _ _) he, if_pos hgr]
    refine ⟨fun ho => ?_, by rw [← hgw, Option.isSome_ite]⟩
    rw [Option.map_some, BitVec.add_assoc, List.getElem?_eq_getElem ho, byte_of_readBytes hbytes ho]
  · exact mapped_stack h hready hr hseg hroom hv haccess
  · have he := hr.entry _ (hlt v)
    rw [(hseg.lastEntry_page ha hstack (hlt v)).2.2 hnone hpage, Option.getD_none,
      h.made.task.new.entry _ (hlt v)] at he
    -- the page goes to itself: a range from 0 to 0
    have hzero (x : BitVec 32) : 0 + (x - 0) = x := by simp
    rw [← hzero (BitVec.ofNat 32 (4096 * (v.toNat / 4096)))] at he
    rw [userAccess, userAccess, hdir, translate_place hr.holds hpoints hread rfl (by decide) he,
      translate_place hr.holds hpoints hwrite rfl (by decide) he, if_pos (grants_identity false).1,
      if_neg (by rw [(grants_identity false).2]; decide), hzero]
    exact ⟨rfl, rfl⟩

theorem mapped_of_load (h : LoadsImage k s k' p) (hseg : Segments k'.mem (imageOf k' p)) :
    ∃ k1 k2 m t r d n slot, Mapped k1 k2 p m t r d ∧ Ready s k k1 p n ∧ k' = withEntry k2 slot p ∧
      Remap d m.mem k2.mem (lastEntry (headerCalls k2.mem (imageOf k2 p) (ePhnum k2.mem (imageOf k2 p)).toNat ++
        [stackCall (k2.procs p).stack])) := by
  obtain ⟨slot, k1, k2, n, res, -, -, hready, htask, hmap, -, rfl⟩ := h.steps
  obtain ⟨m, t, r, d, hmapped⟩ := mapped_of_map htask hmap
  have himage : (⟨imageOf k2 p, n⟩ : Block) ∈ k2.heap.live := by
    rw [hmapped.image]
    exact hmapped.keeps.live _ hready.image
  exact ⟨k1, k2, m, t, r, d, n, slot, hmapped, hready, rfl, remap_mapped hmapped hready hmap (h.inside n himage) hseg⟩

/-- For every volume, file and heap: a load that is granted all makes a process whose user code finds
the file that the path names, in place. -/
theorem userView_of_load (h : LoadsImage k s k' p) (hsec : k.disk.sector_size = 512) (hspc : 0 < clusterBytes k)
    (hseg : Segments k'.mem (imageOf k' p)) (hroom : (k'.procs p).stack.toNat + userProgramStackSize < 2 ^ 32) :
    ∃ e, loadedEntry k s = some e ∧ (∀ root, RootDirectory k root → Names s root e) ∧
      ∀ content, HoldsFile k e content → UserView k' p content := by
  obtain ⟨k1, k2, m, t, r, d, n, slot, hmapped, hready, rfl, hr⟩ := mapped_of_load h hseg
  obtain ⟨e, hentry, hnames, hcontent⟩ := hready.content hsec hspc
  refine ⟨e, hentry, hnames, fun content hholds => ?_⟩
  obtain ⟨rfl, hbytes⟩ := hcontent content hholds
  have hkept : readBytes k2.mem (imageOf k2 p) content.length = content := by
    rw [hmapped.image]
    exact (hmapped.keeps.readBytes_eq hready.image).trans hbytes
  have hview := mapped_view hmapped hready hr hseg hroom hkept
  exact ⟨hview.image, hview.segment, hview.stack, hview.other, hview.registers⟩

/-! ## A file with one segment -/

/-- A header with one program header behind it, which maps both to be written. -/
def segmentFile : List Byte := wordBytes (elfWords 0)

def segmentVolume : Kernel := volumeOf segmentFile

theorem loadable_segmentFile : Loadable segmentFile := by
  refine ⟨⟨by decide, by decide +kernel⟩, fun mem elf ha hend hbytes => ?_⟩
  have hwords : HasWords mem elf (elfWords 0) := hasWords_of_readBytes hbytes
  exact ⟨segments_of_words hwords ha hend, hwords.headersInside⟩

theorem finds_segmentFile :
    Finds segmentVolume [fileEntry segmentFile] pathA (fileEntry segmentFile) segmentFile := by
  have hnamed : WellNamed (fileEntry segmentFile) := ⟨by decide, by decide, by decide, by decide⟩
  exact finds_volumeOf (by decide) (by decide)
    (rootDirectory_singleton hnamed rfl (by decide +kernel) (by decide +kernel))
    rfl (by unfold IsDirectory; decide)

theorem segmentVolume_loads : ∃ k, LoadsImage segmentVolume pathA k 0xC000 ∧ Segments k.mem (imageOf k 0xC000) ∧
    (k.procs 0xC000).stack.toNat + userProgramStackSize < 2 ^ 32 ∧
    Finds k [fileEntry segmentFile] pathA (fileEntry segmentFile) segmentFile ∧
    Spare k.toKmem (2 ^ 17 + 1 + loadRequests) ∧ freeProcess k = some 1 := by
  have hslot : freeProcess segmentVolume = some 0 := by decide
  have hspare : Spare segmentVolume.toKmem (2 ^ 17 + 1 + loadRequests + loadRequests) := spare_volumeOf _ (by decide)
  obtain ⟨k, p, hp, hload, hseg, hroom, hfound, hleft, hprocesses⟩ :=
    load_found finds_segmentFile loadable_segmentFile hslot hspare (by omega)
  obtain rfl : p = 0xC000 := hp.trans (by decide +kernel)
  refine ⟨k, hload, hseg, hroom, hfound, hleft, ?_⟩
  unfold freeProcess
  rw [hprocesses]
  decide

/-- User code finds the whole file. -/
theorem userView_of_segmentVolume : ∃ k, LoadsImage segmentVolume pathA k 0xC000 ∧
    loadedEntry segmentVolume pathA = some (fileEntry segmentFile) ∧ UserView k 0xC000 segmentFile := by
  obtain ⟨k, hload, hseg, hroom, -⟩ := segmentVolume_loads
  obtain ⟨e, hentry, -, hview⟩ := userView_of_load hload rfl (by decide +kernel) hseg hroom
  have hfound : loadedEntry segmentVolume pathA = some (fileEntry segmentFile) := by decide +kernel
  obtain rfl := Option.some.inj (hentry.symm.trans hfound)
  exact ⟨k, hload, hfound, hview segmentFile (holdsFile_volumeOf (by decide) (by decide))⟩

end MultitaskOs.AddressSpace
