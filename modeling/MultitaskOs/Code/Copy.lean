import MultitaskOs.Code.Task
import MultitaskOs.Lib.CString

/-!
# `strncpy` in memory, and `copy_string_from_task`
-/

open Lib Lib.Memory Lib.CString

namespace MultitaskOs

/-- `reach` says where an address leads in the directory the processor has loaded. -/
def strncpyMem (reach : Mem → Addr → Addr) (m : Mem) (dest src : Addr) (count : Int) : Mem :=
  copyLoop (fun m i => m (reach m (src + BitVec.ofNat 32 i))) (fun m i => reach m (dest + BitVec.ofNat 32 i))
    (count - 1).toNat 0 m

/-- The kernel's own directory maps every page to itself. -/
def kernelPages (_ : Mem) (a : Addr) : Addr := a

theorem strncpyMem_apart {m : Mem} {dest src : Addr} {count : Int} (hcount : count < 2 ^ 31)
    (hapart : ∀ i < (count - 1).toNat, i ≤ (textAt m src (count - 1).toNat).length →
      ¬ Within dest ((count - 1).toNat + 1) (src + BitVec.ofNat 32 i)) :
    strncpyMem kernelPages m dest src count = storeBytes m dest (textAt m src (count - 1).toNat ++ [0]) :=
  (reads_textAt hapart).copyLoop (by omega) fun _ _ => rfl

theorem strncpyMem_of_not_within {m : Mem} {dest src x : Addr} {count : Int} (hpos : 0 < count)
    (hcount : count < 2 ^ 31) (hx : ¬ Within dest count.toNat x) : strncpyMem kernelPages m dest src count x = m x := by
  have hcopy : ∃ s, Reads (fun m i => m (src + BitVec.ofNat 32 i)) m dest (count - 1).toNat s ∧
      strncpyMem kernelPages m dest src count = storeBytes m dest (s ++ [0]) :=
    copyLoop_spec _ (by omega) fun _ _ => rfl
  obtain ⟨s, hs, hcopy⟩ := hcopy
  have hlen := hs.length_le
  rw [hcopy]
  refine storeBytes_of_not_within fun hw => hx ?_
  unfold Within at *
  rw [List.length_append, List.length_singleton] at hw
  omega

/-- The processor walks a directory as `paging_get_physical_address` does. -/
def userPages (directory : Addr) (m : Mem) (a : Addr) : Addr := pagingGetPhysicalAddress m directory a

def copyStringFromTask (k : Kernel) (task virt phys : Addr) (max : Int) : Kernel × Int :=
  if max ≥ pagingPageSize then (k, -EINVARG)
  else
    let (k, tmp) := k.onKmem (kzalloc · (BitVec.ofInt 32 max).toNat)
    if tmp = 0 then (k, -ENOMEM)
    else
      let page_directory := (k.tasks task).page_directory
      let task_directory := load32 k.mem page_directory
      let old_entry := pagingGet k.mem task_directory tmp
      let (mem, _) := pagingMap k.mem page_directory tmp tmp
        (pagingIsWriteable ||| pagingIsPresent ||| pagingAccessFromAll)
      let mem := strncpyMem (userPages (load32 mem page_directory)) mem tmp virt max
      let (mem, res) := pagingSet mem task_directory tmp old_entry
      if res < 0 then ((({ k with mem } : Kernel).onKmem fun m => (kfree m tmp, ())).1, - EIO)
      else
        let mem := strncpyMem kernelPages mem phys tmp max
        ((({ k with mem } : Kernel).onKmem fun m => (kfree m tmp, ())).1, res)

end MultitaskOs
