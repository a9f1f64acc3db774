import MultitaskOs.Code.Disk

/-!
# `diskstreamer_read`, with all that it does

`diskstreamerRead` gives the bytes and the position alone. Here the call stores
to memory, and keeps the sectors that it asks for.
-/

open Lib.Memory

namespace MultitaskOs

/-- The disk of a stream is always `&disk`, so nothing is refused. -/
def diskReadBlock (disk : Disk) (lba : Int) : Int × (Nat → Byte) := (0, diskReadSector disk lba)

structure StreamerCall where
  res : Int
  mem : Mem
  pos : Int
  /-- What `disk_read_block` is asked for, in order. -/
  sectors : List Int

def diskstreamerCall (disk : Disk) (m : Mem) (pos : Int) (out : Addr) (total : Int) : StreamerCall :=
  let sector := pos.tdiv sectorSize
  let offset := pos.tmod sectorSize
  let total_to_read := if sectorSize ≤ offset + total then total - (offset + total - sectorSize) else total
  let (res, buf) := diskReadBlock disk sector
  if res < 0 then ⟨res, m, pos, [sector]⟩
  else
    let m := storeBytes m out ((List.range total_to_read.toNat).map fun (i : Nat) =>
      if 0 ≤ offset + i ∧ offset + i < sectorSize then buf (offset + i).toNat else disk.around (offset + i))
    let next := toInt32 (pos + total_to_read)
    if sectorSize ≤ offset + total then
      let call := diskstreamerCall disk m next (out + BitVec.ofInt 32 total_to_read) (total - total_to_read)
      { call with sectors := sector :: call.sectors }
    else ⟨res, m, next, [sector]⟩
termination_by total.toNat
decreasing_by
  have h := Int.tmod_lt_of_pos pos (show (0 : Int) < sectorSize by decide)
  have hs : sectorSize = 512 := rfl
  split <;> omega

end MultitaskOs
