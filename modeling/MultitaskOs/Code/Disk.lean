import MultitaskOs.Code.Kernel

/-!
# `disk/disk.c`, `disk/streamer.c`

There is one disk, and no read of a sector fails: every status here is 0.
-/

open Lib.Memory

namespace MultitaskOs

/-- One sector, by the values that the ports are given. -/
def diskReadSector (disk : Disk) (lba : Int) : Nat → Byte :=
  let lba := BitVec.ofInt 32 lba
  disk.sector ((lba.sshiftRight 24 ||| 0xE0).setWidth 8) (lba.setWidth 24)

def diskGet (index : Int) : Bool := index == 0

def streamerBuf (disk : Disk) (sector i : Int) : Byte :=
  if 0 ≤ i ∧ i < sectorSize then diskReadSector disk sector i.toNat else disk.around i

def diskstreamerRead (disk : Disk) (pos total : Int) : List Byte × Int :=
  let sector := pos.tdiv sectorSize
  let offset := pos.tmod sectorSize
  if sectorSize ≤ offset + total then
    let total_to_read := total - (offset + total - sectorSize)
    let bytes := (List.range total_to_read.toNat).map fun (i : Nat) => streamerBuf disk sector (offset + i)
    let (rest, pos) := diskstreamerRead disk (toInt32 (pos + total_to_read)) (total - total_to_read)
    (bytes ++ rest, pos)
  else
    ((List.range total.toNat).map fun (i : Nat) => streamerBuf disk sector (offset + i), toInt32 (pos + total))
termination_by total.toNat
decreasing_by
  have h := Int.tmod_lt_of_pos pos (show (0 : Int) < sectorSize by decide)
  have hs : sectorSize = 512 := rfl
  omega

end MultitaskOs
