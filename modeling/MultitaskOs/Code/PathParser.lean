import MultitaskOs.Code.Kernel
import MultitaskOs.Code.String

/-!
# `fs/pparser.c`

`none` is a read past the end of the path.
-/

open Lib Lib.Memory

namespace MultitaskOs

def sizeofPathRoot : Nat := 8
def sizeofPathPart : Nat := 8

def slash : Byte := 0x2f
def colon : Byte := 0x3a

def pathparserPathValidFormat (filename : CharPtr) : Option Bool := do
  let len ← strnlen filename maxPath
  if len < 3 then return false
  let c ← filename.head?
  if !isdigit c then return false
  return (← memcmp filename.tail [colon, slash] 2) == 0

/-- The drive or the error, and where the path goes on. -/
def pathparserGetDriveByPath (path : CharPtr) : Option (Int × CharPtr) := do
  if !(← pathparserPathValidFormat path) then return (-EBADPATH, path)
  let c ← path.head?
  return (tonumericdigit c, path.drop 3)

def Kernel.setRoot (k : Kernel) (root : Addr) (f : PathRoot → PathRoot) : Kernel :=
  { k with pathRoots := Function.update k.pathRoots root (f (k.pathRoots root)) }

def Kernel.setPart (k : Kernel) (part : Addr) (f : PathPart → PathPart) : Kernel :=
  { k with pathParts := Function.update k.pathParts part (f (k.pathParts part)) }

def pathparserCreateRoot (k : Kernel) (drive_number : Int) : Kernel × Addr :=
  let (k, path_r) := k.onKmem (kzalloc · sizeofPathRoot)
  (k.setRoot path_r fun _ => ⟨drive_number, 0⟩, path_r)

/-- The copying loop: the memory, where the path goes on, and `i`. -/
def getPathPartLoop (result_path_part : Addr) : CharPtr → Nat → Mem → Option (Mem × CharPtr × Nat)
  | [], _, _ => none
  | c :: path, i, m =>
    if c ≠ slash ∧ c ≠ 0 then
      getPathPartLoop result_path_part path (i + 1) (store8 m (result_path_part + BitVec.ofNat 32 i) c)
    else some (m, c :: path, i)

def pathparserGetPathPart (k : Kernel) (path : CharPtr) : Option (Kernel × Addr × CharPtr) := do
  let (k, result_path_part) := k.onKmem (kzalloc · maxPath)
  let (mem, path, i) ← getPathPartLoop result_path_part path 0 k.mem
  let k := { k with mem }
  let c ← path.head?
  -- skip the forward slash
  let path := if c = slash then path.tail else path
  if i = 0 then return ((k.onKmem fun m => (kfree m result_path_part, ())).1, 0, path)
  return (k, result_path_part, path)

def pathparserParsePathPart (k : Kernel) (last_part : Addr) (path : CharPtr) :
    Option (Kernel × Addr × CharPtr) := do
  let (k, path_part_str, path) ← pathparserGetPathPart k path
  if path_part_str = 0 then return (k, 0, path)
  let (k, part) := k.onKmem (kzalloc · sizeofPathPart)
  let k := k.setPart part fun _ => ⟨path_part_str, 0⟩
  let k := if last_part ≠ 0 then k.setPart last_part fun p => { p with next := part } else k
  return (k, part, path)

/-- `while(part)`, for at most `n` turns. -/
def parsePartsLoop : Nat → Kernel → Addr → CharPtr → Option Kernel
  | 0, _, _, _ => none
  | n + 1, k, part, path =>
    if part = 0 then some k
    else do
      let (k, part, path) ← pathparserParsePathPart k part path
      parsePartsLoop n k part path

/-- The root, or NULL. A turn of the loop takes at least a byte of the path. -/
def pathparserParse (k : Kernel) (path : CharPtr) : Option (Kernel × Addr) := do
  let len ← strlen path
  if len > maxPath then return (k, 0)
  let (res, tmp_path) ← pathparserGetDriveByPath path
  if res < 0 then return (k, 0)
  let (k, path_root) := pathparserCreateRoot k res
  if path_root = 0 then return (k, 0)
  let (k, first_part, tmp_path) ← pathparserParsePathPart k 0 tmp_path
  if first_part = 0 then return (k, path_root)
  let k := k.setRoot path_root fun r => { r with first := first_part }
  let (k, part, tmp_path) ← pathparserParsePathPart k first_part tmp_path
  let k ← parsePartsLoop (tmp_path.length + 2) k part tmp_path
  return (k, path_root)

/-- `while(part)` of `pathparser_free`, for at most `n` turns. -/
def pathparserFreeLoop : Nat → Kernel → Addr → Option Kernel
  | 0, _, _ => none
  | n + 1, k, part =>
    if part = 0 then some k
    else
      let next_part := (k.pathParts part).next
      let (k, _) := k.onKmem fun m => (kfree m (k.pathParts part).part, ())
      let (k, _) := k.onKmem fun m => (kfree m part, ())
      pathparserFreeLoop n k next_part

/-- Nothing says that the list ends, so the loop is given a number of turns. -/
def pathparserFree (turns : Nat) (k : Kernel) (root : Addr) : Option Kernel := do
  let k ← pathparserFreeLoop turns k (k.pathRoots root).first
  return (k.onKmem fun m => (kfree m root, ())).1

end MultitaskOs
