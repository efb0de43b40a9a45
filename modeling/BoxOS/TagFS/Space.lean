import BoxOS.Lib.Extents
import BoxOS.TagFS.Dedup

/-!
# The free space of a volume

`g_state.block_bitmap` and `ledger.free_blocks`: one bit per data block (set when the block is taken), the list of free
extents, its length, and the number of free blocks. `mountSpace` is the part of `tagfs_init` that builds them from the
bitmap on the medium; `allocBlocksInternal`, `freeRunLocked` and `freeBlocksInternal` change them afterwards.

Block numbers are 32-bit in the source. The only addition that can leave 32 bits inside a volume is the `i + 8` of
`free_list_build`, which is written with its wrap-around.
-/

namespace BoxOS.TagFS

open Lib

/-- `FreeExtent`, without its link: the list carries the order. -/
abbrev FreeExtent := Extent

/-- `BlockBitmap` and the ledger's `free_blocks`. -/
structure Space where
  bitmap : List UInt8
  totalBlocks : Nat
  freeList : List FreeExtent
  extentCount : Nat
  freeBlocks : Nat
deriving DecidableEq, Repr

def bitmapTestBit (bitmap : List UInt8) (bit : Nat) : Bool := testBit8 bitmap bit

/-! ## Mount -/

/-- The two inner loops of `free_list_build`: from `i`, past the blocks whose bit is `used`, eight at a time where a
whole byte of them is aligned and inside the volume. -/
def skipRun (used : Bool) (bitmap : List UInt8) (total : Nat) : Nat → Nat → Option Nat
  | 0, _ => none
  | fuel + 1, i =>
    if i < total then
      if i % 8 = 0 ∧ (i + 8) % 2 ^ 32 ≤ total ∧ bitmap.getD (i / 8) 0 = (if used then 0xFF else 0) then
        skipRun used bitmap total fuel ((i + 8) % 2 ^ 32)
      else if bitmapTestBit bitmap i = used then
        skipRun used bitmap total fuel (i + 1)
      else some i
    else some i

/-- The outer loop of `free_list_build`, appending to the list built so far. -/
def buildLoop (bitmap : List UInt8) (total : Nat) :
    Nat → Nat → List FreeExtent → Nat → Option (List FreeExtent × Nat)
  | 0, _, _, _ => none
  | fuel + 1, i, list, extentCount =>
    if i < total then do
      let start ← skipRun true bitmap total (total + 1) i
      if start ≥ total then return (list, extentCount)
      else do
        let i ← skipRun false bitmap total (total + 1) start
        buildLoop bitmap total fuel i (list ++ [⟨start, i - start⟩]) (extentCount + 1)
    else return (list, extentCount)

variable (s : Space)

/-- `free_list_build`; `none` when its loops do not end within one pass over the volume. -/
def freeListBuild : Option Space := do
  let (list, extentCount) ← buildLoop s.bitmap s.totalBlocks (s.totalBlocks + 1) 0 [] 0
  return { s with freeList := list, extentCount := extentCount }

def countFreeBlocks (bitmap : List UInt8) (dataBlocks : Nat) : Nat :=
  (List.range dataBlocks).countP (fun b => !bitmapTestBit bitmap b)

/-- `bitmap_bytes` of `tagfs_init`, in 32 bits. -/
def bitmapBytes (dataBlocks : Nat) : Nat := (dataBlocks + 7) % 2 ^ 32 / 8

/-- The free space of a volume of `dataBlocks` blocks whose bitmap on the medium is `onDisk`: `tagfs_init` refuses an
empty data run and a bitmap of no bytes (`kmalloc(0)` gives nothing). -/
def mountSpace (dataBlocks : Nat) (onDisk : Nat → UInt8) : Option Space :=
  if dataBlocks = 0 ∨ bitmapBytes dataBlocks = 0 then none
  else do
    let bitmap := (List.range (bitmapBytes dataBlocks)).map onDisk
    let s ← freeListBuild ⟨bitmap, dataBlocks, [], 0, 0⟩
    return { s with freeBlocks := countFreeBlocks s.bitmap dataBlocks }

/-! ## Taking and giving back blocks -/

/-- The walk of `tagfs_alloc_blocks_internal`: the first extent with `count` blocks, and the list after taking them
off its front. -/
def firstFit (count : Nat) : List FreeExtent → Option (FreeExtent × List FreeExtent)
  | [] => none
  | cur :: rest =>
    if count ≤ cur.count then
      some (cur, if cur.count = count then rest else ⟨cur.start + count, cur.count - count⟩ :: rest)
    else (firstFit count rest).map (fun r => (r.1, cur :: r.2))

/-- `tagfs_alloc_blocks_internal`: the first block of the run taken. -/
def Space.allocBlocksInternal (count : Nat) : Option (Nat × Space) :=
  match firstFit count s.freeList with
  | none => none
  | some (cur, list) =>
    some (cur.start,
      { s with
        bitmap := setRun s.bitmap cur.start count
        freeList := list
        extentCount := if cur.count = count then s.extentCount - 1 else s.extentCount
        freeBlocks := if count ≤ s.freeBlocks then s.freeBlocks - count else s.freeBlocks })

/-- `tagfs_alloc_blocks`. -/
def Space.allocBlocks (count : Nat) : Option (Nat × Space) :=
  if count = 0 then none else s.allocBlocksInternal count

/-- The free list and its length with a run given back: `prev` is the last extent that starts before the run, `cur` the
one after it; either is merged with the run when it touches it. -/
def insertRun (list : List FreeExtent) (extentCount start count : Nat) : List FreeExtent × Nat :=
  let before := list.takeWhile (fun e => e.start < start)
  let after := list.dropWhile (fun e => e.start < start)
  let mergeRight := after.head?.filter (fun cur => cur.start = start + count)
  let mergeLeft := before.getLast?.filter (fun prev => prev.start + prev.count = start)
  match mergeLeft, mergeRight with
  | some prev, some cur =>
    (before.dropLast ++ ⟨prev.start, prev.count + (count + cur.count)⟩ :: after.tail, extentCount - 1)
  | some prev, none => (before.dropLast ++ ⟨prev.start, prev.count + count⟩ :: after, extentCount)
  | none, some cur => (before ++ ⟨start, cur.count + count⟩ :: after.tail, extentCount)
  | none, none => (before ++ ⟨start, count⟩ :: after, extentCount + 1)

/-- `free_run_locked`, with memory for a new extent. -/
def Space.freeRunLocked (start count : Nat) : Space :=
  if count = 0 then s
  else
    { s with
      bitmap := clearRun s.bitmap start count
      freeBlocks := s.freeBlocks + count
      freeList := (insertRun s.freeList s.extentCount start count).1
      extentCount := (insertRun s.freeList s.extentCount start count).2 }

/-- The loop of `tagfs_free_blocks_internal` from `block`, with the run of reclaimable blocks gathered so far. -/
def Space.freeBlocksLoop (now : Nat) : Nat → Nat → Nat → Nat → Space → DedupState → Space × DedupState
  | 0, _, runStart, runLen, s, d => (if runLen = 0 then s else s.freeRunLocked runStart runLen, d)
  | n + 1, block, runStart, runLen, s, d =>
    match d.unregister block now with
    | (true, d) => freeBlocksLoop now n (block + 1) (if runLen = 0 then block else runStart) (runLen + 1) s d
    | (false, d) =>
      freeBlocksLoop now n (block + 1) runStart 0 (if runLen = 0 then s else s.freeRunLocked runStart runLen) d

/-- `tagfs_free_blocks_internal`. -/
def Space.freeBlocksInternal (d : DedupState) (now start count : Nat) : Space × DedupState :=
  if count = 0 then (s, d) else s.freeBlocksLoop now count start start 0 d

end BoxOS.TagFS
