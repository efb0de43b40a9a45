import BoxOS.TagFS.SpaceChange

/-!
# References to shared blocks

What `Dedup` leaves out: `TagFS_DedupAddRef`, `TagFS_DedupGC`, and `TagFS_DedupRegister` with the answers of `kmalloc`;
and what `Space` leaves out: `free_run_locked` where there is no memory for an extent of its own. A `RefWorld` also
counts, for each block, the references that were added and the frees since the block was allocated or came into the
index.
-/

namespace BoxOS.TagFS

open Lib

def dedupGcThresholdSecs : Nat := 3600

namespace DedupState

/-- An entry of a chain that `TagFS_DedupGC` walks through. -/
def gcVisit (now : Nat) (d : DedupState) (physicalBlock : Nat) : DedupState :=
  match d.findByBlock physicalBlock with
  | none => d
  | some e =>
    if e.refCount ≤ 1 ∧ dedupGcThresholdSecs < (now + 2 ^ 64 - e.lastAccess) % 2 ^ 64 then d.evict e else d

/-- `TagFS_DedupGC` -/
def gc (d : DedupState) (now : Nat) : DedupState :=
  if d.initialized = false then d
  else (List.range dedupHashBuckets).foldl (fun d i => (d.hashTable i).foldl (gcVisit now) d) d

/-- `TagFS_DedupRegister`, with the answers to its two requests for an entry. -/
def registerTrying (d : DedupState) (physicalBlock : Nat) (hash : DedupHash) (tagContext now : Nat)
    (first second : Bool) : DedupState :=
  if first || (d.findByBlock physicalBlock).isSome then d.register physicalBlock hash tagContext now
  else if physicalBlock = 0 ∨ d.initialized = false then d
  else
    let d := d.gc now
    if second || (d.findByBlock physicalBlock).isSome then d.register physicalBlock hash tagContext now else d

/-- `TagFS_DedupAddRef`: whether it succeeds, and the index afterwards. -/
def addRef (d : DedupState) (physicalBlock now : Nat) : Bool × DedupState :=
  if physicalBlock = 0 ∨ d.initialized = false then (false, d)
  else
    match d.findByBlock physicalBlock with
    | none => (false, d)
    | some e =>
      if dedupMaxRefs ≤ e.refCount then (false, d)
      else (true, d.store e { e with refCount := e.refCount + 1, lastAccess := now })

end DedupState

/-- `insertRun`, with the answer of `kmalloc` should the run need an extent of its own. -/
def insertRunTrying (mem : Bool) (list : List FreeExtent) (extentCount start count : Nat) : List FreeExtent × Nat :=
  let before := list.takeWhile (fun e => e.start < start)
  let after := list.dropWhile (fun e => e.start < start)
  let mergeRight := after.head?.filter (fun cur => cur.start = start + count)
  let mergeLeft := before.getLast?.filter (fun prev => prev.start + prev.count = start)
  if mergeLeft = none ∧ mergeRight = none ∧
    mem = false then (list, extentCount) else insertRun list extentCount start count

/-- `free_run_locked` -/
def Space.freeRunTrying (s : Space) (mem : Bool) (start count : Nat) : Space :=
  if count = 0 then s
  else
    { s with
      bitmap := clearRun s.bitmap start count
      freeBlocks := s.freeBlocks + count
      freeList := (insertRunTrying mem s.freeList s.extentCount start count).1
      extentCount := (insertRunTrying mem s.freeList s.extentCount start count).2 }

/-- The loop of `tagfs_free_blocks_internal`; `mem` has the answer of `kmalloc` for the run from each block on. -/
def Space.freeBlocksLoopTrying (mem : Nat → Bool) (now : Nat) : Nat → Nat → Nat → Nat → Space → DedupState →
    Space × DedupState
  | 0, _, runStart, runLen, s, d => (if runLen = 0 then s else s.freeRunTrying (mem runStart) runStart runLen, d)
  | n + 1, block, runStart, runLen, s, d =>
    match d.unregister block now with
    | (true, d) => freeBlocksLoopTrying mem now n (block + 1) (if runLen = 0 then block else runStart) (runLen + 1) s d
    | (false, d) =>
      freeBlocksLoopTrying mem now n (block + 1) runStart 0
        (if runLen = 0 then s else s.freeRunTrying (mem runStart) runStart runLen) d

/-- `tagfs_free_blocks` -/
def Space.freeBlocksTrying (s : Space) (mem : Nat → Bool) (d : DedupState) (now start count : Nat) :
    Space × DedupState :=
  if count = 0 then (s, d) else s.freeBlocksLoopTrying mem now count start start 0 d

/-! ## Runs -/

/-- The blocks of a volume with their index. -/
structure RefWorld where
  space : Space
  dedup : DedupState
  /-- the successful `TagFS_DedupAddRef` of a block, and the frees of it -/
  added : Nat → Nat
  freed : Nat → Nat

inductive RefCall where
  | alloc (count : Nat)
  | register (block : Nat) (hash : DedupHash) (tagContext now : Nat) (first second : Bool)
  | addRef (block now : Nat)
  | gc (now : Nat)
  | free (start count now : Nat) (mem : Nat → Bool)

namespace RefWorld

variable (w : RefWorld)

/-- The counts start again. -/
def forget (start count : Nat) : RefWorld :=
  { w with
    added := fun b => if start ≤ b ∧ b < start + count then 0 else w.added b
    freed := fun b => if start ≤ b ∧ b < start + count then 0 else w.freed b }

def step : RefCall → RefWorld
  | .alloc count =>
    match w.space.allocBlocks count with
    | none => w
    | some (start, space) => { w with space := space }.forget start count
  | .register block hash tagContext now first second =>
    let d := w.dedup.registerTrying block hash tagContext now first second
    if (w.dedup.findByBlock block).isNone && (d.findByBlock block).isSome then { w with dedup := d }.forget block 1
    else { w with dedup := d }
  | .addRef block now =>
    match w.dedup.addRef block now with
    | (false, d) => { w with dedup := d }
    | (true, d) => { w with dedup := d, added := Function.update w.added block (w.added block + 1) }
  | .gc now => { w with dedup := w.dedup.gc now }
  | .free start count now mem =>
    let r := w.space.freeBlocksTrying mem w.dedup now start count
    { w with
      space := r.1, dedup := r.2
      freed := fun b => if start ≤ b ∧ b < start + count then w.freed b + 1 else w.freed b }

/-- The calls are about allocated blocks. -/
def Allowed : RefCall → Prop
  | .alloc _ => True
  | .register block .. => w.space.Holds block
  | .addRef block _ => w.space.Holds block
  | .gc _ => True
  | .free start count .. => w.space.Taken start count

/-- A mounted volume with an empty index. -/
def mounted (space : Space) (initialized : Bool) : RefWorld where
  space := space
  dedup := ⟨initialized, fun _ => [], fun _ => [], 0⟩
  added _ := 0
  freed _ := 0

/-- The states of a volume after it was mounted. -/
inductive Run : RefWorld → Prop
  | mounted (space : Space) (initialized : Bool) (h : space.Inv) : Run (mounted space initialized)
  | step {w : RefWorld} (call : RefCall) (h : Run w) (hcall : w.Allowed call) : Run (w.step call)

def steps (calls : List RefCall) : RefWorld := calls.foldl step w

/-- Every call is allowed where it is made. -/
def AllAllowed : RefWorld → List RefCall → Prop
  | _, [] => True
  | w, call :: calls => w.Allowed call ∧ AllAllowed (w.step call) calls

/-- Block `b` is in the list of free extents. -/
def Listed (b : Nat) : Prop := Covers w.space.freeList b

/-- Block `b` is freed `n` times. -/
def frees (now b : Nat) (mem : Nat → Bool) : Nat → RefWorld → RefWorld
  | 0, w => w
  | n + 1, w => frees now b mem n (w.step (.free b 1 now mem))

end RefWorld

end BoxOS.TagFS
