import BoxOS.Storage.WriteJobInv

/-!
# Asynchronous writes that fail

The handlers of `wjob_pump` with their failure exits: the answers of the allocator, of `kmalloc`, of the disk and of the
metadata write come with each step, and a step that fails ends in `wjob_finalize`. The record says which blocks the
allocator gave to the job and which were passed to `tagfs_free_blocks`.

`wjob_finalize` gives back the block the job remembers in `alloc_block`, and only that (`finalize_freed`).
-/

namespace BoxOS.Storage

open Lib TagFS

/-- What a handler finds outside the job. -/
structure JobAnswers where
  /-- `TagFS_CowIsActive` -/
  cowActive : Bool
  /-- `tagfs_alloc_blocks` is served -/
  alloc : Bool
  /-- `kmalloc` for a grown extent array -/
  extents : Bool
  /-- the reading and the writing of the copy in `TagFS_CowBeforeWrite` -/
  cowRead : Bool
  cowWrite : Bool
  /-- a disk command is taken, and how it ends -/
  submit : Bool
  status : Bool
  /-- `tagfs_get_metadata`, the copy of the extents, `meta_pool_write` and `file_table_update` -/
  metadata : Bool

structure FailingJob where
  file : StoredFile
  job : WriteJobData
  allocCount : Nat
  /-- `if_status` is `OK` -/
  ifStatus : Bool
  /-- `wjob_finalize` was called with an error -/
  failed : Bool
  /-- the blocks that `tagfs_alloc_blocks` and `TagFS_CowBeforeWrite` took from the allocator for the job -/
  allocated : List Nat
  /-- the blocks passed to `tagfs_free_blocks` -/
  freed : List Nat
  /-- the blocks that `w_alloc`, and the copies that `w_cow_before`, put into the extents of the handle -/
  fresh : List Nat
  copies : List Nat

namespace FailingJob

variable (x : FailingJob)

/-- `tagfs_free_blocks (block, 1)` -/
def freeBlock (block : Nat) : FailingJob :=
  { x with file := { x.file with space := x.file.space.freeRunLocked block 1 }, freed := x.freed ++ [block] }

/-- `wjob_finalize` with an error. -/
def finalize : FailingJob :=
  let x := if x.job.allocPendingMeta ∧ 0 < x.allocCount then x.freeBlock x.job.allocBlock else x
  { x with failed := true }

variable (a : JobAnswers)

/-- The next block of the allocator, if it is served. -/
def takeBlock : Option (Nat × Space) :=
  if a.alloc then x.file.space.allocBlocks 1 else none

/-- A block taken from the allocator. -/
def taken (block : Nat) (space : Space) : FailingJob :=
  { x with file := { x.file with space := space }, allocated := x.allocated ++ [block] }

/-- `w_alloc` -/
def alloc : FailingJob :=
  match x.takeBlock a with
  | none => x.finalize
  | some (blk, space) =>
    let x := x.taken blk space
    if blk = 0 then x.finalize
    else
      let x := { x with
        job := { x.job with allocBlock := blk, allocPendingMeta := true, ifAllocFresh := true }, allocCount := 1 }
      match if a.extents then growExtents x.job.extents ⟨blk, 1⟩ else none with
      | none => (x.freeBlock blk).finalize
      | some extents => { x with job := { x.job with extents := extents, state := .locate }, fresh := x.fresh ++ [blk] }

/-- `TagFS_CowBeforeWrite`: the state after it, and the copy. -/
def cowBeforeWrite (blockAddr : Nat) : FailingJob × Option Nat :=
  if blockAddr = 0 ∨ a.cowRead = false then (x, none)
  else
    match x.takeBlock a with
    | none => (x, none)
    | some (freeBlock, space) =>
      let x := x.taken freeBlock space
      if freeBlock = 0 then (x, none)
      else if a.cowWrite = false then (x.freeBlock freeBlock, none)
      else
        let disk := Function.update x.file.disk freeBlock (x.file.disk blockAddr)
        ({ x with file := { x.file with disk := disk } }, some freeBlock)

/-- `w_cow_before` -/
def cowBefore : FailingJob :=
  match x.cowBeforeWrite a x.job.ifCowOldBlock with
  | (x, none) => x.finalize
  | (x, some newBlock) =>
    let ex := x.job.extents.getD x.job.ifExtentIdx ⟨0, 0⟩
    let grown :=
      if ex.count = 1 then some (x.job.extents.set x.job.ifExtentIdx { ex with start := newBlock })
      else if a.extents then growExtents x.job.extents ⟨newBlock, 1⟩
      else none
    match grown with
    | none => (x.freeBlock newBlock).finalize
    | some extents =>
      { x with
        job := { x.job with
          extents := extents, ifDiskBlock := newBlock, ifCowRedirected := true, allocPendingMeta := true
          state := if x.job.ifPartialRmw then .cowReadOld else .dmaFill }
        copies := x.copies ++ [newBlock] }

/-- What `WriteJobData.step` does where nothing fails. -/
def served : FailingJob :=
  let r := WriteJobData.step ⟨a.cowActive, fun _ _ => true⟩ (x.file, x.job)
  { x with file := r.1, job := r.2 }

/-- `w_cow_read_old` and its completion. -/
def cowReadOld : FailingJob :=
  if a.submit = false then x.finalize
  else if a.status = false then { x with ifStatus := false, job := { x.job with state := .ahciDone } }
  else x.served a

/-- `w_ahci_submit` and its completion. -/
def ahciSubmit : FailingJob :=
  if a.submit = false then x.finalize
  else if a.status = false then { x with ifStatus := false, job := { x.job with state := .ahciDone } }
  else { x.served a with ifStatus := true }

/-- `w_log_meta` -/
def logMeta : FailingJob :=
  if !x.job.allocPendingMeta && decide (x.job.startOffset + x.job.totalBytes ≤ x.job.fileSize) then x.served a
  else if a.metadata then x.served a
  else x.finalize

/-- One handler of `wjob_pump`. -/
def step : FailingJob :=
  if x.failed then x
  else
    match x.job.state with
    | .alloc => x.alloc a
    | .cowBefore => x.cowBefore a
    | .cowReadOld => x.cowReadOld a
    | .ahciSubmit => x.ahciSubmit a
    | .ahciDone => if x.ifStatus then x.served a else x.finalize
    | .logMeta => x.logMeta a
    | _ => x.served a

def run (as : List JobAnswers) : FailingJob := as.foldl step x

/-- The job of a write of `src` from `startOffset` on. -/
def submitted (v : StoredFile) (startOffset : Nat) (src : List UInt8) : FailingJob where
  file := v
  job := WriteJobData.submitted v startOffset src
  allocCount := 0
  ifStatus := true
  failed := false
  allocated := []
  freed := []
  fresh := []
  copies := []

/-- The blocks in the recorded extents of the file. -/
def recorded : List Nat := blocksOf x.file.extents

/-- Every block the job took that is not recorded was given back exactly once, and no block that is recorded or was
given back before was passed to `tagfs_free_blocks`. -/
structure ReturnsBlocks (x : FailingJob) : Prop where
  once : ∀ b ∈ x.allocated, b ∉ x.recorded → x.freed.count b = 1
  fresh : x.freed.Nodup
  unrecorded : ∀ b ∈ x.freed, b ∉ x.recorded

/-- The block that the next handler takes from the allocator. -/
def gives : Option Nat :=
  match x.job.state with
  | .alloc => (x.takeBlock a).map Prod.fst
  | .cowBefore =>
    if x.job.ifCowOldBlock = 0 ∨ a.cowRead = false then none else (x.takeBlock a).map Prod.fst
  | _ => none

/-- The handle has got at most one block from `w_alloc` and no copy, the failing handler is not a `w_alloc` that was
given a block, and it was not given block 0. -/
structure Returnable (x : FailingJob) (a : JobAnswers) : Prop where
  fresh : x.fresh.length ≤ 1
  copies : x.copies = []
  alloc : x.job.state = .alloc → x.gives a = none
  block : x.gives a ≠ some 0

end FailingJob

end BoxOS.Storage
