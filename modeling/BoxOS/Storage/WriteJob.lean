import BoxOS.TagFS.FileData
import BoxOS.TagFS.MetaPoolOps
import BoxOS.Storage.WriteToken

/-! # What an asynchronous write does to its file

The data side of `wjob_pump`: `WriteToken` has the turns of the jobs, here a job owns the token and every disk command
it gives succeeds. Positions are counted in bytes without a bound: a position that is reached has a block. -/

namespace BoxOS.Storage

open Lib TagFS

/-- A file on the volume: `extents` and `size` are those of its metadata. -/
structure StoredFile where
  disk : Nat → Nat → UInt8
  space : Space
  extents : List Extent
  size : Nat
  /-- the redirects logged for the snapshot -/
  redirects : List (Nat × Nat) := []

/-- `WriteJob`, with the extents and the size of its handle. -/
structure WriteJobData where
  extents : List Extent
  fileSize : Nat
  src : List UInt8
  startOffset : Nat
  bytesDone : Nat := 0
  ifDiskBlock : Nat := 0
  ifOffInBlk : Nat := 0
  ifChunk : Nat := 0
  ifPartialRmw : Bool := false
  ifAllocFresh : Bool := false
  ifCowRedirected : Bool := false
  ifCowOldBlock : Nat := 0
  ifExtentIdx : Nat := 0
  allocBlock : Nat := 0
  allocPendingMeta : Bool := false
  dma : Nat → UInt8 := fun _ => 0
  state : WriteJobState := .init

/-- What the job depends on besides its file: whether the file has a snapshot, and whether a metadata record with
these extents and this size can be written. -/
structure JobEnv where
  cowActive : Bool
  metaWrite : List Extent → Nat → Bool

/-- `extent_count` has 16 bits, and `kmalloc` gives no memory for a count that wraps to 0. -/
def growExtents (es : List Extent) (e : Extent) : Option (List Extent) :=
  if (es.length + 1) % 2 ^ 16 = 0 then none else some (es ++ [e])

namespace WriteJobData

def totalBytes (j : WriteJobData) : Nat :=
  j.src.length

/-- `w_locate`. -/
def locateBlock (env : JobEnv) (j : WriteJobData) : WriteJobData :=
  let filePos := j.startOffset + j.bytesDone
  match locate tagfsBlockSize j.extents filePos 0 0 with
  | (none, _) => { j with state := .alloc }
  | (some found, extentStart) =>
    let offInExt := filePos - extentStart
    let offInBlk := offInExt % tagfsBlockSize
    let diskBlk := (j.extents.getD found ⟨0, 0⟩).start + offInExt / tagfsBlockSize
    let chunk := min (tagfsBlockSize - offInBlk) (j.totalBytes - j.bytesDone)
    let partialRmw := decide (offInBlk ≠ 0 ∨ chunk ≠ tagfsBlockSize)
    let j := { j with ifDiskBlock := diskBlk, ifOffInBlk := offInBlk, ifChunk := chunk, ifPartialRmw := partialRmw }
    if !j.ifAllocFresh && env.cowActive then
      { j with state := .cowBefore, ifCowOldBlock := diskBlk, ifExtentIdx := found }
    else if partialRmw && !j.ifAllocFresh then { j with state := .cowReadOld }
    else if partialRmw then { j with state := .dmaFill, dma := fun _ => 0 }
    else { j with state := .dmaFill }

/-- `w_alloc`. -/
def allocBlockStep (v : StoredFile) (j : WriteJobData) : StoredFile × WriteJobData :=
  match v.space.allocBlocks 1 with
  | none => (v, { j with state := .error })
  | some (blk, space) =>
    if blk = 0 then ({ v with space := space }, { j with state := .error })
    else
      match growExtents j.extents ⟨blk, 1⟩ with
      | none => ({ v with space := space.freeRunLocked blk 1 }, { j with state := .error })
      | some extents =>
        ({ v with space := space },
          { j with
            allocBlock := blk, allocPendingMeta := true, ifAllocFresh := true, extents := extents, state := .locate })

end WriteJobData

/-- `TagFS_CowBeforeWrite`: a copy of the block. -/
def cowBeforeWrite (v : StoredFile) (blockAddr : Nat) : Option (Nat × StoredFile) :=
  if blockAddr = 0 then none
  else
    match v.space.allocBlocks 1 with
    | none => none
    | some (freeBlock, space) =>
      if freeBlock = 0 then none
      else
        some (freeBlock, { v with space := space, disk := Function.update v.disk freeBlock (v.disk blockAddr) })

namespace WriteJobData

/-- `w_cow_before`: the copy takes the place of the block, or comes behind all extents. -/
def cowBefore (v : StoredFile) (j : WriteJobData) : StoredFile × WriteJobData :=
  match cowBeforeWrite v j.ifCowOldBlock with
  | none => (v, { j with state := .error })
  | some (newBlock, v) =>
    let ex := j.extents.getD j.ifExtentIdx ⟨0, 0⟩
    let grown :=
      if ex.count = 1 then some (j.extents.set j.ifExtentIdx { ex with start := newBlock })
      else growExtents j.extents ⟨newBlock, 1⟩
    match grown with
    | none => ({ v with space := v.space.freeRunLocked newBlock 1 }, { j with state := .error })
    | some extents =>
      (v, { j with
        extents := extents, ifDiskBlock := newBlock, ifCowRedirected := true, allocPendingMeta := true
        state := if j.ifPartialRmw then .cowReadOld else .dmaFill })

/-- `w_log_meta`. -/
def logMeta (env : JobEnv) (v : StoredFile) (j : WriteJobData) : StoredFile × WriteJobData :=
  if !j.allocPendingMeta && decide (j.startOffset + j.totalBytes ≤ j.fileSize) then (v, { j with state := .commitTxn })
  else
    let endPos := j.startOffset + j.totalBytes
    let size := max v.size endPos
    if env.metaWrite j.extents size then
      ({ v with extents := j.extents, size := size },
        { j with
          fileSize := if v.size < endPos then endPos else j.fileSize, allocPendingMeta := false
          state := if j.ifCowRedirected then .cowAfter else .commitTxn })
    else (v, { j with state := .error })

/-- One handler of `wjob_pump`; the disk answers a command at once. -/
def step (env : JobEnv) : StoredFile × WriteJobData → StoredFile × WriteJobData
  | (v, j) =>
    match j.state with
    | .locate => (v, j.locateBlock env)
    | .alloc => j.allocBlockStep v
    | .cowBefore => j.cowBefore v
    | .cowReadOld => (v, { j with dma := v.disk j.ifDiskBlock, state := .dmaFill })
    | .dmaFill =>
      (v, { j with
        dma := overlay j.dma j.ifOffInBlk ((j.src.drop j.bytesDone).take j.ifChunk), state := .ahciSubmit })
    | .ahciSubmit => ({ v with disk := Function.update v.disk j.ifDiskBlock j.dma }, { j with state := .ahciDone })
    | .ahciDone =>
      (v, { j with
        bytesDone := j.bytesDone + j.ifChunk, ifAllocFresh := false
        state := if j.totalBytes ≤ j.bytesDone + j.ifChunk then .beginTxn else .locate })
    | .beginTxn => (v, { j with state := .logMeta })
    | .logMeta => j.logMeta env v
    | .cowAfter =>
      ({ v with
        redirects := if j.ifCowOldBlock ≠ 0 ∧ j.ifDiskBlock ≠ j.ifCowOldBlock
          then v.redirects ++ [(j.ifCowOldBlock, j.ifDiskBlock)] else v.redirects },
        { j with state := .commitTxn })
    | .commitTxn => (v, { j with state := .publish })
    | .publish => (v, { j with state := .releaseToken })
    | .releaseToken => (v, { j with state := .done })
    | .init | .tokenWait | .done | .error => (v, j)

/-- The job that `ObjWriteAsync` makes with a handle it opens, once it has the token. -/
def submitted (v : StoredFile) (startOffset : Nat) (src : List UInt8) : WriteJobData where
  extents := v.extents
  fileSize := v.size
  src := src
  startOffset := startOffset
  state := .locate

end WriteJobData

/-- `wjob_pump` for `n` handlers. -/
def wjobPump (env : JobEnv) : Nat → StoredFile × WriteJobData → StoredFile × WriteJobData
  | 0, x => x
  | n + 1, x => wjobPump env n (WriteJobData.step env x)

end BoxOS.Storage
