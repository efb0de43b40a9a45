import BoxOS.TagFS.FileData
import BoxOS.TagFS.Volume

/-!
# Writing files through handles

`tagfs_open` and `tagfs_write`. A handle has its own copy of the extents and the size of its file,
taken when it is opened; a write works on that copy and then makes it the metadata of the file.

`hash` is `BoxHash`. Every block read and write consumes an answer of the disk (`MetaPool.io`).
-/

namespace BoxOS.TagFS

open Lib

/-- `TagFSFileHandle`. -/
structure FileHandle where
  fileId : Nat
  /-- `TAGFS_HANDLE_WRITE` -/
  canWrite : Bool
  offset : Nat
  fileSize : Nat
  extents : List FileExtent

/-- The files with an active snapshot, and the redirects recorded: file, old block and new block. -/
structure Cow where
  active : Nat → Bool
  redirects : List (Nat × Nat × Nat)

def Cow.none : Cow := ⟨fun _ => false, []⟩

/-- The bytes of the medium. -/
def Volume.disk (v : Volume) (b i : Nat) : UInt8 := (v.pool.medium b).getD i 0

/-- `tagfs_open_inside`; without readable metadata the handle is that of an empty file. -/
def Volume.openFile (v : Volume) (f : Nat) (canWrite : Bool) : Option FileHandle × Volume :=
  match fileTableLookup v.table f with
  | Option.none => (Option.none, v)
  | some e =>
    match v.readMeta e with
    | (Option.none, v) => (some ⟨f, canWrite, 0, 0, []⟩, v)
    | (some m, v) => (some ⟨f, canWrite, 0, m.size.toNat, m.extents⟩, v)

/-! ## One block of a write -/

/-- A write under way: `written` bytes are done; `refused` when the medium would not take a block. -/
structure WriteState where
  vol : Volume
  cow : Cow
  handle : FileHandle
  written : Nat
  refused : Bool

/-- `block_buf` after `memcpy`, from what it held. -/
def fillBlock (old : Block) (off : Nat) (data : List UInt8) : Block :=
  (List.range tagfsBlockSize).map (overlay (fun o => old.getD o 0) off data)

/-- `TagFS_CowBeforeWrite`: a copy of the block. -/
def MetaPool.cowBeforeWrite (p : MetaPool) (blockAddr : Nat) : Option Nat × MetaPool :=
  if blockAddr = 0 then (none, p)
  else
    match p.readBlock blockAddr with
    | (none, p) => (none, p)
    | (some data, p) =>
      match p.space.allocBlocks 1 with
      | none => (none, p)
      | some (freeBlock, space) =>
        if freeBlock = 0 then (none, { p with space := space })
        else
          match { p with space := space }.writeBlock freeBlock data with
          | (false, p) => (none, p.freeBlock freeBlock)
          | (true, p) => (some freeBlock, p)

/-- `TagFS_CowAfterWrite`. -/
def Cow.afterWrite (cow : Cow) (f oldBlock newBlock : Nat) : Cow :=
  if oldBlock = 0 ∨ newBlock = 0 then cow else { cow with redirects := cow.redirects ++ [(f, oldBlock, newBlock)] }

/-- Where the next byte of a write goes. -/
structure Target where
  /-- the index of the extent -/
  found : Nat
  /-- the first position of the extent -/
  extentStart : Nat
  newlyAllocated : Bool

/-- The position of the next byte, in 64 bits. -/
def WriteState.filePos (st : WriteState) : Nat := (st.handle.offset + st.written) % 2 ^ 64

/-- `blocks_needed` of a position behind the extents; they end at `extentStart`. -/
def blocksNeeded (filePos extentStart : Nat) : Nat :=
  let n := ((filePos - extentStart) / tagfsBlockSize % 2 ^ 32 + 1) % 2 ^ 32
  if n > 0xFFFF then 0xFFFF else n

/-- The extent of the next byte: the one that has its position, or a new one behind the others. -/
def WriteState.target (st : WriteState) : Option Target × WriteState :=
  match locate tagfsBlockSize (st.handle.extents.map FileExtent.extent) st.filePos 0 0 with
  | (some found, extentStart) => (some ⟨found, extentStart, false⟩, st)
  | (none, extentStart) =>
    let needed := blocksNeeded st.filePos extentStart
    match st.vol.pool.space.allocBlocks needed with
    | none => (none, st)
    | some (newStart, space) =>
      let pool := { st.vol.pool with space := space }
      -- `new_count` has 16 bits, and there is no memory for no extents
      if (st.handle.extents.length + 1) % 2 ^ 16 = 0 then
        let r := space.freeBlocksInternal pool.dedup pool.now newStart needed
        (none, { st with vol := { st.vol with pool := { pool with space := r.1, dedup := r.2 } } })
      else
        (some ⟨st.handle.extents.length, extentStart, true⟩, { st with
          vol := { st.vol with pool := pool }
          handle := { st.handle with extents := st.handle.extents ++ [⟨UInt32.ofNat newStart, UInt16.ofNat needed⟩] } })

/-- Where the block of the target is written, after a copy for the snapshot. -/
def WriteState.redirect (st : WriteState) (t : Target) (blockIndex diskBlock : Nat) : Nat × WriteState :=
  if t.newlyAllocated = false ∧ blockIndex = 0 ∧ st.cow.active st.handle.fileId = true then
    match st.vol.pool.cowBeforeWrite diskBlock with
    | (none, pool) => (diskBlock, { st with vol := { st.vol with pool := pool } })
    | (some cowBlock, pool) =>
      (cowBlock, { st with
        vol := { st.vol with pool := pool }
        handle := { st.handle with
          extents := st.handle.extents.modify t.found fun e => { e with startBlock := UInt32.ofNat cowBlock } }
        cow := st.cow.afterWrite st.handle.fileId diskBlock cowBlock })
  else (diskBlock, st)

/-- The block of the target is written; whether the loop goes on. -/
def WriteState.writeChunk (hash : Block → DedupHash) (src : List UInt8) (st : WriteState) (t : Target) :
    WriteState × Bool :=
  let offsetInExtent := st.filePos - t.extentStart
  let blockIndex := offsetInExtent / tagfsBlockSize % 2 ^ 32
  let offsetInBlock := offsetInExtent % tagfsBlockSize
  let diskBlock := ((st.handle.extents.getD t.found ⟨0, 0⟩).startBlock + UInt32.ofNat blockIndex).toNat
  let read := if offsetInBlock ≠ 0 ∨ src.length - st.written < tagfsBlockSize then st.vol.pool.readBlock diskBlock
    else (none, st.vol.pool)
  let st := { st with vol := { st.vol with pool := read.2 } }
  let chunk := min (tagfsBlockSize - offsetInBlock) (src.length - st.written)
  let buf := fillBlock (read.1.getD []) offsetInBlock ((src.drop st.written).take chunk)
  let (writeTarget, st) := st.redirect t blockIndex diskBlock
  let pool := st.vol.pool
  let dedup := if t.newlyAllocated = true ∧ blockIndex = 0 ∧ offsetInBlock = 0 ∧ chunk = tagfsBlockSize then
      pool.dedup.register writeTarget (hash buf) st.handle.fileId pool.now
    else pool.dedup
  let pool := { pool with dedup := dedup }
  match pool.writeBlock writeTarget buf with
  | (false, pool) => ({ st with vol := { st.vol with pool := pool }, refused := true }, false)
  | (true, pool) => ({ st with vol := { st.vol with pool := pool }, written := st.written + chunk }, true)

/-- The loop of `tagfs_write_inside`; every round writes a byte at least. -/
def writeLoop (hash : Block → DedupHash) (src : List UInt8) : Nat → WriteState → WriteState
  | 0, st => st
  | fuel + 1, st =>
    if st.written < src.length then
      match st.target with
      | (none, st) => st
      | (some t, st) =>
        match st.writeChunk hash src t with
        | (st, false) => st
        | (st, true) => writeLoop hash src fuel st
    else st

/-! ## Whole calls -/

/-- The metadata of the file becomes that of the handle; whether it did. -/
def Volume.publish (v : Volume) (h : FileHandle) : Volume × Bool :=
  match fileTableLookup v.table h.fileId with
  | none => (v, false)
  | some e =>
    match v.readMeta e with
    | (none, v) => (v, false)
    | (some m, v) => v.replaceRecord h.fileId e { m with size := UInt64.ofNat h.fileSize, extents := h.extents }

/-- The handle moves past what has been written. -/
def FileHandle.advance (h : FileHandle) (written : Nat) : FileHandle :=
  let offset := (h.offset + written) % 2 ^ 64
  { h with offset := offset, fileSize := if offset > h.fileSize then offset else h.fileSize }

/-- `tagfs_write_inside`: the number of bytes, or `none` for `-1`. -/
def tagfsWrite (hash : Block → DedupHash) (v : Volume) (cow : Cow) (h : FileHandle) (src : List UInt8) :
    Volume × Cow × FileHandle × Option Nat :=
  if src = [] ∨ h.canWrite = false then (v, cow, h, none)
  else
    let st := writeLoop hash src src.length ⟨v, cow, h, 0, false⟩
    let h := st.handle.advance st.written
    if st.written = 0 then (st.vol, st.cow, h, if st.refused then none else some 0)
    else
      match st.vol.publish h with
      | (v, false) => (v, st.cow, h, none)
      | (v, true) => (v, st.cow, h, if st.refused then none else some st.written)

/-- The extents that keep `keep` blocks: what is kept, and what is dropped. -/
def cutExtents : List FileExtent → Nat → List FileExtent × List FileExtent
  | [], _ => ([], [])
  | e :: es, keep =>
    if keep = 0 then ([], e :: es)
    else if e.blockCount.toNat > keep then
      ([{ e with blockCount := UInt16.ofNat keep }],
        ⟨e.startBlock + UInt32.ofNat keep, UInt16.ofNat (e.blockCount.toNat - keep)⟩ :: es)
    else
      let r := cutExtents es (keep - e.blockCount.toNat)
      (e :: r.1, r.2)

end BoxOS.TagFS
