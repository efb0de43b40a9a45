import BoxOS.TagFS.ChainFlush
import BoxOS.TagFS.MetaRecord

/-!
# The metadata pool

`meta_pool.c`: records are appended to the last block of a chain, which is kept in memory (`current`); a record is
deleted by clearing its file id, at once in the current block, and owed to the medium (`retire`) in the others until
`metaPoolFlushRetires` writes them. A block whose records are all deleted is unlinked from the chain and given back.

Every block read and write consumes one entry of `io`: it succeeds, or fails without effect. The mirror of decoded
records (`g_mirror`) is left out.
-/

namespace BoxOS.TagFS

open Lib

/-- `TAGFS_MPOOL_MAGIC`. -/
def mpoolMagic : Nat := 0x544D504C

def mpoolBlockHeader : Nat := 16

def tagfsBlockSize : Nat := 4096

structure MetaPoolBlock where
  magic : Nat
  nextBlock : Nat
  usedBytes : Nat
  recordCount : Nat
  kept : Nat
  reserved : Nat
  payload : List UInt8
deriving DecidableEq, Repr

variable (blk : MetaPoolBlock)

/-- The bytes before the payload. -/
def MetaPoolBlock.header : List UInt8 :=
  leBytes 4 blk.magic ++ (leBytes 4 blk.nextBlock ++ (leBytes 2 blk.usedBytes ++ (leBytes 2 blk.recordCount ++
    (leBytes 2 blk.kept ++ leBytes 2 blk.reserved))))

def MetaPoolBlock.encode : Block := blk.header ++ blk.payload

def MetaPoolBlock.decode (b : Block) : MetaPoolBlock :=
  ⟨fieldAt 4 0 b, fieldAt 4 4 b, fieldAt 2 8 b, fieldAt 2 10 b, fieldAt 2 12 b, fieldAt 2 14 b, b.drop 16⟩

/-- `g_fresh_block` with its magic. -/
def freshBlock : MetaPoolBlock := ⟨mpoolMagic, 0, 0, 0, 0, 0, List.replicate mpoolDataSize 0⟩

structure MetaPoolLink where
  block : Nat
  kept : Nat
deriving DecidableEq, Repr

/-- The state of the pool, with the volume it lives on and the outcomes of the block reads and writes to come. -/
structure MetaPool where
  current : MetaPoolBlock
  currentNum : Nat
  dirty : Bool
  chain : List MetaPoolLink
  retire : List (Nat × Nat)
  space : Space
  dedup : DedupState
  now : Nat
  medium : Medium
  io : List Bool

/-! ## Blocks -/

variable (p : MetaPool)

/-- `tagfs_read_block`. -/
def MetaPool.readBlock (block : Nat) : Option Block × MetaPool :=
  match p.io with
  | [] => (some (p.medium block), p)
  | ok :: io => (if ok then some (p.medium block) else none, { p with io := io })

/-- `tagfs_write_block`. -/
def MetaPool.writeBlock (block : Nat) (b : Block) : Bool × MetaPool :=
  match p.io with
  | [] => (true, { p with medium := Function.update p.medium block b })
  | ok :: io => (ok, { p with medium := if ok then Function.update p.medium block b else p.medium, io := io })

/-- `tagfs_free_blocks_internal(block, 1)`. -/
def MetaPool.freeBlock (block : Nat) : MetaPool :=
  let r := p.space.freeBlocksInternal p.dedup p.now block 1
  { p with space := r.1, dedup := r.2 }

def MetaPool.chainFind (block : Nat) : Nat := p.chain.findIdx (fun link => link.block = block)

/-- `g_chain[index].kept = kept`. -/
def MetaPool.setKept (index kept : Nat) : MetaPool :=
  { p with chain := p.chain.modify index fun link => { link with kept := kept } }

/-- The loop of `count_kept_records`. -/
def countKeptLoop (payload : List UInt8) (used : Nat) : Nat → Nat → Nat
  | 0, _ => 0
  | fuel + 1, pos =>
    if pos + recordHeaderSize > used then 0
    else
      let recordLen := fieldAt 2 pos payload
      if recordLen < recordHeaderSize ∨ recordLen > used - pos then 0
      else (if fieldAt 4 (pos + 2) payload ≠ 0 then 1 else 0) + countKeptLoop payload used fuel (pos + recordLen)

/-- `count_kept_records`; a block has room for fewer records than bytes. -/
def countKeptRecords : Nat :=
  let used := if blk.usedBytes > mpoolDataSize then mpoolDataSize else blk.usedBytes
  countKeptLoop blk.payload used used 0

/-- `memset((uint8_t*)blk + offset + 2, 0, 4)`. -/
def MetaPoolBlock.clearId (offset : Nat) : MetaPoolBlock :=
  MetaPoolBlock.decode (patch blk.encode (offset + 2) [0, 0, 0, 0])

/-- `retire_apply`, without its count. -/
def retireApply (retire : List (Nat × Nat)) (block : Nat) (blk : MetaPoolBlock) : MetaPoolBlock :=
  retire.foldl (fun blk r =>
    if r.1 ≠ block then blk
    else if r.2 < mpoolBlockHeader ∨ r.2 + recordHeaderSize > tagfsBlockSize then blk
    else blk.clearId r.2) blk

def MetaPool.retirePaid (block : Nat) : MetaPool :=
  { p with retire := p.retire.filter (fun r => r.1 ≠ block) }

/-! ## Init -/

/-- The loop of `meta_pool_init`, with all blocks readable: the chain, and its last block with its number. -/
def metaPoolInitLoop (run : Nat) (d : Medium) :
    Nat → Nat → List MetaPoolLink → Option (List MetaPoolLink × Nat × MetaPoolBlock)
  | 0, _, _ => none
  | hops + 1, block, chain =>
    if block ≥ run then none
    else if (chainFormat mpoolMagic).good (d block) = false then none
    else
      let here := MetaPoolBlock.decode (d block)
      let kept := countKeptRecords here
      let chain := chain ++ [⟨block, kept⟩]
      if (chainFormat mpoolMagic).next (d block) = 0 then some (chain, block, { here with kept := kept })
      else metaPoolInitLoop run d hops ((chainFormat mpoolMagic).next (d block)) chain

/-- `meta_pool_init` on a volume. -/
def metaPoolInit (space : Space) (dedup : DedupState) (now : Nat) (d : Medium) (io : List Bool) (firstBlock : Nat) :
    Option MetaPool :=
  if space.totalBlocks = 0 then none
  else (metaPoolInitLoop space.totalBlocks d space.totalBlocks firstBlock []).map fun r =>
    ⟨r.2.2, r.2.1, false, r.1, [], space, dedup, now, d, io⟩

/-! ## Operations -/

def metaPoolFlush : MetaPool × Bool :=
  if p.dirty = false then (p, true)
  else
    match p.writeBlock p.currentNum p.current.encode with
    | (false, p) => (p, false)
    | (true, p) => ({ p with dirty := false }, true)

/-- The part of `meta_pool_write` that appends a block to the chain: the new block is written first, then the link. -/
def MetaPool.chainNext : MetaPool × Bool :=
  if p.current.nextBlock ≠ 0 then (p, false)
  else
    match p.space.allocBlocksInternal 1 with
    | none => (p, false)
    | some (newBlock, space) =>
      match { p with space := space }.writeBlock newBlock freshBlock.encode with
      | (false, p) => (p.freeBlock newBlock, false)
      | (true, p) =>
        match p.writeBlock p.currentNum { p.current with nextBlock := newBlock }.encode with
        | (false, p) => (p.freeBlock newBlock, false)
        | (true, p) =>
          ({ p with
            currentNum := newBlock
            current := freshBlock
            dirty := true
            chain := p.chain ++ [⟨newBlock, 0⟩] }, true)

/-- The part of `meta_pool_write` that packs the record into the current block. -/
def MetaPool.appendRecord (m : TagFSMetadata) : MetaPool × Option (Nat × Nat) :=
  let used := p.current.usedBytes
  let packed := packRecord p.space.totalBlocks m
  let payload := patch p.current.payload used packed.1
  if packed.2 = false then ({ p with current := { p.current with payload := payload } }, none)
  else
    let kept := if m.fileId ≠ 0 then (p.current.kept + 1) % 2 ^ 16 else p.current.kept
    let current := { p.current with
      usedBytes := (used + metaPoolRecordSize m) % 2 ^ 16
      recordCount := (p.current.recordCount + 1) % 2 ^ 16
      kept := kept
      payload := payload }
    let p := { p with current := current, dirty := true }
    (if m.fileId ≠ 0 then p.setKept (p.chain.length - 1) kept else p, some (p.currentNum, mpoolBlockHeader + used))

/-- `meta_pool_write`: where the record went. -/
def metaPoolWrite (m : TagFSMetadata) : MetaPool × Option (Nat × Nat) :=
  if metaPoolRecordSize m > mpoolDataSize then (p, none)
  else if metaPoolRecordSize m > (2 ^ 32 + mpoolDataSize - p.current.usedBytes) % 2 ^ 32 then
    match p.chainNext with
    | (p, false) => (p, none)
    | (p, true) => p.appendRecord m
  else p.appendRecord m

def metaPoolRead (block offset : Nat) : Option TagFSMetadata × MetaPool :=
  if block = p.currentNum then (unpackRecord p.space.totalBlocks (p.current.encode.drop offset), p)
  else
    match p.readBlock block with
    | (none, p) => (none, p)
    | (some buf, p) => (unpackRecord p.space.totalBlocks (buf.drop offset), p)

local instance retiredLawful : LawfulBEq (Nat × Nat) := inferInstance

def metaPoolDelete (block offset : Nat) : MetaPool × Bool :=
  let index := p.chainFind block
  if index = p.chain.length then (p, false)
  else if block = p.currentNum then
    if fieldAt 4 (offset + 2) p.current.encode = 0 then (p, true)
    else
      let current := p.current.clearId offset
      let kept := countKeptRecords current
      ({ p with current := { current with kept := kept }, dirty := true }.setKept index kept, true)
  else
    match p.readBlock block with
    | (none, p) => (p, false)
    | (some buf, p) =>
      if fieldAt 4 (offset + 2) buf = 0 then (p, true)
      else if (block, offset) ∈ p.retire then (p, true)
      else
        let retire := p.retire ++ [(block, offset)]
        let here := retireApply retire block (MetaPoolBlock.decode buf)
        ({ p with retire := retire }.setKept index (countKeptRecords here), true)

def MetaPool.unlinkEmptyBlock (index saysNext : Nat) : MetaPool × Bool :=
  let block := (p.chain.getD index ⟨0, 0⟩).block
  let prev := (p.chain.getD (index - 1) ⟨0, 0⟩).block
  let next := (p.chain.getD (index + 1) ⟨0, 0⟩).block
  if saysNext ≠ next then (p, false)
  else
    match p.readBlock prev with
    | (none, p) => (p, false)
    | (some buf, p) =>
      let before := MetaPoolBlock.decode buf
      if before.magic ≠ mpoolMagic then (p, false)
      else
        match p.writeBlock prev { before with nextBlock := next }.encode with
        | (false, p) => (p, false)
        | (true, p) => let p := p.freeBlock block; ({ p with chain := p.chain.eraseIdx index }, true)

/-- The end of a round of `meta_pool_flush_retires`: the block with its debts applied is written. -/
def MetaPool.payWrite (block : Nat) (here : MetaPoolBlock) : MetaPool × Bool :=
  match p.writeBlock block here.encode with
  | (false, p) => (p, false)
  | (true, p) => (p.retirePaid block, true)

/-- One round of `meta_pool_flush_retires` for the block of the first debt, and whether the loop goes on. -/
def MetaPool.payBlock (block : Nat) : MetaPool × Bool :=
  let index := p.chainFind block
  if index = p.chain.length ∨ block = p.currentNum then (p.retirePaid block, true)
  else
    match p.readBlock block with
    | (none, p) => (p, false)
    | (some buf, p) =>
      let here := retireApply p.retire block (MetaPoolBlock.decode buf)
      let here := { here with kept := countKeptRecords here }
      let p := p.setKept index here.kept
      let interior := index > 0 ∧ index + 1 < p.chain.length
      match if here.kept = 0 ∧ interior then p.unlinkEmptyBlock index here.nextBlock else (p, false) with
      | (p, true) => (p.retirePaid block, true)
      | (p, false) => p.payWrite block here

/-- The loop of `meta_pool_flush_retires`: every round pays at least the first debt, or is the last. -/
def flushRetiresLoop : Nat → MetaPool → MetaPool × Bool
  | 0, p => (p, true)
  | fuel + 1, p =>
    match p.retire with
    | [] => (p, true)
    | (block, _) :: _ =>
      match p.payBlock block with
      | (p, false) => (p, false)
      | (p, true) => flushRetiresLoop fuel p

def metaPoolFlushRetires : MetaPool × Bool := flushRetiresLoop p.retire.length p

end BoxOS.TagFS
