import Mathlib.Tactic

/-!
# The deduplication index

`dedup.c` keeps one entry per physical block in two hash tables: `hash_table`, by content, and `block_table`, by block
number. The entries live in the chains of `block_table` here; `hash_table` holds the same entries by their block
number. Content hashes are computed by the callers.

Freeing a block asks `TagFS_DedupUnregister` whether the block may be reclaimed: not while another reference is left.
-/

namespace BoxOS.TagFS

def dedupHashBuckets : Nat := 8192

def dedupMaxRefs : Nat := 0xFFFF

abbrev DedupHash := List UInt8

structure DedupEntry where
  hash : DedupHash
  physicalBlock : Nat
  refCount : Nat
  createTime : Nat
  lastAccess : Nat
  tagContext : Nat
deriving DecidableEq

/-- `DedupState`: chains by content hash (as block numbers) and by block number. -/
structure DedupState where
  initialized : Bool
  hashTable : Nat → List Nat
  blockTable : Nat → List DedupEntry
  entryCount : Nat

namespace DedupState

/-- `DedupHashBucket`: the first four bytes, little endian, masked. -/
def hashBucket (h : DedupHash) : Nat :=
  ((h.getD 0 0).toNat + 256 * (h.getD 1 0).toNat + 65536 * (h.getD 2 0).toNat + 16777216 * (h.getD 3 0).toNat) %
    dedupHashBuckets

/-- `DedupBlockBucket`. -/
def blockBucket (physicalBlock : Nat) : Nat := physicalBlock % dedupHashBuckets

/-- `DedupComputeTagContext`. -/
def computeTagContext (tagContext : Nat) : Nat := (tagContext * 0x9e3779b9) % 2 ^ 32

variable (d : DedupState)

/-- `DedupFindByBlockLocked`. -/
def findByBlock (physicalBlock : Nat) : Option DedupEntry :=
  (d.blockTable (blockBucket physicalBlock)).find? (fun e => e.physicalBlock == physicalBlock)

variable (e : DedupEntry)

/-- `DedupLinkHashLocked`: at the head of the entry's chain. -/
def linkHash : DedupState :=
  { d with
    hashTable := Function.update d.hashTable (hashBucket e.hash)
      (e.physicalBlock :: d.hashTable (hashBucket e.hash)) }

/-- `DedupUnlinkHashLocked`. -/
def unlinkHash : DedupState :=
  { d with
    hashTable := Function.update d.hashTable (hashBucket e.hash)
      ((d.hashTable (hashBucket e.hash)).erase e.physicalBlock) }

/-- `DedupUnlinkBlockLocked`. -/
def unlinkBlock : DedupState :=
  { d with
    blockTable := Function.update d.blockTable (blockBucket e.physicalBlock)
      ((d.blockTable (blockBucket e.physicalBlock)).erase e) }

/-- `DedupEvictLocked`. -/
def evict : DedupState :=
  let d := (d.unlinkHash e).unlinkBlock e
  { d with entryCount := d.entryCount - 1 }

/-- An entry changed where it stands in its block chain. -/
def store (e e' : DedupEntry) : DedupState :=
  { d with
    blockTable := Function.update d.blockTable (blockBucket e.physicalBlock)
      ((d.blockTable (blockBucket e.physicalBlock)).map (fun x => if x = e then e' else x)) }

/-- `TagFS_DedupRegister`, with memory for a new entry. -/
def register (physicalBlock : Nat) (hash : DedupHash) (tagContext now : Nat) : DedupState :=
  if physicalBlock = 0 ∨ d.initialized = false then d
  else match d.findByBlock physicalBlock with
    | some e =>
      let d' := if e.hash = hash then d else (d.unlinkHash e).linkHash { e with hash := hash }
      d'.store e { e with hash := hash, tagContext := computeTagContext tagContext, lastAccess := now }
    | none =>
      let e : DedupEntry := ⟨hash, physicalBlock, 1, now, now, computeTagContext tagContext⟩
      let d' := d.linkHash e
      { d' with
        blockTable := Function.update d'.blockTable (blockBucket physicalBlock)
          (e :: d'.blockTable (blockBucket physicalBlock))
        entryCount := d'.entryCount + 1 }

/-- `TagFS_DedupUnregister`: may the block be reclaimed, and the index afterwards. -/
def unregister (physicalBlock now : Nat) : Bool × DedupState :=
  if physicalBlock = 0 ∨ d.initialized = false then (true, d)
  else match d.findByBlock physicalBlock with
    | none => (true, d)
    | some e =>
      if 1 < e.refCount then
        (false, d.store e { e with refCount := e.refCount - 1, lastAccess := now })
      else (true, d.evict e)

end DedupState

end BoxOS.TagFS
