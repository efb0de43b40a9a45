import BoxOS.TagFS.ChainFlush
import BoxOS.TagFS.RegistryInv

/-!
# The tag registry on disk

The registry is kept in a chain of blocks with a header of sixteen bytes and 4080 bytes of records each.
`tagRegistryFlush` packs the entries into the blocks of the chain, taking new blocks where the chain ends, and
`tagRegistryLoad` reads them back into a registry.

A flush is given by the block writes it makes, in order, so that a flush that is cut off is a prefix of them.
-/

namespace BoxOS.TagFS

open Lib

/-- `TAGFS_REGISTRY_MAGIC`. -/
def registryMagic : Nat := 0x54524547

/-- `TAGFS_REGISTRY_DATA_SIZE`. -/
def registryDataSize : Nat := 4080

/-- The fields of a `TagRegistryBlock` that a flush fills in. -/
structure RegistryPage where
  entryCount : Nat
  usedBytes : Nat
  data : List UInt8
deriving DecidableEq, Repr

/-- The bytes of a `TagRegistryBlock`. -/
def RegistryPage.encode (page : RegistryPage) (nextBlock : Nat) : Block :=
  leBytes 4 registryMagic ++ (leBytes 4 nextBlock ++ (leBytes 2 page.entryCount ++
    (leBytes 2 page.usedBytes ++ (List.replicate 4 0 ++ page.data))))

/-- A block after `memset`. -/
def emptyPage : RegistryPage := ⟨0, 0, List.replicate registryDataSize 0⟩

/-! ## Records -/

variable (e : TagRegistryEntry)

/-- `key_len`, an `uint8_t`. -/
def TagRegistryEntry.keyLen : Nat := e.key.strlen % 2 ^ 8

/-- `value_len`, an `uint16_t`. -/
def TagRegistryEntry.valueLen : Nat :=
  match e.value with
  | none => 0
  | some value => value.strlen % 2 ^ 16

def TagRegistryEntry.valueBytes : List UInt8 :=
  match e.value with
  | none => []
  | some value => value.1.take e.valueLen

def TagRegistryEntry.recordSize : Nat := 6 + e.keyLen + e.valueLen

/-- The bytes of a record. -/
def TagRegistryEntry.record : List UInt8 :=
  leBytes 2 e.tagId.toNat ++ ([e.flags] ++ (leBytes 1 e.keyLen ++ (leBytes 2 e.valueLen ++
    (e.key.1.take e.keyLen ++ e.valueBytes))))

/-- A record written at `offset`. -/
def RegistryPage.put (page : RegistryPage) (offset : Nat) (e : TagRegistryEntry) : RegistryPage where
  entryCount := page.entryCount + 1
  usedBytes := (offset + e.recordSize) % 2 ^ 16
  data := patch page.data offset e.record

/-! ## Flush -/

/-- The loop of `tag_registry_flush` from `current_block`, with the block being filled. -/
def registryFlushLoop : List TagRegistryEntry → ChainState → Nat → Nat → RegistryPage → Nat → FlushResult
  | [], cs, _, currentBlock, page, _ => ⟨cs, [(currentBlock, page.encode 0)], true⟩
  | e :: es, cs, link, currentBlock, page, dataOffset =>
    if dataOffset + e.recordSize > registryDataSize then
      match cs.follow link with
      | none => ⟨cs, [], false⟩
      | some (newBlock, cs) =>
        -- the block is written with its link before anything is written to the linked block
        let rest := registryFlushLoop es cs (link + 1) newBlock (emptyPage.put 0 e) e.recordSize
        { rest with writes := (currentBlock, page.encode newBlock) :: rest.writes }
    else registryFlushLoop es cs link currentBlock (page.put dataOffset e) (dataOffset + e.recordSize)

variable (reg : TagRegistry)

/-- The entries that a flush visits. -/
def TagRegistry.entries : List TagRegistryEntry :=
  (List.range reg.nextId).filterMap fun i => reg.byId.getD i none

def tagRegistryFlush (cs : ChainState) (firstBlock : Nat) : FlushResult :=
  let cs := cs.start firstBlock
  registryFlushLoop reg.entries cs 0 (cs.chain.getD 0 0) emptyPage 0

/-! ## Load -/

/-- `reg->by_id[new_id]->flags = flags`. -/
def TagRegistry.setFlags (t : TagId) (flags : UInt8) : TagRegistry :=
  match reg.entryOf t with
  | some entry => { reg with byId := reg.byId.set t.toNat (some { entry with flags := flags }) }
  | none => reg

/-- The loop of `tag_registry_load` over the records of one block. -/
def loadRecords : Nat → Nat → List UInt8 → TagRegistry → TagRegistry
  | 0, _, _, reg => reg
  | n + 1, offset, data, reg =>
    if offset + 6 > registryDataSize then reg
    else
      let keyLen := fieldAt 1 (offset + 3) data
      let valueLen := fieldAt 2 (offset + 4) data
      let recordSize := 6 + keyLen + valueLen
      if offset + recordSize > registryDataSize then reg
      else if valueLen ≥ 4096 then loadRecords n (offset + recordSize) data reg
      else
        let key := CStr.ofBuffer ((data.drop (offset + 6)).take keyLen)
        let value :=
          if valueLen > 0 then some (CStr.ofBuffer ((data.drop (offset + 6 + keyLen)).take valueLen)) else none
        let (reg, newId) := internWithId reg (fieldAt 2 offset data) key value
        let reg := match newId with
          | some t => reg.setFlags t (data.getD (offset + 2) 0)
          | none => reg
        loadRecords n (offset + recordSize) data reg

/-- The records of one block. -/
def loadBlock (b : Block) : TagRegistry := loadRecords (fieldAt 2 8 b) 0 (b.drop 16) reg

/-- The loop of `tag_registry_load`: `none` when the chain leaves the volume, meets a block without the magic or takes
too many hops. -/
def registryLoadLoop (run : Nat) (d : Medium) : Nat → Nat → TagRegistry → List Nat → Option (TagRegistry × List Nat)
  | 0, _, _, _ => none
  | hops + 1, block, reg, chain =>
    if block ≥ run then none
    else if (chainFormat registryMagic).good (d block) = false then none
    else
      let reg := loadBlock reg (d block)
      if (chainFormat registryMagic).next (d block) = 0 then some (reg, chain ++ [block])
      else registryLoadLoop run d hops ((chainFormat registryMagic).next (d block)) reg (chain ++ [block])

/-- `tag_registry_load` of a volume of `run` data blocks, all of them readable: the registry and the chain. -/
def tagRegistryLoad (run : Nat) (d : Medium) (reg : TagRegistry) (firstBlock : Nat) : Option (TagRegistry × List Nat) :=
  if run = 0 then none else registryLoadLoop run d run firstBlock reg []

end BoxOS.TagFS
