import BoxOS.Lib.Runs
import Mathlib.Tactic

/-!
# The integrity map

The hash of every data block is kept in pages of 512 on the volume, behind a write-back cache of 16 slots (`cacheGet`).
`integrityUpdate` records the hash of a block that was written, `integrityVerify` compares; `integrityInit` lays down a
fresh map, takes over the one the ledger names, or moves it when the volume has grown.

Every read and write of a map block succeeds or fails as the environment says (`evictOk`, `readOk`, ...). A block of the
volume is the function of its 512 words; what a data block holds when read as a page of the map is `words`.
-/

open Function (update)

namespace BoxOS.TagFS

def entriesPerBlock : Nat := 512

def mapCacheSlots : Nat := 16

def rotRingMax : Nat := 64

structure MapSlot where
  /-- `none` is `SLOT_EMPTY` -/
  mapIdx : Option Nat
  lru : Nat
  dirty : Bool
  entries : Nat → Nat

/-- `integrity_map_block` and `integrity_map_blocks` of the ledger. -/
structure MapLedger where
  block : Nat
  blocks : Nat
  deriving DecidableEq

structure IntegrityState (δ : Type) where
  initialized : Bool
  mapEntries : Nat
  mapFirst : Nat
  mapCount : Nat
  /-- slots from 16 on are not used -/
  cache : Nat → MapSlot
  lruTick : Nat
  errors : Nat
  rotRing : List Nat
  disk : Nat → Nat → Nat
  ledger : MapLedger
  /-- the ledger on the volume -/
  storedLedger : MapLedger
  dataBlocks : Nat
  /-- the data last passed to `IntegrityUpdate` for a block -/
  last : Nat → Option δ
  /-- the map covered the block then -/
  recorded : Nat → Bool
  /-- all map I/O succeeded so far -/
  ioClean : Bool

inductive IntegrityCode where
  | ok
  | alreadyInitialized
  | notInitialized
  | noMemory
  deriving DecidableEq

/-- The slot that holds a page. -/
def slotOf (cache : Nat → MapSlot) (idx : Nat) : Option Nat :=
  (List.range mapCacheSlots).find? fun k => decide ((cache k).mapIdx = some idx)

/-- The loop that picks a slot to reuse: the first empty one, else the least recently used. -/
def victimFrom (cache : Nat → MapSlot) : List Nat → Nat → Nat
  | [], v => v
  | k :: rest, v =>
    if (cache k).mapIdx = none then k
    else victimFrom cache rest (if (cache k).lru < (cache v).lru then k else v)

def victim (cache : Nat → MapSlot) : Nat := victimFrom cache (List.range mapCacheSlots) 0

section

variable {δ : Type}

namespace IntegrityState

variable (s : IntegrityState δ)

def inMapRegion (block : Nat) : Bool :=
  s.mapFirst ≠ 0 ∧ s.mapFirst ≤ block ∧ block < s.mapFirst + s.mapCount

/-- `++g_lru_tick` -/
def tick : Nat := (s.lruTick + 1) % 2 ^ 32

def setSlot (k : Nat) (slot : MapSlot) : IntegrityState δ :=
  { s with cache := update s.cache k slot }

def writeBlock (block : Nat) (page : Nat → Nat) : IntegrityState δ :=
  { s with disk := update s.disk block page }

/-- Writes the page of a slot to its block. -/
def writeBack (k : Nat) : IntegrityState δ :=
  match (s.cache k).mapIdx with
  | none => s
  | some idx => s.writeBlock (s.mapFirst + idx) (s.cache k).entries

/-- Reads a page into a slot. -/
def load (k idx : Nat) : IntegrityState δ :=
  { s.setSlot k ⟨some idx, s.tick, false, s.disk (s.mapFirst + idx)⟩ with lruTick := s.tick }

/-- `cache_get`; `evictOk`, `readOk`: the write of the victim and the read of the page succeed. -/
def cacheGet (idx : Nat) (evictOk readOk : Bool) : Option Nat × IntegrityState δ :=
  match slotOf s.cache idx with
  | some k => (some k, { s.setSlot k { s.cache k with lru := s.tick } with lruTick := s.tick })
  | none =>
    let v := victim s.cache
    if (s.cache v).mapIdx ≠ none ∧ (s.cache v).dirty = true then
      if evictOk then
        if readOk then (some v, (s.writeBack v).load v idx) else (none, s.writeBack v)
      else (none, s)
    else if readOk then (some v, s.load v idx) else (none, s)

/-- The block has an entry in the map. -/
def covers (block : Nat) : Bool :=
  s.initialized && decide (block < s.mapEntries) && !s.inMapRegion block

/-- `IntegrityUpdate` of data with hash `h` -/
def integrityUpdate (block h : Nat) (evictOk readOk : Bool) : IntegrityState δ :=
  if s.covers block then
    match s.cacheGet (block / entriesPerBlock) evictOk readOk with
    | (none, t) => t
    | (some k, t) =>
      if (t.cache k).entries (block % entriesPerBlock) ≠ h then
        t.setSlot k { t.cache k with
          entries := update (t.cache k).entries (block % entriesPerBlock) h, dirty := true }
      else t
  else s

/-- `IntegrityVerify` of data with hash `h` -/
def integrityVerify (block h : Nat) (evictOk readOk : Bool) : Bool × IntegrityState δ :=
  if s.covers block then
    match s.cacheGet (block / entriesPerBlock) evictOk readOk with
    | (none, t) => (true, t)
    | (some k, t) =>
      if (t.cache k).entries (block % entriesPerBlock) = 0 then (true, t)
      else if h = (t.cache k).entries (block % entriesPerBlock) then (true, t)
      else (false, { t with
        errors := (t.errors + 1) % 2 ^ 32
        rotRing := if t.rotRing.length < rotRingMax then t.rotRing ++ [block] else t.rotRing })
  else (true, s)

/-- The loop of `IntegrityFlush`. -/
def flushSlots (writeOk : Nat → Bool) : List Nat → IntegrityState δ → IntegrityState δ
  | [], s => s
  | k :: rest, s =>
    if (s.cache k).mapIdx = none ∨ (s.cache k).dirty = false then flushSlots writeOk rest s
    else if writeOk k then flushSlots writeOk rest ((s.writeBack k).setSlot k { s.cache k with dirty := false })
    else flushSlots writeOk rest s

def integrityFlush (writeOk : Nat → Bool) : IntegrityState δ :=
  if s.initialized then s.flushSlots writeOk (List.range mapCacheSlots) else s

def integrityShutdown (writeOk : Nat → Bool) : IntegrityState δ :=
  if s.initialized then
    { s.integrityFlush writeOk with
      initialized := false
      cache := fun k => { (s.integrityFlush writeOk).cache k with mapIdx := none }
      mapFirst := 0, mapCount := 0, mapEntries := 0 }
  else s

/-- `tagfs_write_ledger` -/
def writeLedger (ok : Bool) : IntegrityState δ :=
  if ok then { s with storedLedger := s.ledger } else s

end IntegrityState

/-- What the environment answers during `IntegrityInit`. -/
structure InitIo where
  kmallocOk : Bool
  /-- the run of blocks that `tagfs_alloc_blocks` finds -/
  alloc : Option Nat
  zeroOk : Nat → Bool
  readOk : Nat → Bool
  writeOk : Nat → Bool
  ledgerOk : Bool

/-- The loop that zeroes a fresh map. -/
def zeroLoop (io : InitIo) (start : Nat) : List Nat → (Nat → Nat → Nat) → Nat → Nat → Nat
  | [], disk => disk
  | i :: rest, disk =>
    zeroLoop io start rest (if io.zeroOk i then update disk (start + i) fun _ => 0 else disk)

/-- The loop that moves a map of `stored` pages at `first` to `start`; whether it got to the end. -/
def moveLoop (io : InitIo) (first start stored : Nat) : List Nat → (Nat → Nat → Nat) → Bool × (Nat → Nat → Nat)
  | [], disk => (true, disk)
  | i :: rest, disk =>
    if i < stored ∧ io.readOk i = false then (false, disk)
    else if io.writeOk i then
      moveLoop io first start stored rest
        (update disk (start + i) (if i < stored then disk (first + i) else fun _ => 0))
    else (false, disk)

namespace IntegrityState

variable (s : IntegrityState δ)

/-- A map for all blocks could not be laid down: the old one covers what it covers. -/
def coverStored : IntegrityState δ :=
  { s with initialized := true, mapCount := s.ledger.blocks, mapEntries := s.ledger.blocks * entriesPerBlock }

/-- Moves the map the ledger names to a bigger run of blocks. -/
def growMap (io : InitIo) : IntegrityState δ :=
  match (if io.kmallocOk then io.alloc else none) with
  | none => s.coverStored
  | some start =>
    let (moved, disk) := moveLoop io s.ledger.block start s.ledger.blocks (List.range s.mapCount) s.disk
    let t := { s with disk := disk }
    if moved ∧ io.ledgerOk then
      { t with
        initialized := true, mapFirst := start, ledger := ⟨start, s.mapCount⟩, storedLedger := ⟨start, s.mapCount⟩ }
    else t.coverStored

/-- `g_map_entries`, `g_map_count` and an empty cache. -/
def startMap : IntegrityState δ :=
  { s with
    mapEntries := s.dataBlocks
    mapCount := (s.dataBlocks + (entriesPerBlock - 1)) % 2 ^ 32 / entriesPerBlock
    cache := fun k => { s.cache k with mapIdx := none, dirty := false }
    lruTick := 0
    rotRing := [] }

def integrityInit (io : InitIo) : IntegrityCode × IntegrityState δ :=
  if s.initialized then (.alreadyInitialized, s)
  else if s.dataBlocks = 0 then (.notInitialized, s)
  else
    let t := s.startMap
    if t.ledger.block = 0 then
      match io.alloc with
      | none => (.noMemory, t)
      | some start =>
        let u := { t with
          mapFirst := start, ledger := ⟨start, t.mapCount⟩
          disk := zeroLoop io start (List.range t.mapCount) t.disk }
        (.ok, { u.writeLedger io.ledgerOk with initialized := true })
    else
      let u := { t with mapFirst := t.ledger.block }
      if t.ledger.blocks ≠ 0 ∧ t.ledger.blocks < t.mapCount then (.ok, u.growMap io)
      else (.ok, { u with initialized := true })

/-- A block is written; the pages of the map in use are written where they leave the cache. -/
def writeData (block : Nat) (page : Nat → Nat) : IntegrityState δ :=
  if s.inMapRegion block then s else s.writeBlock block page

/-- The map the ledger names has no block in common with `n` blocks from `start` on. -/
def ApartFrom (start n : Nat) : Prop :=
  s.ledger.block = 0 ∨ start + n ≤ s.ledger.block ∨ s.ledger.block + s.ledger.blocks ≤ start

end IntegrityState

inductive IntegrityEvent (δ : Type) where
  | update (block : Nat) (d : δ) (evictOk readOk : Bool)
  | verify (block : Nat) (d : δ) (evictOk readOk : Bool)
  | flush (writeOk : Nat → Bool)
  | shutdown (writeOk : Nat → Bool)
  | init (io : InitIo)
  /-- the volume grows -/
  | grow (dataBlocks : Nat)
  /-- the ledger is read from the volume again -/
  | remount

/-- The environment of the map: a hash, and the words of a data block. -/
structure IntegrityEnv (δ : Type) where
  hash : δ → Nat
  words : δ → Nat → Nat

/-- One call. A block that is written is apart from the map, or a page of the map in use, which its cache writes; the
allocator hands out blocks that are free. -/
inductive IntegrityStep (env : IntegrityEnv δ) :
    IntegrityState δ → IntegrityEvent δ → IntegrityState δ → Prop
  | update {s : IntegrityState δ} (block : Nat) (d : δ) (evictOk readOk : Bool) :
      s.inMapRegion block = true ∨ s.ApartFrom block 1 →
      IntegrityStep env s (.update block d evictOk readOk)
        { (s.writeData block (env.words d)).integrityUpdate block (env.hash d) evictOk readOk with
          last := update s.last block (some d)
          recorded := update s.recorded block (s.covers block)
          ioClean := s.ioClean && evictOk && readOk }
  | verify {s : IntegrityState δ} (block : Nat) (d : δ) (evictOk readOk : Bool) :
      IntegrityStep env s (.verify block d evictOk readOk)
        { (s.integrityVerify block (env.hash d) evictOk readOk).2 with ioClean := s.ioClean && evictOk && readOk }
  | flush {s : IntegrityState δ} (writeOk : Nat → Bool) :
      IntegrityStep env s (.flush writeOk)
        { s.integrityFlush writeOk with ioClean := s.ioClean && (List.range mapCacheSlots).all writeOk }
  | shutdown {s : IntegrityState δ} (writeOk : Nat → Bool) :
      IntegrityStep env s (.shutdown writeOk)
        { s.integrityShutdown writeOk with ioClean := s.ioClean && (List.range mapCacheSlots).all writeOk }
  | init {s : IntegrityState δ} (io : InitIo) :
      (∀ start ∈ io.alloc, start ≠ 0 ∧ s.ApartFrom start s.startMap.mapCount) →
      IntegrityStep env s (.init io)
        { (s.integrityInit io).2 with
          ioClean := s.ioClean && io.ledgerOk && (List.range s.startMap.mapCount).all fun i =>
            io.zeroOk i && io.readOk i && io.writeOk i }
  | grow {s : IntegrityState δ} (dataBlocks : Nat) : s.initialized = false → s.dataBlocks ≤ dataBlocks →
      IntegrityStep env s (.grow dataBlocks) { s with dataBlocks := dataBlocks }
  | remount {s : IntegrityState δ} : s.initialized = false →
      IntegrityStep env s .remount { s with ledger := s.storedLedger }

/-- A volume without a map. -/
def integrityStart (disk : Nat → Nat → Nat) (cache : Nat → MapSlot) (dataBlocks : Nat) : IntegrityState δ :=
  ⟨false, 0, 0, 0, cache, 0, 0, [], disk, ⟨0, 0⟩, ⟨0, 0⟩, dataBlocks, fun _ => none, fun _ => false, true⟩

end

end BoxOS.TagFS
