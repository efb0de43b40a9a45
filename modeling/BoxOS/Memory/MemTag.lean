import BoxOS.Memory.TagIndex

/-!
# Tags on memory regions

`memtag.c` with its registries of tags and regions. Which region carries which tag is stored three times: as the sorted
list of tag ids of the region, as a bit of the tag's bitmap, and as a count in the tag's entry. The bit is not set when
`MemTagBitmapSet` gets no memory, and nobody looks at that; other allocations succeed. What the operations write into
page tables and publish as events is left out.
-/

namespace BoxOS.Memory

/-! ## Data -/

/-- `MEMTAG_INVALID_TAG_ID`. -/
def invalidTagId : UInt16 := 0xFFFF

/-- `MEMTAG_MAX_TAG_ID`. -/
def maxTagId : Nat := 0xFFFE

/-- `MEMTAG_INVALID_REGION_ID`. -/
def invalidRegionId : Nat := 0xFFFFFFFF

def pmmPageSize : Nat := 4096

/-- `MemTagRegistryEntry`; its `tag_id` is its place in the registry. -/
structure MemTagRegistryEntry where
  name : String
  regionCount : Nat
  guard : Bool

/-- `MEMTAG_ATTACH_ACTIVE` and `MEMTAG_ATTACH_REVOKED`. -/
inductive AttachState where
  | active
  | revoked
  deriving DecidableEq

/-- `MemRegionAttach`: a cabin and where the region is mapped in it. -/
structure MemRegionAttach where
  ctx : Nat
  vaBase : Nat
  state : AttachState
  deriving DecidableEq

/-- `MemRegion`; of its flags the two that are read. -/
structure MemRegion where
  active : Bool
  kernel : Bool
  basePhys : Nat
  pages : Nat
  tagIds : List UInt16
  tagCap : Nat
  attaches : List MemRegionAttach

/-- A slot as `memset` and `MemRegionRegistryDestroy` leave it. -/
def MemRegion.cleared : MemRegion := ⟨false, false, 0, 0, [], 0, []⟩

/-- `g_tag_registry`, `g_region_registry` and `g_bitmap_index`. The entries of the tag registry are in the order of
their ids, `slot_count` is the length of `slots`, and `idByPage` is `none` for `MEMTAG_INVALID_REGION_ID`. -/
structure MemTagState where
  tags : List MemTagRegistryEntry
  slots : List MemRegion
  slotCap : Nat
  freeStack : List Nat
  idByPage : Nat → Option Nat
  pageCount : Nat
  index : MemTagBitmapIndex

/-! ## A region's list of tags -/

/-- `TagSearch`: the place of the tag in the sorted list, or where it would stand. -/
def tagSearch (ids : List UInt16) (t : UInt16) : Nat → Nat → Nat → Nat × Bool
  | 0, lo, _ => (lo, false)
  | fuel + 1, lo, hi =>
    if lo < hi then
      let mid := (lo + hi) / 2
      if ids.getD mid 0 < t then tagSearch ids t fuel (mid + 1) hi
      else if ids.getD mid 0 > t then tagSearch ids t fuel lo mid
      else (mid, true)
    else (lo, false)

/-- `TagsGrow`: the capacity doubles in 16 bits. -/
def tagsGrow (tagCap : Nat) : Option Nat :=
  let newCap := if tagCap = 0 then 4 else tagCap * 2 % 2 ^ 16
  if newCap ≤ tagCap then none else some newCap

namespace MemRegion

/-- Where `TagSearch` finds the tag in the whole list. -/
def find (r : MemRegion) (t : UInt16) : Nat × Bool := tagSearch r.tagIds t (r.tagIds.length + 1) 0 r.tagIds.length

/-- `MemRegionRegistryAddTag` on an active region: a tag that is there is left alone. -/
def addTag (r : MemRegion) (t : UInt16) : Option MemRegion :=
  if (r.find t).2 then some r
  else
    match if r.tagIds.length ≥ r.tagCap then tagsGrow r.tagCap else some r.tagCap with
    | none => none
    | some cap =>
      some { r with tagIds := r.tagIds.take (r.find t).1 ++ t :: r.tagIds.drop (r.find t).1, tagCap := cap }

/-- `MemRegionRegistryRemoveTag` on an active region. -/
def removeTag (r : MemRegion) (t : UInt16) : MemRegion :=
  if (r.find t).2 then { r with tagIds := r.tagIds.take (r.find t).1 ++ r.tagIds.drop ((r.find t).1 + 1) } else r

end MemRegion

namespace MemTagState

/-! ## The tag registry -/

variable (s : MemTagState)

/-- `MemTagRegistryLookupStr`; two strings are split alike only when they are equal. -/
def lookupStr (name : String) : Option UInt16 :=
  (s.tags.findIdx? fun e => e.name == name).map UInt16.ofNat

/-- `MemTagRegistryInternStr`. -/
def internStr (name : String) : Option UInt16 × MemTagState :=
  match s.lookupStr name with
  | some t => (some t, s)
  | none =>
    if s.tags.length > maxTagId then (none, s)
    else (some (UInt16.ofNat s.tags.length), { s with tags := s.tags ++ [⟨name, 0, false⟩] })

/-- `MemTagRegistryRefInc`. -/
def refInc (t : UInt16) : MemTagState :=
  { s with tags := s.tags.modify t.toNat fun e => { e with regionCount := (e.regionCount + 1) % 2 ^ 32 } }

/-- `MemTagRegistryRefDec`. -/
def refDec (t : UInt16) : MemTagState :=
  { s with tags := s.tags.modify t.toNat fun e => { e with regionCount := e.regionCount - 1 } }

/-- `MemTagRegistryRefCount`. -/
def refCount (t : UInt16) : Nat := (s.tags[t.toNat]?.map (·.regionCount)).getD 0

/-! ## The bitmap index -/

/-- `MemTagBitmapSet(&g_bitmap_index, t, id)`, its result ignored. -/
def bitmapSet (t : UInt16) (id : Nat) (al : Allocs := {}) : MemTagState :=
  { s with index := (s.index.memTagBitmapSet t id al).2 }

/-- `MemTagBitmapClear(&g_bitmap_index, t, id)`. -/
def bitmapClear (t : UInt16) (id : Nat) : MemTagState :=
  { s with index := s.index.memTagBitmapClear t id }

/-! ## The region registry -/

/-- The region of an id that is in use and active. -/
def region (id : Nat) : Option MemRegion := s.slots[id]?.filter (·.active)

def setSlot (id : Nat) (r : MemRegion) : MemTagState := { s with slots := s.slots.set id r }

/-- `RegionSlotCeiling`; `heapSlots` is how many slots a quarter of the heap holds. -/
def slotCeiling (heapSlots : Nat) : Nat := min (max heapSlots 1024) (2 ^ 20)

def ensureSlotCapacity (slotCap neededId heapSlots : Nat) : Option Nat :=
  if neededId < slotCap then some slotCap
  else if neededId ≥ slotCeiling heapSlots then none
  else
    let newCap := slotCap * 2 % 2 ^ 32
    let newCap := if newCap ≤ neededId then neededId + 1 else newCap
    some (if newCap > slotCeiling heapSlots then slotCeiling heapSlots else newCap)

/-- The pages of a range that `id_by_page` covers: `first` to `last`, cut at `page_count`. -/
def pageRange (basePhys pages p : Nat) : Bool :=
  let first := basePhys / pmmPageSize
  let last := (first + pages) % 2 ^ 64
  decide (first < s.pageCount) && decide (first ≤ p) && decide (p < min last s.pageCount)

def idByPageFill (basePhys pages id : Nat) : MemTagState :=
  { s with idByPage := fun p => if s.pageRange basePhys pages p then some id else s.idByPage p }

def idByPageClearMatching (basePhys pages id : Nat) : MemTagState :=
  { s with idByPage := fun p =>
      if s.pageRange basePhys pages p && decide (s.idByPage p = some id) then none else s.idByPage p }

/-- The slot that `MemRegionRegistryCreate` takes: the last one freed, else a new one. -/
def takeSlot (heapSlots : Nat) : Option (Nat × MemTagState) :=
  match s.freeStack with
  | id :: rest => some (id, { s with freeStack := rest })
  | [] =>
    match ensureSlotCapacity s.slotCap s.slots.length heapSlots with
    | none => none
    | some cap => some (s.slots.length, { s with slots := s.slots ++ [.cleared], slotCap := cap })

/-- `MemRegionRegistryCreate`. -/
def registryCreate (basePhys pages : Nat) (kernel : Bool) (heapSlots : Nat) :
    Option (Nat × MemTagState) :=
  if pages = 0 then none
  else
    match s.takeSlot heapSlots with
    | none => none
    | some (id, s) =>
      let s := s.setSlot id ⟨true, kernel, basePhys, pages, [], 0, []⟩
      some (id, if basePhys ≠ 0 then s.idByPageFill basePhys pages id else s)

/-- `MemRegionRegistryDestroy`. -/
def registryDestroy (id : Nat) : MemTagState :=
  match s.region id with
  | none => s
  | some r =>
    let s := s.setSlot id .cleared
    let s := if r.basePhys ≠ 0 then s.idByPageClearMatching r.basePhys r.pages id else s
    if s.freeStack.length < s.slotCap then { s with freeStack := id :: s.freeStack } else s

/-- `MemRegionRegistryAddTag`; `none` is an error. -/
def registryAddTag (id : Nat) (t : UInt16) : Option MemTagState :=
  if t = invalidTagId then none
  else
    match s.region id with
    | none => none
    | some r => (r.addTag t).map (s.setSlot id)

/-- `MemRegionRegistryRemoveTag`; `none` is an error. -/
def registryRemoveTag (id : Nat) (t : UInt16) : Option MemTagState :=
  if t = invalidTagId then none
  else (s.region id).map fun r => s.setSlot id (r.removeTag t)

/-- `MemRegionRegistryListTags`. -/
def registryListTags (id max : Nat) : List UInt16 :=
  match s.region id with
  | none => []
  | some r => r.tagIds.take max

/-- `MemRegionRegistryFromPhys`. -/
def fromPhys (phys : Nat) : Option Nat :=
  if phys / pmmPageSize ≥ s.pageCount then none
  else (s.idByPage (phys / pmmPageSize)).filter fun id => (s.region id).isSome

/-! ## Operations -/

/-- The three steps of taking a tag: the list, the bit and the count. -/
def addCounted (id : Nat) (t : UInt16) (al : Allocs := {}) : Option MemTagState :=
  (s.registryAddTag id t).map fun s => (s.bitmapSet t id al).refInc t

/-- The three steps of giving a tag up. -/
def removeCounted (id : Nat) (t : UInt16) : Option MemTagState :=
  (s.registryRemoveTag id t).map fun s => (s.bitmapClear t id).refDec t

/-- `"numa:domain:%u"`. -/
def domainName (domain : Nat) : String := "numa:domain:" ++ toString domain

/-- `ApplyDerivedTags`; `physDomain` is `pmm_phys_domain`. -/
def applyDerivedTags (physDomain : Nat → Nat) (s : MemTagState) (id basePhys : Nat) (al : Allocs := {}) : MemTagState :=
  if basePhys = 0 then s
  else if physDomain basePhys = 0xFFFFFFFF then s
  else
    match s.internStr (domainName (physDomain basePhys)) with
    | (none, s) => s
    | (some t, s) => (s.addCounted id t al).getD s

def memRegionCreate (physDomain : Nat → Nat) (s : MemTagState) (basePhys pages : Nat) (kernel : Bool)
    (heapSlots : Nat) (al : Allocs := {}) : Option Nat × MemTagState :=
  match s.registryCreate basePhys pages kernel heapSlots with
  | none => (none, s)
  | some (id, s) => (some id, applyDerivedTags physDomain s id basePhys al)

/-- The loop of `MemRegionDestroy`: the first tag goes until there is none. -/
def destroyLoop (id : Nat) : Nat → MemTagState → MemTagState
  | 0, s => s
  | fuel + 1, s =>
    match s.registryListTags id 1 with
    | [] => s
    | t :: _ =>
      match s.removeCounted id t with
      | none => s
      | some s => destroyLoop id fuel s

/-- `r->tag_count`. -/
def tagCount (id : Nat) : Nat :=
  match s.region id with
  | none => 0
  | some r => r.tagIds.length

/-- `MemRegionDestroy`; each round of the loop takes a tag, so as many rounds as the region has tags are enough. -/
def memRegionDestroy (id : Nat) : MemTagState :=
  if id = invalidRegionId then s
  else (destroyLoop id (s.tagCount id) s).registryDestroy id

/-- `MemTagApply`: whether it succeeds. -/
def memTagApply (id : Nat) (name : String) (al : Allocs := {}) : Bool × MemTagState :=
  if id = invalidRegionId then (false, s)
  else
    match s.internStr name with
    | (none, s) => (false, s)
    | (some t, s) =>
      match s.addCounted id t al with
      | none => (false, s)
      | some s => (true, s)

def memTagClear (id : Nat) (name : String) : Bool × MemTagState :=
  if id = invalidRegionId then (false, s)
  else
    match s.lookupStr name with
    | none => (true, s)
    | some t =>
      match s.removeCounted id t with
      | none => (false, s)
      | some s => (true, s)

/-- The region that `MemTagApplyByPhys` uses again: it starts at the address, has as many pages and is not the kernel's.
-/
def exactRegion (basePhys pages : Nat) : Option Nat :=
  (s.fromPhys basePhys).filter fun id =>
    match s.region id with
    | none => false
    | some r => decide (r.basePhys = basePhys) && decide (r.pages = pages) && !r.kernel

def memTagApplyByPhys (physDomain : Nat → Nat) (s : MemTagState) (basePhys pages : Nat) (name : String)
    (heapSlots : Nat) : Bool × MemTagState :=
  if basePhys = 0 ∨ pages = 0 then (false, s)
  else
    match s.exactRegion basePhys pages with
    | some id => s.memTagApply id name
    | none =>
      match memRegionCreate physDomain s basePhys pages false heapSlots with
      | (none, s) => (false, s)
      | (some id, s) => s.memTagApply id name

/-- The part of `AllocAndRegister` after the pages were allocated at `phys`. -/
def memTagPmmAlloc (physDomain : Nat → Nat) (s : MemTagState) (phys pages : Nat) (name : String) (heapSlots : Nat) :
    MemTagState :=
  match s.registryCreate phys pages false heapSlots with
  | none => s
  | some (id, s) =>
    let s :=
      match s.internStr name with
      | (none, s) => s
      | (some t, s) => (((s.registryAddTag id t).getD s).bitmapSet t id).refInc t
    applyDerivedTags physDomain s id phys

/-- The loop of `MemTagPmmFreed` over the pages; `prevId` is the region of the page before. -/
def freedLoop : List Nat → Option Nat → MemTagState → MemTagState
  | [], _, s => s
  | p :: ps, prevId, s =>
    match s.idByPage p with
    | none => freedLoop ps prevId s
    | some id =>
      if prevId = some id then freedLoop ps prevId s
      else
        match s.slots[id]? with
        | none => freedLoop ps (some id) s
        | some r => freedLoop ps (some id) (if r.kernel then s else s.memRegionDestroy id)

def memTagPmmFreed (basePhys pages : Nat) : MemTagState :=
  let first := basePhys / pmmPageSize
  let last := (first + pages) % 2 ^ 64
  if basePhys = 0 then s
  else if first ≥ s.pageCount then s
  else freedLoop (List.range' first (min last s.pageCount - first)) none s

/-- `"pku:%u"`. -/
def pkuName (pkey : Nat) : String := "pku:" ++ toString pkey

/-- `PkuValueFromTagId`. -/
def pkuValue (t : UInt16) : Option Nat :=
  (List.range 16).find? fun i => s.lookupStr (pkuName i) == some t

/-- The loop of `MemTagApplyPkey` over the tags it has listed; the flag says that it met the tag of the key. -/
def pkeyLoop (id pkey : Nat) : List UInt16 → MemTagState → Bool × MemTagState
  | [], s => (false, s)
  | t :: ts, s =>
    match s.pkuValue t with
    | none => pkeyLoop id pkey ts s
    | some v =>
      if v = pkey then (true, s)
      else pkeyLoop id pkey ts ((((s.registryRemoveTag id t).getD s).bitmapClear t id).refDec t)

def memTagApplyPkey (id pkey : Nat) : Bool × MemTagState :=
  if id = invalidRegionId then (false, s)
  else if pkey ≥ 16 then (false, s)
  else
    match pkeyLoop id pkey (s.registryListTags id 32) s with
    | (true, s) => (true, s)
    | (false, s) => if pkey = 0 then (true, s) else s.memTagApply id (pkuName pkey)

/-! ## The start -/

/-- `SeedReservedTags`. -/
def reservedNames : List String :=
  ["zone:dma32", "zone:user", "zone:high", "purpose:kernel", "purpose:mmio", "purpose:shared", "purpose:firmware",
    "pinned:true", "cache:wb", "cache:wt", "cache:uc", "cache:uc-", "cache:wc", "cache:wp", "mce:poisoned",
    "mce:corrected", "mce:fault:detected", "mce:fault:recovered", "mce:fault:fatal", "mce:migration:completed",
    "mce:migration:failed", "mce:migration:unmapped", "apei:ghes:ready", "apei:memory:error", "apei:processor:error",
    "apei:pcie:error", "apei:generic:error", "cet:enabled", "shstk:enabled", "ibt:enabled", "iommu:ready",
    "iommu:fault", "iommu:dma:mapped", "iommu:dma:unmapped", "iommu:domain:attached", "pku:ready", "pku:fault:denied",
    "pku:0", "pku:1", "pku:2", "pku:3", "pku:4", "pku:5", "pku:6", "pku:7", "pku:8", "pku:9", "pku:10", "pku:11",
    "pku:12", "pku:13", "pku:14", "pku:15", "lam:ready", "lam:enabled:u48", "lam:enabled:u57", "lam:fault:tag",
    "tme:ready", "tme:locked", "tme:active", "tme:mk_active", "tme:pool:ready", "tme:keyid:rekey:failed",
    "tme:keyid:0", "tme:keyid:1", "tme:keyid:2", "tme:keyid:3", "tme:keyid:4", "tme:keyid:5", "tme:keyid:6",
    "tme:keyid:7", "tme:keyid:8", "tme:keyid:9", "tme:keyid:10", "tme:keyid:11", "tme:keyid:12", "tme:keyid:13",
    "tme:keyid:14", "tme:keyid:15", "cet:ready", "cet:shstk:supervisor", "cet:shstk:user", "cet:fault:cp",
    "cet:ibt:enabled"]

/-- A kernel region that `SeedZoneRegions` makes of the memory map, with its tags. -/
structure Seed where
  basePhys : Nat
  pages : Nat
  tags : List String

def seedRegionTag (id : Nat) (name : String) : MemTagState :=
  match s.internStr name with
  | (none, s) => s
  | (some t, s) =>
    match s.registryAddTag id t with
    | none => s
    | some s => s.bitmapSet t id

/-- One region of `SeedZoneRegions`. -/
def seedRegion (heapSlots : Nat) (s : MemTagState) (seed : Seed) : MemTagState :=
  match s.registryCreate seed.basePhys seed.pages true heapSlots with
  | none => s
  | some (id, s) => seed.tags.foldl (fun s name => s.seedRegionTag id name) s

/-- The registries of `MemTagInit` before anything is seeded. -/
def empty (pageCount : Nat) : MemTagState where
  tags := []
  slots := []
  slotCap := 1024
  freeStack := []
  idByPage := fun _ => none
  pageCount := pageCount
  index := memTagBitmapInit 64 1024

def memTagInit (pageCount heapSlots : Nat) (seeds : List Seed) : MemTagState :=
  seeds.foldl (seedRegion heapSlots) (reservedNames.foldl (fun s name => (s.internStr name).2) (empty pageCount))

end MemTagState

end BoxOS.Memory
