import Mathlib.Data.List.Sort
import Mathlib.Algebra.GroupWithZero.Nat
import Mathlib.Data.List.Range

/-!
# The index of memory tags

`tag_bitmap.c` of the memory tags: one bitmap of region ids for each tag, grown by doubling, and a cache of sixteen
query results. A bitmap is the function of its bits; what the source does byte by byte is done here on the bits of these
bytes. Every allocation may fail. An entry of the cache also says, for the proofs only, which query it was stored for
and with what limit.
-/

namespace BoxOS.Memory

/-! ## Bitmaps -/

structure MemTagBitmap where
  bits : Nat → Bool
  bitCount : Nat

def bitsBytes (bitCount : Nat) : Nat := (bitCount + 7) / 8

/-- A bitmap as `IndexEnsureTagSlot` makes it. -/
def MemTagBitmap.empty : MemTagBitmap := ⟨fun _ => false, 0⟩

/-- `while (cap <= need)`: the capacity doubles in 32 bits until `need` fits, and the loop gives up where doubling
wraps, which thirty-three rounds reach. -/
def doubleUntil (need : Nat) : Nat → Nat → Option Nat
  | 0, _ => none
  | fuel + 1, cap =>
    if cap ≤ need then
      let doubled := cap * 2 % 2 ^ 32
      if doubled ≤ cap then none else doubleUntil need fuel doubled
    else some cap

def bitmapEnsureCapacity (bm : MemTagBitmap) (neededBit : Nat) (alloc : Bool) : Option MemTagBitmap :=
  if neededBit < bm.bitCount then some bm
  else
    match doubleUntil neededBit 33 (if bm.bitCount ≠ 0 then bm.bitCount else 64) with
    | none => none
    | some newCount =>
      -- the new bytes are zero, then the old bytes are copied over them
      if alloc then some ⟨fun i => if i < 8 * bitsBytes bm.bitCount then bm.bits i else false, newCount⟩ else none

/-- `BitsSet`. -/
def MemTagBitmap.set (bm : MemTagBitmap) (region : Nat) : MemTagBitmap :=
  { bm with bits := fun i => if i = region then true else bm.bits i }

/-- `if (region_id < bm->bit_count && BitsTest(bm->bits, region_id)) BitsClear(bm->bits, region_id);`. -/
def MemTagBitmap.clear (bm : MemTagBitmap) (region : Nat) : MemTagBitmap :=
  if region < bm.bitCount ∧ bm.bits region = true then
    { bm with bits := fun i => if i = region then false else bm.bits i }
  else bm

/-! ## Queries and the cache -/

/-- The three kinds of query with their lists of tags. -/
inductive MemTagQuery where
  | and (tags : List UInt16)
  | or (tags : List UInt16)
  | mixed (required any excluded : List UInt16)
  deriving DecidableEq

namespace MemTagQuery

def required : MemTagQuery → List UInt16
  | and tags => tags
  | or _ => []
  | mixed required _ _ => required

def any : MemTagQuery → List UInt16
  | and _ => []
  | or tags => tags
  | mixed _ any _ => any

def excluded : MemTagQuery → List UInt16
  | mixed _ _ excluded => excluded
  | _ => []

/-- `MEMTAG_QUERY_TYPE_*`. -/
def queryType : MemTagQuery → UInt8
  | and _ => 0
  | or _ => 1
  | mixed _ _ _ => 2

def sortTags (tags : List UInt16) : List UInt16 := tags.insertionSort (· ≤ ·)

/-- `key_tags_buf`: the first 64 tags of the lists, sorted. -/
def key (q : MemTagQuery) : List UInt16 := sortTags ((q.required ++ q.any ++ q.excluded).take 64)

end MemTagQuery

def fnvOffset : UInt64 := 0xcbf29ce484222325

/-- One round of `Fnv1a64`. -/
def fnvStep (h x : UInt64) : UInt64 := (h ^^^ x) * 0x100000001b3

/-- `Fnv1a64` over the bytes of the tags, low byte first. -/
def fnv1a64 (tags : List UInt16) : UInt64 :=
  tags.foldl (fun h (t : UInt16) => fnvStep (fnvStep h (UInt64.ofNat (t.toNat % 256))) (UInt64.ofNat (t.toNat / 256)))
    fnvOffset

def cacheHash (tags : List UInt16) (queryType : UInt8) : UInt64 :=
  let header := [tags.length % 256, tags.length / 256 % 256, queryType.toNat]
  header.foldl (fun h b => fnvStep h (UInt64.ofNat b)) fnvOffset ^^^ fnv1a64 tags

/-- `MemTagQueryCacheEntry`; the last two fields are for the proofs. -/
structure QueryCacheEntry where
  used : Bool
  keyHash : UInt64
  genSnapshot : Nat
  resultIds : List Nat
  tagKey : List UInt16
  queryType : UInt8
  lastUsed : Nat
  origin : MemTagQuery
  limit : Nat

/-- `CacheClearEntry`. -/
def QueryCacheEntry.cleared : QueryCacheEntry := ⟨false, 0, 0, [], [], 0, 0, .and [], 0⟩

def memtagQueryCacheSlots : Nat := 16

/-- `MemTagBitmapIndex`; `bitmap_cap` is the length of `bitmaps`. -/
structure MemTagBitmapIndex where
  bitmaps : List (Option MemTagBitmap)
  maxRegionId : Nat
  regionCap : Nat
  generation : Nat
  cache : List QueryCacheEntry
  cacheCounter : Nat

def memTagBitmapInit (initialTagCap initialRegionCap : Nat) : MemTagBitmapIndex where
  bitmaps := List.replicate (if initialTagCap = 0 then 64 else initialTagCap) none
  maxRegionId := 0
  regionCap := if initialRegionCap = 0 then 1024 else initialRegionCap
  generation := 0
  cache := List.replicate memtagQueryCacheSlots .cleared
  cacheCounter := 0

/-- What the source's allocations of one call do: the array of bitmaps, a bitmap, its bits; the workspace of a query,
the mask of its any-tags, and the key and the results of the cache entry. -/
structure Allocs where
  array : Bool := true
  bitmap : Bool := true
  bits : Bool := true
  workspace : Bool := true
  anyMask : Bool := true
  key : Bool := true
  result : Bool := true

namespace MemTagBitmapIndex

variable (idx : MemTagBitmapIndex)

/-- `tag_id >= bitmap_cap || !bitmaps[tag_id]` is `none`. -/
def bitmapOf (t : UInt16) : Option MemTagBitmap := idx.bitmaps.getD t.toNat none

def setBitmap (t : UInt16) (bm : MemTagBitmap) : MemTagBitmapIndex :=
  { idx with bitmaps := idx.bitmaps.set t.toNat (some bm) }

/-- `idx->generation++`. -/
def bump : MemTagBitmapIndex := { idx with generation := (idx.generation + 1) % 2 ^ 64 }

/-- The first half of `IndexEnsureTagSlot`: the array of bitmaps grows. -/
def ensureArray (t : UInt16) (al : Allocs) : Option MemTagBitmapIndex :=
  if t.toNat ≥ idx.bitmaps.length then
    match doubleUntil t.toNat 33 idx.bitmaps.length with
    | none => none
    | some newCap =>
      if al.array then
        some { idx with bitmaps := idx.bitmaps ++ List.replicate (newCap - idx.bitmaps.length) none }
      else none
  else some idx

/-- The second half: the tag gets a bitmap. A grown array stays when this fails. -/
def ensureSlot (t : UInt16) (al : Allocs) : Option MemTagBitmapIndex :=
  match idx.bitmapOf t with
  | some _ => some idx
  | none => if al.bitmap then some (idx.setBitmap t .empty) else none

/-- What `MemTagBitmapSet` does once the tag has its bitmap. -/
def setIn (t : UInt16) (region : Nat) (al : Allocs) : Bool × MemTagBitmapIndex :=
  match bitmapEnsureCapacity ((idx.bitmapOf t).getD .empty) region al.bits with
  | none => (false, idx)
  | some bm =>
    (true, { idx.setBitmap t (bm.set region) with
      maxRegionId := if region > idx.maxRegionId then region else idx.maxRegionId }.bump)

/-- `MemTagBitmapSet`: whether it succeeds. -/
def memTagBitmapSet (t : UInt16) (region : Nat) (al : Allocs) : Bool × MemTagBitmapIndex :=
  match idx.ensureArray t al with
  | none => (false, idx)
  | some grown =>
    match grown.ensureSlot t al with
    | none => (false, grown)
    | some slotted => slotted.setIn t region al

def memTagBitmapClear (t : UInt16) (region : Nat) : MemTagBitmapIndex :=
  match idx.bitmapOf t with
  | none => idx
  | some bm => (idx.setBitmap t (bm.clear region)).bump

def memTagBitmapRemoveRegion (region : Nat) : MemTagBitmapIndex :=
  { idx with bitmaps := idx.bitmaps.map (Option.map fun bm : MemTagBitmap => bm.clear region) }.bump

def memTagBitmapHas (t : UInt16) (region : Nat) : Bool :=
  match idx.bitmapOf t with
  | none => false
  | some bm => if region < bm.bitCount then bm.bits region else false

/-! ## The cache -/

variable (q : MemTagQuery)

/-- The tests of `CacheLookup` on one slot. -/
def hits (e : QueryCacheEntry) : Bool :=
  e.used && decide (e.genSnapshot = idx.generation) && decide (e.keyHash = cacheHash q.key q.queryType) &&
    decide (e.tagKey.length = q.key.length) && decide (e.queryType = q.queryType) && decide (e.tagKey = q.key)

/-- The slot that `CacheLookup` answers from. -/
def lookup : Option Nat := idx.cache.findIdx? (idx.hits q)

def entry (i : Nat) : QueryCacheEntry := idx.cache.getD i .cleared

/-- `e->last_used = ++idx->cache_counter`. -/
def touch (i : Nat) : MemTagBitmapIndex :=
  { idx with
    cacheCounter := (idx.cacheCounter + 1) % 2 ^ 64
    cache := idx.cache.set i { idx.entry i with lastUsed := (idx.cacheCounter + 1) % 2 ^ 64 } }

/-- The loop that picks a victim: the first unused slot, else the first of those used longest ago. -/
def victimLoop : List QueryCacheEntry → Nat → Nat → Nat → Nat
  | [], _, victim, _ => victim
  | e :: es, i, victim, oldest =>
    if !e.used then i
    else if e.lastUsed < oldest then victimLoop es (i + 1) i e.lastUsed
    else victimLoop es (i + 1) victim oldest

/-- `CacheStore`: the victim is cleared first, and stays so when an allocation fails. -/
def cacheStore (max : Nat) (result : List Nat) (al : Allocs) :
    MemTagBitmapIndex :=
  let victim := victimLoop idx.cache 0 0 (2 ^ 64 - 1)
  let cleared := { idx with cache := idx.cache.set victim .cleared }
  if q.key.length > 0 ∧ al.key = false then cleared
  else if result.length > 0 ∧ al.result = false then cleared
  else
    { idx with
      cacheCounter := (idx.cacheCounter + 1) % 2 ^ 64
      cache := idx.cache.set victim
        { used := true, keyHash := cacheHash q.key q.queryType, genSnapshot := idx.generation, resultIds := result,
          tagKey := q.key, queryType := q.queryType, lastUsed := (idx.cacheCounter + 1) % 2 ^ 64, origin := q,
          limit := max } }

/-! ## The computed path -/

/-- `while (v && n < max)` and the loop over the last bits: the set bits among `count` from `base` on, while there is
room. -/
def emitRange (bits : Nat → Bool) (max base count : Nat) (out : List Nat) : List Nat :=
  (List.range count).foldl (fun out k =>
    if out.length < max ∧ bits (base + k) = true then out ++ [base + k] else out) out

/-- `EmitFromBitmap`: the whole words, then the bits after the last whole word. -/
def emitFromBitmap (bits : Nat → Bool) (bitCount max : Nat) : List Nat :=
  let wordCount := bitCount / 64
  let out := (List.range wordCount).foldl (fun out w =>
    if out.length < max then emitRange bits max (w * 64) 64 out else out) []
  emitRange bits max (wordCount * 64) (bitCount - wordCount * 64) out

/-- The loop of `AndFoldRequired` over the tags after the first; the workspace and `use_bits`. -/
def andLoop (idx : MemTagBitmapIndex) : List UInt16 → (Nat → Bool) → Nat → (Nat → Bool) × Nat
  | [], workspace, useBits => (workspace, useBits)
  | t :: ts, workspace, useBits =>
    match idx.bitmapOf t with
    | none => (fun _ => false, 0)
    | some bm =>
      let cmpBytes := bitsBytes useBits
      let common := min cmpBytes (bitsBytes bm.bitCount)
      andLoop idx ts
        (fun i =>
          if i < 8 * common then workspace i && bm.bits i
          else if i < 8 * cmpBytes then false
          else workspace i)
        (if bm.bitCount < useBits then bm.bitCount else useBits)

def andFoldRequired (required : List UInt16) (workspaceCapBits : Nat) : (Nat → Bool) × Nat :=
  match required with
  | [] => (fun _ => false, 0)
  | first :: rest =>
    match idx.bitmapOf first with
    | none => (fun _ => false, 0)
    | some bm0 =>
      let useBits := min bm0.bitCount workspaceCapBits
      -- the last byte is masked and the bytes after it are zero
      andLoop idx rest (fun i => decide (i < useBits) && bm0.bits i) useBits

/-- The bitmaps of the tags joined into a mask of `bytes` bytes. -/
def orLoop (idx : MemTagBitmapIndex) (bytes : Nat) : List UInt16 → (Nat → Bool) → Nat → Bool
  | [], mask => mask
  | t :: ts, mask =>
    match idx.bitmapOf t with
    | none => orLoop idx bytes ts mask
    | some bm =>
      orLoop idx bytes ts fun i =>
        if i < 8 * min (bitsBytes bm.bitCount) bytes then mask i || bm.bits i else mask i

/-- `IntersectAny`; when its mask cannot be allocated, the workspace stays as it is. -/
def intersectAny (any : List UInt16) (workspace : Nat → Bool) (workspaceBits : Nat)
    (alloc : Bool) : Nat → Bool :=
  if any.length = 0 then workspace
  else if alloc = false then workspace
  else
    let mask := orLoop idx (bitsBytes workspaceBits) any fun _ => false
    fun i => if i < 8 * bitsBytes workspaceBits then workspace i && mask i else workspace i

def subtractExcluded (idx : MemTagBitmapIndex) (workspaceBits : Nat) : List UInt16 → (Nat → Bool) → Nat → Bool
  | [], workspace => workspace
  | t :: ts, workspace =>
    match idx.bitmapOf t with
    | none => subtractExcluded idx workspaceBits ts workspace
    | some bm =>
      subtractExcluded idx workspaceBits ts fun i =>
        if i < 8 * min (bitsBytes bm.bitCount) (bitsBytes workspaceBits) then workspace i && !bm.bits i else workspace i

/-- The bits of the workspace of a query: `max_region_id + 1`, at least `region_cap`. -/
def workspaceBits : Nat :=
  let bits := (idx.maxRegionId + 1) % 2 ^ 32
  if bits < idx.regionCap then idx.regionCap else bits

/-- The workspace that a query computes, and `effective_bits`. -/
def compute (al : Allocs) : (Nat → Bool) × Nat :=
  match q with
  | .or tags => (idx.orLoop (bitsBytes idx.workspaceBits) tags fun _ => false, idx.workspaceBits)
  | _ =>
    let folded := idx.andFoldRequired q.required idx.workspaceBits
    let kept := idx.intersectAny q.any folded.1 folded.2 al.anyMask
    (idx.subtractExcluded folded.2 q.excluded kept, folded.2)

/-- What a query returns: the count, and the ids in the caller's buffer. -/
structure Reply where
  count : Nat
  out : List Nat
  deriving DecidableEq

/-- The computed path of `QueryCore`. -/
def queryMiss (max : Nat) (al : Allocs) : Reply × MemTagBitmapIndex :=
  if idx.workspaceBits = 0 ∨ al.workspace = false then (⟨0, []⟩, idx)
  else
    let (workspace, effectiveBits) := idx.compute q al
    let out := emitFromBitmap workspace effectiveBits max
    (⟨out.length, out⟩, idx.cacheStore q max out al)

/-- `QueryCore`, as the three queries call it. A hit returns the count of the entry, whatever fits the buffer. -/
def queryCore (max : Nat) (al : Allocs) : Reply × MemTagBitmapIndex :=
  if max = 0 then (⟨0, []⟩, idx)
  else
    match idx.lookup q with
    | some i => (⟨(idx.entry i).resultIds.length, (idx.entry i).resultIds.take max⟩, idx.touch i)
    | none => idx.queryMiss q max al

end MemTagBitmapIndex

end BoxOS.Memory
