import BoxOS.Lib.Slots
import BoxOS.Lib.Words
import BoxOS.TagFS.Registry

/-!
# The tag index

`TagBitmapIndex` of `tag_bitmap.c`: for every tag the bitmap of the files that carry it, for every file the list of the
tags it carries, and a cache of sixteen earlier query results. `tagBitmapSet`, `tagBitmapClear` and
`tagBitmapRemoveFile` change the two directions of the relation, `tagBitmapQuery` intersects bitmaps.

A capacity of the source is the length of its list here, and a pointer that may be `NULL` is an `Option`. Allocations
succeed, but `kmalloc(0)` is `NULL`: that is what the doubling of a 16-bit capacity comes to at 32768. `none` stands for
a growth loop that never ends, which is what file ids from `2 ^ 31` on make of it.
-/

namespace BoxOS.TagFS

open Lib List

structure TagBitmap where
  bits : List UInt8
  bitCount : Nat
  fileCount : Nat
deriving DecidableEq, Repr

/-- `TagIdList`; its `count` is the length of `ids`. -/
structure TagIdList where
  ids : List TagId
  capacity : Nat
deriving DecidableEq, Repr

/-- `QueryCacheEntry`; its `count` is the length of `fileIds`. -/
structure QueryCacheEntry where
  hash : UInt32
  generation : Nat
  fileIds : Option (List Nat)
  tagKey : Option (List TagId)
  tagCount : Nat
deriving DecidableEq, Repr

structure TagBitmapIndex where
  bitmaps : List (Option TagBitmap)
  maxFileId : Nat
  fileToTags : List TagIdList
  generation : Nat
  cache : List QueryCacheEntry
deriving DecidableEq, Repr

def queryCacheSlots : Nat := 16

variable (idx : TagBitmapIndex)

/-- `idx->bitmaps[tag_id]`, `none` also past the capacity. -/
def TagBitmapIndex.bitmapOf (t : TagId) : Option TagBitmap := idx.bitmaps.getD t.toNat none

/-- `idx->file_to_tags[file_id]`, empty past the capacity. -/
def TagBitmapIndex.tagsOf (f : Nat) : TagIdList := idx.fileToTags.getD f ⟨[], 0⟩

/-- `tag_bitmap_create`; `kmalloc` gives nothing for an empty array. -/
def tagBitmapCreate (initialTagCap initialFileCap : Nat) : Option TagBitmapIndex :=
  if initialTagCap = 0 ∨ initialFileCap = 0 then none
  else some {
    bitmaps := replicate initialTagCap none
    maxFileId := 0
    fileToTags := replicate initialFileCap ⟨[], 0⟩
    generation := 0
    cache := replicate queryCacheSlots ⟨0, 0, none, none, 0⟩ }

/-! ## Growth -/

def ensureBitmapCapacity (t : TagId) : Option TagBitmapIndex := do
  let bitmaps ← ensureCapacity none idx.bitmaps t.toNat
  return { idx with bitmaps := bitmaps }

def ensureFileCapacity (f : Nat) : Option TagBitmapIndex := do
  let fileToTags ← ensureCapacity ⟨[], 0⟩ idx.fileToTags f
  return { idx with fileToTags := fileToTags }

variable (bm : TagBitmap)

def ensureBitmapWidth (newMax : Nat) : TagBitmap :=
  if bm.bitCount ≥ newMax + 1 then bm
  else
    let oldSize := (bm.bitCount + 7) / 8
    let newSize := (newMax + 8) / 8
    { bm with
      bits := bm.bits.take oldSize ++ replicate (newSize - oldSize) 0
      bitCount := newSize * 8 }

/-! ## Updates -/

def reverseIndexAdd (list : TagIdList) (t : TagId) : TagIdList :=
  if t ∈ list.ids then list
  else if list.ids.length ≥ list.capacity then
    let newCap := if list.capacity ≠ 0 then list.capacity * 2 % 2 ^ 16 else 4
    -- `kmalloc(0)` fails: the list stays as it was
    if newCap = 0 then list else ⟨list.ids ++ [t], newCap⟩
  else ⟨list.ids ++ [t], list.capacity⟩

/-- `reverse_index_remove`: the last id takes the place of the removed one. -/
def reverseIndexRemove (list : TagIdList) (t : TagId) : TagIdList :=
  match list.ids.idxOf? t with
  | some i => { list with ids := (list.ids.set i (list.ids.getLastD 0)).dropLast }
  | none => list

/-- The bit of `f` set and counted, as in `tag_bitmap_set`. -/
def TagBitmap.setFile (f : Nat) : TagBitmap :=
  if testBit8 bm.bits f then bm else { bm with bits := setBit bm.bits f, fileCount := bm.fileCount + 1 }

/-- The bit of `f` cleared and counted off, as in `tag_bitmap_clear` and `tag_bitmap_remove_file`. -/
def TagBitmap.clearFile (f : Nat) : TagBitmap :=
  if f / 8 < (bm.bitCount + 7) / 8 ∧ testBit8 bm.bits f = true then
    { bm with bits := clearBit bm.bits f, fileCount := bm.fileCount - 1 }
  else bm

/-- `idx->generation++` in 64 bits. -/
def TagBitmapIndex.bump : TagBitmapIndex :=
  { idx with generation := (idx.generation + 1) % 2 ^ 64 }

/-- `tag_bitmap_set`, with its allocations succeeding. -/
def tagBitmapSet (t : TagId) (f : Nat) : Option TagBitmapIndex := do
  let idx ← ensureBitmapCapacity idx t
  let idx ← ensureFileCapacity idx f
  let bm := (idx.bitmapOf t).getD ⟨[], 0, 0⟩
  let bm := ensureBitmapWidth bm (if f > idx.maxFileId then f else idx.maxFileId)
  return TagBitmapIndex.bump
    { idx with
      bitmaps := idx.bitmaps.set t.toNat (some (bm.setFile f))
      maxFileId := if f > idx.maxFileId then f else idx.maxFileId
      fileToTags := idx.fileToTags.set f (reverseIndexAdd (idx.tagsOf f) t) }

def tagBitmapClear (t : TagId) (f : Nat) : TagBitmapIndex :=
  match idx.bitmapOf t with
  | none => idx
  | some bm =>
    TagBitmapIndex.bump
      { idx with
        bitmaps := idx.bitmaps.set t.toNat (some (bm.clearFile f))
        fileToTags := idx.fileToTags.set f (reverseIndexRemove (idx.tagsOf f) t) }

/-- The loop of `tag_bitmap_remove_file` over the tags of the file. -/
def clearFileFrom (f : Nat) : List (Option TagBitmap) → List TagId → List (Option TagBitmap)
  | bitmaps, [] => bitmaps
  | bitmaps, t :: ts =>
    match bitmaps.getD t.toNat none with
    | some bm => clearFileFrom f (bitmaps.set t.toNat (some (bm.clearFile f))) ts
    | none => clearFileFrom f bitmaps ts

def tagBitmapRemoveFile (f : Nat) : TagBitmapIndex :=
  if f ≥ idx.fileToTags.length then idx
  else
    TagBitmapIndex.bump
      { idx with
        bitmaps := clearFileFrom f idx.bitmaps (idx.tagsOf f).ids
        fileToTags := idx.fileToTags.set f ⟨[], 0⟩ }

/-! ## The query cache -/

/-- A key group of a query: `NULL`, or the ids of the tags with one key. -/
abbrev QueryGroup := Option (List TagId)

/-- One round of the hash: `h ^= x; h *= 0x01000193;`. -/
def hashStep (h x : UInt32) : UInt32 := (h ^^^ x) * 0x01000193

def queryHash (tags : List TagId) (groups : List QueryGroup) : UInt32 :=
  let h := tags.foldl (fun h t => hashStep h t.toUInt32) 0x811c9dc5
  groups.foldl (fun h g => (g.getD []).foldl (fun h t => hashStep h (t.toUInt32 ||| 0x80000000)) h) h

/-- The test of `cache_lookup` on one slot. -/
def QueryCacheEntry.hits (e : QueryCacheEntry) (hash : UInt32) (generation : Nat) (tags : List TagId) : Bool :=
  e.hash == hash && e.generation == generation && e.tagCount == tags.length && e.fileIds.isSome &&
    match e.tagKey with
    | none => false
    | some key => (List.range tags.length).all fun j => key[j]? == tags[j]?

def cacheLookup (hash : UInt32) (tags : List TagId) : Option QueryCacheEntry :=
  idx.cache.find? fun e => e.hits hash idx.generation tags

/-- `cache_store`; `tag_count` is cut to 16 bits. -/
def cacheStore (hash : UInt32) (tags : List TagId) (fileIds : List Nat) : TagBitmapIndex :=
  { idx with
    cache := idx.cache.set (hash.toNat % queryCacheSlots)
      ⟨hash, idx.generation, some fileIds, some tags, tags.length % 2 ^ 16⟩ }

/-! ## Set bits of a bitmap -/

/-- `while (word != 0 && count < max_results)`: the set bits of one word, lowest first. A word of `width` bits is empty
after `width` rounds. -/
def drainWord (width base maxFileId maxResults : Nat) : Nat → Nat → List Nat → List Nat
  | 0, _, out => out
  | fuel + 1, word, out =>
    if word ≠ 0 ∧ out.length < maxResults then
      let fid := base + ctz width word
      drainWord width base maxFileId maxResults fuel (word &&& (word - 1))
        (if fid ≥ 1 ∧ fid ≤ maxFileId then out ++ [fid] else out)
    else out

/-- `extract_set_bits`: whole words, then the bytes after the last whole word. -/
def extractSetBits (bitmap : List UInt8) (byteCount maxFileId maxResults : Nat) : List Nat :=
  let wordCount := byteCount / 8
  let out := (List.range wordCount).foldl (fun out w =>
    if out.length < maxResults then drainWord 64 (w * 64) maxFileId maxResults 64 (load64 bitmap w) out
    else out) []
  (List.range' (wordCount * 8) (byteCount - wordCount * 8)).foldl (fun out b =>
    if out.length < maxResults then drainWord 8 (b * 8) maxFileId maxResults 8 (bitmap.getD b 0).toNat out
    else out) out

def bitmapIsEmpty (bitmap : List UInt8) (byteCount : Nat) : Bool :=
  let wordCount := byteCount / 8
  ((List.range wordCount).all fun w => load64 bitmap w == 0) &&
    (List.range' (wordCount * 8) (byteCount - wordCount * 8)).all fun b => bitmap.getD b 0 == 0

/-! ## Queries -/

/-- `for (w = 0; w < words; w++) r64[w] op= b64[w];`. -/
def wordLoop (op : Nat → Nat → Nat) (r b : List UInt8) (words : Nat) : List UInt8 :=
  (List.range words).foldl (fun r w => store64 r w (op (load64 r w) (load64 b w))) r

/-- `for (b = lo; b < hi; b++) r[b] op= bits[b];`. -/
def byteLoop (op : UInt8 → UInt8 → UInt8) (r b : List UInt8) (lo hi : Nat) : List UInt8 :=
  (List.range' lo (hi - lo)).foldl (fun r k => r.set k (op (r.getD k 0) (b.getD k 0))) r

/-- The bytes of `bm` that a result of `size` bytes can use. -/
def TagBitmap.usable (size : Nat) : Nat :=
  if (bm.bitCount + 7) / 8 < size then (bm.bitCount + 7) / 8 else size

/-- The first tag of a query: its bitmap, cut or extended with zeros to the result's size. -/
def copyBitmap (size : Nat) : List UInt8 :=
  bm.bits.take (bm.usable size) ++ replicate (size - bm.usable size) 0

/-- A further tag: the result intersected with its bitmap. -/
def andBitmap (r : List UInt8) (bm : TagBitmap) (size : Nat) : List UInt8 :=
  let copyLen := bm.usable size
  let words := copyLen / 8
  let r := wordLoop (· &&& ·) r bm.bits words
  let r := byteLoop (· &&& ·) r bm.bits (words * 8) copyLen
  byteLoop (fun _ _ => 0) r bm.bits copyLen size

/-- A tag of a group: its bitmap joined into `temp`. -/
def orBitmap (temp : List UInt8) (bm : TagBitmap) (size : Nat) : List UInt8 :=
  let orLen := bm.usable size
  let words := orLen / 8
  let temp := wordLoop (· ||| ·) temp bm.bits words
  byteLoop (· ||| ·) temp bm.bits (words * 8) orLen

/-- The loop over the tags; `none` is a return with no results. The flag is `first`. -/
def queryTags (idx : TagBitmapIndex) (size : Nat) : List TagId → List UInt8 → Bool → Option (List UInt8 × Bool)
  | [], r, first => some (r, first)
  | t :: ts, r, first =>
    match idx.bitmapOf t with
    | none => none
    | some bm =>
      if first then queryTags idx size ts (copyBitmap bm size) false
      else
        let r := andBitmap r bm size
        if bitmapIsEmpty r size then none else queryTags idx size ts r false

/-- The union of the bitmaps of a group. -/
def groupBitmap (size : Nat) (group : List TagId) : List UInt8 :=
  group.foldl (fun temp t =>
    match idx.bitmapOf t with
    | none => temp
    | some bm => orBitmap temp bm size) (replicate size 0)

/-- The loop over the groups. -/
def queryGroups (idx : TagBitmapIndex) (size : Nat) : List QueryGroup → List UInt8 → Bool → Option (List UInt8 × Bool)
  | [], r, first => some (r, first)
  | g :: gs, r, first =>
    if g.getD [] = [] then queryGroups idx size gs r first
    else
      let temp := groupBitmap idx size (g.getD [])
      let r := if first then temp else wordLoop (· &&& ·) r temp (size / 8)
      if bitmapIsEmpty r size then none else queryGroups idx size gs r false

/-- The bytes of a result bitmap: a multiple of eight that holds `max_file_id`. -/
def resultSize (maxFileId : Nat) : Nat := ((maxFileId + 8) / 8 + 7) / 8 * 8

/-- The computed path of `tag_bitmap_query`. -/
def computeQuery (tags : List TagId) (groups : List QueryGroup) (maxResults : Nat) :
    Option (List Nat) := do
  let size := resultSize idx.maxFileId
  let (r, first) ← queryTags idx size tags (replicate size 0) true
  let (r, first) ← queryGroups idx size groups r first
  if first then none else return extractSetBits r size idx.maxFileId maxResults

/-- `tag_bitmap_query`: the ids it writes, and the index with its cache. -/
def tagBitmapQuery (tags : List TagId) (groups : List QueryGroup) (maxResults : Nat) :
    List Nat × TagBitmapIndex :=
  if idx.maxFileId = 0 then ([], idx)
  else
    let cacheable := tags.length > 0 ∧ groups.length = 0
    let hash := if cacheable then queryHash tags groups else 0
    match (if cacheable then cacheLookup idx hash tags else none) with
    | some cached => ((cached.fileIds.getD []).take maxResults, idx)
    | none =>
      match computeQuery idx tags groups maxResults with
      | none => ([], idx)
      | some out => (out, if cacheable ∧ out.length < maxResults then cacheStore idx hash tags out else idx)

def tagBitmapTagsForFile (f : Nat) (maxIds : Nat) : List TagId := (idx.tagsOf f).ids.take maxIds

end BoxOS.TagFS
