import BoxOS.Lib.Paged
import BoxOS.TagFS.FileTable
import BoxOS.TagFS.MetaPool
import BoxOS.TagFS.TagBitmap

/-!
# The mounted volume

`g_state` of `tagfs.c` with the file table and the metadata pool, and the operations that create, delete, rename and tag
files. The tags of a file are kept three times: in its metadata record, in the bitmaps of its tags and in its list of
the index.

`none` stands for an operation that never returns (`tagBitmapSet` on file ids from `2 ^ 31` on). Memory does not run
out.
-/

namespace BoxOS.TagFS

open Lib

structure Volume where
  registry : TagRegistry
  index : TagBitmapIndex
  table : FileTable
  pool : MetaPool
  /-- the blocks of the other two chains, those of the registry and of the file table -/
  chains : List Nat
  nextFileId : UInt32
  totalFiles : Nat

/-- `TAGFS_INVALID_TAG_ID`. -/
def invalidTagId : TagId := 0xFFFF

/-- `TAGFS_FILE_ACTIVE`. -/
def fileActive : UInt32 := 1

def FileExtent.extent (e : FileExtent) : Extent := ⟨e.startBlock.toNat, e.blockCount.toNat⟩

/-- The blocks of a file, in order. -/
def fileBlocks (es : List FileExtent) : List Nat := blocksOf (es.map FileExtent.extent)

/-- Where the entry says the metadata is. -/
def FileTableEntry.place (e : FileTableEntry) : Nat × Nat := (e.metaBlock.toNat, e.metaOffset.toNat)

def entryAt (place : Nat × Nat) : FileTableEntry := ⟨UInt32.ofNat place.1, UInt32.ofNat place.2⟩

/-! ## Names -/

/-- The loop of `tagfs_name_stem` from the end of the name to its last dot. -/
def stemLength (name : List UInt8) : Nat → Nat
  | 0 => name.length
  | i + 1 => if name.getD i 0 = 46 then i else stemLength name i

variable (filename : CStr)

/-- `tagfs_name_stem` into a buffer of 128 bytes. -/
def nameStem : CStr :=
  let slen := stemLength filename.1 filename.1.length
  ⟨filename.1.take (if slen ≥ 128 then 127 else slen), fun h => filename.2 (List.mem_of_mem_take h)⟩

variable (v : Volume)

/-- `tagfs_name_tag_intern`; the flush of a registry that has changed is left to `chainWrite`. -/
def Volume.nameTagIntern : Volume × Option TagId :=
  if (nameStem filename).strlen = 0 then (v, none)
  else
    let r := tagRegistryIntern v.registry (nameStem filename) none
    ({ v with registry := r.1 }, r.2)

/-- `tagfs_name_tag_lookup`. -/
def Volume.nameTagLookup : Option TagId :=
  if (nameStem filename).strlen = 0 then none else tagRegistryLookup v.registry (nameStem filename) none

/-! ## Metadata -/

/-- `meta_pool_read` at the place of an entry. -/
def Volume.readMeta (e : FileTableEntry) : Option TagFSMetadata × Volume :=
  let r := metaPoolRead v.pool e.place.1 e.place.2
  (r.1, { v with pool := r.2 })

/-- A new record for a file takes the place of the one at `old`: `meta_pool_write`, `file_table_update`,
`meta_pool_delete`. The changes of the index stand between the last two and touch neither. -/
def Volume.replaceRecord (f : Nat) (old : FileTableEntry) (m : TagFSMetadata) : Volume × Bool :=
  match metaPoolWrite v.pool m with
  | (pool, none) => ({ v with pool := pool }, false)
  | (pool, some place) =>
    ({ v with
      table := fileTableUpdate v.table f (entryAt place)
      pool := (metaPoolDelete pool old.place.1 old.place.2).1 }, true)

/-- `tagfs_free_blocks_internal` for every extent. -/
def MetaPool.freeExtents (p : MetaPool) (es : List FileExtent) : MetaPool :=
  es.foldl (fun p e =>
    let r := p.space.freeBlocksInternal p.dedup p.now e.startBlock.toNat e.blockCount.toNat
    { p with space := r.1, dedup := r.2 }) p

/-- Blocks of the other chains on the medium: a flush of the registry or of the file table writes a block of its chain,
or takes a new one for it. -/
def Volume.chainWrite (block : Option Nat) (content : Block) : Volume :=
  match block with
  | some b => if b ∈ v.chains then { v with pool := (v.pool.writeBlock b content).2 } else v
  | none =>
    match v.pool.space.allocBlocksInternal 1 with
    | none => v
    | some (b, space) =>
      { v with
        chains := v.chains ++ [b]
        pool := ({ v.pool with space := space }.writeBlock b content).2 }

/-! ## Files -/

/-- `final_tags` of `tagfs_create_file_inside`. -/
def finalTags (autoTag : Option TagId) (tagIds : List TagId) : List TagId :=
  tagIds.foldl (fun tags t => if t ∈ tags then tags else tags ++ [t]) autoTag.toList

/-- The loop of `tagfs_create_file_inside` over its tags. -/
def setTags (f : Nat) : List TagId → TagBitmapIndex → Option TagBitmapIndex
  | [], idx => some idx
  | t :: ts, idx => if t = invalidTagId then setTags f ts idx else (tagBitmapSet idx t f).bind (setTags f ts)

/-- `tagfs_create_file_inside`: the file id. -/
def Volume.createFile (tagIds : List TagId) : Option (Volume × Option UInt32) :=
  let (v, autoTag) := v.nameTagIntern filename
  let fileId := v.nextFileId
  let v := { v with nextFileId := v.nextFileId + 1 }
  -- `max_tags` has 16 bits, and there is no memory for no tags
  if (tagIds.length + 1) % 2 ^ 16 = 0 then some (v, none)
  else
    let tags := finalTags autoTag tagIds
    match metaPoolWrite v.pool ⟨fileId, fileActive, 0, 0, 0, tags, [], filename⟩ with
    | (pool, none) => some ({ v with pool := pool }, none)
    | (pool, some place) =>
      (setTags fileId.toNat tags v.index).map fun index =>
        ({ v with
          pool := pool
          table := fileTableUpdate v.table fileId.toNat (entryAt place)
          index := index
          totalFiles := v.totalFiles + 1 }, some fileId)

/-- `tagfs_delete_file_inside`. -/
def Volume.deleteFile (f : Nat) : Volume × Bool :=
  match fileTableLookup v.table f with
  | none => (v, false)
  | some e =>
    let (m, v) := v.readMeta e
    let pool := match m with
      | some m => v.pool.freeExtents m.extents
      | none => v.pool
    ({ v with
      index := tagBitmapRemoveFile v.index f
      table := (fileTableDelete v.table f).1
      pool := (metaPoolDelete pool e.place.1 e.place.2).1
      totalFiles := v.totalFiles - 1 }, true)

/-! ## Tags -/

/-- The tags without the one of the old name, if there is one. -/
def eraseTag : Option TagId → List TagId → List TagId
  | some t, tagIds => tagIds.erase t
  | none, tagIds => tagIds

/-- The tags of a renamed file, whether the tag of the old name was taken out, and whether that of the new one was put
in. -/
def renameTags (oldTag newTag : Option TagId) (tagIds : List TagId) : List TagId × Bool × Bool :=
  if oldTag = newTag then (tagIds, false, false)
  else
    let removed := oldTag.any (· ∈ tagIds)
    let tagIds := eraseTag oldTag tagIds
    match newTag with
    | some t => if t ∈ tagIds then (tagIds, removed, false) else (t :: tagIds, removed, true)
    | none => (tagIds, removed, false)

/-- `tagfs_rename_file_inside`. -/
def Volume.renameFile (f : Nat) (newFilename : CStr) : Option (Volume × Bool) :=
  let (v, newTag) := v.nameTagIntern newFilename
  match fileTableLookup v.table f with
  | none => some (v, false)
  | some e =>
    match v.readMeta e with
    | (none, v) => some (v, false)
    | (some m, v) =>
      let oldTag := v.nameTagLookup m.filename
      let (tagIds, oldTagRemoved, newTagAdded) := renameTags oldTag newTag m.tagIds
      match v.replaceRecord f e { m with filename := newFilename, tagIds := tagIds } with
      | (v, false) => some (v, false)
      | (v, true) =>
        let index := if oldTagRemoved then tagBitmapClear v.index (oldTag.getD invalidTagId) f else v.index
        let index := if newTagAdded then tagBitmapSet index (newTag.getD invalidTagId) f else some index
        index.map fun index => ({ v with index := index }, true)

/-- `tagfs_add_tag_inside`. -/
def Volume.addTag (f : Nat) (t : TagId) : Option (Volume × Bool) :=
  match fileTableLookup v.table f with
  | none => some (v, false)
  | some e =>
    match v.readMeta e with
    | (none, v) => some (v, false)
    | (some m, v) =>
      if t ∈ m.tagIds then some (v, true)
      else
        match v.replaceRecord f e { m with tagIds := m.tagIds ++ [t] } with
        | (v, false) => some (v, false)
        | (v, true) => (tagBitmapSet v.index t f).map fun index => ({ v with index := index }, true)

/-- `tagfs_remove_tag_inside`: the last tag takes the place of the removed one. -/
def Volume.removeTag (f : Nat) (t : TagId) : Volume × Bool :=
  match fileTableLookup v.table f with
  | none => (v, false)
  | some e =>
    match v.readMeta e with
    | (none, v) => (v, false)
    | (some m, v) =>
      match m.tagIds.idxOf? t with
      | none => (v, false)
      | some i =>
        match v.replaceRecord f e { m with tagIds := (m.tagIds.set i (m.tagIds.getLastD 0)).dropLast } with
        | (v, false) => (v, false)
        | (v, true) => ({ v with index := tagBitmapClear v.index t f }, true)

/-- `tagfs_add_tag_string_inside`. -/
def Volume.addTagString (f : Nat) (key : CStr) (value : Option CStr) : Option (Volume × Bool) :=
  let r := tagRegistryIntern v.registry key value
  let v := { v with registry := r.1 }
  match r.2 with
  | none => some (v, false)
  | some t => v.addTag f t

/-- The loop of `tagfs_remove_tag_string_inside` over the tags of the file, and the number of those it removed. -/
def removeKey (key : CStr) (f : Nat) : List TagId → Volume → Volume × Nat
  | [], v => (v, 0)
  | t :: ts, v =>
    if tagRegistryKey v.registry t = some key then
      let (v, done) := v.removeTag f t
      let r := removeKey key f ts v
      (r.1, r.2 + if done then 1 else 0)
    else removeKey key f ts v

/-- `tagfs_remove_tag_string_inside`. -/
def Volume.removeTagString (f : Nat) (key : CStr) : Volume × Bool :=
  let r := removeKey key f (v.index.tagsOf f).ids v
  (r.1, decide (r.2 > 0))

/-- `tagfs_has_tag_inside`. -/
def Volume.hasTag (f : Nat) (t : TagId) : Bool :=
  match v.index.bitmapOf t with
  | none => false
  | some bm => decide (f / 8 < (bm.bitCount + 7) / 8) && testBit8 bm.bits f

/-! ## Mount -/

/-- `TAGFS_BITMAP_INITIAL_TAG_CAP`. -/
def bitmapInitialTagCap : Nat := 64

/-- `TAGFS_BITMAP_INITIAL_FILE_CAP`. -/
def bitmapInitialFileCap : Nat := 256

/-- The tags of a file that `tagfs_init` finds. -/
def indexTags (f : Nat) : List TagId → TagBitmapIndex → Option TagBitmapIndex
  | [], idx => some idx
  | t :: ts, idx => (tagBitmapSet idx t f).bind (indexTags f ts)

/-- The check of one file by `tagfs_init`, on a volume whose file table names the newest records of the pool. -/
def Volume.mountFile (f : Nat) : Option Volume :=
  match fileTableLookup v.table f with
  | none => some v
  | some e =>
    match v.readMeta e with
    | (none, v) => some { v with table := (fileTableDelete v.table f).1 }
    | (some m, v) =>
      if m.flags &&& fileActive = 0 then some { v with table := (fileTableDelete v.table f).1 }
      else (indexTags f m.tagIds v.index).map fun index => { v with index := index }

/-- `for (uint32_t fid = 1; fid < next_file_id; fid++)`: the rest of the loop, `n` rounds from `fid` on. -/
def mountLoop : Nat → Nat → Volume → Option Volume
  | 0, _, v => some v
  | n + 1, fid, v => (v.mountFile fid).bind (mountLoop n (fid + 1))

/-- The tag index of a volume that is mounted. -/
def Volume.mountIndex : Option Volume :=
  (tagBitmapCreate bitmapInitialTagCap bitmapInitialFileCap).bind fun index =>
    mountLoop (v.nextFileId.toNat - 1) 1 { v with index := index }

end BoxOS.TagFS
