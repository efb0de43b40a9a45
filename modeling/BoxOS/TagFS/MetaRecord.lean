import BoxOS.Lib.Words
import BoxOS.TagFS.Registry

/-!
# Metadata records

A `TagFSMetadata` is kept as a record of a 42-byte header, its tag ids, its extents and its name, with a CRC over the
whole record.

The counts of the source's arrays are the lengths of the lists here; a name that is `NULL` packs, and reads back, as an
empty one.
-/

namespace BoxOS.TagFS

open Lib List

structure FileExtent where
  startBlock : UInt32
  blockCount : UInt16
deriving DecidableEq, Repr

structure TagFSMetadata where
  fileId : UInt32
  flags : UInt32
  size : UInt64
  createdTime : UInt64
  modifiedTime : UInt64
  tagIds : List TagId
  extents : List FileExtent
  filename : CStr
deriving DecidableEq

def recordHeaderSize : Nat := 42

/-- `TAGFS_MPOOL_DATA_SIZE`. -/
def mpoolDataSize : Nat := 4080

/-- One step of `KCrc16` over a bit. -/
def crcShift (crc : UInt16) : UInt16 := if crc &&& 0x8000 ≠ 0 then (crc <<< 1) ^^^ 0x1021 else crc <<< 1

def kCrc16 (data : List UInt8) : UInt16 :=
  data.foldl (fun crc b => crcShift^[8] (crc ^^^ (b.toUInt16 <<< (8 : UInt16)))) 0xFFFF

variable (m : TagFSMetadata)

def metaPoolRecordSize : Nat :=
  recordHeaderSize + 2 * m.tagIds.length + 6 * m.extents.length + m.filename.strlen

/-- The check of an extent against a volume of `total` blocks. -/
def FileExtent.inVolume (e : FileExtent) (total : Nat) : Bool :=
  let start := e.startBlock.toNat
  let count := e.blockCount.toNat
  let overflow := count > 0 ∧ start + count > 0xFFFFFFFF
  let oob := total > 0 ∧ (start ≥ total ∨ start + count > total)
  !(count = 0 ∨ overflow ∨ oob)

/-- The bytes of a tag id. -/
def tagBytes (t : TagId) : List UInt8 := leBytes 2 t.toNat

def FileExtent.bytes (e : FileExtent) : List UInt8 := leBytes 4 e.startBlock.toNat ++ leBytes 2 e.blockCount.toNat

/-- The header of a record, with the given CRC. -/
def recordHeader (crc : Nat) : List UInt8 :=
  leBytes 2 (metaPoolRecordSize m) ++ (leBytes 4 m.fileId.toNat ++ (leBytes 4 m.flags.toNat ++
    (leBytes 8 m.size.toNat ++ (leBytes 8 m.createdTime.toNat ++ (leBytes 8 m.modifiedTime.toNat ++
      (leBytes 2 m.tagIds.length ++ (leBytes 2 m.extents.length ++ (leBytes 2 m.filename.strlen ++ leBytes 2 crc))))))))

/-- The bytes after the header. -/
def recordBody : List UInt8 :=
  m.tagIds.flatMap tagBytes ++ (m.extents.flatMap (·.bytes) ++ m.filename.1)

/-- The CRC of a record, over the record with an empty CRC field. -/
def recordCrc : Nat := (kCrc16 (recordHeader m 0 ++ recordBody m)).toNat

/-- A complete record. -/
def recordBytes : List UInt8 := recordHeader m (recordCrc m) ++ recordBody m

/-- `pack_record`: the bytes it writes, and whether it got through. At an invalid extent it stops after the tags, with
no CRC yet. -/
def packRecord (total : Nat) (m : TagFSMetadata) : List UInt8 × Bool :=
  if m.extents.all (·.inVolume total) then (recordBytes m, true)
  else (recordHeader m 0 ++ m.tagIds.flatMap tagBytes, false)

def readTags : Nat → List UInt8 → List TagId
  | 0, _ => []
  | n + 1, buf => UInt16.ofNat (fieldAt 2 0 buf) :: readTags n (buf.drop 2)

def readExtents : Nat → List UInt8 → List FileExtent
  | 0, _ => []
  | n + 1, buf => ⟨UInt32.ofNat (fieldAt 4 0 buf), UInt16.ofNat (fieldAt 2 4 buf)⟩ :: readExtents n (buf.drop 6)

def unpackRecord (total : Nat) (buf : List UInt8) : Option TagFSMetadata :=
  let recordLen := fieldAt 2 0 buf
  if recordLen < recordHeaderSize ∨ recordLen > mpoolDataSize then none
  else if (kCrc16 (patch (buf.take recordLen) 40 [0, 0])).toNat ≠ fieldAt 2 40 buf then none
  else
    let tagCount := fieldAt 2 34 buf
    let extentCount := fieldAt 2 36 buf
    let nameLen := fieldAt 2 38 buf
    let extents := readExtents extentCount (buf.drop (42 + 2 * tagCount))
    some {
      fileId := UInt32.ofNat (fieldAt 4 2 buf)
      flags := UInt32.ofNat (fieldAt 4 6 buf)
      size := UInt64.ofNat (fieldAt 8 10 buf)
      createdTime := UInt64.ofNat (fieldAt 8 18 buf)
      modifiedTime := UInt64.ofNat (fieldAt 8 26 buf)
      tagIds := readTags tagCount (buf.drop 42)
      -- one bad extent and all of them are discarded
      extents := if extents.all (·.inVolume total) then extents else []
      filename := CStr.ofBuffer ((buf.drop (42 + 2 * tagCount + 6 * extentCount)).take nameLen) }

/-! ## Round trip -/

theorem length_recordHeader (crc : Nat) : (recordHeader m crc).length = 42 := by
  simp [recordHeader]

theorem length_flatMap_tagBytes (ts : List TagId) : (ts.flatMap tagBytes).length = 2 * ts.length := by
  simp [length_flatMap, tagBytes, Nat.mul_comm]

theorem length_flatMap_bytes (es : List FileExtent) : (es.flatMap (·.bytes)).length = 6 * es.length := by
  simp [length_flatMap, FileExtent.bytes, Nat.mul_comm]

theorem length_header_body (crc : Nat) : (recordHeader m crc ++ recordBody m).length = metaPoolRecordSize m := by
  rw [length_append, length_recordHeader, recordBody, length_append, length_append,
    length_flatMap_tagBytes, length_flatMap_bytes]
  simp only [metaPoolRecordSize, recordHeaderSize, CStr.strlen]
  omega

theorem length_recordBytes : (recordBytes m).length = metaPoolRecordSize m :=
  length_header_body m _

theorem fieldAt_cons_field {n v : Nat} (post : List UInt8) (h : v < 256 ^ n) :
    fieldAt n 0 (leBytes n v ++ post) = v := by
  simpa using fieldAt_append [] post h length_nil

theorem readTags_append (ts : List TagId) (rest : List UInt8) :
    readTags ts.length (ts.flatMap tagBytes ++ rest) = ts := by
  induction ts with
  | nil => rfl
  | cons t ts ih =>
    have hlt : t.toNat < 256 ^ 2 := UInt16.toNat_lt t
    have hdrop : (leBytes 2 t.toNat ++ (ts.flatMap tagBytes ++ rest)).drop 2 = ts.flatMap tagBytes ++ rest := by
      rw [drop_append_of_le_length (by simp), drop_of_length_le (by simp), nil_append]
    rw [flatMap_cons, append_assoc, length_cons, readTags, tagBytes, fieldAt_cons_field _ hlt, hdrop, ih,
      UInt16.ofNat_toNat]

theorem readExtents_append (es : List FileExtent) (rest : List UInt8) :
    readExtents es.length (es.flatMap (·.bytes) ++ rest) = es := by
  induction es with
  | nil => rfl
  | cons e es ih =>
    have hs : e.startBlock.toNat < 256 ^ 4 := UInt32.toNat_lt e.startBlock
    have hc : e.blockCount.toNat < 256 ^ 2 := UInt16.toNat_lt e.blockCount
    have hlen : e.bytes.length = 6 := by simp [FileExtent.bytes]
    have hdrop : (e.bytes ++ (es.flatMap (·.bytes) ++ rest)).drop 6 = es.flatMap (·.bytes) ++ rest := by
      rw [drop_append_of_le_length (by omega), drop_of_length_le (by omega), nil_append]
    have hfirst : fieldAt 4 0 (e.bytes ++ (es.flatMap (·.bytes) ++ rest)) = e.startBlock.toNat := by
      rw [FileExtent.bytes, append_assoc, fieldAt_cons_field _ hs]
    have hsecond : fieldAt 2 4 (e.bytes ++ (es.flatMap (·.bytes) ++ rest)) = e.blockCount.toNat := by
      rw [FileExtent.bytes, append_assoc]
      exact fieldAt_append _ _ hc (by simp)
    rw [flatMap_cons, append_assoc, length_cons, readExtents, hfirst, hsecond, hdrop, ih,
      UInt32.ofNat_toNat, UInt16.ofNat_toNat]

theorem recordHeader_eq (crc : Nat) : recordHeader m crc = packFields [(2, metaPoolRecordSize m), (4, m.fileId.toNat),
    (4, m.flags.toNat), (8, m.size.toNat), (8, m.createdTime.toNat), (8, m.modifiedTime.toNat), (2, m.tagIds.length),
    (2, m.extents.length), (2, m.filename.strlen), (2, crc)] := by
  simp [recordHeader, packFields]

theorem recordHeader_fields {m : TagFSMetadata} (hsize : metaPoolRecordSize m ≤ mpoolDataSize) {crc : Nat}
    (hcrc : crc < 2 ^ 16) (post : List UInt8) : fieldAt 2 0 (recordHeader m crc ++ post) = metaPoolRecordSize m ∧
    fieldAt 4 2 (recordHeader m crc ++ post) = m.fileId.toNat ∧
    fieldAt 4 6 (recordHeader m crc ++ post) = m.flags.toNat ∧
    fieldAt 8 10 (recordHeader m crc ++ post) = m.size.toNat ∧
    fieldAt 8 18 (recordHeader m crc ++ post) = m.createdTime.toNat ∧
    fieldAt 8 26 (recordHeader m crc ++ post) = m.modifiedTime.toNat ∧
    fieldAt 2 34 (recordHeader m crc ++ post) = m.tagIds.length ∧
    fieldAt 2 36 (recordHeader m crc ++ post) = m.extents.length ∧
    fieldAt 2 38 (recordHeader m crc ++ post) = m.filename.strlen ∧
    fieldAt 2 40 (recordHeader m crc ++ post) = crc := by
  have hfit := hsize
  simp only [metaPoolRecordSize, recordHeaderSize, mpoolDataSize] at hfit
  have hsz : metaPoolRecordSize m < 256 ^ 2 := hsize.trans_lt (by decide)
  have htags : m.tagIds.length < 256 ^ 2 := by omega
  have hextents : m.extents.length < 256 ^ 2 := by omega
  have hname : m.filename.strlen < 256 ^ 2 := by omega
  have hcrc' : crc < 256 ^ 2 := by simpa using hcrc
  rw [recordHeader_eq]
  exact ⟨fieldAt_packFields (i := 0) rfl (by simp) hsz post,
    fieldAt_packFields (i := 1) rfl (by simp) (UInt32.toNat_lt _) post,
    fieldAt_packFields (i := 2) rfl (by simp) (UInt32.toNat_lt _) post,
    fieldAt_packFields (i := 3) rfl (by simp) (UInt64.toNat_lt _) post,
    fieldAt_packFields (i := 4) rfl (by simp) (UInt64.toNat_lt _) post,
    fieldAt_packFields (i := 5) rfl (by simp) (UInt64.toNat_lt _) post,
    fieldAt_packFields (i := 6) rfl (by simp) htags post,
    fieldAt_packFields (i := 7) rfl (by simp) hextents post,
    fieldAt_packFields (i := 8) rfl (by simp) hname post,
    fieldAt_packFields (i := 9) rfl (by simp) hcrc' post⟩

theorem recordHeader_split :
    ∃ pre : List UInt8, pre.length = 40 ∧ ∀ crc, recordHeader m crc = pre ++ leBytes 2 crc := by
  refine ⟨packFields [(2, metaPoolRecordSize m), (4, m.fileId.toNat), (4, m.flags.toNat), (8, m.size.toNat),
    (8, m.createdTime.toNat), (8, m.modifiedTime.toNat), (2, m.tagIds.length), (2, m.extents.length),
    (2, m.filename.strlen)], length_packFields _, fun crc => ?_⟩
  rw [recordHeader_eq]
  simp [packFields]

theorem patch_recordHeader (old new : Nat) (body : List UInt8) :
    patch (recordHeader m old ++ body) 40 (leBytes 2 new) = recordHeader m new ++ body := by
  obtain ⟨pre, hpre, hsplit⟩ := recordHeader_split m
  rw [hsplit, hsplit, append_assoc, append_assoc]
  exact patch_middle hpre (by simp) body

theorem patch_recordHeader_zero (crc : Nat) (body : List UInt8) :
    patch (recordHeader m crc ++ body) 40 [0, 0] = recordHeader m 0 ++ body := patch_recordHeader m crc 0 body

theorem ofBuffer_take_strlen (name : CStr) (rest : List UInt8) :
    CStr.ofBuffer ((name.1 ++ rest).take name.strlen) = name := by
  rw [CStr.strlen, take_left]
  apply Subtype.ext
  apply takeWhile_eq_self_iff.mpr
  intro b hb
  have : b ≠ 0 := fun h0 => name.2 (h0 ▸ hb)
  simpa using this

/-- The sections of a record are read back, whatever CRC it carries and whatever stands behind it. -/
theorem record_sections (crc : Nat) (rest : List UInt8) :
    let buf := recordHeader m crc ++ (recordBody m ++ rest)
    readTags m.tagIds.length (buf.drop 42) = m.tagIds ∧
      readExtents m.extents.length (buf.drop (42 + 2 * m.tagIds.length)) = m.extents ∧
      CStr.ofBuffer ((buf.drop (42 + 2 * m.tagIds.length + 6 * m.extents.length)).take m.filename.strlen) =
      m.filename := by
  intro buf
  have htags : buf.drop 42 = m.tagIds.flatMap tagBytes ++ (m.extents.flatMap (·.bytes) ++ (m.filename.1 ++ rest)) := by
    rw [show buf = recordHeader m crc ++ (recordBody m ++ rest) from rfl, ← length_recordHeader m crc, drop_left]
    simp only [recordBody, append_assoc]
  have hextents : buf.drop (42 + 2 * m.tagIds.length) = m.extents.flatMap (·.bytes) ++ (m.filename.1 ++ rest) := by
    rw [← drop_drop, htags, ← length_flatMap_tagBytes, drop_left]
  have hname : buf.drop (42 + 2 * m.tagIds.length + 6 * m.extents.length) = m.filename.1 ++ rest := by
    rw [← drop_drop, hextents, ← length_flatMap_bytes, drop_left]
  refine ⟨?_, ?_, ?_⟩
  · rw [htags, readTags_append]
  · rw [hextents, readExtents_append]
  · rw [hname, ofBuffer_take_strlen]

theorem recordHeaderSize_le : recordHeaderSize ≤ metaPoolRecordSize m := by
  unfold metaPoolRecordSize
  omega

end BoxOS.TagFS
