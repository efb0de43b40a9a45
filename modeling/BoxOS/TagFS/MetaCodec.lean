import BoxOS.TagFS.MetaPool

/-!
# The record codec

`pack_record` and `unpack_record` for any checksum, with the outcomes of the three allocations of `unpack_record` and
the stretches of the buffer it reads. `packRecordWith_spec`: what is packed is unpacked as it was.
`unpack_stays_inside`: when `unpack_record` stays inside the block and inside its record, which nothing in the source
checks of the tag, extent and name counts.
-/

namespace BoxOS.TagFS

open Lib List Option

/-- `pack_record`: the bytes it writes and the length it returns. At an invalid extent it stops after the tags, with no
CRC yet. -/
def packRecordWith (crc16 : List UInt8 → UInt16) (total : Nat) (m : TagFSMetadata) : List UInt8 × Nat :=
  if m.extents.all (·.inVolume total) then
    let recordLen := metaPoolRecordSize m % 2 ^ 16
    let buf := recordHeader m 0 ++ recordBody m
    (patch buf 40 (leBytes 2 (crc16 (buf.take recordLen)).toNat), recordLen)
  else (recordHeader m 0 ++ m.tagIds.flatMap tagBytes, 0)

/-- Whether the allocations of `unpack_record` succeed. -/
structure Room where
  tags : Bool
  extents : Bool
  name : Bool

/-- What a call of `unpack_record` did: the stretches of the buffer it read (offset and length), where it got to, and
what it returned 0 with. -/
structure Unpacked where
  reads : List (Nat × Nat)
  pos : Nat
  out : Option TagFSMetadata

/-- The `memcpy` of a section, which an empty section does not make. -/
def sectionRead (pos len : Nat) : List (Nat × Nat) := if len > 0 then [(pos, len)] else []

/-- `unpack_record`. -/
def unpackRecordWith (crc16 : List UInt8 → UInt16) (room : Room) (total : Nat) (buf : List UInt8) : Unpacked :=
  let recordLen := fieldAt 2 0 buf
  if recordLen < recordHeaderSize ∨ recordLen > mpoolDataSize then ⟨[(0, 2)], 2, none⟩
  else
    let checked := [(0, 2), (40, 2), (0, recordLen)]
    if (crc16 (patch (buf.take recordLen) 40 [0, 0])).toNat ≠ fieldAt 2 40 buf then ⟨checked, 2, none⟩
    else
      let tagCount := fieldAt 2 34 buf
      let extentCount := fieldAt 2 36 buf
      let nameLen := fieldAt 2 38 buf
      let header := checked ++ [(2, 4), (6, 4), (10, 8), (18, 8), (26, 8), (34, 2), (36, 2), (38, 2)]
      if tagCount > 0 ∧ room.tags = false then ⟨header, 42, none⟩
      else
        let afterTags := 42 + 2 * tagCount
        let tags := header ++ sectionRead 42 (2 * tagCount)
        if extentCount > 0 ∧ room.extents = false then ⟨tags, afterTags, none⟩
        else
          let afterExtents := afterTags + 6 * extentCount
          let extents := readExtents extentCount (buf.drop afterTags)
          let sections := tags ++ sectionRead afterTags (6 * extentCount)
          if room.name = false then ⟨sections, afterExtents, none⟩
          else ⟨sections ++ sectionRead afterExtents nameLen, afterExtents + nameLen, some {
            fileId := UInt32.ofNat (fieldAt 4 2 buf)
            flags := UInt32.ofNat (fieldAt 4 6 buf)
            size := UInt64.ofNat (fieldAt 8 10 buf)
            createdTime := UInt64.ofNat (fieldAt 8 18 buf)
            modifiedTime := UInt64.ofNat (fieldAt 8 26 buf)
            tagIds := readTags tagCount (buf.drop 42)
            -- one bad extent and all of them are discarded
            extents := if extents.all (·.inVolume total) then extents else []
            filename := CStr.ofBuffer ((buf.drop afterExtents).take nameLen) }⟩

theorem unpackRecordWith_kCrc16 (total : Nat) (buf : List UInt8) :
    (unpackRecordWith kCrc16 ⟨true, true, true⟩ total buf).out = unpackRecord total buf := by
  rw [unpackRecordWith, unpackRecord]
  dsimp only
  split
  · rfl
  · split
    · rfl
    · simp

/-! ## Round trip -/

theorem packRecordWith_valid (crc16 : List UInt8 → UInt16) {total : Nat} {m : TagFSMetadata}
    (hsize : metaPoolRecordSize m ≤ mpoolDataSize) (hextents : m.extents.all (·.inVolume total) = true) :
    packRecordWith crc16 total m =
    (recordHeader m (crc16 (recordHeader m 0 ++ recordBody m)).toNat ++ recordBody m, metaPoolRecordSize m) := by
  have hmod : metaPoolRecordSize m % 2 ^ 16 = metaPoolRecordSize m := by
    apply Nat.mod_eq_of_lt
    exact hsize.trans_lt (by decide)
  have htake : (recordHeader m 0 ++ recordBody m).take (metaPoolRecordSize m) = recordHeader m 0 ++ recordBody m := by
    rw [← length_header_body m 0, take_length]
  rw [packRecordWith, if_pos hextents]
  dsimp only
  rw [hmod, htake, patch_recordHeader]

theorem room_or_nil {α : Type} {l : List α} {room : Bool} : ¬ (l.length > 0 ∧ room = false) ↔ room = true ∨ l = [] := by
  cases l <;> simp

theorem unpackRecordWith_record (crc16 : List UInt8 → UInt16) {total : Nat} {m : TagFSMetadata}
    (hsize : metaPoolRecordSize m ≤ mpoolDataSize) (hextents : m.extents.all (·.inVolume total) = true) (room : Room)
    (rest : List UInt8) :
    (unpackRecordWith crc16 room total
        (recordHeader m (crc16 (recordHeader m 0 ++ recordBody m)).toNat ++ recordBody m ++ rest)).out =
      if (room.tags = true ∨ m.tagIds = []) ∧ (room.extents = true ∨ m.extents = []) ∧ room.name = true then some m
      else none := by
  set crc := (crc16 (recordHeader m 0 ++ recordBody m)).toNat with hcrcdef
  have hcrc : crc < 2 ^ 16 := UInt16.toNat_lt _
  obtain ⟨hlen, hid, hflags, hsz, hcreated, hmodified, htags, hext, hname, hcrcf⟩ :=
    recordHeader_fields hsize hcrc (recordBody m ++ rest)
  obtain ⟨htagIds, hexts, hfilename⟩ := record_sections m crc rest
  have htake : (recordHeader m crc ++ (recordBody m ++ rest)).take (metaPoolRecordSize m) =
      recordHeader m crc ++ recordBody m := by
    rw [← append_assoc, ← length_header_body m crc, take_left]
  have hlo : ¬ (metaPoolRecordSize m < recordHeaderSize ∨ metaPoolRecordSize m > mpoolDataSize) := by
    have := recordHeaderSize_le m
    omega
  have hcheck : ¬ (crc16 (recordHeader m 0 ++ recordBody m)).toNat ≠ crc := not_not.mpr hcrcdef.symm
  rw [append_assoc, unpackRecordWith]
  simp only [hlen, hcrcf, htags, hext, hname, htake, hid, hflags, hsz, hcreated, hmodified, htagIds, hexts, hfilename,
    patch_recordHeader_zero]
  rw [if_neg hlo, if_neg hcheck, if_pos hextents]
  simp only [UInt32.ofNat_toNat, UInt64.ofNat_toNat]
  by_cases htag : m.tagIds.length > 0 ∧ room.tags = false
  · rw [if_pos htag, if_neg]
    rintro ⟨h, -⟩
    exact room_or_nil.mpr h htag
  rw [if_neg htag]
  by_cases hextent : m.extents.length > 0 ∧ room.extents = false
  · rw [if_pos hextent, if_neg]
    rintro ⟨-, h, -⟩
    exact room_or_nil.mpr h hextent
  rw [if_neg hextent]
  have htag := room_or_nil.mp htag
  have hextent := room_or_nil.mp hextent
  cases hroom : room.name with
  | false => simp
  | true => rw [if_neg (by decide), if_pos ⟨htag, hextent, rfl⟩]

/-- A packed record is unpacked as it was, whatever bytes come after it. -/
theorem unpack_packRecord {m : TagFSMetadata} {total : Nat} (hsize : metaPoolRecordSize m ≤ mpoolDataSize)
    (hextents : m.extents.all (·.inVolume total) = true) (rest : List UInt8) :
    unpackRecord total (recordBytes m ++ rest) = some m := by
  rw [← unpackRecordWith_kCrc16]
  exact (unpackRecordWith_record kCrc16 hsize hextents ⟨true, true, true⟩ rest).trans (if_pos ⟨.inl rfl, .inl rfl, rfl⟩)

/-- **Round trip.** -/
theorem packRecordWith_spec (crc16 : List UInt8 → UInt16) (total : Nat) (m : TagFSMetadata) :
    (metaPoolRecordSize m ≤ mpoolDataSize → m.extents.all (·.inVolume total) = true →
      (packRecordWith crc16 total m).1.length = metaPoolRecordSize m ∧
      (packRecordWith crc16 total m).2 = metaPoolRecordSize m ∧
      ∀ (room : Room) (rest : List UInt8),
        (unpackRecordWith crc16 room total ((packRecordWith crc16 total m).1 ++ rest)).out =
          if (room.tags = true ∨ m.tagIds = []) ∧ (room.extents = true ∨ m.extents = []) ∧ room.name = true then some m
          else none) ∧
    (m.extents.all (·.inVolume total) = false → (packRecordWith crc16 total m).2 = 0) := by
  constructor
  · intro hsize hextents
    rw [packRecordWith_valid crc16 hsize hextents]
    refine ⟨length_header_body m _, rfl, ?_⟩
    intro room rest
    exact unpackRecordWith_record crc16 hsize hextents room rest
  · intro hextents
    rw [packRecordWith, hextents]
    rfl

/-- A record with two tags, an extent and a name. -/
def sampleRecord : TagFSMetadata :=
  { fileId := 7, flags := 1, size := 5000, createdTime := 3, modifiedTime := 4, tagIds := [1, 258]
    extents := [⟨9, 2⟩], filename := ⟨[0x61, 0x62], by decide⟩ }

/-- With room for all sections. -/
theorem packRecordWith_spec_sample :
    (unpackRecordWith kCrc16 ⟨true, true, true⟩ 100 (packRecordWith kCrc16 100 sampleRecord).1).out =
      some sampleRecord ∧
    (packRecordWith kCrc16 10 sampleRecord).2 = 0 := by
  obtain ⟨-, -, hback⟩ := (packRecordWith_spec kCrc16 100 sampleRecord).1 (by decide) (by decide)
  have hback := hback ⟨true, true, true⟩ []
  rw [append_nil, if_pos ⟨.inl rfl, .inl rfl, rfl⟩] at hback
  exact ⟨hback, (packRecordWith_spec kCrc16 10 sampleRecord).2 (by decide)⟩

/-! ## Staying inside the record -/

/-- The stretches read of a record at `offset` lie in the block. -/
def InBlock (reads : List (Nat × Nat)) (offset : Nat) : Prop := ∀ r ∈ reads, offset + (r.1 + r.2) ≤ tagfsBlockSize

/-- The call stays in the block, and metadata it returns ends where the record does. -/
def Unpacked.Exact (u : Unpacked) (offset recordLen : Nat) : Prop :=
  InBlock u.reads offset ∧ (u.out.isSome = true → u.pos = recordLen)

/-- The sections announced by the counts in the header: those that are copied lie in the block, and if all are, they end
where the record does. -/
def SectionsFit (room : Room) (offset : Nat) (buf : List UInt8) : Prop :=
  let afterTags := recordHeaderSize + 2 * fieldAt 2 34 buf
  let afterExtents := afterTags + 6 * fieldAt 2 36 buf
  (fieldAt 2 34 buf = 0 ∨ room.tags = true) → offset + afterTags ≤ tagfsBlockSize ∧
    ((fieldAt 2 36 buf = 0 ∨ room.extents = true) → offset + afterExtents ≤ tagfsBlockSize ∧
      (room.name = true → afterExtents + fieldAt 2 38 buf = fieldAt 2 0 buf))

/-- The checksum stored in a record is the one over it. -/
def CrcMatches (crc16 : List UInt8 → UInt16) (buf : List UInt8) : Prop :=
  (crc16 (patch (buf.take (fieldAt 2 0 buf)) 40 [0, 0])).toNat = fieldAt 2 40 buf

/-- The length field lies in the block; a record whose length is one of a record lies in the block; and if its checksum
is right its sections fit. -/
def RecordFits (crc16 : List UInt8 → UInt16) (room : Room) (offset : Nat) (buf : List UInt8) : Prop :=
  offset + 2 ≤ tagfsBlockSize ∧
    (recordHeaderSize ≤ fieldAt 2 0 buf → fieldAt 2 0 buf ≤ mpoolDataSize →
      offset + fieldAt 2 0 buf ≤ tagfsBlockSize ∧ (CrcMatches crc16 buf → SectionsFit room offset buf))

theorem inBlock_append {as bs : List (Nat × Nat)} {offset : Nat} :
    InBlock (as ++ bs) offset ↔ InBlock as offset ∧ InBlock bs offset := forall_mem_append

theorem inBlock_sectionRead {pos len offset : Nat} :
    InBlock (sectionRead pos len) offset ↔ (len > 0 → offset + (pos + len) ≤ tagfsBlockSize) := by
  unfold sectionRead InBlock
  split
  · rename_i h
    simp [h]
  · rename_i h
    simp [h]

theorem inBlock_header {offset recordLen : Nat} (h : recordHeaderSize ≤ recordLen) :
    InBlock
      ([(0, 2), (40, 2), (0, recordLen)] ++ [(2, 4), (6, 4), (10, 8), (18, 8), (26, 8), (34, 2), (36, 2), (38, 2)])
      offset ↔
      offset + recordLen ≤ tagfsBlockSize := by
  unfold recordHeaderSize at h
  simp only [InBlock, cons_append, nil_append, forall_mem_cons]
  constructor
  · intro hall
    omega
  · intro hlen
    refine ⟨?_, ?_, ?_, ?_, ?_, ?_, ?_, ?_, ?_, ?_, ?_, ?_⟩ <;> first | omega | simp

theorem unpack_exact_iff (crc16 : List UInt8 → UInt16) (room : Room) (total offset : Nat) (buf : List UInt8) :
    (unpackRecordWith crc16 room total buf).Exact offset (fieldAt 2 0 buf) ↔ RecordFits crc16 room offset buf := by
  unfold unpackRecordWith RecordFits SectionsFit CrcMatches
  dsimp only
  generalize fieldAt 2 0 buf = recordLen
  generalize fieldAt 2 34 buf = tagCount
  generalize fieldAt 2 36 buf = extentCount
  generalize fieldAt 2 38 buf = nameLen
  by_cases hlen : recordLen < recordHeaderSize ∨ recordLen > mpoolDataSize
  · rw [if_pos hlen]
    have hread : InBlock [(0, 2)] offset ↔ offset + 2 ≤ tagfsBlockSize := by simp [InBlock]
    simp only [Unpacked.Exact, hread, isSome_none, Bool.false_eq_true, false_implies, and_true]
    constructor
    · exact fun hin => ⟨hin, fun hlo hhi => absurd hlen (by omega)⟩
    · exact fun hfits => hfits.1
  rw [if_neg hlen]
  have hlo : recordHeaderSize ≤ recordLen := by omega
  have hhi : recordLen ≤ mpoolDataSize := by omega
  have htwo : offset + recordLen ≤ tagfsBlockSize → offset + 2 ≤ tagfsBlockSize := by
    unfold recordHeaderSize at hlo
    omega
  have hheader := @inBlock_header offset recordLen hlo
  by_cases hcrc : (crc16 (patch (buf.take recordLen) 40 [0, 0])).toNat = fieldAt 2 40 buf
  · -- the sections, as far as there is room for them
    simp only [hcrc, ne_eq, not_true_eq_false, if_false, hlo, hhi, true_implies]
    have hsection : ∀ count : Nat, ∀ ok : Bool, ¬ (count > 0 ∧ ok = false) ↔ (count = 0 ∨ ok = true) := by
      intro count ok
      cases ok <;> simp
    rw [← hsection, ← hsection]
    unfold recordHeaderSize at *
    by_cases htag : tagCount > 0 ∧ room.tags = false
    · rw [if_pos htag]
      simp only [Unpacked.Exact, hheader, htag, isSome_none, Bool.false_eq_true, false_implies, and_true, and_self,
        not_true_eq_false]
      exact ⟨fun hin => ⟨htwo hin, hin⟩, fun hfits => hfits.2⟩
    rw [if_neg htag]
    by_cases hextent : extentCount > 0 ∧ room.extents = false
    · rw [if_pos hextent]
      simp only [Unpacked.Exact, inBlock_append, hheader, inBlock_sectionRead, htag, hextent, isSome_none,
        Bool.false_eq_true, false_implies, and_true, and_self, not_true_eq_false, not_false_eq_true, true_implies]
      omega
    rw [if_neg hextent]
    cases hname : room.name with
    | false =>
      rw [if_pos rfl]
      simp only [Unpacked.Exact, inBlock_append, hheader, inBlock_sectionRead, htag, hextent, isSome_none,
        Bool.false_eq_true, false_implies, and_true, not_false_eq_true, true_implies]
      omega
    | true =>
      rw [if_neg (by decide)]
      simp only [Unpacked.Exact, inBlock_append, hheader, inBlock_sectionRead, htag, hextent, isSome_some,
        not_false_eq_true, true_implies]
      omega
  · have hchecked : InBlock [(0, 2), (40, 2), (0, recordLen)] offset ↔ offset + recordLen ≤ tagfsBlockSize := by
      unfold recordHeaderSize at hlo
      simp only [InBlock, forall_mem_cons]
      constructor
      · intro hall
        omega
      · intro hin
        refine ⟨?_, ?_, ?_, ?_⟩ <;> first | omega | simp
    rw [if_pos hcrc]
    simp only [Unpacked.Exact, hchecked, isSome_none, Bool.false_eq_true, false_implies, and_true, hcrc, hlo, hhi,
      true_implies]
    exact ⟨fun hin => ⟨htwo hin, hin⟩, fun hfits => hfits.2⟩

/-- The walk of `meta_pool_mirror_init` over a block and the memory behind it, from `pos` on: the offsets at which it
unpacks a record. -/
def mirrorWalk (memory : List UInt8) (capacity : Nat) : Nat → Nat → List Nat
  | 0, _ => []
  | fuel + 1, pos =>
    if pos < fieldAt 2 8 memory then
      let recordLen := fieldAt 2 (mpoolBlockHeader + pos) memory
      if recordLen = 0 ∨ recordLen > mpoolDataSize - pos then []
      else
        let fileId := fieldAt 4 (mpoolBlockHeader + pos + 2) memory
        (if fileId > 0 ∧ fileId < capacity then [mpoolBlockHeader + pos] else []) ++
          mirrorWalk memory capacity fuel (pos + recordLen)
    else []

/-- The record offsets `meta_pool_mirror_init` visits in a block; every turn of its loop passes a byte of the payload.
-/
def mirrorOffsets (memory : List UInt8) (capacity : Nat) : List Nat :=
  if fieldAt 4 0 memory ≠ mpoolMagic then [] else mirrorWalk memory capacity (mpoolDataSize + 1) 0

theorem mirrorWalk_inside {memory : List UInt8} {capacity offset : Nat} (fuel pos : Nat) (hpos : pos ≤ mpoolDataSize)
    (h : offset ∈ mirrorWalk memory capacity fuel pos) : offset + fieldAt 2 offset memory ≤ tagfsBlockSize := by
  induction fuel generalizing pos with
  | zero => cases h
  | succ fuel ih =>
    rw [mirrorWalk] at h
    split at h
    · dsimp only at h
      split at h
      · cases h
      rename_i hrecord
      rcases mem_append.mp h with hhere | hlater
      · split at hhere
        · rw [mem_singleton.mp hhere]
          unfold tagfsBlockSize
          unfold mpoolDataSize mpoolBlockHeader at *
          omega
        · cases hhere
      · exact ih _ (by omega) hlater
    · cases h

theorem mirrorOffsets_inside {memory : List UInt8} {capacity offset : Nat}
    (h : offset ∈ mirrorOffsets memory capacity) : offset + fieldAt 2 offset memory ≤ tagfsBlockSize := by
  unfold mirrorOffsets at h
  split at h
  · cases h
  · exact mirrorWalk_inside _ 0 (Nat.zero_le _) h

/-- **Staying inside.** A record is read inside its block, and to its end, exactly when it fits; at an offset
`meta_pool_mirror_init` visits, what is not checked is the last byte of the length field and the sections. -/
theorem unpack_stays_inside (crc16 : List UInt8 → UInt16) (room : Room) (total capacity : Nat) (memory : List UInt8)
    (offset : Nat) :
    ((unpackRecordWith crc16 room total (memory.drop offset)).Exact offset (fieldAt 2 offset memory) ↔
      RecordFits crc16 room offset (memory.drop offset)) ∧
    (offset ∈ mirrorOffsets memory capacity →
      (RecordFits crc16 room offset (memory.drop offset) ↔ offset + 2 ≤ tagfsBlockSize ∧
        (recordHeaderSize ≤ fieldAt 2 offset memory → fieldAt 2 offset memory ≤ mpoolDataSize →
          CrcMatches crc16 (memory.drop offset) → SectionsFit room offset (memory.drop offset)))) := by
  have hlen : fieldAt 2 0 (memory.drop offset) = fieldAt 2 offset memory := by rw [fieldAt_drop, Nat.add_zero]
  constructor
  · rw [← hlen]
    exact unpack_exact_iff crc16 room total offset _
  · intro hvisit
    have hinside := mirrorOffsets_inside hvisit
    unfold RecordFits
    rw [hlen]
    constructor
    · exact fun hfits => ⟨hfits.1, fun hlo hhi => (hfits.2 hlo hhi).2⟩
    · exact fun hfits => ⟨hfits.1, fun hlo hhi => ⟨hinside, hfits.2 hlo hhi⟩⟩

/-- A block with one record, of no tags, no extents and a name of `nameLen` bytes that the record has no room for. -/
def overlongBlock (nameLen crc : Nat) : List UInt8 :=
  { freshBlock with usedBytes := recordHeaderSize, recordCount := 1, kept := 1 }.header ++
    (leBytes 2 recordHeaderSize ++ (leBytes 4 1 ++ (replicate 32 0 ++ (leBytes 2 nameLen ++ (leBytes 2 crc ++
      replicate 4038 0)))))

/-- At a visited offset of a block without a name to copy. -/
theorem unpack_stays_inside_visited :
    (unpackRecordWith kCrc16 ⟨true, true, true⟩ 0 ((overlongBlock 0 53789).drop 16)).Exact 16 42 := by
  obtain ⟨hexact, hvisited⟩ := unpack_stays_inside kCrc16 ⟨true, true, true⟩ 0 2 (overlongBlock 0 53789) 16
  apply hexact.mpr
  apply (hvisited (by decide +kernel)).mpr
  refine ⟨by decide, fun _ _ _ => ?_⟩
  intro _
  exact ⟨by decide +kernel, fun _ => ⟨by decide +kernel, fun _ => by decide +kernel⟩⟩

theorem overlongBlock_visited : 16 ∈ mirrorOffsets (overlongBlock 5000 37077) 2 := by decide +kernel

/-- The record of this block is visited, passes its checksum and has its name copied from far behind the block. -/
theorem unpack_leaves_block :
    ∃ (memory : List UInt8) (offset : Nat) (m : TagFSMetadata), memory.length = tagfsBlockSize ∧
    offset ∈ mirrorOffsets memory 2 ∧ (unpackRecordWith kCrc16 ⟨true, true, true⟩ 0 (memory.drop offset)).out = some m ∧
    (unpackRecordWith kCrc16 ⟨true, true, true⟩ 0 (memory.drop offset)).pos = 5042 ∧ fieldAt 2 offset memory = 42 ∧
    (42, 5000) ∈ (unpackRecordWith kCrc16 ⟨true, true, true⟩ 0 (memory.drop offset)).reads := by
  have hsome :
      (unpackRecordWith kCrc16 ⟨true, true, true⟩ 0 ((overlongBlock 5000 37077).drop 16)).out.isSome = true := by
    decide +kernel
  obtain ⟨m, hm⟩ := isSome_iff_exists.mp hsome
  exact ⟨overlongBlock 5000 37077, 16,
    m, by decide +kernel, overlongBlock_visited, hm, by decide +kernel, by decide +kernel, by decide +kernel⟩

end BoxOS.TagFS
