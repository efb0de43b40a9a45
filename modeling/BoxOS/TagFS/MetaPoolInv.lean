import BoxOS.TagFS.MetaCodec

/-!
# The records of a pool block

A block is `Framed` when its records follow one another up to its used bytes; `recordStarts` are their positions.
`LinkOk` is what holds of a block of the chain: its count is the number of its records that are neither deleted nor
owed, and every live record is there, byte for byte. Appending, deleting and paying keep it.
-/

namespace BoxOS.TagFS

open Lib List MetaPoolBlock

/-! ## Encoding -/

/-- The fields of the block fit their widths. -/
structure MetaPoolBlock.Ok (blk : MetaPoolBlock) : Prop where
  magic : blk.magic < 2 ^ 32
  next : blk.nextBlock < 2 ^ 32
  used : blk.usedBytes < 2 ^ 16
  count : blk.recordCount < 2 ^ 16
  kept : blk.kept < 2 ^ 16
  reserved : blk.reserved < 2 ^ 16

theorem decode_ok (b : Block) : (decode b).Ok :=
  ⟨fieldAt_lt 4 0 b, fieldAt_lt 4 4 b, fieldAt_lt 2 8 b, fieldAt_lt 2 10 b, fieldAt_lt 2 12 b, fieldAt_lt 2 14 b⟩

theorem freshBlock_ok : freshBlock.Ok := by
  refine ⟨?_, ?_, ?_, ?_, ?_, ?_⟩ <;> simp only [freshBlock, mpoolMagic] <;> decide

theorem length_header (blk : MetaPoolBlock) : blk.header.length = 16 := by simp [header]

theorem encode_drop (blk : MetaPoolBlock) (n : Nat) : blk.encode.drop (16 + n) = blk.payload.drop n := by
  rw [encode, ← drop_drop, ← length_header blk, drop_left]

variable {blk : MetaPoolBlock}

theorem decode_encode (h : blk.Ok) : decode blk.encode = blk := by
  have hpack : blk.encode = packFields [(4, blk.magic), (4, blk.nextBlock), (2, blk.usedBytes), (2, blk.recordCount),
      (2, blk.kept), (2, blk.reserved)] ++ blk.payload := by
    simp [encode, header, packFields]
  have hmagic : fieldAt 4 0 blk.encode = blk.magic := hpack ▸ fieldAt_packFields (i := 0) rfl (by simp) h.magic _
  have hnext : fieldAt 4 4 blk.encode = blk.nextBlock := hpack ▸ fieldAt_packFields (i := 1) rfl (by simp) h.next _
  have hused : fieldAt 2 8 blk.encode = blk.usedBytes := hpack ▸ fieldAt_packFields (i := 2) rfl (by simp) h.used _
  have hcount : fieldAt 2 10 blk.encode = blk.recordCount := hpack ▸ fieldAt_packFields (i := 3) rfl (by simp) h.count _
  have hkept : fieldAt 2 12 blk.encode = blk.kept := hpack ▸ fieldAt_packFields (i := 4) rfl (by simp) h.kept _
  have hreserved :
    fieldAt 2 14 blk.encode = blk.reserved := hpack ▸ fieldAt_packFields (i := 5) rfl (by simp) h.reserved _
  have hpayload : blk.encode.drop 16 = blk.payload := by simpa using encode_drop blk 0
  rw [decode, hmagic, hnext, hused, hcount, hkept, hreserved, hpayload]

theorem clearId_eq (h : blk.Ok) (pos : Nat) :
    blk.clearId (16 + pos) = { blk with payload := patch blk.payload (pos + 2) [0, 0, 0, 0] } := by
  have hlen := length_header blk
  have hpatch : patch blk.encode (16 + pos + 2) [0, 0, 0, 0] =
      blk.header ++ patch blk.payload (pos + 2) [0, 0, 0, 0] := by
    rw [encode, patch, patch, show 16 + pos + 2 = blk.header.length + (pos + 2) by omega, take_append,
      take_of_length_le (by omega), Nat.add_assoc blk.header.length, drop_append,
      drop_of_length_le (by omega), nil_append]
    simp only [append_assoc, Nat.add_sub_cancel_left]
  rw [clearId, hpatch]
  exact @decode_encode { blk with payload := patch blk.payload (pos + 2) [0, 0, 0, 0] }
    ⟨h.magic, h.next, h.used, h.count, h.kept, h.reserved⟩

/-! ## Framing -/

/-- The positions of the records from `pos` on. -/
def startsFrom (payload : List UInt8) (used : Nat) : Nat → Nat → List Nat
  | 0, _ => []
  | fuel + 1, pos =>
    if pos + recordHeaderSize > used then []
    else
      let recordLen := fieldAt 2 pos payload
      if recordLen < recordHeaderSize ∨ recordLen > used - pos then []
      else pos :: startsFrom payload used fuel (pos + recordLen)

/-- The positions of the records of a block. -/
def recordStarts (blk : MetaPoolBlock) : List Nat := startsFrom blk.payload blk.usedBytes blk.usedBytes 0

/-- From `pos` on records start at the positions of the list, and the last one ends at `used`. -/
def Frames (payload : List UInt8) (used : Nat) : Nat → List Nat → Prop
  | pos, [] => pos = used
  | pos, p :: ps => p = pos ∧ recordHeaderSize ≤ fieldAt 2 pos payload ∧ pos + fieldAt 2 pos payload ≤ used ∧
      Frames payload used (pos + fieldAt 2 pos payload) ps

/-- The records of the block follow one another up to its used bytes. -/
structure MetaPoolBlock.Framed (blk : MetaPoolBlock) : Prop where
  size : blk.payload.length = mpoolDataSize
  used : blk.usedBytes ≤ mpoolDataSize
  frames : Frames blk.payload blk.usedBytes 0 (recordStarts blk)

section Frames

variable {payload payload' : List UInt8} {used : Nat}

variable {ps : List Nat} {pos : Nat}

theorem Frames.starts_eq {fuel : Nat} (h : Frames payload used pos ps) (hfuel : used ≤ pos + fuel) :
    startsFrom payload used fuel pos = ps := by
  induction ps generalizing pos fuel with
  | nil =>
    obtain rfl : pos = used := h
    cases fuel with
    | zero => rfl
    | succ fuel => rw [startsFrom, if_pos (by simp [recordHeaderSize])]
  | cons p ps ih =>
    obtain ⟨rfl, hlo, hhi, hrest⟩ := h
    simp only [recordHeaderSize] at hlo
    cases fuel with
    | zero => omega
    | succ fuel =>
      rw [startsFrom, if_neg (by simp only [recordHeaderSize]; omega)]
      rw [if_neg (by simp only [recordHeaderSize]; omega), ih hrest (by omega)]

theorem Frames.bounds {q : Nat} (h : Frames payload used pos ps) (hq : q ∈ ps) :
    pos ≤ q ∧ recordHeaderSize ≤ fieldAt 2 q payload ∧ q + fieldAt 2 q payload ≤ used := by
  induction ps generalizing pos with
  | nil => exact absurd hq not_mem_nil
  | cons p ps ih =>
    obtain ⟨rfl, hlo, hhi, hrest⟩ := h
    rcases mem_cons.mp hq with rfl | hq
    · exact ⟨le_refl _, hlo, hhi⟩
    · obtain ⟨h1, h2, h3⟩ := ih hrest hq
      exact ⟨by omega, h2, h3⟩

theorem Frames.disjoint {q r : Nat} (h : Frames payload used pos ps) (hq : q ∈ ps) (hr : r ∈ ps)
    (hne : q ≠ r) : q + fieldAt 2 q payload ≤ r ∨ r + fieldAt 2 r payload ≤ q := by
  induction ps generalizing pos with
  | nil => exact absurd hq not_mem_nil
  | cons p ps ih =>
    obtain ⟨rfl, hlo, hhi, hrest⟩ := h
    rcases mem_cons.mp hq with rfl | hq'
    · rcases mem_cons.mp hr with rfl | hr'
      · exact absurd rfl hne
      · exact Or.inl (hrest.bounds hr').1
    · rcases mem_cons.mp hr with rfl | hr'
      · exact Or.inr (hrest.bounds hq').1
      · exact ih hrest hq' hr'

theorem Frames.congr (h : Frames payload used pos ps)
    (hlen : ∀ q ∈ ps, fieldAt 2 q payload' = fieldAt 2 q payload) : Frames payload' used pos ps := by
  induction ps generalizing pos with
  | nil => exact h
  | cons p ps ih =>
    obtain ⟨rfl, hlo, hhi, hrest⟩ := h
    have hp := hlen p mem_cons_self
    refine ⟨rfl, by rw [hp]; exact hlo, by rw [hp]; exact hhi, ?_⟩
    rw [hp]
    exact ih hrest fun q hq => hlen q (mem_cons_of_mem p hq)

theorem Frames.append {n : Nat} (h : Frames payload used pos ps)
    (hlen : ∀ q ∈ ps, fieldAt 2 q payload' = fieldAt 2 q payload) (hnew : fieldAt 2 used payload' = n)
    (hn : recordHeaderSize ≤ n) : Frames payload' (used + n) pos (ps ++ [used]) := by
  induction ps generalizing pos with
  | nil =>
    obtain rfl : pos = used := h
    exact ⟨rfl, by rw [hnew]; exact hn, by rw [hnew], by rw [hnew]; rfl⟩
  | cons p ps ih =>
    obtain ⟨rfl, hlo, hhi, hrest⟩ := h
    have hp := hlen p mem_cons_self
    refine ⟨rfl, by rw [hp]; exact hlo, by rw [hp]; omega, ?_⟩
    rw [hp]
    exact ih hrest fun q hq => hlen q (mem_cons_of_mem p hq)

end Frames

theorem countKeptLoop_eq (payload : List UInt8) (used fuel pos : Nat) :
    countKeptLoop payload used fuel pos =
      (startsFrom payload used fuel pos).countP (fun q => fieldAt 4 (q + 2) payload ≠ 0) := by
  induction fuel generalizing pos with
  | zero => rfl
  | succ fuel ih =>
    rw [countKeptLoop, startsFrom]
    by_cases h1 : pos + recordHeaderSize > used
    · rw [if_pos h1, if_pos h1]
      rfl
    rw [if_neg h1, if_neg h1]
    by_cases h2 : fieldAt 2 pos payload < recordHeaderSize ∨ fieldAt 2 pos payload > used - pos
    · rw [if_pos h2, if_pos h2]
      rfl
    · rw [if_neg h2, if_neg h2, ih, countP_cons, Nat.add_comm]
      congr 1
      by_cases h3 : fieldAt 4 (pos + 2) payload = 0 <;> simp [h3]

theorem countKeptRecords_eq (h : blk.Framed) :
    countKeptRecords blk = (recordStarts blk).countP (fun q => fieldAt 4 (q + 2) blk.payload ≠ 0) := by
  have hused : (if blk.usedBytes > mpoolDataSize then mpoolDataSize else blk.usedBytes) = blk.usedBytes :=
    if_neg (not_lt.mpr h.used)
  simp only [countKeptRecords, hused]
  exact countKeptLoop_eq _ _ _ _

theorem recordStarts_eq {ps : List Nat} (h : Frames blk.payload blk.usedBytes 0 ps) :
    recordStarts blk = ps := h.starts_eq (by omega)

/-! ## Clearing ids -/

/-- `blk'` is `blk` with the ids of the records at the positions `owed` cleared. -/
structure Cleared (owed : Nat → Prop) (blk blk' : MetaPoolBlock) : Prop where
  head : blk' = { blk with payload := blk'.payload }
  framed : blk'.Framed
  starts : recordStarts blk' = recordStarts blk
  zero : ∀ q ∈ recordStarts blk, owed q → fieldAt 4 (q + 2) blk'.payload = 0
  same : ∀ q ∈ recordStarts blk, ¬ owed q → ∀ n ≤ fieldAt 2 q blk.payload,
    (blk'.payload.drop q).take n = (blk.payload.drop q).take n

section Cleared

variable {owed : Nat → Prop} {blk blk' : MetaPoolBlock}

theorem Cleared.refl (h : blk.Framed) : Cleared (fun _ => False) blk blk :=
  ⟨rfl, h, rfl, fun _ _ hq => hq.elim, fun _ _ _ _ _ => rfl⟩

theorem Cleared.ok (h : Cleared owed blk blk') (hok : blk.Ok) : blk'.Ok := by
  rw [h.head]
  exact ⟨hok.magic, hok.next, hok.used, hok.count, hok.kept, hok.reserved⟩

theorem Cleared.id_eq (h : Cleared owed blk blk') (hf : blk.Framed) {q : Nat} (hq : q ∈ recordStarts blk)
    (hn : ¬ owed q) : fieldAt 4 (q + 2) blk'.payload = fieldAt 4 (q + 2) blk.payload := by
  have hlo := (hf.frames.bounds hq).2.1
  simp only [recordHeaderSize] at hlo
  have hslice := h.same q hq hn 6 (by omega)
  have hfield : ∀ l : List UInt8, fieldAt 4 (q + 2) l = leNat (((l.drop q).take 6).drop 2) := by
    intro l
    rw [fieldAt, drop_take, drop_drop]
  rw [hfield, hfield, hslice]

theorem zeros_field {bs : List UInt8} {off : Nat} (h : off ≤ bs.length) :
    fieldAt 4 off (patch bs off [0, 0, 0, 0]) = 0 := by
  have hself : ((patch bs off [0, 0, 0, 0]).drop off).take 4 = [0, 0, 0, 0] :=
    @slice_patch_self bs [0, 0, 0, 0] off h
  rw [fieldAt, hself]
  decide

/-- One more record. -/
theorem Cleared.clear (h : Cleared owed blk blk') (hf : blk.Framed) (hok : blk.Ok) {q : Nat}
    (hq : q ∈ recordStarts blk) : Cleared (fun r => owed r ∨ r = q) blk (blk'.clearId (16 + q)) := by
  have hq' : q ∈ recordStarts blk' := h.starts ▸ hq
  obtain ⟨-, hlo, hhi⟩ := h.framed.frames.bounds hq'
  simp only [recordHeaderSize] at hlo
  have hused := h.framed.used
  have hsize := h.framed.size
  have hfit : q + 2 + [(0 : UInt8), 0, 0, 0].length ≤ blk'.payload.length := by
    simp only [length_cons, length_nil]
    omega
  rw [clearId_eq (h.ok hok)]
  -- the lengths of the records stay
  have hlens : ∀ r ∈ recordStarts blk',
      fieldAt 2 r (patch blk'.payload (q + 2) [0, 0, 0, 0]) = fieldAt 2 r blk'.payload := by
    intro r hr
    refine fieldAt_patch_of_disjoint hfit ?_
    simp only [length_cons, length_nil]
    by_cases hrq : r = q
    · subst hrq
      omega
    have hlor := (h.framed.frames.bounds hr).2.1
    rcases h.framed.frames.disjoint hr hq' hrq with hd | hd
    · omega
    · omega
  have hframes := h.framed.frames.congr hlens
  have hstarts : recordStarts { blk' with payload := patch blk'.payload (q + 2) [0, 0, 0, 0] } = recordStarts blk' :=
    recordStarts_eq hframes
  refine ⟨?_, ⟨?_, hused, ?_⟩, hstarts.trans h.starts, ?_, ?_⟩
  · conv_lhs => rw [h.head]
  · rw [length_patch hfit, hsize]
  · rw [hstarts]
    exact hframes
  · intro r hr howed
    by_cases hrq : r = q
    · subst hrq
      exact zeros_field (by simp only [length_cons, length_nil] at hfit; omega)
    rw [← h.zero r hr (howed.resolve_right hrq)]
    refine fieldAt_patch_of_disjoint hfit ?_
    simp only [length_cons, length_nil]
    rw [← h.starts] at hr
    have hlor := (h.framed.frames.bounds hr).2.1
    simp only [recordHeaderSize] at hlor
    rcases h.framed.frames.disjoint hr hq' hrq with hd | hd
    · omega
    · omega
  · intro r hr hn n hle
    rw [not_or] at hn
    rw [← h.same r hr hn.1 n hle]
    refine slice_patch_of_disjoint hfit ?_
    simp only [length_cons, length_nil]
    have hlen : fieldAt 2 r blk'.payload = fieldAt 2 r blk.payload := by
      have hlor := (hf.frames.bounds hr).2.1
      simp only [recordHeaderSize] at hlor
      rw [fieldAt, fieldAt, h.same r hr hn.1 2 (by omega)]
    rw [← h.starts] at hr
    rcases h.framed.frames.disjoint hr hq' hn.2 with hd | hd
    · omega
    · omega

/-- `retire_apply` clears the records of the block that are owed. -/
theorem retireApply_cleared {block : Nat} (hf : blk.Framed) (hok : blk.Ok) {retire : List (Nat × Nat)}
    (hretire : ∀ off, (block, off) ∈ retire → ∃ q ∈ recordStarts blk, off = 16 + q) :
    Cleared (fun q => (block, 16 + q) ∈ retire) blk (retireApply retire block blk) := by
  suffices hgen : ∀ (rest done : List (Nat × Nat)) (blk' : MetaPoolBlock),
      Cleared (fun q => (block, 16 + q) ∈ done) blk blk' →
      (∀ off, (block, off) ∈ rest → ∃ q ∈ recordStarts blk, off = 16 + q) →
      Cleared (fun q => (block, 16 + q) ∈ done ++ rest) blk (retireApply rest block blk') by
    refine hgen retire [] blk ?_ hretire
    simpa using Cleared.refl hf
  intro rest
  induction rest with
  | nil => intro done blk' h _; simpa [retireApply] using h
  | cons r rest ih =>
    intro done blk' h hrest
    have hsplit : done ++ r :: rest = (done ++ [r]) ++ rest := by simp
    have hrest' := fun off hoff => hrest off (mem_cons_of_mem r hoff)
    obtain ⟨b, off⟩ := r
    rw [hsplit, retireApply, foldl_cons, ← retireApply]
    refine ih (done ++ [(b, off)]) _ ?_ hrest'
    by_cases hb : b = block
    · subst hb
      obtain ⟨q, hq, rfl⟩ := hrest off mem_cons_self
      obtain ⟨-, hlo, hhi⟩ := hf.frames.bounds hq
      have hused := hf.used
      have hbound : ¬ (16 + q < mpoolBlockHeader ∨ 16 + q + recordHeaderSize > tagfsBlockSize) := by
        simp only [mpoolBlockHeader, recordHeaderSize, tagfsBlockSize, mpoolDataSize] at *
        omega
      have hset : (fun q' => (b, 16 + q') ∈ done ++ [(b, 16 + q)]) = fun q' => (b, 16 + q') ∈ done ∨ q' = q := by
        funext q'
        simp
      rw [if_neg (by simp), if_neg hbound, hset]
      exact h.clear hf hok hq
    · have hset : (fun q' => (block, 16 + q') ∈ done ++ [(b, off)]) = fun q' => (block, 16 + q') ∈ done := by
        funext q'
        simp [Ne.symm hb]
      rw [if_pos hb, hset]
      exact h

end Cleared

/-! ## A block of the chain -/

local instance undeletedLawful : LawfulBEq (Nat × Nat) := inferInstance

/-- The records of a block that are neither deleted nor owed. -/
def undeleted (retire : List (Nat × Nat)) (block : Nat) (blk : MetaPoolBlock) : Nat :=
  (recordStarts blk).countP fun q => fieldAt 4 (q + 2) blk.payload ≠ 0 ∧ (block, 16 + q) ∉ retire

/-- The record of `m` stands at position `q`, and reads back on a volume of `total` blocks. -/
structure HasRecord (total : Nat) (blk : MetaPoolBlock) (q : Nat) (m : TagFSMetadata) : Prop where
  start : q ∈ recordStarts blk
  bytes : (blk.payload.drop q).take (recordBytes m).length = recordBytes m
  fileId : m.fileId ≠ 0
  size : metaPoolRecordSize m ≤ mpoolDataSize
  extents : m.extents.all (·.inVolume total) = true

/-- What holds of a block of the chain with the count `kept`, of the debts and of the live records in it. -/
structure LinkOk (total : Nat) (retire : List (Nat × Nat)) (live : Nat × Nat → Option TagFSMetadata) (block : Nat)
    (blk : MetaPoolBlock) (kept : Nat) : Prop where
  ok : blk.Ok
  magic : blk.magic = mpoolMagic
  framed : blk.Framed
  kept : kept = undeleted retire block blk
  owed : ∀ off, (block, off) ∈ retire → ∃ q ∈ recordStarts blk, off = 16 + q
  live : ∀ off m, live (block, off) = some m → ∃ q, off = 16 + q ∧ HasRecord total blk q m ∧ (block, off) ∉ retire

section LinkOk

variable {total block kept : Nat} {retire retire' : List (Nat × Nat)} {live live' : Nat × Nat → Option TagFSMetadata}
  {blk blk' : MetaPoolBlock}

variable {q : Nat} {m : TagFSMetadata}

theorem HasRecord.fields (h : HasRecord total blk q m) :
    fieldAt 2 q blk.payload = metaPoolRecordSize m ∧ fieldAt 4 (q + 2) blk.payload = m.fileId.toNat := by
  have hcrc : recordCrc m < 2 ^ 16 := UInt16.toNat_lt _
  obtain ⟨hlen, hid, -⟩ := recordHeader_fields h.size hcrc (recordBody m)
  have hle : 42 ≤ (recordBytes m).length := by
    rw [length_recordBytes]
    simp only [metaPoolRecordSize, recordHeaderSize]
    omega
  exact ⟨(fieldAt_of_slice h.bytes (by omega)).trans hlen, (fieldAt_of_slice h.bytes (by omega)).trans hid⟩

theorem HasRecord.id_ne (h : HasRecord total blk q m) : fieldAt 4 (q + 2) blk.payload ≠ 0 := by
  rw [h.fields.2]
  exact fun h0 => h.fileId (UInt32.toNat_inj.mp h0)

theorem HasRecord.unpack (h : HasRecord total blk q m) : unpackRecord total (blk.encode.drop (16 + q)) = some m := by
  have hsplit : blk.payload.drop q = recordBytes m ++ (blk.payload.drop q).drop (recordBytes m).length := by
    conv_lhs => rw [← take_append_drop (recordBytes m).length (blk.payload.drop q), h.bytes]
  rw [encode_drop, hsplit]
  exact unpack_packRecord h.size h.extents _

theorem HasRecord.cleared {owed : Nat → Prop} (h : HasRecord total blk q m)
    (hc : Cleared owed blk blk') (hn : ¬ owed q) : HasRecord total blk' q m := by
  refine ⟨hc.starts ▸ h.start, ?_, h.fileId, h.size, h.extents⟩
  rw [hc.same q h.start hn _ (by rw [h.fields.1, length_recordBytes])]
  exact h.bytes

theorem undeleted_of_paid (hf : blk.Framed) (hnone : ∀ off, (block, off) ∉ retire) :
    undeleted retire block blk = countKeptRecords blk := by
  rw [countKeptRecords_eq hf, undeleted]
  refine countP_congr fun q _ => ?_
  simp [hnone]

theorem countKept_cleared (hf : blk.Framed) (hc : Cleared (fun q => (block, 16 + q) ∈ retire) blk blk') :
    countKeptRecords blk' = undeleted retire block blk := by
  rw [countKeptRecords_eq hc.framed, undeleted, hc.starts]
  refine countP_congr fun q hq => ?_
  by_cases howed : (block, 16 + q) ∈ retire
  · simp [howed, hc.zero q hq howed]
  · simp [howed, hc.id_eq hf hq howed]

theorem LinkOk.congr (h : LinkOk total retire live block blk kept)
    (hretire : ∀ off, (block, off) ∈ retire' ↔ (block, off) ∈ retire)
    (hlive : ∀ off m, live' (block, off) = some m → live (block, off) = some m) :
    LinkOk total retire' live' block blk kept where
  ok := h.ok
  magic := h.magic
  framed := h.framed
  kept := by
    rw [h.kept, undeleted, undeleted]
    exact countP_congr fun q _ => by simp [hretire]
  owed := fun off hoff => h.owed off ((hretire off).mp hoff)
  live := by
    intro off m hm
    obtain ⟨q, hq, hrec, hn⟩ := h.live off m (hlive off m hm)
    exact ⟨q, hq, hrec, fun hc => hn ((hretire off).mp hc)⟩

theorem LinkOk.header (h : LinkOk total retire live block blk kept) {next n : Nat} (hnext : next < 2 ^ 32)
    (hn : n < 2 ^ 16) : LinkOk total retire live block { blk with nextBlock := next, kept := n } kept where
  ok := ⟨h.ok.magic, hnext, h.ok.used, h.ok.count, hn, h.ok.reserved⟩
  magic := h.magic
  framed := ⟨h.framed.size, h.framed.used, h.framed.frames⟩
  kept := h.kept
  owed := h.owed
  live := by
    intro off m hm
    obtain ⟨q, hq, hrec, hn⟩ := h.live off m hm
    exact ⟨q, hq, ⟨hrec.start, hrec.bytes, hrec.fileId, hrec.size, hrec.extents⟩, hn⟩

theorem LinkOk.cleared {owed : Nat → Prop} (h : LinkOk total retire live block blk kept) (hc : Cleared owed blk blk')
    (hpaid : ∀ off, (block, off) ∉ retire') (hlive : ∀ off m, live' (block, off) = some m → live (block, off) = some m)
    (howed : ∀ q, owed q → live' (block, 16 + q) = none) :
    LinkOk total retire' live' block blk' (countKeptRecords blk') where
  ok := hc.ok h.ok
  magic := by rw [hc.head]; exact h.magic
  framed := hc.framed
  kept := (undeleted_of_paid hc.framed hpaid).symm
  owed := fun off hoff => absurd hoff (hpaid off)
  live := by
    intro off m hm
    obtain ⟨q, rfl, hrec, -⟩ := h.live off m (hlive off m hm)
    refine ⟨q, rfl, hrec.cleared hc fun hq => ?_, hpaid _⟩
    rw [howed q hq] at hm
    cases hm

theorem LinkOk.owe (h : LinkOk total retire live block blk kept) {q : Nat} (hq : q ∈ recordStarts blk)
    (hlive : ∀ off m, live' (block, off) = some m → live (block, off) = some m) (hdel : live' (block, 16 + q) = none) :
    LinkOk total (retire ++ [(block, 16 + q)]) live' block blk
      (countKeptRecords (retireApply (retire ++ [(block, 16 + q)]) block blk)) := by
  have howed : ∀ off, (block, off) ∈ retire ++ [(block, 16 + q)] → ∃ r ∈ recordStarts blk, off = 16 + r := by
    intro off hoff
    rcases mem_append.mp hoff with hoff | hoff
    · exact h.owed off hoff
    · rw [mem_singleton, Prod.mk.injEq] at hoff
      exact ⟨q, hq, hoff.2⟩
  refine ⟨h.ok, h.magic, h.framed, ?_, howed, ?_⟩
  · exact countKept_cleared h.framed (retireApply_cleared h.framed h.ok howed)
  · intro off m hm
    obtain ⟨r, rfl, hrec, hn⟩ := h.live off m (hlive off m hm)
    refine ⟨r, rfl, hrec, ?_⟩
    rw [mem_append, not_or, mem_singleton, Prod.mk.injEq]
    refine ⟨hn, fun heq => ?_⟩
    rw [heq.2, hdel] at hm
    cases hm

/-- Bytes written after the last record touch no record. -/
theorem Cleared.scribble (hf : blk.Framed) {new : List UInt8} (hfit : blk.usedBytes + new.length ≤ mpoolDataSize) :
    Cleared (fun _ => False) blk { blk with payload := patch blk.payload blk.usedBytes new } := by
  have hfit' : blk.usedBytes + new.length ≤ blk.payload.length := by rw [hf.size]; exact hfit
  have hsame : ∀ q ∈ recordStarts blk, ∀ n ≤ fieldAt 2 q blk.payload,
      ((patch blk.payload blk.usedBytes new).drop q).take n = (blk.payload.drop q).take n := by
    intro q hq n hn
    have := (hf.frames.bounds hq).2.2
    exact slice_patch_of_disjoint hfit' (Or.inl (by omega))
  have hlens : ∀ q ∈ recordStarts blk, fieldAt 2 q (patch blk.payload blk.usedBytes new) = fieldAt 2 q blk.payload := by
    intro q hq
    have := (hf.frames.bounds hq).2.1
    simp only [recordHeaderSize] at this
    rw [fieldAt, fieldAt, hsame q hq 2 (by omega)]
  have hframes := hf.frames.congr hlens
  have hstarts : recordStarts { blk with payload := patch blk.payload blk.usedBytes new } = recordStarts blk :=
    recordStarts_eq hframes
  refine ⟨rfl, ⟨(length_patch hfit').trans hf.size, hf.used, ?_⟩, hstarts, fun _ _ h => h.elim,
    fun q hq _ => hsame q hq⟩
  rw [hstarts]
  exact hframes

theorem LinkOk.scribble (h : LinkOk total retire live block blk kept) (hpaid : ∀ off, (block, off) ∉ retire)
    {new : List UInt8} (hfit : blk.usedBytes + new.length ≤ mpoolDataSize) :
    LinkOk total retire live block { blk with payload := patch blk.payload blk.usedBytes new } kept := by
  have hc := Cleared.scribble h.framed hfit
  have hkept : countKeptRecords { blk with payload := patch blk.payload blk.usedBytes new } = kept := by
    have hnone : (fun q => (block, 16 + q) ∈ retire) = fun _ => False := by simp only [hpaid]
    rw [h.kept]
    exact countKept_cleared h.framed (hnone ▸ hc)
  have := h.cleared hc hpaid (fun _ _ hm => hm) fun _ hq => hq.elim
  rwa [hkept] at this

/-- A record appended to the block. -/
theorem LinkOk.append (h : LinkOk total retire live block blk kept) (hpaid : ∀ off, (block, off) ∉ retire)
    {m : TagFSMetadata} (hfit : blk.usedBytes + metaPoolRecordSize m ≤ mpoolDataSize) (hid : m.fileId ≠ 0)
    (hextents : m.extents.all (·.inVolume total) = true) {count n : Nat} (hcount : count < 2 ^ 16) (hn : n < 2 ^ 16) :
    LinkOk total retire (Function.update live (block, 16 + blk.usedBytes) (some m)) block
      { blk with
        usedBytes := blk.usedBytes + metaPoolRecordSize m
        recordCount := count
        kept := n
        payload := patch blk.payload blk.usedBytes (recordBytes m) } (kept + 1) := by
  have hlenm := length_recordBytes m
  have hold := h.scribble hpaid  (by rw [hlenm]; exact hfit)
  generalize hblk' : ({ blk with
        usedBytes := blk.usedBytes + metaPoolRecordSize m
        recordCount := count
        kept := n
        payload := patch blk.payload blk.usedBytes (recordBytes m) } : MetaPoolBlock) = blk'
  have hpayload : blk'.payload = patch blk.payload blk.usedBytes (recordBytes m) := by rw [← hblk']
  have hused' : blk'.usedBytes = blk.usedBytes + metaPoolRecordSize m := by rw [← hblk']
  have hsize : metaPoolRecordSize m ≤ mpoolDataSize := by omega
  have hbytes : (blk'.payload.drop blk.usedBytes).take (recordBytes m).length = recordBytes m := by
    rw [hpayload]
    exact slice_patch_self (by rw [h.framed.size]; exact h.framed.used)
  have hlo : recordHeaderSize ≤ metaPoolRecordSize m := by simp only [metaPoolRecordSize]; omega
  have hlenf : fieldAt 2 blk.usedBytes blk'.payload = metaPoolRecordSize m := by
    have hcrc : recordCrc m < 2 ^ 16 := UInt16.toNat_lt _
    have hle : 0 + 2 ≤ (recordBytes m).length := by
      rw [hlenm]
      simp only [recordHeaderSize] at hlo
      omega
    exact (fieldAt_of_slice hbytes hle).trans (recordHeader_fields hsize hcrc (recordBody m)).1
  -- the records are the old ones and the new one behind them
  have hframes : Frames blk'.payload blk'.usedBytes 0
      (recordStarts { blk with payload := patch blk.payload blk.usedBytes (recordBytes m) } ++ [blk.usedBytes]) := by
    have := hold.framed.frames.append (fun q _ => rfl) (hpayload ▸ hlenf) hlo
    rw [hpayload, hused']
    exact this
  have hstarts := recordStarts_eq hframes
  have hnew : HasRecord total blk' blk.usedBytes m :=
    ⟨by rw [hstarts]; simp, hbytes, hid, hsize, hextents⟩
  refine ⟨?_, ?_, ⟨?_, ?_, ?_⟩, ?_, fun off hoff => absurd hoff (hpaid off), ?_⟩
  · have hfit16 : blk.usedBytes + metaPoolRecordSize m < 2 ^ 16 := hfit.trans_lt (by decide)
    rw [← hblk']
    exact ⟨h.ok.magic, h.ok.next, hfit16, hcount, hn, h.ok.reserved⟩
  · rw [← hblk']
    exact h.magic
  · rw [hpayload]
    exact hold.framed.size
  · rw [hused']
    exact hfit
  · rw [hstarts]
    exact hframes
  · rw [undeleted, hstarts, countP_append, countP_singleton, hold.kept, undeleted, hpayload]
    congr 1
    rw [if_pos]
    simp only [hpaid, not_false_eq_true, and_true, decide_eq_true_eq]
    exact hpayload ▸ hnew.id_ne
  · intro off m' hm'
    by_cases hoff : off = 16 + blk.usedBytes
    · subst hoff
      rw [Function.update_self] at hm'
      obtain rfl := Option.some.inj hm'
      exact ⟨_, rfl, hnew, hpaid _⟩
    rw [Function.update_of_ne (by simpa using hoff)] at hm'
    obtain ⟨q, rfl, hrec, hn'⟩ := hold.live off m' hm'
    refine ⟨q, rfl, ⟨?_, ?_, hrec.fileId, hrec.size, hrec.extents⟩, hn'⟩
    · rw [hstarts]
      exact mem_append_left _ hrec.start
    · rw [hpayload]
      exact hrec.bytes

theorem LinkOk.fresh (hpaid : ∀ off, (block, off) ∉ retire) (hnone : ∀ off, live (block, off) = none) :
    LinkOk total retire live block freshBlock 0 where
  ok := freshBlock_ok
  magic := rfl
  framed := ⟨length_replicate, Nat.zero_le _, rfl⟩
  kept := rfl
  owed := fun off hoff => absurd hoff (hpaid off)
  live := fun off m hm => by rw [hnone] at hm; exact nomatch hm

theorem LinkOk.none_live (h : LinkOk total retire live block blk 0) (off : Nat) : live (block, off) = none := by
  by_contra hc
  obtain ⟨m, hm⟩ := Option.ne_none_iff_exists'.mp hc
  obtain ⟨q, rfl, hrec, hn⟩ := h.live off m hm
  have := countP_eq_zero.mp h.kept.symm q hrec.start
  simp only [decide_eq_true_eq, not_and, not_not] at this
  exact hn (this hrec.id_ne)

end LinkOk

end BoxOS.TagFS
