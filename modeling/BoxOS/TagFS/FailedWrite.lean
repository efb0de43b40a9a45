import BoxOS.TagFS.HandleBytes

/-!
# Writes that fail

`tagfs_write` takes blocks while it runs and makes them the file's at its end, in the metadata.
**`failed_write_keeps`**: a call that returns `-1` leaks no block and loses no byte, whatever the medium and the memory
answer, if and only if the call takes no blocks (`Volume.Grows`). What it has taken when it fails belongs to nobody once
the handle is closed (`refused_write_leaks`).
-/

namespace BoxOS.TagFS

open Lib List WriteState FileHandle

/-- The metadata of the file become those of the handle, if there is memory for a copy of its extents. -/
def Volume.publishWith (memory : Bool) (v : Volume) (h : FileHandle) : Volume × Bool :=
  if memory then v.publish h
  else
    match fileTableLookup v.table h.fileId with
    | none => (v, false)
    | some e => ((v.readMeta e).2, false)

/-- `tagfs_write_inside` and `tagfs_close`, which frees the handle and leaves the volume: the volume and the result. -/
def tagfsWriteClose (memory : Bool) (hash : Block → DedupHash) (v : Volume) (cow : Cow) (h : FileHandle)
    (src : List UInt8) : Volume × Int :=
  if src = [] ∨ h.canWrite = false then (v, -1)
  else
    let st := writeLoop hash src src.length ⟨v, cow, h, 0, false⟩
    if st.written = 0 then (st.vol, if st.refused then -1 else 0)
    else
      match st.vol.publishWith memory (st.handle.advance st.written) with
      | (v, false) => (v, -1)
      | (v, true) => (v, if st.refused then -1 else intResult st.written)

/-- The volume with the answers that the medium is going to give. -/
def Volume.answers (v : Volume) (io : List Bool) : Volume := { v with pool := { v.pool with io := io } }

/-- No block has been taken that neither the metadata of the file nor the metadata pool know, and the metadata still
place the bytes that the file had. -/
structure Volume.Kept (v v' : Volume) (f : Nat) : Prop where
  blocks : ∀ b, v'.pool.space.Holds b → ¬ v.pool.space.Holds b →
    b ∈ v'.pool.blocks ∨ ∃ m, v'.recorded f = some m ∧ b ∈ fileBlocks m.extents
  bytes : ∀ m, v.recorded f = some m → ∃ m', v'.recorded f = some m' ∧
    ∀ pos < m.size.toNat, ∀ b, (fileBlocks m.extents)[pos / tagfsBlockSize]? = some b →
      pos < m'.size.toNat ∧ (fileBlocks m'.extents)[pos / tagfsBlockSize]? = some b

/-- The first byte of the file that the handle has no block for. -/
def FileHandle.covered (h : FileHandle) : Nat := (fileBlocks h.extents).length * tagfsBlockSize

/-- There is a run of free blocks for the first byte behind the blocks of the handle, and the handle can have another
extent. -/
def Volume.Fits (v : Volume) (h : FileHandle) : Prop :=
  (h.extents.length + 1) % 2 ^ 16 ≠ 0 ∧
    (v.pool.space.allocBlocks (blocksNeeded (max h.offset h.covered) h.covered)).isSome = true

/-- The call takes blocks: a byte of the range is behind the blocks of the handle, and there are blocks for it. -/
def Volume.Grows (v : Volume) (h : FileHandle) (src : List UInt8) : Prop :=
  src ≠ [] ∧ h.canWrite = true ∧ h.covered < h.offset + src.length ∧ v.Fits h

/-- The blocks of the handle are the file's, and continue those of the metadata. -/
structure FileHandle.Current (h : FileHandle) (v : Volume) (owner : Nat → Option Nat) : Prop where
  owns : Owns owner h.fileId h.extents
  valid : h.extents.all (·.inVolume v.pool.space.totalBlocks) = true
  offset_lt : h.offset < 2 ^ 64
  size_lt : h.fileSize < 2 ^ 64
  describes : ∀ m, v.recorded h.fileId = some m → m.extents <+: h.extents ∧ m.size.toNat ≤ h.fileSize

/-! ## Volumes that differ in the blocks they hold -/

section kept

variable {v v' : Volume} {first : Nat} {live : LiveRecords} {owner owner' : Nat → Option Nat} {f : Nat}

theorem files_of_table (htable : v'.table = v.table) : v'.files live = v.files live := by
  unfold Volume.files
  rw [htable]

theorem Volume.Inv.answers (h : v.Inv first live owner) (io : List Bool) : (v.answers io).Inv first live owner :=
  h.withPool (h.pool.withIo io) ⟨rfl, fun _ hb => hb, fun _ hb => hb, fun _ hb => .inl hb, fun _ _ _ => rfl⟩

theorem Volume.Inv.kept (h : v.Inv first live owner) (h' : v'.Inv first live owner') (htable : v'.table = v.table)
    (hholds : ∀ b, v'.pool.space.Holds b → v.pool.space.Holds b) : v.Kept v' f := by
  refine ⟨fun b hb hno => absurd (hholds b hb) hno, fun m hm => ⟨m, ?_, fun pos hpos b hb => ⟨hpos, hb⟩⟩⟩
  rw [h'.recorded_eq, files_of_table htable, ← h.recorded_eq]
  exact hm

theorem Volume.Inv.leaks (h : v.Inv first live owner) (h' : v'.Inv first live owner') (htable : v'.table = v.table)
    (hblocks : v'.pool.blocks = v.pool.blocks) {b : Nat} (hb : v'.pool.space.Holds b) (hno : ¬ v.pool.space.Holds b) :
    ¬ v.Kept v' f := by
  intro hk
  rcases hk.blocks b hb hno with hpool | ⟨m, hm, hmem⟩
  · rw [hblocks] at hpool
    exact hno (h.pool.holds b hpool)
  · rw [h'.recorded_eq, files_of_table htable] at hm
    exact hno (h.held b f ((h.owns f m hm).owned b hmem)).1

theorem fileBlocks_initial {es fs : List FileExtent} (h : es <+: fs) : fileBlocks es <+: fileBlocks fs := by
  obtain ⟨more, rfl⟩ := h
  refine ⟨fileBlocks more, ?_⟩
  simp [fileBlocks]

theorem size_advance {h : FileHandle} {n size : Nat} (hlt : h.fileSize < 2 ^ 64) (hle : size ≤ h.fileSize) :
    size ≤ (UInt64.ofNat (h.advance n).fileSize).toNat := by
  have hmod := Nat.mod_lt (h.offset + n) (show 0 < 2 ^ 64 by decide)
  unfold advance
  simp only
  split
  · rw [UInt64.toNat_ofNat_of_lt' (by simpa using hmod)]
    omega
  · rw [UInt64.toNat_ofNat_of_lt' (by simpa using hlt)]
    exact hle

end kept

/-! ## Calls that take no blocks -/

section calm

variable {hash : Block → DedupHash} {src : List UInt8} {v : Volume} {h : FileHandle} {first : Nat} {live : LiveRecords}
  {owner : Nat → Option Nat} {st : WriteState} {n : Nat}

theorem ownAll_nil (owner : Nat → Option Nat) (f : Nat) : ownAll owner (fileBlocks []) f = owner := by
  funext b
  exact ownAll_of_notMem (by simp [fileBlocks])

theorem publishWith_kept (hinv : v.Inv first live owner) (hd : v.pool.dedup.Held v.pool.space) (cur : h.Current v owner)
    (w : WrittenSoFar src v h first live owner [] st) (memory : Bool) :
    v.Kept (st.vol.publishWith memory (st.handle.advance n)).1 h.fileId := by
  have hstart := w.inv
  rw [ownAll_nil] at hstart
  obtain ⟨hiff, hheld⟩ := w.holds hd
  have hholds : ∀ b, st.vol.pool.space.Holds b → v.pool.space.Holds b := fun b hb =>
    ((hiff b).mp hb).elim id fun hno => by simp [fileBlocks] at hno
  obtain ⟨space, dedup, medium, io, hvol⟩ := w.vol
  have htable : st.vol.table = v.table := by rw [hvol]
  have hextents : (st.handle.advance n).extents = h.extents := by simp [advance, w.handle]
  have hid : (st.handle.advance n).fileId = h.fileId := by simp [advance, w.handle]
  have hsize : ∀ {size}, size ≤ h.fileSize → size ≤ (UInt64.ofNat (st.handle.advance n).fileSize).toNat := fun hle => by
    refine size_advance ?_ ?_ <;> rw [w.handle]
    · exact cur.size_lt
    · exact hle
  unfold Volume.publishWith
  cases memory with
  | false =>
    simp only [Bool.false_eq_true, if_false, hid]
    cases hf : fileTableLookup st.vol.table h.fileId with
    | none => exact hinv.kept hstart htable hholds
    | some e =>
      obtain ⟨⟨io, hio⟩, hinv', -⟩ := readMeta_spec hstart hf
      have htable' : (st.vol.readMeta e).2.table = v.table := by rw [hio, htable]
      refine hinv.kept hinv' htable' fun b hb => hholds b ?_
      have hb' : (st.vol.readMeta e).2.pool.space.Holds b := hb
      rw [hio] at hb'
      exact hb'
  | true =>
    rw [if_pos rfl]
    have howns : Owns owner (st.handle.advance n).fileId (st.handle.advance n).extents := by
      rw [hid, hextents]
      exact cur.owns
    obtain ⟨-, hrefused, hdone⟩ := publish_spec hstart howns
    obtain ⟨hsame, htakes⟩ := @publish_holds _ _ _ _ (st.handle.advance n) hstart hheld (by
      rw [hextents, w.total]
      exact cur.valid)
    cases hok : (st.vol.publish (st.handle.advance n)).2 with
    | false =>
      obtain ⟨htable', hholds'⟩ := hsame hok
      exact hinv.kept (hrefused hok).1 (htable'.trans htable) fun b hb => hholds b ((hholds' b).mp hb)
    | true =>
      obtain ⟨live', hinv', m, hm, hfiles⟩ := hdone hok
      have hrecorded : (st.vol.publish (st.handle.advance n)).1.recorded h.fileId = some { m with
          size := UInt64.ofNat (st.handle.advance n).fileSize
          extents := (st.handle.advance n).extents } := by
        rw [hinv'.recorded_eq, hfiles, hid, Function.update_self]
      constructor
      · intro b hb hno
        rcases ((htakes hok).holds b).mp hb with hold | hpool
        · exact absurd (hholds b hold) hno
        · exact .inl hpool
      · intro m₀ hm₀
        have heq : m₀ = m := by
          rw [hid, files_of_table htable, ← hinv.recorded_eq, hm₀] at hm
          exact Option.some.inj hm
        obtain ⟨hpre, hle⟩ := cur.describes m₀ hm₀
        refine ⟨_, hrecorded, fun pos hpos b hb => ⟨hpos.trans_le (hsize hle), ?_⟩⟩
        rw [hextents]
        obtain ⟨more, hmore⟩ := fileBlocks_initial hpre
        rw [← hmore, getElem?_append_left (List.getElem?_eq_some_iff.mp hb).1]
        exact hb

/-- The loop has taken nothing yet. -/
structure Calm (src : List UInt8) (v : Volume) (h : FileHandle) (first : Nat) (live : LiveRecords)
    (owner : Nat → Option Nat) (st : WriteState) : Prop where
  wrote : WrittenSoFar src v h first live owner [] st
  space : st.vol.pool.space = v.pool.space

theorem Calm.handle (c : Calm src v h first live owner st) : st.handle = h := by
  rw [c.wrote.handle, append_nil]

theorem Calm.blocks (c : Calm src v h first live owner st) : st.blocks = fileBlocks h.extents := by
  rw [WriteState.blocks, c.handle]

theorem Calm.filePos (c : Calm src v h first live owner st) (hnear : st.Near) : st.filePos = h.offset + st.written := by
  rw [hnear.filePos, c.handle]

theorem Calm.behind (c : Calm src v h first live owner st) (hnear : st.Near)
    (hge : st.blocks.length ≤ st.filePos / tagfsBlockSize) : st.filePos = max h.offset h.covered ∧ st.gap < 0xFFFF ∧
      blocksNeeded (max h.offset h.covered) h.covered = st.gap + 1 := by
  have hpos := c.filePos hnear
  have hnear' := hnear.2
  have hle : st.blocks.length * tagfsBlockSize ≤ st.filePos := (Nat.le_div_iff_mul_le tagfsBlockSize_pos).mp hge
  have hcovered : st.blocks.length * tagfsBlockSize = h.covered := by rw [c.blocks, covered]
  have hfit := c.wrote.fit
  have hmax : st.filePos = max h.offset h.covered := by omega
  have hgap : st.gap < 0xFFFF := by
    rw [← hnear.filePos] at hnear'
    unfold gap
    omega
  refine ⟨hmax, hgap, ?_⟩
  rw [← hmax, ← hcovered]
  exact blocksNeeded_eq hgap

/-- The byte has a block, or the loop stops, or the handle gets blocks. -/
theorem Calm.target (c : Calm src v h first live owner st) (hown : Owns owner h.fileId h.extents) (hnear : st.Near) :
    (∃ t b, st.target = (some t, st) ∧ t.Points st b ∧ st.blocks[st.filePos / tagfsBlockSize]? = some b) ∨
    h.covered ≤ st.filePos ∧
    (¬ v.Fits h ∧ (∃ st', st.target = (none, st') ∧ WrittenSoFar src v h first live owner [] st') ∨ v.Fits h ∧
    ∃ t st' e b, st.target = (some t, st') ∧ WrittenSoFar src v h first live owner [e] st' ∧ t.Points st' b ∧
    st'.blocks[st'.filePos / tagfsBlockSize]? = some b ∧ st'.filePos = st.filePos ∧ st'.written = st.written ∧
    st'.vol.pool.io = st.vol.pool.io ∧ fileBlocks [e] ≠ []) := by
  by_cases hlt : st.filePos / tagfsBlockSize < st.blocks.length
  · have hb : st.blocks[st.filePos / tagfsBlockSize]? = some st.blocks[st.filePos / tagfsBlockSize] :=
      getElem?_eq_getElem hlt
    have hheld := (c.wrote.inv.held _ _ (c.wrote.owned hown _ (mem_of_getElem? hb))).1.1
    obtain ⟨t, ht, -, hpoints⟩ := target_found hb (hheld.trans c.wrote.inv.pool.bound)
    exact .inl ⟨t, _, ht, hpoints, hb⟩
  have hge := not_lt.mp hlt
  obtain ⟨hmax, hgap, hneed⟩ := c.behind hnear hge
  refine .inr ⟨by omega, ?_⟩
  have hfits : v.Fits h ↔ (h.extents.length + 1) % 2 ^ 16 ≠ 0 ∧
      (st.vol.pool.space.allocBlocksInternal (st.gap + 1)).isSome = true := by
    rw [Volume.Fits, hneed, c.space, Space.allocBlocks, if_neg (Nat.succ_ne_zero _)]
  rcases target_new c.wrote.inv.pool.space c.wrote.inv.pool.bound hge hgap with ⟨hnone, ht⟩ | ⟨start, space, hal, ht⟩
  · refine .inl ⟨fun hf => ?_, st, ht, c.wrote⟩
    rw [hfits, hnone] at hf
    cases hf.2
  rcases ht with ⟨hfull, ht⟩ | ⟨hroom, t, ht, -, -, hpoints⟩
  · refine .inl ⟨fun hf => ?_, _, ht, c.wrote.ungrow hal⟩
    rw [c.handle] at hfull
    exact hf.1 hfull
  obtain ⟨w', hblocks⟩ := c.wrote.grow hown hal (Nat.succ_pos _) (by omega)
  refine .inr ⟨hfits.mpr ⟨by rw [← c.handle]; exact hroom, by rw [hal]; rfl⟩, t, _, _, _, ht, w', hpoints, ?_, rfl,
    rfl, rfl, ?_⟩
  · have hindex : st.filePos / tagfsBlockSize - st.blocks.length = st.gap := by
      have hnear' := hnear.2
      rw [← hnear.filePos] at hnear'
      exact (Nat.mod_eq_of_lt (by omega)).symm
    rw [hblocks, show (st.grown start (st.gap + 1) space).filePos = st.filePos from rfl,
      getElem?_append_right hge, hindex]
    exact Extent.getElem?_blocks (Nat.lt_succ_self _)
  · intro hno
    have hlen := congrArg List.length hblocks
    rw [w'.blocks_eq, nil_append, hno, c.blocks, length_append, length_append, Extent.length_blocks] at hlen
    simp at hlen

theorem Calm.loop (hown : Owns owner h.fileId h.extents) (hno : h.offset + src.length ≤ h.covered ∨ ¬ v.Fits h)
    (fuel : Nat) {st : WriteState} (c : Calm src v h first live owner st) (hnear : st.Near) :
    WrittenSoFar src v h first live owner [] (writeLoop hash src fuel st) := by
  induction fuel generalizing st with
  | zero => exact c.wrote
  | succ fuel ih =>
    rw [writeLoop]
    by_cases hlt : st.written < src.length
    · rw [if_pos hlt]
      have hpos := c.filePos hnear
      rcases c.target hown hnear with ⟨t, b, ht, hpoints, hb⟩ | ⟨hge, ⟨-, st', ht, w'⟩ | ⟨hfits, -⟩⟩
      · rw [ht]
        obtain ⟨st', goes, hchunk, w', hgoes, hspace, -⟩ :=
          @chunk_wrote hash src v h first live owner [] st c.wrote hown hpos hlt t b hpoints hb
        simp only [hchunk]
        cases goes with
        | false => exact w'
        | true => exact ih ⟨w', hspace.trans c.space⟩ (w'.near hown (hgoes rfl))
      · rw [ht]
        exact w'
      · rcases hno with hno | hno
        · omega
        · exact absurd hfits hno
    · rw [if_neg hlt]
      exact c.wrote

/-! ## Calls that take blocks -/

theorem writeChunk_answered (hash : Block → DedupHash) (t : Target) (hio : st.vol.pool.io = [])
    (hcow : st.cow.active st.handle.fileId = false) (hlt : st.written < src.length) :
    (st.writeChunk hash src t).2 = true ∧ (st.writeChunk hash src t).1.vol.pool.io = [] ∧
    st.written < (st.writeChunk hash src t).1.written := by
  have hmod := Nat.mod_lt (st.filePos - t.extentStart) tagfsBlockSize_pos
  unfold writeChunk redirect MetaPool.readBlock MetaPool.writeBlock
  simp only [hcow, Bool.false_eq_true, and_false, if_false]
  by_cases hp : (st.filePos - t.extentStart) % tagfsBlockSize ≠ 0 ∨ src.length - st.written < tagfsBlockSize
  · simp only [if_pos hp, hio]
    exact ⟨trivial, trivial, by omega⟩
  · simp only [if_neg hp, hio]
    exact ⟨trivial, trivial, by omega⟩

/-- The loop gives back no byte. -/
theorem written_le_writeLoop (hash : Block → DedupHash) (src : List UInt8) (fuel : Nat) (st : WriteState) :
    st.written ≤ (writeLoop hash src fuel st).written := by
  induction fuel generalizing st with
  | zero => exact le_rfl
  | succ fuel ih =>
    rw [writeLoop]
    split
    · have htarget : st.target.2.written = st.written := by
        unfold target
        split
        · rfl
        simp only []
        split
        · rfl
        · split <;> rfl
      have hchunk : ∀ (st : WriteState) (t : Target),
          st.written ≤ (st.writeChunk hash src t).1.written := fun st t => by
        have hredirect : ∀ st : WriteState, ∀ i b, (st.redirect t i b).2.written = st.written := fun st i b => by
          unfold redirect
          split
          · split <;> rfl
          · rfl
        unfold writeChunk
        simp only []
        split <;> simp [hredirect]
      cases ht : st.target with
      | mk o st' =>
        rw [ht] at htarget
        cases o with
        | none => exact Nat.le_of_eq htarget.symm
        | some t =>
          simp only []
          have hle := hchunk st' t
          cases hc : st'.writeChunk hash src t with
          | mk st'' goes =>
            rw [hc] at hle
            rw [← htarget]
            cases goes with
            | false => exact hle
            | true => exact hle.trans (ih st'')
    · exact le_rfl

/-- With a place for more blocks and a disk that answers, the loop takes blocks. -/
theorem Calm.loop_grows (hown : Owns owner h.fileId h.extents) (hoff : h.offset < h.covered)
    (hlen : h.covered < h.offset + src.length) (hfits : v.Fits h) (fuel : Nat) {st : WriteState}
    (c : Calm src v h first live owner st) (hnear : st.Near) (hio : st.vol.pool.io = [])
    (hfuel : src.length ≤ fuel + st.written) :
    ∃ added, WrittenSoFar src v h first live owner added (writeLoop hash src fuel st) ∧ fileBlocks added ≠ [] ∧
    0 < (writeLoop hash src fuel st).written := by
  have hroom : st.written < src.length := by
    by_contra hno
    have hfit := c.wrote.fit (by omega)
    rw [c.blocks] at hfit
    unfold covered at *
    omega
  induction fuel generalizing st with
  | zero => omega
  | succ fuel ih =>
    rw [writeLoop, if_pos hroom]
    have hpos := c.filePos hnear
    have hwritten : ∀ {st' : WriteState}, WrittenSoFar src v h first live owner [] st' → 0 < st'.written →
        st'.written < src.length := fun {st'} w hpos => by
      have hfit := w.fit hpos
      rw [w.blocks_eq] at hfit
      simp only [fileBlocks, map_nil, blocksOf_nil, append_nil] at hfit
      unfold covered fileBlocks at *
      omega
    rcases c.target hown hnear with ⟨t, b, ht,
      hpoints, hb⟩ | ⟨hge, ⟨hno, -⟩ | ⟨-, t, st', e, b, ht, w', hpoints, hb, hfile, hsame, hio', hne⟩⟩
    · rw [ht]
      obtain ⟨st', goes, hchunk, w', hgoes, hspace, -⟩ := @chunk_wrote hash src v h first live owner [] st c.wrote hown
        hpos hroom t b hpoints hb
      obtain ⟨hok, hio', hmore⟩ := writeChunk_answered hash t hio c.wrote.inactive hroom
      rw [hchunk] at hok hio' hmore
      obtain rfl : goes = true := hok
      have hmore : st.written < st'.written := hmore
      simp only [hchunk]
      have hposw := hgoes rfl
      exact ih ⟨w', hspace.trans c.space⟩ (w'.near hown hposw) hio' (by omega) (hwritten w' hposw)
    · exact absurd hfits hno
    · rw [ht]
      have hpos' : st'.filePos = h.offset + st'.written := by rw [hfile, hsame, hpos]
      obtain ⟨st'', goes, hchunk, w'', hgoes, -, -⟩ := @chunk_wrote hash src v h first live owner [e] st' w' hown
        hpos' (hsame ▸ hroom) t b hpoints hb
      obtain ⟨hok, -, -⟩ := writeChunk_answered hash t (hio'.trans hio) w'.inactive (hsame ▸ hroom)
      rw [hchunk] at hok
      obtain rfl : goes = true := hok
      simp only [hchunk]
      have hposw := hgoes rfl
      obtain ⟨added, hpre, wl, -⟩ := @writeLoop_wrote hash src v h first live owner hown fuel st'' [e] w''
        (w''.near hown hposw)
      refine ⟨added, wl, fun hnil => hne ?_, hposw.trans_le (written_le_writeLoop hash src fuel st'')⟩
      have := (fileBlocks_initial hpre).length_le
      rw [hnil, length_nil] at this
      exact eq_nil_of_length_eq_zero (Nat.le_zero.mp this)

theorem writeChunk_refused (hash : Block → DedupHash) (src : List UInt8) {t : Target} (hnew : t.newlyAllocated = true)
    (hio : st.vol.pool.io = if (st.filePos - t.extentStart) % tagfsBlockSize ≠ 0 ∨
    src.length - st.written < tagfsBlockSize then [true, false] else [false]) : ∃ dedup, st.writeChunk hash src t =
    ({ st with vol := { st.vol with pool := { st.vol.pool with io := [], dedup := dedup } }, refused := true },
    false) := by
  unfold writeChunk redirect MetaPool.readBlock MetaPool.writeBlock
  simp only [hnew, Bool.true_eq_false, false_and, if_false]
  by_cases hp : (st.filePos - t.extentStart) % tagfsBlockSize ≠ 0 ∨ src.length - st.written < tagfsBlockSize
  · rw [if_pos hp] at hio
    simp only [if_pos hp, hio, if_true]
    exact ⟨_, rfl⟩
  · rw [if_neg hp] at hio
    simp only [if_neg hp, hio]
    exact ⟨_, rfl⟩

theorem target_behind {v : Volume} {cow : Cow} {h : FileHandle} (hlt : h.offset < 2 ^ 64)
    (hoff : h.covered ≤ h.offset) :
    (v.Fits h →
      ∃ start count space, 0 < count ∧ v.pool.space.allocBlocksInternal count = some (start, space) ∧
        target ⟨v, cow, h, 0, false⟩ =
          (some ⟨h.extents.length, h.covered, true⟩, grown ⟨v, cow, h, 0, false⟩ start count space)) ∧
    (¬ v.Fits h → ∃ v', target ⟨v, cow, h, 0, false⟩ = (none, ⟨v', cow, h, 0, false⟩)) := by
  have hpos : (WriteState.mk v cow h 0 false).filePos = h.offset := Nat.mod_eq_of_lt hlt
  have hloc := @locate_none tagfsBlockSize (h.extents.map FileExtent.extent) h.offset tagfsBlockSize_pos
    ((Nat.le_div_iff_mul_le tagfsBlockSize_pos).mpr hoff)
  have hmax : max h.offset h.covered = h.offset := Nat.max_eq_left hoff
  unfold Volume.Fits target
  rw [hmax, hpos]
  simp only [hloc]
  rw [show (blocksOf (h.extents.map FileExtent.extent)).length * tagfsBlockSize = h.covered from rfl, Space.allocBlocks]
  by_cases hzero : blocksNeeded h.offset h.covered = 0
  · rw [if_pos hzero]
    exact ⟨fun hf => (by cases hf.2), fun _ => ⟨v, rfl⟩⟩
  rw [if_neg hzero]
  cases hal : v.pool.space.allocBlocksInternal (blocksNeeded h.offset h.covered) with
  | none => exact ⟨fun hf => (by cases hf.2), fun _ => ⟨v, rfl⟩⟩
  | some r =>
    obtain ⟨start, space⟩ := r
    simp only []
    by_cases hfull : (h.extents.length + 1) % 2 ^ 16 = 0
    · rw [if_pos hfull]
      exact ⟨fun hf => absurd hfull hf.1, fun _ => ⟨_, rfl⟩⟩
    · rw [if_neg hfull]
      exact ⟨fun _ => ⟨start, _, space, Nat.pos_of_ne_zero hzero, hal, rfl⟩, fun hno => absurd ⟨hfull, rfl⟩ hno⟩

end calm

/-! ## The call -/

section call

variable {hash : Block → DedupHash} {v : Volume} {cow : Cow} {h : FileHandle} {src : List UInt8} {first : Nat}
  {live : LiveRecords} {owner : Nat → Option Nat}

theorem writeLoop_target_none {st st' : WriteState} (hlt : st.written < src.length) (ht : st.target = (none, st')) :
    writeLoop hash src src.length st = st' := by
  obtain ⟨n, hn⟩ := Nat.exists_eq_succ_of_ne_zero (show src.length ≠ 0 by omega)
  rw [hn, writeLoop, if_pos (hn ▸ hlt), ht]

theorem writeLoop_chunk_refused {st st' st'' : WriteState} {t : Target} (hlt : st.written < src.length)
    (ht : st.target = (some t, st')) (hchunk : st'.writeChunk hash src t = (st'', false)) :
    writeLoop hash src src.length st = st'' := by
  obtain ⟨n, hn⟩ := Nat.exists_eq_succ_of_ne_zero (show src.length ≠ 0 by omega)
  rw [hn, writeLoop, if_pos (hn ▸ hlt), ht]
  simp only [hchunk]

theorem near_start (hlt : h.offset < 2 ^ 64) (hoff : h.offset < h.covered) :
    (⟨v, cow, h, 0, false⟩ : WriteState).Near := by
  refine ⟨hlt, ?_⟩
  have hin :
    h.offset / tagfsBlockSize < (fileBlocks h.extents).length := (Nat.div_lt_iff_lt_mul tagfsBlockSize_pos).mpr hoff
  exact hin.trans_le (Nat.le_add_right _ _)

/-- A call that takes no blocks loses nothing when it fails. -/
theorem kept_of_not_grows (hinv : v.Inv first live owner) (hd : v.pool.dedup.Held v.pool.space)
    (cur : h.Current v owner) (hcow : cow.active h.fileId = false) (hno : ¬ v.Grows h src) (memory : Bool)
    (hfail : (tagfsWriteClose memory hash v cow h src).2 = -1) :
    v.Kept (tagfsWriteClose memory hash v cow h src).1 h.fileId := by
  unfold tagfsWriteClose at hfail ⊢
  by_cases hgo : src = [] ∨ h.canWrite = false
  · rw [if_pos hgo]
    exact hinv.kept hinv rfl fun _ hb => hb
  rw [if_neg hgo] at hfail ⊢
  have hsrc : src ≠ [] := fun hnil => hgo (.inl hnil)
  have hcan : h.canWrite = true := by simpa using fun hw => hgo (.inr hw)
  have hlen : 0 < src.length := length_pos_iff.mpr hsrc
  by_cases hoff : h.covered ≤ h.offset
  · obtain ⟨v', ht⟩ := (@target_behind v cow h cur.offset_lt hoff).2 fun hf => hno ⟨hsrc, hcan, by omega, hf⟩
    rw [@writeLoop_target_none hash src _ _ hlen ht] at hfail
    cases hfail
  have hnear := @near_start v cow h cur.offset_lt (not_le.mp hoff)
  have hstop : h.offset + src.length ≤ h.covered ∨ ¬ v.Fits h := by
    by_contra hc
    rw [not_or, not_not, Nat.not_le] at hc
    exact hno ⟨hsrc, hcan, hc⟩
  have w := @Calm.loop hash src v h first live owner cur.owns hstop src.length _
    ⟨WrittenSoFar.start hinv cur.owns hcow, rfl⟩ hnear
  generalize writeLoop hash src src.length ⟨v, cow, h, 0, false⟩ = st at w hfail ⊢
  by_cases hzero : st.written = 0
  · simp only [if_pos hzero]
    obtain ⟨space, dedup, medium, io, hvol⟩ := w.vol
    have hstart := w.inv
    rw [ownAll_nil] at hstart
    refine hinv.kept hstart (by rw [hvol]) fun b hb => ?_
    exact (((w.holds hd).1 b).mp hb).elim id fun hmem => by simp [fileBlocks] at hmem
  have hk := @publishWith_kept src v h first live owner st st.written hinv hd cur w memory
  simp only [if_neg hzero]
  cases hp : st.vol.publishWith memory (st.handle.advance st.written) with
  | mk v' ok =>
    rw [hp] at hk
    cases ok <;> exact hk

/-- A call that takes blocks can fail and leave them to nobody. -/
theorem grows_leaks (hinv : v.Inv first live owner) (cur : h.Current v owner) (hcow : cow.active h.fileId = false)
    (hgrows : v.Grows h src) : ∃ io memory, (tagfsWriteClose memory hash (v.answers io) cow h src).2 = -1 ∧
      ¬ v.Kept (tagfsWriteClose memory hash (v.answers io) cow h src).1 h.fileId := by
  obtain ⟨hsrc, hcan, hbehind, hfits⟩ := hgrows
  have hgo : ¬ (src = [] ∨ h.canWrite = false) := by simp [hsrc, hcan]
  have hlen : 0 < src.length := length_pos_iff.mpr hsrc
  unfold tagfsWriteClose
  simp only [if_neg hgo]
  by_cases hoff : h.covered ≤ h.offset
  · -- the medium refuses the first block
    refine ⟨if (h.offset - h.covered) % tagfsBlockSize ≠ 0 ∨
      src.length - 0 < tagfsBlockSize then [true, false] else [false], true, ?_⟩
    generalize hio : (if (h.offset - h.covered) % tagfsBlockSize ≠ 0 ∨
      src.length - 0 < tagfsBlockSize then [true, false]
      else [false]) = io
    obtain ⟨start, count, space, hpos, hal, ht⟩ := (@target_behind (v.answers io) cow h cur.offset_lt hoff).1 hfits
    obtain ⟨dedup, hchunk⟩ :=
      @writeChunk_refused ((WriteState.mk (v.answers io) cow h 0 false).grown start count space) hash src
      ⟨h.extents.length, h.covered, true⟩ rfl (by
        rw [show ((WriteState.mk (v.answers io) cow h 0 false).grown start count space).filePos = h.offset from
          Nat.mod_eq_of_lt cur.offset_lt]
        exact hio.symm)
    rw [@writeLoop_chunk_refused hash src _ _ _ _ hlen ht hchunk]
    refine ⟨rfl, ?_⟩
    have hown := (hinv.answers io).own hal h.fileId
    have hpool := @MetaPool.Inv.withSpace _ _ _ hown.pool _ dedup hown.pool.space rfl fun _ hb => hb
    have hinv' := hown.grow (hpool.withIo []) (fun _ hb => hb) fun b hb => .inl hb
    have hholds := alloc_holds (hinv.answers io).pool.space hal start
    exact hinv.leaks hinv' rfl rfl (hholds.1.mpr (.inr ⟨le_rfl, by omega⟩)) (hholds.2 ⟨le_rfl, by omega⟩)
  · -- there is no memory for the metadata
    refine ⟨[], false, ?_⟩
    have hinv₀ := hinv.answers []
    have hnear := @near_start (v.answers []) cow h cur.offset_lt (not_le.mp hoff)
    obtain ⟨added, w, hne, hpos⟩ :=
      @Calm.loop_grows hash src (v.answers []) h first live owner cur.owns (not_le.mp hoff)
        hbehind hfits src.length _ ⟨WrittenSoFar.start hinv₀ cur.owns hcow, rfl⟩ hnear rfl (Nat.le_add_right _ _)
    generalize writeLoop hash src src.length ⟨v.answers [], cow, h, 0, false⟩ = st at w hpos ⊢
    rw [if_neg (by omega)]
    obtain ⟨b, hb⟩ := exists_mem_of_ne_nil _ hne
    obtain ⟨space, dedup, medium, io, hvol⟩ := w.vol
    have hheld := (w.inv.held b _ (w.owned cur.owns b (by rw [w.blocks_eq]; exact mem_append_right _ hb))).1
    have hleak : ∀ v' io', v' = st.vol.answers io' → ¬ v.Kept v' h.fileId := fun v' io' heq => by
      subst heq
      refine hinv.leaks (w.inv.answers io') ?_ ?_ hheld (w.fresh b hb) <;> rw [hvol] <;> rfl
    unfold Volume.publishWith
    cases hf : fileTableLookup st.vol.table (st.handle.advance st.written).fileId with
    | none => exact ⟨rfl, hleak _ st.vol.pool.io rfl⟩
    | some e =>
      obtain ⟨⟨io', hio⟩, -⟩ := readMeta_spec w.inv hf
      exact ⟨rfl, hleak _ io' hio⟩

/-- **Every file, handle and buffer**: whatever the medium and the memory answer, a call that returns `-1` and the close
of the handle leak no block and lose no byte, if and only if the call takes no blocks. -/
theorem failed_write_keeps (hinv : v.Inv first live owner) (hd : v.pool.dedup.Held v.pool.space)
    (cur : h.Current v owner) (hcow : cow.active h.fileId = false) :
    (∀ io memory, (tagfsWriteClose memory hash (v.answers io) cow h src).2 = -1 →
      v.Kept (tagfsWriteClose memory hash (v.answers io) cow h src).1 h.fileId) ↔ ¬ v.Grows h src := by
  constructor
  · intro hkept hgrows
    obtain ⟨io, memory, hfail, hleak⟩ := @grows_leaks hash v cow h src first live owner hinv cur hcow hgrows
    exact hleak (hkept io memory hfail)
  · intro hno io memory hfail
    have hk := @kept_of_not_grows hash (v.answers io) cow h src first live owner (hinv.answers io) hd
      ⟨cur.owns, cur.valid, cur.offset_lt, cur.size_lt, cur.describes⟩ hcow hno memory hfail
    exact ⟨hk.blocks, hk.bytes⟩

end call

/-! ## A small file -/

instance (v : Volume) (h : FileHandle) (src : List UInt8) : Decidable (v.Grows h src) :=
  inferInstanceAs (Decidable (_ ∧ _ ∧ _ ∧ _ ∧ _))

theorem noDedup_held (s : Space) : noDedup.Held s := ⟨fun _ => nodup_nil, fun _ hb => (nomatch hb)⟩

/-- File 1 of `oneFileVolume` through a handle at its end, or behind it. -/
def handleAt (offset : Nat) : FileHandle := ⟨1, true, offset, 6000, [⟨3, 2⟩]⟩

theorem handleAt_current : ∃ live owner, (oneFileVolume noDedup [⟨3, 2⟩] 6000).Inv 2 live owner ∧
    (oneFileVolume noDedup [⟨3, 2⟩] 6000).pool.dedup = noDedup ∧ ∀ offset < 2 ^ 64,
      (handleAt offset).Current (oneFileVolume noDedup [⟨3, 2⟩] 6000) owner := by
  obtain ⟨live, owner, hinv, hm, hd, -⟩ := oneFileVolume_inv noDedup [⟨3, 2⟩] 6000 (by decide) (by decide)
    (fun b hb => (nomatch hb)) (by decide +kernel)
  have hvalid :
      ([⟨3, 2⟩] : List FileExtent).all (·.inVolume (oneFileVolume noDedup [⟨3, 2⟩] 6000).pool.space.totalBlocks) =
      true := by decide +kernel
  refine ⟨live, owner, hinv, hd, fun offset hoff => ⟨?_, hvalid, hoff, show 6000 < 2 ^ 64 by decide, fun m hrec => ?_⟩⟩
  · rw [hinv.recorded_eq] at hm
    exact hinv.owns 1 _ hm
  · obtain rfl := Option.some.inj (hm.symm.trans hrec)
    exact ⟨prefix_rfl, le_rfl⟩

/-- The file is written at its end, in a block that it has and that the medium refuses. -/
theorem failed_write_keeps_small :
    let v := oneFileVolume noDedup [⟨3, 2⟩] 6000
    (tagfsWriteClose true (fun b => b) (v.answers [true, false]) .none (handleAt 6000) [1]).2 = -1 ∧
      v.Kept (tagfsWriteClose true (fun b => b) (v.answers [true, false]) .none (handleAt 6000) [1]).1 1 := by
  obtain ⟨live, owner, hinv, hd, hcur⟩ := handleAt_current
  have hkept :=
    (@failed_write_keeps (fun b => b) _ .none (handleAt 6000) [1] 2 live owner hinv (by rw [hd]; exact noDedup_held _)
      (hcur 6000 (by decide)) rfl).mpr (by decide +kernel) [true, false] true
  exact ⟨by decide +kernel, hkept (by decide +kernel)⟩

/-- The file is written in the block behind its own, which the medium refuses. The block stays taken, and the metadata
do not name it. -/
theorem refused_write_leaks :
    ∃ v first live owner h io, Volume.Inv v first live owner ∧ v.pool.dedup.Held v.pool.space ∧ h.Current v owner ∧
    (tagfsWriteClose true (fun b => b) (v.answers io) .none h [1]).2 = -1 ∧
    ¬ v.Kept (tagfsWriteClose true (fun b => b) (v.answers io) .none h [1]).1 h.fileId := by
  obtain ⟨live, owner, hinv, hd, hcur⟩ := handleAt_current
  refine ⟨_, 2, live, owner, handleAt 8192, [true, false],
    hinv, by rw [hd]; exact noDedup_held _, hcur 8192 (by decide), by decide +kernel, fun hk => ?_⟩
  have htaken : (tagfsWriteClose true (fun b => b) ((oneFileVolume noDedup [⟨3, 2⟩] 6000).answers [true, false]) .none
      (handleAt 8192) [1]).1.pool.space.Holds 5 ∧ ¬ (oneFileVolume noDedup [⟨3, 2⟩] 6000).pool.space.Holds 5 := by
    unfold Space.Holds
    decide +kernel
  have hunknown :
      5 ∉ (tagfsWriteClose true (fun b => b) ((oneFileVolume noDedup [⟨3, 2⟩] 6000).answers [true, false]) .none
      (handleAt 8192) [1]).1.pool.blocks ∧ ((tagfsWriteClose true (fun b => b)
        ((oneFileVolume noDedup [⟨3, 2⟩] 6000).answers [true, false]) .none (handleAt 8192) [1]).1.recorded 1).all
          (fun m => 5 ∉ fileBlocks m.extents) = true := by
    decide +kernel
  rcases hk.blocks 5 htaken.1 htaken.2 with hpool | ⟨m, hm, hmem⟩
  · exact hunknown.1 hpool
  have hall := hunknown.2
  rw [show (tagfsWriteClose true (fun b => b) ((oneFileVolume noDedup [⟨3, 2⟩] 6000).answers [true, false]) .none
    (handleAt 8192) [1]).1.recorded 1 = some m from hm] at hall
  simp [hmem] at hall

end BoxOS.TagFS
