import BoxOS.TagFS.FailedWrite

/-!
# One file through several handles

Every handle has its own copy of the extents and of the size of the file, and a write makes the copy of its handle the
metadata of the file. **`shared_writes_kept`**: where the copy is what is recorded when a write begins, every byte of
the latest writes is read through a handle that is opened afterwards, the file ends where the furthest write ended, and
every block that a write took is the file's.

A handle that was opened before another one extended the file takes the new blocks and the new size away again
(`second_handle_loses_write`).
-/

namespace BoxOS.TagFS

open Lib List Option

/-- The volume and the handles that are open on the file: `latest` has the byte of the latest write that covered a
position, and `furthest` is the end of the file or of the write that ended furthest. -/
structure SharedWorld where
  vol : Volume
  handles : Nat → Option FileHandle
  latest : Nat → Option UInt8
  furthest : Nat

/-- A handle is opened, or a whole `tagfs_write` is called through one of them, at a freely set offset. -/
inductive SharedCall where
  | openHandle (i : Nat)
  | write (i : Nat) (offset : UInt64) (src : List UInt8)

/-- The world after a write of the first bytes of the buffer. -/
def SharedWorld.written (w : SharedWorld) (v : Volume) (i : Nat) (h : FileHandle) (offset : Nat) (done : List UInt8) :
    SharedWorld where
  vol := v
  handles := Function.update w.handles i (some h)
  latest pos := if offset ≤ pos ∧ pos < offset + done.length then done[pos - offset]? else w.latest pos
  furthest := if done = [] then w.furthest else max w.furthest (offset + done.length)

/-- A call that succeeds. -/
def SharedWorld.next (hash : Block → DedupHash) (f : Nat) (w : SharedWorld) : SharedCall → Option SharedWorld
  | .openHandle i =>
    match w.vol.openFile f true with
    | (none, _) => none
    | (some h, v) => some { w with vol := v, handles := Function.update w.handles i (some h) }
  | .write i offset src =>
    match w.handles i with
    | none => none
    | some h =>
      match tagfsWrite hash w.vol .none (h.seek offset) src with
      | (_, _, _, none) => none
      | (v, _, h, some n) => some (w.written v i h offset.toNat (src.take n))

/-- The copy of the handle is what is recorded, the write does not begin `0xFFFF` blocks behind the blocks of the file,
and the medium answers the block reads it makes. -/
def SharedWorld.Meets (hash : Block → DedupHash) (f : Nat) (w : SharedWorld) : SharedCall → Prop
  | .openHandle _ => True
  | .write i offset src => ∀ h ∈ w.handles i,
    (∀ m ∈ w.vol.recorded f, h.extents = m.extents ∧ h.fileSize = m.size.toNat) ∧
      offset.toNat / tagfsBlockSize < (fileBlocks h.extents).length + 0xFFFF ∧
      LoopReads hash src src.length ⟨w.vol, .none, h.seek offset, 0, false⟩

/-- No write has been lost: what a new handle reads, how long the file is, and whose the new blocks are. -/
structure SharedWorld.Kept (v₀ : Volume) (f : Nat) (w : SharedWorld) : Prop where
  size : ∃ m, w.vol.recorded f = some m ∧ m.size.toNat = w.furthest
  blocks : ∀ b, w.vol.pool.space.Holds b → ¬ v₀.pool.space.Holds b →
    b ∈ w.vol.pool.blocks ∨ ∃ m, w.vol.recorded f = some m ∧ b ∈ fileBlocks m.extents
  reads : ∀ (e : FileTableEntry) (m : TagFSMetadata) (canWrite : Bool) (h : FileHandle) (v : Volume),
    fileTableLookup w.vol.table f = some e → (w.vol.readMeta e).1 = some m → w.vol.openFile f canWrite = (some h, v) →
    ∀ (offset : UInt64) (size : Nat) (v' : Volume) (h' : FileHandle) (out : List UInt8), size < 2 ^ 31 →
      v.tagfsRead (h.seek offset) size = (v', h', some out) →
      ∀ i < size, ∀ b, w.latest (offset.toNat + i) = some b → out[i]? = some b

/-! ## The invariant -/

structure SharedWorld.Good (w : SharedWorld) (v₀ : Volume) (f first : Nat) (live : LiveRecords)
    (owner : Nat → Option Nat) (m : TagFSMetadata) : Prop where
  vol : w.vol.Inv first live owner
  dedup : w.vol.pool.dedup.Held w.vol.pool.space
  file : w.vol.files live f = some m
  valid : m.extents.all (·.inVolume w.vol.pool.space.totalBlocks) = true
  covered : Covered (m.extents.map FileExtent.extent) m.size.toNat
  size : m.size.toNat = w.furthest
  latest : ∀ pos b, w.latest pos = some b → pos < w.furthest ∧
    byteOf tagfsBlockSize w.vol.disk (fileBlocks m.extents) pos = some b
  blocks : ∀ b, w.vol.pool.space.Holds b → v₀.pool.space.Holds b ∨ b ∈ w.vol.pool.blocks ∨ b ∈ fileBlocks m.extents
  ids : ∀ i h, w.handles i = some h → h.fileId = f

/-! ### Opening -/

section opening

variable {v v₁ : Volume} {first : Nat} {live : LiveRecords} {owner : Nat → Option Nat} {f : Nat} {h : FileHandle}
  {c : Bool}

theorem openFile_spec (hinv : v.Inv first live owner) (hopen : v.openFile f c = (some h, v₁)) :
    (∃ io, v₁ = v.answers io) ∧ h.fileId = f ∧ ∀ e m, fileTableLookup v.table f = some e → (v.readMeta e).1 = some m →
      h = ⟨f, c, 0, m.size.toNat, m.extents⟩ := by
  cases hf : fileTableLookup v.table f with
  | none =>
    rw [Volume.openFile, hf] at hopen
    cases hopen
  | some e =>
    obtain ⟨hio, -, -⟩ := readMeta_spec hinv hf
    rw [openFile_eq hf, Prod.mk.injEq, some.injEq] at hopen
    obtain ⟨rfl, rfl⟩ := hopen
    refine ⟨hio, ?_, fun e' m he hm => ?_⟩
    · cases (v.readMeta e).1 <;> rfl
    · rw [← some.inj he] at hm
      rw [hm]
      rfl

end opening

/-! ### Writing -/

section writing

variable {hash : Block → DedupHash} {src : List UInt8} {v v' : Volume} {h h' : FileHandle} {cow : Cow} {first : Nat}
  {live : LiveRecords} {owner : Nat → Option Nat} {m : TagFSMetadata} {n : Nat}

theorem writeChunk_stops {st : WriteState} {t : Target} (hno : (st.writeChunk hash src t).2 = false) :
    (st.writeChunk hash src t).1.refused = true := by
  unfold WriteState.writeChunk at hno ⊢
  dsimp only at hno ⊢
  split at hno
  · rfl
  · cases hno

/-- A write that comes to no byte and is not refused has found no block. -/
theorem writeLoop_zero (hinv : v.Inv first live owner) (hown : Owns owner h.fileId h.extents) (hsrc : src ≠ [])
    (hnear : (⟨v, .none, h, 0, false⟩ : WriteState).Near)
    (hzero : (writeLoop hash src src.length ⟨v, .none, h, 0, false⟩).written = 0)
    (hok : (writeLoop hash src src.length ⟨v, .none, h, 0, false⟩).refused = false) :
    WrittenSoFar src v h first live owner [] (writeLoop hash src src.length ⟨v, .none, h, 0, false⟩) := by
  have hlen : 0 < src.length := length_pos_iff.mpr hsrc
  have w : WrittenSoFar src v h first live owner [] ⟨v, .none, h, 0, false⟩ := .start hinv hown rfl
  generalize hfuel : src.length = fuel at hzero hok ⊢
  cases fuel with
  | zero => omega
  | succ fuel =>
    rw [writeLoop, if_pos (show 0 < src.length from hlen)] at hzero hok ⊢
    rcases target_wrote w hown hnear with ⟨st', ht, w', -⟩ | ⟨t, st', more, b, ht, w', htarget⟩
    · rw [ht]
      exact w'
    rw [ht] at hzero hok ⊢
    have hfile : st'.filePos = (⟨v, .none, h, 0, false⟩ : WriteState).filePos := by
      rw [WriteState.filePos, WriteState.filePos, htarget.written, w'.handle]
    have hpos : st'.filePos = h.offset + st'.written := by
      rw [hfile, hnear.filePos, htarget.written]
    obtain ⟨st'', goes, hchunk, -, hgoes, -⟩ := @chunk_wrote hash src v h first live owner ([] ++ more) st'
      w' hown hpos (htarget.written ▸ hlen) t b htarget.points (hfile ▸ htarget.block)
    have hstops := @writeChunk_stops hash src st' t
    simp only [hchunk] at hzero hok hstops ⊢
    cases goes with
    | false =>
      rw [hstops rfl] at hok
      cases hok
    | true =>
      have hle := written_le_writeLoop hash src fuel st''
      have := hgoes rfl
      simp only at hzero
      omega

/-- A write through a handle whose copy is what is recorded. -/
theorem write_current (hinv : v.Inv first live owner) (hd : v.pool.dedup.Held v.pool.space)
    (hfile : v.files live h.fileId = some m) (hext : h.extents = m.extents) (hsize : h.fileSize = m.size.toNat)
    (hvalid : m.extents.all (·.inVolume v.pool.space.totalBlocks) = true)
    (hcov : Covered (m.extents.map FileExtent.extent) m.size.toNat)
    (hnear : (⟨v, .none, h, 0, false⟩ : WriteState).Near)
    (hreads : LoopReads hash src src.length ⟨v, .none, h, 0, false⟩)
    (hwrite : tagfsWrite hash v .none h src = (v', cow, h', some n)) :
    n ≤ src.length ∧ h'.fileId = h.fileId ∧ ∃ live' owner' m', v'.Inv first live' owner' ∧
      v'.pool.dedup.Held v'.pool.space ∧ v'.files live' h.fileId = some m' ∧
      m'.extents.all (·.inVolume v'.pool.space.totalBlocks) = true ∧
      Covered (m'.extents.map FileExtent.extent) m'.size.toNat ∧
      m'.size.toNat = (if n = 0 then m.size.toNat else max m.size.toNat (h.offset + n)) ∧
      (∀ pos, pos < m.size.toNat ∨ h.offset ≤ pos ∧ pos < h.offset + n →
        byteOf tagfsBlockSize v'.disk (fileBlocks m'.extents) pos =
          if h.offset ≤ pos ∧ pos < h.offset + n then src[pos - h.offset]?
          else byteOf tagfsBlockSize v.disk (fileBlocks m.extents) pos) ∧
      (∀ b ∈ v.pool.blocks, b ∈ v'.pool.blocks) ∧ (∀ b ∈ fileBlocks m.extents, b ∈ fileBlocks m'.extents) ∧
      ∀ b, v'.pool.space.Holds b → v.pool.space.Holds b ∨ b ∈ v'.pool.blocks ∨ b ∈ fileBlocks m'.extents := by
  have hown : Owns owner h.fileId h.extents := hext ▸ hinv.owns _ m hfile
  obtain ⟨added, -, wr, hbytes⟩ := @writeLoop_wrote hash src v h first live owner hown src.length _ []
    (WrittenSoFar.start hinv hown rfl) hnear
  have hb := hbytes .start hreads
  have hzeroed := @writeLoop_zero hash src v h first live owner hinv hown
  generalize hst : writeLoop hash src src.length ⟨v, .none, h, 0, false⟩ = st at wr hb hzeroed
  obtain ⟨hsrc, rfl, hok, rfl, hend⟩ := tagfsWrite_answered hst hwrite
  obtain ⟨space, dedup, medium, io, hvol⟩ := wr.vol
  have hfiles : st.vol.files live h.fileId = some m := by
    rw [files_of_table (show st.vol.table = v.table by rw [hvol])]
    exact hfile
  have hpool : st.vol.pool.blocks = v.pool.blocks := by
    rw [hvol]
    rfl
  have hold : ∀ pos, pos < m.size.toNat → pos / tagfsBlockSize < (fileBlocks h.extents).length := fun pos hpos => by
    rw [hext]
    exact hcov.lt hpos
  obtain ⟨hid, howns⟩ := wr.owns hown st.written
  refine ⟨wr.written, hid, ?_⟩
  rcases hend with ⟨hzero, rfl⟩ | ⟨hpos, hpub⟩
  · -- nothing has been written
    have w := hzeroed hsrc hnear hzero hok
    have hblocks : st.blocks = fileBlocks m.extents := by
      rw [w.blocks_eq, hext]
      simp [fileBlocks]
    refine ⟨live, _, m, w.inv, (w.holds hd).2, hfiles, by rw [w.total]; exact hvalid, hcov, (if_pos hzero).symm,
      fun pos hpos => ?_, fun b hb => hpool ▸ hb, fun b hb => hb, fun b hb => ?_⟩
    · have hbyte := hb pos (.inl (hold pos (by omega)))
      rw [hblocks, hext] at hbyte
      exact hbyte
    · exact (((w.holds hd).1 b).mp hb).imp_right fun hmem => by simp [fileBlocks] at hmem
  · obtain ⟨hkeeps, hmedium, live', hinv', m₀, hm₀, hnew⟩ := wr.published hown hpub
    rw [hid] at hm₀ hnew
    obtain rfl := some.inj (hfiles.symm.trans hm₀)
    have hexts : (st.handle.advance st.written).extents = m.extents ++ added := by
      simp only [FileHandle.advance, wr.handle, hext]
    have hblocks : st.blocks = fileBlocks (m.extents ++ added) := by rw [WriteState.blocks, wr.handle, hext]
    have hinside : (m.extents ++ added).all (·.inVolume st.vol.pool.space.totalBlocks) = true := by
      rw [all_append, wr.total, hvalid, wr.valid]
      rfl
    obtain ⟨-, htakes⟩ := publish_holds wr.inv (wr.holds hd).2 (hexts ▸ hinside)
    rw [hpub] at htakes
    have htakes := htakes rfl
    -- how far the file goes
    have hfit := wr.fit hpos
    have hlen := wr.length_lt hown
    have hsize64 := m.size.toNat_lt
    have hadvance := wr.advance_fileSize hown hnear.1
    rw [hsize] at hadvance
    have hnat :
        (UInt64.ofNat (st.handle.advance st.written).fileSize).toNat = max m.size.toNat (h.offset + st.written) := by
      rw [hadvance]
      exact UInt64.toNat_ofNat_of_lt' (by unfold tagfsBlockSize at hfit; unfold UInt64.size; omega)
    have hcov' := wr.covers (hext ▸ hcov)
    refine ⟨live', _, _, hinv', ?_, by rw [hnew]; exact Function.update_self .., ?_, ?_, ?_,
      fun pos hpos' => ?_, fun b hmem => hkeeps.blocks b (hpool ▸ hmem), fun b hmem => ?_, fun b hmem => ?_⟩
    · rw [htakes.dedup]
      exact ⟨(wr.holds hd).2.one, fun b hmem => (htakes.holds b).mpr (.inl ((wr.holds hd).2.held b hmem))⟩
    · simp only [hexts]
      rw [hkeeps.total]
      exact hinside
    · show (UInt64.ofNat _).toNat ≤ (fileBlocks (st.handle.advance st.written).extents).length * tagfsBlockSize
      rw [hnat, hexts, ← hblocks]
      omega
    · simp only [hnat]
      rw [if_neg (by omega)]
    · simp only [hexts]
      have hbyte := hb pos (hpos'.imp_left (hold pos))
      rw [hblocks, hext] at hbyte
      have hdisk : ∀ b ∈ fileBlocks (m.extents ++ added), v'.disk b = st.vol.disk b := fun b hmem => by
        unfold Volume.disk
        rw [hmedium b (hblocks ▸ hmem)]
      rw [byteOf_congr hdisk]
      exact hbyte
    · simp only [hexts]
      rw [← hblocks, wr.blocks_eq, hext]
      exact mem_append_left _ hmem
    · simp only [hexts]
      rcases (htakes.holds b).mp hmem with hb' | hb'
      · rcases ((wr.holds hd).1 b).mp hb' with hb' | hb'
        · exact .inl hb'
        · refine .inr (.inr ?_)
          rw [← hblocks, wr.blocks_eq]
          exact mem_append_right _ hb'
      · exact .inr (.inl hb')

end writing

/-! ### Steps -/

section steps

variable {hash : Block → DedupHash} {w w' : SharedWorld} {v₀ : Volume} {f first : Nat} {live : LiveRecords}
  {owner : Nat → Option Nat} {m : TagFSMetadata}

theorem SharedWorld.Good.answers (g : w.Good v₀ f first live owner m) (io : List Bool)
    {handles : Nat → Option FileHandle} (hids : ∀ i h, handles i = some h → h.fileId = f) :
    ({ w with vol := w.vol.answers io, handles := handles } : SharedWorld).Good v₀ f first live owner m :=
  ⟨g.vol.answers io, g.dedup, g.file, g.valid, g.covered, g.size, g.latest, g.blocks, hids⟩

theorem update_ids {handles : Nat → Option FileHandle} (hids : ∀ i h, handles i = some h → h.fileId = f) {i : Nat}
    {h : FileHandle} (hid : h.fileId = f) : ∀ j g, Function.update handles i (some h) j = some g → g.fileId = f := by
  intro j g hg
  by_cases hj : j = i
  · rw [hj, Function.update_self] at hg
    exact some.inj hg ▸ hid
  · rw [Function.update_of_ne hj] at hg
    exact hids j g hg

theorem sharedStep_good (g : w.Good v₀ f first live owner m) {call : SharedCall} (hmeets : w.Meets hash f call)
    (hnext : w.next hash f call = some w') : ∃ live' owner' m', w'.Good v₀ f first live' owner' m' := by
  cases call with
  | openHandle i =>
    unfold SharedWorld.next at hnext
    cases hopen : w.vol.openFile f true with
    | mk o v =>
      rw [hopen] at hnext
      cases o with
      | none => cases hnext
      | some h =>
        obtain ⟨⟨io, rfl⟩, hid, -⟩ := openFile_spec g.vol hopen
        obtain rfl := some.inj hnext
        exact ⟨live, owner, m, g.answers io (update_ids g.ids hid)⟩
  | write i offset src =>
    unfold SharedWorld.next at hnext
    cases hh : w.handles i with
    | none =>
      simp only [hh] at hnext
      cases hnext
    | some h =>
      obtain ⟨hcurrent, hoff, hreads⟩ := hmeets h hh
      obtain ⟨hext, hsize⟩ := hcurrent m (g.vol.recorded_eq ▸ g.file)
      have hid := g.ids i h hh
      cases hcall : tagfsWrite hash w.vol .none (h.seek offset) src with
      | mk v r =>
        obtain ⟨cow, h', o⟩ := r
        simp only [hh, hcall] at hnext
        cases o with
        | none => cases hnext
        | some n =>
          obtain rfl := some.inj hnext
          have hnear : (⟨w.vol, .none, h.seek offset, 0, false⟩ : WriteState).Near := ⟨offset.toNat_lt, hoff⟩
          obtain ⟨hn, hid', live', owner', m', hinv, hd, hfile, hvalid, hcov, hlong, hbytes, hpool, hmore, hholds⟩ :=
            @write_current hash src w.vol v (h.seek offset) h' cow first live owner m n g.vol g.dedup
              (show w.vol.files live h.fileId =
              some m by rw [hid]; exact g.file) hext hsize g.valid g.covered hnear hreads hcall
          rw [show (h.seek offset).offset = offset.toNat from rfl] at hbytes hlong
          have hlen : (src.take n).length = n := by
            rw [length_take]
            omega
          have hnil : src.take n = [] ↔ n = 0 := by
            rw [← length_eq_zero_iff, hlen]
          refine ⟨live', owner', m', hinv, hd, ?_, hvalid, hcov, ?_, fun pos b hb => ?_, fun b hb => ?_,
            update_ids g.ids (hid'.trans hid)⟩
          · rw [← hid]
            exact hfile
          · simp only [SharedWorld.written, hnil, hlen, ← g.size]
            exact hlong
          · simp only [SharedWorld.written, hnil, hlen] at hb ⊢
            by_cases hin : offset.toNat ≤ pos ∧ pos < offset.toNat + n
            · rw [if_pos hin, getElem?_take_of_lt (by omega)] at hb
              have hbyte := hbytes pos (.inr hin)
              rw [if_pos hin] at hbyte
              exact ⟨by rw [if_neg (by omega)]; omega, hbyte.trans hb⟩
            rw [if_neg hin] at hb
            obtain ⟨hlt, hold⟩ := g.latest pos b hb
            have hbyte := hbytes pos (.inl (g.size ▸ hlt))
            rw [if_neg hin] at hbyte
            refine ⟨?_, hbyte.trans hold⟩
            split <;> omega
          · rcases hholds b hb with hb' | hb'
            · rcases g.blocks b hb' with hb' | hb' | hb'
              · exact .inl hb'
              · exact .inr (.inl (hpool b hb'))
              · exact .inr (.inr (hmore b hb'))
            · exact .inr hb'

theorem SharedWorld.Good.kept (g : w.Good v₀ f first live owner m) : w.Kept v₀ f := by
  have hrec : w.vol.recorded f = some m := by
    rw [g.vol.recorded_eq]
    exact g.file
  refine ⟨⟨m, hrec, g.size⟩, fun b hb hno => ?_,
    fun e m' c h v hf hm hopen offset size v' h' out hsize hread i hi b hb => ?_⟩
  · rcases g.blocks b hb with hb' | hb' | hb'
    · exact absurd hb' hno
    · exact .inl hb'
    · exact .inr ⟨m, hrec, hb'⟩
  · obtain ⟨⟨io, rfl⟩, -, hopened⟩ := openFile_spec g.vol hopen
    obtain rfl : m = m' := some.inj (g.file.symm.trans ((readMeta_spec g.vol hf).2.2 m' hm).1)
    obtain rfl := hopened e m hf hm
    have hgood : HandleWorld.Good ⟨w.vol.answers io, ⟨f, c, 0, m.size.toNat, m.extents⟩,
        fileBytes w.vol.disk (m.extents.map FileExtent.extent) m.size.toNat, []⟩ first live owner :=
      ⟨g.vol.answers io, g.vol.owns f m g.file, g.covered, rfl⟩
    have hright := (read_step hgood (Nat.lt_of_le_of_lt (Nat.min_le_left _ _) hsize) hread).2.out
    simp only at hright
    obtain ⟨hlt, hbyte⟩ := g.latest _ b hb
    rw [hright, getElem?_take_of_lt hi, getElem?_drop, getElem?_fileBytes (by rw [g.size]; exact hlt)]
    exact congrArg some (congrArg (·.getD 0) hbyte)

end steps

/-! ## Runs -/

/-- The step relation of `SharedWorld.next`. -/
def SharedWorld.Step (hash : Block → DedupHash) (f : Nat) (w : SharedWorld) (call : SharedCall) (w' : SharedWorld) :
    Prop :=
  w.next hash f call = some w'

/-- **Every file and every order of opens and successful writes through any handles**: where every write meets the
condition, no write is lost. -/
theorem shared_writes_kept {hash : Block → DedupHash} {v : Volume} {first : Nat} {live : LiveRecords}
    {owner : Nat → Option Nat} {f : Nat} {m : TagFSMetadata} (hinv : v.Inv first live owner)
    (hd : v.pool.dedup.Held v.pool.space) (hfile : v.recorded f = some m)
    (hvalid : m.extents.all (·.inVolume v.pool.space.totalBlocks) = true)
    (hcov : Covered (m.extents.map FileExtent.extent) m.size.toNat) {calls : List SharedCall} {w : SharedWorld}
    (run : Run (SharedWorld.Step hash f) (SharedWorld.Meets hash f)
      ⟨v, fun _ => none, fun _ => none, m.size.toNat⟩ calls w) : w.Kept v f := by
  have hstart : SharedWorld.Good ⟨v, fun _ => none, fun _ => none, m.size.toNat⟩ v f first live owner m :=
    ⟨hinv, hd, hinv.recorded_eq ▸ hfile, hvalid, hcov, rfl, fun _ _ hno => (nomatch hno), fun _ hb => .inl hb,
      fun _ _ hno => (nomatch hno)⟩
  obtain ⟨live', owner', m', g⟩ : ∃ live owner m, w.Good v f first live owner m :=
    @Run.invariant _ _ _ _ _ _ _ (fun w => ∃ live owner m, w.Good v f first live owner m) run
      (fun _ _ _ hmeets hstep ⟨_, _, _, g⟩ => sharedStep_good g hmeets hstep) ⟨live, owner, m, hstart⟩
  exact g.kept

/-! ## Two handles -/

instance SharedWorld.decidableMeets (hash : Block → DedupHash) (f : Nat) (w : SharedWorld) :
    (call : SharedCall) → Decidable (w.Meets hash f call)
  | .openHandle _ => isTrue trivial
  | .write _ _ _ => inferInstanceAs (Decidable (∀ h ∈ _, _ ∧ _ ∧ _))

/-- File 1 of `oneFileVolume`, of 6000 bytes in the blocks 3 and 4, and no handle on it. -/
def sharedFile : SharedWorld := ⟨oneFileVolume noDedup [⟨3, 2⟩] 6000, fun _ => none, fun _ => none, 6000⟩

/-- Two handles write in turn, the second one behind the end. -/
theorem shared_writes_kept_small :
    ∃ calls w, Run (SharedWorld.Step (fun b => b) 1) (SharedWorld.Meets (fun b => b) 1) sharedFile calls w ∧
    w.furthest = 6003 ∧ w.latest 5998 = some 1 ∧ w.latest 6002 = some 5 ∧ w.Kept sharedFile.vol 1 := by
  obtain ⟨live, owner, hinv, hm, hd, -⟩ := oneFileVolume_inv noDedup [⟨3, 2⟩] 6000 (by decide) (by decide)
    (fun b hb => (nomatch hb)) (by decide +kernel)
  obtain ⟨w, run, hfar, hfirst, hlast⟩ : ∃ w,
      Run (SharedWorld.Step (fun b => b) 1) (SharedWorld.Meets (fun b => b) 1) sharedFile
      [.openHandle 0, .openHandle 1, .write 0 5998 [1, 2], .write 1 6000 [3, 4, 5]] w ∧
      w.furthest = 6003 ∧ w.latest 5998 = some 1 ∧
      w.latest 6002 = some 5 := run_reaches (fun h => h) (by decide +kernel)
  have hvalid : ([⟨3, 2⟩] : List FileExtent).all
      (·.inVolume (oneFileVolume noDedup [⟨3, 2⟩] 6000).pool.space.totalBlocks) = true := by decide +kernel
  exact ⟨_, w, run, hfar, hfirst, hlast, @shared_writes_kept _ _ _ _ _ 1 (smallFile [⟨3, 2⟩] 6000) hinv
    (by rw [hd]; exact noDedup_held _) hm hvalid (by decide) _ w run⟩

/-- The first handle writes behind the end, the second one, opened before that, at the beginning: the file ends where it
did, and the byte is gone. -/
theorem second_handle_loses_write : ∃ v first live owner m calls w, Volume.Inv v first live owner ∧
    v.pool.dedup.Held v.pool.space ∧ v.recorded 1 = some m ∧
    Run (SharedWorld.Step (fun b => b) 1) (fun _ _ => True) ⟨v, fun _ => none, fun _ => none, m.size.toNat⟩ calls w ∧
    w.latest 8192 = some 7 ∧ ¬ w.Kept v 1 := by
  obtain ⟨live, owner, hinv, hm, hd, -⟩ := oneFileVolume_inv noDedup [⟨3, 2⟩] 6000 (by decide) (by decide)
    (fun b hb => (nomatch hb)) (by decide +kernel)
  obtain ⟨w, run, hlast, hshort⟩ : ∃ w, Run (SharedWorld.Step (fun b => b) 1) (fun _ _ => True) sharedFile
      [.openHandle 0, .openHandle 1, .write 0 8192 [7], .write 1 0 [9]] w ∧
      w.latest 8192 = some 7 ∧ (w.vol.recorded 1).all (fun m => m.size.toNat ≠ w.furthest) = true :=
    run_reaches (fun h => h) (by decide +kernel)
  refine ⟨_, 2, live, owner, _, _, w, hinv, by rw [hd]; exact noDedup_held _, hm, run, hlast, fun hk => ?_⟩
  obtain ⟨m, hrec, hsize⟩ := hk.size
  rw [hrec] at hshort
  simp [hsize] at hshort

end BoxOS.TagFS
