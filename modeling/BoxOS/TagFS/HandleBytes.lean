import BoxOS.Lib.Runs
import BoxOS.TagFS.FileWriteRun
import BoxOS.TagFS.Truncate

/-!
# One file through one handle

A handle is opened for writing, its offset is set freely, and `tagfs_write` and `tagfs_read` are called through it any
number of times. **`handle_reads_bytes`**: where every write begins at the end of the file or before it and the medium
answers the block reads inside the writes, the handle reads the byte array that the writes have made
(`HandleWorld.bytes`).

A write that begins behind the end leaves the blocks in between as the medium has them, and the file shows what they
held before (`gap_shows_old_block`).
-/

namespace BoxOS.TagFS

open Lib List Option FileExtent

/-- `(int)n`. -/
def intResult (n : Nat) : Int := if n % 2 ^ 32 < 2 ^ 31 then (n % 2 ^ 32 : Nat) else ((n % 2 ^ 32 : Nat) : Int) - 2 ^ 32

/-- The loop of `tagfs_read_inside`: `size` is cut to the file, and `out` are the bytes read so far. -/
def Volume.readLoop (h : FileHandle) (size : Nat) : Nat → Volume → List UInt8 → Volume × Option (List UInt8)
  | 0, v, _ => (v, none)
  | fuel + 1, v, out =>
    if size ≤ out.length then (v, some out)
    else
      let filePos := (h.offset + out.length) % 2 ^ 64
      match locate tagfsBlockSize (h.extents.map extent) filePos 0 0 with
      | (none, _) => (v, none)
      | (some found, extentStart) =>
        let offsetInExtent := filePos - extentStart
        let blockIndex := offsetInExtent / tagfsBlockSize % 2 ^ 32
        let offsetInBlock := offsetInExtent % tagfsBlockSize
        let diskBlock := ((h.extents.getD found ⟨0, 0⟩).startBlock + UInt32.ofNat blockIndex).toNat
        match v.pool.readBlock diskBlock with
        | (none, pool) => ({ v with pool := pool }, none)
        | (some buf, pool) =>
          let chunk := min (tagfsBlockSize - offsetInBlock) (size - out.length)
          Volume.readLoop h size fuel { v with pool := pool }
            (out ++ (List.range chunk).map fun i => buf.getD (offsetInBlock + i) 0)

/-- `tagfs_read_inside`: the bytes, or `none` for `-1`. -/
def Volume.tagfsRead (v : Volume) (h : FileHandle) (size : Nat) : Volume × FileHandle × Option (List UInt8) :=
  if size = 0 then (v, h, none)
  else if h.offset ≥ h.fileSize then (v, h, some [])
  else
    let size := min size (h.fileSize - h.offset)
    match Volume.readLoop h size (size + 1) v [] with
    | (v, none) => (v, h, none)
    | (v, some out) => (v, { h with offset := (h.offset + out.length) % 2 ^ 64 }, some out)

/-! ## Calls through the handle -/

/-- A read that succeeded: what was asked, the byte array and the file size at that time, and what came back. -/
structure HandleRead where
  offset : Nat
  size : Nat
  bytes : List UInt8
  fileSize : Nat
  out : List UInt8
  returned : Int

/-- The read returned the bytes of the array that it was asked for. -/
structure HandleRead.Right (r : HandleRead) : Prop where
  length : r.bytes.length = r.fileSize
  returned : r.returned = ((min r.size (r.fileSize - r.offset) : Nat) : Int)
  out : r.out = (r.bytes.drop r.offset).take r.size

/-- The volume and the handle; `bytes` is the byte array that the writes have made. -/
structure HandleWorld where
  vol : Volume
  handle : FileHandle
  bytes : List UInt8
  reads : List HandleRead

/-- A call at a freely set offset. -/
inductive HandleCall where
  | write (offset : UInt64) (src : List UInt8)
  | read (offset : UInt64) (size : Nat)

/-- The handle with its offset set. -/
def FileHandle.seek (h : FileHandle) (offset : UInt64) : FileHandle := { h with offset := offset.toNat }

/-- A call that succeeds, that is, returns no negative number. -/
def HandleWorld.next (hash : Block → DedupHash) (w : HandleWorld) : HandleCall → Option HandleWorld
  | .write offset src =>
    match tagfsWrite hash w.vol .none (w.handle.seek offset) src with
    | (v, _, h, some n) =>
      if 0 ≤ intResult n then
        some { w with vol := v, handle := h, bytes := writeBytes w.bytes offset.toNat (src.take (intResult n).toNat) }
      else none
    | (_, _, _, none) => none
  | .read offset size =>
    match w.vol.tagfsRead (w.handle.seek offset) size with
    | (v, h, some out) =>
      if 0 ≤ intResult out.length then
        some { w with
          vol := v
          handle := h
          reads := w.reads ++ [⟨offset.toNat, size, w.bytes, w.handle.fileSize, out, intResult out.length⟩] }
      else none
    | (_, _, none) => none

/-- A write begins in the file or at its end, and the medium answers the block reads it makes; no call moves as many
bytes as `int` cannot count. -/
def HandleWorld.Meets (hash : Block → DedupHash) (w : HandleWorld) : HandleCall → Prop
  | .write offset src => offset.toNat ≤ w.handle.fileSize ∧ src.length < 2 ^ 31 ∧
    LoopReads hash src src.length ⟨w.vol, .none, w.handle.seek offset, 0, false⟩
  | .read offset size => min size (w.handle.fileSize - offset.toNat) < 2 ^ 31

theorem intResult_of_lt {n : Nat} (h : n < 2 ^ 31) : intResult n = n := by
  unfold intResult
  rw [Nat.mod_eq_of_lt (by omega), if_pos h]

/-! ## Reading -/

section reading

variable {v : Volume} {first : Nat} {live : LiveRecords} {owner : Nat → Option Nat} {h : FileHandle}

/-- The byte of the file at a position. -/
def FileHandle.byteAt (h : FileHandle) (v : Volume) (pos : Nat) : UInt8 :=
  (byteOf tagfsBlockSize v.disk (fileBlocks h.extents) pos).getD 0

/-- The loop, if it comes to its end, has read the bytes from the offset on. -/
theorem readLoop_spec {size : Nat} (hbound : ∀ b ∈ fileBlocks h.extents, b < 2 ^ 32)
    (hcov : ∀ i < size, (h.offset + i) / tagfsBlockSize < (fileBlocks h.extents).length)
    (hwrap : h.offset + size < 2 ^ 64) (fuel n : Nat) (v : Volume) (hn : n ≤ size) :
    ∃ io, (Volume.readLoop h size fuel v ((List.range n).map fun i => h.byteAt v (h.offset + i))).1 =
      { v with pool := { v.pool with io := io } } ∧
      ∀ out, (Volume.readLoop h size fuel v ((List.range n).map fun i => h.byteAt v (h.offset + i))).2 = some out →
        out = (List.range size).map fun i => h.byteAt v (h.offset + i) := by
  induction fuel generalizing n v with
  | zero => exact ⟨v.pool.io, rfl, fun out hout => (nomatch hout)⟩
  | succ fuel ih =>
    rw [Volume.readLoop]
    simp only [length_map, length_range]
    by_cases hdone : size ≤ n
    · rw [if_pos hdone]
      exact ⟨v.pool.io, rfl, fun out hout => by rw [← some.inj hout, show n = size by omega]⟩
    rw [if_neg hdone, Nat.mod_eq_of_lt (by omega)]
    obtain ⟨found, start, hloc, hmod, hblock⟩ := locate_block (hcov n (by omega))
    have hlt := Nat.mod_lt (h.offset + n) tagfsBlockSize_pos
    have hget : (h.extents.map extent).getD found ⟨0, 0⟩ = (h.extents.getD found ⟨0, 0⟩).extent :=
      List.getD_map h.extents ⟨0, 0⟩ extent
    rw [hget] at hblock
    generalize hb : (h.extents.getD found ⟨0, 0⟩).extent.start + (h.offset + n - start) / tagfsBlockSize = b at hblock
    have hb32 := hbound b (mem_of_getElem? hblock)
    have hdisk : ((h.extents.getD found ⟨0, 0⟩).startBlock +
        UInt32.ofNat ((h.offset + n - start) / tagfsBlockSize % 2 ^ 32)).toNat = b := by
      have hb' : (h.extents.getD found ⟨0, 0⟩).startBlock.toNat + (h.offset + n - start) / tagfsBlockSize = b := hb
      rw [Nat.mod_eq_of_lt (by omega), toNat_add_ofNat (by omega), hb']
    simp only [hloc, hmod, hdisk]
    obtain ⟨io, hr | hr⟩ := v.pool.readBlock_spec b
    · rw [hr]
      exact ⟨io, rfl, fun out hout => (nomatch hout)⟩
    rw [hr]
    have hchunk := @chunk_bytes v.disk (h.extents.map extent) (h.offset + n) b
      (min (tagfsBlockSize - (h.offset + n) % tagfsBlockSize) (size - n)) hblock (by omega)
    have hjoin : ((List.range n).map fun i => h.byteAt v (h.offset + i)) ++
        (List.range (min (tagfsBlockSize - (h.offset + n) % tagfsBlockSize) (size - n))).map
          (fun i => (v.pool.medium b).getD ((h.offset + n) % tagfsBlockSize + i) 0) =
        (List.range (n + min (tagfsBlockSize - (h.offset + n) % tagfsBlockSize) (size - n))).map fun i =>
          h.byteAt v (h.offset + i) := by
      rw [range_add, map_append, List.map_map]
      refine congrArg _ (hchunk.trans (map_congr_left fun i _ => ?_))
      simp only [Function.comp_apply, ← Nat.add_assoc]
      rfl
    simp only [hjoin]
    exact ih _ { v with pool := { v.pool with io := io } } (by omega)

end reading

/-! ## The invariant -/

/-- The blocks of the handle are the file's, they cover the file size, and they hold the byte array. -/
structure HandleWorld.Good (w : HandleWorld) (first : Nat) (live : LiveRecords) (owner : Nat → Option Nat) : Prop where
  vol : w.vol.Inv first live owner
  owns : Owns owner w.handle.fileId w.handle.extents
  covered : Covered (w.handle.extents.map extent) w.handle.fileSize
  bytes : w.bytes = fileBytes w.vol.disk (w.handle.extents.map extent) w.handle.fileSize

def HandleWorld.Inv (w : HandleWorld) : Prop :=
  (∃ first live owner, w.Good first live owner) ∧ ∀ r ∈ w.reads, r.Right

section steps

variable {hash : Block → DedupHash} {w w' : HandleWorld} {first : Nat} {live : LiveRecords} {owner : Nat → Option Nat}

theorem HandleWorld.Good.length_lt (g : w.Good first live owner) : (fileBlocks w.handle.extents).length < 2 ^ 32 := by
  have hsub : fileBlocks w.handle.extents ⊆ List.range w.vol.pool.space.totalBlocks := fun b hb =>
    mem_range.mpr (g.vol.held b _ (g.owns.owned b hb)).1.1
  have hle := (subperm_of_subset g.owns.nodup hsub).length_le
  rw [length_range] at hle
  exact hle.trans_lt g.vol.pool.bound

theorem read_step (g : w.Good first live owner) {offset : UInt64} {size : Nat}
    (hsize : min size (w.handle.fileSize - offset.toNat) < 2 ^ 31) {v : Volume} {h : FileHandle} {out : List UInt8}
    (hread : w.vol.tagfsRead (w.handle.seek offset) size = (v, h, some out)) :
    ({ w with vol := v, handle := h } : HandleWorld).Good first live owner ∧
      HandleRead.Right ⟨offset.toNat, size, w.bytes, w.handle.fileSize, out, intResult out.length⟩ := by
  have hlen : w.bytes.length = w.handle.fileSize := by
    rw [g.bytes]
    simp [fileBytes]
  have hsame : ∀ n io, ({ w with
      vol := { w.vol with pool := { w.vol.pool with io := io } }
      handle := { w.handle with offset := n } } : HandleWorld).Good first live owner := fun n io =>
    ⟨g.vol.withPool (g.vol.pool.withIo io) ⟨rfl, fun _ hb => hb, fun _ hb => hb, fun _ hb => .inl hb, fun _ _ _ => rfl⟩,
      g.owns, g.covered, g.bytes⟩
  unfold Volume.tagfsRead at hread
  split at hread
  · cases (Prod.mk.inj (Prod.mk.inj hread).2).2
  rename_i hzero
  split at hread
  · -- behind the end of the file
    rename_i hend
    obtain ⟨rfl, rfl, rfl⟩ := hread
    have hend' : offset.toNat ≥ w.handle.fileSize := hend
    refine ⟨hsame _ w.vol.pool.io, hlen, ?_, ?_⟩
    · rw [length_nil, Nat.sub_eq_zero_of_le hend', Nat.min_zero]
      rfl
    · rw [drop_eq_nil_of_le (show w.bytes.length ≤ offset.toNat by omega), take_nil]
  · rename_i hend
    have hend' : offset.toNat < w.handle.fileSize := not_le.mp hend
    have hcov : w.handle.fileSize ≤ (fileBlocks w.handle.extents).length * tagfsBlockSize := g.covered
    have hlt := g.length_lt
    have hwrap : offset.toNat + min size (w.handle.fileSize - offset.toNat) < 2 ^ 64 := by
      unfold tagfsBlockSize at hcov
      omega
    obtain ⟨io, hvol, hout⟩ := @readLoop_spec (w.handle.seek offset) (min size (w.handle.fileSize - offset.toNat))
      (fun b hb => (g.vol.held b _ (g.owns.owned b hb)).1.1.trans g.vol.pool.bound)
      (fun i hi => g.covered.lt (show offset.toNat + i < w.handle.fileSize by omega)) hwrap
      (min size (w.handle.fileSize - offset.toNat) + 1) 0 w.vol (Nat.zero_le _)
    rw [range_zero, map_nil] at hvol hout
    simp only [show (w.handle.seek offset).fileSize = w.handle.fileSize from rfl,
      show (w.handle.seek offset).offset = offset.toNat from rfl] at hread
    cases hloop : Volume.readLoop (w.handle.seek offset) (min size (w.handle.fileSize - offset.toNat))
        (min size (w.handle.fileSize - offset.toNat) + 1) w.vol [] with
    | mk v' o =>
      rw [hloop] at hread hvol hout
      cases o with
      | none => simp at hread
      | some out' =>
        simp only [Prod.mk.injEq, some.injEq] at hread
        obtain ⟨rfl, rfl, rfl⟩ := hread
        obtain rfl : v' = { w.vol with pool := { w.vol.pool with io := io } } := hvol
        have hbytes := hout out' rfl
        have hcount : out'.length = min size (w.handle.fileSize - offset.toNat) := by
          rw [hbytes, length_map, length_range]
        refine ⟨hsame _ io, hlen, ?_, ?_⟩
        · rw [hcount, intResult_of_lt hsize]
        · rw [hbytes, g.bytes]
          show (List.range _).map _ = ((fileBytes w.vol.disk _ w.handle.fileSize).drop offset.toNat).take size
          refine ext_getElem? fun i => ?_
          rw [getElem?_map, getElem?_take]
          by_cases hi : i < min size (w.handle.fileSize - offset.toNat)
          · rw [getElem?_range hi, if_pos (by omega), getElem?_drop, getElem?_fileBytes (by omega)]
            rfl
          rw [getElem?_eq_none (by rw [length_range]; omega), map_none]
          split
          · rw [getElem?_drop, getElem?_eq_none (by simp [fileBytes]; omega)]
          · rfl

/-- The file after the part of a write that is done. -/
theorem fileBytes_written {src : List UInt8} {v₀ : Volume} {h₀ : FileHandle} {added : List FileExtent} {st : WriteState}
    (w : WrittenSoFar src v₀ h₀ first live owner added st) (hb : WroteBytes src v₀ h₀ st)
    (hcov : Covered (h₀.extents.map extent) h₀.fileSize) (hoff : h₀.offset ≤ h₀.fileSize) :
    fileBytes st.vol.disk (st.handle.extents.map extent) (max h₀.fileSize (h₀.offset + st.written)) =
      writeBytes (fileBytes v₀.disk (h₀.extents.map extent) h₀.fileSize) h₀.offset (src.take st.written) := by
  have hlen : (src.take st.written).length = st.written := by
    rw [length_take]
    have := w.written
    omega
  have hold : (fileBytes v₀.disk (h₀.extents.map extent) h₀.fileSize).length = h₀.fileSize := by simp [fileBytes]
  rw [fileBytes, writeBytes, hlen, hold]
  refine map_congr_left fun pos hpos => ?_
  have hpos' := mem_range.mp hpos
  have hcase : pos / tagfsBlockSize < (fileBlocks h₀.extents).length ∨ h₀.offset ≤ pos ∧
      pos < h₀.offset + st.written := by
    by_cases hlt : pos < h₀.fileSize
    · exact .inl (hcov.lt hlt)
    · exact .inr (by omega)
  rw [show byteOf tagfsBlockSize st.vol.disk (blocksOf (st.handle.extents.map extent)) pos = _ from hb pos hcase]
  split
  · rw [getD_eq_getElem?_getD, getElem?_take_of_lt (by omega)]
  · rename_i hout
    rw [getD_eq_getElem?_getD, getElem?_fileBytes (show pos < h₀.fileSize by omega)]
    rfl

theorem write_step (g : w.Good first live owner) {offset : UInt64} {src : List UInt8}
    (hoff : offset.toNat ≤ w.handle.fileSize)
    (hreads : LoopReads hash src src.length ⟨w.vol, .none, w.handle.seek offset, 0, false⟩) {v : Volume} {cow : Cow}
    {h : FileHandle} {n : Nat} (hwrite : tagfsWrite hash w.vol .none (w.handle.seek offset) src = (v, cow, h, some n)) :
    n ≤ src.length ∧ ∃ live' owner', ({ w with
      vol := v
      handle := h
      bytes := writeBytes w.bytes offset.toNat (src.take n) } : HandleWorld).Good first live' owner' := by
  have hcov : w.handle.fileSize ≤ (fileBlocks w.handle.extents).length * tagfsBlockSize := g.covered
  have hnear : (⟨w.vol, .none, w.handle.seek offset, 0, false⟩ : WriteState).Near := by
    refine ⟨offset.toNat_lt, ?_⟩
    show (offset.toNat + 0) / tagfsBlockSize < (fileBlocks w.handle.extents).length + 0xFFFF
    unfold tagfsBlockSize at *
    omega
  obtain ⟨added, -, wr, hbytes⟩ := @writeLoop_wrote hash src _ (w.handle.seek offset) _ _ _ g.owns src.length _ _
    (WrittenSoFar.start g.vol g.owns rfl) hnear
  have hb := hbytes .start hreads
  generalize hst : writeLoop hash src src.length ⟨w.vol, .none, w.handle.seek offset, 0, false⟩ = st at wr hb
  obtain ⟨-, rfl, -, rfl, hend⟩ := tagfsWrite_answered hst hwrite
  -- what is left to say of the volume that the call leaves behind
  obtain ⟨live', hinv, hmedium⟩ : ∃ live', v.Inv first live' (ownAll owner (fileBlocks added) w.handle.fileId) ∧
      ∀ b ∈ st.blocks, v.pool.medium b = st.vol.pool.medium b := by
    rcases hend with ⟨-, rfl⟩ | ⟨-, hpub⟩
    · exact ⟨live, wr.inv, fun _ _ => rfl⟩
    · obtain ⟨-, hmedium, live', hinv', -⟩ := wr.published g.owns hpub
      exact ⟨live', hinv', hmedium⟩
  have hsize := wr.advance_fileSize g.owns offset.toNat_lt
  refine ⟨wr.written, live', _, hinv, (wr.owns g.owns _).2, ?_, ?_⟩
  · show (st.handle.advance st.written).fileSize ≤ st.blocks.length * tagfsBlockSize
    have hcov' : w.handle.fileSize ≤ _ := wr.covers g.covered
    have hfit : 0 < st.written → offset.toNat + st.written ≤ _ := wr.fit
    rw [hsize]
    show max w.handle.fileSize (offset.toNat + st.written) ≤ _
    omega
  · rw [g.bytes]
    refine (fileBytes_written wr hb g.covered hoff).symm.trans ?_
    simp only [hsize]
    unfold fileBytes
    have hdisk : ∀ b ∈ st.blocks, v.disk b = st.vol.disk b := fun b hb => by
      unfold Volume.disk
      rw [hmedium b hb]
    exact map_congr_left fun pos _ => congrArg (·.getD 0) (byteOf_congr hdisk).symm

/-- A call keeps the invariant. -/
theorem handleStep_inv {call : HandleCall} (hmeets : w.Meets hash call) (hnext : w.next hash call = some w')
    (h : w.Inv) : w'.Inv := by
  obtain ⟨⟨first, live, owner, g⟩, hright⟩ := h
  cases call with
  | write offset src =>
    obtain ⟨hoff, hlen, hreads⟩ := hmeets
    unfold HandleWorld.next at hnext
    cases hcall : tagfsWrite hash w.vol .none (w.handle.seek offset) src with
    | mk v r =>
      obtain ⟨cow, h, o⟩ := r
      simp only [hcall] at hnext
      cases o with
      | none => cases hnext
      | some n =>
        obtain ⟨hn, live', owner', hgood⟩ := write_step g hoff hreads hcall
        have hint : intResult n = n := intResult_of_lt (by omega)
        simp only [hint, Int.toNat_natCast] at hnext
        split at hnext
        · obtain rfl := some.inj hnext
          exact ⟨⟨first, live', owner', hgood.vol, hgood.owns, hgood.covered, hgood.bytes⟩, hright⟩
        · cases hnext
  | read offset size =>
    unfold HandleWorld.next at hnext
    cases hcall : w.vol.tagfsRead (w.handle.seek offset) size with
    | mk v r =>
      obtain ⟨h, o⟩ := r
      simp only [hcall] at hnext
      cases o with
      | none => cases hnext
      | some out =>
        obtain ⟨hgood, hr⟩ := read_step g hmeets hcall
        simp only at hnext
        split at hnext
        · obtain rfl := some.inj hnext
          refine ⟨⟨first, live, owner, hgood.vol, hgood.owns, hgood.covered, hgood.bytes⟩, fun r hmem => ?_⟩
          rcases mem_append.mp hmem with hmem | hmem
          · exact hright r hmem
          · rw [mem_singleton.mp hmem]
            exact hr
        · cases hnext

end steps

/-! ## Runs -/

/-- The step relation of `HandleWorld.next`. -/
def HandleWorld.Step (hash : Block → DedupHash) (w : HandleWorld) (call : HandleCall) (w' : HandleWorld) : Prop :=
  w.next hash call = some w'

/-- **Every file, every handle opened on it and every sequence of successful calls**: where no write begins behind the
end of the file and the medium answers the reads inside the writes, the reads return the byte array that the writes have
made of the file. -/
theorem handle_reads_bytes {hash : Block → DedupHash} {v v₁ : Volume} {first : Nat} {live : LiveRecords}
    {owner : Nat → Option Nat} {f : Nat} {e : FileTableEntry} {m : TagFSMetadata} {h : FileHandle}
    (hinv : v.Inv first live owner) (hf : fileTableLookup v.table f = some e) (hread : (v.readMeta e).1 = some m)
    (hcov : Covered (m.extents.map extent) m.size.toNat) (hopen : v.openFile f true = (some h, v₁))
    {calls : List HandleCall} {w : HandleWorld}
    (run : Run (HandleWorld.Step hash) (HandleWorld.Meets hash)
      ⟨v₁, h, fileBytes v.disk (m.extents.map extent) m.size.toNat, []⟩ calls w) : ∀ r ∈ w.reads, r.Right := by
  obtain ⟨⟨io, hio⟩, hinv₁, hmeta⟩ := readMeta_spec hinv hf
  obtain ⟨hfile, -, -⟩ := hmeta m hread
  have hopened : h = ⟨f, true, 0, m.size.toNat, m.extents⟩ ∧ v₁ = { v with pool := { v.pool with io := io } } := by
    rw [openFile_eq hf, hread, Prod.mk.injEq, some.injEq] at hopen
    exact ⟨hopen.1.symm, hopen.2.symm.trans hio⟩
  obtain ⟨rfl, rfl⟩ := hopened
  rw [hio] at hinv₁
  have hstart : HandleWorld.Inv ⟨{ v with pool := { v.pool with io := io } }, ⟨f, true, 0, m.size.toNat, m.extents⟩,
      fileBytes v.disk (m.extents.map extent) m.size.toNat, []⟩ :=
    ⟨⟨first, live, owner, hinv₁, hinv.owns f m hfile, hcov, rfl⟩, fun r hr => (nomatch hr)⟩
  exact (run.invariant (fun _ _ _ hmeets hstep h => handleStep_inv hmeets hstep h) hstart).2

/-! ## A small file -/

instance decidableLoopReads (hash : Block → DedupHash) (src : List UInt8) :
    (fuel : Nat) → (st : WriteState) → Decidable (LoopReads hash src fuel st)
  | 0, _ => isTrue trivial
  | fuel + 1, st =>
    match ht : st.target with
    | (none, _) => isTrue (by rw [LoopReads, ht]; exact fun _ => trivial)
    | (some t, st') =>
      match hc : st'.writeChunk hash src t with
      | (_, false) =>
        decidable_of_iff (st.written < src.length →
        st'.ReadBack src (t.diskBlock st')) (by rw [LoopReads, ht]; simp [hc])
      | (st'', true) =>
        have := decidableLoopReads hash src fuel st''
        decidable_of_iff (st.written < src.length → st'.ReadBack src (t.diskBlock st') ∧ LoopReads hash src fuel st'')
          (by rw [LoopReads, ht]; simp [hc])

instance HandleWorld.decidableMeets (hash : Block → DedupHash) (w : HandleWorld) : (call : HandleCall) →
    Decidable (w.Meets hash call)
  | .write _ _ => inferInstanceAs (Decidable (_ ∧ _ ∧ _))
  | .read _ _ => inferInstanceAs (Decidable (_ < _))

/-- File 1 of `oneFileVolume`, of 6000 bytes in the blocks 3 and 4, opened for writing. -/
def smallOpen : HandleWorld :=
  ⟨oneFileVolume noDedup [⟨3, 2⟩] 6000, ⟨1, true, 0, 6000, [⟨3, 2⟩]⟩,
    fileBytes (oneFileVolume noDedup [⟨3, 2⟩] 6000).disk [⟨3, 2⟩] 6000, []⟩

theorem smallOpen_opened :
    (oneFileVolume noDedup [⟨3, 2⟩] 6000).openFile 1 true = (some smallOpen.handle, smallOpen.vol) := by
  have hlookup :
    fileTableLookup (oneFileVolume noDedup [⟨3, 2⟩] 6000).table 1 = some (entryAt (2, 16)) := by decide +kernel
  have hcurrent : (entryAt (2, 16)).place.1 = (oneFileVolume noDedup [⟨3, 2⟩] 6000).pool.currentNum := by decide +kernel
  have hfound :
      ((oneFileVolume noDedup [⟨3, 2⟩] 6000).readMeta (entryAt (2, 16))).1 = some (smallFile [⟨3, 2⟩] 6000) := by
    decide +kernel
  have hvol : ((oneFileVolume noDedup [⟨3, 2⟩] 6000).readMeta (entryAt (2, 16))).2 = smallOpen.vol := by
    rw [Volume.readMeta, metaPoolRead, if_pos hcurrent]
    rfl
  rw [openFile_eq hlookup, hfound, hvol]
  rfl

/-- The file grows by four bytes, and what was there and what came is read. -/
theorem handle_reads_bytes_small :
    ∃ calls w, Run (HandleWorld.Step fun b => b) (HandleWorld.Meets fun b => b) smallOpen calls w ∧
    (∃ r ∈ w.reads, r.offset = 5998 ∧ r.returned = 6) ∧ ∀ r ∈ w.reads, r.Right := by
  obtain ⟨live, owner, hinv, -, -⟩ := oneFileVolume_inv noDedup [⟨3, 2⟩] 6000 (by decide) (by decide)
    (fun b hb => (nomatch hb)) (by decide +kernel)
  obtain ⟨w, run, hr⟩ : ∃ w, Run (HandleWorld.Step fun b => b) (HandleWorld.Meets fun b => b) smallOpen
      [.write 6000 [1, 2, 3, 4], .read 5998 10] w ∧ ∃ r ∈ w.reads, r.offset = 5998 ∧ r.returned = 6 :=
    run_reaches (fun h => h) (by decide +kernel)
  refine ⟨_, w, run, hr, ?_⟩
  exact @handle_reads_bytes _ _ _ _ _ _ 1 (entryAt (2, 16)) (smallFile [⟨3, 2⟩] 6000) _ hinv (by decide +kernel)
    (by decide +kernel) (by decide) smallOpen_opened _ w run

/-- One byte is written behind the end, into block 5. What that block held before, a header of the metadata pool, is
read from the positions in front of the byte. -/
theorem gap_shows_old_block :
    ∃ v first live owner m h v₁ calls w, Volume.Inv v first live owner ∧ v.recorded 1 = some m ∧
      Covered (m.extents.map extent) m.size.toNat ∧ v.openFile 1 true = (some h, v₁) ∧
      Run (HandleWorld.Step fun b => b) (fun _ _ => True)
        ⟨v₁, h, fileBytes v.disk (m.extents.map extent) m.size.toNat, []⟩ calls w ∧
      ∃ r ∈ w.reads, m.size.toNat ≤ r.offset ∧ r.out = [76, 80, 77, 84] ∧ ¬ r.Right := by
  obtain ⟨live, owner, hinv, hm, -⟩ := oneFileVolume_inv noDedup [⟨3, 2⟩] 6000 (by decide) (by decide)
    (fun b hb => (nomatch hb)) (by decide +kernel)
  obtain ⟨w, run, r, hmem, hoff, hout, hne⟩ : ∃ w, Run (HandleWorld.Step fun b => b) (fun _ _ => True) smallOpen
      [.write 8197 [1], .read 8192 4] w ∧ ∃ r ∈ w.reads, 6000 ≤ r.offset ∧ r.out = [76, 80, 77, 84] ∧
        r.out ≠ (r.bytes.drop r.offset).take r.size := run_reaches (fun h => h) (by decide +kernel)
  exact ⟨_, 2, live, owner, _, _, _, _, w, hinv, hm, by decide, smallOpen_opened, run, r, hmem, hoff, hout,
    fun hright => hne hright.out⟩

end BoxOS.TagFS
