import BoxOS.TagFS.FileWriteInv
import BoxOS.TagFS.SpaceChange

/-!
# A whole write

`WrittenSoFar` says what the loop of `tagfs_write` has done so far: the handle has new extents of blocks that were free,
and nothing has been written outside the blocks of the handle. A round keeps it (`target_wrote`, `chunk_wrote`), hence
the loop (`writeLoop_wrote`). Where the medium answers the reads of the loop, the bytes are those of the buffer in the
range that is written and the old ones elsewhere (`WroteBytes`).
-/

namespace BoxOS.TagFS

open Lib List WriteState

theorem openFile_eq {v : Volume} {f : Nat} {e : FileTableEntry} (hf : fileTableLookup v.table f = some e) (c : Bool) :
    v.openFile f c = (some ((v.readMeta e).1.elim ⟨f, c, 0, 0, []⟩ fun m => ⟨f, c, 0, m.size.toNat, m.extents⟩),
      (v.readMeta e).2) := by
  rw [Volume.openFile, hf]
  dsimp only
  split <;> rename_i hr <;> rw [hr] <;> rfl

/-- Blocks become a file's. -/
def ownAll (owner : Nat → Option Nat) (bs : List Nat) (f : Nat) : Nat → Option Nat := fun b =>
  if b ∈ bs then some f else owner b

/-- The disk block of the target. -/
def Target.diskBlock (t : Target) (st : WriteState) : Nat :=
  ((st.handle.extents.getD t.found ⟨0, 0⟩).startBlock + UInt32.ofNat (t.blockIndex st)).toNat

/-- The medium answers the reads of the loop. -/
def LoopReads (hash : Block → DedupHash) (src : List UInt8) : Nat → WriteState → Prop
  | 0, _ => True
  | fuel + 1, st =>
    st.written < src.length →
      match st.target with
      | (none, _) => True
      | (some t, st) => st.ReadBack src (t.diskBlock st) ∧
        match st.writeChunk hash src t with
        | (_, false) => True
        | (st, true) => LoopReads hash src fuel st

section wrote

variable {hash : Block → DedupHash} {src : List UInt8} {v₀ : Volume} {h₀ : FileHandle} {first : Nat}
  {live : LiveRecords} {owner : Nat → Option Nat} {added : List FileExtent} {st : WriteState}

theorem own_ownAll (bs : List Nat) (start count f : Nat) :
    own (ownAll owner bs f) start count f = ownAll owner (bs ++ (⟨start, count⟩ : Extent).blocks) f := by
  funext b
  have hmem : b ∈ (⟨start, count⟩ : Extent).blocks ↔ start ≤ b ∧ b < start + count := by
    simp only [Extent.blocks, mem_map, mem_range]
    constructor
    · rintro ⟨k, hk, rfl⟩
      omega
    · rintro ⟨h₁, h₂⟩
      exact ⟨b - start, by omega, by omega⟩
  unfold own ownAll
  simp only [mem_append, hmem]
  by_cases h₁ : start ≤ b ∧ b < start + count <;> simp [h₁]

/-- What a write through `h₀` on the volume `v₀` has done when it has reached `st`: `added` are the extents that the
handle has got. -/
structure WrittenSoFar (src : List UInt8) (v₀ : Volume) (h₀ : FileHandle) (first : Nat) (live : LiveRecords)
    (owner : Nat → Option Nat) (added : List FileExtent) (st : WriteState) : Prop where
  inactive : st.cow.active st.handle.fileId = false
  handle : st.handle = { h₀ with extents := h₀.extents ++ added }
  vol : ∃ space dedup medium io, st.vol =
    { v₀ with pool := { v₀.pool with space := space, dedup := dedup, medium := medium, io := io } }
  inv : st.vol.Inv first live (ownAll owner (fileBlocks added) h₀.fileId)
  nodup : st.blocks.Nodup
  valid : added.all (·.inVolume v₀.pool.space.totalBlocks) = true
  fresh : ∀ b ∈ fileBlocks added, ¬ v₀.pool.space.Holds b
  keeps : ∀ b, v₀.pool.space.Holds b → st.vol.pool.space.Holds b
  holds : v₀.pool.dedup.Held v₀.pool.space →
    (∀ b, st.vol.pool.space.Holds b ↔ v₀.pool.space.Holds b ∨ b ∈ fileBlocks added) ∧
      st.vol.pool.dedup.Held st.vol.pool.space
  total : st.vol.pool.space.totalBlocks = v₀.pool.space.totalBlocks
  medium : ∀ b, b ∉ st.blocks → st.vol.pool.medium b = v₀.pool.medium b
  written : st.written ≤ src.length
  fit : 0 < st.written → h₀.offset + st.written ≤ st.blocks.length * tagfsBlockSize

/-- The bytes after the part of the write that is done. -/
def WroteBytes (src : List UInt8) (v₀ : Volume) (h₀ : FileHandle) (st : WriteState) : Prop :=
  ∀ pos, pos / tagfsBlockSize < (fileBlocks h₀.extents).length ∨
      h₀.offset ≤ pos ∧ pos < h₀.offset + st.written →
    byteOf tagfsBlockSize st.vol.disk st.blocks pos =
      if h₀.offset ≤ pos ∧ pos < h₀.offset + st.written then src[pos - h₀.offset]?
      else byteOf tagfsBlockSize v₀.disk (fileBlocks h₀.extents) pos

theorem ownAll_of_notMem {bs : List Nat} {f b : Nat} (h : b ∉ bs) : ownAll owner bs f b = owner b := if_neg h

theorem WrittenSoFar.start {cow : Cow} (h : v₀.Inv first live owner) (hown : Owns owner h₀.fileId h₀.extents)
    (hcow : cow.active h₀.fileId = false) : WrittenSoFar src v₀ h₀ first live owner [] ⟨v₀, cow, h₀, 0, false⟩ := by
  have hnone : ownAll owner (fileBlocks []) h₀.fileId = owner := by
    funext b
    exact ownAll_of_notMem (by simp [fileBlocks])
  refine ⟨hcow, by simp, ⟨_, _, _, _, rfl⟩, by rw [hnone]; exact h, hown.nodup, rfl, by simp [fileBlocks], fun _ hb =>
    hb,
    fun hd => ⟨by simp [fileBlocks], hd⟩, rfl, fun _ _ => rfl, Nat.zero_le _, fun hpos => absurd hpos (Nat.lt_irrefl 0)⟩

theorem WrittenSoFar.blocks_eq (w : WrittenSoFar src v₀ h₀ first live owner added st) :
    st.blocks = fileBlocks h₀.extents ++ fileBlocks added := by
  rw [blocks, w.handle]
  simp [fileBlocks]

theorem WrittenSoFar.owned (w : WrittenSoFar src v₀ h₀ first live owner added st)
    (hown : Owns owner h₀.fileId h₀.extents) :
    ∀ b ∈ st.blocks, ownAll owner (fileBlocks added) h₀.fileId b = some h₀.fileId := by
  intro b hb
  rw [w.blocks_eq, mem_append] at hb
  unfold ownAll
  split
  · rfl
  · rename_i hno
    exact hown.owned b (hb.resolve_right hno)

theorem WrittenSoFar.length_lt (w : WrittenSoFar src v₀ h₀ first live owner added st)
    (hown : Owns owner h₀.fileId h₀.extents) : st.blocks.length < 2 ^ 32 := by
  have hsub : st.blocks ⊆ List.range st.vol.pool.space.totalBlocks := fun b hb =>
    mem_range.mpr (w.inv.held b _ (w.owned hown b hb)).1.1
  have hle := (subperm_of_subset w.nodup hsub).length_le
  rw [length_range] at hle
  exact hle.trans_lt w.inv.pool.bound

/-- The next byte is not too far behind the blocks of the handle. -/
def WriteState.Near (st : WriteState) : Prop :=
  st.handle.offset + st.written < 2 ^ 64 ∧ (st.handle.offset + st.written) / tagfsBlockSize < st.blocks.length + 0xFFFF

theorem WriteState.Near.filePos (h : st.Near) : st.filePos = st.handle.offset + st.written := Nat.mod_eq_of_lt h.1

theorem WrittenSoFar.near (w : WrittenSoFar src v₀ h₀ first live owner added st)
    (hown : Owns owner h₀.fileId h₀.extents) (hpos : 0 < st.written) : st.Near := by
  have hfit := w.fit hpos
  have hlen := w.length_lt hown
  unfold WriteState.Near
  rw [w.handle]
  unfold tagfsBlockSize at *
  constructor <;> simp only <;> omega

/-! ## One round -/

/-- What the target of the next byte is: the block is among those of the handle, which may have grown for it. -/
structure Targeted (st st' : WriteState) (t : Target) (b : Nat) : Prop where
  points : t.Points st' b
  block : st'.blocks[st.filePos / tagfsBlockSize]? = some b
  written : st'.written = st.written
  medium : st'.vol.pool.medium = st.vol.pool.medium
  grown : ∃ more, st'.blocks = st.blocks ++ more

theorem WrittenSoFar.grow (w : WrittenSoFar src v₀ h₀ first live owner added st)
    (hown : Owns owner h₀.fileId h₀.extents) {start count : Nat} {space : Space}
    (hal : st.vol.pool.space.allocBlocksInternal count = some (start, space)) (hpos : 0 < count)
    (hcount : count < 2 ^ 16) :
    WrittenSoFar src v₀ h₀ first live owner (added ++ [⟨UInt32.ofNat start, UInt16.ofNat count⟩])
      (st.grown start count space) ∧
    (st.grown start count space).blocks = st.blocks ++ (⟨start, count⟩ : Extent).blocks := by
  have hin := (alloc_spec w.inv.pool.space hal).1
  have hbound := w.inv.pool.bound
  have hholds := alloc_holds w.inv.pool.space hal
  have hstart : (UInt32.ofNat start).toNat = start := UInt32.toNat_ofNat_of_lt' (by simp [UInt32.size]; omega)
  have hnat : (UInt16.ofNat count).toNat = count := UInt16.toNat_ofNat_of_lt' hcount
  have hrun : fileBlocks [⟨UInt32.ofNat start, UInt16.ofNat count⟩] = (⟨start, count⟩ : Extent).blocks := by
    simp [fileBlocks, FileExtent.extent, hstart, hnat]
  have hmem : ∀ b, b ∈ (⟨start, count⟩ : Extent).blocks ↔ start ≤ b ∧ b < start + count := by
    intro b
    rw [← hrun]
    simp only [fileBlocks, map_cons, map_nil, blocksOf_cons, blocksOf_nil, append_nil]
    rw [mem_extent_blocks]
    simp only [hstart, hnat]
  have hadded : fileBlocks (added ++ [⟨UInt32.ofNat start, UInt16.ofNat count⟩]) =
      fileBlocks added ++ (⟨start, count⟩ : Extent).blocks := by
    rw [← hrun]
    simp [fileBlocks]
  have hblocks : (st.grown start count space).blocks = st.blocks ++ (⟨start, count⟩ : Extent).blocks := by
    rw [← hrun]
    simp [blocks, grown, fileBlocks]
  have hnew : ∀ b, start ≤ b ∧ b < start + count → ¬ v₀.pool.space.Holds b := fun b hb hold =>
    (hholds b).2 hb (w.keeps b hold)
  refine ⟨⟨w.inactive, ?_, ?_, ?_, ?_, ?_, fun b hb => ?_, fun b hb => (hholds b).1.mpr (.inl (w.keeps b hb)),
    fun hd => ?_,
    (alloc_spec w.inv.pool.space hal).2.2.1.trans w.total, fun b hb => ?_, w.written, fun hpos => ?_⟩, hblocks⟩
  · simp only [grown, w.handle, append_assoc]
  · obtain ⟨space', dedup, medium, io, hvol⟩ := w.vol
    exact ⟨space, dedup, medium, io, by simp only [grown, hvol]⟩
  · rw [hadded, ← own_ownAll]
    exact w.inv.own hal h₀.fileId
  · rw [hblocks, nodup_append]
    refine ⟨w.nodup, ?_, fun b hb c hc heq => ?_⟩
    · exact (nodup_range).map fun i j hij => by simpa using hij
    · subst heq
      exact (hholds b).2 ((hmem b).mp hc) (w.inv.held b _ (w.owned hown b hb)).1
  · have htotal := w.total
    rw [all_append, w.valid, all_cons, all_nil]
    simp only [FileExtent.inVolume, hstart, hnat, Bool.true_and, Bool.and_true, Bool.not_eq_true',
      decide_eq_false_iff_not]
    omega
  · rw [hadded, mem_append] at hb
    rcases hb with hb | hb
    · exact w.fresh b hb
    · exact hnew b ((hmem b).mp hb)
  · obtain ⟨hiff, hheld⟩ := w.holds hd
    refine ⟨fun b => ?_, hheld.one, fun b hb => (hholds b).1.mpr (.inl (hheld.held b hb))⟩
    have := (hholds b).1
    simp only [grown]
    rw [this, hiff, hadded, mem_append, hmem]
    tauto
  · rw [hblocks, mem_append, not_or] at hb
    exact w.medium b hb.1
  · have hfit := w.fit hpos
    rw [hblocks, length_append, Nat.add_mul]
    exact hfit.trans (Nat.le_add_right _ _)

/-- The run that the handle cannot take is given back. -/
theorem WrittenSoFar.ungrow (w : WrittenSoFar src v₀ h₀ first live owner added st) {start count : Nat} {space : Space}
    (hal : st.vol.pool.space.allocBlocksInternal count = some (start, space)) :
    WrittenSoFar src v₀ h₀ first live owner added (st.ungrown start count space) := by
  have hholds := alloc_holds w.inv.pool.space hal
  have hin := (alloc_spec w.inv.pool.space hal).1
  have htot := (alloc_spec w.inv.pool.space hal).2.2.1
  have hspace := alloc_inv w.inv.pool.space hal
  have htaken : space.Taken start count := by
    refine ⟨by omega, fun b h₁ h₂ => ((hholds b).1.mpr (.inr ⟨h₁, h₂⟩)).2⟩
  obtain ⟨hinv, htot'⟩ := freeBlocks_inv hspace htaken st.vol.pool.dedup st.vol.pool.now
  have hfreed := fun b => @freeBlocks_holds_iff space b hspace _ _ htaken st.vol.pool.dedup st.vol.pool.now
  have hkeep : ∀ b, st.vol.pool.space.Holds b →
      (space.freeBlocksInternal st.vol.pool.dedup st.vol.pool.now start count).1.Holds b := fun b hb =>
    (hfreed b).1.mpr ⟨(hholds b).1.mpr (.inl hb), fun hr => (hholds b).2 ⟨hr.1, hr.2.1⟩ hb⟩
  refine ⟨w.inactive, w.handle, ?_, ?_, w.nodup, w.valid, w.fresh, fun b hb => hkeep b (w.keeps b hb), fun hd => ?_,
    (htot'.trans htot).trans w.total, w.medium, w.written, w.fit⟩
  · obtain ⟨space', dedup, medium, io, hvol⟩ := w.vol
    exact ⟨(st.ungrown start count space).vol.pool.space, (st.ungrown start count space).vol.pool.dedup, medium, io,
      by simp only [ungrown, hvol]⟩
  · exact w.inv.grow (w.inv.pool.withSpace hinv (htot'.trans htot) hkeep) hkeep fun b hb => .inl hb
  · obtain ⟨hiff, hheld⟩ := w.holds hd
    refine ⟨fun b => ?_,
      freeBlocks_held hspace htaken ⟨hheld.one, fun b hb => (hholds b).1.mpr (.inl (hheld.held b hb))⟩ _⟩
    have hfree := (hfreed b).1
    simp only [ungrown]
    rw [hfree, (hholds b).1, ← hiff]
    constructor
    · rintro ⟨hb | hb, hno⟩
      · exact hb
      · -- a block that was not held has no further references
        have hshared : st.vol.pool.dedup.shared b = false := by
          by_contra hc
          exact (hholds b).2 hb (hheld.held b (by simpa using hc))
        exact absurd ⟨hb.1, hb.2, hshared⟩ hno
    · exact fun hb => ⟨.inl hb, fun hr => (hholds b).2 ⟨hr.1, hr.2.1⟩ hb⟩

/-- The target of the next byte. -/
theorem target_wrote (w : WrittenSoFar src v₀ h₀ first live owner added st) (hown : Owns owner h₀.fileId h₀.extents)
    (hnear : st.Near) : (∃ st', st.target = (none, st') ∧ WrittenSoFar src v₀ h₀ first live owner added st' ∧
    (WroteBytes src v₀ h₀ st → WroteBytes src v₀ h₀ st')) ∨ ∃ t st' more b, st.target = (some t, st') ∧
    WrittenSoFar src v₀ h₀ first live owner (added ++ more) st' ∧ Targeted st st' t b := by
  have hpos := hnear.filePos
  have hdiv := hnear.2
  rw [← hpos] at hdiv
  by_cases hlt : st.filePos / tagfsBlockSize < st.blocks.length
  · have hb : st.blocks[st.filePos / tagfsBlockSize]? = some st.blocks[st.filePos / tagfsBlockSize] :=
      getElem?_eq_getElem hlt
    have hheld := (w.inv.held _ _ (w.owned hown _ (mem_of_getElem? hb))).1.1
    obtain ⟨t, ht, -, hpoints⟩ := target_found hb (hheld.trans w.inv.pool.bound)
    exact .inr ⟨t, st, [], _, ht, by rw [append_nil]; exact w, hpoints, hb, rfl, rfl, [], (append_nil _).symm⟩
  have hgap : st.gap = st.filePos / tagfsBlockSize - st.blocks.length := Nat.mod_eq_of_lt (by omega)
  rcases target_new w.inv.pool.space w.inv.pool.bound (not_lt.mp hlt) (by omega) with ⟨-, ht⟩ | ⟨start, space, hal, ht⟩
  · exact .inl ⟨st, ht, w, id⟩
  rcases ht with ⟨-, ht⟩ | ⟨-, t, ht, -, -, hpoints⟩
  · exact .inl ⟨_, ht, w.ungrow hal, id⟩
  obtain ⟨w', hblocks⟩ := w.grow hown hal (Nat.succ_pos _) (by omega)
  refine .inr ⟨t, _, _, start + st.gap, ht, w', hpoints, ?_, rfl, rfl, _, hblocks⟩
  rw [hblocks, getElem?_append_right (not_lt.mp hlt), ← hgap]
  exact Extent.getElem?_blocks (Nat.lt_succ_self _)

/-! ### The block is written -/

theorem chunk_pos (st : WriteState) {src : List UInt8} (hlt : st.written < src.length) : 0 < st.chunk src := by
  have := Nat.mod_lt st.filePos tagfsBlockSize_pos
  unfold chunk
  omega

theorem WrittenSoFar.put (w : WrittenSoFar src v₀ h₀ first live owner added st)
    (hown : Owns owner h₀.fileId h₀.extents) {b : Nat} (hb : b ∈ st.blocks) {medium : Medium}
    (hmedium : ∀ c, c ≠ b → medium c = st.vol.pool.medium c) {dedup : DedupState}
    (hdedup : (∀ c, dedup.shared c = st.vol.pool.dedup.shared c) ∧ (st.vol.pool.dedup.One → dedup.One)) (io : List Bool)
    {written : Nat} (hwritten : written ≤ src.length)
    (hfit : 0 < written → h₀.offset + written ≤ st.blocks.length * tagfsBlockSize) (refused : Bool) :
    WrittenSoFar src v₀ h₀ first live owner added { st with
      vol := { st.vol with pool := { st.vol.pool with medium := medium, dedup := dedup, io := io } }
      written := written
      refused := refused } := by
  obtain ⟨-, hout, -⟩ := w.inv.held b _ (w.owned hown b hb)
  have hpool : ({ st.vol.pool with medium := medium, dedup := dedup, io := io } : MetaPool).Inv first live := by
    have hmed : ({ st.vol.pool with medium := medium } : MetaPool).Inv first live := by
      refine w.inv.pool.withMedium fun c hc _ => hmedium c ?_
      rintro rfl
      exact hout hc
    have hded : ({ st.vol.pool with medium := medium, dedup := dedup } : MetaPool).Inv first live :=
      hmed.withSpace hmed.space rfl fun _ hc => hc
    exact hded.withIo io
  refine ⟨w.inactive, w.handle, ?_, ?_, w.nodup, w.valid, w.fresh, w.keeps, fun hd => ?_, w.total, fun c hc => ?_,
    hwritten, hfit⟩
  · obtain ⟨space, dedup', medium', io', hvol⟩ := w.vol
    exact ⟨space, dedup, medium, io, by simp only [hvol]⟩
  · exact w.inv.grow hpool (fun _ hc => hc) fun _ hc => .inl hc
  · obtain ⟨hiff, hheld⟩ := w.holds hd
    refine ⟨hiff, hdedup.2 hheld.one, fun c hc => hheld.held c ?_⟩
    rw [← hdedup.1]
    exact hc
  · have hne : c ≠ b := fun heq => hc (heq ▸ hb)
    exact (hmedium c hne).trans (w.medium c hc)

theorem indexed_spec (hash : Block → DedupHash) (st : WriteState) (src : List UInt8) (t : Target) (b : Nat)
    (buf : Block) : (∀ c, (st.indexed hash src t b buf).shared c = st.vol.pool.dedup.shared c) ∧
    (st.vol.pool.dedup.One → (st.indexed hash src t b buf).One) := by
  unfold indexed
  split
  · exact register_spec _ _ _ _ _
  · exact ⟨fun _ => rfl, id⟩

theorem chunk_fit {k n : Nat} (hpos : st.filePos = h₀.offset + st.written) (hk : st.filePos / tagfsBlockSize = k)
    (hn : k < n) : h₀.offset + (st.written + st.chunk src) ≤ n * tagfsBlockSize := by
  have hmod := Nat.div_add_mod st.filePos tagfsBlockSize
  unfold chunk
  rw [hk] at hmod
  unfold tagfsBlockSize at *
  omega

/-! ### The bytes -/

theorem WroteBytes.start {cow : Cow} : WroteBytes src v₀ h₀ ⟨v₀, cow, h₀, 0, false⟩ := by
  intro pos _
  rw [if_neg (by simp only; omega)]
  rfl

theorem WroteBytes.target (h : WroteBytes src v₀ h₀ st) (w : WrittenSoFar src v₀ h₀ first live owner added st)
    {st' : WriteState} {t : Target} {b : Nat} (ht : Targeted st st' t b) : WroteBytes src v₀ h₀ st' := by
  intro pos hpos
  obtain ⟨more, hmore⟩ := ht.grown
  have hdisk : st'.vol.disk = st.vol.disk := by
    unfold Volume.disk
    rw [ht.medium]
  rw [ht.written] at hpos
  have hin : pos / tagfsBlockSize < st.blocks.length := by
    rcases hpos with hpos | hpos
    · rw [w.blocks_eq, length_append]
      omega
    · have hfit := w.fit (by omega)
      exact (Nat.div_lt_iff_lt_mul tagfsBlockSize_pos).mpr (by omega)
  rw [hmore, byteOf_append_left hin, hdisk, ht.written]
  exact h pos hpos

theorem getD_fillBlock {old : Block} {off i : Nat} {data : List UInt8} (hi : i < tagfsBlockSize) :
    (fillBlock old off data).getD i 0 = overlay (fun o => old.getD o 0) off data i := by
  rw [fillBlock, getD_eq_getElem?_getD, getElem?_map, getElem?_range hi]
  rfl

/-- The block of the next byte gets its part of the buffer; what else it holds stays, or there is nothing else. -/
theorem WroteBytes.chunk (h : WroteBytes src v₀ h₀ st) (w : WrittenSoFar src v₀ h₀ first live owner added st)
    (hpos : st.filePos = h₀.offset + st.written) {b : Nat} (hb : st.blocks[st.filePos / tagfsBlockSize]? = some b)
    {old : Block} (hold : st.Partial src → old = st.vol.pool.medium b) (dedup : DedupState) (io : List Bool) :
    WroteBytes src v₀ h₀ (st.wrote src b (st.buf src old) dedup io) := by
  intro pos hcase
  have hwritten := w.written
  have hmod := Nat.div_add_mod st.filePos tagfsBlockSize
  have hmodlt := Nat.mod_lt st.filePos tagfsBlockSize_pos
  have hmod' := Nat.div_add_mod pos tagfsBlockSize
  have hmodlt' := Nat.mod_lt pos tagfsBlockSize_pos
  have hchunk : st.chunk src = min (tagfsBlockSize - st.filePos % tagfsBlockSize) (src.length - st.written) := rfl
  have hdisk : (st.wrote src b (st.buf src old) dedup io).vol.disk =
      Function.update st.vol.disk b fun i => (st.buf src old).getD i 0 := by
    funext c i
    unfold Volume.disk wrote
    by_cases hc : c = b
    · subst hc
      simp only [Function.update_self]
    · simp only [Function.update_of_ne hc]
  have hlen : ((src.drop st.written).take (st.chunk src)).length = st.chunk src := by
    rw [length_take, length_drop]
    omega
  -- outside the part of the block that is written
  have hrest : ¬ (st.filePos ≤ pos ∧ pos < st.filePos + st.chunk src) →
      byteOf tagfsBlockSize st.vol.disk st.blocks pos =
        if h₀.offset ≤ pos ∧ pos < h₀.offset + (st.written + st.chunk src) then src[pos - h₀.offset]?
        else byteOf tagfsBlockSize v₀.disk (fileBlocks h₀.extents) pos := by
    intro hout
    have hcase' : pos / tagfsBlockSize < (fileBlocks h₀.extents).length ∨ h₀.offset ≤ pos ∧
        pos < h₀.offset + st.written := by
      refine hcase.imp_right fun hr => ?_
      simp only [wrote] at hr
      omega
    rw [h pos hcase']
    exact if_congr (by omega) rfl rfl
  rw [hdisk]
  refine (byteOf_write w.nodup hb _).trans ?_
  rw [show (st.wrote src b (st.buf src old) dedup io).written = st.written + st.chunk src from rfl]
  split
  · rename_i hk
    rw [buf, getD_fillBlock hmodlt']
    by_cases hin : st.filePos % tagfsBlockSize ≤ pos % tagfsBlockSize ∧
        pos % tagfsBlockSize < st.filePos % tagfsBlockSize + st.chunk src
    · rw [hk] at hmod'
      have hrange : h₀.offset ≤ pos ∧ pos < h₀.offset + (st.written + st.chunk src) := by omega
      rw [overlay_of_mem hin.1 (by rw [hlen]; exact hin.2), getElem?_take_of_lt (by omega), getElem?_drop]
      rw [if_pos hrange]
      congr 1
      omega
    rw [overlay_of_notMem (by rw [hlen]; exact hin)]
    have hpartial : st.Partial src := by
      unfold WriteState.Partial
      by_contra hno
      rw [not_or, not_not] at hno
      omega
    have hout : ¬ (st.filePos ≤ pos ∧ pos < st.filePos + st.chunk src) := by
      rw [hk] at hmod'
      omega
    rw [hold hpartial, ← hrest hout, byteOf_eq (hk ▸ hb)]
    rfl
  · rename_i hk
    refine hrest fun hin => hk ?_
    unfold tagfsBlockSize at *
    omega

/-- The block of the target is written, or refused. -/
theorem chunk_wrote (w : WrittenSoFar src v₀ h₀ first live owner added st) (hown : Owns owner h₀.fileId h₀.extents)
    (hpos : st.filePos = h₀.offset + st.written) (hlt : st.written < src.length) {t : Target} {b : Nat}
    (hpoints : t.Points st b) (hb : st.blocks[st.filePos / tagfsBlockSize]? = some b) :
    ∃ st' goes, st.writeChunk hash src t = (st', goes) ∧ WrittenSoFar src v₀ h₀ first live owner added st' ∧
    (goes = true → 0 < st'.written) ∧ st'.vol.pool.space = st.vol.pool.space ∧
    (WroteBytes src v₀ h₀ st → st.ReadBack src b → WroteBytes src v₀ h₀ st') := by
  obtain ⟨old, io, -, hold, hw | hw⟩ := @writeChunk_spec hash src st t b hpoints w.inactive
  · refine ⟨_, _, hw, ?_, nofun, rfl, fun h _ => h⟩
    exact w.put hown (mem_of_getElem? hb) (fun _ _ => rfl) (indexed_spec ..) io w.written w.fit true
  refine ⟨_, _, hw, ?_, fun _ => ?_, rfl, fun h hback => h.chunk w hpos hb (hold hback) _ _⟩
  · have hk : st.filePos / tagfsBlockSize < st.blocks.length := (List.getElem?_eq_some_iff.mp hb).1
    refine w.put hown (mem_of_getElem? hb) (fun c hc => Function.update_of_ne hc _ _) (indexed_spec ..) io ?_
      (fun _ => chunk_fit hpos rfl hk) st.refused
    unfold chunk
    omega
  · have := chunk_pos st hlt
    simp only [wrote]
    omega

/-! ## The loop -/

/-- The loop changes the handle's own blocks only, and takes free ones for it. Where the medium answers its reads, it
writes the bytes of the buffer, as far as it comes, and no others. -/
theorem writeLoop_wrote (hown : Owns owner h₀.fileId h₀.extents) (fuel : Nat) {st : WriteState}
    {added : List FileExtent} (w : WrittenSoFar src v₀ h₀ first live owner added st) (hnear : st.Near) :
    ∃ added', added <+: added' ∧ WrittenSoFar src v₀ h₀ first live owner added' (writeLoop hash src fuel st) ∧
    (WroteBytes src v₀ h₀ st → LoopReads hash src fuel st → WroteBytes src v₀ h₀ (writeLoop hash src fuel st)) := by
  induction fuel generalizing st added with
  | zero => exact ⟨added, prefix_rfl, w, fun h _ => h⟩
  | succ fuel ih =>
    rw [writeLoop, LoopReads]
    by_cases hlt : st.written < src.length
    · rw [if_pos hlt]
      rcases target_wrote w hown hnear with ⟨st', ht, w', hsame⟩ | ⟨t, st', more, b, ht, w', htarget⟩
      · rw [ht]
        exact ⟨added, prefix_rfl, w', fun h _ => hsame h⟩
      rw [ht]
      have hfile : st'.filePos = st.filePos := by
        rw [filePos, filePos, htarget.written, w'.handle, w.handle]
      have hpos : st'.filePos = h₀.offset + st'.written := by
        rw [hfile, hnear.filePos, w.handle, htarget.written]
      obtain ⟨st'', goes, hchunk, w'', hgoes, -, hbytes⟩ :=
        @chunk_wrote hash src v₀ h₀ first live owner (added ++ more) st'
          w' hown hpos (htarget.written ▸ hlt) t b htarget.points (hfile ▸ htarget.block)
      have hback : t.diskBlock st' = b := htarget.points.block
      simp only [hchunk, hback]
      cases goes with
      | false => exact ⟨_, prefix_append .., w'', fun h hreads => hbytes (h.target w htarget) (hreads hlt).1⟩
      | true =>
        obtain ⟨added', hpre, wl, hl⟩ := ih w'' (w''.near hown (hgoes rfl))
        exact ⟨added', (prefix_append ..).trans hpre, wl,
          fun h hreads => hl (hbytes (h.target w htarget) (hreads hlt).1) (hreads hlt).2⟩
    · rw [if_neg hlt]
      exact ⟨added, prefix_rfl, w, fun h _ => h⟩

end wrote

/-! ## The metadata -/

section publish

variable {v : Volume} {first : Nat} {live : LiveRecords} {owner : Nat → Option Nat} {h : FileHandle}

/-- The file table and the metadata after the write. -/
structure Published (v v' : Volume) (live : LiveRecords) (h : FileHandle) (live' : LiveRecords) : Prop where
  files : ∃ m, v.files live h.fileId = some m ∧
    v'.files live' = Function.update (v.files live) h.fileId (some { m with
      size := UInt64.ofNat h.fileSize
      extents := h.extents })

/-- The handle's size and extents become those of the file, or nothing changes. -/
theorem publish_spec (hinv : v.Inv first live owner) (hown : Owns owner h.fileId h.extents) :
    KeepsOthers v.pool (v.publish h).1.pool ∧
    ((v.publish h).2 = false → (v.publish h).1.Inv first live owner ∧ (v.publish h).1.files live = v.files live) ∧
    ((v.publish h).2 = true →
    ∃ live', (v.publish h).1.Inv first live' owner ∧ Published v (v.publish h).1 live h live') := by
  unfold Volume.publish
  cases hf : fileTableLookup v.table h.fileId with
  | none => exact ⟨.refl _, fun _ => ⟨hinv, rfl⟩, nofun⟩
  | some e =>
    obtain ⟨⟨io, hio⟩, hinv₁, hmeta⟩ := readMeta_spec hinv hf
    simp only []
    cases hr : v.readMeta e with
    | mk o v₁ =>
      rw [hr] at hio hinv₁ hmeta
      obtain rfl : v₁ = { v with pool := { v.pool with io := io } } := hio
      have hkeep : KeepsOthers v.pool { v.pool with io := io } :=
        ⟨rfl, fun _ hb => hb, fun _ hb => hb, fun _ hb => .inl hb, fun _ _ _ => rfl⟩
      cases o with
      | none => exact ⟨hkeep, fun _ => ⟨hinv₁, rfl⟩, nofun⟩
      | some m =>
        obtain ⟨hfile, hid, hne⟩ := hmeta m rfl
        obtain ⟨hrefused, hdone⟩ := @replaceRecord_spec _ first live owner h.fileId e
          { m with size := UInt64.ofNat h.fileSize, extents := h.extents } hinv₁ hf hid hne hown
        have hkeeps := @replaceRecord_keeps _ first live owner h.fileId e
          { m with size := UInt64.ofNat h.fileSize, extents := h.extents } hinv₁ hne
        refine ⟨hkeep.trans hkeeps, hrefused, fun hok => ?_⟩
        obtain ⟨live', hinv', hfiles⟩ := hdone hok
        exact ⟨live', hinv', m, hfile, hfiles⟩

/-- Publishing takes blocks for the pool only, and none when it fails. -/
theorem publish_holds (hinv : v.Inv first live owner) (hd : v.pool.dedup.Held v.pool.space)
    (hext : h.extents.all (·.inVolume v.pool.space.totalBlocks) = true) :
    ((v.publish h).2 = false →
      (v.publish h).1.table = v.table ∧ ∀ b, (v.publish h).1.pool.space.Holds b ↔ v.pool.space.Holds b) ∧
    ((v.publish h).2 = true → TakesForPool v.pool (v.publish h).1.pool) := by
  unfold Volume.publish
  cases hf : fileTableLookup v.table h.fileId with
  | none => exact ⟨fun _ => ⟨rfl, fun _ => Iff.rfl⟩, nofun⟩
  | some e =>
    obtain ⟨⟨io, hio⟩, hinv₁, hmeta⟩ := readMeta_spec hinv hf
    simp only []
    cases hr : v.readMeta e with
    | mk o v₁ =>
      rw [hr] at hio hinv₁ hmeta
      obtain rfl : v₁ = { v with pool := { v.pool with io := io } } := hio
      cases o with
      | none => exact ⟨fun _ => ⟨rfl, fun _ => Iff.rfl⟩, nofun⟩
      | some m =>
        obtain ⟨hrefused, hdone⟩ := @replaceRecord_holds _ first live owner h.fileId e
          { m with size := UInt64.ofNat h.fileSize, extents := h.extents } hinv₁ hd.held (hmeta m rfl).2.2 hext
        refine ⟨fun hno => ⟨(hrefused hno).2, (hrefused hno).1⟩, fun hok => ?_⟩
        exact ⟨(hdone hok).holds, (hdone hok).dedup⟩

end publish

/-! ## The call -/

/-- The two ends of `tagfs_write`: nothing has been written, or the handle has moved and its metadata are published. -/
theorem tagfsWrite_cases {hash : Block → DedupHash} {v : Volume} {cow : Cow} {h : FileHandle} {src : List UInt8}
    {st : WriteState} (hst : writeLoop hash src src.length ⟨v, cow, h, 0, false⟩ = st) (hsrc : src ≠ [])
    (hw : h.canWrite = true) :
    (st.written = 0 ∧ tagfsWrite hash v cow h src =
      (st.vol, st.cow, st.handle.advance st.written, if st.refused then none else some 0)) ∨
    (0 < st.written ∧ ∃ v' ok, st.vol.publish (st.handle.advance st.written) = (v', ok) ∧
      tagfsWrite hash v cow h src = (v', st.cow, st.handle.advance st.written,
        if ok = true ∧ st.refused = false then some st.written else none)) := by
  have hgo : ¬ (src = [] ∨ h.canWrite = false) := by
    rintro (hno | hno)
    · exact hsrc hno
    · rw [hw] at hno
      cases hno
  unfold tagfsWrite
  rw [if_neg hgo, hst]
  by_cases hzero : st.written = 0
  · exact .inl ⟨hzero, if_pos hzero⟩
  refine .inr ⟨Nat.pos_of_ne_zero hzero, ?_⟩
  simp only [if_neg hzero]
  cases hp : st.vol.publish (st.handle.advance st.written) with
  | mk v' ok =>
    refine ⟨v', ok, rfl, ?_⟩
    cases ok with
    | false => simp
    | true => cases st.refused <;> simp

section answered

variable {hash : Block → DedupHash} {src : List UInt8} {v v' : Volume} {h h' : FileHandle} {first : Nat}
  {live : LiveRecords} {owner : Nat → Option Nat} {added : List FileExtent} {st : WriteState} {n : Nat}

theorem tagfsWrite_answered (hst : writeLoop hash src src.length ⟨v, .none, h, 0, false⟩ = st) {cow : Cow}
    (hwrite : tagfsWrite hash v .none h src = (v', cow, h', some n)) : src ≠ [] ∧ n = st.written ∧ st.refused = false ∧
    h' = st.handle.advance n ∧ (n = 0 ∧ v' = st.vol ∨ 0 < n ∧ st.vol.publish (st.handle.advance n) = (v', true)) := by
  have hgo : src ≠ [] ∧ h.canWrite = true := by
    by_contra hno
    unfold tagfsWrite at hwrite
    rw [if_pos (by rcases Classical.not_and_iff_not_or_not.mp hno with h | h <;> simp_all)] at hwrite
    cases (Prod.mk.inj (Prod.mk.inj (Prod.mk.inj hwrite).2).2).2
  refine ⟨hgo.1, ?_⟩
  rcases tagfsWrite_cases hst hgo.1 hgo.2 with ⟨hzero, hcall⟩ | ⟨hpos, v₁, ok, hpub, hcall⟩
  · simp only [hwrite, Prod.mk.injEq] at hcall
    obtain ⟨rfl, -, rfl, hn⟩ := hcall
    split at hn
    · cases hn
    · rename_i hok
      obtain rfl := Option.some.inj hn
      exact ⟨hzero.symm, by simpa using hok, by rw [hzero], .inl ⟨rfl, rfl⟩⟩
  · simp only [hwrite, Prod.mk.injEq] at hcall
    obtain ⟨rfl, -, rfl, hn⟩ := hcall
    split at hn
    · rename_i hok
      obtain rfl := Option.some.inj hn
      exact ⟨rfl, hok.2, rfl, .inr ⟨hpos, hok.1 ▸ hpub⟩⟩
    · cases hn

theorem WrittenSoFar.owns (w : WrittenSoFar src v h first live owner added st) (hown : Owns owner h.fileId h.extents)
    (n : Nat) : (st.handle.advance n).fileId = h.fileId ∧
    Owns (ownAll owner (fileBlocks added) h.fileId) (st.handle.advance n).fileId (st.handle.advance n).extents := by
  have hid : (st.handle.advance n).fileId = h.fileId := by simp only [FileHandle.advance, w.handle]
  rw [hid]
  exact ⟨rfl, w.nodup, w.owned hown⟩

/-- The blocks of the handle lie where the new metadata do not go. -/
theorem WrittenSoFar.published (w : WrittenSoFar src v h first live owner added st)
    (hown : Owns owner h.fileId h.extents) (hpub : st.vol.publish (st.handle.advance n) = (v', true)) :
    KeepsOthers st.vol.pool v'.pool ∧ (∀ b ∈ st.blocks, v'.pool.medium b = st.vol.pool.medium b) ∧
    ∃ live', v'.Inv first live' (ownAll owner (fileBlocks added) h.fileId) ∧
    Published st.vol v' live (st.handle.advance n) live' := by
  obtain ⟨hkeeps, -, hdone⟩ := publish_spec w.inv (w.owns hown n).2
  rw [hpub] at hkeeps hdone
  refine ⟨hkeeps, fun b hb => ?_, hdone rfl⟩
  obtain ⟨hheld, hout, -⟩ := w.inv.held b _ (w.owned hown b hb)
  exact hkeeps.medium b hheld hout

theorem WrittenSoFar.covers (w : WrittenSoFar src v h first live owner added st) {size : Nat}
    (hcov : Covered (h.extents.map FileExtent.extent) size) : size ≤ st.blocks.length * tagfsBlockSize := by
  rw [w.blocks_eq, length_append, Nat.add_mul]
  exact hcov.trans (Nat.le_add_right _ _)

/-- The size after a write, which does not wrap. -/
theorem WrittenSoFar.advance_fileSize (w : WrittenSoFar src v h first live owner added st)
    (hown : Owns owner h.fileId h.extents) (hlt : h.offset < 2 ^ 64) :
    (st.handle.advance st.written).fileSize = max h.fileSize (h.offset + st.written) := by
  have hlen := w.length_lt hown
  have hfit := w.fit
  have hwrap : h.offset + st.written < 2 ^ 64 := by
    unfold tagfsBlockSize at hfit
    omega
  simp only [FileHandle.advance, w.handle, Nat.mod_eq_of_lt hwrap]
  split <;> omega

end answered

end BoxOS.TagFS
