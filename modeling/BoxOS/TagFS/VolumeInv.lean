import BoxOS.TagFS.MetaPoolRun
import BoxOS.TagFS.TagBitmapInv
import BoxOS.TagFS.Volume

/-!
# The volume as a map from file ids to metadata

`Volume.files` is what the file table and the metadata pool say together: for every file id the metadata of its file.
Every block of a file has that file as its owner (`Volume.Inv`), and the operations change the map at one file
(`replaceRecord_spec`, `deleteFile_spec`).
-/

open Function (update update_of_ne update_self)

namespace BoxOS.TagFS

open Lib List Option Volume MetaPool

/-! ## The file table -/

variable (t : FileTable)

theorem getD_tableGrowTo (want g : Nat) :
    (tableGrowTo t want).entries.getD g noEntry = t.entries.getD g noEntry := by
  unfold tableGrowTo
  split
  · rfl
  simp only [getD_eq_getElem?_getD, getElem?_append, getElem?_replicate]
  split
  · rfl
  · rename_i hge
    rw [getElem?_eq_none (by omega)]
    split <;> rfl

theorem fileTableLookup_eq (f : Nat) : fileTableLookup t f = if (t.entries.getD f noEntry).metaBlock = 0 then
    none else some (t.entries.getD f noEntry) := by
  unfold fileTableLookup
  by_cases hlt : f < t.entries.length
  · simp only [ge_iff_le, not_le.mpr hlt, false_or]
  have hnone : t.entries.getD f noEntry = noEntry := by
    rw [getD_eq_getElem?_getD, getElem?_eq_none (by omega)]
    rfl
  rw [hnone]
  simp [not_lt.mp hlt, noEntry]

theorem lookup_update (f : Nat) {e : FileTableEntry} (he : e.metaBlock ≠ 0) (g : Nat) :
    fileTableLookup (fileTableUpdate t f e) g = if g = f then some e else fileTableLookup t g := by
  have hgrown : ∃ t' : FileTable, f < t'.entries.length ∧ (∀ g, t'.entries.getD g noEntry = t.entries.getD g noEntry) ∧
      fileTableUpdate t f e = ⟨t'.entries.set f e, true⟩ := by
    unfold fileTableUpdate
    by_cases hge : f ≥ t.entries.length
    · rw [if_pos hge]
      refine ⟨_, ?_, fun g => getD_tableGrowTo t _ g, rfl⟩
      generalize hwant : (if t.entries.length * 2 ≤ f then f + 1 else t.entries.length * 2) = want
      have hlt : f < want := by
        rw [← hwant]
        split <;> omega
      rw [tableGrowTo, if_neg (by omega), length_append, length_replicate]
      omega
    · rw [if_neg hge]
      exact ⟨t, by omega, fun _ => rfl, rfl⟩
  obtain ⟨t', hlt, hsame, heq⟩ := hgrown
  rw [heq, fileTableLookup_eq, fileTableLookup_eq]
  by_cases hg : g = f
  · subst hg
    simp [getD_eq_getElem?_getD, hlt, he]
  · rw [if_neg hg, ← hsame g]
    simp [getD_eq_getElem?_getD, Ne.symm hg]

theorem lookup_delete (f g : Nat) :
    fileTableLookup (fileTableDelete t f).1 g = if g = f then none else fileTableLookup t g := by
  unfold fileTableDelete
  by_cases hge : f ≥ t.entries.length
  · rw [if_pos hge]
    split
    · rename_i hg
      rw [hg, fileTableLookup, if_pos (.inl hge)]
    · rfl
  rw [if_neg hge, fileTableLookup_eq, fileTableLookup_eq]
  by_cases hg : g = f
  · subst hg
    simp [getD_eq_getElem?_getD, not_le.mp hge, noEntry]
  · simp [getD_eq_getElem?_getD, Ne.symm hg, hg]

theorem place_entryAt {place : Nat × Nat} (h₁ : place.1 < 2 ^ 32) (h₂ : place.2 < 2 ^ 32) :
    (entryAt place).place = place :=
  Prod.ext (Nat.mod_eq_of_lt h₁) (Nat.mod_eq_of_lt h₂)

theorem entryAt_metaBlock_ne {place : Nat × Nat} (h₁ : place.1 < 2 ^ 32) (h₀ : place.1 ≠ 0) :
    (entryAt place).metaBlock ≠ 0 := by
  intro h
  have hmod : place.1 % 2 ^ 32 = 0 := congrArg UInt32.toNat h
  exact h₀ ((Nat.mod_eq_of_lt h₁).symm.trans hmod)

/-! ## Other blocks than those of the pool -/

section Pool

variable {p : MetaPool} {first : Nat} {live : LiveRecords}

theorem MetaPool.Inv.place_free (h : p.Inv first live) :
    live (p.currentNum, mpoolBlockHeader + p.current.usedBytes) = none := by
  by_contra hne
  obtain ⟨m, hm⟩ := ne_none_iff_exists'.mp hne
  obtain ⟨q, hq, hrec, -⟩ := h.record hm
  rw [p.content_current] at hrec
  obtain ⟨-, hlo, hhi⟩ := h.current.framed.frames.bounds hrec.start
  simp only [mpoolBlockHeader, recordHeaderSize] at hq hlo
  omega

theorem appendRecord_place {m : TagFSMetadata} {place : Nat × Nat} (hplace : (p.appendRecord m).2 = some place) :
    place = (p.currentNum, mpoolBlockHeader + p.current.usedBytes) := by
  unfold appendRecord at hplace
  simp only [] at hplace
  split at hplace
  · cases hplace
  · exact (some.inj hplace).symm

theorem MetaPool.Inv.place_spec (h : p.Inv first live) {m : TagFSMetadata} (hid : m.fileId ≠ 0)
    (hfit : p.current.usedBytes + metaPoolRecordSize m ≤ mpoolDataSize) {place : Nat × Nat}
    (hplace : (p.appendRecord m).2 = some place) :
    live place = none ∧ place.1 ∈ (p.appendRecord m).1.blocks ∧ place.2 < 2 ^ 32 := by
  obtain ⟨-, hblocks, -⟩ := appendRecord_inv h hid hfit
  have hused := h.current.framed.used
  rw [appendRecord_place hplace, hblocks]
  refine ⟨h.place_free, mem_of_getLast? h.last, ?_⟩
  simp only [mpoolBlockHeader, mpoolDataSize] at hused ⊢
  omega

/-- `meta_pool_write` puts the record where none was live. -/
theorem write_spec (h : p.Inv first live) {m : TagFSMetadata} (hid : m.fileId ≠ 0) {place : Nat × Nat}
    (hplace : (metaPoolWrite p m).2 = some place) :
    live place = none ∧ place.1 ∈ (metaPoolWrite p m).1.blocks ∧ place.2 < 2 ^ 32 := by
  rcases metaPoolWrite_cases h m with heq | ⟨p', hnext, heq⟩ | ⟨p', hnext, hfit, heq⟩ | ⟨hfit, heq⟩ <;> rw [heq]
    at hplace ⊢
  · cases hplace
  · cases hplace
  · have hinv := (chainNext_inv h).1
    rw [hnext] at hinv
    exact hinv.place_spec hid hfit hplace
  · exact h.place_spec hid hfit hplace

theorem delete_keeps (p : MetaPool) (block offset : Nat) :
    (metaPoolDelete p block offset).1.space = p.space ∧ (metaPoolDelete p block offset).1.medium = p.medium ∧
      (metaPoolDelete p block offset).1.dedup = p.dedup ∧ (metaPoolDelete p block offset).1.now = p.now := by
  unfold metaPoolDelete
  simp only []
  split
  · exact ⟨rfl, rfl, rfl, rfl⟩
  split
  · split <;> exact ⟨rfl, rfl, rfl, rfl⟩
  obtain ⟨io, hr | hr⟩ := p.readBlock_spec block
  · rw [hr]
    exact ⟨rfl, rfl, rfl, rfl⟩
  rw [hr]
  simp only []
  split
  · exact ⟨rfl, rfl, rfl, rfl⟩
  split <;> exact ⟨rfl, rfl, rfl, rfl⟩

theorem blocks_setKept (p : MetaPool) (index kept : Nat) : (p.setKept index kept).blocks = p.blocks := by
  refine ext_getElem? fun i => ?_
  simp only [blocks, setKept, getElem?_map, getElem?_modify]
  cases p.chain[i]? with
  | none => rfl
  | some link =>
    simp only [Option.map_some]
    split <;> rfl

theorem blocks_delete (p : MetaPool) (block offset : Nat) : (metaPoolDelete p block offset).1.blocks = p.blocks := by
  unfold metaPoolDelete
  simp only []
  split
  · rfl
  split
  · split
    · rfl
    · exact blocks_setKept _ _ _
  obtain ⟨io, hr | hr⟩ := p.readBlock_spec block
  · rw [hr]
    rfl
  rw [hr]
  simp only []
  split
  · rfl
  split
  · rfl
  · exact blocks_setKept _ _ _

theorem read_io (p : MetaPool) (block offset : Nat) : ∃ io, (metaPoolRead p block offset).2 = { p with io := io } := by
  unfold metaPoolRead
  split
  · exact ⟨p.io, rfl⟩
  · obtain ⟨io, hr | hr⟩ := p.readBlock_spec block
    · exact ⟨io, by rw [hr]⟩
    · exact ⟨io, by rw [hr]⟩

theorem read_live (h : p.Inv first live) {place : Nat × Nat} {m m' : TagFSMetadata} (hm : live place = some m)
    (hread : (metaPoolRead p place.1 place.2).1 = some m') : m' = m := by
  rcases (MetaPool.Inv.sound (x := (p, live)) h).read place.1 place.2 m hm with hr | ⟨hne, hr⟩
  · exact some.inj (hread.symm.trans hr)
  unfold metaPoolRead at hread
  rw [if_neg hne] at hread
  obtain ⟨io, hr' | hr'⟩ := p.readBlock_spec place.1
  · rw [hr'] at hread
    cases hread
  · rw [hr'] at hr
    cases hr

end Pool

/-! ## Giving back the blocks of a file -/

section Free

theorem freeRun_holds {s : Space} (hs : s.Inv) {start count c : Nat} (ht : s.Taken start count) (hc : s.Holds c)
    (hout : ¬ (start ≤ c ∧ c < start + count)) : (s.freeRunLocked start count).Holds c := by
  refine ⟨by rw [freeRun_totalBlocks]; exact hc.1, ?_⟩
  rw [freeRun_bits hs ht, hc.2]
  simp
  omega

theorem freeBlocks_holds {s : Space} (hs : s.Inv) {start count c : Nat} (ht : s.Taken start count) (d : DedupState)
    (now : Nat) (hc : s.Holds c) (hout : ¬ (start ≤ c ∧ c < start + count)) :
    (s.freeBlocksInternal d now start count).1.Holds c :=
  (freeBlocks_run hs ht d now hc fun _ _ _ hs' hc' ht' _ _ => freeRun_holds hs' ht' hc' (by omega)).2

theorem fileBlocks_cons (e : FileExtent) (es : List FileExtent) :
    fileBlocks (e :: es) = e.extent.blocks ++ fileBlocks es :=
  blocksOf_cons _ _

theorem mem_extent_blocks {e : FileExtent} {b : Nat} :
    b ∈ e.extent.blocks ↔ e.startBlock.toNat ≤ b ∧ b < e.startBlock.toNat + e.blockCount.toNat := by
  simp only [Extent.blocks, FileExtent.extent, List.mem_map, mem_range]
  constructor
  · rintro ⟨k, hk, rfl⟩
    omega
  · rintro ⟨h₁, h₂⟩
    exact ⟨b - e.startBlock.toNat, by omega, by omega⟩

theorem taken_of_holds {s : Space} {e : FileExtent} (hin : e.startBlock.toNat + e.blockCount.toNat ≤ s.totalBlocks)
    (h : ∀ b ∈ e.extent.blocks, s.Holds b) : s.Taken e.startBlock.toNat e.blockCount.toNat :=
  ⟨hin, fun b h₁ h₂ => (h b (mem_extent_blocks.mpr ⟨h₁, h₂⟩)).2⟩

/-- The extents of a file are given back: no other block is. -/
theorem freeExtents_spec (es : List FileExtent) {p : MetaPool} (hs : p.space.Inv) (hnd : (fileBlocks es).Nodup)
    (hin : ∀ e ∈ es, e.startBlock.toNat + e.blockCount.toNat ≤ p.space.totalBlocks)
    (hheld : ∀ b ∈ fileBlocks es, p.space.Holds b) :
    ∃ space dedup, p.freeExtents es = { p with space := space, dedup := dedup } ∧ space.Inv ∧
      space.totalBlocks = p.space.totalBlocks ∧ ∀ c, c ∉ fileBlocks es → p.space.Holds c → space.Holds c := by
  induction es generalizing p with
  | nil => exact ⟨p.space, p.dedup, rfl, hs, rfl, fun _ _ hc => hc⟩
  | cons e es ih =>
    rw [fileBlocks_cons] at hnd hheld
    have htaken := taken_of_holds (hin e mem_cons_self) fun b hb => hheld b (mem_append_left _ hb)
    obtain ⟨hinv, htot⟩ := freeBlocks_inv hs htaken p.dedup p.now
    have hkeep : ∀ c, c ∉ e.extent.blocks → p.space.Holds c →
        (p.space.freeBlocksInternal p.dedup p.now e.startBlock.toNat e.blockCount.toNat).1.Holds c :=
      fun c hc hold => freeBlocks_holds hs htaken p.dedup p.now hold fun hr => hc (mem_extent_blocks.mpr hr)
    have hrest := nodup_append.mp hnd
    have hdisj : ∀ b ∈ fileBlocks es, b ∉ e.extent.blocks := fun b hb hmem => hrest.2.2 b hmem b hb rfl
    generalize hr : p.space.freeBlocksInternal p.dedup p.now e.startBlock.toNat e.blockCount.toNat = r
      at hinv htot hkeep
    obtain ⟨space, dedup, heq, hinv', htot', hkeep'⟩ := ih (p := { p with space := r.1, dedup := r.2 }) hinv hrest.2.1
      (fun e' he' => htot ▸ hin e' (mem_cons_of_mem _ he'))
      fun b hb => hkeep b (hdisj b hb) (hheld b (mem_append_right _ hb))
    refine ⟨space, dedup, ?_, hinv', htot'.trans htot, fun c hc hold => ?_⟩
    · rw [← heq, freeExtents, foldl_cons, hr]
      rfl
    · rw [fileBlocks_cons, mem_append, not_or] at hc
      exact hkeep' c hc.2 (hkeep c hc.1 hold)

end Free

/-! ## Files and owners -/

/-- The metadata of every file; `live` are the records of the pool. -/
def Volume.files (v : Volume) (live : LiveRecords) (f : Nat) : Option TagFSMetadata :=
  (fileTableLookup v.table f).bind fun e => live e.place

/-- The extents have no block twice, and file `f` owns their blocks. -/
structure Owns (owner : Nat → Option Nat) (f : Nat) (es : List FileExtent) : Prop where
  nodup : (fileBlocks es).Nodup
  owned : ∀ b ∈ fileBlocks es, owner b = some f

/-- The file table names live records of the pool, and files, pool and chains have no block in common. -/
structure Volume.Inv (v : Volume) (first : Nat) (live : LiveRecords) (owner : Nat → Option Nat) : Prop where
  pool : v.pool.Inv first live
  first_ne : first ≠ 0
  entry : ∀ f e, fileTableLookup v.table f = some e → ∃ m, live e.place = some m ∧ m.fileId.toNat = f
  owns : ∀ f m, v.files live f = some m → Owns owner f m.extents
  held : ∀ b f, owner b = some f → v.pool.space.Holds b ∧ b ∉ v.pool.blocks ∧ b ∉ v.chains
  zero : owner 0 = none
  chains : ∀ b ∈ v.chains, v.pool.space.Holds b ∧ b ∉ v.pool.blocks

section Volume

variable {v : Volume} {first : Nat} {live : LiveRecords} {owner : Nat → Option Nat} {f : Nat} {e : FileTableEntry}
  {m : TagFSMetadata}

theorem files_of_lookup (hf : fileTableLookup v.table f = some e) (hm : live e.place = some m) :
    v.files live f = some m := by
  rw [files, hf]
  exact hm

theorem Volume.Inv.record (h : v.Inv first live owner) (hf : fileTableLookup v.table f = some e) :
    ∃ m, live e.place = some m ∧ v.files live f = some m ∧ m.fileId.toNat = f ∧ m.fileId ≠ 0 := by
  obtain ⟨m, hm, hid⟩ := h.entry f e hf
  obtain ⟨q, -, hrec, -⟩ := h.pool.record hm
  exact ⟨m, hm, files_of_lookup hf hm, hid, hrec.fileId⟩

theorem files_eq_some (h : v.files live f = some m) : ∃ e, fileTableLookup v.table f = some e ∧ live e.place = some m :=
  bind_eq_some_iff.mp h

theorem Volume.Inv.grow (h : v.Inv first live owner) {pool : MetaPool} (hinv : pool.Inv first live)
    (hholds : ∀ b, v.pool.space.Holds b → pool.space.Holds b)
    (hgrown : ∀ b ∈ pool.blocks, b ∈ v.pool.blocks ∨ ¬ v.pool.space.Holds b) :
    ({ v with pool := pool }).Inv first live owner := by
  have hout : ∀ b, v.pool.space.Holds b → b ∉ v.pool.blocks → b ∉ pool.blocks := fun b hb hn hmem =>
    (hgrown b hmem).elim hn fun hno => hno hb
  refine ⟨hinv, h.first_ne, h.entry, h.owns, fun b g hb => ?_, h.zero, fun b hb => ?_⟩
  · obtain ⟨hold, hpool, hchain⟩ := h.held b g hb
    exact ⟨hholds b hold, hout b hold hpool, hchain⟩
  · obtain ⟨hold, hpool⟩ := h.chains b hb
    exact ⟨hholds b hold, hout b hold hpool⟩

theorem Volume.Inv.withPool (h : v.Inv first live owner) {pool : MetaPool} (hinv : pool.Inv first live)
    (hk : KeepsOthers v.pool pool) : ({ v with pool := pool }).Inv first live owner :=
  h.grow hinv hk.holds hk.grown

theorem MetaPool.Inv.writeBlock {p : MetaPool} (h : p.Inv first live) {b : Nat} (hb : b ∉ p.blocks) (content : Block) :
    (p.writeBlock b content).2.Inv first live ∧ (p.writeBlock b content).2.space = p.space ∧
      (p.writeBlock b content).2.blocks = p.blocks := by
  obtain ⟨io, hw | hw⟩ := p.writeBlock_spec b content
  · rw [hw]
    exact ⟨h.withIo io, rfl, rfl⟩
  rw [hw]
  have hmed : ({ p with medium := update p.medium b content }).Inv first live := h.withMedium fun c hc _ => by
    have hne : c ≠ b := fun heq => hb (heq ▸ hc)
    exact update_of_ne hne _ _
  exact ⟨hmed.withIo io, rfl, rfl⟩

/-- A flush of another chain. -/
theorem Volume.Inv.chainWrite (h : v.Inv first live owner) (block : Option Nat) (content : Block) :
    (v.chainWrite block content).Inv first live owner := by
  unfold Volume.chainWrite
  cases block with
  | some b =>
    simp only []
    split
    · rename_i hb
      obtain ⟨hinv, hspace, hblocks⟩ := h.pool.writeBlock (h.chains b hb).2 content
      exact h.grow hinv (fun c hc => hspace ▸ hc) fun c hc => .inl (hblocks ▸ hc)
    · exact h
  | none =>
    simp only []
    split
    · exact h
    rename_i b space hal
    obtain ⟨hs, htot, hfresh, hb, hkeep⟩ := allocOne_spec h.pool.space hal
    have hpool : ({ v.pool with space := space }).Inv first live := h.pool.withSpace hs htot hkeep
    have hout : b ∉ v.pool.blocks := fun hmem => hfresh (h.pool.holds b hmem)
    obtain ⟨hinv, hspace, hblocks⟩ := hpool.writeBlock hout content
    have hgrown := h.grow hinv (fun c hc => hspace ▸ hkeep c hc) fun c hc => .inl (hblocks ▸ hc)
    refine ⟨hgrown.pool, hgrown.first_ne, hgrown.entry, hgrown.owns, fun c g hc => ?_, hgrown.zero, fun c hc => ?_⟩
    · obtain ⟨hold, hpool', hchain⟩ := hgrown.held c g hc
      refine ⟨hold, hpool', fun hmem => ?_⟩
      rcases mem_append.mp hmem with hmem | hmem
      · exact hchain hmem
      · exact hfresh (mem_singleton.mp hmem ▸ (h.held c g hc).1)
    · rcases mem_append.mp hc with hc | hc
      · exact hgrown.chains c hc
      · rw [mem_singleton.mp hc]
        exact ⟨hspace ▸ hb, hblocks ▸ hout⟩

theorem Volume.Inv.congr (h : v.Inv first live owner) {v' : Volume} (hpool : v'.pool = v.pool)
    (htable : v'.table = v.table) (hchains : v'.chains = v.chains) : v'.Inv first live owner := by
  obtain ⟨reg, idx, table, pool, chains, next, total⟩ := v
  obtain ⟨reg', idx', table', pool', chains', next', total'⟩ := v'
  obtain rfl : pool' = pool := hpool
  obtain rfl : table' = table := htable
  obtain rfl : chains' = chains := hchains
  exact ⟨h.pool, h.first_ne, h.entry, h.owns, h.held, h.zero, h.chains⟩

theorem Volume.Inv.forget (h : v.Inv first live owner) {place : Nat × Nat}
    (hfree : ∀ f e, fileTableLookup v.table f = some e → e.place ≠ place) :
    v.Inv first (afterDelete live place) owner ∧ v.files (afterDelete live place) = v.files live := by
  have hsame : ∀ f e, fileTableLookup v.table f = some e →
    afterDelete live place e.place = live e.place := fun f e hf =>
    update_of_ne (hfree f e hf) _ _
  have hfiles : v.files (afterDelete live place) = v.files live := by
    funext f
    unfold files
    cases hf : fileTableLookup v.table f with
    | none => rfl
    | some e => exact hsame f e hf
  refine ⟨⟨h.pool.forget place, h.first_ne, fun f e hf => ?_, fun f m hm => ?_, h.held, h.zero, h.chains⟩, hfiles⟩
  · rw [hsame f e hf]
    exact h.entry f e hf
  · exact h.owns f m (hfiles ▸ hm)

theorem Volume.Inv.place_lt (h : v.Inv first live owner) {block : Nat} (hb : block ∈ v.pool.blocks) :
    block < 2 ^ 32 ∧ block ≠ 0 := by
  refine ⟨(h.pool.holds block hb).1.trans h.pool.bound, fun h0 => ?_⟩
  have hhead := eq_cons_of_mem_head? h.pool.first
  rw [hhead, h0] at hb
  rcases mem_cons.mp hb with hb | hb
  · exact h.first_ne hb.symm
  · exact h.pool.tail hb

theorem Volume.Inv.writeNone (h : v.Inv first live owner) (hid : m.fileId ≠ 0) {pool : MetaPool}
    (hw : metaPoolWrite v.pool m = (pool, none)) : ({ v with pool := pool }).Inv first live owner := by
  obtain ⟨hinv, hk⟩ := write_inv h.pool hid
  rw [hw] at hinv hk
  exact h.withPool hinv hk

theorem Volume.Inv.setEntry (h : v.Inv first live owner) (hown : Owns owner m.fileId.toNat m.extents)
    {place : Nat × Nat} (hm : live place = some m) (hoff : place.2 < 2 ^ 32) :
    ({ v with table := fileTableUpdate v.table m.fileId.toNat (entryAt place) }).Inv first live owner ∧
    ({ v with table := fileTableUpdate v.table m.fileId.toNat (entryAt place) }).files live =
    update (v.files live) m.fileId.toNat (some m) := by
  obtain ⟨hlt, h0⟩ := h.place_lt (h.pool.live place.1 place.2 m hm)
  have hat := place_entryAt hlt hoff
  have hlook := lookup_update v.table m.fileId.toNat (entryAt_metaBlock_ne hlt h0)
  have hfiles : ({ v with table := fileTableUpdate v.table m.fileId.toNat (entryAt place) }).files live =
      update (v.files live) m.fileId.toNat (some m) := by
    funext g
    simp only [files, hlook]
    by_cases hg : g = m.fileId.toNat
    · rw [if_pos hg, hg, update_self]
      exact (congrArg live hat).trans hm
    · rw [if_neg hg, update_of_ne hg]
      rfl
  refine ⟨⟨h.pool, h.first_ne, fun g e he => ?_, fun g m' hm' => ?_, h.held, h.zero, h.chains⟩, hfiles⟩
  · simp only [hlook] at he
    split at he
    · rename_i hg
      obtain rfl := some.inj he
      exact ⟨m, (congrArg live hat).trans hm, hg.symm⟩
    · exact h.entry g e he
  · rw [hfiles] at hm'
    by_cases hg : g = m.fileId.toNat
    · rw [hg, update_self] at hm'
      rw [hg, ← some.inj hm']
      exact hown
    · rw [update_of_ne hg] at hm'
      exact h.owns g m' hm'

theorem afterWrite_forget {place : Nat × Nat} (hfree : live place = none) :
    afterDelete (update live place (some m)) place = live := by
  rw [afterDelete, Function.update_idem, ← hfree, Function.update_eq_self]

section

variable (h : v.Inv first live owner)

include h

/-- `meta_pool_write`, with no file that has the new record yet. -/
theorem Volume.Inv.writeSome (hid : m.fileId ≠ 0) {pool : MetaPool} {place : Nat × Nat}
    (hw : metaPoolWrite v.pool m = (pool, some place)) :
    ({ v with pool := pool }).Inv first (update live place (some m)) owner ∧
      v.files (update live place (some m)) = v.files live ∧ live place = none ∧ place.2 < 2 ^ 32 := by
  obtain ⟨hinv, hk⟩ := write_inv h.pool hid
  obtain ⟨hfree, -, hoff⟩ := write_spec h.pool hid (congrArg Prod.snd hw)
  rw [hw] at hinv hk
  have hsame : ∀ f e, fileTableLookup v.table f = some e →
      update live place (some m) e.place = live e.place := by
    intro f e he
    obtain ⟨m', hm', -⟩ := h.entry f e he
    exact update_of_ne (fun heq => by rw [heq, hfree] at hm'; exact nomatch hm') _ _
  have hfiles : v.files (update live place (some m)) = v.files live := by
    funext f
    unfold files
    cases hf : fileTableLookup v.table f with
    | none => rfl
    | some e => exact hsame f e hf
  have hold := h.withPool (afterWrite_forget hfree ▸ hinv.forget place) hk
  refine ⟨⟨hinv, h.first_ne, fun f e he => ?_, fun f m' hm' => ?_, hold.held, hold.zero, hold.chains⟩, hfiles,
    hfree, hoff⟩
  · rw [hsame f e he]
    exact h.entry f e he
  · exact h.owns f m' (hfiles ▸ hm')

theorem Volume.Inv.deleteRecord {place : Nat × Nat} (hm : live place = some m)
    (hfree : ∀ f e, fileTableLookup v.table f = some e → e.place ≠ place) :
    ({ v with pool := (metaPoolDelete v.pool place.1 place.2).1 }).Inv first (afterDelete live place) owner ∧
      v.files (afterDelete live place) = v.files live := by
  obtain ⟨q, hq, hrec, -⟩ := h.pool.record (show live (place.1, place.2) = some m from hm)
  obtain ⟨hinv, -, hblocks⟩ := delete_inv h.pool fun _ => ⟨q, hrec.start, hq⟩
  obtain ⟨hspace, hmedium, -, -⟩ := delete_keeps v.pool place.1 place.2
  obtain ⟨hold, hfiles⟩ := h.forget hfree
  refine ⟨hold.withPool hinv ⟨by rw [hspace], fun b hb => by rwa [hspace], fun b hb => by rwa [hblocks],
    fun b hb => .inl (by rwa [hblocks] at hb), fun b _ _ => by rw [hmedium]⟩, hfiles⟩

/-- A new record for file `f` takes the place of the old one, or nothing changes. -/
theorem replaceRecord_spec (hf : fileTableLookup v.table f = some e) (hid : m.fileId.toNat = f) (hne : m.fileId ≠ 0)
    (hown : Owns owner f m.extents) : ((v.replaceRecord f e m).2 = false →
    (v.replaceRecord f e m).1.Inv first live owner ∧ (v.replaceRecord f e m).1.files live = v.files live) ∧
    ((v.replaceRecord f e m).2 = true → ∃ live', (v.replaceRecord f e m).1.Inv first live' owner ∧
    (v.replaceRecord f e m).1.files live' = update (v.files live) f (some m)) := by
  unfold replaceRecord
  cases hw : metaPoolWrite v.pool m with
  | mk pool place =>
    cases place with
    | none => exact ⟨fun _ => ⟨h.writeNone hne hw, rfl⟩, nofun⟩
    | some place =>
      refine ⟨nofun, fun _ => ?_⟩
      obtain ⟨h₁, hfiles₁, hfree, hoff⟩ := h.writeSome hne hw
      obtain ⟨h₂, hfiles₂⟩ := h₁.setEntry (hid.symm ▸ hown) (update_self ..) hoff
      obtain ⟨m₀, hm₀, hid₀⟩ := h.entry f e hf
      have hother : e.place ≠ place := fun heq => by
        rw [heq, hfree] at hm₀
        cases hm₀
      have hold : update live place (some m) e.place = some m₀ := by rw [update_of_ne hother, hm₀]
      -- the other files have other records, and this one has the new record
      have hgone : ∀ g e', fileTableLookup (fileTableUpdate v.table m.fileId.toNat (entryAt place)) g = some e' →
          e'.place ≠ e.place := by
        intro g e' he' heq
        obtain ⟨hlt, h0⟩ := h₁.place_lt (h₁.pool.live place.1 place.2 m (update_self ..))
        obtain ⟨m', hm', hid'⟩ := h₂.entry g e' he'
        rw [heq, hold] at hm'
        obtain rfl := some.inj hm'
        rw [lookup_update v.table _ (entryAt_metaBlock_ne hlt h0), if_pos (by rw [hid, ← hid₀, hid'])] at he'
        rw [← some.inj he', place_entryAt hlt hoff] at heq
        exact hother heq.symm
      obtain ⟨h₃, hfiles₃⟩ := h₂.deleteRecord hold hgone
      simp only [hid] at h₃ hfiles₃ hfiles₂
      have hupdate : update (v.files (update live place (some m))) f (some m) =
          update (v.files live) f (some m) := by rw [hfiles₁]
      exact ⟨_, h₃, hfiles₃.trans (hfiles₂.trans hupdate)⟩

theorem replaceRecord_keeps (hne : m.fileId ≠ 0) :
    KeepsOthers v.pool (v.replaceRecord f e m).1.pool := by
  obtain ⟨-, hk⟩ := write_inv h.pool hne
  unfold replaceRecord
  cases hw : metaPoolWrite v.pool m with
  | mk pool place =>
    rw [hw] at hk
    cases place with
    | none => exact hk
    | some place =>
      obtain ⟨hspace, hmedium, -, -⟩ := delete_keeps pool e.place.1 e.place.2
      have hblocks := blocks_delete pool e.place.1 e.place.2
      exact hk.trans ⟨by rw [hspace], fun b hb => by rwa [hspace], fun b hb => by rwa [hblocks],
        fun b hb => .inl (by rwa [hblocks] at hb), fun b _ _ => by rw [hmedium]⟩

theorem readMeta_spec (hf : fileTableLookup v.table f = some e) :
    (∃ io, (v.readMeta e).2 = { v with pool := { v.pool with io := io } }) ∧ (v.readMeta e).2.Inv first live owner ∧
      ∀ m, (v.readMeta e).1 = some m → v.files live f = some m ∧ m.fileId.toNat = f ∧ m.fileId ≠ 0 := by
  obtain ⟨m, hm, hfiles, hid, hne⟩ := h.record hf
  obtain ⟨io, hio⟩ := read_io v.pool e.place.1 e.place.2
  have heq : (v.readMeta e).2 = { v with pool := { v.pool with io := io } } := by rw [readMeta, hio]
  refine ⟨⟨io, heq⟩, ?_, fun m' hm' => ?_⟩
  · rw [heq]
    exact h.withPool (h.pool.withIo io) ⟨rfl, fun _ hb => hb, fun _ hb => hb, fun _ hb => .inl hb, fun _ _ _ => rfl⟩
  · obtain rfl := read_live h.pool hm hm'
    exact ⟨hfiles, hid, hne⟩

end

/-- The blocks have no owner any more. -/
def disown (owner : Nat → Option Nat) (bs : List Nat) : Nat → Option Nat := fun b => if b ∈ bs then none else owner b

theorem disown_nil (owner : Nat → Option Nat) : disown owner [] = owner := by
  funext b
  simp [disown]

theorem disown_eq_some {bs : List Nat} {b : Nat} : disown owner bs b = some f ↔ b ∉ bs ∧ owner b = some f := by
  unfold disown
  split <;> simp [*]

theorem Volume.Inv.clearEntry (h : v.Inv first live owner) (f : Nat) :
    ({ v with table := (fileTableDelete v.table f).1 }).Inv first live owner ∧
      ({ v with table := (fileTableDelete v.table f).1 }).files live = update (v.files live) f none := by
  have hfiles : ({ v with table := (fileTableDelete v.table f).1 }).files live = update (v.files live) f none := by
    funext g
    simp only [files, lookup_delete]
    by_cases hg : g = f
    · rw [if_pos hg, hg, update_self]
      rfl
    · rw [if_neg hg, update_of_ne hg]
      rfl
  refine ⟨⟨h.pool, h.first_ne, fun g e he => ?_, fun g m hm => ?_, h.held, h.zero, h.chains⟩, hfiles⟩
  · simp only [lookup_delete] at he
    split at he
    · cases he
    · exact h.entry g e he
  · rw [hfiles] at hm
    by_cases hg : g = f
    · rw [hg, update_self] at hm
      cases hm
    · rw [update_of_ne hg] at hm
      exact h.owns g m hm

theorem Volume.Inv.freeExtents (h : v.Inv first live owner) {es : List FileExtent} (hown : Owns owner f es)
    (hin : ∀ e ∈ es, e.startBlock.toNat + e.blockCount.toNat ≤ v.pool.space.totalBlocks)
    (hgone : ∀ g m, v.files live g = some m → ∀ b ∈ fileBlocks m.extents, b ∉ fileBlocks es) :
    ({ v with pool := v.pool.freeExtents es }).Inv first live (disown owner (fileBlocks es)) := by
  obtain ⟨space, dedup, heq, hinv, htot, hkeep⟩ := freeExtents_spec es h.pool.space hown.nodup hin
    fun b hb => (h.held b f (hown.owned b hb)).1
  have hout : ∀ b ∈ v.pool.blocks, b ∉ fileBlocks es := fun b hb hmem => (h.held b f (hown.owned b hmem)).2.1 hb
  have hzero : 0 ∉ fileBlocks es := fun hmem => nomatch h.zero.symm.trans (hown.owned 0 hmem)
  rw [heq]
  refine ⟨?_, h.first_ne, h.entry, fun g m hm => ?_, fun b g hb => ?_, ?_, fun b hb => ?_⟩
  · exact ⟨hinv, htot ▸ h.pool.bound, hkeep 0 hzero h.pool.zero, h.pool.first, h.pool.last, h.pool.currentKept,
      h.pool.nodup, fun b hb => hkeep b (hout b hb) (h.pool.holds b hb), h.pool.tail, h.pool.linked,
      fun link hl => htot ▸ h.pool.links link hl, h.pool.owed, h.pool.live⟩
  · have := h.owns g m hm
    exact ⟨this.nodup, fun b hb => disown_eq_some.mpr ⟨hgone g m hm b hb, this.owned b hb⟩⟩
  · obtain ⟨hn, hb⟩ := disown_eq_some.mp hb
    obtain ⟨hold, hpool, hchain⟩ := h.held b g hb
    exact ⟨hkeep b hn hold, hpool, hchain⟩
  · unfold disown
    rw [if_neg hzero, h.zero]
  · obtain ⟨hold, hpool⟩ := h.chains b hb
    exact ⟨hkeep b (fun hmem => (h.held b f (hown.owned b hmem)).2.2 hb) hold, hpool⟩

theorem Volume.Inv.extents_inside (h : v.Inv first live owner) (hm : v.files live f = some m) :
    ∀ e ∈ m.extents, e.startBlock.toNat + e.blockCount.toNat ≤ v.pool.space.totalBlocks := by
  obtain ⟨e, -, hlive⟩ := files_eq_some hm
  obtain ⟨q, -, hrec, -⟩ := h.pool.record (show live (e.place.1, e.place.2) = some m from hlive)
  have hpos : 0 < v.pool.space.totalBlocks := Nat.lt_of_le_of_lt (Nat.zero_le _) h.pool.zero.1
  intro x hx
  have := List.all_eq_true.mp hrec.extents x hx
  simp only [FileExtent.inVolume, hpos, true_and, Bool.not_eq_true', decide_eq_false_iff_not, not_or, not_lt, not_le]
    at this
  omega

theorem Volume.Inv.disjoint (h : v.Inv first live owner) {g : Nat} {m' : TagFSMetadata} (hm : v.files live f = some m)
    (hm' : v.files live g = some m') (hne : g ≠ f) : ∀ b ∈ fileBlocks m'.extents, b ∉ fileBlocks m.extents := by
  intro b hb hb'
  have h₁ := (h.owns f m hm).owned b hb'
  have h₂ := (h.owns g m' hm').owned b hb
  exact hne (some.inj (h₂.symm.trans h₁))

/-- `tagfs_delete_file`: the file is gone, and the blocks that could be read off its metadata have no owner. -/
theorem deleteFile_spec (h : v.Inv first live owner) (hf : fileTableLookup v.table f = some e) : ∃ live',
    (v.deleteFile f).1.Inv first live' (disown owner (((v.readMeta e).1.map fun m => fileBlocks m.extents).getD [])) ∧
    (v.deleteFile f).1.files live' = update (v.files live) f none := by
  obtain ⟨⟨io, hio⟩, hread, hmeta⟩ := readMeta_spec h hf
  obtain ⟨m, hlive, -, hid, -⟩ := h.record hf
  simp only [deleteFile, hf]
  generalize v.readMeta e = r at hio hread hmeta ⊢
  obtain ⟨o, v₁⟩ := r
  obtain rfl : v₁ = { v with pool := { v.pool with io := io } } := hio
  obtain ⟨h₁, hfiles₁⟩ := Volume.Inv.clearEntry hread f
  simp only at h₁ hfiles₁ ⊢
  have hgone : ∀ g e', fileTableLookup (fileTableDelete v.table f).1 g = some e' → e'.place ≠ e.place := by
    intro g e' he' heq
    rw [lookup_delete] at he'
    split at he'
    · cases he'
    rename_i hg
    obtain ⟨m', hm', hid'⟩ := h.entry g e' he'
    rw [heq, hlive] at hm'
    exact hg (by rw [← hid', ← some.inj hm', hid])
  cases o with
  | none =>
    obtain ⟨h₂, hfiles₂⟩ := h₁.deleteRecord hlive hgone
    rw [map_none, getD_none, disown_nil]
    exact ⟨_, h₂.congr rfl rfl rfl, hfiles₂.trans hfiles₁⟩
  | some m' =>
    obtain ⟨hfile, -, -⟩ := hmeta m' rfl
    have hother : ∀ g m'', files { v with table := (fileTableDelete v.table f).1 } live g = some m'' →
        ∀ b ∈ fileBlocks m''.extents, b ∉ fileBlocks m'.extents := by
      intro g m'' hm''
      have hg := (congrFun hfiles₁ g).symm.trans hm''
      by_cases heq : g = f
      · rw [heq, update_self] at hg
        cases hg
      · rw [update_of_ne heq] at hg
        exact h.disjoint hfile hg heq
    have h₂ := Volume.Inv.freeExtents h₁ (h.owns f m' hfile) (h.extents_inside hfile) hother
    obtain ⟨h₃, hfiles₃⟩ := h₂.deleteRecord hlive hgone
    exact ⟨_, h₃.congr rfl rfl rfl, hfiles₃.trans hfiles₁⟩

end Volume

end BoxOS.TagFS
