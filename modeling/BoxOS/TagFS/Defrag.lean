import BoxOS.TagFS.FailedWrite

/-!
# Defragmentation

`tagfs_defrag_file` copies a file to one run of blocks. It marks the bits itself instead of asking the allocator: a run
at the target block stays in the free list, and the old blocks do not come back to it. **`defrag_keeps_space_iff`**:
where the call returns 0, what it promises holds exactly when the file has no block. **`defrag_gives_block_twice`**: the
next allocation gets a block of the file.
-/

namespace BoxOS.TagFS

open Lib List Option MetaPool

/-- `bitmap_test_bit` without a look at the size of the bitmap; `behind` is what lies behind it in memory. -/
def Space.testBit (s : Space) (behind : Nat → Bool) (b : Nat) : Bool :=
  if b < s.bitmap.length * 8 then bitmapTestBit s.bitmap b else behind b

/-- Where the file goes: the target, when its bits are clear, or a run of the allocator. -/
def Space.defragPlace (s : Space) (behind : Nat → Bool) (totalBlocks targetBlock : Nat) : Option (Nat × Space) :=
  if targetBlock ≠ 0 ∧ targetBlock < s.totalBlocks ∧
      (List.range totalBlocks).all (fun b => !s.testBit behind (targetBlock + b)) = true then
    some (targetBlock, { s with
      bitmap := setRun s.bitmap targetBlock totalBlocks
      freeBlocks := (s.freeBlocks + 2 ^ 64 - totalBlocks) % 2 ^ 64 })
  else s.allocBlocks totalBlocks

/-- The blocks are copied to the run that begins at `dest`, up to the first that the medium refuses. -/
def MetaPool.copyBlocks : List Nat → Nat → MetaPool → MetaPool × Bool
  | [], _, p => (p, true)
  | b :: bs, dest, p =>
    match p.readBlock b with
    | (none, p) => (p, false)
    | (some buf, p) =>
      match p.writeBlock dest buf with
      | (false, p) => (p, false)
      | (true, p) => copyBlocks bs ((dest + 1) % 2 ^ 32) p

/-- The bits of the old extents are cleared, and their blocks counted as free. -/
def Space.clearExtents (s : Space) (es : List FileExtent) : Space :=
  es.foldl (fun s e => { s with
    bitmap := clearRun s.bitmap e.startBlock.toNat e.blockCount.toNat
    freeBlocks := (s.freeBlocks + e.blockCount.toNat) % 2 ^ 64 }) s

/-- `tagfs_free_blocks`. -/
def Volume.freeRun (v : Volume) (start count : Nat) : Volume :=
  let r := v.pool.space.freeBlocksInternal v.pool.dedup v.pool.now start count
  { v with pool := { v.pool with space := r.1, dedup := r.2 } }

/-- `tagfs_defrag_file_inside`; `memory` is the answer of `kmalloc` and `now` the time. -/
def Volume.tagfsDefragFile (v : Volume) (behind : Nat → Bool) (memory : Bool) (now : UInt64) (f targetBlock : Nat) :
    Volume × Int :=
  match fileTableLookup v.table f with
  | none => (v, -1)
  | some e =>
    match v.readMeta e with
    | (none, v) => (v, -1)
    | (some m, v) =>
      if m.extents.length ≤ 1 then (v, 0)
      else
        let totalBlocks := (m.extents.map fun e => e.blockCount.toNat).sum % 2 ^ 32
        match v.pool.space.defragPlace behind totalBlocks targetBlock with
        | none => (v, -1)
        | some (newStart, space) =>
          match ({ v.pool with space := space }).copyBlocks (fileBlocks m.extents) newStart with
          | (pool, false) => ({ v with pool := pool }.freeRun newStart totalBlocks, -1)
          | (pool, true) =>
            if memory = false then ({ v with pool := pool }.freeRun newStart totalBlocks, -1)
            else
              match { v with pool := pool }.replaceRecord f e { m with
                  extents := [⟨UInt32.ofNat newStart, UInt16.ofNat totalBlocks⟩]
                  modifiedTime := now } with
              | (v, false) => (v.freeRun newStart totalBlocks, -1)
              | (v, true) => ({ v with pool := { v.pool with space := v.pool.space.clearExtents m.extents } }, 0)

/-! ## What it promises -/

/-- One allocation. -/
def Space.Allocates (s s' : Space) : Prop := ∃ count start, s.allocBlocks count = some (start, s')

/-- The file has the bytes and as many blocks as before, the free-space structures agree, and no later allocation gets a
block of the file. -/
structure Defragmented (v v' : Volume) (f : Nat) (m m' : TagFSMetadata) : Prop where
  recorded : v'.recorded f = some m'
  size : m'.size = m.size
  bytes : fileBytes v'.disk (m'.extents.map FileExtent.extent) m'.size.toNat =
    fileBytes v.disk (m.extents.map FileExtent.extent) m.size.toNat
  blocks : (fileBlocks m'.extents).length = (fileBlocks m.extents).length
  space : v'.pool.space.Inv
  later : ∀ s count start s', Relation.ReflTransGen Space.Allocates v'.pool.space s →
    s.allocBlocks count = some (start, s') → ∀ b ∈ fileBlocks m'.extents, ¬ (start ≤ b ∧ b < start + count)

/-! ## The free list -/

/-- The free list has got no new block, and volume and bitmap are as large as before. -/
structure Shrinks (s s' : Space) : Prop where
  total : s'.totalBlocks = s.totalBlocks
  length : s'.bitmap.length = s.bitmap.length
  covers : ∀ b, Covers s'.freeList b → Covers s.freeList b

theorem Shrinks.refl (s : Space) : Shrinks s s := ⟨rfl, rfl, fun _ hb => hb⟩

theorem Shrinks.trans {s s' s'' : Space} (h : Shrinks s s') (h' : Shrinks s' s'') : Shrinks s s'' :=
  ⟨h'.total.trans h.total, h'.length.trans h.length, fun b hb => h.covers b (h'.covers b hb)⟩

theorem shrinks_alloc {s s' : Space} {count start : Nat} (h : s.allocBlocksInternal count = some (start, s')) :
    Shrinks s s' := by
  unfold Space.allocBlocksInternal at h
  split at h
  · cases h
  rename_i cur list hfit
  obtain ⟨before, after, hlist, hle, hrest⟩ := firstFit_some hfit
  cases h
  refine ⟨rfl, length_setRun .., fun b hb => ?_⟩
  obtain ⟨e, he, hin⟩ := hb
  rw [hrest, mem_append] at he
  rw [hlist]
  rcases he with he | he
  · exact ⟨e, mem_append_left _ he, hin⟩
  split at he
  · exact ⟨e, mem_append_right _ (mem_cons_of_mem _ he), hin⟩
  rcases mem_cons.mp he with rfl | he
  · refine ⟨cur, by simp, ?_⟩
    unfold Extent.Has Extent.stop at *
    simp only at hin
    omega
  · exact ⟨e, mem_append_right _ (mem_cons_of_mem _ he), hin⟩

theorem shrinks_place {s s' : Space} {behind : Nat → Bool} {total target start : Nat}
    (h : s.defragPlace behind total target = some (start, s')) : Shrinks s s' := by
  unfold Space.defragPlace at h
  split at h
  · cases h
    exact ⟨rfl, length_setRun .., fun _ hb => hb⟩
  unfold Space.allocBlocks at h
  split at h
  · cases h
  · exact shrinks_alloc h

theorem copyBlocks_space (bs : List Nat) (dest : Nat) (p : MetaPool) : (p.copyBlocks bs dest).1.space = p.space := by
  induction bs generalizing dest p with
  | nil => rfl
  | cons b bs ih =>
    rw [copyBlocks]
    obtain ⟨io, hr | hr⟩ := p.readBlock_spec b
    · rw [hr]
    rw [hr]
    simp only []
    obtain ⟨io', hw | hw⟩ := writeBlock_spec { p with io := io } dest (p.medium b)
    · rw [hw]
    · rw [hw]
      exact ih ..

theorem appendRecord_space (p : MetaPool) (m : TagFSMetadata) : (p.appendRecord m).1.space = p.space := by
  unfold appendRecord
  simp only []
  split
  · rfl
  · split <;> rfl

/-- A record that is written takes blocks of the free list at most. -/
theorem shrinks_metaPoolWrite {p : MetaPool} {m : TagFSMetadata} (hok : (metaPoolWrite p m).2.isSome = true) :
    Shrinks p.space (metaPoolWrite p m).1.space := by
  have hnext : p.chainNext.2 = true → Shrinks p.space p.chainNext.1.space := by
    unfold chainNext
    split
    · exact nofun
    cases hal : p.space.allocBlocksInternal 1 with
    | none => exact nofun
    | some r =>
      obtain ⟨nb, space⟩ := r
      simp only []
      obtain ⟨io, hw | hw⟩ := writeBlock_spec { p with space := space } nb freshBlock.encode
      · rw [hw]
        exact nofun
      rw [hw]
      simp only []
      generalize Function.update p.medium nb freshBlock.encode = medium
      obtain ⟨io', hw' | hw'⟩ := writeBlock_spec { p with space := space, medium := medium, io := io } p.currentNum
        { p.current with nextBlock := nb }.encode
      · rw [hw']
        exact nofun
      · rw [hw']
        exact fun _ => shrinks_alloc hal
  unfold metaPoolWrite at hok ⊢
  split
  · exact .refl _
  split
  · rename_i h₁ h₂
    rw [if_neg h₁, if_pos h₂] at hok
    cases hc : p.chainNext with
    | mk p' ok =>
      rw [hc] at hok hnext
      cases ok with
      | false => cases hok
      | true =>
        simp only [appendRecord_space]
        exact hnext rfl
  · rw [appendRecord_space]
    exact .refl _

theorem shrinks_replaceRecord {v : Volume} {f : Nat} {e : FileTableEntry} {m : TagFSMetadata}
    (hok : (v.replaceRecord f e m).2 = true) : Shrinks v.pool.space (v.replaceRecord f e m).1.pool.space := by
  unfold Volume.replaceRecord at hok ⊢
  have hw := @shrinks_metaPoolWrite v.pool m
  cases hp : metaPoolWrite v.pool m with
  | mk pool place =>
    rw [hp] at hok hw
    cases place with
    | none => cases hok
    | some place =>
      simp only [(delete_keeps ..).1]
      exact hw rfl

theorem Space.Inv.freeBlocks_le {s : Space} (h : s.Inv) : s.freeBlocks ≤ s.totalBlocks := by
  rw [h.free]
  calc (clearBits s.bitmap s.totalBlocks).card ≤ (Finset.range s.totalBlocks).card := Finset.card_filter_le _ _
    _ = s.totalBlocks := Finset.card_range _

/-! ## The old blocks -/

section clear

variable {s : Space} {es : List FileExtent}

theorem clearExtents_freeList (s : Space) (es : List FileExtent) : (s.clearExtents es).freeList = s.freeList ∧
    (s.clearExtents es).totalBlocks = s.totalBlocks := by
  induction es generalizing s with
  | nil => exact ⟨rfl, rfl⟩
  | cons e es ih => exact ih _

theorem clearExtents_keeps {b : Nat} (hin : ∀ e ∈ es, e.startBlock.toNat + e.blockCount.toNat ≤ s.bitmap.length * 8)
    (hb : bitAt s.bitmap b = false) : bitAt (s.clearExtents es).bitmap b = false := by
  induction es generalizing s with
  | nil => exact hb
  | cons e es ih =>
    refine ih (fun e' he' => ?_) ?_
    · rw [length_clearRun]
      exact hin e' (mem_cons_of_mem _ he')
    · rw [bitAt_clearRun (hin e (mem_cons_self ..)), hb]
      rfl

theorem clearExtents_clears {b : Nat} (hin : ∀ e ∈ es, e.startBlock.toNat + e.blockCount.toNat ≤ s.bitmap.length * 8)
    (hb : b ∈ fileBlocks es) : bitAt (s.clearExtents es).bitmap b = false := by
  induction es generalizing s with
  | nil => simp [fileBlocks] at hb
  | cons e es ih =>
    rw [fileBlocks_cons, mem_append, mem_extent_blocks] at hb
    have hin' : ∀ e' ∈ es, e'.startBlock.toNat + e'.blockCount.toNat ≤
        (clearRun s.bitmap e.startBlock.toNat e.blockCount.toNat).length * 8 := fun e' he' => by
      rw [length_clearRun]
      exact hin e' (mem_cons_of_mem _ he')
    rcases hb with hb | hb
    · refine @clearExtents_keeps _ es b hin' ?_
      rw [bitAt_clearRun (hin e (mem_cons_self ..)), decide_eq_true hb]
      simp
    · exact ih hin' hb

theorem clearExtents_empty (hfree : s.freeBlocks < 2 ^ 64) (hes : ∀ e ∈ es, e.blockCount.toNat = 0) :
    s.clearExtents es = s := by
  induction es with
  | nil => rfl
  | cons e es ih =>
    have he := hes e (mem_cons_self ..)
    have hstep : ({ s with
        bitmap := clearRun s.bitmap e.startBlock.toNat e.blockCount.toNat
        freeBlocks := (s.freeBlocks + e.blockCount.toNat) % 2 ^ 64 } : Space) = s := by
      rw [he, Nat.add_zero, Nat.mod_eq_of_lt hfree]
      rfl
    rw [Space.clearExtents, foldl_cons, hstep]
    exact ih fun e' he' => hes e' (mem_cons_of_mem _ he')

end clear

/-! ## The call -/

section call

variable {v : Volume} {first : Nat} {live : LiveRecords} {owner : Nat → Option Nat} {f target : Nat} {m : TagFSMetadata}
  {behind : Nat → Bool} {memory : Bool} {now : UInt64}

/-- The record of the file at its new place. -/
def TagFSMetadata.movedTo (m : TagFSMetadata) (start total : Nat) (now : UInt64) : TagFSMetadata :=
  { m with extents := [⟨UInt32.ofNat start, UInt16.ofNat total⟩], modifiedTime := now }

/-- A call that returns 0 for a fragmented file has gone through all its steps. -/
theorem tagfsDefragFile_zero (h : v.Inv first live owner) (hm : v.recorded f = some m) (hfrag : 1 < m.extents.length)
    (hok : (v.tagfsDefragFile behind memory now f target).2 = 0) :
    ∃ e io start space pool v', fileTableLookup v.table f = some e ∧
    v.pool.space.defragPlace behind ((m.extents.map fun e => e.blockCount.toNat).sum % 2 ^ 32) target =
    some (start, space) ∧
    copyBlocks (fileBlocks m.extents) start { v.pool with io := io, space := space } = (pool, true) ∧
    ({ v with pool := pool } : Volume).replaceRecord f e
    (m.movedTo start ((m.extents.map fun e => e.blockCount.toNat).sum % 2 ^ 32) now) = (v', true) ∧
    (v.tagfsDefragFile behind memory now f target).1 =
    { v' with pool := { v'.pool with space := v'.pool.space.clearExtents m.extents } } := by
  rw [h.recorded_eq] at hm
  obtain ⟨e, hf, -⟩ := files_eq_some hm
  obtain ⟨⟨io, hio⟩, -, hmeta⟩ := readMeta_spec h hf
  unfold Volume.tagfsDefragFile at hok ⊢
  rw [hf] at hok ⊢
  simp only [] at hok ⊢
  cases hr : v.readMeta e with
  | mk o v₁ =>
    rw [hr] at hio hmeta hok
    obtain rfl : v₁ = { v with pool := { v.pool with io := io } } := hio
    cases o with
    | none => exact absurd hok (by simp)
    | some m' =>
      obtain rfl : m' = m := some.inj ((hmeta m' rfl).1.symm.trans hm)
      simp only [if_neg (not_le.mpr hfrag)] at hok ⊢
      cases hplace : v.pool.space.defragPlace behind
        ((m'.extents.map fun e => e.blockCount.toNat).sum % 2 ^ 32) target with
      | none =>
        rw [hplace] at hok
        exact absurd hok (by simp)
      | some r =>
        obtain ⟨start, space⟩ := r
        simp only [hplace] at hok ⊢
        cases hcopy : copyBlocks (fileBlocks m'.extents) start { v.pool with io := io, space := space } with
        | mk pool copied =>
          simp only [hcopy] at hok ⊢
          cases copied with
          | false => exact absurd hok (by simp)
          | true =>
            simp only [] at hok ⊢
            split at hok
            · exact absurd hok (by simp)
            rename_i hmemory
            rw [if_neg hmemory]
            cases hrep : ({ v with pool := pool } : Volume).replaceRecord f e
                (m'.movedTo start ((m'.extents.map fun e => e.blockCount.toNat).sum % 2 ^ 32) now) with
            | mk v' done =>
              unfold TagFSMetadata.movedTo at hrep
              simp only [hrep] at hok ⊢
              cases done with
              | false => exact absurd hok (by simp)
              | true => exact ⟨e, io, start, space, pool, v', rfl, rfl, hcopy, hrep, rfl⟩

/-- The bitmap has clear bits that the free list does not know of, when the file had a block. -/
theorem old_blocks_lost (h : v.Inv first live owner) (hm : v.recorded f = some m) (hfrag : 1 < m.extents.length)
    (hok : (v.tagfsDefragFile behind memory now f target).2 = 0) {b : Nat} (hb : b ∈ fileBlocks m.extents) :
    (v.tagfsDefragFile behind memory now f target).1.pool.space.IsFree b ∧
      ¬ Covers (v.tagfsDefragFile behind memory now f target).1.pool.space.freeList b := by
  obtain ⟨e, io, start, space, pool, v', hf, hplace, hcopy, hrep, hres⟩ := tagfsDefragFile_zero h hm hfrag hok
  rw [hres]
  have hplaced := shrinks_place hplace
  have hcopied : pool.space = space := by
    have hspace := copyBlocks_space (fileBlocks m.extents) start { v.pool with io := io, space := space }
    rw [hcopy] at hspace
    exact hspace
  have hwritten := @shrinks_replaceRecord { v with pool := pool } f e _ (by rw [hrep])
  rw [hrep] at hwritten
  have hshrinks : Shrinks v.pool.space v'.pool.space := hplaced.trans (hcopied ▸ hwritten)
  obtain ⟨hlist, htotal⟩ := clearExtents_freeList v'.pool.space m.extents
  have hfiles := hm
  rw [h.recorded_eq] at hfiles
  have hold := (h.held b f ((h.owns f m hfiles).owned b hb)).1
  have hin : ∀ e ∈ m.extents,
      e.startBlock.toNat + e.blockCount.toNat ≤ v'.pool.space.bitmap.length * 8 := fun e he => by
    have hle := h.extents_inside hfiles e he
    have hbound := h.pool.space.inside
    rw [hshrinks.length]
    omega
  refine ⟨⟨?_, clearExtents_clears hin hb⟩, fun hc => ?_⟩
  · rw [htotal, hshrinks.total]
    exact hold.1
  · rw [hlist] at hc
    have hfree := (h.pool.space.covers b).mp (hshrinks.covers b hc)
    exact (isFree_iff.mp hfree).2 hold

theorem fileBlocks_eq_nil {es : List FileExtent} : fileBlocks es = [] ↔ ∀ e ∈ es, e.blockCount.toNat = 0 := by
  induction es with
  | nil => simp [fileBlocks]
  | cons e es ih =>
    rw [fileBlocks_cons, append_eq_nil_iff, ih, forall_mem_cons]
    refine and_congr_left fun _ => ?_
    rw [← length_eq_zero_iff, Extent.length_blocks]
    rfl

/-- A file without blocks stays one. -/
theorem defragmented_of_no_blocks (h : v.Inv first live owner) (hm : v.recorded f = some m)
    (hfrag : 1 < m.extents.length) (hok : (v.tagfsDefragFile behind memory now f target).2 = 0)
    (hnone : fileBlocks m.extents = []) :
    ∃ m', Defragmented v (v.tagfsDefragFile behind memory now f target).1 f m m' := by
  obtain ⟨e, io, start, space, pool, v', hf, hplace, hcopy, hrep, hres⟩ := tagfsDefragFile_zero h hm hfrag hok
  have hcounts := fileBlocks_eq_nil.mp hnone
  have hsum : (m.extents.map fun e => e.blockCount.toNat).sum = 0 := sum_eq_zero fun n hn => by
    obtain ⟨e, he, rfl⟩ := List.mem_map.mp hn
    exact hcounts e he
  rw [hsum] at hplace hrep
  have hspace : space = v.pool.space := by
    have hle := h.pool.space.freeBlocks_le
    have hbound := h.pool.bound
    have hmod : (v.pool.space.freeBlocks + 2 ^ 64) % 2 ^ 64 = v.pool.space.freeBlocks := by omega
    unfold Space.defragPlace at hplace
    split at hplace
    · simp only [Nat.zero_mod, Nat.sub_zero, hmod, some.injEq, Prod.mk.injEq] at hplace
      exact hplace.2.symm
    · cases hplace
  rw [hnone, hspace] at hcopy
  obtain rfl : { v.pool with io := io } = pool := (Prod.mk.inj hcopy).1
  have hfiles := hm
  rw [h.recorded_eq] at hfiles
  have hinv := h.answers io
  obtain ⟨-, -, hmeta⟩ := readMeta_spec h hf
  obtain ⟨m₀, hlive, hfiles₀, hid, hne⟩ := h.record hf
  obtain rfl : m₀ = m := some.inj (hfiles₀.symm.trans hfiles)
  have hmoved : fileBlocks (m₀.movedTo start (0 % 2 ^ 32) now).extents = [] := fileBlocks_eq_nil.mpr fun e he => by
    rw [mem_singleton.mp he]
    rfl
  have howns : Owns owner f (m₀.movedTo start (0 % 2 ^ 32) now).extents := by
    constructor
    · rw [hmoved]
      exact nodup_nil
    · rw [hmoved]
      exact fun b hb => (nomatch hb)
  obtain ⟨-, hdone⟩ :=
    @replaceRecord_spec _ first live owner f e (m₀.movedTo start (0 % 2 ^ 32) now) hinv hf hid hne howns
  have hrep' : (v.answers io).replaceRecord f e (m₀.movedTo start (0 % 2 ^ 32) now) = (v', true) := hrep
  rw [hrep'] at hdone
  obtain ⟨live', hinv', hfiles'⟩ := hdone rfl
  have hsame : v'.pool.space.clearExtents m₀.extents = v'.pool.space := by
    have hbound := hinv'.pool.space.freeBlocks_le.trans_lt hinv'.pool.bound
    exact clearExtents_empty (hbound.trans (by decide)) hcounts
  rw [hres, hsame]
  refine ⟨m₀.movedTo start (0 % 2 ^ 32) now, ?_, rfl, ?_, by rw [hmoved, hnone], hinv'.pool.space, ?_⟩
  · show v'.recorded f = _
    rw [hinv'.recorded_eq]
    exact (congrFun hfiles' f).trans (Function.update_self ..)
  · unfold fileBytes
    refine map_congr_left fun pos _ => ?_
    rw [show blocksOf ((m₀.movedTo start (0 % 2 ^ 32) now).extents.map FileExtent.extent) = [] from hmoved,
      show blocksOf (m₀.extents.map FileExtent.extent) = [] from hnone]
    rfl
  · rw [hmoved]
    exact fun _ _ _ _ _ _ b hb => (nomatch hb)

/-- **Every state, every fragmented file and every target**: a call that returns 0 keeps its promises if and only if the
file has no block. -/
theorem defrag_keeps_space_iff (h : v.Inv first live owner) (hm : v.recorded f = some m) (hfrag : 1 < m.extents.length)
    (hok : (v.tagfsDefragFile behind memory now f target).2 = 0) :
    (∃ m', Defragmented v (v.tagfsDefragFile behind memory now f target).1 f m m') ↔ fileBlocks m.extents = [] := by
  constructor
  · rintro ⟨m', hd⟩
    by_contra hne
    obtain ⟨b, hb⟩ := exists_mem_of_ne_nil _ hne
    obtain ⟨hfree, hlost⟩ := old_blocks_lost h hm hfrag hok hb
    exact hlost ((hd.space.covers b).mpr hfree)
  · exact defragmented_of_no_blocks h hm hfrag hok

end call

/-! ## A small file -/

/-- File 1 in two pieces, moved to block 5. -/
theorem defrag_keeps_space_small :
    let v := oneFileVolume noDedup [⟨3, 1⟩, ⟨4, 1⟩] 6000
    (∃ m', Defragmented v (v.tagfsDefragFile (fun _ => false) true 0 1 5).1 1 (smallFile [⟨3, 1⟩, ⟨4, 1⟩] 6000) m') ↔
      fileBlocks [⟨3, 1⟩, ⟨4, 1⟩] = [] := by
  obtain ⟨live, owner, h, hm, -⟩ := oneFileVolume_inv noDedup [⟨3, 1⟩, ⟨4, 1⟩] 6000 (by decide) (by decide)
    (fun b hb => (nomatch hb)) (by decide +kernel)
  exact defrag_keeps_space_iff h hm (by decide) (by decide +kernel)

/-- File 1 is moved to the blocks 5 and 6, and the next allocation gets block 5. -/
theorem defrag_gives_block_twice : ∃ v first live owner m, Volume.Inv v first live owner ∧ v.recorded 1 = some m ∧
    1 < m.extents.length ∧ (v.tagfsDefragFile (fun _ => false) true 0 1 5).2 = 0 ∧
    ¬ ∃ m', Defragmented v (v.tagfsDefragFile (fun _ => false) true 0 1 5).1 1 m m' := by
  obtain ⟨live, owner, h, hm, -⟩ := oneFileVolume_inv noDedup [⟨3, 1⟩, ⟨4, 1⟩] 6000 (by decide) (by decide)
    (fun b hb => (nomatch hb)) (by decide +kernel)
  refine ⟨_, 2, live, owner, _, h, hm, by decide, by decide +kernel, fun ⟨m', hd⟩ => ?_⟩
  have hmoved :
      (((oneFileVolume noDedup [⟨3, 1⟩, ⟨4, 1⟩] 6000).tagfsDefragFile (fun _ => false) true 0 1 5).1.recorded 1).map
      (·.extents) = some [⟨5, 2⟩] := by decide +kernel
  have halloc : (((oneFileVolume noDedup [⟨3, 1⟩, ⟨4, 1⟩] 6000).tagfsDefragFile (fun _ =>
      false) true 0 1 5).1.pool.space.allocBlocks 1).map Prod.fst = some 5 := by decide +kernel
  rw [hd.recorded, Option.map_some, some.injEq] at hmoved
  obtain ⟨⟨start, s'⟩, hal, hstart⟩ := map_eq_some_iff.mp halloc
  obtain rfl : start = 5 := hstart
  refine hd.later _ 1 5 s' .refl hal 5 ?_ (by omega)
  rw [hmoved]
  decide

end BoxOS.TagFS
