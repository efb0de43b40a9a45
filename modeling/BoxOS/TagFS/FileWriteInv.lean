import BoxOS.TagFS.FileWrite
import BoxOS.TagFS.VolumeInv

/-!
# What a write through a handle does

One round of the loop of `tagfs_write` finds the block of the next byte among those of the handle (`target_found`), or
takes new blocks for it (`target_new`), and then writes that block (`writeChunk_spec`).
-/

namespace BoxOS.TagFS

open Lib List Option WriteState

/-! ## The block of the next byte -/

/-- The blocks of the handle, in order. -/
def WriteState.blocks (st : WriteState) : List Nat := fileBlocks st.handle.extents

def Target.blockIndex (t : Target) (st : WriteState) : Nat := (st.filePos - t.extentStart) / tagfsBlockSize % 2 ^ 32

/-- The target is in block `b`. -/
structure Target.Points (t : Target) (st : WriteState) (b : Nat) : Prop where
  block : ((st.handle.extents.getD t.found ⟨0, 0⟩).startBlock + UInt32.ofNat (t.blockIndex st)).toNat = b
  offset : (st.filePos - t.extentStart) % tagfsBlockSize = st.filePos % tagfsBlockSize

section target

variable {st : WriteState} {b : Nat}

theorem toNat_add_ofNat {a : UInt32} {k : Nat} (h : a.toNat + k < 2 ^ 32) :
    (a + UInt32.ofNat k).toNat = a.toNat + k := by
  rw [UInt32.toNat_add, UInt32.toNat_ofNat', Nat.add_mod_mod, Nat.mod_eq_of_lt h]

/-- The block of the next byte is one of the handle's. -/
theorem target_found (hb : st.blocks[st.filePos / tagfsBlockSize]? = some b) (hlt : b < 2 ^ 32) :
    ∃ t, st.target = (some t, st) ∧ t.newlyAllocated = false ∧ t.Points st b := by
  have hin : st.filePos / tagfsBlockSize < (blocksOf (st.handle.extents.map FileExtent.extent)).length :=
    (List.getElem?_eq_some_iff.mp hb).1
  obtain ⟨pre, e, post, hes, hloc, hmod, hk, hq⟩ := locate_some tagfsBlockSize_pos hin
  have hget : (st.handle.extents.map FileExtent.extent)[pre.length]? = some e := by
    rw [hes, getElem?_append_right le_rfl, Nat.sub_self, getElem?_cons_zero]
  rw [getElem?_map] at hget
  obtain ⟨x, hx, rfl⟩ := map_eq_some_iff.mp hget
  refine ⟨⟨pre.length, _, false⟩, ?_, rfl, ?_, hmod⟩
  · rw [target, hloc]
  · have hb' : (x.extent.start + (st.filePos - (blocksOf pre).length * tagfsBlockSize) / tagfsBlockSize) = b := by
      rw [blocks, fileBlocks, hes, ← hq, getElem?_blocksOf hk] at hb
      exact some.inj hb
    have hindex : Target.blockIndex ⟨pre.length, (blocksOf pre).length * tagfsBlockSize, false⟩ st =
        (st.filePos - (blocksOf pre).length * tagfsBlockSize) / tagfsBlockSize :=
      Nat.mod_eq_of_lt (hk.trans (x.blockCount.toNat_lt.trans (by decide)))
    have hb'' : x.startBlock.toNat + (st.filePos - (blocksOf pre).length * tagfsBlockSize) / tagfsBlockSize = b := hb'
    rw [hindex, getD_eq_getElem?_getD, hx, getD_some, toNat_add_ofNat (by rw [hb'']; exact hlt), hb'']

/-- The blocks between those of the handle and the next byte. -/
def WriteState.gap (st : WriteState) : Nat := (st.filePos / tagfsBlockSize - st.blocks.length) % 2 ^ 32

/-- The handle with a new extent. -/
def WriteState.grown (st : WriteState) (start count : Nat) (space : Space) : WriteState :=
  { st with
    vol := { st.vol with pool := { st.vol.pool with space := space } }
    handle := { st.handle with extents := st.handle.extents ++ [⟨UInt32.ofNat start, UInt16.ofNat count⟩] } }

/-- The run given back when the handle cannot have another extent. -/
def WriteState.ungrown (st : WriteState) (start count : Nat) (space : Space) : WriteState :=
  let r := space.freeBlocksInternal st.vol.pool.dedup st.vol.pool.now start count
  { st with vol := { st.vol with pool := { st.vol.pool with space := r.1, dedup := r.2 } } }

theorem blocksNeeded_eq (h : st.gap < 0xFFFF) :
    blocksNeeded st.filePos (st.blocks.length * tagfsBlockSize) = st.gap + 1 := by
  have hdiv : (st.filePos - st.blocks.length * tagfsBlockSize) / tagfsBlockSize =
      st.filePos / tagfsBlockSize - st.blocks.length := by
    rw [Nat.mul_comm, Nat.sub_mul_div]
  unfold blocksNeeded
  simp only [hdiv]
  rw [gap] at h ⊢
  rw [Nat.mod_eq_of_lt (a := _ + 1) (by omega), if_neg (by omega)]

/-- The next byte is behind the blocks of the handle, which gets an extent that ends with the block of the byte. -/
theorem target_new (hs : st.vol.pool.space.Inv) (hbound : st.vol.pool.space.totalBlocks < 2 ^ 32)
    (hge : st.blocks.length ≤ st.filePos / tagfsBlockSize) (hgap : st.gap < 0xFFFF) :
    (st.vol.pool.space.allocBlocksInternal (st.gap + 1) = none ∧ st.target = (none, st)) ∨ ∃ start space,
    st.vol.pool.space.allocBlocksInternal (st.gap + 1) = some (start, space) ∧
    (((st.handle.extents.length + 1) % 2 ^ 16 = 0 ∧ st.target = (none, st.ungrown start (st.gap + 1) space)) ∨
    (st.handle.extents.length + 1) % 2 ^ 16 ≠ 0 ∧ ∃ t, st.target = (some t, st.grown start (st.gap + 1) space) ∧
    t.newlyAllocated = true ∧ t.blockIndex st = st.gap ∧
    t.Points (st.grown start (st.gap + 1) space) (start + st.gap)) := by
  have hloc := @locate_none tagfsBlockSize (st.handle.extents.map FileExtent.extent) st.filePos tagfsBlockSize_pos hge
  have hneed := blocksNeeded_eq hgap
  rw [target, hloc]
  simp only []
  rw [show (blocksOf (st.handle.extents.map FileExtent.extent)).length = st.blocks.length from rfl, hneed,
    Space.allocBlocks, if_neg (Nat.succ_ne_zero _)]
  cases hal : st.vol.pool.space.allocBlocksInternal (st.gap + 1) with
  | none => exact .inl ⟨rfl, rfl⟩
  | some r =>
    obtain ⟨start, space⟩ := r
    refine .inr ⟨start, space, rfl, ?_⟩
    have hlt : start + st.gap < 2 ^ 32 := by
      have := (alloc_spec hs hal).1
      omega
    simp only []
    split
    · rename_i hfull
      exact .inl ⟨hfull, rfl⟩
    rename_i hfull
    refine .inr ⟨hfull, ⟨st.handle.extents.length, st.blocks.length * tagfsBlockSize, true⟩, rfl, rfl, ?_, ?_, ?_⟩
    · rw [Target.blockIndex, Nat.mul_comm, Nat.sub_mul_div, gap]
    · have hindex : Target.blockIndex ⟨st.handle.extents.length, st.blocks.length * tagfsBlockSize, true⟩
          (st.grown start (st.gap + 1) space) = st.gap := by
        rw [Target.blockIndex, Nat.mul_comm, Nat.sub_mul_div, gap]
        rfl
      have hstart : (UInt32.ofNat start).toNat = start :=
        UInt32.toNat_ofNat_of_lt' (Nat.lt_of_le_of_lt (Nat.le_add_right _ _) hlt)
      rw [hindex, grown]
      simp only [getD_eq_getElem?_getD, getElem?_append_right le_rfl, Nat.sub_self,
        getElem?_cons_zero, getD_some]
      rw [toNat_add_ofNat (by rw [hstart]; exact hlt), hstart]
    · have hle : st.blocks.length * tagfsBlockSize ≤ st.filePos := (Nat.le_div_iff_mul_le tagfsBlockSize_pos).mp hge
      rw [Nat.mul_comm] at hle ⊢
      exact Nat.sub_mul_mod hle

end target

/-! ## Writing the block -/

section chunk

variable {hash : Block → DedupHash} {src : List UInt8} {st : WriteState} {t : Target} {b : Nat}

/-- The number of bytes that go to the block of the next byte. -/
def WriteState.chunk (st : WriteState) (src : List UInt8) : Nat :=
  min (tagfsBlockSize - st.filePos % tagfsBlockSize) (src.length - st.written)

/-- `block_buf`, over what the block held. -/
def WriteState.buf (st : WriteState) (src : List UInt8) (old : Block) : Block :=
  fillBlock old (st.filePos % tagfsBlockSize) ((src.drop st.written).take (st.chunk src))

/-- The block is not written whole. -/
def WriteState.Partial (st : WriteState) (src : List UInt8) : Prop :=
  st.filePos % tagfsBlockSize ≠ 0 ∨ src.length - st.written < tagfsBlockSize

instance (st : WriteState) (src : List UInt8) : Decidable (st.Partial src) := inferInstanceAs (Decidable (_ ∨ _))

/-- The deduplication index before the block is written. -/
def WriteState.indexed (hash : Block → DedupHash) (st : WriteState) (src : List UInt8) (t : Target) (b : Nat)
    (buf : Block) : DedupState :=
  if t.newlyAllocated = true ∧ t.blockIndex st = 0 ∧ st.filePos % tagfsBlockSize = 0 ∧
    st.chunk src = tagfsBlockSize then
    st.vol.pool.dedup.register b (hash buf) st.handle.fileId st.vol.pool.now
  else st.vol.pool.dedup

/-- After the write of the block. -/
def WriteState.afterBlock (st : WriteState) (src : List UInt8) : Bool × MetaPool → WriteState × Bool
  | (false, pool) => ({ st with vol := { st.vol with pool := pool }, refused := true }, false)
  | (true, pool) => ({ st with vol := { st.vol with pool := pool }, written := st.written + st.chunk src }, true)

/-- The block has been written. -/
def WriteState.wrote (st : WriteState) (src : List UInt8) (b : Nat) (buf : Block) (dedup : DedupState)
    (io : List Bool) : WriteState :=
  { st with
    vol := { st.vol with
      pool := { st.vol.pool with medium := Function.update st.vol.pool.medium b buf, dedup := dedup, io := io } }
    written := st.written + st.chunk src }

/-- The medium would not take the block. -/
def WriteState.denied (st : WriteState) (dedup : DedupState) (io : List Bool) : WriteState :=
  { st with vol := { st.vol with pool := { st.vol.pool with dedup := dedup, io := io } }, refused := true }

theorem readOld_spec (p : MetaPool) (b : Nat) (need : Prop) [Decidable need] :
    ∃ o io, (if need then p.readBlock b else (none, p)) = (o, { p with io := io }) ∧
    (o.getD [] = [] ∨ o.getD [] = p.medium b) ∧ (need → (p.readBlock b).1.isSome = true → o.getD [] = p.medium b) := by
  by_cases hneed : need
  · rw [if_pos hneed]
    obtain ⟨io, hr | hr⟩ := p.readBlock_spec b
    · exact ⟨none, io, hr, .inl rfl, fun _ hsome => by rw [hr] at hsome; exact nomatch hsome⟩
    · exact ⟨_, io, hr, .inr rfl, fun _ _ => rfl⟩
  · rw [if_neg hneed]
    exact ⟨none, p.io, rfl, .inl rfl, fun hn => absurd hn hneed⟩

/-- The read before the write of the block is answered, if there is one. -/
def WriteState.ReadBack (st : WriteState) (src : List UInt8) (b : Nat) : Prop :=
  st.Partial src → (st.vol.pool.readBlock b).1.isSome = true

instance (st : WriteState) (src : List UInt8) (b : Nat) : Decidable (st.ReadBack src b) :=
  inferInstanceAs (Decidable (_ → _))

/-- Without a snapshot the block of the target is written in place. -/
theorem writeChunk_spec (hp : t.Points st b) (hcow : st.cow.active st.handle.fileId = false) :
    ∃ old io, (old = [] ∨ old = st.vol.pool.medium b) ∧
      (st.ReadBack src b → st.Partial src → old = st.vol.pool.medium b) ∧
      (st.writeChunk hash src t = (st.denied (st.indexed hash src t b (st.buf src old)) io, false) ∨
        st.writeChunk hash src t =
          (st.wrote src b (st.buf src old) (st.indexed hash src t b (st.buf src old)) io, true)) := by
  obtain ⟨o, io₁, hread, hold, hback⟩ := readOld_spec st.vol.pool b (st.Partial src)
  refine ⟨o.getD [], ?_⟩
  have hno : ∀ d : Volume, redirect { st with vol := d } t (t.blockIndex st) b = (b, { st with vol := d }) :=
    fun d => if_neg fun hc => by
      rw [hcow] at hc
      cases hc.2.2
  generalize hdedup : st.indexed hash src t b (st.buf src (o.getD [])) = dedup
  have hchunk : st.writeChunk hash src t =
      st.afterBlock src
      (({ st.vol.pool with io := io₁, dedup := dedup } : MetaPool).writeBlock b (st.buf src (o.getD []))) := by
    unfold writeChunk
    simp only [hp.offset]
    rw [show ((st.handle.extents.getD t.found ⟨0, 0⟩).startBlock +
      UInt32.ofNat ((st.filePos - t.extentStart) / tagfsBlockSize % 2 ^ 32)).toNat = b from hp.block]
    rw [show (if st.filePos % tagfsBlockSize ≠ 0 ∨ src.length - st.written < tagfsBlockSize then st.vol.pool.readBlock b
      else (none, st.vol.pool)) = _ from hread]
    rw [show (st.filePos - t.extentStart) / tagfsBlockSize % 2 ^ 32 = t.blockIndex st from rfl]
    rw [hno]
    rw [← hdedup]
    rfl
  rw [hchunk]
  obtain ⟨io, hw | hw⟩ :=
    ({ st.vol.pool with io := io₁, dedup := dedup } : MetaPool).writeBlock_spec b (st.buf src (o.getD []))
  · exact ⟨io, hold, fun hr hn => hback hn (hr hn), .inl (by rw [hw]; rfl)⟩
  · exact ⟨io, hold, fun hr hn => hback hn (hr hn), .inr (by rw [hw]; rfl)⟩

end chunk

end BoxOS.TagFS
