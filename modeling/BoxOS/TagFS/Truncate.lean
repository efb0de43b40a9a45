import BoxOS.TagFS.FileWrite
import BoxOS.TagFS.SpaceChange
import BoxOS.TagFS.TagCoherenceRun

/-!
# Truncating a file

`tagfs_truncate_locked` with its two loops: the first finds what is kept of the extents, the second gives back the rest.
Both agree with `cutExtents` (`keepLoop_cut`), which cuts the list of blocks in two (`cutExtents_blocks`).
`truncate_exact`: the record becomes that of the shorter file, the other blocks become free, and the bytes that are left
read as before; a truncation that fails changes nothing, and neither does one to the size the file has.
-/

open Function (update update_of_ne update_self)

namespace BoxOS.TagFS

open Lib List FileExtent

def errInvalidArgument : Int := 3

def errNoMemory : Int := 100

def errIo : Int := 200

def errFileNotFound : Int := 300

/-- What the first loop finds: the number of extents kept, and the one that is trimmed, or `0xFFFF`. -/
structure Keep where
  kept : UInt16
  trimAt : UInt16
  trimTo : UInt32
deriving DecidableEq

/-- The first loop of `tagfs_truncate_locked`. -/
def keepLoop (keepBlocks : UInt32) : List FileExtent → UInt16 → UInt32 → UInt16 → Keep
  | [], _, _, kept => ⟨kept, 0xFFFF, 0⟩
  | e :: es, i, acc, kept =>
    let cnt := e.blockCount.toUInt32
    if acc ≥ keepBlocks then ⟨kept, 0xFFFF, 0⟩
    else if acc + cnt > keepBlocks then ⟨i + 1, i, keepBlocks - acc⟩
    else keepLoop keepBlocks es (i + 1) (acc + cnt) (i + 1)

/-- `new_ex`. -/
def Keep.newExtents (k : Keep) (old : List FileExtent) : List FileExtent :=
  let new := old.take k.kept.toNat
  if k.trimAt ≠ 0xFFFF then new.modify k.trimAt.toNat fun e => { e with blockCount := k.trimTo.toUInt16 } else new

/-- The second loop of `tagfs_truncate_locked`, from extent `i` on: the runs it gives back. -/
def dropLoop (k : Keep) : List FileExtent → UInt16 → List Extent
  | [], _ => []
  | e :: es, i =>
    if i < k.kept ∧ i ≠ k.trimAt then dropLoop k es (i + 1)
    else
      let dropFrom := if i < k.kept then k.trimTo else 0
      let cnt := e.blockCount.toUInt32
      if dropFrom ≥ cnt then dropLoop k es (i + 1)
      else ⟨(e.startBlock + dropFrom).toNat, (cnt - dropFrom).toNat⟩ :: dropLoop k es (i + 1)

/-- `tagfs_free_blocks` for every run. -/
def MetaPool.freeRuns (p : MetaPool) (runs : List Extent) : MetaPool :=
  runs.foldl (fun p e =>
    let r := p.space.freeBlocksInternal p.dedup p.now e.start e.count
    { p with space := r.1, dedup := r.2 }) p

/-- `tagfs_truncate_locked` and what it returns; `memory` is the answer of `kmalloc`. -/
def Volume.tagfsTruncateLocked (v : Volume) (memory : Bool) (f : Nat) (newSize : UInt64) : Volume × Int :=
  match fileTableLookup v.table f with
  | none => (v, -errFileNotFound)
  | some e =>
    match v.readMeta e with
    | (none, v) => (v, -errIo)
    | (some m, v) =>
      if newSize > m.size then (v, -errInvalidArgument)
      else if newSize = m.size then (v, 0)
      else
        let keepBlocks := ((newSize + 4096 - 1) / 4096).toUInt32
        let k := keepLoop keepBlocks m.extents 0 0 0
        if k.kept > 0 ∧ memory = false then (v, -errNoMemory)
        else
          match v.replaceRecord f e { m with size := newSize, extents := k.newExtents m.extents } with
          | (v, false) => (v, -errIo)
          | (v, true) => ({ v with pool := v.pool.freeRuns (dropLoop k m.extents 0) }, 0)

/-! ## The two loops -/

theorem freeRuns_extents (p : MetaPool) (es : List FileExtent) : p.freeRuns (es.map extent) = p.freeExtents es := by
  rw [MetaPool.freeRuns, foldl_map]
  rfl

theorem length_fileBlocks_cons (e : FileExtent) (es : List FileExtent) :
    (fileBlocks (e :: es)).length = e.blockCount.toNat + (fileBlocks es).length := by
  rw [fileBlocks_cons, length_append, Extent.length_blocks]
  rfl

theorem Extent.blocks_split (start : Nat) {k count : Nat} (hk : k ≤ count) :
    (⟨start, count⟩ : Extent).blocks = (⟨start, k⟩ : Extent).blocks ++ (⟨start + k, count - k⟩ : Extent).blocks := by
  obtain ⟨n, rfl⟩ := Nat.exists_eq_add_of_le hk
  simp only [Extent.blocks, range_add, map_append, map_map, Nat.add_sub_cancel_left]
  congr 1
  refine map_congr_left fun i _ => ?_
  simp only [Function.comp_apply, Nat.add_assoc]

variable (es : List FileExtent)

/-- What is kept are the first blocks, and what is dropped the others. -/
theorem cutExtents_blocks (keep : Nat) (hin : ∀ e ∈ es, e.startBlock.toNat + e.blockCount.toNat < 2 ^ 32) :
    fileBlocks (cutExtents es keep).1 = (fileBlocks es).take keep ∧
    fileBlocks (cutExtents es keep).2 = (fileBlocks es).drop keep := by
  induction es generalizing keep with
  | nil => simp [cutExtents, fileBlocks]
  | cons e es ih =>
    have he := hin e mem_cons_self
    have hes := fun e' he' => hin e' (mem_cons_of_mem _ he')
    rw [cutExtents]
    split
    · rename_i hzero
      subst hzero
      exact ⟨rfl, rfl⟩
    split
    · rename_i hkeep
      have h16 := e.blockCount.toNat_lt
      have hk : (UInt16.ofNat keep).toNat = keep := UInt16.toNat_ofNat_of_lt' (hkeep.trans h16)
      have hn : (UInt16.ofNat (e.blockCount.toNat - keep)).toNat = e.blockCount.toNat - keep :=
        UInt16.toNat_ofNat_of_lt' (Nat.lt_of_le_of_lt (Nat.sub_le _ _) h16)
      have hstart : (e.startBlock + UInt32.ofNat keep).toNat = e.startBlock.toNat + keep := by
        rw [UInt32.toNat_add, UInt32.toNat_ofNat', Nat.add_mod_mod, Nat.mod_eq_of_lt (by omega)]
      have hsplit := Extent.blocks_split e.startBlock.toNat (Nat.le_of_lt hkeep)
      have hfirst : e.extent.blocks = _ := hsplit
      rw [fileBlocks_cons, fileBlocks_cons, fileBlocks_cons, hfirst, extent, extent]
      simp only [hk, hn, hstart, append_assoc]
      constructor
      · rw [take_left' (by simp)]
        simp [fileBlocks]
      · rw [drop_left' (by simp)]
    · rename_i hkeep
      obtain ⟨h₁, h₂⟩ := ih (keep - e.blockCount.toNat) hes
      have hlen : e.extent.blocks.length = e.blockCount.toNat := Extent.length_blocks _
      have htake : e.extent.blocks.take keep = e.extent.blocks := take_of_length_le (by omega)
      have hdrop : e.extent.blocks.drop keep = [] := drop_eq_nil_of_le (by omega)
      rw [fileBlocks_cons, fileBlocks_cons, h₁, h₂, take_append, drop_append, hlen, htake, hdrop]
      exact ⟨rfl, rfl⟩

theorem cutExtents_inside {total : Nat} (es : List FileExtent) (keep : Nat) (htotal : total < 2 ^ 32)
    (hin : ∀ e ∈ es, e.startBlock.toNat + e.blockCount.toNat ≤ total) :
    ∀ e ∈ (cutExtents es keep).2, e.startBlock.toNat + e.blockCount.toNat ≤ total := by
  induction es generalizing keep with
  | nil => exact fun e he => (nomatch he)
  | cons x es ih =>
    have hx := hin x mem_cons_self
    rw [cutExtents]
    split
    · exact hin
    split
    · rename_i hkeep
      intro e he
      rcases mem_cons.mp he with rfl | he
      · have hstart : (x.startBlock + UInt32.ofNat keep).toNat = x.startBlock.toNat + keep := by
          rw [UInt32.toNat_add, UInt32.toNat_ofNat', Nat.add_mod_mod, Nat.mod_eq_of_lt (by omega)]
        have hn : (UInt16.ofNat (x.blockCount.toNat - keep)).toNat = x.blockCount.toNat - keep :=
          UInt16.toNat_ofNat_of_lt' (Nat.lt_of_le_of_lt (Nat.sub_le _ _) x.blockCount.toNat_lt)
        simp only [hstart, hn]
        omega
      · exact hin e (mem_cons_of_mem _ he)
    · exact ih _ fun e he => hin e (mem_cons_of_mem _ he)

/-- `kept` is the beginning of `es`, with its last extent trimmed. -/
def TrimmedPrefix (kept es : List FileExtent) : Prop :=
  ∃ whole rest, es = whole ++ rest ∧ (kept = whole ∨ ∃ e rest' n, rest = e :: rest' ∧ 0 < n ∧
    n < e.blockCount.toNat ∧ kept = whole ++ [{ e with blockCount := UInt16.ofNat n }])

theorem cutExtents_initial (keep : Nat) : TrimmedPrefix (cutExtents es keep).1 es := by
  induction es generalizing keep with
  | nil => exact ⟨[], [], rfl, .inl rfl⟩
  | cons e es ih =>
    rw [cutExtents]
    split
    · exact ⟨[], e :: es, rfl, .inl rfl⟩
    split
    · rename_i hzero hkeep
      exact ⟨[], e :: es, rfl, .inr ⟨e, es, keep, rfl, Nat.pos_of_ne_zero hzero, hkeep, rfl⟩⟩
    obtain ⟨whole, rest, hes, hcut⟩ := ih (keep - e.blockCount.toNat)
    refine ⟨e :: whole, rest, by rw [hes]; rfl, ?_⟩
    rcases hcut with hcut | ⟨e', rest', n, hrest, hpos, hlt, hcut⟩
    · exact .inl (congrArg (e :: ·) hcut)
    · exact .inr ⟨e', rest', n, hrest, hpos, hlt, congrArg (e :: ·) hcut⟩

/-! ### What the loops find -/

section loops

variable {keepBlocks : UInt32}

theorem dropLoop_behind (k : Keep) (es : List FileExtent) (i : UInt16) (hi : k.kept ≤ i)
    (hlen : i.toNat + es.length ≤ 0xFFFF) (hpos : ∀ e ∈ es, 0 < e.blockCount.toNat) :
    dropLoop k es i = es.map extent := by
  induction es generalizing i with
  | nil => rfl
  | cons e es ih =>
    rw [length_cons] at hlen
    have hnext : (i + 1).toNat = i.toNat + 1 := by
      rw [UInt16.toNat_add]
      exact Nat.mod_eq_of_lt (by simp; omega)
    have hno : ¬ i < k.kept := UInt16.not_lt.mpr hi
    have hcnt : ¬ (0 : UInt32) ≥ e.blockCount.toUInt32 := by
      have := hpos e mem_cons_self
      simp only [ge_iff_le, UInt32.le_iff_toNat_le, UInt16.toNat_toUInt32, UInt32.toNat_zero]
      omega
    rw [dropLoop, if_neg (fun h => hno h.1)]
    simp only [if_neg hno, if_neg hcnt, UInt32.add_zero, UInt32.sub_zero, UInt16.toNat_toUInt32, map_cons]
    rw [ih (i + 1) ?_ (by omega) fun e' he' => hpos e' (mem_cons_of_mem _ he')]
    · rfl
    · rw [UInt16.le_iff_toNat_le] at hi ⊢
      omega

/-- The first loop from extent `i` on, with the extents `done` kept whole: both loops agree with `cutExtents`. -/
theorem keepLoop_cut (es : List FileExtent) :
    ∀ (done : List FileExtent) (i : UInt16) (acc : UInt32), i.toNat = done.length → done.length + es.length ≤ 0xFFFF →
      acc.toNat ≤ keepBlocks.toNat → acc.toNat + (fileBlocks es).length < 2 ^ 32 → (∀ e ∈ es, 0 < e.blockCount.toNat) →
      (keepLoop keepBlocks es i acc i).newExtents (done ++ es) =
        done ++ (cutExtents es (keepBlocks.toNat - acc.toNat)).1 ∧
      dropLoop (keepLoop keepBlocks es i acc i) es i = (cutExtents es (keepBlocks.toNat - acc.toNat)).2.map extent ∧
      i ≤ (keepLoop keepBlocks es i acc i).kept ∧
      ((keepLoop keepBlocks es i acc i).trimAt = 0xFFFF ∨ i ≤ (keepLoop keepBlocks es i acc i).trimAt) := by
  induction es with
  | nil =>
    intro done i acc hi _ _ _ _
    refine ⟨?_, rfl, UInt16.le_refl i, .inl rfl⟩
    rw [keepLoop, Keep.newExtents, if_neg (by simp), hi]
    simp [cutExtents]
  | cons e es ih =>
    intro done i acc hi hlen hacc hsum hpos
    rw [length_cons] at hlen
    rw [length_fileBlocks_cons] at hsum
    have hnext : (i + 1).toNat = i.toNat + 1 := by
      rw [UInt16.toNat_add]
      exact Nat.mod_eq_of_lt (by simp; omega)
    have hadd : (acc + e.blockCount.toUInt32).toNat = acc.toNat + e.blockCount.toNat := by
      rw [UInt32.toNat_add, UInt16.toNat_toUInt32]
      exact Nat.mod_eq_of_lt (by omega)
    rw [keepLoop]
    by_cases hdone : acc ≥ keepBlocks
    · -- nothing of the rest is kept
      have hzero : keepBlocks.toNat - acc.toNat = 0 := by
        have := UInt32.le_iff_toNat_le.mp hdone
        omega
      rw [if_pos hdone, hzero, cutExtents, if_pos rfl]
      refine ⟨?_, ?_, UInt16.le_refl i, .inl rfl⟩
      · rw [Keep.newExtents, if_neg (by simp), hi, take_left' rfl, append_nil]
      · exact dropLoop_behind _ _ _ (UInt16.le_refl i) (by rw [length_cons]; omega) hpos
    rw [if_neg hdone]
    have hlt : acc.toNat < keepBlocks.toNat := by
      have := UInt32.not_le.mp hdone
      rwa [UInt32.lt_iff_toNat_lt] at this
    have hne : keepBlocks.toNat - acc.toNat ≠ 0 := by omega
    by_cases htrim : acc + e.blockCount.toUInt32 > keepBlocks
    · -- the extent is trimmed
      have hcut : e.blockCount.toNat > keepBlocks.toNat - acc.toNat := by
        have : keepBlocks.toNat < (acc + e.blockCount.toUInt32).toNat := UInt32.lt_iff_toNat_lt.mp htrim
        omega
      have hto : (keepBlocks - acc).toNat = keepBlocks.toNat - acc.toNat :=
        UInt32.toNat_sub_of_le _ _ (UInt32.le_iff_toNat_le.mpr hacc)
      have hto16 : (keepBlocks - acc).toUInt16 = UInt16.ofNat (keepBlocks.toNat - acc.toNat) := by
        rw [← hto]
        rfl
      have hone : i < i + 1 := by
        rw [UInt16.lt_iff_toNat_lt]
        omega
      have h16 : i.toNat ≠ 0xFFFF := by omega
      rw [if_pos htrim, cutExtents, if_neg hne, if_pos hcut]
      refine ⟨?_, ?_, UInt16.le_of_lt hone, .inr (UInt16.le_refl i)⟩
      · rw [Keep.newExtents, if_pos (fun h => h16 (congrArg UInt16.toNat h))]
        simp only [hnext, hi]
        rw [take_append, take_of_length_le (by omega), Nat.add_sub_cancel_left, take_succ_cons, take_zero,
          modify_eq_take_cons_drop (by simp)]
        simp [hto16]
      · rw [dropLoop, if_neg (by simp), if_pos hone]
        have hge : ¬ keepBlocks - acc ≥ e.blockCount.toUInt32 := by
          rw [ge_iff_le, UInt32.le_iff_toNat_le, hto, UInt16.toNat_toUInt32]
          omega
        simp only [if_neg hge]
        have hbehind := fun e' he' => hpos e' (mem_cons_of_mem _ he')
        rw [dropLoop_behind _ es (i + 1) (UInt16.le_refl (i + 1)) (by omega) hbehind]
        have hto32 : keepBlocks - acc = UInt32.ofNat (keepBlocks.toNat - acc.toNat) := by
          rw [← hto, UInt32.ofNat_toNat]
        have hrest : (e.blockCount.toUInt32 - (keepBlocks - acc)).toNat =
            (UInt16.ofNat (e.blockCount.toNat - (keepBlocks.toNat - acc.toNat))).toNat := by
          rw [UInt32.toNat_sub_of_le _ _ (UInt32.le_of_lt (UInt32.not_le.mp hge)), hto, UInt16.toNat_toUInt32,
            UInt16.toNat_ofNat_of_lt' (Nat.lt_of_le_of_lt (Nat.sub_le _ _) e.blockCount.toNat_lt)]
        rw [hrest, hto32]
        rfl
    · -- the extent is kept whole
      rw [if_neg htrim]
      have hfit : ¬ e.blockCount.toNat > keepBlocks.toNat - acc.toNat := by
        have :
          (acc + e.blockCount.toUInt32).toNat ≤ keepBlocks.toNat := UInt32.le_iff_toNat_le.mp (UInt32.not_lt.mp htrim)
        omega
      have hrest : keepBlocks.toNat - acc.toNat - e.blockCount.toNat =
          keepBlocks.toNat - (acc + e.blockCount.toUInt32).toNat := by omega
      obtain ⟨hnew, hdrop, hkept, htrimAt⟩ := ih (done ++ [e]) (i + 1) (acc + e.blockCount.toUInt32)
        (by rw [hnext, hi, length_append]; rfl) (by rw [length_append, length_singleton]; omega) (by omega)
        (by omega) fun e' he' => hpos e' (mem_cons_of_mem _ he')
      rw [cutExtents, if_neg hne, if_neg hfit, hrest]
      generalize keepLoop keepBlocks es (i + 1) (acc + e.blockCount.toUInt32) (i + 1) = k at *
      have hk : i < k.kept := by
        rw [UInt16.le_iff_toNat_le] at hkept
        rw [UInt16.lt_iff_toNat_lt]
        omega
      have hat : i ≠ k.trimAt := by
        rcases htrimAt with h | h
        · intro heq
          rw [heq, h] at hi
          simp at hi
          omega
        · intro heq
          rw [← heq, UInt16.le_iff_toNat_le] at h
          omega
      refine ⟨?_, ?_, UInt16.le_of_lt hk, ?_⟩
      · rw [append_assoc, singleton_append] at hnew
        rw [hnew, append_assoc]
        rfl
      · rw [dropLoop, if_pos ⟨hk, hat⟩, hdrop]
      · rcases htrimAt with h | h
        · exact .inl h
        · right
          rw [UInt16.le_iff_toNat_le] at h ⊢
          omega

end loops

/-! ## The record and the free space -/

/-- The record of a file, as it is read when the disk answers. -/
def Volume.recorded (v : Volume) (f : Nat) : Option TagFSMetadata :=
  (fileTableLookup v.table f).bind fun e => v.pool.recordAt e.place

section record

variable {v : Volume} {first : Nat} {live : LiveRecords} {owner : Nat → Option Nat} {f : Nat} {e : FileTableEntry}
  {m : TagFSMetadata}

theorem Volume.Inv.recorded_eq (h : v.Inv first live owner) : v.recorded = v.files live := by
  funext g
  unfold Volume.recorded Volume.files
  cases hf : fileTableLookup v.table g with
  | none => rfl
  | some e =>
    obtain ⟨m, hm, -⟩ := h.entry g e hf
    exact (recordAt_live h.pool hm).trans hm.symm

theorem freeExtents_medium (p : MetaPool) (es : List FileExtent) :
    (p.freeExtents es).medium = p.medium ∧ (p.freeExtents es).blocks = p.blocks := by
  induction es generalizing p with
  | nil => exact ⟨rfl, rfl⟩
  | cons e es ih => exact ih _

theorem Volume.Inv.extents_valid (h : v.Inv first live owner) (hm : v.files live f = some m) :
    m.extents.all (·.inVolume v.pool.space.totalBlocks) = true := by
  obtain ⟨e, -, hlive⟩ := files_eq_some hm
  obtain ⟨q, -, hrec, -⟩ := h.pool.record (show live (e.place.1, e.place.2) = some m from hlive)
  exact hrec.extents

theorem inVolume_trim {x : FileExtent} {n total : Nat} (hx : x.inVolume total = true) (hpos : 0 < n)
    (hn : n < x.blockCount.toNat) : ({ x with blockCount := UInt16.ofNat n } : FileExtent).inVolume total = true := by
  have hlt := x.blockCount.toNat_lt
  have hnat : (UInt16.ofNat n).toNat = n := UInt16.toNat_ofNat_of_lt' (hn.trans hlt)
  simp only [inVolume, Bool.not_eq_true', decide_eq_false_iff_not, hnat] at hx ⊢
  omega

theorem TrimmedPrefix.valid {kept es : List FileExtent} {total : Nat} (h : TrimmedPrefix kept es)
    (hes : es.all (·.inVolume total) = true) : kept.all (·.inVolume total) = true := by
  obtain ⟨whole, rest, rfl, hcut⟩ := h
  rw [all_append, Bool.and_eq_true] at hes
  rcases hcut with rfl | ⟨e, rest', n, rfl, hpos, hlt, rfl⟩
  · exact hes.1
  · rw [all_cons, Bool.and_eq_true] at hes
    rw [all_append, hes.1, all_cons, inVolume_trim hes.2.1 hpos hlt]
    rfl

theorem Volume.Inv.extents_lt (h : v.Inv first live owner) (hm : v.files live f = some m) :
    ∀ e ∈ m.extents, e.startBlock.toNat + e.blockCount.toNat < 2 ^ 32 := fun e he =>
  (h.extents_inside hm e he).trans_lt h.pool.bound

/-- Both parts of a cut are the file's, and have no block in common. -/
structure CutOwned (owner : Nat → Option Nat) (f total : Nat) (m : TagFSMetadata) (keep : Nat) : Prop where
  kept : Owns owner f (cutExtents m.extents keep).1
  dropped : Owns owner f (cutExtents m.extents keep).2
  inside : ∀ x ∈ (cutExtents m.extents keep).2, x.startBlock.toNat + x.blockCount.toNat ≤ total
  disjoint : ∀ b ∈ fileBlocks (cutExtents m.extents keep).1, b ∉ fileBlocks (cutExtents m.extents keep).2
  among : ∀ b ∈ fileBlocks (cutExtents m.extents keep).2, b ∈ fileBlocks m.extents

section

variable (h : v.Inv first live owner)

include h

theorem Volume.Inv.cutOwned (hm : v.files live f = some m) (keep : Nat) :
    CutOwned owner f v.pool.space.totalBlocks m keep := by
  obtain ⟨hkept, hdropped⟩ := cutExtents_blocks m.extents keep (h.extents_lt hm)
  have howns := h.owns f m hm
  refine ⟨⟨?_, fun b hb => howns.owned b ?_⟩, ⟨?_, fun b hb => howns.owned b ?_⟩,
    cutExtents_inside m.extents keep h.pool.bound (h.extents_inside hm), fun b hb hmem => ?_, fun b hb => ?_⟩
  · rw [hkept]
    exact howns.nodup.sublist (take_sublist _ _)
  · rw [hkept] at hb
    exact mem_of_mem_take hb
  · rw [hdropped]
    exact howns.nodup.sublist (drop_sublist _ _)
  · rw [hdropped] at hb
    exact mem_of_mem_drop hb
  · rw [hkept] at hb
    rw [hdropped] at hmem
    have hsplit : ((fileBlocks m.extents).take keep ++ (fileBlocks m.extents).drop keep).Nodup := by
      rw [take_append_drop]
      exact howns.nodup
    exact (nodup_append.mp hsplit).2.2 b hb b hmem rfl
  · rw [hdropped] at hb
    exact mem_of_mem_drop hb

/-- The record of a file is replaced by one with fewer extents, and the others are given back. -/
theorem cutRecord_inv (hf : fileTableLookup v.table f = some e) (hm : v.files live f = some m)
    (hid : m.fileId.toNat = f) (hne : m.fileId ≠ 0) (keep : Nat) (newSize : UInt64) {v' : Volume} {done : Bool}
    (hreplace : v.replaceRecord f e { m with size := newSize, extents := (cutExtents m.extents keep).1 } = (v', done)) :
    KeepsOthers v.pool v'.pool ∧ (done = false → v'.Inv first live owner) ∧
    (done = true → ∃ live', v'.Inv first live' owner ∧
      ({ v' with pool := v'.pool.freeExtents (cutExtents m.extents keep).2 }).Inv first live'
        (disown owner (fileBlocks (cutExtents m.extents keep).2)) ∧
      v'.files live' =
        update (v.files live) f (some { m with size := newSize, extents := (cutExtents m.extents keep).1 })) := by
  have hcut := h.cutOwned hm keep
  have hspec := @replaceRecord_spec v first live owner f e
    { m with size := newSize, extents := (cutExtents m.extents keep).1 } h hf hid hne hcut.kept
  have hkeeps := @replaceRecord_keeps v first live owner f e
    { m with size := newSize, extents := (cutExtents m.extents keep).1 } h hne
  rw [hreplace] at hspec hkeeps
  refine ⟨hkeeps, fun hdone => (hspec.1 hdone).1, fun hdone => ?_⟩
  obtain ⟨live', hinv, hfiles⟩ := hspec.2 hdone
  refine ⟨live', hinv,
    hinv.freeExtents hcut.dropped (by rw [hkeeps.total]; exact hcut.inside) fun g m' hm' b hb hmem => ?_, hfiles⟩
  -- no block that is dropped is left to a file
  rw [hfiles] at hm'
  by_cases hg : g = f
  · rw [hg, update_self] at hm'
    rw [← Option.some.inj hm'] at hb
    exact hcut.disjoint b hb hmem
  · rw [update_of_ne hg] at hm'
    exact h.disjoint hm hm' hg b hb (hcut.among b hmem)

/-- The blocks that are held after a cut. -/
theorem cutRecord_spec (hd : ∀ b, v.pool.dedup.shared b = true → v.pool.space.Holds b)
    (hf : fileTableLookup v.table f = some e) (hm : v.files live f = some m) (hid : m.fileId.toNat = f)
    (hne : m.fileId ≠ 0) (keep : Nat) (newSize : UInt64) {v' : Volume} {done : Bool}
    (hreplace : v.replaceRecord f e { m with size := newSize, extents := (cutExtents m.extents keep).1 } = (v', done)) :
    KeepsOthers v.pool v'.pool ∧
    (done = false → v'.Inv first live owner ∧ v'.table = v.table ∧ ∀ b, v'.pool.space.Holds b ↔ v.pool.space.Holds b) ∧
    (done = true → ∃ live',
      ({ v' with pool := v'.pool.freeExtents (cutExtents m.extents keep).2 }).Inv first live'
        (disown owner (fileBlocks (cutExtents m.extents keep).2)) ∧
      v'.files live' =
        update (v.files live) f (some { m with size := newSize, extents := (cutExtents m.extents keep).1 }) ∧
      (∀ b, (v'.pool.freeExtents (cutExtents m.extents keep).2).space.Holds b ↔
        (v.pool.space.Holds b ∨ b ∈ v'.pool.blocks) ∧
          ¬ (b ∈ fileBlocks (cutExtents m.extents keep).2 ∧ v.pool.dedup.shared b = false)) ∧
      (v'.pool.freeExtents (cutExtents m.extents keep).2).space.totalBlocks = v.pool.space.totalBlocks) := by
  have hcut := h.cutOwned hm keep
  obtain ⟨hkeeps, hfail, hdone'⟩ := cutRecord_inv h hf hm hid hne keep newSize hreplace
  have hholds := @replaceRecord_holds v first live owner f e
    { m with size := newSize, extents := (cutExtents m.extents keep).1 } h hd hne
    ((cutExtents_initial m.extents keep).valid (h.extents_valid hm))
  rw [hreplace] at hholds
  refine ⟨hkeeps, fun hdone => ?_, fun hdone => ?_⟩
  · obtain ⟨hsame, htable⟩ := hholds.1 hdone
    exact ⟨hfail hdone, htable, hsame⟩
  · obtain ⟨live', hinv, hinv', hfiles⟩ := hdone' hdone
    have htakes := hholds.2 hdone
    have hinside : ∀ x ∈ (cutExtents m.extents keep).2,
        x.startBlock.toNat + x.blockCount.toNat ≤ v'.pool.space.totalBlocks := by
      rw [hkeeps.total]
      exact hcut.inside
    have hheld : ∀ b ∈ fileBlocks (cutExtents m.extents keep).2, v'.pool.space.Holds b := fun b hb =>
      hkeeps.holds b (h.held b f (hcut.dropped.owned b hb)).1
    have htotal :
        (v'.pool.freeExtents (cutExtents m.extents keep).2).space.totalBlocks = v'.pool.space.totalBlocks := by
      obtain ⟨space, dedup, heq, -, htotal, -⟩ := freeExtents_spec _ hinv.pool.space hcut.dropped.nodup hinside hheld
      rw [heq]
      exact htotal
    refine ⟨live', hinv', hfiles, fun b => ?_, htotal.trans hkeeps.total⟩
    rw [(freeExtents_holds (c := b) _ hinv.pool.space hcut.dropped.nodup hinside hheld).1, htakes.holds, htakes.dedup]

theorem Volume.Inv.extents_count (hm : v.files live f = some m) :
    (fileBlocks m.extents).length < 2 ^ 32 ∧ m.extents.length ≤ 0xFFFF := by
  have howns := h.owns f m hm
  constructor
  · have hsub : fileBlocks m.extents ⊆ List.range v.pool.space.totalBlocks := fun b hb =>
      mem_range.mpr (h.held b f (howns.owned b hb)).1.1
    have hle := (subperm_of_subset howns.nodup hsub).length_le
    rw [length_range] at hle
    exact hle.trans_lt h.pool.bound
  · obtain ⟨e, -, hlive⟩ := files_eq_some hm
    obtain ⟨q, -, hrec, -⟩ := h.pool.record (show live (e.place.1, e.place.2) = some m from hlive)
    have hsize := hrec.size
    simp only [metaPoolRecordSize, mpoolDataSize] at hsize
    omega

theorem Volume.Inv.extents_pos (hm : v.files live f = some m) :
    ∀ e ∈ m.extents, 0 < e.blockCount.toNat := by
  intro e he
  have hval := all_eq_true.mp (h.extents_valid hm) e he
  simp only [inVolume, Bool.not_eq_true', decide_eq_false_iff_not] at hval
  omega

end

end record

/-! ## Whole calls -/

/-- The number of blocks that `newSize` bytes take. -/
def blocksFor (newSize : UInt64) : Nat := (newSize.toNat + (tagfsBlockSize - 1)) / tagfsBlockSize

/-- File `f` with the metadata `m` has become that of its first `newSize` bytes, with the metadata `m'`. -/
structure Truncated (v v' : Volume) (f : Nat) (m m' : TagFSMetadata) (newSize : UInt64) : Prop where
  recorded : v'.recorded f = some m'
  metadata : m' = { m with size := newSize, extents := m'.extents }
  others : ∀ g, g ≠ f → v'.recorded g = v.recorded g
  kept : TrimmedPrefix m'.extents m.extents
  length : (fileBlocks m'.extents).length = blocksFor newSize
  held : ∀ b ∈ fileBlocks m'.extents, v'.pool.space.Holds b
  /-- the rest of the blocks is free, and the free list and the counters say so -/
  freed : ∀ b, v'.pool.space.IsFree b ↔
    b ∈ (fileBlocks m.extents).drop (blocksFor newSize) ∧ v.pool.dedup.shared b = false ∨
      v.pool.space.IsFree b ∧ b ∉ v'.pool.blocks
  space : v'.pool.space.Inv
  bytes : readFile v'.disk (m'.extents.map extent) newSize.toNat =
    (readFile v.disk (m.extents.map extent) m.size.toNat).map (·.take newSize.toNat)

/-- Files and free space are as they were. -/
structure Untouched (v v' : Volume) : Prop where
  table : v'.table = v.table
  recorded : v'.recorded = v.recorded
  free : ∀ b, v'.pool.space.IsFree b ↔ v.pool.space.IsFree b

section call

variable {v : Volume} {first : Nat} {live : LiveRecords} {owner : Nat → Option Nat} {f : Nat} {m : TagFSMetadata}

theorem fileBytes_take {disk disk' : Nat → Nat → UInt8} {es kept : List Extent} {keep size newSize : Nat}
    (hkept : blocksOf kept = (blocksOf es).take keep) (hcov : newSize ≤ keep * tagfsBlockSize) (hle : newSize ≤ size)
    (hsame : ∀ b ∈ blocksOf kept, disk' b = disk b) :
    fileBytes disk' kept newSize = (fileBytes disk es size).take newSize := by
  unfold fileBytes
  rw [← map_take, take_range, Nat.min_eq_left hle]
  refine map_congr_left fun pos hpos => ?_
  have hlt := mem_range.mp hpos
  have hblock : pos / tagfsBlockSize < keep := (Nat.div_lt_iff_lt_mul tagfsBlockSize_pos).mpr (by omega)
  rw [byteOf_congr hsame, byteOf, byteOf, hkept, getElem?_take_of_lt hblock]

theorem keepBlocks_eq {newSize : UInt64} {n : Nat} (hle : newSize.toNat ≤ n * tagfsBlockSize) (hn : n < 2 ^ 32) :
    ((newSize + 4096 - 1) / 4096).toUInt32.toNat = blocksFor newSize := by
  unfold tagfsBlockSize at hle
  have hone : (newSize + 4096 - 1).toNat = newSize.toNat + 4095 := by
    rw [UInt64.toNat_sub_of_le, UInt64.toNat_add]
    · simp
      omega
    · rw [UInt64.le_iff_toNat_le, UInt64.toNat_add]
      simp
      omega
  rw [UInt64.toNat_toUInt32, UInt64.toNat_div, hone, blocksFor, tagfsBlockSize]
  simp
  omega

/-- `tagfs_truncate_locked` on a file that is read, cut short. -/
theorem tagfsTruncateLocked_cut (h : v.Inv first live owner) {v₁ : Volume} {e : FileTableEntry} (memory : Bool)
    {newSize : UInt64} (hf : fileTableLookup v.table f = some e) (hm : v.files live f = some m)
    (hread : v.readMeta e = (some m, v₁)) (hcov : Covered (m.extents.map extent) m.size.toNat)
    (hlt : newSize < m.size) :
    v.tagfsTruncateLocked memory f newSize = (v₁, -errNoMemory) ∨
    v.tagfsTruncateLocked memory f newSize =
      match v₁.replaceRecord f e { m with
        size := newSize
        extents := (cutExtents m.extents (blocksFor newSize)).1 } with
      | (v, false) => (v, -errIo)
      | (v, true) => ({ v with pool := v.pool.freeExtents (cutExtents m.extents (blocksFor newSize)).2 }, 0) := by
  obtain ⟨hblocks, hextents⟩ := h.extents_count hm
  have hltn := UInt64.lt_iff_toNat_lt.mp hlt
  have hkeep := @keepBlocks_eq newSize _ (Nat.le_trans (Nat.le_of_lt hltn) hcov) hblocks
  obtain ⟨hnew, hdrop, -, -⟩ := @keepLoop_cut ((newSize + 4096 - 1) / 4096).toUInt32 m.extents [] 0 0 rfl
    (by simpa using hextents) (Nat.zero_le _) (by simpa using hblocks) (h.extents_pos hm)
  rw [hkeep, UInt32.toNat_zero, Nat.sub_zero] at hnew hdrop
  rw [nil_append, nil_append] at hnew
  unfold Volume.tagfsTruncateLocked
  rw [hf]
  simp only [hread]
  rw [if_neg (UInt64.not_lt.mpr (UInt64.le_of_lt hlt)), if_neg (UInt64.ne_of_lt hlt)]
  split
  · exact .inl rfl
  · right
    rw [hnew, hdrop]
    simp only [freeRuns_extents]

/-- What `cutRecord_spec` says of a truncation that succeeds. -/
theorem Volume.Inv.truncated (h : v.Inv first live owner) (hm : v.files live f = some m)
    (hcov : Covered (m.extents.map extent) m.size.toNat) {newSize : UInt64} (hlt : newSize.toNat < m.size.toNat)
    {v' : Volume} {live' : LiveRecords} {owner' : Nat → Option Nat}
    (hinv : ({ v' with pool := v'.pool.freeExtents (cutExtents m.extents (blocksFor newSize)).2 }).Inv first live'
    owner') (hfiles : v'.files live' =
    update (v.files live) f (some { m with size := newSize, extents := (cutExtents m.extents (blocksFor newSize)).1 }))
    (hholds : ∀ b, (v'.pool.freeExtents (cutExtents m.extents (blocksFor newSize)).2).space.Holds b ↔
    (v.pool.space.Holds b ∨ b ∈ v'.pool.blocks) ∧
    ¬ (b ∈ fileBlocks (cutExtents m.extents (blocksFor newSize)).2 ∧ v.pool.dedup.shared b = false))
    (htotal : (v'.pool.freeExtents (cutExtents m.extents (blocksFor newSize)).2).space.totalBlocks =
    v.pool.space.totalBlocks) (hkeeps : KeepsOthers v.pool v'.pool) :
    Truncated v { v' with pool := v'.pool.freeExtents (cutExtents m.extents (blocksFor newSize)).2 } f m
    { m with size := newSize, extents := (cutExtents m.extents (blocksFor newSize)).1 } newSize := by
  have howns := h.owns f m hm
  obtain ⟨hkept, hdropped⟩ := cutExtents_blocks m.extents (blocksFor newSize) (h.extents_lt hm)
  obtain ⟨hmedium, hblocks⟩ := freeExtents_medium v'.pool (cutExtents m.extents (blocksFor newSize)).2
  have hrecorded := hinv.recorded_eq
  have hfit : newSize.toNat ≤ blocksFor newSize * tagfsBlockSize := by
    unfold blocksFor tagfsBlockSize
    omega
  have hshort : blocksFor newSize ≤ (fileBlocks m.extents).length := by
    have hcov' : m.size.toNat ≤ (fileBlocks m.extents).length * tagfsBlockSize := hcov
    unfold blocksFor tagfsBlockSize at *
    omega
  have hkeptHeld : ∀ b ∈ (fileBlocks m.extents).take (blocksFor newSize),
      v.pool.space.Holds b ∧ b ∉ v.pool.blocks ∧ b ∉ (fileBlocks m.extents).drop (blocksFor newSize) := by
    intro b hb
    obtain ⟨hold, hout, -⟩ := h.held b f (howns.owned b (mem_of_mem_take hb))
    refine ⟨hold, hout, fun hmem => ?_⟩
    have hsplit := howns.nodup
    rw [← take_append_drop (blocksFor newSize) (fileBlocks m.extents)] at hsplit
    exact (nodup_append.mp hsplit).2.2 b hb b hmem rfl
  refine ⟨?_, rfl, fun g hg => ?_, cutExtents_initial _ _, ?_, fun b hb => ?_, fun b => ?_, hinv.pool.space, ?_⟩
  · rw [hrecorded]
    exact (congrFun hfiles f).trans (update_self ..)
  · rw [hrecorded, h.recorded_eq]
    exact (congrFun hfiles g).trans (update_of_ne hg ..)
  · rw [hkept, length_take, Nat.min_eq_left hshort]
  · rw [hkept] at hb
    obtain ⟨hold, -, hno⟩ := hkeptHeld b hb
    rw [hholds, hdropped]
    exact ⟨.inl hold, fun hmem => hno hmem.1⟩
  · have hheld : b ∈ (fileBlocks m.extents).drop (blocksFor newSize) → v.pool.space.Holds b := fun hb =>
      (h.held b f (howns.owned b (mem_of_mem_drop hb))).1
    simp only [isFree_iff, htotal, hblocks, hholds, hdropped]
    constructor
    · rintro ⟨hlt', hno⟩
      by_cases hb : b ∈ (fileBlocks m.extents).drop (blocksFor newSize) ∧ v.pool.dedup.shared b = false
      · exact .inl hb
      · exact .inr ⟨⟨hlt', fun hold => hno ⟨.inl hold, hb⟩⟩, fun hmem => hno ⟨.inr hmem, hb⟩⟩
    · rintro (hb | ⟨⟨hlt', hno⟩, hout⟩)
      · exact ⟨(hheld hb.1).1, fun hc => hc.2 hb⟩
      · exact ⟨hlt', fun hc => hc.1.elim hno hout⟩
  · have hcovKept : Covered ((cutExtents m.extents (blocksFor newSize)).1.map extent) newSize.toNat := by
      have hlen : (fileBlocks (cutExtents m.extents (blocksFor newSize)).1).length = blocksFor newSize := by
        rw [hkept, length_take, Nat.min_eq_left hshort]
      unfold fileBlocks at hlen
      unfold Covered
      rw [hlen]
      exact hfit
    rw [readFile_eq hcovKept, readFile_eq hcov, Option.map_some]
    refine congrArg some (fileBytes_take hkept hfit (Nat.le_of_lt hlt) fun b hb => ?_)
    have hb' : b ∈ (fileBlocks m.extents).take (blocksFor newSize) := hkept ▸ hb
    obtain ⟨hold, hout, -⟩ := hkeptHeld b hb'
    funext i
    unfold Volume.disk
    rw [hmedium, hkeeps.medium b hold hout]

/-- For every file whose extents cover its size and every smaller size: a truncation that returns `0` leaves the file of
the first `newSize` bytes; one that fails, or has nothing to cut, changes nothing. -/
theorem truncate_exact (h : v.Inv first live owner) (hd : ∀ b, v.pool.dedup.shared b = true → v.pool.space.Holds b)
    (hm : v.recorded f = some m) (hcov : Covered (m.extents.map extent) m.size.toNat) (memory : Bool) {newSize : UInt64}
    (hle : newSize ≤ m.size) :
    ((v.tagfsTruncateLocked memory f newSize).2 = 0 → newSize < m.size →
      ∃ m', Truncated v (v.tagfsTruncateLocked memory f newSize).1 f m m' newSize) ∧
    ((v.tagfsTruncateLocked memory f newSize).2 ≠ 0 ∨ newSize = m.size →
      Untouched v (v.tagfsTruncateLocked memory f newSize).1) ∧
    ((v.tagfsTruncateLocked memory f newSize).2 = 0 ∨ (v.tagfsTruncateLocked memory f newSize).2 = -errIo ∨
      (v.tagfsTruncateLocked memory f newSize).2 = -errNoMemory) := by
  rw [h.recorded_eq] at hm
  obtain ⟨e, hf, hlive⟩ := files_eq_some hm
  obtain ⟨⟨io, hio⟩, hinv₁, hmeta⟩ := readMeta_spec h hf
  have hread_io : Untouched v (v.readMeta e).2 := by
    refine ⟨by rw [hio], by rw [hinv₁.recorded_eq, h.recorded_eq, hio]; rfl, fun b => by rw [hio]⟩
  cases hr : v.readMeta e with
  | mk o v₁ =>
    rw [hr] at hio hinv₁ hmeta hread_io
    cases o with
    | none =>
      have hrun : v.tagfsTruncateLocked memory f newSize = (v₁, -errIo) := by
        unfold Volume.tagfsTruncateLocked
        rw [hf]
        simp only [hr]
      rw [hrun]
      exact ⟨nofun, fun _ => hread_io, .inr (.inl rfl)⟩
    | some m₀ =>
      obtain ⟨hfile, hid, hne⟩ := hmeta m₀ rfl
      obtain rfl : m = m₀ := Option.some.inj (hm.symm.trans hfile)
      by_cases heq : newSize = m.size
      · have hrun : v.tagfsTruncateLocked memory f newSize = (v₁, 0) := by
          unfold Volume.tagfsTruncateLocked
          rw [hf]
          simp only [hr]
          rw [if_neg (UInt64.not_lt.mpr hle), if_pos heq]
        rw [hrun]
        exact ⟨fun _ hlt => absurd heq (UInt64.ne_of_lt hlt), fun _ => hread_io, .inl rfl⟩
      have hlt : newSize < m.size := UInt64.lt_of_le_of_ne hle heq
      rcases tagfsTruncateLocked_cut h memory hf hm hr hcov hlt with hrun | hrun
      · rw [hrun]
        exact ⟨nofun, fun _ => hread_io, .inr (.inr rfl)⟩
      rw [hrun]
      obtain rfl : v₁ = { v with pool := { v.pool with io := io } } := hio
      generalize hrep : Volume.replaceRecord { v with pool := { v.pool with io := io } } f e _ = r
      obtain ⟨v', done⟩ := r
      obtain ⟨hkeeps, hrefused, hdone⟩ := cutRecord_spec hinv₁ hd hf hm hid hne (blocksFor newSize) newSize hrep
      cases done with
      | false =>
        obtain ⟨hinv', htable, hholds⟩ := hrefused rfl
        refine ⟨nofun, fun _ => ⟨htable, ?_, fun b => ?_⟩, .inr (.inl rfl)⟩
        · rw [hinv'.recorded_eq, h.recorded_eq]
          funext g
          unfold Volume.files
          rw [htable]
        · rw [isFree_iff, isFree_iff, hholds, hkeeps.total]
      | true =>
        obtain ⟨live', hinv', hfiles, hholds, htotal⟩ := hdone rfl
        refine ⟨fun _ _ => ⟨{ m with size := newSize, extents := (cutExtents m.extents (blocksFor newSize)).1 }, ?_⟩, 
          fun hno => hno.elim (fun hno => absurd rfl hno) fun hno => absurd hno heq, .inl rfl⟩
        exact h.truncated hm hcov (UInt64.lt_iff_toNat_lt.mp hlt) hinv' hfiles hholds htotal
          ⟨hkeeps.total, hkeeps.holds, hkeeps.blocks, hkeeps.grown, hkeeps.medium⟩

end call

/-! ## A volume with one file -/

/-- The record of file 1. -/
def smallFile (size : UInt64) : TagFSMetadata :=
  ⟨1, fileActive, size, 0, 0, [], es, CStr.ofBuffer [97]⟩

/-- Eight blocks, of which 3 and 4 belong to a file. -/
def sixTaken : Space := ⟨[0x1F], 8, [⟨5, 3⟩], 1, 3⟩

variable (dedup : DedupState)

/-- The metadata of file 1 on a volume of eight blocks, with the deduplication index `dedup`. -/
def smallWrite (es : List FileExtent) (size : UInt64) : MetaPool × Option (Nat × Nat) :=
  metaPoolWrite { freshPool with space := sixTaken, dedup := dedup } (smallFile es size)

def oneFileVolume (es : List FileExtent) (size : UInt64) : Volume :=
  { freshVolume with
    pool := (smallWrite dedup es size).1
    table := fileTableUpdate freshVolume.table 1 (entryAt ((smallWrite dedup es size).2.getD (0, 0))) }

theorem oneFileVolume_inv (es : List FileExtent) (size : UInt64) (hes : fileBlocks es = [3, 4])
    (hvalid : es.all (·.inVolume 8) = true) (hd : ∀ b, dedup.shared b = true → sixTaken.Holds b)
    (hw : (smallWrite dedup es size).2 = some (2, 16)) : ∃ live owner, (oneFileVolume dedup es size).Inv 2 live owner ∧
    (oneFileVolume dedup es size).recorded 1 = some (smallFile es size) ∧
    (oneFileVolume dedup es size).pool.dedup = dedup ∧ ∀ b, (oneFileVolume dedup es size).pool.dedup.shared b = true →
    (oneFileVolume dedup es size).pool.space.Holds b := by
  have hal : freshVolume.pool.space.allocBlocksInternal 2 = some (3, sixTaken) := by decide
  have hown : ({ freshVolume with pool := { freshPool with space := sixTaken, dedup := dedup } } : Volume).Inv 2
      (fun _ => none) (own (fun _ => none) 3 2 1) := by
    have h := freshVolume_inv.own hal 1
    exact h.grow (h.pool.withSpace h.pool.space rfl fun _ hb => hb) (fun _ hb => hb) fun _ hb => .inl hb
  have hid : (smallFile es size).fileId ≠ 0 := show (1 : UInt32) ≠ 0 by decide
  have hpair : smallWrite dedup es size = ((smallWrite dedup es size).1, some (2, 16)) := by rw [← hw]
  obtain ⟨h₁, -, -, hoff⟩ := Volume.Inv.writeSome hown hid hpair
  have howns : Owns (own (fun _ => none) 3 2 1) (smallFile es size).fileId.toNat (smallFile es size).extents := by
    have hes' : fileBlocks (smallFile es size).extents = [3, 4] := hes
    rw [smallFile] at hes' ⊢
    refine ⟨by rw [hes']; decide, fun b hb => ?_⟩
    rw [hes'] at hb
    rcases mem_cons.mp hb with rfl | hb
    · rfl
    · obtain rfl := mem_singleton.mp hb
      rfl
  obtain ⟨h₂, hfiles⟩ := h₁.setEntry howns (update_self ..) hoff
  have hvol : oneFileVolume dedup es size = { ({ freshVolume with pool := (smallWrite dedup es size).1 } : Volume) with
      table := fileTableUpdate freshVolume.table (smallFile es size).fileId.toNat (entryAt (2, 16)) } := by
    rw [oneFileVolume, hw]
    rfl
  have htakes := (metaPoolWrite_holds hown.pool hd hid hvalid).2 (Option.isSome_iff_exists.mpr ⟨_, hw⟩)
  rw [hvol]
  refine ⟨_, _, h₂, ?_, htakes.dedup, fun b hb => ?_⟩
  · rw [h₂.recorded_eq]
    exact (congrFun hfiles 1).trans (update_self ..)
  · have hb' : (smallWrite dedup es size).1.dedup.shared b = true := hb
    rw [show (smallWrite dedup es size).1.dedup = dedup from htakes.dedup] at hb'
    exact (htakes.holds b).mpr (.inl (hd b hb'))

/-- A file of 6000 bytes in two blocks is cut to 100 bytes. -/
theorem truncate_exact_small :
    ∃ m', Truncated (oneFileVolume noDedup [⟨3, 2⟩] 6000)
      ((oneFileVolume noDedup [⟨3, 2⟩] 6000).tagfsTruncateLocked true 1 100).1 1 (smallFile [⟨3, 2⟩] 6000) m' 100 := by
  obtain ⟨live, owner, h, hm, -, hd⟩ := oneFileVolume_inv noDedup [⟨3, 2⟩] 6000 (by decide) (by decide)
    (fun b hb => (nomatch hb)) (by decide +kernel)
  exact (truncate_exact h hd hm (by decide) true (by decide)).1 (by decide +kernel) (by decide)

/-- Block 4 has two references. -/
def sharedIndex : DedupState := ⟨true, fun _ => [], fun k => if k = 4 then [⟨[], 4, 2, 0, 0, 0⟩] else [], 1⟩

theorem sharedIndex_held (b : Nat) (hb : sharedIndex.shared b = true) : sixTaken.Holds b := by
  unfold DedupState.shared at hb
  rw [Bool.and_eq_true, Option.any_eq_true] at hb
  obtain ⟨-, e, hfind, -⟩ := hb
  have hphys := findByBlock_physical hfind
  have hmem := mem_of_find?_eq_some hfind
  unfold sharedIndex at hmem
  simp only at hmem
  split at hmem
  · obtain rfl := mem_singleton.mp hmem
    obtain rfl : b = 4 := hphys.symm
    exact ⟨by decide, by decide⟩
  · cases hmem

/-- A file whose size needs one block has two, since the write of a second block was refused: cut to the size it has, it
keeps both. And a block with two references is not given back. -/
theorem truncate_keeps_spare_block :
    (∃ v first live owner m, Volume.Inv v first live owner ∧ v.recorded 1 = some m ∧
      Covered (m.extents.map extent) m.size.toNat ∧ m.size = 4096 ∧ (v.tagfsTruncateLocked true 1 4096).2 = 0 ∧
      ¬ ∃ m', Truncated v (v.tagfsTruncateLocked true 1 4096).1 1 m m' 4096) ∧
    ∃ v first live owner m, Volume.Inv v first live owner ∧ v.recorded 1 = some m ∧
      Covered (m.extents.map extent) m.size.toNat ∧ (v.tagfsTruncateLocked true 1 100).2 = 0 ∧
      ∃ b ∈ (fileBlocks m.extents).drop (blocksFor 100),
        ¬ (v.tagfsTruncateLocked true 1 100).1.pool.space.IsFree b := by
  constructor
  · obtain ⟨live, owner, h, hm, -, hd⟩ := oneFileVolume_inv noDedup [⟨3, 1⟩, ⟨4, 1⟩] 4096 (by decide) (by decide)
      (fun b hb => (nomatch hb)) (by decide +kernel)
    refine ⟨_, 2, live, owner, _, h, hm, by decide, rfl, by decide +kernel, ?_⟩
    rintro ⟨m', ht⟩
    have hblocks : (((oneFileVolume noDedup [⟨3, 1⟩, ⟨4, 1⟩] 4096).tagfsTruncateLocked true 1 4096).1.recorded 1).map
        (fun m => (fileBlocks m.extents).length) = some 2 := by decide +kernel
    rw [ht.recorded, Option.map_some, ht.length] at hblocks
    exact nomatch hblocks
  · obtain ⟨live, owner, h, hm, -, hd⟩ := oneFileVolume_inv sharedIndex [⟨3, 2⟩] 6000 (by decide) (by decide)
      sharedIndex_held (by decide +kernel)
    refine ⟨_, 2, live, owner, _, h, hm, by decide, by decide +kernel, 4, by decide, ?_⟩
    unfold Space.IsFree
    decide +kernel

end BoxOS.TagFS
