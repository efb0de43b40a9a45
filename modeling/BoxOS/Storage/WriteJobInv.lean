import BoxOS.Storage.WriteJob

/-! # An asynchronous write implements the byte-array write

`Written` says what the blocks of a job's extents hold once `done` bytes are written; each handler of `wjob_pump` keeps
it, and the record that is written at the end makes it the file's. -/

open Function (update update_of_ne)

namespace BoxOS.Storage

open Lib TagFS List Option

/-! ## The volume -/

/-- The blocks of the file are distinct blocks of the volume, all taken, and enough for its size. -/
structure StoredFile.Ok (v : StoredFile) : Prop where
  space : v.space.Inv
  covered : Covered v.extents v.size
  nodup : (blocksOf v.extents).Nodup
  held : ∀ b ∈ blocksOf v.extents, v.space.Holds b

/-- The bytes of the file. -/
def StoredFile.bytes (v : StoredFile) : List UInt8 :=
  fileBytes v.disk v.extents v.size

/-- The blocks that `n` allocations of one block each take. -/
def takeOnes : Nat → Space → List Nat
  | 0, _ => []
  | n + 1, s =>
    match s.allocBlocks 1 with
    | none => []
    | some (b, s') => b :: takeOnes n s'

theorem alloc_one {s s' : Space} {b : Nat} (hs : s.Inv) (h : s.allocBlocks 1 = some (b, s')) :
    s'.Inv ∧ ¬ s.Holds b ∧ ∀ c, s'.Holds c ↔ s.Holds c ∨ c = b := by
  have h' : s.allocBlocksInternal 1 = some (b, s') := by
    rwa [Space.allocBlocks, if_neg (by decide)] at h
  obtain ⟨hinv, -, hfree, -, -⟩ := allocOne_spec hs h'
  obtain ⟨hin, -, htot, hbits⟩ := alloc_spec hs h'
  refine ⟨hinv, hfree, fun c => ?_⟩
  unfold Space.Holds
  rw [htot, hbits, Bool.or_eq_true, decide_eq_true_eq]
  constructor
  · rintro ⟨hlt, hold | hnew⟩
    · exact .inl ⟨hlt, hold⟩
    · exact .inr (by omega)
  · rintro (⟨hlt, hold⟩ | rfl)
    · exact ⟨hlt, .inl hold⟩
    · exact ⟨by omega, .inr (by omega)⟩

/-! ## What has been written -/

section written

variable {v₀ : StoredFile} {s done : Nat} {src : List UInt8} {disk : Nat → Nat → UInt8} {space : Space} {bs : List Nat}

/-- The blocks `bs` hold the file `v₀` with the first `done` bytes of `src` written from `s` on. -/
structure Written (v₀ : StoredFile) (s : Nat) (src : List UInt8) (done : Nat) (disk : Nat → Nat → UInt8)
    (space : Space) (bs : List Nat) : Prop where
  inv : space.Inv
  nodup : bs.Nodup
  held : ∀ b ∈ bs, space.Holds b
  more : (blocksOf v₀.extents).length ≤ bs.length
  kept : ∀ b, v₀.space.Holds b → space.Holds b
  taken : ∀ b, space.Holds b → v₀.space.Holds b ∨ b ∈ bs
  new : ∀ i < done, byteOf tagfsBlockSize disk bs (s + i) = src[i]?
  old : ∀ pos, pos / tagfsBlockSize < (blocksOf v₀.extents).length → ¬ (s ≤ pos ∧ pos < s + done) →
    byteOf tagfsBlockSize disk bs pos = byteOf tagfsBlockSize v₀.disk (blocksOf v₀.extents) pos
  gap : ∀ pos, (blocksOf v₀.extents).length ≤ pos / tagfsBlockSize → pos / tagfsBlockSize < bs.length → pos < s →
    pos / tagfsBlockSize < s / tagfsBlockSize ∨ 0 < done → byteOf tagfsBlockSize disk bs pos = some 0

theorem Written.start (h : v₀.Ok) (s : Nat) (src : List UInt8) :
    Written v₀ s src 0 v₀.disk v₀.space (blocksOf v₀.extents) where
  inv := h.space
  nodup := h.nodup
  held := h.held
  more := le_rfl
  kept _ hb := hb
  taken _ hb := .inl hb
  new i hi := absurd hi (Nat.not_lt_zero i)
  old _ _ _ := rfl
  gap _ hle hlt := absurd hlt (not_lt.mpr hle)

theorem Written.lt (h : Written v₀ s src done disk space bs) {i : Nat} (hi : i < done) (hsrc : done ≤ src.length) :
    (s + i) / tagfsBlockSize < bs.length := by
  have hsome : (byteOf tagfsBlockSize disk bs (s + i)).isSome = true := by
    rw [h.new i hi, getElem?_eq_getElem (by omega)]
    rfl
  exact byteOf_isSome.mp hsome

theorem Written.append {b : Nat} {space' : Space} (h : Written v₀ s src done disk space bs) (hsrc : done ≤ src.length)
    (halloc : space.allocBlocks 1 = some (b, space')) (hgap : 0 < done → s / tagfsBlockSize < bs.length)
    (hzero : done = 0 → bs.length < s / tagfsBlockSize → ∀ o < tagfsBlockSize, disk b o = 0) :
    Written v₀ s src done disk space' (bs ++ [b]) := by
  obtain ⟨hinv, hfree, hholds⟩ := alloc_one h.inv halloc
  have hb : b ∉ bs := fun hb => hfree (h.held b hb)
  refine ⟨hinv, ?_, fun c hc => ?_, ?_, fun c hc => (hholds c).mpr (.inl (h.kept c hc)), fun c hc => ?_, fun i hi => ?_,
    fun pos hpos hnot => ?_, fun pos hle hlt hs hbefore => ?_⟩
  · exact nodup_append.mpr ⟨h.nodup, nodup_singleton b, fun c hc d hd => by
      rw [mem_singleton] at hd
      exact fun hcd => hb (hd ▸ hcd ▸ hc)⟩
  · rw [mem_append, mem_singleton] at hc
    exact (hholds c).mpr (hc.imp_left (h.held c))
  · rw [length_append]
    exact Nat.le_add_right_of_le h.more
  · rw [mem_append, mem_singleton]
    rcases (hholds c).mp hc with hold | rfl
    · exact (h.taken c hold).imp_right .inl
    · exact .inr (.inr rfl)
  · rw [byteOf_append_left (h.lt hi hsrc), h.new i hi]
  · rw [byteOf_append_left (hpos.trans_le h.more), h.old pos hpos hnot]
  · by_cases hin : pos / tagfsBlockSize < bs.length
    · rw [byteOf_append_left hin, h.gap pos hle hin hs hbefore]
    · -- the new block is one of the gap: nothing is written yet
      have hend : pos / tagfsBlockSize = bs.length := by
        rw [length_append, length_singleton] at hlt
        omega
      have hmono : pos / tagfsBlockSize ≤ s / tagfsBlockSize := Nat.div_le_div_right (by omega)
      have hnone : done = 0 := by
        by_contra hne
        have := hgap (by omega)
        omega
      rw [byteOf_eq (b := b) (by rw [hend]; simp), hzero hnone (by omega) _ (Nat.mod_lt _ tagfsBlockSize_pos)]

theorem Written.redirect {b c k : Nat} {space' : Space} (h : Written v₀ s src done disk space bs)
    (halloc : space.allocBlocks 1 = some (b, space')) (hc : bs[k]? = some c) (hc₀ : v₀.space.Holds c) :
    Written v₀ s src done (update disk b (disk c)) space' (bs.set k b) := by
  obtain ⟨hinv, hfree, hholds⟩ := alloc_one h.inv halloc
  have hb : b ∉ bs := fun hb => hfree (h.held b hb)
  have hbc : c ≠ b := fun hcb => hb (hcb ▸ mem_of_getElem? hc)
  have hsame : ∀ pos, byteOf tagfsBlockSize (update disk b (disk c)) (bs.set k b) pos =
      byteOf tagfsBlockSize disk bs pos := by
    intro pos
    rw [byteOf_set hc (by rw [Function.update_self, update_of_ne hbc])]
    refine byteOf_congr fun x hx => ?_
    have hxb : x ≠ b := fun hxb => hb (hxb ▸ hx)
    exact update_of_ne hxb _ _
  refine ⟨hinv, h.nodup.set hb, fun x hx => ?_, ?_, fun x hx => (hholds x).mpr (.inl (h.kept x hx)), fun x hx => ?_,
    fun i hi => ?_, fun pos hpos hnot => ?_, fun pos hle hlt hs hbefore => ?_⟩
  · exact (hholds x).mpr ((mem_or_eq_of_mem_set hx).imp_left (h.held x))
  · rw [length_set]
    exact h.more
  · have hlt : k < bs.length := (List.getElem?_eq_some_iff.mp hc).1
    rcases (hholds x).mp hx with hold | rfl
    · rcases h.taken x hold with h₀ | hmem
      · exact .inl h₀
      · -- the block that leaves was the file's before
        by_cases hxc : x = c
        · exact .inl (hxc ▸ hc₀)
        obtain ⟨i, hi⟩ := mem_iff_getElem?.mp hmem
        refine .inr (mem_of_getElem? (i := i) ?_)
        rw [getElem?_set_ne, hi]
        rintro rfl
        exact hxc (some.inj (hi.symm.trans hc))
    · exact .inr (mem_set hlt x)
  · rw [hsame, h.new i hi]
  · rw [hsame, h.old pos hpos hnot]
  · rw [length_set] at hlt
    rw [hsame, h.gap pos hle hlt hs hbefore]

/-- A chunk is written to block `k`: over the bytes of the file, or over zeros in a new block. -/
theorem Written.chunk {b n : Nat} {page : Nat → UInt8} (h : Written v₀ s src done disk space bs)
    (hb : bs[(s + done) / tagfsBlockSize]? = some b) (hn : (s + done) % tagfsBlockSize + n ≤ tagfsBlockSize)
    (hnew : ∀ i < n, some (page ((s + done) % tagfsBlockSize + i)) = src[done + i]?)
    (hold : (s + done) / tagfsBlockSize < (blocksOf v₀.extents).length →
    ∀ o < tagfsBlockSize, ¬ ((s + done) % tagfsBlockSize ≤ o ∧ o < (s + done) % tagfsBlockSize + n) → page o = disk b o)
    (hfresh : (blocksOf v₀.extents).length ≤ (s + done) / tagfsBlockSize →
    ∀ o < (s + done) % tagfsBlockSize, page o = 0)
    (hblock : (blocksOf v₀.extents).length ≤ (s + done) / tagfsBlockSize → done = 0 ∨ (s + done) % tagfsBlockSize = 0) :
    Written v₀ s src (done + n) (update disk b page) space bs := by
  have hview : ∀ pos, byteOf tagfsBlockSize (update disk b page) bs pos =
      if pos / tagfsBlockSize = (s + done) / tagfsBlockSize then some (page (pos % tagfsBlockSize))
      else byteOf tagfsBlockSize disk bs pos := fun pos => byteOf_write h.nodup hb page
  have hdisk : ∀ pos, pos / tagfsBlockSize = (s + done) / tagfsBlockSize →
      byteOf tagfsBlockSize disk bs pos = some (disk b (pos % tagfsBlockSize)) := fun pos hq => byteOf_eq (hq ▸ hb)
  refine ⟨h.inv, h.nodup, h.held, h.more, h.kept, h.taken, fun i hi => ?_, fun pos hlt hnot => ?_,
    fun pos hle hlt hs _ => ?_⟩
  · rw [hview]
    by_cases hi' : i < done
    · split
      · rename_i hq
        have hoff : (s + i) % tagfsBlockSize < (s + done) % tagfsBlockSize := by
          unfold tagfsBlockSize at *
          omega
        by_cases hin : (s + done) / tagfsBlockSize < (blocksOf v₀.extents).length
        · rw [hold hin _ (Nat.mod_lt _ tagfsBlockSize_pos) (by omega), ← hdisk _ hq, h.new i hi']
        · have := hblock (by omega)
          omega
      · exact h.new i hi'
    · have hq : (s + i) / tagfsBlockSize = (s + done) / tagfsBlockSize := by
        unfold tagfsBlockSize at *
        omega
      have hmod : (s + i) % tagfsBlockSize = (s + done) % tagfsBlockSize + (i - done) := by
        unfold tagfsBlockSize at *
        omega
      rw [if_pos hq, hmod, hnew (i - done) (by omega), Nat.add_sub_cancel' (by omega)]
  · rw [hview]
    have hold' := h.old pos hlt (by omega)
    split
    · rename_i hq
      have hout : ¬ ((s + done) % tagfsBlockSize ≤ pos % tagfsBlockSize ∧
          pos % tagfsBlockSize < (s + done) % tagfsBlockSize + n) := by
        unfold tagfsBlockSize at *
        omega
      rw [hold (hq ▸ hlt) _ (Nat.mod_lt _ tagfsBlockSize_pos) hout, ← hdisk _ hq, hold']
    · exact hold'
  · rw [hview]
    split
    · rename_i hq
      rw [hfresh (hq ▸ hle) _ (by unfold tagfsBlockSize at *; omega)]
    · refine h.gap pos hle hlt hs ?_
      unfold tagfsBlockSize at *
      omega

/-- All of `src` is written: the bytes of the file are those of the byte-array write. -/
theorem Written.bytes {es : List Extent} (h : Written v₀ s src src.length disk space (blocksOf es)) (hv : v₀.Ok)
    (hsrc : src ≠ []) (hzero : ∀ pos, v₀.size ≤ pos → pos < s → pos / tagfsBlockSize < (blocksOf v₀.extents).length →
    byteOf tagfsBlockSize v₀.disk (blocksOf v₀.extents) pos = some 0) : Covered es (max v₀.size (s + src.length)) ∧
    fileBytes disk es (max v₀.size (s + src.length)) = writeBytes v₀.bytes s src := by
  have hlen := length_pos_of_ne_nil hsrc
  have hlast := h.lt (i := src.length - 1) (by omega) le_rfl
  have hcov := hv.covered
  have hmore := h.more
  refine ⟨?_, ?_⟩
  · unfold Covered at *
    unfold tagfsBlockSize at *
    omega
  unfold fileBytes writeBytes
  have hsize : v₀.bytes.length = v₀.size := by simp [StoredFile.bytes, fileBytes]
  rw [hsize]
  refine map_congr_left fun pos hpos => ?_
  have hpos' := mem_range.mp hpos
  split
  · rename_i hin
    have hnew := h.new (pos - s) (by omega)
    rw [Nat.add_sub_cancel' hin.1] at hnew
    rw [hnew, getD_eq_getElem?_getD]
  rename_i hout
  by_cases hbelow : pos < v₀.size
  · rw [h.old pos (hcov.lt hbelow) hout, getD_eq_getElem?_getD]
    simp [StoredFile.bytes, fileBytes, hbelow]
  have hgap : pos < s := by omega
  have hnone : v₀.bytes.getD pos 0 = 0 := by
    rw [getD_eq_default]
    omega
  rw [hnone]
  by_cases hin : pos / tagfsBlockSize < (blocksOf v₀.extents).length
  · rw [h.old pos hin hout, hzero pos (by omega) hgap hin, getD_some]
  have hlt : pos / tagfsBlockSize < (blocksOf es).length := by
    unfold tagfsBlockSize at *
    omega
  rw [h.gap pos (by omega) hlt hgap (.inr hlen), getD_some]

end written

/-! ## The handlers -/

section handlers

variable {env : JobEnv} {v₀ v : StoredFile} {s : Nat} {src : List UInt8} {j : WriteJobData}

/-- When the job leaves a right file: what lies between the end of the file and the write is zero, and a snapshot finds
single blocks in the way of the write. -/
structure Writable (env : JobEnv) (v₀ : StoredFile) (s : Nat) (src : List UInt8) : Prop where
  tail : ∀ pos, v₀.size ≤ pos → pos < s → pos / tagfsBlockSize < (blocksOf v₀.extents).length →
    byteOf tagfsBlockSize v₀.disk (blocksOf v₀.extents) pos = some 0
  gap : ∀ b ∈ takeOnes (s / tagfsBlockSize - (blocksOf v₀.extents).length) v₀.space, ∀ o < tagfsBlockSize,
    v₀.disk b o = 0
  single : env.cowActive = true → ∀ pos, s ≤ pos → pos < s + src.length → ∀ i start,
    locate tagfsBlockSize v₀.extents pos 0 0 = (some i, start) → (v₀.extents.getD i ⟨0, 0⟩).count = 1

/-- The job has the file with `done` bytes written, and its metadata is the old one. -/
structure Working (v₀ : StoredFile) (s : Nat) (src : List UInt8) (done : Nat) (v : StoredFile) (j : WriteJobData) :
    Prop where
  written : Written v₀ s src done v.disk v.space (blocksOf j.extents)
  counts : j.extents.map Extent.count = v₀.extents.map Extent.count ++
    replicate ((blocksOf j.extents).length - (blocksOf v₀.extents).length) 1
  src_eq : j.src = src
  start_eq : j.startOffset = s
  fileSize_eq : j.fileSize = v₀.size
  extents_eq : v.extents = v₀.extents
  size_eq : v.size = v₀.size
  pending : j.allocPendingMeta = false → j.extents = v₀.extents

/-- The block the next byte goes to. -/
def nextBlock (s : Nat) (j : WriteJobData) : Nat :=
  (s + j.bytesDone) / tagfsBlockSize

/-- Before the block of the next byte is looked up. -/
structure Ready (v₀ : StoredFile) (s : Nat) (src : List UInt8) (v : StoredFile) (j : WriteJobData) : Prop where
  lt : j.bytesDone < src.length
  aligned : 0 < j.bytesDone → (s + j.bytesDone) % tagfsBlockSize = 0
  ahead : 0 < j.bytesDone → nextBlock s j ≤ (blocksOf j.extents).length
  fresh : j.ifAllocFresh = true → (blocksOf v₀.extents).length < (blocksOf j.extents).length ∧
    (blocksOf j.extents).length ≤ nextBlock s j + 1
  stale : j.ifAllocFresh = false → (blocksOf j.extents).length = (blocksOf v₀.extents).length ∨
    (blocksOf j.extents).length ≤ nextBlock s j
  gap : j.bytesDone = 0 → ∀ b ∈ takeOnes (s / tagfsBlockSize - (blocksOf j.extents).length) v.space,
    ∀ o < tagfsBlockSize, v.disk b o = 0
  untouched : ∀ k, nextBlock s j ≤ k → k < (blocksOf v₀.extents).length →
    (blocksOf j.extents)[k]? = (blocksOf v₀.extents)[k]?

/-- The block of the next byte is looked up. -/
structure Aimed (v₀ : StoredFile) (s : Nat) (src : List UInt8) (j : WriteJobData) : Prop where
  lt : j.bytesDone < src.length
  aligned : 0 < j.bytesDone → (s + j.bytesDone) % tagfsBlockSize = 0
  block : (blocksOf j.extents)[nextBlock s j]? = some j.ifDiskBlock
  off : j.ifOffInBlk = (s + j.bytesDone) % tagfsBlockSize
  chunk : j.ifChunk = min (tagfsBlockSize - j.ifOffInBlk) (src.length - j.bytesDone)
  whole : j.ifPartialRmw = false → j.ifOffInBlk = 0 ∧ j.ifChunk = tagfsBlockSize
  fresh : j.ifAllocFresh = true → (blocksOf v₀.extents).length ≤ nextBlock s j ∧
    (blocksOf j.extents).length = nextBlock s j + 1
  stale : j.ifAllocFresh = false → nextBlock s j < (blocksOf v₀.extents).length ∧
    (blocksOf j.extents).length = (blocksOf v₀.extents).length
  untouched : ∀ k, nextBlock s j < k → k < (blocksOf v₀.extents).length →
    (blocksOf j.extents)[k]? = (blocksOf v₀.extents)[k]?

/-- The block to be redirected is an extent of its own, still the file's. -/
def Redirectable (v₀ : StoredFile) (j : WriteJobData) : Prop :=
  j.ifAllocFresh = false ∧ j.ifCowOldBlock = j.ifDiskBlock ∧ v₀.space.Holds j.ifDiskBlock ∧
    ∃ pre post, j.extents = pre ++ ⟨j.ifDiskBlock, 1⟩ :: post ∧ j.ifExtentIdx = pre.length

/-- The job has left the file as it should be. -/
structure Published (v₀ : StoredFile) (s : Nat) (src : List UInt8) (v : StoredFile) : Prop where
  written : Written v₀ s src src.length v.disk v.space (blocksOf v.extents)
  size : v.size = max v₀.size (s + src.length)

/-- What holds before the handler of each state. -/
def JobOk (v₀ : StoredFile) (s : Nat) (src : List UInt8) (v : StoredFile) (j : WriteJobData) : Prop :=
  match j.state with
  | .locate => Working v₀ s src j.bytesDone v j ∧ Ready v₀ s src v j
  | .alloc => Working v₀ s src j.bytesDone v j ∧ Ready v₀ s src v j ∧ (blocksOf j.extents).length ≤ nextBlock s j
  | .cowBefore => Working v₀ s src j.bytesDone v j ∧ Aimed v₀ s src j ∧ Redirectable v₀ j
  | .cowReadOld => Working v₀ s src j.bytesDone v j ∧ Aimed v₀ s src j ∧ j.ifAllocFresh = false
  | .dmaFill => Working v₀ s src j.bytesDone v j ∧ Aimed v₀ s src j ∧
      (j.ifPartialRmw = true → (j.ifAllocFresh = true → ∀ o, j.dma o = 0) ∧
        (j.ifAllocFresh = false → ∀ o, j.dma o = v.disk j.ifDiskBlock o))
  | .ahciSubmit => Working v₀ s src j.bytesDone v j ∧ Aimed v₀ s src j ∧
      (∀ i < j.ifChunk, some (j.dma (j.ifOffInBlk + i)) = src[j.bytesDone + i]?) ∧
      ∀ o < tagfsBlockSize, ¬ (j.ifOffInBlk ≤ o ∧ o < j.ifOffInBlk + j.ifChunk) →
        (j.ifAllocFresh = true → j.dma o = 0) ∧ (j.ifAllocFresh = false → j.dma o = v.disk j.ifDiskBlock o)
  | .ahciDone => Working v₀ s src (j.bytesDone + j.ifChunk) v j ∧ Aimed v₀ s src j
  | .beginTxn | .logMeta => Working v₀ s src src.length v j
  | .cowAfter | .commitTxn | .publish | .releaseToken | .done => Published v₀ s src v
  | .error => True
  | .init | .tokenWait => False

theorem Working.locate_eq {done pos : Nat} (h : Working v₀ s src done v j)
    (hpos : pos / tagfsBlockSize < (blocksOf v₀.extents).length) :
    locate tagfsBlockSize j.extents pos 0 0 = locate tagfsBlockSize v₀.extents pos 0 0 := by
  refine locate_counts h.counts 0 (Nat.zero_le _) ?_
  rw [Nat.zero_add]
  exact (Nat.div_lt_iff_lt_mul tagfsBlockSize_pos).mp hpos

theorem Working.congr {done : Nat} {j' : WriteJobData} (h : Working v₀ s src done v j) (hext : j'.extents = j.extents)
    (hsrc : j'.src = j.src) (hstart : j'.startOffset = j.startOffset) (hsize : j'.fileSize = j.fileSize)
    (hpend : j'.allocPendingMeta = j.allocPendingMeta) : Working v₀ s src done v j' :=
  ⟨hext ▸ h.written, hext ▸ h.counts, hsrc.trans h.src_eq, hstart.trans h.start_eq, hsize.trans h.fileSize_eq,
    h.extents_eq, h.size_eq, fun hp => hext.trans (h.pending (hpend.symm.trans hp))⟩

theorem JobOk.locateBlock (hv : v₀.Ok) (hwr : Writable env v₀ s src) (hw : Working v₀ s src j.bytesDone v j)
    (hr : Ready v₀ s src v j) : JobOk v₀ s src v (j.locateBlock env) := by
  obtain rfl := hw.start_eq
  obtain rfl := hw.src_eq
  unfold WriteJobData.locateBlock
  by_cases hfound : nextBlock j.startOffset j < (blocksOf j.extents).length
  · obtain ⟨pre, e, post, hes, hloc, hmod, hlt, hdiv⟩ := locate_some tagfsBlockSize_pos hfound
    have hblock : (blocksOf j.extents)[nextBlock j.startOffset j]? =
        some (e.start + (j.startOffset + j.bytesDone - (blocksOf pre).length * tagfsBlockSize) / tagfsBlockSize) := by
      rw [hes, nextBlock, ← hdiv, getElem?_blocksOf hlt]
    have hgetD : j.extents.getD pre.length ⟨0, 0⟩ = e := by
      rw [hes]
      simp
    -- the job aims at the block, whatever it does next
    have haim : ∀ j' : WriteJobData, j'.extents = j.extents → j'.bytesDone = j.bytesDone →
        j'.ifAllocFresh = j.ifAllocFresh →
        j'.ifDiskBlock =
        e.start + (j.startOffset + j.bytesDone - (blocksOf pre).length * tagfsBlockSize) / tagfsBlockSize →
        j'.ifOffInBlk = (j.startOffset + j.bytesDone) % tagfsBlockSize →
        j'.ifChunk =
        min (tagfsBlockSize - (j.startOffset + j.bytesDone) % tagfsBlockSize) (j.src.length - j.bytesDone) →
        j'.ifPartialRmw = decide ((j.startOffset + j.bytesDone) % tagfsBlockSize ≠ 0 ∨
          min (tagfsBlockSize - (j.startOffset + j.bytesDone) % tagfsBlockSize) (j.src.length - j.bytesDone) ≠
            tagfsBlockSize) →
        Aimed v₀ j.startOffset j.src j' := by
      intro j' hext hdone hfresh hdisk hoff hchunk hpart
      have hnext : nextBlock j.startOffset j' = nextBlock j.startOffset j := by rw [nextBlock, nextBlock, hdone]
      refine ⟨hdone ▸ hr.lt, hdone ▸ hr.aligned, ?_, ?_, ?_, fun hw => ?_, fun hf => ?_, fun hf => ?_,
        fun k hk hlt' => ?_⟩
      · rw [hext, hnext, hblock, hdisk]
      · rw [hoff, hdone]
      · rw [hchunk, hoff, hdone]
      · rw [hpart, decide_eq_false_iff_not, not_or, not_not, not_not] at hw
        exact ⟨hoff.trans hw.1, hchunk.trans hw.2⟩
      · rw [hext, hnext]
        have := hr.fresh (hfresh.symm.trans hf)
        omega
      · rw [hext, hnext]
        have := hr.stale (hfresh.symm.trans hf)
        omega
      · rw [hext]
        rw [hnext] at hk
        exact hr.untouched k (by omega) hlt'
    simp only [hloc, hmod, hgetD, WriteJobData.totalBytes]
    split
    · rename_i hcow
      simp only [Bool.and_eq_true, Bool.not_eq_true'] at hcow
      have hq : nextBlock j.startOffset j < (blocksOf v₀.extents).length := by
        have := hr.stale hcow.1
        omega
      obtain ⟨pre', e', post', hes', hloc', -⟩ := locate_some tagfsBlockSize_pos hq
      have hone : e.count = 1 := by
        rw [hw.locate_eq hq, hloc', Prod.mk.injEq, some.injEq] at hloc
        rw [← hgetD, count_getD hw.counts (by rw [← hloc.1, hes', length_append, length_cons]; omega), ← hloc.1]
        have hlt := hr.lt
        exact hwr.single hcow.2 _ (by omega) (by omega) _ _ hloc'
      have hzero : (j.startOffset + j.bytesDone - (blocksOf pre).length * tagfsBlockSize) / tagfsBlockSize = 0 :=
        Nat.lt_one_iff.mp (hone ▸ hlt)
      refine ⟨hw.congr rfl rfl rfl rfl rfl, haim _ rfl rfl rfl rfl rfl rfl rfl, hcow.1, rfl, ?_, pre, post, ?_, rfl⟩
      · refine hv.held _ (mem_of_getElem? (i := nextBlock j.startOffset j) ?_)
        rw [← hr.untouched _ le_rfl hq]
        exact hblock
      · simp only [hzero, Nat.add_zero]
        rw [hes, ← hone]
    split
    · rename_i hrmw
      refine ⟨hw.congr rfl rfl rfl rfl rfl, haim _ rfl rfl rfl rfl rfl rfl rfl, ?_⟩
      simpa using (Bool.and_eq_true_iff.mp hrmw).2
    rename_i hrmw
    split
    · rename_i hpart
      refine ⟨hw.congr rfl rfl rfl rfl rfl, haim _ rfl rfl rfl rfl rfl rfl rfl, fun _ => ⟨fun _ _ => rfl, fun hf => ?_⟩⟩
      have hf' : j.ifAllocFresh = false := hf
      rw [hpart, hf'] at hrmw
      exact absurd rfl hrmw
    · rename_i hpart
      exact ⟨hw.congr rfl rfl rfl rfl rfl, haim _ rfl rfl rfl rfl rfl rfl rfl, fun hp => absurd hp hpart⟩
  · have hloc := locate_none tagfsBlockSize_pos (not_lt.mp hfound)
    simp only [hloc]
    exact ⟨hw.congr rfl rfl rfl rfl rfl,
      ⟨hr.lt, hr.aligned, hr.ahead, hr.fresh, hr.stale, hr.gap, hr.untouched⟩, not_lt.mp hfound⟩

theorem growExtents_eq_some {es es' : List Extent} {e : Extent} (h : growExtents es e = some es') :
    es' = es ++ [e] := by
  unfold growExtents at h
  split at h
  · cases h
  · exact (some.inj h).symm

/-- `w_alloc` puts a block behind the others. -/
theorem JobOk.allocBlockStep (hw : Working v₀ s src j.bytesDone v j) (hr : Ready v₀ s src v j)
    (hlen : (blocksOf j.extents).length ≤ nextBlock s j) :
    JobOk v₀ s src (j.allocBlockStep v).1 (j.allocBlockStep v).2 := by
  unfold WriteJobData.allocBlockStep
  split
  · exact trivial
  rename_i blk space halloc
  split
  · exact trivial
  split
  · exact trivial
  rename_i extents hgrown
  obtain rfl := growExtents_eq_some hgrown
  have hlt := hr.lt
  have hmore := hw.written.more
  have hblocks : blocksOf (j.extents ++ [⟨blk, 1⟩]) = blocksOf j.extents ++ [blk] := by simp [Extent.blocks_one]
  have htake : ∀ n, takeOnes (n + 1) v.space = blk :: takeOnes n space := fun n => by rw [takeOnes, halloc]
  have hgap : j.bytesDone = 0 → (blocksOf j.extents).length < s / tagfsBlockSize →
      ∀ o < tagfsBlockSize, v.disk blk o = 0 := by
    intro hzero hless
    refine hr.gap hzero blk ?_
    obtain ⟨n, hn⟩ : ∃ n, s / tagfsBlockSize - (blocksOf j.extents).length = n + 1 :=
      ⟨s / tagfsBlockSize - (blocksOf j.extents).length - 1, by omega⟩
    rw [hn, htake]
    exact mem_cons_self
  have hahead : 0 < j.bytesDone → s / tagfsBlockSize < (blocksOf j.extents).length := by
    intro hpos
    have halign := hr.aligned hpos
    have hle := hr.ahead hpos
    unfold nextBlock tagfsBlockSize at *
    omega
  refine ⟨⟨?_, ?_, hw.src_eq, hw.start_eq, hw.fileSize_eq, hw.extents_eq, hw.size_eq, nofun⟩,
    ⟨hr.lt, hr.aligned, fun hpos => ?_, fun _ => ?_, nofun, fun hzero b hb => ?_, fun k hk hlt' => ?_⟩⟩
  · rw [hblocks]
    exact hw.written.append (by omega) halloc hahead hgap
  · rw [hblocks, map_append, hw.counts, length_append, length_singleton, append_assoc,
      Nat.sub_add_comm hmore, replicate_succ']
    rfl
  · rw [hblocks, length_append]
    exact Nat.le_add_right_of_le (hr.ahead hpos)
  · rw [hblocks, length_append, length_singleton]
    exact ⟨by omega, Nat.add_le_add_right hlen 1⟩
  · rw [hblocks, length_append, length_singleton] at hb
    refine hr.gap hzero b ?_
    by_cases hless : (blocksOf j.extents).length < s / tagfsBlockSize
    · rw [show s / tagfsBlockSize - (blocksOf j.extents).length =
        s / tagfsBlockSize - ((blocksOf j.extents).length + 1) + 1 by omega, htake]
      exact mem_cons_of_mem _ hb
    · rw [show s / tagfsBlockSize - ((blocksOf j.extents).length + 1) = 0 by omega] at hb
      cases hb
  · rw [hblocks, getElem?_append_left (by omega)]
    exact hr.untouched k hk hlt'

/-- `w_cow_before` replaces a block by its copy. -/
theorem JobOk.cowBefore (hw : Working v₀ s src j.bytesDone v j) (ha : Aimed v₀ s src j) (hc : Redirectable v₀ j) :
    JobOk v₀ s src (j.cowBefore v).1 (j.cowBefore v).2 := by
  obtain ⟨hfresh, hold, hheld, pre, post, hes, hidx⟩ := hc
  unfold WriteJobData.cowBefore
  split
  · exact trivial
  rename_i newBlock v' hcow
  unfold cowBeforeWrite at hcow
  split at hcow
  · cases hcow
  split at hcow
  · cases hcow
  split at hcow
  · cases hcow
  rename_i freeBlock space halloc _
  simp only [some.injEq, Prod.mk.injEq] at hcow
  obtain ⟨rfl, rfl⟩ := hcow
  have hgetD : j.extents.getD j.ifExtentIdx ⟨0, 0⟩ = ⟨j.ifDiskBlock, 1⟩ := by
    rw [hes, hidx]
    simp
  have hset : j.extents.set j.ifExtentIdx ⟨freeBlock, 1⟩ = pre ++ ⟨freeBlock, 1⟩ :: post := by
    rw [hes, hidx]
    simp
  have hblocks :
      blocksOf (pre ++ ⟨freeBlock, 1⟩ :: post) = (blocksOf j.extents).set (blocksOf pre).length freeBlock := by
    rw [hes]
    simp [Extent.blocks_one]
  have hat : (blocksOf j.extents)[(blocksOf pre).length]? = some j.ifDiskBlock := by
    rw [hes]
    simp [Extent.blocks_one]
  have hlt : nextBlock s j < (blocksOf j.extents).length := (List.getElem?_eq_some_iff.mp ha.block).1
  have hnext : nextBlock s j = (blocksOf pre).length :=
    (getElem?_inj hlt hw.written.nodup).mp (ha.block.trans hat.symm)
  have hcounts : (pre ++ ⟨freeBlock, 1⟩ :: post).map Extent.count = j.extents.map Extent.count := by
    rw [hes]
    simp
  rw [hgetD]
  simp only [if_true, hset]
  -- the job goes on with the copy, which has the bytes of the block
  have hwork : ∀ j' : WriteJobData, j'.extents = pre ++ ⟨freeBlock, 1⟩ :: post → j'.src = j.src →
      j'.startOffset = j.startOffset → j'.fileSize = j.fileSize → j'.allocPendingMeta = true →
      Working v₀ s src j.bytesDone
        { v with space := space, disk := update v.disk freeBlock (v.disk j.ifCowOldBlock) } j' := by
    intro j' hext hsrc hstart hsize hpend
    refine ⟨?_, ?_, hsrc.trans hw.src_eq, hstart.trans hw.start_eq, hsize.trans hw.fileSize_eq, hw.extents_eq,
      hw.size_eq, fun hp => (nomatch hp.symm.trans hpend)⟩
    · rw [hext, hblocks, hold]
      exact hw.written.redirect halloc hat hheld
    · rw [hext, hcounts, hblocks, length_set, hw.counts]
  have haim : ∀ j' : WriteJobData, j'.extents = pre ++ ⟨freeBlock, 1⟩ :: post → j'.bytesDone = j.bytesDone →
      j'.ifDiskBlock = freeBlock → j'.ifOffInBlk = j.ifOffInBlk → j'.ifChunk = j.ifChunk →
      j'.ifPartialRmw = j.ifPartialRmw → j'.ifAllocFresh = j.ifAllocFresh → Aimed v₀ s src j' := by
    intro j' hext hdone hdisk hoff hchunk hpart hfr
    have hnext' : nextBlock s j' = nextBlock s j := by rw [nextBlock, nextBlock, hdone]
    refine ⟨hdone ▸ ha.lt, hdone ▸ ha.aligned, ?_, by rw [hoff, hdone, ha.off], by rw [hchunk, hoff, hdone, ha.chunk],
      fun hp => by rw [hoff, hchunk]; exact ha.whole (hpart.symm.trans hp), fun hf => ?_, fun hf => ?_,
      fun k hk hlt' => ?_⟩
    · rw [hext, hblocks, hnext', hnext, hdisk, getElem?_set_self (hnext ▸ hlt)]
    · cases hfresh.symm.trans (hfr.symm.trans hf)
    · rw [hext, hblocks, hnext', length_set]
      exact ha.stale hfresh
    · rw [hnext'] at hk
      rw [hext, hblocks, getElem?_set_ne (by omega)]
      exact ha.untouched k hk hlt'
  cases hp : j.ifPartialRmw with
  | true => exact ⟨hwork _ rfl rfl rfl rfl rfl, haim _ rfl rfl rfl rfl rfl (by simp [hp]) rfl, hfresh⟩
  | false =>
    exact ⟨hwork _ rfl rfl rfl rfl rfl, haim _ rfl rfl rfl rfl rfl (by simp [hp]) rfl, fun hp' => (nomatch hp')⟩

theorem Aimed.chunk_le (h : Aimed v₀ s src j) : j.ifOffInBlk + j.ifChunk ≤ tagfsBlockSize ∧ 0 < j.ifChunk ∧
    j.bytesDone + j.ifChunk ≤ src.length := by
  have hoff := Nat.mod_lt (s + j.bytesDone) tagfsBlockSize_pos
  have hlt := h.lt
  rw [h.chunk, h.off]
  omega

/-- `w_dma_fill` copies the bytes of the chunk over the page. -/
theorem Aimed.dmaFill (ha : Aimed v₀ s src j) (hsrc : j.src = src) (hbase : j.ifPartialRmw = true →
    (j.ifAllocFresh = true → ∀ o, j.dma o = 0) ∧ (j.ifAllocFresh = false → ∀ o, j.dma o = v.disk j.ifDiskBlock o)) :
    (∀ i < j.ifChunk, some (overlay j.dma j.ifOffInBlk ((j.src.drop j.bytesDone).take j.ifChunk) (j.ifOffInBlk + i)) =
      src[j.bytesDone + i]?) ∧
    ∀ o < tagfsBlockSize, ¬ (j.ifOffInBlk ≤ o ∧ o < j.ifOffInBlk + j.ifChunk) →
      (j.ifAllocFresh = true → overlay j.dma j.ifOffInBlk ((j.src.drop j.bytesDone).take j.ifChunk) o = 0) ∧
      (j.ifAllocFresh = false →
        overlay j.dma j.ifOffInBlk ((j.src.drop j.bytesDone).take j.ifChunk) o = v.disk j.ifDiskBlock o) := by
  obtain ⟨hle, hpos, hend⟩ := ha.chunk_le
  have hlen : ((j.src.drop j.bytesDone).take j.ifChunk).length = j.ifChunk := by
    rw [length_take, length_drop, hsrc]
    omega
  refine ⟨fun i hi => ?_, fun o ho hout => ?_⟩
  · rw [overlay_of_mem (Nat.le_add_right _ _) (by omega), Nat.add_sub_cancel_left, getElem?_take_of_lt hi,
      getElem?_drop, hsrc]
  · rw [overlay_of_notMem (by rwa [hlen])]
    have hpart : j.ifPartialRmw = true := by
      by_contra hno
      have := ha.whole (by simpa using hno)
      omega
    exact ⟨fun hf => (hbase hpart).1 hf o, fun hf => (hbase hpart).2 hf o⟩

theorem Working.store (hw : Working v₀ s src j.bytesDone v j) (ha : Aimed v₀ s src j)
    (hnew : ∀ i < j.ifChunk, some (j.dma (j.ifOffInBlk + i)) = src[j.bytesDone + i]?)
    (hrest : ∀ o < tagfsBlockSize, ¬ (j.ifOffInBlk ≤ o ∧ o < j.ifOffInBlk + j.ifChunk) →
    (j.ifAllocFresh = true → j.dma o = 0) ∧ (j.ifAllocFresh = false → j.dma o = v.disk j.ifDiskBlock o)) :
    Working v₀ s src (j.bytesDone + j.ifChunk) { v with disk := update v.disk j.ifDiskBlock j.dma } j := by
  obtain ⟨hle, hpos, -⟩ := ha.chunk_le
  have hoff := ha.off
  refine ⟨?_, hw.counts, hw.src_eq, hw.start_eq, hw.fileSize_eq, hw.extents_eq, hw.size_eq, hw.pending⟩
  refine hw.written.chunk ha.block (by omega) (fun i hi => ?_) (fun hq o ho hout => ?_) (fun hq o ho => ?_) fun hq => ?_
  · rw [← hoff]
    exact hnew i hi
  · rw [← hoff] at hout
    refine (hrest o ho hout).2 ?_
    by_contra hfresh
    have := (ha.fresh (by simpa using hfresh)).1
    unfold nextBlock at this
    omega
  · refine (hrest o (by omega) (by omega)).1 ?_
    by_contra hstale
    have := (ha.stale (by simpa using hstale)).1
    unfold nextBlock at this
    omega
  · by_cases hzero : j.bytesDone = 0
    · exact .inl hzero
    · exact .inr (ha.aligned (by omega))

theorem JobOk.advance (hw : Working v₀ s src (j.bytesDone + j.ifChunk) v j) (ha : Aimed v₀ s src j) :
    JobOk v₀ s src v { j with
      bytesDone := j.bytesDone + j.ifChunk, ifAllocFresh := false
      state := if j.totalBytes ≤ j.bytesDone + j.ifChunk then .beginTxn else .locate } := by
  obtain ⟨hle, hpos, hend⟩ := ha.chunk_le
  have htotal : j.totalBytes = src.length := by rw [WriteJobData.totalBytes, hw.src_eq]
  by_cases hdone : j.totalBytes ≤ j.bytesDone + j.ifChunk
  · simp only [if_pos hdone]
    have hall : j.bytesDone + j.ifChunk = src.length := by omega
    rw [hall] at hw
    exact hw.congr rfl rfl rfl rfl rfl
  simp only [if_neg hdone]
  have hchunk := ha.chunk
  have hoff := ha.off
  have hlt : nextBlock s j < (blocksOf j.extents).length := (List.getElem?_eq_some_iff.mp ha.block).1
  have hnext : (s + (j.bytesDone + j.ifChunk)) / tagfsBlockSize = nextBlock s j + 1 ∧
      (s + (j.bytesDone + j.ifChunk)) % tagfsBlockSize = 0 := by
    unfold nextBlock tagfsBlockSize at *
    omega
  refine ⟨hw.congr rfl rfl rfl rfl rfl, ⟨?_, fun _ => hnext.2, fun _ => ?_, nofun, fun _ => ?_,
    fun hzero => ?_, fun k hk hlt' => ?_⟩⟩
  · simp only
    omega
  · simp only [nextBlock]
    omega
  · simp only [nextBlock]
    cases hf : j.ifAllocFresh with
    | true =>
      have := ha.fresh hf
      omega
    | false => exact .inl (ha.stale hf).2
  · simp only at hzero
    omega
  · simp only [nextBlock] at hk
    exact ha.untouched k (by omega) hlt'

theorem JobOk.logMeta (hw : Working v₀ s src src.length v j) :
    JobOk v₀ s src (j.logMeta env v).1 (j.logMeta env v).2 := by
  have htotal : j.totalBytes = src.length := by rw [WriteJobData.totalBytes, hw.src_eq]
  unfold WriteJobData.logMeta
  split
  · rename_i hskip
    simp only [Bool.and_eq_true, Bool.not_eq_true', decide_eq_true_eq] at hskip
    have hend := hskip.2
    rw [hw.start_eq, htotal, hw.fileSize_eq] at hend
    refine ⟨?_, ?_⟩
    · rw [hw.extents_eq, ← hw.pending hskip.1]
      exact hw.written
    · rw [hw.size_eq]
      omega
  · simp only
    split
    · have hpub : Published v₀ s src
          { v with extents := j.extents, size := max v.size (j.startOffset + j.totalBytes) } := by
        refine ⟨hw.written, ?_⟩
        simp only [hw.size_eq, hw.start_eq, htotal]
      cases hred : j.ifCowRedirected with
      | true => exact hpub
      | false => exact hpub
    · exact trivial

theorem JobOk.step (hv : v₀.Ok) (hwr : Writable env v₀ s src) (h : JobOk v₀ s src v j) :
    JobOk v₀ s src (WriteJobData.step env (v, j)).1 (WriteJobData.step env (v, j)).2 := by
  unfold WriteJobData.step
  unfold JobOk at h
  simp only
  split <;> rename_i hstate <;> rw [hstate] at h
  · exact JobOk.locateBlock hv hwr h.1 h.2
  · exact JobOk.allocBlockStep h.1 h.2.1 h.2.2
  · exact JobOk.cowBefore h.1 h.2.1 h.2.2
  · obtain ⟨hw, ha, hfresh⟩ := h
    refine ⟨hw.congr rfl rfl rfl rfl rfl,
      ⟨ha.lt, ha.aligned, ha.block, ha.off, ha.chunk, ha.whole, ha.fresh, ha.stale, ha.untouched⟩,
      fun _ => ⟨fun hf => (nomatch hfresh.symm.trans hf), fun _ _ => rfl⟩⟩
  · obtain ⟨hw, ha, hbase⟩ := h
    exact ⟨hw.congr rfl rfl rfl rfl rfl,
      ⟨ha.lt, ha.aligned, ha.block, ha.off, ha.chunk, ha.whole, ha.fresh, ha.stale, ha.untouched⟩,
      ha.dmaFill hw.src_eq hbase⟩
  · obtain ⟨hw, ha, hnew, hrest⟩ := h
    exact ⟨(hw.store ha hnew hrest).congr rfl rfl rfl rfl rfl,
      ⟨ha.lt, ha.aligned, ha.block, ha.off, ha.chunk, ha.whole, ha.fresh, ha.stale, ha.untouched⟩⟩
  · exact JobOk.advance h.1 h.2
  · exact h.congr rfl rfl rfl rfl rfl
  · exact JobOk.logMeta h
  · exact ⟨h.written, h.size⟩
  · exact h
  · exact h
  · exact h
  · exact h.elim
  · exact h.elim
  · simpa [JobOk, hstate] using h
  · simp [JobOk, hstate]

end handlers

end BoxOS.Storage
