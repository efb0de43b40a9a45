import BoxOS.Storage.WriteJobFail
import BoxOS.Storage.WriteJobRun

/-!
# What a failed write gives back

Until its metadata is written a job holds the blocks that it put into its handle (`Held`). When a handler fails, the
blocks given back are the last one of `w_alloc`, which the job remembers, and one that the failing handler had just
taken itself. So a failed job returns exactly what it took if and only if it took one block with `w_alloc` at most and
no copy, and did not fail for the extent array of `w_alloc`, where both the handler and `wjob_finalize` free the block
(`failed_job_returns_blocks`).
-/

namespace BoxOS.Storage

open Lib TagFS List

namespace FailingJob

variable {x y : FailingJob} {a : JobAnswers}

/-- A job that has not failed and whose metadata is not written. -/
structure Held (x : FailingJob) : Prop where
  space : x.file.space.Inv
  recorded : ∀ b ∈ x.recorded, x.file.space.Holds b
  held : ∀ b ∈ x.fresh ++ x.copies, x.file.space.Holds b
  apart : ∀ b ∈ x.fresh ++ x.copies, b ∉ x.recorded
  nodup : (x.fresh ++ x.copies).Nodup
  allocated : ∀ b, b ∈ x.allocated ↔ b ∈ x.fresh ++ x.copies
  freed : x.freed = []
  forgotten : x.fresh = [] → x.allocCount = 0
  /-- the job remembers the last block of `w_alloc` -/
  remembered : ∀ b, x.fresh.getLast? = some b →
    x.allocCount = 1 ∧ x.job.allocPendingMeta = true ∧ x.job.allocBlock = b

/-- The metadata is written, or needs not be. -/
def Committed (x : FailingJob) : Prop :=
  x.job.state = .cowAfter ∨ x.job.state = .commitTxn ∨ x.job.state = .publish ∨ x.job.state = .releaseToken ∨
    x.job.state = .done

/-! ## Handlers that do not fail -/

/-- The parts of a job that its blocks depend on. -/
structure SameBlocks (x y : FailingJob) : Prop where
  space : y.file.space = x.file.space
  extents : y.file.extents = x.file.extents
  pending : y.job.allocPendingMeta = x.job.allocPendingMeta
  block : y.job.allocBlock = x.job.allocBlock
  count : y.allocCount = x.allocCount
  failed : y.failed = x.failed
  allocated : y.allocated = x.allocated
  freed : y.freed = x.freed
  fresh : y.fresh = x.fresh
  copies : y.copies = x.copies

theorem Held.same (h : x.Held) (hs : x.SameBlocks y) : y.Held := by
  have hrec : y.recorded = x.recorded := congrArg blocksOf hs.extents
  constructor
  · rw [hs.space]
    exact h.space
  · rw [hs.space, hrec]
    exact h.recorded
  · rw [hs.space, hs.fresh, hs.copies]
    exact h.held
  · rw [hs.fresh, hs.copies, hrec]
    exact h.apart
  · rw [hs.fresh, hs.copies]
    exact h.nodup
  · rw [hs.allocated, hs.fresh, hs.copies]
    exact h.allocated
  · rw [hs.freed]
    exact h.freed
  · rw [hs.fresh, hs.count]
    exact h.forgotten
  · rw [hs.fresh, hs.count, hs.pending, hs.block]
    exact h.remembered

theorem locateBlock_same (env : JobEnv) (j : WriteJobData) :
    (j.locateBlock env).allocPendingMeta = j.allocPendingMeta ∧ (j.locateBlock env).allocBlock = j.allocBlock := by
  unfold WriteJobData.locateBlock
  dsimp only
  split
  · exact ⟨rfl, rfl⟩
  · split_ifs <;> exact ⟨rfl, rfl⟩

theorem served_same (halloc : x.job.state ≠ .alloc) (hcow : x.job.state ≠ .cowBefore) (hmeta : x.job.state ≠ .logMeta) :
    x.SameBlocks (x.served a) := by
  have hstep : ∃ r, WriteJobData.step ⟨a.cowActive, fun _ _ => true⟩ (x.file, x.job) = r ∧
      r.1.space = x.file.space ∧ r.1.extents = x.file.extents ∧ r.2.allocPendingMeta = x.job.allocPendingMeta ∧
      r.2.allocBlock = x.job.allocBlock := by
    simp only [WriteJobData.step, exists_eq_left']
    cases hstate : x.job.state with
    | alloc => exact absurd hstate halloc
    | cowBefore => exact absurd hstate hcow
    | logMeta => exact absurd hstate hmeta
    | locate =>
      obtain ⟨hpending, hblock⟩ := locateBlock_same ⟨a.cowActive, fun _ _ => true⟩ x.job
      exact ⟨rfl, rfl, hpending, hblock⟩
    | _ => exact ⟨rfl, rfl, rfl, rfl⟩
  obtain ⟨r, heq, hspace, hextents, hpending, hblock⟩ := hstep
  have hserved : x.served a = { x with file := r.1, job := r.2 } := by rw [served, heq]
  rw [hserved]
  exact ⟨hspace, hextents, hpending, hblock, rfl, rfl, rfl, rfl, rfl, rfl⟩

theorem Committed.step (h : x.Committed) (hfailed : x.failed = false) :
    (x.step a).Committed ∧ (x.step a).failed = false := by
  unfold FailingJob.step
  rw [if_neg (by simp [hfailed])]
  rcases h with hs | hs | hs | hs | hs <;> simp only [hs]
  · exact ⟨.inr (.inl (by simp [served, WriteJobData.step, hs])), hfailed⟩
  · exact ⟨.inr (.inr (.inl (by simp [served, WriteJobData.step, hs]))), hfailed⟩
  · exact ⟨.inr (.inr (.inr (.inl (by simp [served, WriteJobData.step, hs])))), hfailed⟩
  · exact ⟨.inr (.inr (.inr (.inr (by simp [served, WriteJobData.step, hs])))), hfailed⟩
  · exact ⟨.inr (.inr (.inr (.inr (by simp [served, WriteJobData.step, hs])))), hfailed⟩

theorem served_committed (hmeta : x.job.state = .logMeta) : (x.served a).Committed := by
  have hstate : (x.served a).job.state = .commitTxn ∨ (x.served a).job.state = .cowAfter := by
    simp only [served, WriteJobData.step, hmeta, WriteJobData.logMeta, if_true]
    split
    · exact .inl rfl
    dsimp only
    split
    · exact .inr rfl
    · exact .inl rfl
  rcases hstate with h | h
  · exact .inr (.inl h)
  · exact .inl h

/-! ## Handlers that fail -/

theorem finalize_freed (x : FailingJob) :
    x.finalize.freed = x.freed ++ (if x.job.allocPendingMeta ∧ 0 < x.allocCount then [x.job.allocBlock] else []) ∧
    x.finalize.allocated = x.allocated ∧ x.finalize.recorded = x.recorded ∧ x.finalize.failed = true := by
  unfold finalize
  split
  · exact ⟨rfl, rfl, rfl, rfl⟩
  · exact ⟨(append_nil _).symm, rfl, rfl, rfl⟩

theorem Held.last (h : x.Held) :
    (if x.job.allocPendingMeta ∧ 0 < x.allocCount then [x.job.allocBlock] else []) = x.fresh.getLast?.toList := by
  cases hlast : x.fresh.getLast? with
  | none =>
    have hcount := h.forgotten (getLast?_eq_none_iff.mp hlast)
    rw [if_neg (by omega)]
    rfl
  | some b =>
    obtain ⟨hcount, hpending, hblock⟩ := h.remembered b hlast
    rw [if_pos ⟨hpending, by omega⟩, hblock]
    rfl

/-- A job that took the blocks `taken` in its last step and freed them, and then the remembered one. -/
theorem Held.returns_iff (h : x.Held) {taken : List Nat} (htaken : taken.Nodup)
    (hnew : ∀ b ∈ taken, b ∉ x.fresh ++ x.copies ∧ b ∉ x.recorded) (hrec : y.recorded = x.recorded)
    (hall : ∀ b, b ∈ y.allocated ↔ b ∈ x.fresh ++ x.copies ∨ b ∈ taken)
    (hfreed : y.freed = taken ++ x.fresh.getLast?.toList) : y.ReturnsBlocks ↔ x.fresh.length ≤ 1 ∧ x.copies = [] := by
  have hlast : ∀ b, b ∈ x.fresh.getLast?.toList → b ∈ x.fresh := fun b hb =>
    mem_of_getLast? (Option.mem_toList.mp hb)
  constructor
  · intro hret
    -- a block in the handle was given back, so it is the last one of `w_alloc`
    have hback : ∀ b ∈ x.fresh ++ x.copies, b ∈ x.fresh.getLast?.toList := by
      intro b hb
      have hcount := hret.once b ((hall b).mpr (.inl hb)) (hrec ▸ h.apart b hb)
      have hin : b ∈ y.freed := count_pos_iff.mp (by omega)
      rw [hfreed] at hin
      exact (mem_append.mp hin).resolve_left fun ht => (hnew b ht).1 hb
    have hshort : (x.fresh ++ x.copies).length ≤ 1 := by
      have hsub := (Nodup.subperm h.nodup hback).length_le
      refine hsub.trans ?_
      cases x.fresh.getLast? <;> simp
    rw [length_append] at hshort
    refine ⟨by omega, ?_⟩
    cases hcopies : x.copies with
    | nil => rfl
    | cons c rest =>
      have hfresh : x.fresh = [] := length_eq_zero_iff.mp (by rw [hcopies] at hshort; simp at hshort; omega)
      have hc := hlast c (hback c (by simp [hcopies]))
      rw [hfresh] at hc
      cases hc
  · rintro ⟨hfresh, hcopies⟩
    have hsame : x.fresh.getLast?.toList = x.fresh := by
      match hf : x.fresh, hfresh with
      | [], _ => rfl
      | [b], _ => rfl
    rw [hsame] at hfreed
    have hdisjoint : ∀ b ∈ taken, b ∉ x.fresh := fun b hb hin => (hnew b hb).1 (mem_append_left _ hin)
    have hnodup : y.freed.Nodup := by
      rw [hfreed]
      refine nodup_append.mpr ⟨htaken, (nodup_append.mp h.nodup).1, fun b hb c hc heq => ?_⟩
      exact hdisjoint b hb (heq ▸ hc)
    refine ⟨fun b hb _ => ?_, hnodup, fun b hb => ?_⟩
    · refine count_eq_one_of_mem hnodup ?_
      rw [hfreed]
      rcases (hall b).mp hb with hin | hin
      · rw [hcopies, append_nil] at hin
        exact mem_append_right _ hin
      · exact mem_append_left _ hin
    · rw [hfreed] at hb
      rw [hrec]
      rcases mem_append.mp hb with hin | hin
      · exact (hnew b hin).2
      · exact h.apart b (mem_append_left _ hin)

/-- A step leaves a job that has not failed with the invariant, or one that has failed and returned its blocks just when
`Returnable` says so. -/
def Outcome (x : FailingJob) (a : JobAnswers) (y : FailingJob) : Prop :=
  (y.failed = false ∧ (y.Held ∨ y.Committed)) ∨ (y.failed = true ∧ (y.ReturnsBlocks ↔ x.Returnable a))

theorem Held.finalize (h : x.Held) (hgives : x.gives a = none) : x.Outcome a x.finalize := by
  obtain ⟨hfreed, hall, hrec, hfailed⟩ := finalize_freed x
  have hreturns : x.finalize.ReturnsBlocks ↔ x.fresh.length ≤ 1 ∧ x.copies = [] := by
    refine h.returns_iff nodup_nil (by simp) hrec (fun b => ?_) ?_
    · rw [hall, h.allocated]
      simp
    · rw [hfreed, h.freed, h.last]
  refine .inr ⟨hfailed, hreturns.trans ⟨fun ⟨hfresh, hcopies⟩ => ?_, fun hr => ⟨hr.fresh, hr.copies⟩⟩⟩
  exact ⟨hfresh, hcopies, fun _ => hgives, by simp [hgives]⟩

/-- A block that the allocator gives to a job. -/
structure NewBlock (x : FailingJob) (blk : Nat) (space : Space) : Prop where
  inv : space.Inv
  holds : ∀ c, space.Holds c ↔ x.file.space.Holds c ∨ c = blk
  unheld : blk ∉ x.fresh ++ x.copies
  unrecorded : blk ∉ x.recorded

theorem Held.newBlock (h : x.Held) {blk : Nat} {space : Space} (htake : x.takeBlock a = some (blk, space)) :
    x.NewBlock blk space := by
  unfold takeBlock at htake
  split at htake
  · obtain ⟨hinv, hfree, hholds⟩ := alloc_one h.space htake
    exact ⟨hinv, hholds, fun hin => hfree (h.held blk hin), fun hin => hfree (h.recorded blk hin)⟩
  · cases htake

theorem Held.lost (h : x.Held) {blk : Nat} {space : Space} (hnew : x.NewBlock blk space) :
    ¬ (x.taken blk space).finalize.ReturnsBlocks := by
  obtain ⟨hfreed, hall, hrec, -⟩ := finalize_freed (x.taken blk space)
  intro hret
  have hone := hret.once blk (by rw [hall]; simp [taken]) (hrec ▸ hnew.unrecorded)
  have hin : blk ∈ (x.taken blk space).finalize.freed := count_pos_iff.mp (by omega)
  have heq : (x.taken blk space).finalize.freed = x.fresh.getLast?.toList := by
    rw [hfreed, ← h.last]
    simp only [taken, h.freed, nil_append]
  rw [heq] at hin
  exact hnew.unheld (mem_append_left _ (mem_of_getLast? (Option.mem_toList.mp hin)))

theorem Held.alloc (h : x.Held) (hfailed : x.failed = false) (hstate : x.job.state = .alloc) :
    x.Outcome a (x.alloc a) := by
  have hgives : x.gives a = (x.takeBlock a).map Prod.fst := by rw [gives, hstate]
  unfold FailingJob.alloc
  cases htake : x.takeBlock a with
  | none => exact h.finalize (by rw [hgives, htake]; rfl)
  | some r =>
    obtain ⟨blk, space⟩ := r
    have hnew := h.newBlock htake
    have hnot : ¬ x.Returnable a := fun hr => by
      have hnone := hr.alloc hstate
      rw [hgives, htake] at hnone
      cases hnone
    dsimp only
    by_cases hzero : blk = 0
    · rw [if_pos hzero]
      exact .inr ⟨(finalize_freed _).2.2.2, iff_of_false (h.lost hnew) hnot⟩
    rw [if_neg hzero]
    split
    · -- both the handler and `wjob_finalize` free the block
      refine .inr ⟨(finalize_freed _).2.2.2, iff_of_false (fun hret => ?_) hnot⟩
      have hnodup := hret.fresh
      rw [(finalize_freed _).1] at hnodup
      simp [freeBlock, taken, h.freed] at hnodup
    refine .inl ⟨hfailed, .inl ?_⟩
    have hsub : ∀ b, b ∈ (x.fresh ++ [blk]) ++ x.copies ↔ b ∈ x.fresh ++ x.copies ∨ b = blk := by
      intro b
      simp only [mem_append, mem_singleton]
      tauto
    refine ⟨hnew.inv, fun b hb => (hnew.holds b).mpr (.inl (h.recorded b hb)), fun b hb => (hnew.holds b).mpr ?_,
      fun b hb => ?_, ?_, fun b => ?_, h.freed, fun hnil => ?_, fun b hb => ?_⟩
    · exact ((hsub b).mp hb).imp_left (h.held b)
    · rcases (hsub b).mp hb with hold | rfl
      · exact h.apart b hold
      · exact hnew.unrecorded
    · have hperm : ((x.fresh ++ [blk]) ++ x.copies).Perm (blk :: (x.fresh ++ x.copies)) := by
        rw [append_assoc]
        exact perm_middle
      exact hperm.nodup_iff.mpr (nodup_cons.mpr ⟨hnew.unheld, h.nodup⟩)
    · refine Iff.trans ?_ (hsub b).symm
      simp only [taken, mem_append, mem_singleton]
      exact or_congr_left (by rw [h.allocated, mem_append])
    · simp at hnil
    · rw [getLast?_concat] at hb
      exact ⟨rfl, rfl, Option.some.inj hb⟩

/-- A handler that took a block and freed it fails. -/
theorem Held.giveBack (h : x.Held) {blk : Nat} {space : Space} (hnew : x.NewBlock blk space)
    (hfile : y.file.extents = x.file.extents) (hpending : y.job.allocPendingMeta = x.job.allocPendingMeta)
    (hblock : y.job.allocBlock = x.job.allocBlock) (hcount : y.allocCount = x.allocCount)
    (hall : y.allocated = x.allocated ++ [blk]) (hfreed : y.freed = x.freed) (hstate : x.job.state ≠ .alloc)
    (hgives : x.gives a ≠ some 0) : x.Outcome a (y.freeBlock blk).finalize := by
  obtain ⟨hfreed', hall', hrec', hfailed⟩ := finalize_freed (y.freeBlock blk)
  have hreturns : (y.freeBlock blk).finalize.ReturnsBlocks ↔ x.fresh.length ≤ 1 ∧ x.copies = [] := by
    refine h.returns_iff (nodup_singleton blk) (fun b hb => ?_)
      (hrec'.trans (congrArg blocksOf hfile)) (fun b => ?_) ?_
    · rw [mem_singleton.mp hb]
      exact ⟨hnew.unheld, hnew.unrecorded⟩
    · rw [hall', show (y.freeBlock blk).allocated = y.allocated from rfl, hall, mem_append, h.allocated]
    · rw [hfreed', ← h.last]
      simp only [freeBlock, hfreed, h.freed, nil_append, hpending, hblock, hcount]
  refine .inr ⟨hfailed, hreturns.trans ⟨fun ⟨hfresh, hcopies⟩ => ?_, fun hr => ⟨hr.fresh, hr.copies⟩⟩⟩
  exact ⟨hfresh, hcopies, fun hs => absurd hs hstate, hgives⟩

theorem Held.cowBefore (h : x.Held) (hfailed : x.failed = false) (hstate : x.job.state = .cowBefore) :
    x.Outcome a (x.cowBefore a) := by
  have hgives : x.gives a =
      if x.job.ifCowOldBlock = 0 ∨ a.cowRead = false then none else (x.takeBlock a).map Prod.fst := by
    rw [gives, hstate]
  have halloc : x.job.state ≠ .alloc := by simp [hstate]
  unfold FailingJob.cowBefore cowBeforeWrite
  by_cases hread : x.job.ifCowOldBlock = 0 ∨ a.cowRead = false
  · rw [if_pos hread] at hgives ⊢
    exact h.finalize hgives
  rw [if_neg hread] at hgives ⊢
  cases htake : x.takeBlock a with
  | none => exact h.finalize (by rw [hgives, htake]; rfl)
  | some r =>
    obtain ⟨blk, space⟩ := r
    have hnew := h.newBlock htake
    rw [htake, Option.map_some] at hgives
    dsimp only
    by_cases hzero : blk = 0
    · rw [if_pos hzero]
      exact .inr ⟨(finalize_freed _).2.2.2, iff_of_false (h.lost hnew) fun hr => hr.block (by rw [hgives, hzero])⟩
    have hother : x.gives a ≠ some 0 := by simp [hgives, hzero]
    rw [if_neg hzero]
    by_cases hwrite : a.cowWrite = false
    · rw [if_pos hwrite]
      -- `TagFS_CowBeforeWrite` has freed the copy, `w_cow_before` gives an error
      exact h.giveBack hnew rfl rfl rfl rfl rfl rfl halloc hother
    rw [if_neg hwrite]
    dsimp only
    split
    · exact h.giveBack hnew rfl rfl rfl rfl rfl rfl halloc hother
    refine .inl ⟨hfailed, .inl ?_⟩
    have hsub : ∀ b, b ∈ x.fresh ++ (x.copies ++ [blk]) ↔ b ∈ x.fresh ++ x.copies ∨ b = blk := by
      intro b
      simp only [mem_append, mem_singleton]
      tauto
    refine ⟨hnew.inv, fun b hb => (hnew.holds b).mpr (.inl (h.recorded b hb)), fun b hb => (hnew.holds b).mpr ?_,
      fun b hb => ?_, ?_, fun b => ?_, h.freed, h.forgotten, fun b hb => ?_⟩
    · exact ((hsub b).mp hb).imp_left (h.held b)
    · rcases (hsub b).mp hb with hold | rfl
      · exact h.apart b hold
      · exact hnew.unrecorded
    · show (x.fresh ++ (x.copies ++ [blk])).Nodup
      rw [← append_assoc]
      exact (perm_append_singleton blk _).nodup_iff.mpr (nodup_cons.mpr ⟨hnew.unheld, h.nodup⟩)
    · refine Iff.trans ?_ (hsub b).symm
      simp only [taken, mem_append, mem_singleton]
      exact or_congr_left (by rw [h.allocated, mem_append])
    · obtain ⟨hcount, -, hblock⟩ := h.remembered b hb
      exact ⟨hcount, rfl, hblock⟩

/-! ## Runs -/

theorem Held.step (h : x.Held) (hfailed : x.failed = false) : x.Outcome a (x.step a) := by
  unfold FailingJob.step
  rw [if_neg (by simp [hfailed])]
  have hserved : x.job.state ≠ .alloc → x.job.state ≠ .cowBefore → x.job.state ≠ .logMeta → x.Outcome a (x.served a) :=
    fun halloc hcow hmeta => .inl ⟨hfailed, .inl (h.same (served_same halloc hcow hmeta))⟩
  cases hstate : x.job.state with
  | alloc => exact h.alloc hfailed hstate
  | cowBefore => exact h.cowBefore hfailed hstate
  | cowReadOld =>
    dsimp only
    unfold cowReadOld
    split_ifs
    · exact h.finalize (by rw [gives, hstate])
    · exact .inl ⟨hfailed, .inl (h.same ⟨rfl, rfl, rfl, rfl, rfl, rfl, rfl, rfl, rfl, rfl⟩)⟩
    · exact hserved (by simp [hstate]) (by simp [hstate]) (by simp [hstate])
  | ahciSubmit =>
    dsimp only
    unfold ahciSubmit
    split_ifs
    · exact h.finalize (by rw [gives, hstate])
    · exact .inl ⟨hfailed, .inl (h.same ⟨rfl, rfl, rfl, rfl, rfl, rfl, rfl, rfl, rfl, rfl⟩)⟩
    · have hsame : x.SameBlocks (x.served a) := served_same (by simp [hstate]) (by simp [hstate]) (by simp [hstate])
      exact .inl ⟨hfailed,
        .inl (h.same ⟨hsame.space, hsame.extents, hsame.pending, hsame.block, hsame.count, hsame.failed,
        hsame.allocated, hsame.freed, hsame.fresh, hsame.copies⟩)⟩
  | ahciDone =>
    dsimp only
    split
    · exact hserved (by simp [hstate]) (by simp [hstate]) (by simp [hstate])
    · exact h.finalize (by rw [gives, hstate])
  | logMeta =>
    dsimp only
    unfold logMeta
    split_ifs
    · exact .inl ⟨hfailed, .inr (served_committed hstate)⟩
    · exact .inl ⟨hfailed, .inr (served_committed hstate)⟩
    · exact h.finalize (by rw [gives, hstate])
  | _ => exact hserved (by simp [hstate]) (by simp [hstate]) (by simp [hstate])

theorem step_failed (h : x.failed = true) : x.step a = x :=
  if_pos h

theorem run_held (as : List JobAnswers) (h : x.Held ∨ x.Committed) (hfailed : (x.run as).failed = false) :
    (x.run as).Held ∨ (x.run as).Committed := by
  induction as using List.reverseRecOn with
  | nil => exact h
  | append_singleton as a ih =>
    have hrun : x.run (as ++ [a]) = (x.run as).step a := foldl_concat ..
    rw [hrun] at hfailed ⊢
    cases hbefore : (x.run as).failed with
    | true =>
      rw [step_failed hbefore, hbefore] at hfailed
      cases hfailed
    | false =>
      rcases ih hbefore with hheld | hdone
      · rcases hheld.step hbefore (a := a) with ⟨-, hout⟩ | ⟨hfail, -⟩
        · exact hout
        · rw [hfail] at hfailed
          cases hfailed
      · exact .inr (hdone.step hbefore).1

theorem submitted_held {v : StoredFile} (hs : v.space.Inv) (hheld : ∀ b ∈ blocksOf v.extents, v.space.Holds b)
    (start : Nat) (src : List UInt8) : (submitted v start src).Held := by
  refine ⟨hs, hheld, ?_, ?_, nodup_nil, ?_, rfl, fun _ => rfl, ?_⟩ <;> simp [submitted]

/-- A failing handler returns the blocks that the write took, each once, if and only if the handle has one block from
`w_alloc` at most and no copy, the handler is not a `w_alloc` that got a block, and it was not given block 0. -/
theorem failed_job_returns_blocks (v : StoredFile) (hs : v.space.Inv)
    (hheld : ∀ b ∈ blocksOf v.extents, v.space.Holds b) (start : Nat) (src : List UInt8) (as : List JobAnswers)
    (a : JobAnswers) (hrun : ((submitted v start src).run as).failed = false)
    (hfail : (((submitted v start src).run as).step a).failed = true) :
    (((submitted v start src).run as).step a).ReturnsBlocks ↔ ((submitted v start src).run as).Returnable a := by
  rcases run_held as (.inl (submitted_held hs hheld start src)) hrun with h | h
  · rcases h.step hrun (a := a) with ⟨hok, -⟩ | ⟨-, hiff⟩
    · rw [hok] at hfail
      cases hfail
    · exact hiff
  · rw [(h.step hrun).2] at hfail
    cases hfail

/-- Everything is served, and there is no snapshot. -/
def allServed : JobAnswers :=
  ⟨false, true, true, true, true, true, true, true⟩

/-- A write of one byte whose metadata cannot be written. -/
theorem failed_job_returns_blocks_one :
    let x := (submitted emptyStored 0 [7]).run (replicate 7 allServed)
    (x.step { allServed with metadata := false }).ReturnsBlocks := by
  refine (failed_job_returns_blocks emptyStored eightBlocks_inv (by decide) 0 [7] (replicate 7 allServed)
    { allServed with metadata := false } (by decide +kernel) (by decide +kernel)).mpr ?_
  exact ⟨by decide +kernel, by decide +kernel, fun _ => by decide +kernel, by decide +kernel⟩

/-- Where `kmalloc` fails in `w_alloc` the block is freed twice, and a write that took two blocks keeps the first of
them when the disk takes no command. -/
theorem failed_job_frees_twice_or_keeps :
    let once := (submitted emptyStored 0 [7]).run [allServed]
    let twice := (submitted emptyStored tagfsBlockSize [7]).run (replicate 6 allServed)
    ((once.step { allServed with extents := false }).failed = true ∧
      ¬ (once.step { allServed with extents := false }).ReturnsBlocks) ∧
    ((twice.step { allServed with submit := false }).failed = true ∧
      ¬ (twice.step { allServed with submit := false }).ReturnsBlocks) := by
  refine ⟨⟨by decide +kernel, fun hret => ?_⟩, ⟨by decide +kernel, fun hret => ?_⟩⟩
  · have htwice :
        ¬ (((submitted emptyStored 0 [7]).run [allServed]).step { allServed with extents := false }).freed.Nodup := by
      decide +kernel
    exact htwice hret.fresh
  · have hone := hret.once 3 (by decide +kernel) (by decide +kernel)
    revert hone
    decide +kernel

end FailingJob

end BoxOS.Storage
