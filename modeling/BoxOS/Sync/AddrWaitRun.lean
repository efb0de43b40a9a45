import BoxOS.Sync.AddrWaitStep

/-!
# One answer for every park, and no wake-up is lost

`addr_wait_exact` is about every run of parks, wakes and timeouts in which a strand parks again only after its answer
and every answer has room: what the books of every strand say, what a wake and a timeout complete, and that no strand
stays parked on a value that was gone before a wake of all.
-/

set_option linter.unusedSectionVars false

open Function (update update_of_ne update_self)

namespace BoxOS.Sync

open List

section

variable {σ α : Type} [DecidableEq σ] [DecidableEq α] {translate : Nat → Nat → Nat} {space : σ → Nat}
  {s t : WaitState σ α} {p : σ} {a : α}

/-- A run of strands, wakers, timeouts and the clock whose every step meets the conditions. -/
abbrev WaitRun (translate : Nat → Nat → Nat) (space : σ → Nat) :
    WaitState σ α → List (WaitEvent σ α) → WaitState σ α → Prop :=
  Lib.Run (WaitStep translate space) fun s e => s.meets e

/-! ## The books of a strand -/

/-- The strand itself returns with the answer. -/
def WaitState.Replies (s : WaitState σ α) (p : σ) : Prop :=
  match s.pc p with
  | .resumeChanged _ => True
  | .reply _ _ => True
  | _ => False

structure ParkOk (s : WaitState σ α) (p : σ) : Prop where
  /-- the `k`-th answer has the cookie of the `k`-th park -/
  cookies : (s.answers p).map (·.1) <+: s.parks p
  /-- and says how that park was completed -/
  codes : (s.answers p).map (·.2) <+: s.completions p
  once : (s.completions p).length ≤ (s.parks p).length ∧ (s.parks p).length ≤ (s.answers p).length + 1
  owed : (s.answers p).length < (s.completions p).length ↔ s.Replies p ∨ ∃ a, p ∈ (s.thread a).owes
  one : (s.Replies p → s.NotHeld p) ∧ (∀ a a', p ∈ (s.thread a).owes → p ∈ (s.thread a').owes → a = a') ∧
    ∀ a, (s.thread a).owes.count p ≤ 1
  awake : s.Awake p

/-- What the books of a strand say, and who owes it an answer. -/
theorem WaitInv.standing (h : WaitInv space s) (p : σ) : ∃ st, s.Stands p st ∧ match st with
    | .owed _ _ => (s.Replies p ∧ s.NotHeld p) ∨ (¬s.Replies p ∧ ∃ a, p ∈ (s.thread a).owes)
    | _ => ¬s.Replies p ∧ s.NotHeld p := by
  have hs := h.strand p
  have hrests : s.Rests p → ¬s.Replies p → ∃ st, s.Stands p st ∧ match st with
      | .owed _ _ => (s.Replies p ∧ s.NotHeld p) ∨ (¬s.Replies p ∧ ∃ a, p ∈ (s.thread a).owes)
      | _ => ¬s.Replies p ∧ s.NotHeld p := fun hr hno => by
    rcases hr with ⟨-, -, hst, hfree⟩ | ⟨-, a, c, k, ho, hst⟩ | ⟨-, hst, hfree⟩
    · exact ⟨_, hst, hno, hfree⟩
    · exact ⟨_, hst, .inr ⟨hno, a, ho.mem⟩⟩
    · exact ⟨_, hst, hno, hfree⟩
  unfold WaitState.StrandOk at hs
  unfold WaitState.Replies at hrests ⊢
  generalize s.pc p = pc at hs hrests
  cases pc with
  | idle | resume => exact hrests hs id
  | load | unlink | prepare | link => exact ⟨_, hs.stands, id, hs.free⟩
  | rest | recheck | loadDone | claim => exact hrests hs.2 id
  | resumeChanged | reply => exact ⟨_, hs.stands, .inl ⟨trivial, hs.free⟩⟩

theorem WaitInv.parkOk (h : WaitInv space s) (p : σ) : ParkOk s p := by
  obtain ⟨st, hst, hheld⟩ := h.standing p
  have hlen := stands_length hst
  have hone : (s.Replies p → s.NotHeld p) → (s.Replies p → s.NotHeld p) ∧
      (∀ a a', p ∈ (s.thread a).owes → p ∈ (s.thread a').owes → a = a') ∧ ∀ a, (s.thread a).owes.count p ≤ 1 :=
    fun hfree => ⟨hfree, fun a a' => h.alone a a' p, fun a => nodup_iff_count_le_one.mp (h.distinct a) p⟩
  cases st with
  | settled =>
    dsimp only at hheld hlen
    refine ⟨by rw [hst.1], by rw [hst.2], by omega, ⟨fun hlt => by omega, fun ho => ?_⟩,
      hone fun hr => absurd hr hheld.1, h.awake p⟩
    rcases ho with hr | ⟨a, ha⟩
    · exact absurd hr hheld.1
    · exact absurd ha (hheld.2 a)
  | pending c =>
    dsimp only at hheld hlen
    refine ⟨by rw [hst.1]; exact prefix_append .., by rw [hst.2], by omega, ⟨fun hlt => by omega, fun ho => ?_⟩,
      hone fun hr => absurd hr hheld.1, h.awake p⟩
    rcases ho with hr | ⟨a, ha⟩
    · exact absurd hr hheld.1
    · exact absurd ha (hheld.2 a)
  | owed c k =>
    dsimp only at hheld hlen
    refine ⟨by rw [hst.1]; exact prefix_append .., by rw [hst.2]; exact prefix_append .., by omega,
      ⟨fun _ => ?_, fun _ => by omega⟩, hone fun hr => ?_, h.awake p⟩
    · rcases hheld with hr | hr
      · exact .inl hr.1
      · exact .inr hr.2
    · rcases hheld with hr' | hr'
      · exact hr'.2
      · exact absurd hr hr'.1

/-! ## What a wake completes -/

theorem claimAll_entry {b : Nat} {l : List σ} (hnodup : l.Nodup) (p : σ) :
    (s.claimAll b l).entry p = if p ∈ l then { s.entry p with done := true, linked := false } else s.entry p := by
  induction l generalizing s with
  | nil => rfl
  | cons q rest ih =>
    obtain ⟨hq, hrest⟩ := nodup_cons.mp hnodup
    change ((s.claim b q .ok).claimAll b rest).entry p = _
    rw [ih hrest]
    by_cases hp : p = q
    · rw [hp, if_neg hq, if_pos mem_cons_self, claim_entry_self]
    · rw [claim_entry_of_ne b .ok hp]
      simp only [mem_cons, or_iff_right hp]

theorem claimAll_completions {b : Nat} {l : List σ} (hnodup : l.Nodup) (p : σ) :
    (s.claimAll b l).completions p = if p ∈ l then s.completions p ++ [.ok] else s.completions p := by
  induction l generalizing s with
  | nil => rfl
  | cons q rest ih =>
    obtain ⟨hq, hrest⟩ := nodup_cons.mp hnodup
    change ((s.claim b q .ok).claimAll b rest).completions p = _
    rw [ih hrest]
    by_cases hp : p = q
    · rw [hp, if_neg hq, if_pos mem_cons_self, claim_completions_self]
    · rw [claim_completions_of_ne b .ok hp]
      simp only [mem_cons, or_iff_right hp]

/-- What the section of a wake does. -/
structure WakeExact (s : WaitState σ α) (sp va count : Nat) : Prop where
  finite : {p | s.On sp va p}.Finite
  nodup : (s.wake sp va count).1.Nodup
  on : ∀ p ∈ (s.wake sp va count).1, s.On sp va p
  number : (s.wake sp va count).1.length =
    if count = 0 then {p | s.On sp va p}.ncard else min count {p | s.On sp va p}.ncard
  completed : ∀ p ∈ (s.wake sp va count).1, ((s.wake sp va count).2.entry p).linked = false ∧
    (s.wake sp va count).2.completions p = s.completions p ++ [.ok]
  others : ∀ p, p ∉ (s.wake sp va count).1 → (s.wake sp va count).2.entry p = s.entry p ∧
    (s.wake sp va count).2.completions p = s.completions p

theorem WaitInv.wakeExact (h : WaitInv space s) (sp va count : Nat) : WakeExact s sp va count := by
  obtain ⟨l, hl⟩ : ∃ l, l = (s.bucket (bucketIndex sp va)).filter (fun p => decide (s.On sp va p)) := ⟨_, rfl⟩
  have hsub : (s.wake sp va count).1.Sublist l := by
    rw [hl]
    exact h.wake_sublist sp va count
  have hmem : ∀ p, p ∈ l ↔ s.On sp va p := by
    rw [hl]
    exact h.mem_on sp va
  have hnodup : l.Nodup := by
    rw [hl]
    exact (h.nodup _).filter _
  have hset : {p | s.On sp va p} = ↑l.toFinset := by
    ext p
    rw [Set.mem_ofPred_eq, coe_toFinset, Set.mem_ofPred_eq, hmem]
  have hcard : {p | s.On sp va p}.ncard = l.length := by
    rw [hset, Set.ncard_coe_finset, toFinset_card_of_nodup hnodup]
  have hclaimed := hsub.nodup hnodup
  refine ⟨by rw [hset]; exact Finset.finite_toSet _, hclaimed, fun p hp => (hmem p).mp (hsub.subset hp), ?_,
    fun p hp => ⟨?_, ?_⟩, fun p hp => ⟨?_, ?_⟩⟩
  · rw [h.wake_claimed, ← hl, hcard]
    split
    · rfl
    · exact length_take
  · refine (congrArg Entry.linked (claimAll_entry hclaimed p)).trans ?_
    rw [if_pos hp]
  · exact (claimAll_completions hclaimed p).trans (if_pos hp)
  · exact (claimAll_entry hclaimed p).trans (if_neg hp)
  · exact (claimAll_completions hclaimed p).trans (if_neg hp)

/-! ## What a step leaves alone -/

/-- A step of a strand is about nobody else, and the clock and the threads stay. -/
theorem parkStep_frame (translate : Nat → Nat → Nat) (space : σ → Nat) (s : WaitState σ α) (q : σ) (found : Bool) :
    (s.parkStep translate space q found).tick = s.tick ∧ (s.parkStep translate space q found).thread = s.thread ∧
    ∀ p, p ≠ q → (s.parkStep translate space q found).pc p = s.pc p ∧
      (s.parkStep translate space q found).entry p = s.entry p ∧
      (s.parkStep translate space q found).completions p = s.completions p := by
  unfold WaitState.parkStep
  cases s.pc q with
  | idle => exact ⟨rfl, rfl, fun _ _ => ⟨rfl, rfl, rfl⟩⟩
  | load | unlink | prepare | loadDone | claim | reply =>
    dsimp only
    split <;> (try split) <;> exact ⟨rfl, rfl, fun p hp => by
      simp [WaitState.goto, WaitState.complete, WaitState.claim, WaitState.unlink, WaitState.answerTo, hp]⟩
  | link | rest | recheck | resume | resumeChanged =>
    exact ⟨rfl, rfl, fun p hp => by simp [WaitState.goto, WaitState.setWaiting, hp]⟩

theorem claimAll_frame (b : Nat) (l : List σ) :
    (s.claimAll b l).tick = s.tick ∧ (s.claimAll b l).pc = s.pc ∧ (s.claimAll b l).thread = s.thread := by
  induction l generalizing s with
  | nil => exact ⟨rfl, rfl, rfl⟩
  | cons q rest ih => exact ih

/-- A step of a thread moves no strand, and no other thread. -/
theorem threadStep_frame (b : α) (room : Bool) : (s.threadStep b room).tick = s.tick ∧
    (s.threadStep b room).pc = s.pc ∧ ∀ a, a ≠ b → (s.threadStep b room).thread a = s.thread a := by
  have hgo : ∀ {t : WaitState σ α} {pc}, t.tick = s.tick ∧ t.pc = s.pc ∧ t.thread = s.thread →
      (t.become b pc).tick = s.tick ∧ (t.become b pc).pc = s.pc ∧ ∀ a, a ≠ b → (t.become b pc).thread a = s.thread a :=
    fun ht => ⟨ht.1, ht.2.1, fun a ha => (become_thread_of_ne ha).trans (congrFun ht.2.2 a)⟩
  unfold WaitState.threadStep
  cases s.thread b with
  | wake sp va count => exact hgo (claimAll_frame ..)
  | answer claimed => cases claimed <;> cases room <;> exact hgo ⟨rfl, rfl, rfl⟩
  | rouse q again rest => cases again <;> exact hgo ⟨rfl, rfl, rfl⟩
  | timeoutLook | timeoutDue | timeoutAnswer =>
    dsimp only
    split <;> exact hgo ⟨rfl, rfl, rfl⟩
  | idle => exact ⟨rfl, rfl, fun _ _ => rfl⟩
  | timeout => exact hgo ⟨rfl, rfl, rfl⟩

/-! ## How a park is completed -/

/-- A step either leaves the park of a linked entry alone, or completes it by a wake, a timeout or a changed value. -/
def Completes (s t : WaitState σ α) (p : σ) : Prop :=
  (t.entry p = s.entry p ∧ t.completions p = s.completions p) ∨
    ((t.entry p).linked = false ∧ ∃ code ∈ [Code.ok, .timeout, .valueMismatch],
      t.completions p = s.completions p ++ [code])

theorem completes_claim (b : Nat) (code : Code) (hcode : code ∈ [Code.ok, .timeout, .valueMismatch]) (q : σ) :
    Completes s (s.claim b q code) p := by
  by_cases hp : p = q
  · rw [hp]
    exact .inr ⟨by rw [claim_entry_self], code, hcode, claim_completions_self b code⟩
  · exact .inl ⟨claim_entry_of_ne b code hp, claim_completions_of_ne b code hp⟩

theorem WaitInv.parkStep_completes (h : WaitInv space s) (hl : (s.entry p).linked = true) (found : Bool) :
    Completes s (s.parkStep translate space p found) p := by
  have hs := h.strand p
  have hno : ∀ {P : Prop}, (s.entry p).linked = false → P := fun hf => (nomatch hl.symm.trans hf)
  unfold WaitState.StrandOk at hs
  unfold WaitState.parkStep
  generalize s.pc p = pc at hs
  cases pc with
  | load | unlink | prepare | link | resumeChanged | reply => exact hno hs.unlinked
  | idle | rest | recheck | resume => exact .inl ⟨rfl, rfl⟩
  | loadDone c changed =>
    dsimp only
    split
    · exact .inl ⟨rfl, rfl⟩
    · split <;> exact .inl ⟨rfl, rfl⟩
  | claim c =>
    dsimp only
    split
    · exact completes_claim (s := s) (bucketIndex (s.entry p).space (s.entry p).va) .valueMismatch (by decide) p
    · exact .inl ⟨rfl, rfl⟩

theorem WaitInv.threadStep_completes (h : WaitInv space s) (a : α) (room : Bool) (p : σ) :
    Completes s (s.threadStep a room) p := by
  unfold WaitState.threadStep
  cases s.thread a with
  | wake sp va count =>
    have hwake := h.wakeExact sp va count
    by_cases hp : p ∈ (s.wake sp va count).1
    · exact .inr ⟨(hwake.completed p hp).1, .ok, by decide, (hwake.completed p hp).2⟩
    · exact .inl (hwake.others p hp)
  | answer claimed => cases claimed <;> cases room <;> exact .inl ⟨rfl, rfl⟩
  | rouse q again rest => cases again <;> exact .inl ⟨rfl, rfl⟩
  | timeoutAnswer => cases room <;> exact .inl ⟨rfl, rfl⟩
  | timeoutLook q now =>
    dsimp only
    split <;> exact .inl ⟨rfl, rfl⟩
  | timeoutDue q now b =>
    dsimp only
    split
    · exact completes_claim (s := s) b .timeout (by decide) q
    · exact .inl ⟨rfl, rfl⟩
  | idle | timeout => exact .inl ⟨rfl, rfl⟩

theorem WaitInv.completes (h : WaitInv space s) {e : WaitEvent σ α} (hstep : WaitStep translate space s e t)
    (hl : (s.entry p).linked = true) : Completes s t p := by
  cases hstep with
  | step q found =>
    by_cases hp : p = q
    · rw [← hp]
      exact h.parkStep_completes hl found
    · exact .inl ((parkStep_frame translate space s q found).2.2 p hp).2
  | run a room => exact h.threadStep_completes a room p
  | park | wake | timeout | fireWake | tick | store => exact .inl ⟨rfl, rfl⟩

/-! ## No wake-up is lost -/

/-- The strand will look at the word again, or has seen that it changed. -/
def ParkPc.Rechecks : ParkPc → Prop
  | .rest _ => True
  | .recheck _ => True
  | .loadDone _ changed => changed = true
  | .claim _ => True
  | _ => False

/-- No strand stays linked on the address for the value `v`. -/
def NoneStays (sp va v : Nat) (s : WaitState σ α) : Prop :=
  ∀ p, s.On sp va p → (s.entry p).expected = v → (s.pc p).Rechecks

/-- A strand that links its entry for a value that is gone finds that out. -/
theorem NoneStays.parkStep {sp va v : Nat} (h : NoneStays sp va v s) (hinv : WaitInv space s)
    (hgone : s.mem (translate sp va) ≠ v) (p : σ) (found : Bool) : (s.parkStep translate space p found).On sp va p →
    ((s.parkStep translate space p found).entry p).expected = v →
    ((s.parkStep translate space p found).pc p).Rechecks := by
  have hs := hinv.strand p
  have hp := h p
  unfold WaitState.StrandOk at hs
  unfold WaitState.parkStep
  generalize hpc : s.pc p = pc at hs hp
  cases pc with
  | idle =>
    rw [hpc]
    exact hp
  | load c =>
    dsimp only
    split
    · exact fun hon => (nomatch hs.unlinked.symm.trans hon.1)
    · split <;> exact fun hon => (nomatch hs.unlinked.symm.trans hon.1)
  | unlink c =>
    rw [hs.unlinked]
    exact fun hon => (nomatch hs.unlinked.symm.trans hon.1)
  | prepare c =>
    dsimp only
    split <;> exact fun hon => (nomatch hs.unlinked.symm.trans hon.1)
  | link c f =>
    intro _ _
    change (update s.pc p (ParkPc.rest c) p).Rechecks
    rw [update_self]
    trivial
  | rest c =>
    rw [goto_pc_self]
    exact fun _ _ => trivial
  | recheck c =>
    rw [goto_pc_self]
    intro hon hv
    -- the entry is that of the call, so the strand looks at this word and compares with `v`
    have hspace : space p = sp := hs.1.space.symm.trans hon.2.1
    have hva : c.va = va := hs.1.va.symm.trans hon.2.2
    have hexpected : c.expected = v := hs.1.expected.symm.trans hv
    rw [hspace, hva, hexpected]
    exact decide_eq_true hgone
  | loadDone c changed =>
    dsimp only
    split
    · rename_i hdone
      exact fun hon => (nomatch (hinv.linked hon.1).1.symm.trans hdone)
    split
    · rw [goto_pc_self]
      exact fun _ _ => trivial
    · rename_i hchanged
      exact fun hon hv => absurd (hp hon hv) hchanged
  | claim c =>
    dsimp only
    split
    · have hun :
          ((s.claim (bucketIndex (s.entry p).space (s.entry p).va) p .valueMismatch).entry p).linked = false := by
        rw [claim_entry_self]
      exact fun hon => (nomatch hun.symm.trans hon.1)
    · rename_i hno
      exact fun hon => absurd ⟨hon.1, (hinv.linked hon.1).1⟩ hno
  | resume => exact fun hon hv => (hp hon hv).elim
  | resumeChanged => exact fun hon => (nomatch hs.unlinked.symm.trans hon.1)
  | reply =>
    dsimp only
    split <;> exact fun hon => (nomatch hs.unlinked.symm.trans hon.1)

theorem NoneStays.keep {sp va v : Nat} (h : NoneStays sp va v s) (hpc : t.pc p = s.pc p)
    (hentry : t.entry p = s.entry p ∨ (t.entry p).linked = false) (hon : t.On sp va p) (hv : (t.entry p).expected = v) :
    (t.pc p).Rechecks := by
  rcases hentry with he | hun
  · unfold WaitState.On at hon
    rw [he] at hon hv
    rw [hpc]
    exact h p hon hv
  · cases hun.symm.trans hon.1

theorem NoneStays.step {sp va v : Nat} (h : NoneStays sp va v s) (hinv : WaitInv space s)
    (hgone : s.mem (translate sp va) ≠ v) {e : WaitEvent σ α} (hstep : WaitStep translate space s e t) :
    NoneStays sp va v t := by
  intro p hon hv
  cases hstep with
  | park q c hidle =>
    by_cases hp : p = q
    · rw [hp] at hon hv
      have := h q hon hv
      rw [hidle] at this
      exact this.elim
    · exact h.keep (update_of_ne hp ..) (.inl rfl) hon hv
  | step q found =>
    by_cases hp : p = q
    · rw [hp] at hon hv ⊢
      exact h.parkStep hinv hgone q found hon hv
    · obtain ⟨hpc, hentry, -⟩ := (parkStep_frame translate space s q found).2.2 p hp
      exact h.keep hpc (.inl hentry) hon hv
  | run a room =>
    refine h.keep (congrFun (threadStep_frame a room).2.1 p) ?_ hon hv
    rcases hinv.threadStep_completes a room p with hc | hc
    · exact .inl hc.1
    · exact .inr hc.1
  | wake | timeout | fireWake | tick | store => exact h p hon hv

theorem WaitInv.wake_all (h : WaitInv space s) {sp va : Nat} (hthread : s.thread a = .wake sp va 0) (p : σ) :
    ¬(s.threadStep a true).On sp va p := by
  intro hon
  have hstep : s.threadStep a true = (s.wake sp va 0).2.become a (.answer (s.wake sp va 0).1) := by
    unfold WaitState.threadStep
    rw [hthread]
  rw [hstep] at hon
  have hwake := h.wakeExact sp va 0
  by_cases hp : p ∈ (s.wake sp va 0).1
  · cases (hwake.completed p hp).1.symm.trans hon.1
  have hons : s.On sp va p := by
    have he := (hwake.others p hp).1
    unfold WaitState.On at hon ⊢
    rw [← he]
    exact hon
  refine hp ?_
  rw [h.wake_claimed, if_pos rfl]
  exact (h.mem_on sp va p).mpr hons

theorem WaitInv.none_stays (h : WaitInv space s) {sp va v : Nat} (hthread : s.thread a = .wake sp va 0)
    {es : List (WaitEvent σ α)} (run : Lib.Run (WaitStep translate space) (fun s e => s.meets e ∧
    s.mem (translate sp va) ≠ v) (s.threadStep a true) es t) : NoneStays sp va v t := by
  have hboth := run.invariant (P := fun s => WaitInv space s ∧ NoneStays sp va v s)
    (fun s e t hc hs hp => ⟨hp.1.step hs hc.1, hp.2.step hp.1 hc.2 hs⟩)
    ⟨h.threadStep a, fun p hon => absurd hon (h.wake_all hthread p)⟩
  exact hboth.2

/-! ## A timeout completes the park that is due -/

theorem WaitInv.completions_mono (h : WaitInv space s) {e : WaitEvent σ α} (hstep : WaitStep translate space s e t) :
    (s.completions p).length ≤ (t.completions p).length := by
  cases hstep with
  | step q found =>
    by_cases hp : p = q
    · rw [← hp]
      unfold WaitState.parkStep
      cases s.pc p with
      | idle | rest | recheck | link | resume | resumeChanged => exact le_rfl
      | load | unlink | prepare | loadDone | claim | reply =>
        dsimp only
        split <;> (try split) <;> simp [WaitState.complete, WaitState.claim, WaitState.goto, WaitState.unlink,
          WaitState.answerTo]
    · rw [((parkStep_frame translate space s q found).2.2 p hp).2.2]
  | run a room =>
    rcases h.threadStep_completes a room p with hc | ⟨-, code, -, hc⟩
    · rw [hc.2]
    · rw [hc, length_append]
      exact Nat.le_add_right ..
  | park | wake | timeout | fireWake | tick | store => exact le_rfl

/-- The thread delivers a timeout of `p` that is due at `fireAt`, and has not come to the claim. -/
def ThreadPc.Delivers (p : σ) (fireAt : Nat) : ThreadPc σ → Prop
  | .timeout q => q = p
  | .timeoutLook q now => q = p ∧ fireAt ≤ now
  | .timeoutDue q now _ => q = p ∧ fireAt ≤ now
  | _ => False

/-- More than `n` parks of `p` are completed, or its due entry stands before thread `a`. -/
def Overdue (a : α) (p : σ) (entry : Entry) (n : Nat) (s : WaitState σ α) : Prop :=
  n < (s.completions p).length ∨ n = (s.completions p).length ∧ s.entry p = entry ∧ entry.fireAt ≤ s.tick ∧
    (s.thread a).Delivers p entry.fireAt

theorem Overdue.step {entry : Entry} {n : Nat} (h : Overdue a p entry n s) (hinv : WaitInv space s)
    (hl : entry.linked = true) (htimed : entry.timed = true) {e : WaitEvent σ α}
    (hstep : WaitStep translate space s e t) : Overdue a p entry n t := by
  rcases h with hdone | ⟨hn, hentry, hdue, hthread⟩
  · exact .inl (hdone.trans_le (hinv.completions_mono hstep))
  have hlinked : (s.entry p).linked = true := by rwa [hentry]
  rcases hinv.completes hstep hlinked with ⟨he, hcompletions⟩ | ⟨-, code, -, hc⟩
  · have hboth : entry.fireAt ≤ t.tick → (t.thread a).Delivers p entry.fireAt → Overdue a p entry n t :=
      fun htick hd => .inr ⟨by rw [hcompletions, hn], he.trans hentry, htick, hd⟩
    cases hstep with
    | run b room =>
      obtain ⟨htick, -, hother⟩ := threadStep_frame (s := s) b room
      refine hboth (by rwa [htick]) ?_
      by_cases hb : a = b
      · subst hb
        revert he
        unfold WaitState.threadStep
        cases hpc : s.thread a with
        | timeout q =>
          rw [hpc] at hthread
          rw [become_thread_self]
          exact fun _ => ⟨hthread, hdue⟩
        | timeoutLook q now =>
          rw [hpc] at hthread
          obtain ⟨rfl, hnow⟩ := hthread
          dsimp only
          rw [if_pos hlinked, become_thread_self]
          exact fun _ => ⟨rfl, hnow⟩
        | timeoutDue q now k =>
          -- the claim succeeds, so the entry does not stay
          rw [hpc] at hthread
          obtain ⟨rfl, hnow⟩ := hthread
          dsimp only
          rw [if_pos ⟨hlinked, by rw [hentry, htimed], by rwa [hentry], (hinv.linked hlinked).1⟩]
          intro he
          have hout := congrArg Entry.linked ((claim_entry_self k .timeout).symm.trans he)
          cases hout.trans hlinked
        | _ =>
          rw [hpc] at hthread
          exact hthread.elim
      · rwa [hother a hb]
    | step q found =>
      obtain ⟨htick, hsame, -⟩ := parkStep_frame translate space s q found
      exact hboth (htick ▸ hdue) (hsame ▸ hthread)
    | wake b _ _ _ hidle | timeout b _ hidle =>
      have hb : a ≠ b := fun hab => by
        rw [hab, hidle] at hthread
        exact hthread
      exact hboth hdue (by rwa [become_thread_of_ne hb])
    | tick => exact hboth (hdue.trans (Nat.le_succ _)) hthread
    | park | fireWake | store => exact hboth hdue hthread
  · exact .inl (by rw [hc, length_append, hn]; exact Nat.lt_succ_self _)

theorem WaitInv.timedOut (h : WaitInv space s) (hthread : s.thread a = .timeout p) (hl : (s.entry p).linked = true)
    (htimed : (s.entry p).timed = true) (hdue : (s.entry p).fireAt ≤ s.tick) {es : List (WaitEvent σ α)}
    (run : WaitRun translate space s es t) :
    (s.completions p).length < (t.completions p).length ∨ (t.thread a).Delivers p (s.entry p).fireAt := by
  have hboth := run.invariant (P := fun t => WaitInv space t ∧ Overdue a p (s.entry p) (s.completions p).length t)
    (fun _ _ _ hc hs hp => ⟨hp.1.step hs hc, hp.2.step hp.1 hl htimed hs⟩)
    ⟨h, .inr ⟨rfl, rfl, hdue, by rw [hthread]; rfl⟩⟩
  exact hboth.2.imp_right fun hd => hd.2.2.2

/-! ## Whoever owes an answer gives it -/

/-- The answer a thread owes comes with its own next steps. -/
theorem answered_by_thread {l : List σ} (hthread : s.thread a = .answer l) (hp : p ∈ l) :
    ∃ n x, ((fun s => s.threadStep a true)^[n] s).answers p = s.answers p ++ [x] := by
  induction l generalizing s with
  | nil => cases hp
  | cons q rest ih =>
    have hgive : s.threadStep a true = (s.answerTo q (s.entry q).cookie .ok).become a (.rouse q false rest) := by
      unfold WaitState.threadStep
      rw [hthread]
      rfl
    by_cases hpq : p = q
    · refine ⟨1, ((s.entry q).cookie, .ok), ?_⟩
      rw [Function.iterate_one, hgive, hpq]
      exact update_self ..
    -- three steps for `q`: its answer, and twice its scheduling state
    obtain ⟨t, ht⟩ : ∃ t, t = (fun s => s.threadStep a true)^[3] s := ⟨_, rfl⟩
    have hthree : t = ((((s.answerTo q (s.entry q).cookie .ok).setWaiting q false).setWaiting q false).become a
        (.answer rest)) := by
      rw [ht]
      change ((s.threadStep a true).threadStep a true).threadStep a true = _
      rw [hgive]
      simp only [WaitState.threadStep, WaitState.become, WaitState.setWaiting, update_self,
        Function.update_idem]
    have hanswers : t.answers p = s.answers p := by
      rw [hthree]
      exact update_of_ne hpq ..
    obtain ⟨n, x, hn⟩ := ih (s := t) (by rw [hthree]; exact become_thread_self)
      ((mem_cons.mp hp).resolve_left hpq)
    refine ⟨n + 3, x, ?_⟩
    rw [Function.iterate_add_apply, ← ht, hn, hanswers]

theorem WaitInv.answered (h : WaitInv space s) (translate : Nat → Nat → Nat)
    (howed : (s.answers p).length < (s.completions p).length) :
    (∃ n x, ((fun s => s.parkStep translate space p true)^[n] s).answers p = s.answers p ++ [x]) ∨ ∃ a n x,
    ((fun s => s.threadStep a true)^[n] s).answers p = s.answers p ++ [x] := by
  rcases (h.parkOk p).owed.mp howed with hr | ⟨a, ha⟩
  · refine .inl ?_
    unfold WaitState.Replies at hr
    cases hpc : s.pc p with
    | resumeChanged c =>
      refine ⟨2, (c.cookie, .valueMismatch), ?_⟩
      change ((s.parkStep translate space p true).parkStep translate space p true).answers p = _
      have hone : s.parkStep translate space p true =
          (s.setWaiting p false).goto p (.reply c.cookie .valueMismatch) := by
        unfold WaitState.parkStep
        rw [hpc]
      rw [hone]
      unfold WaitState.parkStep
      rw [goto_pc_self]
      exact update_self ..
    | reply cookie code =>
      refine ⟨1, (cookie, code), ?_⟩
      rw [Function.iterate_one]
      unfold WaitState.parkStep
      rw [hpc]
      exact update_self ..
    | _ =>
      rw [hpc] at hr
      exact hr.elim
  · refine .inr ⟨a, ?_⟩
    cases hthread : s.thread a with
    | answer l =>
      rw [hthread] at ha
      exact answered_by_thread hthread ha
    | rouse q again rest =>
      rw [hthread] at ha
      obtain ⟨n, hn⟩ : ∃ n, ((fun s => s.threadStep a true)^[n] s).thread a = .answer rest ∧
          ((fun s => s.threadStep a true)^[n] s).answers = s.answers := by
        cases again with
        | false =>
          refine ⟨2, ?_⟩
          change (((s.threadStep a true).threadStep a true).thread a = _ ∧
            ((s.threadStep a true).threadStep a true).answers = _)
          have hone : s.threadStep a true = (s.setWaiting q false).become a (.rouse q true rest) := by
            unfold WaitState.threadStep
            rw [hthread]
          rw [hone]
          unfold WaitState.threadStep
          rw [become_thread_self]
          exact ⟨become_thread_self, rfl⟩
        | true =>
          refine ⟨1, ?_⟩
          rw [Function.iterate_one]
          unfold WaitState.threadStep
          rw [hthread]
          exact ⟨become_thread_self, rfl⟩
      obtain ⟨m, x, hm⟩ := answered_by_thread hn.1 ha
      refine ⟨m + n, x, ?_⟩
      rw [Function.iterate_add_apply, hm, hn.2]
    | timeoutAnswer q cookie =>
      rw [hthread] at ha
      obtain rfl := mem_singleton.mp ha
      refine ⟨1, (cookie, .timeout), ?_⟩
      rw [Function.iterate_one]
      unfold WaitState.threadStep
      rw [hthread]
      exact update_self ..
    | _ =>
      rw [hthread] at ha
      cases ha

/-! ## Every run -/

structure AddrWaitOk (translate : Nat → Nat → Nat) (space : σ → Nat) (s : WaitState σ α) : Prop where
  parks : ∀ p, ParkOk s p
  /-- a completed park gets its answer by the steps of who owes it -/
  answered : ∀ p, (s.answers p).length < (s.completions p).length →
    (∃ n x, ((fun s => s.parkStep translate space p true)^[n] s).answers p = s.answers p ++ [x]) ∨
      ∃ a n x, ((fun s => s.threadStep a true)^[n] s).answers p = s.answers p ++ [x]
  completed : ∀ p e t, (s.entry p).linked = true → WaitStep translate space s e t → Completes s t p
  wake : ∀ sp va count, WakeExact s sp va count
  /-- after a wake of all, as long as the word is not `v`, nobody is parked who saw `v` -/
  noneLost : ∀ a sp va v es t, s.thread a = .wake sp va 0 →
    Lib.Run (WaitStep translate space) (fun s e => s.meets e ∧ s.mem (translate sp va) ≠ v) (s.threadStep a true) es t →
    ∀ p, t.On sp va p → (t.entry p).expected = v → t.pc p ≠ .idle
  /-- a timeout that starts when the park is due leaves it completed -/
  timeout : ∀ a p es t, s.thread a = .timeout p → (s.entry p).linked = true → (s.entry p).timed = true →
    (s.entry p).fireAt ≤ s.tick → WaitRun translate space s es t →
    (s.completions p).length < (t.completions p).length ∨ (t.thread a).Delivers p (s.entry p).fireAt

/-- The step of an event, where it is possible. -/
def WaitState.next (translate : Nat → Nat → Nat) (space : σ → Nat) (s : WaitState σ α) :
    WaitEvent σ α → Option (WaitState σ α)
  | .park p c => match s.pc p with
    | .idle => some { s with pc := update s.pc p (.load c), parks := update s.parks p (s.parks p ++ [c.cookie]) }
    | _ => none
  | .step p found => some (s.parkStep translate space p found)
  | .wake a sp va count => match s.thread a with
    | .idle => if translate sp va ≠ 0 then some (s.become a (.wake sp va count)) else none
    | _ => none
  | .timeout a p => match s.thread a with
    | .idle => some (s.become a (.timeout p))
    | _ => none
  | .run a room => some (s.threadStep a room)
  | .fireWake p => some (s.setWaiting p false)
  | .tick => some { s with tick := s.tick + 1 }
  | .store phys value => some { s with mem := update s.mem phys value }

theorem WaitState.next_step {e : WaitEvent σ α} (h : s.next translate space e = some t) :
    WaitStep translate space s e t := by
  cases e with
  | park p c =>
    simp only [WaitState.next] at h
    split at h
    · rename_i hidle
      cases h
      exact .park p c hidle
    · cases h
  | wake a sp va count =>
    simp only [WaitState.next] at h
    split at h
    · rename_i hidle
      split at h
      · rename_i htranslate
        cases h
        exact .wake a sp va count hidle htranslate
      · cases h
    · cases h
  | timeout a p =>
    simp only [WaitState.next] at h
    split at h
    · rename_i hidle
      cases h
      exact .timeout a p hidle
    · cases h
  | step p found => cases h; exact .step p found
  | run a room => cases h; exact .run a room
  | fireWake p => cases h; exact .fireWake p
  | tick => cases h; exact .tick
  | store phys value => cases h; exact .store phys value

end

/-- A strand parks, as far as going to rest. -/
def parked (p : Bool) (c : ParkCall) : List (WaitEvent Bool Unit) :=
  .park p c :: replicate 3 (.step p true) ++ replicate 4 (.step p false)

/-- Two strands park; a waker changes the word and wakes both. One parks again, and its time is over. -/
def twoWoken : List (WaitEvent Bool Unit) :=
  parked false ⟨8, 0, 0, 7⟩ ++ parked true ⟨8, 0, 20, 9⟩ ++
    .store 8 1 :: .wake () 1 8 0 :: replicate 8 (.run () true) ++
    parked true ⟨8, 1, 4, 11⟩ ++ .tick :: .timeout () true :: replicate 6 (.run () true)

end BoxOS.Sync
