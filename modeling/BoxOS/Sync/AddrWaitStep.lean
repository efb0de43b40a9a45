import BoxOS.Sync.AddrWaitInv

/-!
# Wakers, timeouts and the clock

Their steps keep the standing of every park as well.
-/

set_option linter.unusedSectionVars false

open Function (update update_of_ne update_self)

namespace BoxOS.Sync

open List

section

variable {σ α : Type} [DecidableEq σ] [DecidableEq α] {space : σ → Nat} {s t : WaitState σ α} {p : σ} {a : α}

theorem WaitState.TimeoutOk.frame {now b : Nat} (h : s.TimeoutOk p now b) (hentry : t.entry p = s.entry p)
    (hpc : t.pc p = s.pc p) : t.TimeoutOk p now b := by
  unfold WaitState.TimeoutOk at h ⊢
  rw [hentry]
  rcases h with h | h
  · exact .inl h
  · exact .inr ⟨by rw [hentry]; exact h.entry, by rw [hpc]; exact h.call⟩

/-! ## Steps without a claim or an answer -/

variable {pc : ThreadPc σ}

theorem become_thread_self : (s.become a pc).thread a = pc :=
  update_self ..

theorem become_thread_of_ne {b : α} (hb : b ≠ a) : (s.become a pc).thread b = s.thread b :=
  update_of_ne hb ..

theorem WaitInv.move (h : WaitInv space s) (a : α) {pc : ThreadPc σ} {waiting : σ → Bool}
    (howes : pc.owes = (s.thread a).owes)
    (hkeep : ∀ q cookie c k, (s.thread a).Owes cookie q c k → pc.Owes cookie q c k)
    (hwaiting : ∀ q, waiting q = true → s.waiting q = true ∧ ((s.thread a).Rouses q → pc.Rouses q))
    (hlook : ∀ p now, pc = .timeoutLook p now → now ≤ s.tick)
    (hdue : ∀ p now b, pc = .timeoutDue p now b → now ≤ s.tick ∧ s.TimeoutOk p now b) :
    WaitInv space { s with waiting := waiting, thread := update s.thread a pc } := by
  obtain ⟨t, ht⟩ : ∃ t, t = { s with waiting := waiting, thread := update s.thread a pc } := ⟨_, rfl⟩
  rw [← ht]
  have hself : t.thread a = pc := by
    rw [ht]
    exact update_self ..
  have hother : ∀ b, b ≠ a → t.thread b = s.thread b := fun b hb => by
    rw [ht]
    exact update_of_ne hb ..
  have howes' : ∀ b, (t.thread b).owes = (s.thread b).owes := by
    intro b
    by_cases hb : b = a
    · rw [hb, hself, howes]
    · rw [hother b hb]
  have hsame : ∀ q, Same s t q := by
    refine fun q => ⟨by rw [ht], by rw [ht], by rw [ht], by rw [ht], by rw [ht], fun b => by rw [howes' b],
      fun b c k ho => ?_⟩
    by_cases hb : b = a
    · rw [hb] at ho ⊢
      rw [hself]
      exact hkeep q _ c k ho
    · rw [hother b hb]
      exact ho
  refine ⟨fun q => (hsame q).strandOk (h.strand q), fun b b' q => ?_, fun b => ?_, by rw [ht]; exact h.mem_bucket,
    by rw [ht]; exact h.nodup, fun q hpc hst hw => ?_, fun b q now hb => ?_, fun b q now k hb => ?_⟩
  · rw [howes', howes']
    exact h.alone b b' q
  · rw [howes']
    exact h.distinct b
  · have hw' : waiting q = true := by
      rw [ht] at hw
      exact hw
    obtain ⟨c, hc⟩ := h.awake q ((hsame q).pc.symm.trans hpc) ((hsame q).stands_iff.mp hst) (hwaiting q hw').1
    by_cases hca : c = a
    · rw [hca] at hc
      exact ⟨a, by rw [hself]; exact (hwaiting q hw').2 hc⟩
    · exact ⟨c, by rw [hother c hca]; exact hc⟩
  · have htick : t.tick = s.tick := by rw [ht]
    rw [htick]
    by_cases hba : b = a
    · rw [hba, hself] at hb
      exact hlook q now hb
    · rw [hother b hba] at hb
      exact h.look b q now hb
  · have htick : t.tick = s.tick := by rw [ht]
    rw [htick]
    by_cases hba : b = a
    · rw [hba, hself] at hb
      exact ⟨(hdue q now k hb).1, (hsame q).timeoutOk (hdue q now k hb).2⟩
    · rw [hother b hba] at hb
      exact ⟨(h.due b q now k hb).1, (hsame q).timeoutOk (h.due b q now k hb).2⟩

theorem WaitInv.become (h : WaitInv space s) {pc : ThreadPc σ} (hold : (s.thread a).owes = []) (hnew : pc.owes = [])
    (hquiet : ∀ q, ¬(s.thread a).Rouses q) (hlook : ∀ p now, pc = .timeoutLook p now → now ≤ s.tick)
    (hdue : ∀ p now b, pc = .timeoutDue p now b → now ≤ s.tick ∧ s.TimeoutOk p now b) :
    WaitInv space (s.become a pc) := by
  refine h.move a (hnew.trans hold.symm) (fun q cookie c k ho => ?_) (fun q hw => ⟨hw, fun hr => absurd hr (hquiet q)⟩)
    hlook hdue
  have hmem := ho.mem
  rw [hold] at hmem
  cases hmem

theorem WaitInv.becomeIdle (h : WaitInv space s) (hold : (s.thread a).owes = [])
    (hquiet : ∀ q, ¬(s.thread a).Rouses q) : WaitInv space (s.become a .idle) :=
  h.become hold rfl hquiet (fun _ _ hl => (nomatch hl)) fun _ _ _ hl => (nomatch hl)

theorem WaitInv.rouse (h : WaitInv space s) {again : Bool} {rest : List σ} {pc : ThreadPc σ}
    (hthread : s.thread a = .rouse p again rest) (howes : pc.owes = rest)
    (hkeep : ∀ q cookie c k, (ThreadPc.rouse p again rest).Owes cookie q c k → pc.Owes cookie q c k)
    (hlook : ∀ p now, pc ≠ .timeoutLook p now) (hdue : ∀ p now b, pc ≠ .timeoutDue p now b) :
    WaitInv space ((s.setWaiting p false).become a pc) := by
  refine h.move a (by rw [hthread]; exact howes) (fun q cookie c k ho => ?_) (fun q hw => ?_)
    (fun q now hl => absurd hl (hlook q now)) fun q now b hl => absurd hl (hdue q now b)
  · rw [hthread] at ho
    exact hkeep q cookie c k ho
  · by_cases hq : q = p
    · rw [hq] at hw
      have hself : (s.setWaiting p false).waiting p = false := update_self ..
      cases hself.symm.trans hw
    · refine ⟨(update_of_ne hq ..).symm.trans hw, fun hr => ?_⟩
      rw [hthread] at hr
      exact absurd hr.symm hq

/-! ## A claim and an answer -/

section

variable (h : WaitInv space s)

include h

theorem WaitInv.ofThread (a : α) (w : StepOf space s t p) (hthread : ∀ b, b ≠ a → t.thread b = s.thread b)
    (howes : ∀ q, q ∈ (t.thread a).owes → q ∈ (s.thread a).owes ∨ s.NotHeld q) (hdistinct : (t.thread a).owes.Nodup)
    (hquiet : ∀ q, ¬(s.thread a).Rouses q) (hwaiting : t.waiting = s.waiting)
    (hlook : ∀ q now, t.thread a ≠ .timeoutLook q now) (hdue : ∀ q now b, t.thread a ≠ .timeoutDue q now b) :
    WaitInv space t where
  strand := w.strands h
  alone b b' q hb hb' := by
    -- whoever else owes `q` an answer did so before
    have hold : ∀ c, c ≠ a → q ∈ (t.thread c).owes → q ∈ (s.thread c).owes := fun c hc hqc => by
      rwa [hthread c hc] at hqc
    by_cases hba : b = a
    · by_cases hba' : b' = a
      · rw [hba, hba']
      · rw [hba] at hb
        rcases howes q hb with hqa | hfree
        · exact hba.trans (h.alone a b' q hqa (hold b' hba' hb'))
        · exact absurd (hold b' hba' hb') (hfree b')
    by_cases hba' : b' = a
    · rw [hba'] at hb'
      rcases howes q hb' with hqa | hfree
      · exact (h.alone b a q (hold b hba hb) hqa).trans hba'.symm
      · exact absurd (hold b hba hb) (hfree b)
    · exact h.alone b b' q (hold b hba hb) (hold b' hba' hb')
  distinct b := by
    by_cases hb : b = a
    · rw [hb]
      exact hdistinct
    · rw [hthread b hb]
      exact h.distinct b
  mem_bucket := w.mem_bucket
  nodup := w.nodup
  awake q hpc hst hw := by
    by_cases hq : q = p
    · rw [hq] at hpc hst hw ⊢
      exact w.awake hpc hst hw
    rw [hwaiting] at hw
    obtain ⟨c, hc⟩ := h.awake q ((w.other q hq).pc.symm.trans hpc) ((w.other q hq).stands_iff.mp hst) hw
    have hca : c ≠ a := fun e => hquiet q (e ▸ hc)
    exact ⟨c, by rw [hthread c hca]; exact hc⟩
  look b q now hb := by
    by_cases hba : b = a
    · rw [hba] at hb
      exact absurd hb (hlook q now)
    · rw [hthread b hba] at hb
      rw [w.tick]
      exact h.look b q now hb
  due b q now k hb := by
    by_cases hba : b = a
    · rw [hba] at hb
      exact absurd hb (hdue q now k)
    · rw [hthread b hba] at hb
      exact w.due (h.due b q now k hb)

/-- A strand with an entry in a bucket, or owed an answer by a thread, rests. -/
theorem WaitInv.strandOk_of_rests (hbusy : (s.entry p).linked = true ∨ ¬s.NotHeld p) (hpc : t.pc p = s.pc p)
    (hrests : t.Rests p) (hentered : ∀ c, s.Entered space p c → t.Entered space p c) : t.StrandOk space p := by
  have hs := h.strand p
  unfold WaitState.StrandOk at hs ⊢
  rw [hpc]
  generalize s.pc p = pc at hs
  cases pc with
  | idle | resume => exact hrests
  | rest | recheck | loadDone | claim => exact ⟨hentered _ hs.1, hrests⟩
  | _ => exact hbusy.elim (fun hl => (nomatch hl.symm.trans hs.unlinked)) fun hheld => absurd hs.free hheld

theorem WaitInv.not_link (hl : (s.entry p).linked = true) (c : ParkCall) (fireAt : Nat) :
    s.pc p ≠ .link c fireAt := by
  intro hpc
  have hs := h.strand p
  unfold WaitState.StrandOk at hs
  rw [hpc] at hs
  cases hs.unlinked.symm.trans hl

/-- Thread `a` claims an entry of bucket `b`, and owes the answer from then on. -/
theorem WaitInv.claimThread {b : Nat} {code : Code} {pc : ThreadPc σ} (hl : (s.entry p).linked = true)
    (hb : bucketIndex (s.entry p).space (s.entry p).va = b) (howes : pc.owes = (s.thread a).owes ++ [p])
    (hself : pc.Owes (s.entry p).cookie p (s.entry p).cookie code)
    (hkeep : ∀ q cookie c k, q ≠ p → (s.thread a).Owes cookie q c k → pc.Owes cookie q c k)
    (hquiet : ∀ q, ¬(s.thread a).Rouses q) : WaitInv space ((s.claim b p code).become a pc) := by
  obtain ⟨-, hst, hfree⟩ := h.linked hl
  obtain ⟨hmem, hnodup⟩ := h.claim_bucket hb code
  have hun : ((s.claim b p code).entry p).linked = false := by
    rw [claim_entry_self]
  refine h.ofThread a (p := p) ⟨fun q hq => ?_, ?_, hmem, hnodup, fun _ hset => ?_, rfl, fun now k _ hok => ?_⟩
    (fun c hc => become_thread_of_ne hc) (fun q hq => ?_) ?_ hquiet rfl (fun q now hl' => ?_) fun q now k hl' => ?_
  · refine ⟨rfl, claim_entry_of_ne b code hq, rfl, claim_completions_of_ne b code hq, rfl, fun c => ?_,
      fun c ck k ho => ?_⟩
    · by_cases hc : c = a
      · rw [hc, become_thread_self, howes, mem_append, mem_singleton]
        exact or_iff_left hq
      · rw [become_thread_of_ne hc]
        rfl
    · by_cases hc : c = a
      · rw [hc] at ho ⊢
        rw [become_thread_self]
        exact hkeep q _ ck k hq ho
      · rw [become_thread_of_ne hc]
        exact ho
  · refine h.strandOk_of_rests (.inl hl) rfl (.inr (.inl ⟨hun, a, (s.entry p).cookie, code, ?_, ?_⟩)) fun c hc => ?_
    · rw [become_thread_self]
      have hcookie : (((s.claim b p code).become a pc).entry p).cookie = (s.entry p).cookie := by
        change ((s.claim b p code).entry p).cookie = _
        rw [claim_entry_self]
      rw [hcookie]
      exact hself
    · exact claim_stands b code hst
    · have he : ((s.claim b p code).become a pc).entry p = { s.entry p with done := true, linked := false } :=
        claim_entry_self b code
      exact ⟨by rw [he]; exact hc.space, by rw [he]; exact hc.va, by rw [he]; exact hc.expected,
        by rw [he]; exact hc.cookie, fun _ => by rw [he]⟩
  · -- the park is open in the books, so not everything is answered
    have h₁ : (s.parks p).length = (s.answers p).length + 1 := (stands_length hst).1
    have h₂ : (s.parks p).length = (s.answers p).length + 0 := (stands_length hset).1
    omega
  · exact .inr ⟨fun hl' => (nomatch hun.symm.trans hl'), fun c f hc => absurd hc (h.not_link hl c f)⟩
  · rw [become_thread_self, howes, mem_append, mem_singleton] at hq
    rcases hq with hq | rfl
    · exact .inl hq
    · exact .inr hfree
  · rw [become_thread_self, howes]
    exact nodup_append.mpr ⟨h.distinct a, nodup_singleton p, fun q hq r hr hqr => by
      rw [mem_singleton.mp hr] at hqr
      rw [hqr] at hq
      exact hfree a hq⟩
  · rw [become_thread_self] at hl'
    rw [hl'] at hself
    exact hself
  · rw [become_thread_self] at hl'
    rw [hl'] at hself
    exact hself

/-- Thread `a` gives an answer that it owes, and rouses the strand next. -/
theorem WaitInv.answerThread {cookie : Nat} {code : Code} {rest : List σ} (howes : (s.thread a).owes = p :: rest)
    (hself : ∀ c k, (s.thread a).Owes (s.entry p).cookie p c k → c = cookie ∧ k = code)
    (hkeep : ∀ q cookie c k, q ≠ p → (s.thread a).Owes cookie q c k → q ∈ rest ∧ cookie = c ∧ k = .ok)
    (hquiet : ∀ q, ¬(s.thread a).Rouses q) :
    WaitInv space ((s.answerTo p cookie code).become a (.rouse p false rest)) := by
  have hmine : p ∈ (s.thread a).owes := by
    rw [howes]
    exact mem_cons_self
  have hnodup := h.distinct a
  rw [howes, nodup_cons] at hnodup
  have hheld : ¬s.NotHeld p := fun hfree => hfree a hmine
  refine h.ofThread a (p := p) ⟨fun q hq => ?_, ?_, h.mem_bucket, h.nodup, fun _ _ _ => ⟨a, ?_⟩, rfl,
    fun now k _ hok => hok.frame rfl rfl⟩ (fun c hc => become_thread_of_ne hc) (fun q hq => ?_) ?_ hquiet rfl
    (fun q now => ?_) fun q now k => ?_
  · refine ⟨rfl, rfl, rfl, rfl, update_of_ne hq .., fun c => ?_, fun c ck k ho => ?_⟩
    · by_cases hc : c = a
      · rw [hc, become_thread_self, howes, mem_cons]
        exact (or_iff_right hq).symm
      · rw [become_thread_of_ne hc]
        rfl
    · by_cases hc : c = a
      · rw [hc] at ho ⊢
        rw [become_thread_self]
        exact hkeep q _ ck k hq ho
      · rw [become_thread_of_ne hc]
        exact ho
  · have hrests : s.Rests p := (h.rests p).resolve_right fun hr => hheld hr.2
    refine h.strandOk_of_rests (.inr hheld) rfl ?_ fun c hc => ⟨hc.space, hc.va, hc.expected, hc.cookie, hc.claimed⟩
    rcases hrests with ⟨-, -, -, hfree⟩ | ⟨hl, a', c, k, ho, hst⟩ | ⟨-, -, hfree⟩
    · exact absurd hfree hheld
    · rw [h.alone a' a p ho.mem hmine] at ho
      obtain ⟨rfl, rfl⟩ := hself c k ho
      have hanswers : ((s.answerTo p c k).become a (.rouse p false rest)).answers p = s.answers p ++ [(c, k)] :=
        update_self ..
      refine .inr (.inr ⟨hl, ⟨?_, ?_⟩, fun b hb => ?_⟩)
      · rw [hanswers, map_append]
        exact hst.1
      · rw [hanswers, map_append]
        exact hst.2
      · by_cases hba : b = a
        · rw [hba, become_thread_self] at hb
          exact hnodup.1 hb
        · rw [become_thread_of_ne hba] at hb
          exact hba (h.alone b a p hb hmine)
    · exact absurd hfree hheld
  · rw [become_thread_self]
    rfl
  · rw [become_thread_self] at hq
    refine .inl ?_
    rw [howes]
    exact mem_cons_of_mem p hq
  · rw [become_thread_self]
    exact hnodup.2
  · rw [become_thread_self]
    nofun
  · rw [become_thread_self]
    nofun

end

/-! ## The section of a wake -/

/-- Claims of a list of entries, one after the other. -/
def WaitState.claimAll (s : WaitState σ α) (b : Nat) (l : List σ) : WaitState σ α :=
  l.foldl (fun s p => s.claim b p .ok) s

theorem become_become (pc pc' : ThreadPc σ) : (s.become a pc).become a pc' = s.become a pc' := by
  simp only [WaitState.become, Function.update_idem]

theorem become_claim {b : Nat} {code : Code} : (s.become a pc).claim b p code = (s.claim b p code).become a pc :=
  rfl

/-- A thread claims the entries of a bucket in a row and owes all their answers. -/
theorem WaitInv.claimAll {b : Nat} {l claimed : List σ} (h : WaitInv space (s.become a (.answer claimed)))
    (hl : ∀ p ∈ l, (s.entry p).linked = true ∧ bucketIndex (s.entry p).space (s.entry p).va = b) (hnodup : l.Nodup) :
    WaitInv space ((s.claimAll b l).become a (.answer (claimed ++ l))) := by
  induction l generalizing s claimed with
  | nil =>
    rw [append_nil]
    exact h
  | cons p rest ih =>
    obtain ⟨hp, hrest⟩ := nodup_cons.mp hnodup
    obtain ⟨hlinked, hb⟩ := hl p mem_cons_self
    have hown : (s.become a (.answer claimed)).thread a = .answer claimed := become_thread_self
    have hone : WaitInv space ((s.claim b p .ok).become a (.answer (claimed ++ [p]))) := by
      rw [← become_become (.answer claimed), ← become_claim]
      refine h.claimThread hlinked hb ?_ ⟨mem_append_right _ (mem_singleton_self p), rfl, rfl⟩ ?_ ?_
      · rw [hown]
        rfl
      · intro q cookie c k _ ho
        rw [hown] at ho
        exact ⟨mem_append_left _ ho.1, ho.2⟩
      · rw [hown]
        exact fun _ hr => hr
    have hlater := ih hone (fun q hq => ?_) hrest
    · rw [append_assoc] at hlater
      exact hlater
    · have hqp : q ≠ p := fun e => hp (e ▸ hq)
      rw [claim_entry_of_ne b .ok hqp]
      exact hl q (mem_cons_of_mem p hq)

theorem WaitInv.wake_claimed (h : WaitInv space s) (sp va count : Nat) :
    (s.wake sp va count).1 = if count = 0 then (s.bucket (bucketIndex sp va)).filter (fun p => decide (s.On sp va p))
    else ((s.bucket (bucketIndex sp va)).filter (fun p => decide (s.On sp va p))).take count := by
  have hclaims : (s.bucket (bucketIndex sp va)).filter (fun p => decide ((s.entry p).space = sp ∧ (s.entry p).va = va ∧
      (s.entry p).linked = true ∧ (s.entry p).done = false)) =
      (s.bucket (bucketIndex sp va)).filter (fun p => decide (s.On sp va p)) := by
    refine filter_congr fun p hp => ?_
    have hl := ((h.mem_bucket _ p).mp hp).1
    refine decide_eq_decide.mpr ⟨fun hk => ⟨hl, hk.1, hk.2.1⟩, fun hk => ⟨hk.2.1, hk.2.2, hl, (h.linked hl).1⟩⟩
  simp only [WaitState.wake]
  rw [wakeLoop_eq, hclaims, Nat.sub_zero]

theorem WaitInv.mem_on (h : WaitInv space s) (sp va : Nat) (p : σ) :
    p ∈ (s.bucket (bucketIndex sp va)).filter (fun p => decide (s.On sp va p)) ↔ s.On sp va p := by
  rw [mem_filter, decide_eq_true_eq, h.mem_bucket]
  refine ⟨fun hk => hk.2, fun hk => ⟨⟨hk.1, ?_⟩, hk⟩⟩
  rw [hk.2.1, hk.2.2]

theorem WaitInv.wake_sublist (h : WaitInv space s) (sp va count : Nat) :
    ((s.wake sp va count).1).Sublist ((s.bucket (bucketIndex sp va)).filter (fun p => decide (s.On sp va p))) := by
  rw [h.wake_claimed]
  split
  · exact Sublist.refl _
  · exact take_sublist ..

theorem WaitInv.wake (h : WaitInv space s) {sp va count : Nat} (hthread : s.thread a = .wake sp va count) :
    WaitInv space ((s.wake sp va count).2.become a (.answer (s.wake sp va count).1)) := by
  have hstart : WaitInv space (s.become a (.answer [])) :=
    h.become (by rw [hthread]; rfl) rfl (by rw [hthread]; exact fun _ hr => hr) (fun _ _ hl => (nomatch hl))
      fun _ _ _ hl => (nomatch hl)
  have hsub := h.wake_sublist sp va count
  have hend := hstart.claimAll (b := bucketIndex sp va) (l := (s.wake sp va count).1) (fun p hp => ?_)
    (hsub.nodup ((h.nodup _).filter _))
  · exact hend
  · exact (h.mem_bucket _ p).mp (mem_of_mem_filter (hsub.subset hp))

/-! ## Every step -/

theorem WaitInv.threadStep (h : WaitInv space s) (a : α) : WaitInv space (s.threadStep a true) := by
  unfold WaitState.threadStep
  cases hpc : s.thread a with
  | idle => exact h
  | wake sp va count => exact h.wake hpc
  | answer claimed =>
    cases claimed with
    | nil => exact h.becomeIdle (by rw [hpc]; rfl) (by rw [hpc]; exact fun _ hr => hr)
    | cons p rest =>
      refine h.answerThread (by rw [hpc]; rfl) (fun c k ho => ?_) (fun q cookie c k hq ho => ?_)
        (by rw [hpc]; exact fun _ hr => hr)
      · rw [hpc] at ho
        exact ⟨ho.2.1.symm, ho.2.2⟩
      · rw [hpc] at ho
        exact ⟨(mem_cons.mp ho.1).resolve_left hq, ho.2⟩
  | rouse p again rest =>
    cases again with
    | false | true => exact h.rouse hpc rfl (fun _ _ _ _ ho => ho) nofun nofun
  | timeout p =>
    refine h.become (by rw [hpc]; rfl) rfl (by rw [hpc]; exact fun _ hr => hr) (fun q now hl => ?_)
      (fun _ _ _ hl => (nomatch hl))
    rw [← (ThreadPc.timeoutLook.inj hl).2]
  | timeoutLook p now =>
    dsimp only
    split
    · rename_i hl
      refine h.become (by rw [hpc]; rfl) rfl (by rw [hpc]; exact fun _ hr => hr) (fun _ _ hl => (nomatch hl))
        (fun q now' b hd => ?_)
      obtain ⟨rfl, rfl, rfl⟩ := ThreadPc.timeoutDue.inj hd
      exact ⟨h.look a p now hpc, .inl ⟨hl, rfl⟩⟩
    · exact h.becomeIdle (by rw [hpc]; rfl) (by rw [hpc]; exact fun _ hr => hr)
  | timeoutDue p now b =>
    dsimp only
    split
    · rename_i hclaim
      -- the entry is due, so it was not linked after the timeout looked at the clock
      have hb : bucketIndex (s.entry p).space (s.entry p).va = b := by
        rcases (h.due a p now b hpc).2 with hk | hlater
        · exact hk.2
        · have := hlater.entry hclaim.1 hclaim.2.1
          omega
      refine h.claimThread hclaim.1 hb ?_ ⟨rfl, rfl, rfl⟩ ?_ ?_
      · rw [hpc]
        rfl
      · intro q cookie c k _ ho
        rw [hpc] at ho
        exact ho.elim
      · rw [hpc]
        exact fun _ hr => hr
    · exact h.becomeIdle (by rw [hpc]; rfl) (by rw [hpc]; exact fun _ hr => hr)
  | timeoutAnswer p cookie =>
    refine h.answerThread (by rw [hpc]; rfl) (fun c k ho => ?_) (fun q cookie c k hq ho => ?_)
      (by rw [hpc]; exact fun _ hr => hr)
    · rw [hpc] at ho
      exact ⟨ho.2.1.symm, ho.2.2⟩
    · rw [hpc] at ho
      exact absurd ho.1.symm hq

theorem WaitInv.quiet (h : WaitInv space s) (mem : Nat → Nat) {tick : Nat} {waiting : σ → Bool} (htick : s.tick ≤ tick)
    (hwaiting : ∀ p, waiting p = true → s.waiting p = true) :
    WaitInv space { s with mem := mem, tick := tick, waiting := waiting } where
  strand p :=
    have hsame : Same s { s with mem := mem, tick := tick, waiting := waiting } p :=
      ⟨rfl, rfl, rfl, rfl, rfl, fun _ => Iff.rfl, fun _ _ _ ho => ho⟩
    hsame.strandOk (h.strand p)
  alone := h.alone
  distinct := h.distinct
  mem_bucket := h.mem_bucket
  nodup := h.nodup
  awake p hpc hst hw := h.awake p hpc hst (hwaiting p hw)
  look b q now hb := (h.look b q now hb).trans htick
  due b q now k hb := ⟨(h.due b q now k hb).1.trans htick, (h.due b q now k hb).2.frame rfl rfl⟩

theorem WaitInv.step {translate : Nat → Nat → Nat} {e : WaitEvent σ α} (h : WaitInv space s)
    (hstep : WaitStep translate space s e t) (hmeets : s.meets e) : WaitInv space t := by
  cases hstep with
  | park p c hpc => exact h.park c hpc (beq_iff_eq.mp hmeets)
  | step p found =>
    refine h.parkStep translate p fun cookie code hpc => ?_
    dsimp only [WaitState.meets] at hmeets
    rw [hpc] at hmeets
    exact hmeets
  | wake _ _ _ _ hpc | timeout _ _ hpc =>
    exact h.become (by rw [hpc]; rfl) rfl (by rw [hpc]; exact fun _ hr => hr) (fun _ _ hl => (nomatch hl))
      fun _ _ _ hl => (nomatch hl)
  | run a room =>
    obtain rfl : room = true := hmeets
    exact h.threadStep a
  | fireWake p =>
    refine h.quiet s.mem le_rfl fun q hq => ?_
    by_cases hqp : q = p
    · rw [hqp] at hq
      cases (update_self p false s.waiting).symm.trans hq
    · exact (update_of_ne hqp ..).symm.trans hq
  | tick => exact h.quiet s.mem (Nat.le_succ _) fun _ hq => hq
  | store phys value => exact h.quiet _ le_rfl fun _ hq => hq

end

end BoxOS.Sync
