import BoxOS.Touch.Interrupt

/-!
# Which interrupting touches are delivered

The delivery of a touch makes the process work, and nothing in a sequence of publishes and returns makes it wait again.
So a handler is entered at most once (`IrqInv.once`), and what is published while the process works is dropped
(`Dropped`). The publishes made while a handler is active all reach the handler only if there is at most one, made while
the process waits (`irq_delivers_iff`).
-/

namespace BoxOS.Touch

open List Option

open Scheduler (ProcState)

/-! ## One delivery -/

/-- A delivery leaves the process as it is, or puts the touch in front of the pending list of a waiting process with an
active handler, or enters the handler of a waiting process with none. -/
inductive Handed (proc : IrqProcess) (tagId : Nat) (nth : Option Nat) (mem : IrqMemory) : IrqProcess × Bool → Prop
  | dropped : (mem.Succeeds → proc.state ≠ .waiting) → Handed proc tagId nth mem (proc, false)
  | queued (q : TouchPending) : proc.state = .waiting → proc.irqActive = true → q.tagId = tagId → q.nth = nth →
      Handed proc tagId nth mem ({ proc with irqPending := q :: proc.irqPending }, false)
  | entered (regs : Registers) (rdi : Nat) : proc.state = .waiting → proc.irqActive = false →
      Handed proc tagId nth mem
        ({ proc with irqSaved := proc.regs, regs := regs, rdi := rdi, irqActive := true, state := .working }, true)

theorem touchInterruptDeliver_handed (proc : IrqProcess) (sub : TouchSub Nat) (tagId : Nat) (p : Payload)
    (sourcePid flags : Nat) (nth : Option Nat) (mem : IrqMemory) :
    Handed proc tagId nth mem (touchInterruptDeliver proc sub tagId p sourcePid flags nth mem) := by
  unfold touchInterruptDeliver
  by_cases hwait : proc.state = .waiting
  · rw [if_neg (not_not.mpr hwait)]
    by_cases hactive : proc.irqActive = true
    · rw [if_pos hactive]
      by_cases hmem : mem.kmalloc = true
      · rw [if_pos hmem]
        exact .queued _ hwait hactive rfl rfl
      · rw [if_neg hmem]
        exact .dropped fun hs => absurd hs.1 hmem
    rw [if_neg hactive]
    by_cases hmem : mem.emitted = 0
    · rw [if_pos hmem]
      exact .dropped fun hs => absurd hmem hs.2
    · rw [if_neg hmem]
      exact .entered _ _ hwait (Bool.not_eq_true _ ▸ hactive)
  · rw [if_pos hwait]
    exact .dropped fun _ => hwait

namespace IrqProcess

variable (proc : IrqProcess) (tagId : Nat) (p : Payload) (policy : TouchPolicy)

theorem latch_eq : ∃ subs, proc.latch tagId p policy = { proc with subs := subs } := by
  unfold latch
  split
  · exact ⟨_, rfl⟩
  · exact ⟨proc.subs, rfl⟩

theorem mode_latch (t : Nat) :
    (findProcSub (proc.latch tagId p policy) t).map TouchSub.mode = (findProcSub proc t).map TouchSub.mode := by
  unfold latch
  split
  · unfold findProcSub
    rw [find?_map, Option.map_map]
    congr 1
    · funext s
      dsimp only [Function.comp]
      split <;> rfl
    · congr 1
      funext s
      dsimp only [Function.comp]
      split <;> rfl
  · rfl

end IrqProcess

/-! ## What one step is -/

/-- The process asked to be interrupted by the tag. -/
def IrqProcess.Claimed (proc : IrqProcess) (tagId : Nat) : Prop :=
  ∃ sub, findProcSub proc tagId = some sub ∧ sub.mode = .interrupt

theorem IrqProcess.claimed_of_hearing {proc : IrqProcess} {tagId : Nat} {sub : TouchSub Nat}
    (h : proc.hearing tagId = some sub) : proc.Claimed tagId := by
  unfold hearing at h
  split at h
  · cases h
  · obtain ⟨hfind, hmode⟩ := filter_eq_some_iff.mp h
    simp only [decide_eq_true_eq] at hmode
    exact ⟨sub, hfind, hmode.2⟩

theorem IrqProcess.claimed_latch (proc : IrqProcess) (tagId : Nat) (p : Payload) (policy : TouchPolicy) {t : Nat}
    (h : proc.Claimed t) : (proc.latch tagId p policy).Claimed t := by
  obtain ⟨sub, hfind, hmode⟩ := h
  have hmodes := mode_latch proc tagId p policy t
  rw [hfind, Option.map_some] at hmodes
  obtain ⟨sub', hfind', hmode'⟩ := map_eq_some_iff.mp hmodes
  exact ⟨sub', hfind', hmode'.trans hmode⟩

namespace IrqWorld

/-- The process after a return, before the pending touch is delivered. -/
def taken (w : IrqWorld) : IrqWorld := { w with proc := (takePending w.proc).1 }

def withProc (w : IrqWorld) (proc : IrqProcess) : IrqWorld := { w with proc := proc }

def push (w : IrqWorld) (q : TouchPending) : IrqWorld :=
  w.withProc { w.proc with irqPending := q :: w.proc.irqPending }

def enter (w : IrqWorld) (nth : Option Nat) (regs : Registers) (rdi : Nat) : IrqWorld where
  proc := { w.proc with irqSaved := w.proc.regs, regs := regs, rdi := rdi, irqActive := true, state := .working }
  published := w.published
  waited := w.waited
  entered := w.entered ++ nth.toList
  first := if w.first.isNone then some w.proc.regs else w.first

/-- The steps of a process whose allocations succeed. -/
inductive Stepped (w : IrqWorld) : IrqOp → IrqWorld → Prop
  /-- a publish that no claim of the process hears -/
  | unheard {op : IrqOp} : op.isReturn = false → ¬ w.Waits op → Stepped w op w
  | dropped {op : IrqOp} (subs : List (TouchSub Nat)) : op.isReturn = false →
      (w.proc.irqActive = true → w.Waits op) → ¬ w.Queues op →
      Stepped w op (w.count.withProc { w.proc with subs := subs })
  | queued {op : IrqOp} (subs : List (TouchSub Nat)) (q : TouchPending) : w.Waits op → w.Queues op →
      w.proc.state = .waiting → w.proc.irqActive = true → q.nth = some w.published →
      IrqProcess.Claimed { w.proc with subs := subs } q.tagId →
      Stepped w op ((w.count.withProc { w.proc with subs := subs }).push q)
  | entered {op : IrqOp} (subs : List (TouchSub Nat)) (regs : Registers) (rdi : Nat) : op.isReturn = false →
      w.proc.state = .waiting → w.proc.irqActive = false →
      Stepped w op ((w.count.withProc { w.proc with subs := subs }).enter (some w.published) regs rdi)
  | returned {op : IrqOp} : ¬ w.Waits op → (w.proc.state = .waiting → ∀ q, w.proc.irqPending.head? = some q →
      ¬ w.proc.Claimed q.tagId) → Stepped w op w.taken
  | reentered {op : IrqOp} (q : TouchPending) (regs : Registers) (rdi : Nat) : ¬ w.Waits op →
      w.proc.irqPending.head? = some q → w.proc.state = .waiting →
      Stepped w op (w.taken.enter q.nth regs rdi)

theorem publish_stepped (w : IrqWorld) (tagId : Nat) (p : Payload) (sourcePid flags : Nat) (policy : TouchPolicy)
    {mem : IrqMemory} (hmem : mem.Succeeds) :
    w.Stepped (.publish tagId p sourcePid flags policy mem) (w.step (.publish tagId p sourcePid flags policy mem)) := by
  cases hsub : w.proc.hearing tagId with
  | none =>
    have hstep : w.step (.publish tagId p sourcePid flags policy mem) = w := by simp only [step, hsub]
    rw [hstep]
    exact .unheard rfl fun h => by simp [Waits, hsub] at h
  | some sub =>
    have hwaits : w.proc.irqActive = true → w.Waits (.publish tagId p sourcePid flags policy mem) := fun hactive =>
      ⟨by rw [hsub]; rfl, hactive⟩
    have hstep : w.step (.publish tagId p sourcePid flags policy mem) =
        w.count.deliverOne sub tagId p sourcePid flags policy w.published mem := by simp only [step, hsub]
    rw [hstep, deliverOne]
    by_cases hheld : policy = .latched ∧ sub.hasPending = true
    · rw [if_pos hheld]
      exact .dropped w.proc.subs rfl hwaits fun hq => hq.2 sub hsub hheld
    rw [if_neg hheld]
    have hfree : w.proc.state = .waiting → w.Queues (.publish tagId p sourcePid flags policy mem) := fun hwait =>
      ⟨hwait, fun sub' hsub' => by cases hsub.symm.trans hsub'; exact hheld⟩
    obtain ⟨subs, hlatch⟩ := IrqProcess.latch_eq w.proc tagId p policy
    have hclaimed := IrqProcess.claimed_latch w.proc tagId p policy (IrqProcess.claimed_of_hearing hsub)
    unfold hand
    dsimp only [count]
    rw [hlatch] at hclaimed ⊢
    have hr :=
      touchInterruptDeliver_handed { w.proc with subs := subs } sub tagId p sourcePid flags (some w.published) mem
    generalize touchInterruptDeliver { w.proc with subs := subs } sub tagId p sourcePid flags (some w.published) mem = r
      at hr ⊢
    cases hr with
    | dropped hstate => exact .dropped subs rfl hwaits fun hq => hstate hmem hq.1
    | queued q hwait hactive htag hnth =>
      exact .queued subs q (hwaits hactive) (hfree hwait) hwait hactive hnth (htag ▸ hclaimed)
    | entered regs rdi hwait hactive => exact .entered subs regs rdi rfl hwait hactive

theorem return_stepped (w : IrqWorld) {mem : IrqMemory} (hmem : mem.Succeeds) :
    w.Stepped (.irqReturn mem) (w.step (.irqReturn mem)) := by
  have hwaits : ¬ w.Waits (.irqReturn mem) := id
  cases hhead : w.proc.irqPending.head? with
  | none =>
    have hstep : w.step (.irqReturn mem) = w.taken := by simp only [step, takePending, hhead, taken]
    rw [hstep]
    exact .returned hwaits fun _ q hq => by cases hhead.symm.trans hq
  | some q =>
    by_cases hclaim : w.proc.Claimed q.tagId
    · obtain ⟨sub, hsub, hmode⟩ := hclaim
      have hfound : (findProcSub w.taken.proc q.tagId).filter (fun s => s.mode = .interrupt) = some sub :=
        filter_eq_some_iff.mpr ⟨hsub, by simpa using hmode⟩
      have hstep : ∃ p, w.step (.irqReturn mem) = w.taken.hand sub q.tagId p q.sourcePid q.flags q.nth mem := by
        simp only [step, takePending, hhead]
        simp only [taken, takePending] at hfound
        rw [hfound]
        exact ⟨_, rfl⟩
      obtain ⟨p, hstep⟩ := hstep
      rw [hstep]
      unfold hand
      have hr := touchInterruptDeliver_handed w.taken.proc sub q.tagId p q.sourcePid q.flags q.nth mem
      generalize touchInterruptDeliver w.taken.proc sub q.tagId p q.sourcePid q.flags q.nth mem = r at hr ⊢
      cases hr with
      | dropped hstate => exact .returned hwaits fun hwait => absurd hwait (hstate hmem)
      | queued q' hwait hactive => cases hactive
      | entered regs rdi hwait hactive => exact .reentered q regs rdi hwaits hhead hwait
    · have hfound : (findProcSub w.taken.proc q.tagId).filter (fun s => s.mode = .interrupt) = none := by
        cases hsub : findProcSub w.taken.proc q.tagId with
        | none => rfl
        | some sub =>
          have hmode : sub.mode ≠ .interrupt := fun hmode => hclaim ⟨sub, hsub, hmode⟩
          simp [hmode]
      have hstep : w.step (.irqReturn mem) = w.taken := by
        simp only [step, takePending, hhead]
        simp only [taken, takePending] at hfound
        rw [hfound]
        rfl
      rw [hstep]
      exact .returned hwaits fun _ q' hq' => by cases hhead.symm.trans hq'; exact hclaim

theorem stepped (w : IrqWorld) {op : IrqOp} (hmem : op.mem.Succeeds) : w.Stepped op (w.step op) := by
  cases op with
  | publish tagId p sourcePid flags policy mem => exact publish_stepped w tagId p sourcePid flags policy hmem
  | irqReturn mem => exact return_stepped w hmem

/-! ## What every run keeps -/

structure IrqInv (w : IrqWorld) : Prop where
  pending_lt : ∀ q ∈ w.proc.irqPending, ∀ n, q.nth = some n → n < w.published
  entered_lt : ∀ n ∈ w.entered, n < w.published
  /-- a process that waits has entered no handler -/
  idle : w.proc.state = .waiting → w.entered = []
  /-- a process that works has entered at most one -/
  once : w.proc.state = .waiting ∨ w.proc.state = .working ∧ w.entered.length ≤ 1
  saved : ∀ r, w.first = some r → w.proc.irqSaved = r ∧ (w.proc.irqActive = false → w.proc.regs = r)

theorem start_inv {proc : IrqProcess} (hwait : proc.state = .waiting) : (irqStart proc).IrqInv where
  pending_lt q hq n hn := by
    obtain ⟨q', -, rfl⟩ := List.mem_map.mp hq
    cases hn
  entered_lt n hn := by cases hn
  idle _ := rfl
  once := .inl hwait
  saved r hr := by
    have hfirst : (if proc.irqActive then some proc.irqSaved else none) = some r := hr
    by_cases hactive : proc.irqActive = true
    · rw [if_pos hactive] at hfirst
      exact ⟨some.inj hfirst, fun h => absurd (hactive.symm.trans h) (by decide)⟩
    · rw [if_neg hactive] at hfirst
      cases hfirst

variable {w t : IrqWorld} {op : IrqOp} {ops : List IrqOp} {mems : List IrqMemory}

theorem IrqInv.enter (h : w.IrqInv) {nth : Option Nat} (hn : ∀ n, nth = some n → n < w.published) (regs : Registers)
    (rdi : Nat) (hwait : w.proc.state = .waiting) (hactive : w.proc.irqActive = false) :
    (w.enter nth regs rdi).IrqInv where
  pending_lt := h.pending_lt
  entered_lt n hmem := by
    rcases mem_append.mp hmem with hmem | hmem
    · exact h.entered_lt n hmem
    · exact hn n (mem_toList.mp hmem)
  idle hw := by cases hw
  once := by
    refine .inr ⟨rfl, ?_⟩
    have hnone : (w.enter nth regs rdi).entered = nth.toList := by
      change w.entered ++ nth.toList = _
      rw [h.idle hwait, nil_append]
    rw [hnone]
    cases nth <;> simp
  saved r hr := by
    refine ⟨?_, fun h => by cases h⟩
    change (if w.first.isNone then some w.proc.regs else w.first) = some r at hr
    cases hfirst : w.first with
    | none =>
      have hregs : some w.proc.regs = some r := by simpa [hfirst] using hr
      exact some.inj hregs
    | some r' =>
      obtain rfl : r' = r := by simpa [hfirst] using hr
      exact (h.saved r' hfirst).2 hactive

theorem IrqInv.withSubs (h : w.IrqInv) (subs : List (TouchSub Nat)) :
    (w.count.withProc { w.proc with subs := subs }).IrqInv where
  pending_lt q hq n hn := Nat.lt_succ_of_lt (h.pending_lt q hq n hn)
  entered_lt n hn := Nat.lt_succ_of_lt (h.entered_lt n hn)
  idle := h.idle
  once := h.once
  saved := h.saved

theorem IrqInv.taken (h : w.IrqInv) : w.taken.IrqInv where
  pending_lt q hq n hn := h.pending_lt q (mem_of_mem_tail hq) n hn
  entered_lt := h.entered_lt
  idle := h.idle
  once := h.once
  saved r hr := ⟨(h.saved r hr).1, fun _ => (h.saved r hr).1⟩

theorem IrqInv.stepped (h : w.IrqInv) (hs : w.Stepped op t) : t.IrqInv := by
  cases hs with
  | unheard => exact h
  | dropped subs => exact h.withSubs subs
  | queued subs q _ _ hwait hactive hnth =>
    have hw := h.withSubs subs
    refine ⟨fun q' hq' n hn => ?_, hw.entered_lt, hw.idle, hw.once, hw.saved⟩
    rcases mem_cons.mp hq' with rfl | hq'
    · obtain rfl : w.published = n := some.inj (hnth.symm.trans hn)
      exact Nat.lt_succ_self _
    · exact hw.pending_lt q' hq' n hn
  | entered subs regs rdi _ hwait hactive =>
    refine (h.withSubs subs).enter (fun n hn => ?_) regs rdi hwait hactive
    obtain rfl : w.published = n := some.inj hn
    exact Nat.lt_succ_self _
  | returned => exact h.taken
  | reentered q regs rdi _ hhead hwait =>
    exact h.taken.enter (h.pending_lt q (mem_of_mem_head? hhead)) regs rdi hwait rfl

theorem run_keeps {P : IrqWorld → Prop} (hstep : ∀ w t op, P w → w.Stepped op t → P t) {ops : List IrqOp}
    (hmem : ∀ op ∈ ops, op.mem.Succeeds) {w : IrqWorld} (h : P w) : P (w.run ops) := by
  induction ops generalizing w with
  | nil => exact h
  | cons op rest ih =>
    exact ih (fun op' hop => hmem op' (mem_cons_of_mem _ hop))
      (hstep w _ op h (w.stepped (hmem op mem_cons_self)))

theorem run_append (w : IrqWorld) (xs ys : List IrqOp) : w.run (xs ++ ys) = (w.run xs).run ys := foldl_append

/-! ## What is recorded as waiting -/

theorem waited_of_waits (hs : w.Stepped op t) (h : w.Waits op) : t.waited = w.waited ++ [w.published] := by
  have hactive : w.proc.irqActive = true := by
    cases op with
    | publish => exact h.2
    | irqReturn => exact h.elim
  cases hs with
  | unheard _ hno | returned hno | reentered _ _ _ hno => exact absurd h hno
  | dropped | queued => exact if_pos hactive
  | entered _ _ _ _ _ hidle => exact absurd (hactive.symm.trans hidle) (by decide)

theorem waited_of_not_waits (hs : w.Stepped op t) (h : ¬ w.Waits op) : t.waited = w.waited := by
  cases hs with
  | unheard | returned | reentered => rfl
  | dropped _ _ hwaits => exact if_neg (mt hwaits h)
  | queued _ _ hwaits => exact absurd hwaits h
  | entered _ _ _ _ _ hidle => exact if_neg (by simp [hidle])

theorem waited_subset (hs : w.Stepped op t) : w.waited <+: t.waited := by
  by_cases h : w.Waits op
  · rw [waited_of_waits hs h]
    exact prefix_append ..
  · rw [waited_of_not_waits hs h]

theorem exists_waits (hmem : ∀ op ∈ ops, op.mem.Succeeds) (hw : w.waited = [])
    (h : (w.run ops).waited ≠ []) : ∃ pre op post, ops = pre ++ op :: post ∧ (w.run pre).Waits op := by
  induction ops using List.reverseRecOn with
  | nil => exact absurd hw h
  | append_singleton ops op ih =>
    have hbefore : ∀ op ∈ ops, op.mem.Succeeds := fun op hop => hmem op (mem_append_left _ hop)
    by_cases hwaits : (w.run ops).Waits op
    · exact ⟨ops, op, [], rfl, hwaits⟩
    rw [run_append] at h
    have hs := (w.run ops).stepped (hmem op (mem_append_right _ (mem_singleton_self _)))
    have hsame : ((w.run ops).step op).waited = (w.run ops).waited := waited_of_not_waits hs hwaits
    obtain ⟨pre, op', post, rfl, hpre⟩ := ih hbefore (fun hnil => h (hsame.trans hnil))
    exact ⟨pre, op', post ++ [op], by simp, hpre⟩

/-! ## Dropped touches -/

/-- The publish `n` was made, is not pending and has entered no handler. -/
structure Dropped (n : Nat) (w : IrqWorld) : Prop where
  lt : n < w.published
  pending : ∀ q ∈ w.proc.irqPending, q.nth ≠ some n
  entered : n ∉ w.entered

theorem Dropped.enter {n : Nat} (h : w.Dropped n) {nth : Option Nat} (hn : nth ≠ some n) (regs : Registers)
    (rdi : Nat) : (w.enter nth regs rdi).Dropped n where
  lt := h.lt
  pending := h.pending
  entered hmem := by
    rcases mem_append.mp hmem with hmem | hmem
    · exact h.entered hmem
    · exact hn (mem_toList.mp hmem)

theorem Dropped.stepped {n : Nat} (h : w.Dropped n) (hs : w.Stepped op t) : t.Dropped n := by
  have hfresh : some w.published ≠ some n := fun hn => absurd (some.inj hn) (Nat.ne_of_gt h.lt)
  have hsubs : ∀ subs, (w.count.withProc { w.proc with subs := subs }).Dropped n := fun subs =>
    ⟨Nat.lt_succ_of_lt h.lt, h.pending, h.entered⟩
  have htaken : w.taken.Dropped n := ⟨h.lt, fun q hq => h.pending q (mem_of_mem_tail hq), h.entered⟩
  cases hs with
  | unheard => exact h
  | dropped subs => exact hsubs subs
  | queued subs q _ _ _ _ hnth =>
    refine ⟨(hsubs subs).lt, fun q' hq' => ?_, (hsubs subs).entered⟩
    rcases mem_cons.mp hq' with rfl | hq'
    · exact hnth ▸ hfresh
    · exact h.pending q' hq'
  | entered subs regs rdi => exact (hsubs subs).enter hfresh regs rdi
  | returned => exact htaken
  | reentered q regs rdi _ hhead => exact htaken.enter (h.pending q (mem_of_mem_head? hhead)) regs rdi

theorem IrqInv.dropped (h : w.IrqInv) (hs : w.Stepped op t) (hwaits : w.Waits op)
    (hqueues : ¬ w.Queues op) : t.Dropped w.published := by
  cases hs with
  | unheard _ hno | returned hno | reentered _ _ _ hno => exact absurd hwaits hno
  | dropped subs =>
    refine ⟨Nat.lt_succ_self _, fun q hq hn => ?_, fun hn => ?_⟩
    · exact absurd (h.pending_lt q hq _ hn) (Nat.lt_irrefl _)
    · exact absurd (h.entered_lt _ hn) (Nat.lt_irrefl _)
  | queued _ _ _ hq => exact absurd hq hqueues
  | entered _ _ _ _ hwait hidle =>
    cases op with
    | publish => exact absurd (hwaits.2.symm.trans hidle) (by decide)
    | irqReturn => exact hwaits.elim

/-! ## One touch on the way -/

/-- Where the publish `n`, the only one made while a handler was active, is: in front of the pending list of a waiting
process, or in the handler of a working one. -/
inductive OnItsWay (n : Nat) (w : IrqWorld) : Prop
  | pending (q : TouchPending) : w.waited = [n] → w.entered = [] → w.proc.state = .waiting → w.proc.irqActive = true →
      w.proc.irqPending.head? = some q → q.nth = some n → w.proc.Claimed q.tagId → OnItsWay n w
  | entered : w.waited = [n] → w.entered = [n] → w.proc.state = .working → OnItsWay n w

theorem IrqInv.on_its_way (h : w.IrqInv) (hnone : w.waited = []) (hs : w.Stepped op t)
    (hwaits : w.Waits op) (hqueues : w.Queues op) : t.OnItsWay w.published := by
  have hwaited := waited_of_waits hs hwaits
  rw [hnone, nil_append] at hwaited
  cases hs with
  | unheard _ hno | returned hno | reentered _ _ _ hno => exact absurd hwaits hno
  | dropped _ _ _ hno => exact absurd hqueues hno
  | queued subs q _ _ hwait hactive hnth hclaim =>
    exact .pending q hwaited (h.idle hwait) hwait hactive rfl hnth hclaim
  | entered _ _ _ _ _ hidle =>
    cases op with
    | publish => exact absurd (hwaits.2.symm.trans hidle) (by decide)
    | irqReturn => exact hwaits.elim

theorem OnItsWay.stepped {n : Nat} (h : w.OnItsWay n) (hs : w.Stepped op t) (hno : ¬ w.Waits op) : t.OnItsWay n := by
  have hsame := waited_of_not_waits hs hno
  cases h with
  | pending q hwaited hentered hwait hactive hhead hnth hclaim =>
    cases hs with
    | unheard => exact .pending q hwaited hentered hwait hactive hhead hnth hclaim
    | dropped _ _ hwaits => exact absurd (hwaits hactive) hno
    | queued _ _ hwaits => exact absurd hwaits hno
    | entered _ _ _ _ _ hidle => exact absurd (hactive.symm.trans hidle) (by decide)
    | returned _ hfree => exact absurd hclaim (hfree hwait q hhead)
    | reentered q' _ _ _ hhead' =>
      obtain rfl : q = q' := some.inj (hhead.symm.trans hhead')
      refine .entered (hsame.trans hwaited) ?_ rfl
      change w.entered ++ q.nth.toList = [n]
      rw [hentered, hnth]
      rfl
  | entered hwaited hentered hwork =>
    have hidle : w.proc.state ≠ .waiting := by simp [hwork]
    cases hs with
    | unheard => exact .entered hwaited hentered hwork
    | dropped | returned => exact .entered (hsame.trans hwaited) hentered hwork
    | queued _ _ _ _ hwait | entered _ _ _ _ hwait | reentered _ _ _ _ _ hwait => exact absurd hwait hidle

/-- Nothing has waited, or one touch did and is on its way. -/
def OneOnItsWay (w : IrqWorld) : Prop := w.waited = [] ∨ ∃ n, w.OnItsWay n

theorem OneOnItsWay.stepped (h : w.OneOnItsWay) (hs : w.Stepped op t) (hno : ¬ w.Waits op) : t.OneOnItsWay := by
  rcases h with hnil | ⟨n, hway⟩
  · exact .inl ((waited_of_not_waits hs hno).trans hnil)
  · exact .inr ⟨n, hway.stepped hs hno⟩

/-! ## The further returns -/

theorem return_pending {mem : IrqMemory} (hs : w.Stepped (.irqReturn mem) t) :
    t.proc.irqPending = w.proc.irqPending.tail ∧ (w.proc.irqPending = [] → t.proc.irqActive = false) := by
  cases hs with
  | unheard hop | dropped _ hop | entered _ _ _ hop => cases hop
  | queued _ _ hwaits => exact hwaits.elim
  | returned => exact ⟨rfl, fun _ => rfl⟩
  | reentered _ _ _ _ hhead => exact ⟨rfl, fun hnil => by simp [hnil] at hhead⟩

theorem OneOnItsWay.returns (h : w.OneOnItsWay)
    (hmem : ∀ mem ∈ mems, mem.Succeeds) : (w.run (mems.map .irqReturn)).OneOnItsWay := by
  induction mems generalizing w with
  | nil => exact h
  | cons mem rest ih =>
    have hs : w.Stepped (.irqReturn mem) _ := w.stepped (hmem mem mem_cons_self)
    exact ih (h.stepped hs id) fun mem' hm => hmem mem' (mem_cons_of_mem _ hm)

theorem returns_pending (hmem : ∀ mem ∈ mems, mem.Succeeds) :
    (w.run (mems.map .irqReturn)).proc.irqPending = w.proc.irqPending.drop mems.length := by
  induction mems generalizing w with
  | nil => rfl
  | cons mem rest ih =>
    have hrest : ∀ mem ∈ rest, mem.Succeeds := fun mem' hm => hmem mem' (mem_cons_of_mem _ hm)
    obtain ⟨htail, -⟩ := return_pending (@stepped w (.irqReturn mem) (hmem mem mem_cons_self))
    refine (ih hrest).trans ?_
    rw [htail, drop_tail, length_cons]

theorem returns_settle (hmem : ∀ mem ∈ mems, mem.Succeeds)
    (hlen : w.proc.irqPending.length < mems.length) : (w.run (mems.map .irqReturn)).proc.irqActive = false := by
  rcases mems.eq_nil_or_concat with rfl | ⟨front, last, rfl⟩
  · exact absurd hlen (Nat.not_lt_zero _)
  rw [concat_eq_append] at hmem hlen ⊢
  have hfront : ∀ mem ∈ front, mem.Succeeds := fun mem hm => hmem mem (mem_append_left _ hm)
  have hlast : last.Succeeds := hmem last (mem_append_right _ (mem_singleton_self _))
  have hnil : (w.run (front.map .irqReturn)).proc.irqPending = [] := by
    rw [returns_pending hfront, drop_eq_nil_iff]
    rw [length_append, length_singleton] at hlen
    exact Nat.lt_succ_iff.mp hlen
  rw [map_append, run_append]
  exact (return_pending (@stepped (w.run (front.map .irqReturn)) (.irqReturn last) hlast)).2 hnil

/-! ## The main result -/

theorem returns_mem (hops : ∀ op ∈ ops, op.mem.Succeeds)
    (hmems : ∀ mem ∈ mems, mem.Succeeds) : ∀ op ∈ ops ++ mems.map .irqReturn, op.mem.Succeeds := by
  intro op hop
  rcases mem_append.mp hop with hop | hop
  · exact hops op hop
  · obtain ⟨mem, hmem, rfl⟩ := List.mem_map.mp hop
    exact hmems mem hmem

theorem replicate_succeeds (n : Nat) : ∀ mem ∈ replicate n (⟨true, 1⟩ : IrqMemory), mem.Succeeds := by
  intro mem hm
  rw [eq_of_mem_replicate hm]
  exact ⟨rfl, by decide⟩

theorem waited_run (hmem : ∀ op ∈ ops, op.mem.Succeeds) : w.waited <+: (w.run ops).waited :=
  run_keeps (P := fun t => w.waited <+: t.waited) (fun _ _ _ h hs => h.trans (waited_subset hs)) hmem prefix_rfl

theorem mem_waited {pre post : List IrqOp} (hmem : ∀ op' ∈ pre ++ op :: post, op'.mem.Succeeds)
    (h : (w.run pre).Waits op) :
    (w.run pre).waited ++ [(w.run pre).published] <+: (w.run (pre ++ op :: post)).waited := by
  have hs := (w.run pre).stepped (hmem op (mem_append_right _ mem_cons_self))
  rw [← waited_of_waits hs h, run_append]
  exact waited_run (w := (w.run pre).step op) fun op' hop =>
    hmem op' (mem_append_right _ (mem_cons_of_mem _ hop))

theorem two_waits {pre mid post : List IrqOp} {op' : IrqOp}
    (hmem : ∀ op'' ∈ pre ++ op :: (mid ++ op' :: post), op''.mem.Succeeds) (h : (w.run pre).Waits op)
    (h' : (w.run (pre ++ op :: mid)).Waits op') : 2 ≤ (w.run (pre ++ op :: (mid ++ op' :: post))).waited.length := by
  have hsplit : pre ++ op :: (mid ++ op' :: post) = (pre ++ op :: mid) ++ op' :: post := by simp
  rw [hsplit] at hmem ⊢
  have hfirst := (mem_waited (fun op'' hop => hmem op'' (mem_append_left _ hop)) h).length_le
  have hsecond := (mem_waited hmem h').length_le
  rw [length_append, length_singleton] at hfirst hsecond
  omega

theorem place_unique {pre pre' post post' : List IrqOp} {op' : IrqOp}
    (hmem : ∀ op ∈ ops, op.mem.Succeeds) (hone : (w.run ops).waited.length ≤ 1) (hops : ops = pre ++ op :: post)
    (hops' : ops = pre' ++ op' :: post') (h : (w.run pre).Waits op) (h' : (w.run pre').Waits op') : pre' = pre := by
  rcases append_eq_append_iff.mp (hops.symm.trans hops') with ⟨gap, hpre, hpost⟩ | ⟨gap, hpre, hpost⟩
  · cases gap with
    | nil => simpa using hpre
    | cons op'' mid =>
      obtain ⟨rfl, rfl⟩ := List.cons.inj hpost
      subst hops hpre
      exact absurd (two_waits hmem h h') (not_le.mpr (Nat.lt_succ_of_le hone))
  cases gap with
  | nil => simpa using hpre.symm
  | cons op'' mid =>
    obtain ⟨rfl, rfl⟩ := List.cons.inj hpost
    subst hops' hpre
    exact absurd (two_waits hmem h' h) (not_le.mpr (Nat.lt_succ_of_le hone))

/-- If everything that waited is delivered, it was one touch at most, published while the process was waiting. -/
theorem oneWaits_of_delivers (h : w.IrqInv) (hmem : ∀ op ∈ ops, op.mem.Succeeds)
    (hdelivers : w.Delivers ops) : w.OneWaits ops := by
  obtain ⟨n, hn⟩ := hdelivers
  have hall := returns_mem hmem (replicate_succeeds n)
  obtain ⟨hdone, -⟩ := hn (replicate n ⟨true, 1⟩) (by simp) (replicate_succeeds n)
  generalize (replicate n (⟨true, 1⟩ : IrqMemory)).map IrqOp.irqReturn = rest at hdone hall
  have hend : (w.run (ops ++ rest)).IrqInv := run_keeps (fun _ _ _ h hs => h.stepped hs) hall h
  have hone : (w.run (ops ++ rest)).waited.length ≤ 1 := by
    rw [← hdone]
    refine (length_filter_le ..).trans ?_
    rcases hend.once with hwait | ⟨-, hone⟩
    · simp [hend.idle hwait]
    · exact hone
  intro pre op post hops hwaits
  refine ⟨?_, fun pre' op' post' hops' hwaits' => ?_⟩
  · by_contra hqueues
    have hlist : ops ++ rest = pre ++ op :: (post ++ rest) := by simp [hops]
    rw [hlist] at hall hdone
    have hpre : (w.run pre).IrqInv :=
      run_keeps (fun _ _ _ h hs => h.stepped hs) (fun op' hop => hall op' (mem_append_left _ hop)) h
    have hs := (w.run pre).stepped (hall op (mem_append_right _ mem_cons_self))
    have hdropped : (w.run (pre ++ op :: (post ++ rest))).Dropped (w.run pre).published := by
      rw [run_append]
      exact run_keeps (w := (w.run pre).step op) (fun _ _ _ h hs => h.stepped hs)
        (fun op' hop => hall op' (mem_append_right _ (mem_cons_of_mem _ hop))) (hpre.dropped hs hwaits hqueues)
    have hin : (w.run pre).published ∈ (w.run (pre ++ op :: (post ++ rest))).waited :=
      (mem_waited hall hwaits).subset (mem_append_right _ (mem_singleton_self _))
    rw [← hdone] at hin
    exact hdropped.entered (mem_of_mem_filter hin)
  · have hlonger : ops ++ rest = pre ++ op :: (post ++ rest) := by simp [hops]
    have hlonger' : ops ++ rest = pre' ++ op' :: (post' ++ rest) := by simp [hops']
    exact place_unique hall hone hlonger hlonger' hwaits hwaits'

/-- Before each step of a run in which one touch at most waits, nothing has waited or the touch is on its way. -/
theorem on_its_way_of_oneWaits (h : w.IrqInv) (hnone : w.waited = []) (hmem : ∀ op ∈ ops, op.mem.Succeeds)
    (hone : w.OneWaits ops) (xs ys : List IrqOp) (hops : ops = xs ++ ys) : (w.run xs).OneOnItsWay := by
  induction xs using List.reverseRecOn generalizing ys with
  | nil => exact .inl hnone
  | append_singleton xs op ih =>
    have hops' : ops = xs ++ op :: ys := by simpa using hops
    have hxs : ∀ op' ∈ xs, op'.mem.Succeeds := fun op' hop => hmem op' (hops' ▸ mem_append_left _ hop)
    have hs := (w.run xs).stepped (hmem op (hops' ▸ mem_append_right _ mem_cons_self))
    have hinv : (w.run xs).IrqInv := run_keeps (fun _ _ _ h hs => h.stepped hs) hxs h
    rw [run_append]
    change ((w.run xs).step op).OneOnItsWay
    by_cases hwaits : (w.run xs).Waits op
    · obtain ⟨hqueues, honly⟩ := hone xs op ys hops' hwaits
      have hfirst : (w.run xs).waited = [] := by
        by_contra hsome
        obtain ⟨pre, op', post, hpre, hwaits'⟩ := exists_waits hxs hnone hsome
        have hsame : pre = xs := honly pre op' (post ++ op :: ys) (by simp [hops', hpre]) hwaits'
        rw [hsame] at hpre
        exact absurd hpre (by simp)
      exact .inr ⟨_, hinv.on_its_way hfirst hs hwaits hqueues⟩
    · exact (ih (op :: ys) hops').stepped hs hwaits

theorem delivers_of_oneWaits (h : w.IrqInv) (hnone : w.waited = [])
    (hmem : ∀ op ∈ ops, op.mem.Succeeds) (hone : w.OneWaits ops) : w.Delivers ops := by
  refine ⟨(w.run ops).proc.irqPending.length + 1, fun mems hlen hmems => ?_⟩
  have hinv : (w.run (ops ++ mems.map .irqReturn)).IrqInv :=
    run_keeps (fun _ _ _ h hs => h.stepped hs) (returns_mem hmem hmems) h
  have hidle : (w.run (ops ++ mems.map .irqReturn)).proc.irqActive = false := by
    rw [run_append]
    exact returns_settle hmems hlen
  refine ⟨?_, fun r hr => (hinv.saved r hr).2 hidle⟩
  have hphase : (w.run (ops ++ mems.map .irqReturn)).OneOnItsWay := by
    rw [run_append]
    exact (on_its_way_of_oneWaits h hnone hmem hone ops [] (append_nil _).symm).returns hmems
  rcases hphase with hnil | ⟨n, hway⟩
  · simp [hnil]
  · cases hway with
    | pending _ _ _ _ hactive => exact absurd (hactive.symm.trans hidle) (by decide)
    | entered hwaited hentered => simp [hwaited, hentered]

end IrqWorld

/-- From a waiting process on, whose allocations succeed: the touches published while a handler is active reach it in
order and once each, and the registers come back, exactly if there is at most one such touch, published while the
process waits and to a claim that holds none latched. -/
theorem irq_delivers_iff (proc : IrqProcess) (ops : List IrqOp) (hwait : proc.state = .waiting)
    (hmem : ∀ op ∈ ops, op.mem.Succeeds) : (irqStart proc).Delivers ops ↔ (irqStart proc).OneWaits ops :=
  ⟨IrqWorld.oneWaits_of_delivers (IrqWorld.start_inv hwait) hmem,
    IrqWorld.delivers_of_oneWaits (IrqWorld.start_inv hwait) rfl hmem⟩

/-- A waiting process that is interrupted by the tag 1. -/
def clickListener : IrqProcess where
  pid := 7
  state := .waiting
  destroying := false
  regs := ⟨0x1000, 0x8000, 0x202⟩
  rdi := 0
  irqActive := false
  irqSaved := ⟨0, 0, 0⟩
  irqPending := []
  subs := [⟨7, 1, .interrupt, false, 0, [], 0x2000, 0x9000⟩]

def click : IrqOp := .publish 1 ⟨some [5], 1⟩ 0 1 .edge ⟨true, 0x40000⟩

def clickReturn : IrqOp := .irqReturn ⟨true, 0x40000⟩

/-- The listener waits in its handler. -/
def waitingHandler : IrqProcess :=
  { clickListener with regs := ⟨0x2010, 0x8ff0, 0x202⟩, irqActive := true, irqSaved := ⟨0x1000, 0x8000, 0x202⟩ }

/-- The click waits for the return of that handler, and then enters it. -/
theorem irq_delivers_waiting :
    let ops := [click, clickReturn, clickReturn]
    ((irqStart waitingHandler).run ops).waited = [0] ∧ ((irqStart waitingHandler).run ops).entered = [0] ∧
      ((irqStart waitingHandler).Delivers ops ↔ (irqStart waitingHandler).OneWaits ops) :=
  ⟨by decide, by decide, irq_delivers_iff waitingHandler [click, clickReturn, clickReturn] rfl (by
    intro op hop
    rcases mem_cons.mp hop with rfl | hop
    · exact ⟨rfl, by decide⟩
    · rcases mem_pair.mp hop with rfl | rfl <;> exact ⟨rfl, by decide⟩)⟩

/-- A second click, made while the handler of the first is active, never reaches the handler. -/
theorem second_click_lost : ¬ (irqStart clickListener).Delivers [click, click, clickReturn] := by
  rintro ⟨n, hn⟩
  obtain ⟨hdone, -⟩ := hn (replicate n ⟨true, 1⟩) (by simp) (IrqWorld.replicate_succeeds n)
  rw [IrqWorld.run_append] at hdone
  have hdropped : ((irqStart clickListener).run [click, click, clickReturn]).Dropped 1 :=
    ⟨by decide, fun q hq => (not_mem_nil hq).elim, by decide⟩
  have hreturns := @IrqWorld.returns_mem [] _ (by simp) (IrqWorld.replicate_succeeds n)
  rw [nil_append] at hreturns
  have hend := IrqWorld.run_keeps (fun _ _ _ h hs => h.stepped hs) hreturns hdropped
  have hin : 1 ∈ (((irqStart clickListener).run [click, click, clickReturn]).run
      ((replicate n (⟨true, 1⟩ : IrqMemory)).map IrqOp.irqReturn)).waited :=
    (IrqWorld.waited_run hreturns).subset (by decide)
  rw [← hdone] at hin
  exact hend.entered (mem_of_mem_filter hin)

end BoxOS.Touch
