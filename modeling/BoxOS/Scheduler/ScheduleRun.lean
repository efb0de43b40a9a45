import BoxOS.Scheduler.Schedule

/-! # No process is lost or run twice

The queues of the cores stay apart (`QueuesOk`), the marks `on_cpu` agree with the current processes (`CpusOk`), and a
process that is due has a place (`Machine.Kept`): along every run in which each enqueue finds the process in no other
core's queue and a free slot, and no core loses the exchange of `on_cpu`. -/

set_option linter.unusedSectionVars false
open Function (update update_of_ne update_self)

namespace BoxOS.Scheduler

open List Option Machine

variable {C P : Type} [DecidableEq C] [DecidableEq P]

/-! ## Selecting -/

section selecting

variable {s : RqState P} {gone : P → Prop}

theorem Takes.trans {s' s'' : RqState P} {p : P} {next : Option P} (h : Takes gone s s' (some p)) (hp : gone p)
    (h' : Takes gone s' s'' next) : Takes gone s s'' next := by
  refine ⟨h'.tidy, fun x hx => h.sub x (h'.sub x hx), fun x hx => ?_, fun x hx => ?_, fun x hx => ?_,
    fun x hx hx' => ?_⟩
  · rcases h.kept x hx with hq | hg | hn
    · exact h'.kept x hq
    · exact .inr (.inl hg)
    · rw [some.injEq] at hn
      exact .inr (.inl (hn ▸ hp))
  · obtain ⟨hq, hnot⟩ := h'.next x hx
    exact ⟨h.sub x hq, hnot⟩
  · rw [h'.same x fun hq => hx (h.sub x hq), h.same x hx]
  · by_cases hq : s'.Queued x
    · exact h'.left x hq hx'
    · rw [h'.same x hq, h.left x hx hq]

theorem Takes.mono {s' : RqState P} {next : Option P} {gone' : P → Prop} (h : Takes gone s s' next)
    (hgone : ∀ x, gone x → gone' x) : Takes gone' s s' next :=
  { h with kept := fun x hx => (h.kept x hx).imp_right (Or.imp_left (hgone x)) }

theorem selectLoop_takes (destroying : P → Bool) (kmalloc : Nat → Option (Nat → Option P)) (n : Nat)
    {r : RqState P × Option P} (h : Takes (fun x => destroying x = true) s r.1 r.2) : Takes (fun x =>
    destroying x = true) s (selectLoop destroying kmalloc n r).1 (selectLoop destroying kmalloc n r).2 := by
  induction n generalizing r with
  | zero => exact h
  | succ n ih =>
    obtain ⟨s', next⟩ := r
    cases next with
    | none => exact h
    | some p =>
      rw [selectLoop]
      split
      · rename_i hp
        obtain ⟨ls, hls⟩ := h.tidy
        exact ih (h.trans hp ((hls.dequeueBest (kmalloc n)).mono fun _ hf => hf.elim))
      · exact h

theorem schedulerSelectNext_takes (h : s.Tidy) (destroying : P → Bool) (kmalloc : Nat → Option (Nat → Option P))
    (fairnessRound : Bool) :
    Takes (fun x => destroying x = true) s (schedulerSelectNext destroying kmalloc fairnessRound s).1
      (schedulerSelectNext destroying kmalloc fairnessRound s).2 := by
  obtain ⟨ls, hls⟩ := h
  refine selectLoop_takes destroying kmalloc _ ?_
  cases fairnessRound with
  | true => exact (hls.selectFair _).mono fun _ hf => hf.elim
  | false => exact (hls.dequeueBest _).mono fun _ hf => hf.elim

variable {ls : Nat → List P}

end selecting

/-! ## The queues of the cores -/

structure QueuesOk (m : Machine C P) : Prop where
  tidy : ∀ c, (m.core c).Tidy
  apart : ∀ c d p, (m.core c).Queued p → (m.core d).Queued p → c = d
  blank : ∀ p, (∀ c, ¬ (m.core c).Queued p) → m.proc p = {}

theorem RqState.Tidy.frame {s : RqState P} (h : s.Tidy) {proc' : P → RqFields}
    (hframe : ∀ p, s.Queued p → proc' p = s.proc p) : RqState.Tidy ⟨s.rq, proc'⟩ := by
  obtain ⟨ls, hls⟩ := h
  refine ⟨ls, ⟨hls.holds.queues, fun i hi k hk p hp => ?_, hls.holds.bitmap, hls.holds.total⟩, fun i hi j p hp => ?_,
    hls.small⟩
  · have hmem : p ∈ ls i := (hls.holds.queues i hi).mem.mpr ⟨k, hk, hp⟩
    exact (hframe p (hls.holds.queued.mpr ⟨i, hi, hmem⟩)).trans (hls.holds.named i hi k hk p hp)
  · obtain ⟨hmem, hfields⟩ := hls.clean i hi j p hp
    exact ⟨hmem, (hframe p (hls.holds.queued.mpr ⟨i, hi, hmem⟩)).trans hfields⟩

section queues

variable {m : Machine C P} {c d : C} {s' : RqState P} {p : P}

theorem Machine.core_setCore_self : (m.setCore c s').core c = s' := by
  simp [core, setCore]

theorem Machine.queued_setCore_ne (hne : d ≠ c) : ((m.setCore c s').core d).Queued p ↔ (m.core d).Queued p := by
  rw [core, setCore]
  simp only [update_of_ne hne]
  exact Iff.rfl

theorem Machine.queued_setCore :
    ((m.setCore c s').core d).Queued p ↔ if d = c then s'.Queued p else (m.core d).Queued p := by
  by_cases hd : d = c
  · subst hd
    rw [if_pos rfl, core_setCore_self]
  · rw [if_neg hd, queued_setCore_ne hd]

theorem QueuesOk.tidy_setCore (h : QueuesOk m) (htidy : s'.Tidy)
    (hframe : ∀ x, ¬ (m.core c).Queued x → (∃ d, (m.core d).Queued x) → s'.proc x = m.proc x) (d : C) :
    ((m.setCore c s').core d).Tidy := by
  by_cases hd : d = c
  · subst hd
    rwa [core_setCore_self]
  · rw [core, setCore]
    simp only [update_of_ne hd]
    exact (h.tidy d).frame fun x hx => hframe x (fun hc => hd (h.apart d c x hx hc)) ⟨d, hx⟩

theorem QueuesOk.takes {gone : P → Prop} {next : Option P} (h : QueuesOk m) (ht : Takes gone (m.core c) s' next) :
    QueuesOk (m.setCore c s') := by
  have hsub : ∀ d x, ((m.setCore c s').core d).Queued x → (m.core d).Queued x := by
    intro d x hx
    rw [queued_setCore] at hx
    split at hx
    · rename_i hd
      exact hd ▸ ht.sub x hx
    · exact hx
  refine ⟨h.tidy_setCore ht.tidy fun x hx _ => ht.same x hx,
    fun a b x ha hb => h.apart a b x (hsub a x ha) (hsub b x hb), fun x hx => ?_⟩
  have hx' : ¬ s'.Queued x := by
    have hc := hx c
    rwa [core_setCore_self] at hc
  by_cases hq : (m.core c).Queued x
  · exact ht.left x hq hx'
  refine (ht.same x hq).trans (h.blank x fun d hd => ?_)
  by_cases hdc : d = c
  · exact hq (hdc ▸ hd)
  · exact hx d ((queued_setCore_ne hdc).mpr hd)

theorem QueuesOk.adds (h : QueuesOk m) (ha : Adds (m.core c) s' p) (hp : ∀ d, d ≠ c → ¬ (m.core d).Queued p) :
    QueuesOk (m.setCore c s') := by
  have hold : ∀ d x, ((m.setCore c s').core d).Queued x → (m.core d).Queued x ∨ x = p ∧ d = c := by
    intro d x hx
    rw [queued_setCore] at hx
    split at hx
    · rename_i hd
      rcases (ha.queued x).mp hx with hq | rfl
      · exact .inl (hd ▸ hq)
      · exact .inr ⟨rfl, hd⟩
    · exact .inl hx
  refine ⟨h.tidy_setCore ha.tidy fun x hx hd => ha.same x ?_, fun a b x hxa hxb => ?_, fun x hx => ?_⟩
  · rintro rfl
    obtain ⟨d, hd⟩ := hd
    exact hp d (fun hdc => hx (hdc ▸ hd)) hd
  · rcases hold a x hxa with ha' | ⟨hxp, ha'⟩ <;> rcases hold b x hxb with hb' | ⟨hxp', hb'⟩
    · exact h.apart a b x ha' hb'
    · by_contra hne
      exact hp a (hb' ▸ hne) (hxp' ▸ ha')
    · by_contra hne
      exact hp b (fun hb => hne (ha'.trans hb.symm)) (hxp ▸ hb')
    · rw [ha', hb']
  · have hc := hx c
    rw [core_setCore_self, ha.queued, not_or] at hc
    refine (ha.same x hc.2).trans (h.blank x fun d hd => ?_)
    by_cases hdc : d = c
    · exact hc.1 (hdc ▸ hd)
    · exact hx d ((queued_setCore_ne hdc).mpr hd)

theorem QueuesOk.prio_lt (h : QueuesOk m) (p : P) : (m.proc p).prio < schedPrioLevels := by
  by_cases hq : ∃ c, (m.core c).Queued p
  · obtain ⟨c, hq⟩ := hq
    obtain ⟨ls, hls⟩ := h.tidy c
    obtain ⟨i, hi, hmem⟩ := hls.holds.queued.mp hq
    obtain ⟨k, -, -, hfields⟩ := hls.holds.fields hi hmem
    have hprio : (m.proc p).prio = i := congrArg RqFields.prio hfields
    rw [hprio]
    exact_mod_cast hi
  · rw [h.blank p fun c hc => hq ⟨c, hc⟩]
    decide

theorem QueuesOk.contains_iff (h : QueuesOk m) : runqueueContains (m.core c) p = true ↔ (m.core c).Queued p := by
  obtain ⟨ls, hls⟩ := h.tidy c
  exact hls.contains_eq (h.prio_lt p)

theorem QueuesOk.remove_takes (h : QueuesOk m) : Takes (· = p) (m.core c) (runqueueRemove (m.core c) p) none := by
  obtain ⟨ls, hls⟩ := h.tidy c
  by_cases hq : (m.core c).Queued p
  · exact hls.remove hq
  · rw [hls.remove_absent hq (h.prio_lt p)]
    exact .refl ⟨ls, hls⟩ _

end queues

/-! ## The marks of the cores -/

/-- What a core has read and claimed, at each place of `schedule()`. -/
def PcOk (onCpu : P → Option C) (current : Option P) (c : C) : Pc P → Prop
  | .outside | .starting _ | .marking _ => True
  | .entered cur | .selecting cur | .selected cur _ | .stolen cur _ | .installing cur _ | .claiming cur _
  | .exchanging cur _ => current = cur
  | .requeueing p => current = some p
  | .switching cur next => current = cur ∧ ∀ p, next = some p → onCpu p = some c
  | .releasing cur next => current = next ∧ ∀ p, cur = some p → onCpu p = some c

structure CpusOk (m : Machine C P) : Prop where
  current : ∀ c p, m.current c = some p → m.onCpu p = some c
  pc : ∀ c, PcOk m.onCpu (m.current c) c (m.pc c)

variable {c : C} {m m' : Machine C P} {p : P}

theorem PcOk.mono {onCpu onCpu' : P → Option C} {current : Option P} {pc : Pc P} (h : PcOk onCpu current c pc)
    (hmono : ∀ p, onCpu p = some c → onCpu' p = some c) : PcOk onCpu' current c pc := by
  cases pc with
  | switching cur next => exact ⟨h.1, fun p hp => hmono p (h.2 p hp)⟩
  | releasing cur next => exact ⟨h.1, fun p hp => hmono p (h.2 p hp)⟩
  | outside | starting | marking | entered | selecting | selected | stolen | installing | claiming | exchanging
  | requeueing => exact h

theorem CpusOk.setPc {pc : Pc P} (h : CpusOk m) (hcur : m'.current = m.current) (hcpu : m'.onCpu = m.onCpu)
    (hpc : m'.pc = update m.pc c pc) (hok : PcOk m.onCpu (m.current c) c pc) : CpusOk m' := by
  refine ⟨fun d p hp => ?_, fun d => ?_⟩
  · rw [hcpu]
    exact h.current d p (hcur ▸ hp)
  · rw [hcpu, hcur, hpc]
    by_cases hd : d = c
    · subst hd
      rwa [update_self]
    · rw [update_of_ne hd]
      exact h.pc d

theorem CpusOk.same (h : CpusOk m) (hcur : m'.current = m.current) (hcpu : m'.onCpu = m.onCpu)
    (hpc : m'.pc = m.pc) : CpusOk m' :=
  ⟨fun c p hp => hcpu ▸ h.current c p (hcur ▸ hp), fun c => by rw [hcpu, hcur, hpc]; exact h.pc c⟩

theorem requeue_frame (m : Machine C P) (c : C) (r : Readings C P) (p : P) :
    (requeue m c r p).current = m.current ∧ (requeue m c r p).onCpu = m.onCpu ∧ (requeue m c r p).pc = m.pc ∧
      (requeue m c r p).state = m.state ∧ (requeue m c r p).destroying = m.destroying := by
  unfold requeue
  split
  · split <;> exact ⟨rfl, rfl, rfl, rfl, rfl⟩
  · exact ⟨rfl, rfl, rfl, rfl, rfl⟩

theorem enqueueSection_frame (m : Machine C P) (c : C) (p : P) (prio : Nat) (kmalloc : Option (Nat → Option P)) :
    (enqueueSection m c p prio kmalloc).current = m.current ∧ (enqueueSection m c p prio kmalloc).onCpu = m.onCpu ∧
    (enqueueSection m c p prio kmalloc).pc = m.pc ∧ (enqueueSection m c p prio kmalloc).destroying = m.destroying := by
  unfold enqueueSection
  split <;> exact ⟨rfl, rfl, rfl, rfl⟩

section marks

variable {m : Machine C P} {c : C} {cur next : Option P} {p : P}

theorem CpusOk.claim (h : CpusOk m) (hpc : PcOk m.onCpu (m.current c) c (.exchanging cur p))
    (hfree : m.onCpu p = none) :
    CpusOk { m.setPc c (.switching cur (some p)) with onCpu := update m.onCpu p (some c) } := by
  have hother : ∀ d x, m.onCpu x = some d → update m.onCpu p (some c) x = some d := by
    intro d x hx
    have hxp : x ≠ p := fun he => (nomatch (he ▸ hx).symm.trans hfree)
    rw [update_of_ne hxp, hx]
  refine ⟨fun d x hx => hother d x (h.current d x hx), fun d => ?_⟩
  simp only [Machine.setPc]
  by_cases hd : d = c
  · subst hd
    rw [update_self]
    exact ⟨hpc, fun x hx => some.inj hx ▸ update_self _ _ _⟩
  · rw [update_of_ne hd]
    exact (h.pc d).mono (hother d)

theorem CpusOk.switch (h : CpusOk m) (hpc : PcOk m.onCpu (m.current c) c (.switching cur next)) :
    CpusOk { m.setPc c (.releasing cur next) with current := update m.current c next } := by
  refine ⟨fun d x hx => ?_, fun d => ?_⟩
  · simp only at hx
    by_cases hd : d = c
    · subst hd
      rw [update_self] at hx
      exact hpc.2 x hx
    · rw [update_of_ne hd] at hx
      exact h.current d x hx
  · simp only [Machine.setPc]
    by_cases hd : d = c
    · subst hd
      rw [update_self, update_self]
      exact ⟨rfl, fun x hx => h.current d x (hpc.1.trans hx)⟩
    · rw [update_of_ne hd, update_of_ne hd]
      exact h.pc d

theorem CpusOk.release (h : CpusOk m) (hpc : PcOk m.onCpu (m.current c) c (.releasing (some p) next)) :
    CpusOk { m.setPc c (.starting next) with onCpu := if next = some p then m.onCpu else update m.onCpu p none } := by
  by_cases hnext : next = some p
  · rw [if_pos hnext]
    exact h.setPc rfl rfl rfl trivial
  rw [if_neg hnext]
  have hmark := hpc.2 p rfl
  refine ⟨fun d x hx => ?_, fun d => ?_⟩
  · have hxd := h.current d x hx
    have hxp : x ≠ p := by
      rintro rfl
      obtain rfl : c = d := some.inj (hmark.symm.trans hxd)
      exact hnext (hpc.1.symm.trans hx)
    exact (update_of_ne hxp _ _).trans hxd
  · simp only [Machine.setPc]
    by_cases hd : d = c
    · subst hd
      rw [update_self]
      exact trivial
    rw [update_of_ne hd]
    refine (h.pc d).mono fun x hx => ?_
    have hxp : x ≠ p := fun he => hd (some.inj ((he ▸ hx).symm.trans hmark))
    rw [update_of_ne hxp, hx]

end marks

theorem CpusOk.coreStep (h : CpusOk m) (c : C) (r : Readings C P) : CpusOk (coreStep m c r) := by
  have hpc := h.pc c
  unfold Scheduler.coreStep
  split <;> rename_i heq <;> rw [heq] at hpc
  · split
    · exact h
    · exact h.setPc rfl rfl rfl rfl
  · exact h.setPc rfl rfl rfl hpc
  · split
    · exact h.setPc rfl rfl rfl hpc
    · exact h.setPc rfl rfl rfl hpc
  · obtain ⟨hcur, hcpu, hpc', -⟩ := requeue_frame m c r _
    exact h.setPc hcur hcpu (congrArg (fun f => update f c _) hpc') hpc
  · split
    · exact h.setPc rfl rfl rfl hpc
    · exact h.setPc rfl rfl rfl hpc
  · exact h.setPc rfl rfl rfl hpc
  · split
    · exact h.setPc rfl rfl rfl hpc
    · simp only
      split
      · exact h.setPc rfl rfl rfl hpc
      · exact h.setPc rfl rfl rfl hpc
  · exact h.setPc rfl rfl rfl hpc
  · exact h.setPc rfl rfl rfl ⟨hpc, fun p hp => (nomatch hp)⟩
  · refine h.setPc rfl rfl rfl ?_
    split
    · exact ⟨hpc, fun p hp => (nomatch hp)⟩
    · exact hpc
  · refine h.setPc rfl rfl rfl ?_
    split
    · rename_i hcpu
      exact ⟨hpc, fun p hp => (some.inj hp) ▸ hcpu⟩
    · exact hpc
  · split
    · exact h.claim hpc ‹_›
    · exact h.setPc rfl rfl rfl ⟨hpc, fun p hp => (nomatch hp)⟩
  · exact h.switch hpc
  · exact h.setPc rfl rfl rfl trivial
  · exact h.release hpc
  · exact h.setPc rfl rfl rfl trivial
  · refine h.setPc rfl rfl rfl ?_
    split <;> exact trivial
  · exact h.setPc rfl rfl rfl trivial

/-! ## The steps that keep every process -/

/-- The queue of priority `prio` has a free slot. -/
def RqState.HasRoom (s : RqState P) (prio : Nat) : Prop :=
  (s.rq.queues prio).count < (s.rq.queues prio).capacity

/-- Putting a process in a queue of core `c` finds it in no queue of another core. -/
def Machine.Elsewhere (m : Machine C P) (c : C) (p : P) : Prop :=
  ∃ d, d ≠ c ∧ (m.core d).Queued p

/-- The current process is put back where it can be, and an exchange of `on_cpu` is not lost. -/
def Machine.KeepsAt (m : Machine C P) (c : C) (r : Readings C P) : Pc P → Prop
  | .requeueing p => m.state p = .working → ¬ m.Elsewhere c p ∧ ((m.core c).Queued p ∨ (m.core c).HasRoom r.prio)
  | .exchanging _ p => m.onCpu p = none
  | _ => True

/-- An enqueue finds the process on no other core and does not grow a queue; no exchange of `on_cpu` is lost. -/
def Machine.Keeps (m : Machine C P) : SchedEvent C P → Prop
  | .core c r => m.KeepsAt c r (m.pc c)
  | .enqueueOn c p prio kmalloc =>
    ¬ m.Elsewhere c p ∧ ((m.core c).HasRoom prio ∨ enqueueRoom kmalloc ((m.core c).rq.queues prio) = none)
  | _ => True

theorem QueuesOk.congr (h : QueuesOk m) (hrq : m'.rq = m.rq) (hproc : m'.proc = m.proc) : QueuesOk m' := by
  have hcore : ∀ c, m'.core c = m.core c := fun c => by rw [core, core, hrq, hproc]
  refine ⟨fun c => ?_, fun c d p hc hd => ?_, fun p hp => ?_⟩
  · rw [hcore]
    exact h.tidy c
  · rw [hcore] at hc hd
    exact h.apart c d p hc hd
  · rw [hproc]
    exact h.blank p fun c hc => hp c (by rwa [hcore])

section queues

variable {m : Machine C P} {c : C} {p : P} {r : Readings C P}

theorem enqueue_noRoom {s : RqState P} {prio : Nat} {kmalloc : Option (Nat → Option P)}
    (h : enqueueRoom kmalloc (s.rq.queues prio) = none) : runqueueEnqueue kmalloc s p prio = (s, false) := by
  unfold runqueueEnqueue
  rw [Int.toNat_natCast]
  split
  · rfl
  · split
    · rfl
    · rw [h]

theorem QueuesOk.enqueue (h : QueuesOk m) {prio : Nat} (hprio : prio < schedPrioLevels)
    {kmalloc : Option (Nat → Option P)} (hp : ¬ (m.core c).Queued p) (hroom : (m.core c).HasRoom prio) :
    (runqueueEnqueue kmalloc (m.core c) p prio).2 = true ∧
    Adds (m.core c) (runqueueEnqueue kmalloc (m.core c) p prio).1 p := by
  obtain ⟨ls, hls⟩ := h.tidy c
  exact hls.enqueue hp hprio hroom

theorem Machine.not_elsewhere (h : ¬ m.Elsewhere c p) : ∀ d, d ≠ c → ¬ (m.core d).Queued p :=
  fun d hd hq => h ⟨d, hd, hq⟩

theorem QueuesOk.requeue (h : QueuesOk m)
    (hkeeps : m.state p = .working → ¬ m.Elsewhere c p ∧ ((m.core c).Queued p ∨ (m.core c).HasRoom r.prio)) :
    QueuesOk (requeue m c r p) ∧ (∀ d x, (m.core d).Queued x → ((requeue m c r p).core d).Queued x) ∧
    (∀ x, (requeue m c r p).due x → m.due x ∨ x = p) ∧
    ((requeue m c r p).due p → ∃ d, ((requeue m c r p).core d).Queued p ∨ (m.pc d).Holding p) := by
  unfold Scheduler.requeue
  split
  · rename_i hwork
    obtain ⟨helse, hroom⟩ := hkeeps hwork
    split
    · rename_i hc
      exact ⟨h, fun _ _ hq => hq, fun _ hx => .inl hx, fun _ => ⟨c, .inl (h.contains_iff.mp hc)⟩⟩
    rename_i hc
    have hq : ¬ (m.core c).Queued p := fun hq => hc (h.contains_iff.mpr hq)
    obtain ⟨-, hadds⟩ := @QueuesOk.enqueue C P _ _ m c p h r.prio r.prio.isLt (r.kmalloc 0) hq (hroom.resolve_left hq)
    refine ⟨(h.adds hadds (not_elsewhere helse)).congr rfl rfl, fun d x hx => ?_, fun x hx => hx.imp_right And.left,
      fun _ => ⟨c, .inl ?_⟩⟩
    · refine queued_setCore.mpr ?_
      split
      · rename_i hd
        exact (hadds.queued x).mpr (.inl (hd ▸ hx))
      · exact hx
    · refine queued_setCore.mpr ?_
      rw [if_pos rfl]
      exact (hadds.queued p).mpr (.inr rfl)
  · refine ⟨h.congr rfl rfl, fun _ _ hq => hq, fun x hx => .inl hx.1, fun hdue => ?_⟩
    rcases hdue.2 rfl with ⟨d, hd⟩ | ⟨d, hd⟩
    · exact ⟨d, .inl hd⟩
    · exact ⟨d, .inr hd⟩

theorem QueuesOk.enqueueSection (h : QueuesOk m) {prio : Nat} (hprio : prio < schedPrioLevels)
    {kmalloc : Option (Nat → Option P)} (helse : ¬ m.Elsewhere c p)
    (hroom : (m.core c).HasRoom prio ∨ enqueueRoom kmalloc ((m.core c).rq.queues prio) = none) :
    QueuesOk (enqueueSection m c p prio kmalloc) ∧
    (∀ d x, (m.core d).Queued x → ((enqueueSection m c p prio kmalloc).core d).Queued x) ∧ ∀ x,
    (enqueueSection m c p prio kmalloc).due x → m.due x ∨ ((enqueueSection m c p prio kmalloc).core c).Queued x := by
  unfold Scheduler.enqueueSection
  split
  · rename_i hc
    refine ⟨h.congr rfl rfl, fun _ _ hq => hq, fun x hx => hx.imp_right ?_⟩
    rintro rfl
    exact h.contains_iff.mp hc
  rename_i hc
  have hq : ¬ (m.core c).Queued p := fun hq => hc (h.contains_iff.mpr hq)
  rcases hroom with hroom | hnone
  · obtain ⟨-, hadds⟩ := @QueuesOk.enqueue C P _ _ m c p h prio hprio kmalloc hq hroom
    refine ⟨(h.adds hadds (not_elsewhere helse)).congr rfl rfl, fun d x hx => ?_, fun x hx => hx.imp_right ?_⟩
    · refine queued_setCore.mpr ?_
      split
      · rename_i hd
        exact (hadds.queued x).mpr (.inl (hd ▸ hx))
      · exact hx
    · rintro ⟨rfl, -⟩
      refine queued_setCore.mpr ?_
      rw [if_pos rfl]
      exact (hadds.queued x).mpr (.inr rfl)
  · rw [enqueue_noRoom hnone]
    have hsame : m.setCore c (m.core c) = m := by
      rw [setCore, core, Function.update_eq_self]
    simp only [hsame]
    exact ⟨h.congr rfl rfl, fun _ _ hq => hq, fun x hx => hx.imp_right fun hf => (nomatch hf.2)⟩

theorem QueuesOk.coreStep (h : QueuesOk m) (hkeeps : m.Keeps (.core c r)) : QueuesOk (coreStep m c r) := by
  change m.KeepsAt c r (m.pc c) at hkeeps
  unfold Scheduler.coreStep
  split <;> rename_i heq <;> rw [heq] at hkeeps
  case h_4 => exact (h.requeue hkeeps).1.congr rfl rfl
  case h_5 =>
    -- selecting
    split
    · exact h.congr rfl rfl
    · exact (h.takes (schedulerSelectNext_takes (h.tidy c) _ _ _)).congr rfl rfl
  case h_7 =>
    -- selected: the idle process, so stealing may be tried
    split
    · exact h.congr rfl rfl
    rename_i v _
    obtain ⟨ls, hls⟩ := h.tidy v
    have hv := h.takes hls.stealPop
    simp only
    split <;> exact hv.congr rfl rfl
  all_goals first | exact h.congr rfl rfl | (split <;> exact h.congr rfl rfl)

end queues

/-! ## Places -/

/-- `schedule()` has settled what becomes of the process it found running, and has not switched yet. -/
def Pc.Left : Pc P → Prop
  | .selecting _ | .selected _ _ | .stolen _ _ | .installing _ _ | .claiming _ _ | .exchanging _ _ | .switching _ _ =>
    True
  | _ => False

/-- The process has a place: a queue, a core that holds it, or a core it runs on and that will put it back. -/
def Machine.Kept (m : Machine C P) (p : P) : Prop :=
  m.destroying p = true ∨ m.Placed p ∨ ∃ c, m.current c = some p ∧ ¬ (m.pc c).Left

def DueOk (m : Machine C P) : Prop :=
  ∀ p, m.due p → m.Kept p

section places

variable {m m' : Machine C P} {c : C} {p : P} {pc : Pc P} {r : Readings C P}

theorem Machine.Kept.of_queued {d : C} (h : (m.core d).Queued p) : m.Kept p :=
  .inr (.inl (.inl ⟨d, h⟩))

theorem Machine.Kept.of_holding {d : C} (h : (m.pc d).Holding p) : m.Kept p :=
  .inr (.inl (.inr ⟨d, h⟩))

theorem Machine.Kept.move (h : m.Kept p) (hdes : m.destroying p = true → m'.destroying p = true)
    (hcur : ∀ d, d ≠ c → m'.current d = m.current d) (hpc : m'.pc = update m.pc c pc)
    (hqueue : ∀ d, (m.core d).Queued p → m'.Kept p) (hhold : (m.pc c).Holding p → m'.Kept p)
    (hstay : m.current c = some p → ¬ (m.pc c).Left → m'.Kept p) : m'.Kept p := by
  rcases h with hd | (⟨d, hd⟩ | ⟨d, hd⟩) | ⟨d, hd, hleft⟩
  · exact .inl (hdes hd)
  · exact hqueue d hd
  · by_cases hdc : d = c
    · exact hhold (hdc ▸ hd)
    · refine .of_holding (d := d) ?_
      rw [hpc, update_of_ne hdc]
      exact hd
  · by_cases hdc : d = c
    · subst hdc
      exact hstay hd hleft
    · refine .inr (.inr ⟨d, (hcur d hdc).trans hd, ?_⟩)
      rw [hpc, update_of_ne hdc]
      exact hleft

theorem Machine.Kept.setPc (h : m.Kept p) (hdes : m'.destroying = m.destroying) (hcur : m'.current = m.current)
    (hrq : m'.rq = m.rq) (hpc : m'.pc = update m.pc c pc)
    (hhold : (m.pc c).Holding p → m.destroying p = true ∨ pc.Holding p)
    (hstay : m.current c = some p → ¬ (m.pc c).Left → ¬ pc.Left) : m'.Kept p := by
  have hpcc : m'.pc c = pc := by rw [hpc, update_self]
  refine h.move (fun hd => hdes ▸ hd) (fun d _ => by rw [hcur]) hpc (fun d hd => ?_) (fun hh => ?_) fun hc hl => ?_
  · refine .of_queued (d := d) ?_
    have hsame : (m'.core d).Queued p ↔ (m.core d).Queued p := by
      rw [core, hrq]
      exact Iff.rfl
    exact hsame.mpr hd
  · rcases hhold hh with hd | hh
    · exact .inl (hdes ▸ hd)
    · exact .of_holding (d := c) (hpcc ▸ hh)
  · exact .inr (.inr ⟨c, hcur ▸ hc, hpcc ▸ hstay hc hl⟩)

theorem Machine.Kept.take {v : C} {s' : RqState P} {next : Option P} {gone : P → Prop} (h : m.Kept p)
    (ht : Takes gone (m.core v) s' next) (hgone : ∀ x, gone x → m.destroying x = true)
    (hnext : ∀ x, next = some x → pc.Holding x) (hpc : ¬ (m.pc c).Holding p) (hleft : (m.pc c).Left) :
    ((m.setCore v s').setPc c pc).Kept p := by
  refine h.move id (fun _ _ => rfl) rfl (fun d hd => ?_) (fun hh => absurd hh hpc) fun _ hl => absurd hleft hl
  by_cases hdv : d = v
  · subst hdv
    rcases ht.kept p hd with hq | hg | hn
    · exact .of_queued (d := d) (queued_setCore.mpr (by rwa [if_pos rfl]))
    · exact .inl (hgone p hg)
    · refine .of_holding (d := c) ?_
      rw [Machine.setPc]
      simp only [update_self]
      exact hnext p hn
  · exact .of_queued (d := d) ((queued_setCore_ne hdv).mpr hd)

theorem DueOk.letGo {q : P} (h : DueOk m) (hcur : m.current c = some q) (hnot : ∀ x, ¬ (m.pc c).Holding x) :
    DueOk ((m.letGo q).setPc c (.selecting (some q))) := by
  intro x hx
  refine (h x hx.1).move id (fun _ _ => rfl) rfl (fun d hd => .of_queued (d := d) hd) (fun hh => absurd hh (hnot x))
    fun hc _ => ?_
  obtain rfl : q = x := some.inj (hcur.symm.trans hc)
  rcases hx.2 rfl with ⟨d, hd⟩ | ⟨d, hd⟩
  · exact .of_queued (d := d) hd
  have hdc : d ≠ c := fun he => hnot q (he ▸ hd)
  refine .of_holding (d := d) ?_
  simp only [Machine.setPc, Machine.letGo, update_of_ne hdc]
  exact hd

theorem DueOk.requeue {q : P} (h : DueOk m) (hq : QueuesOk m) (hpc : m.pc c = .requeueing q)
    (hcur : m.current c = some q) (hkeeps : m.KeepsAt c r (.requeueing q)) :
    DueOk ((requeue m c r q).setPc c (.selecting (some q))) := by
  obtain ⟨-, hmono, hdue, hself⟩ := hq.requeue hkeeps
  obtain ⟨hcur', -, hpc', -, hdes⟩ := requeue_frame m c r q
  have hnot : ∀ x, ¬ (m.pc c).Holding x := fun x hx => by rw [hpc] at hx; exact hx
  have hplace : (Scheduler.requeue m c r q).due q →
      ((Scheduler.requeue m c r q).setPc c (.selecting (some q))).Kept q := by
    intro hx
    obtain ⟨d, hd | hd⟩ := hself hx
    · exact .of_queued (d := d) hd
    have hdc : d ≠ c := fun he => hnot q (he ▸ hd)
    refine .of_holding (d := d) ?_
    simp only [Machine.setPc, hpc', update_of_ne hdc]
    exact hd
  intro x hx
  by_cases hxq : x = q
  · exact hxq ▸ hplace (hxq ▸ hx)
  refine (h x ((hdue x hx).resolve_right hxq)).move (fun hd => ?_) (fun d _ => ?_)
    (congrArg (fun f => update f c _) hpc') (fun d hd => .of_queued (d := d) (hmono d x hd))
    (fun hh => absurd hh (hnot x)) fun hc _ => ?_
  · exact hdes ▸ hd
  · exact congrFun hcur' d
  · exact absurd (some.inj (hc.symm.trans hcur)) hxq

theorem DueOk.coreStep (h : DueOk m) (hq : QueuesOk m) (hcpu : CpusOk m) (hkeeps : m.Keeps (.core c r)) :
    DueOk (coreStep m c r) := by
  change m.KeepsAt c r (m.pc c) at hkeeps
  have hok := hcpu.pc c
  unfold Scheduler.coreStep
  split <;> rename_i heq <;> rw [heq] at hkeeps hok
  · -- outside
    split
    · exact h
    · exact fun x hx => (h x hx).setPc rfl rfl rfl rfl (by simp [heq, Pc.Holding]) fun _ _ => id
  · exact fun x hx => (h x hx).setPc rfl rfl rfl rfl (by simp [heq, Pc.Holding]) fun hc _ => (nomatch hok.symm.trans hc)
  · -- entered with a process
    split
    · exact fun x hx => (h x hx).setPc rfl rfl rfl rfl (by simp [heq, Pc.Holding]) fun _ _ => id
    · exact h.letGo hok fun x hx => by rw [heq] at hx; exact hx
  · exact h.requeue hq heq hok hkeeps
  · -- selecting
    split
    · exact fun x hx => (h x hx).setPc rfl rfl rfl rfl (by simp [heq, Pc.Holding]) fun _ hl => absurd (heq ▸ trivial) hl
    · intro x hx
      exact (h x hx).take (schedulerSelectNext_takes (hq.tidy c) _ _ _) (fun _ hd => hd) (fun _ hn => hn)
        (by simp [heq, Pc.Holding]) (by rw [heq]; trivial)
  · -- selected: some process
    exact fun x hx => (h x hx).setPc rfl rfl rfl rfl (by rw [heq]; exact .inr) fun _ hl => absurd (heq ▸ trivial) hl
  · -- selected: the idle process, so stealing may be tried
    split
    · exact fun x hx => (h x hx).setPc rfl rfl rfl rfl (by rw [heq]; exact .inr) fun _ hl => absurd (heq ▸ trivial) hl
    rename_i v _
    obtain ⟨ls, hls⟩ := hq.tidy v
    simp only
    split
    · rename_i hnone
      intro x hx
      exact (h x hx).take hls.stealPop (fun _ hf => hf.elim) (fun y hn => (nomatch hnone.symm.trans hn))
        (by simp [heq, Pc.Holding]) (by rw [heq]; trivial)
    rename_i p hsome
    intro x hx
    exact (h x hx).take hls.stealPop (fun _ hf => hf.elim) (fun y hn => some.inj (hsome.symm.trans hn))
      (by simp [heq, Pc.Holding]) (by rw [heq]; trivial)
  · exact fun x hx => (h x hx).setPc rfl rfl rfl rfl (by rw [heq]; exact fun he => .inr (congrArg some he))
      fun _ hl => absurd (heq ▸ trivial) hl
  · exact fun x hx => (h x hx).setPc rfl rfl rfl rfl (by rw [heq]; exact .inr) fun _ hl => absurd (heq ▸ trivial) hl
  · -- installing: a process that is being destroyed is not switched to
    rename_i cur p
    refine fun x hx => (h x hx).setPc rfl rfl rfl rfl (fun hh => ?_) fun _ hl => absurd (heq ▸ trivial) hl
    rw [heq] at hh
    obtain rfl : p = x := some.inj hh
    split
    · exact .inl ‹_›
    · exact .inr rfl
  · -- claiming
    rename_i cur p
    refine fun x hx => (h x hx).setPc rfl rfl rfl rfl (fun hh => .inr ?_) fun _ hl => absurd (heq ▸ trivial) hl
    rw [heq] at hh
    obtain rfl : p = x := hh
    split <;> rfl
  · -- exchanging: the exchange is won
    rename_i cur p
    have hfree : m.onCpu p = none := hkeeps
    rw [if_pos hfree]
    exact fun x hx => (h x hx).setPc rfl rfl rfl rfl (by rw [heq]; exact fun he => .inr (congrArg some he))
      fun _ hl => absurd (heq ▸ trivial) hl
  · -- switching
    rename_i cur next
    refine fun x hx => (h x hx).move id (fun d hd => update_of_ne hd _ _) rfl
      (fun d hd => .of_queued (d := d) hd) (fun hh => ?_) fun _ hl => absurd (heq ▸ trivial) hl
    rw [heq] at hh
    refine .inr (.inr ⟨c, ?_, ?_⟩)
    · exact (update_self _ _ _).trans hh
    · simp only [Machine.setPc, update_self]
      exact id
  · exact fun x hx => (h x hx).setPc rfl rfl rfl rfl (by simp [heq, Pc.Holding]) fun _ _ => id
  · exact fun x hx => (h x hx).setPc rfl rfl rfl rfl (by simp [heq, Pc.Holding]) fun _ _ => id
  · exact fun x hx => (h x hx).setPc rfl rfl rfl rfl (by simp [heq, Pc.Holding]) fun _ _ => id
  · refine fun x hx => (h x hx).setPc rfl rfl rfl rfl (by simp [heq, Pc.Holding]) fun _ _ => ?_
    split <;> exact id
  · exact fun x hx => (h x hx).setPc rfl rfl rfl rfl (by simp [heq, Pc.Holding]) fun _ _ => id

theorem DueOk.same (h : DueOk m) (hdes : ∀ x, m.destroying x = true → m'.destroying x = true)
    (hcur : m'.current = m.current) (hpc : m'.pc = m.pc) (hdue : ∀ x, m'.due x → m.due x ∨ ∃ d, (m'.core d).Queued x)
    (hqueue : ∀ x, m'.due x → ∀ d, (m.core d).Queued x → (m'.core d).Queued x) : DueOk m' := by
  intro x hx
  rcases hdue x hx with hold | ⟨d, hd⟩
  · rcases h x hold with hd | (⟨d, hd⟩ | ⟨d, hd⟩) | ⟨d, hd, hleft⟩
    · exact .inl (hdes x hd)
    · exact .of_queued (d := d) (hqueue x hx d hd)
    · exact .of_holding (d := d) (by rwa [hpc])
    · exact .inr (.inr ⟨d, hcur ▸ hd, by rwa [hpc]⟩)
  · exact .of_queued (d := d) hd

end places

/-! ## Every run -/

structure Machine.Inv (m : Machine C P) : Prop where
  queues : QueuesOk m
  cpus : CpusOk m
  due : DueOk m

theorem runqueueInit_tidy (kmalloc : Nat → Bool) (proc : P → RqFields) :
    RqState.TidyAs ⟨runqueueInit kmalloc, proc⟩ fun _ => [] := by
  have hslots : ∀ i j, ((runqueueInit kmalloc : RunQueue P).queues i).slots j = none := by
    intro i j
    simp only [runqueueInit, SchedQueue.slots]
    split <;> rfl
  refine ⟨⟨fun i _ => ?_, fun i _ k hk => ?_, fun i => by simp [runqueueInit], by simp [runqueueInit]⟩,
    fun i _ j p hp => ?_, fun i _ => ?_⟩
  · simp only [runqueueInit]
    split <;> constructor <;> simp [runqueueInitialCap, runqueueMaxCap, Lib.window]
  · have hcount : ((runqueueInit kmalloc : RunQueue P).queues i).count = 0 := by
      simp only [runqueueInit]
      split <;> rfl
    have hk' : k < ((runqueueInit kmalloc : RunQueue P).queues i).count := hk
    omega
  · cases (hslots i j).symm.trans hp
  · simp only [runqueueInit]
    split
    · exact le_rfl
    · exact Nat.zero_le _

theorem Machine.inv_start (kmalloc : C → Nat → Bool) (state : P → ProcState) (homeCore : P → C) :
    (start kmalloc state homeCore).Inv := by
  have hempty : ∀ c p, ¬ ((start kmalloc state homeCore).core c).Queued p := by
    intro c p hp
    obtain ⟨i, -, hmem⟩ := (runqueueInit_tidy (kmalloc c) fun _ => {}).holds.queued.mp hp
    cases hmem
  refine ⟨⟨fun c => ⟨_, runqueueInit_tidy (kmalloc c) _⟩, fun c d p hc _ => absurd hc (hempty c p), fun _ _ => rfl⟩,
    ⟨fun _ _ hp => (nomatch hp), fun _ => trivial⟩, fun _ hp => hp.elim⟩

theorem Machine.Inv.dequeue {s' : RqState P} (h : m.Inv) (ht : Takes (· = p) (m.core c) s' none) :
    Machine.Inv { m.setCore c s' with due := fun x => m.due x ∧ x ≠ p } := by
  refine ⟨(h.queues.takes ht).congr rfl rfl, h.cpus.same rfl rfl rfl,
    h.due.same (fun _ => id) rfl rfl (fun x hx => .inl hx.1) fun x hx d hd => queued_setCore.mpr ?_⟩
  split
  · rename_i hdc
    rcases ht.kept x (hdc ▸ hd) with hq | hg | hn
    · exact hq
    · exact absurd hg hx.2
    · cases hn
  · exact hd

theorem Machine.Inv.step {e : SchedEvent C P} (h : m.Inv) (hkeeps : m.Keeps e) : (m.step e).Inv := by
  cases e with
  | core c r => exact ⟨h.queues.coreStep hkeeps, h.cpus.coreStep c r, h.due.coreStep h.queues h.cpus hkeeps⟩
  | route | setState =>
    exact ⟨h.queues.congr rfl rfl, h.cpus.same rfl rfl rfl,
      h.due.same (fun _ => id) rfl rfl (fun _ => .inl) fun _ _ _ => id⟩
  | enqueueOn c p prio kmalloc =>
    obtain ⟨hqueues, hmono, hdue⟩ := h.queues.enqueueSection prio.isLt hkeeps.1 hkeeps.2
    obtain ⟨hcur, hcpu, hpc, hdes⟩ := enqueueSection_frame m c p prio kmalloc
    refine ⟨hqueues, h.cpus.same hcur hcpu hpc, ?_⟩
    exact h.due.same (fun x hx => hdes ▸ hx) hcur hpc (fun x hx => (hdue x hx).imp_right fun hq => ⟨c, hq⟩)
      fun x _ d hd => hmono d x hd
  | dequeueOn c p => exact h.dequeue h.queues.remove_takes
  | dequeueAllOn c p =>
    refine h.dequeue (p := p) ?_
    split
    · exact h.queues.remove_takes
    · exact .refl (h.queues.tidy c) _
  | destroy p =>
    refine ⟨h.queues.congr rfl rfl, h.cpus.same rfl rfl rfl,
      h.due.same (fun x hx => ?_) rfl rfl (fun _ => .inl) fun _ _ _ => id⟩
    by_cases hxp : x = p
    · exact hxp ▸ update_self _ _ _
    · exact (update_of_ne hxp _ _).trans hx

/-- Every step of the run keeps every process. -/
def Machine.KeepsRun (m : Machine C P) : List (SchedEvent C P) → Prop
  | [] => True
  | e :: es => m.Keeps e ∧ (m.step e).KeepsRun es

theorem Machine.run_cons (m : Machine C P) (e : SchedEvent C P) (es : List (SchedEvent C P)) :
    m.run (e :: es) = (m.step e).run es :=
  rfl

theorem Machine.Inv.run {es : List (SchedEvent C P)} (h : m.Inv) (hkeeps : m.KeepsRun es) : (m.run es).Inv := by
  induction es generalizing m with
  | nil => exact h
  | cons e es ih => exact ih (h.step hkeeps.1) hkeeps.2

/-- How many operations a core is away from switching. -/
def Pc.togo : Pc P → Nat
  | .selected _ _ => 6
  | .stolen _ _ => 5
  | .installing _ _ => 4
  | .claiming _ _ => 3
  | .exchanging _ _ => 2
  | .switching _ _ => 1
  | _ => 0

/-- A process runs on one core and waits on one core; one that is due and can run is in a queue, runs, or is held by
a core that goes on to install it. -/
structure Machine.Sound (m : Machine C P) : Prop where
  current_one : ∀ c d p, m.current c = some p → m.current d = some p → c = d
  queued_one : ∀ c d p, (m.core c).Queued p → (m.core d).Queued p → c = d
  somewhere : ∀ p, m.due p → m.state p = .working → m.destroying p = false →
    (∃ c, (m.core c).Queued p) ∨ (∃ c, m.current c = some p) ∨ ∃ c, (m.pc c).Holding p
  installs : ∀ c p r, (m.pc c).Holding p → m.Keeps (.core c r) → m.destroying p = false →
    (coreStep m c r).current c = some p ∨
      ((coreStep m c r).pc c).Holding p ∧ ((coreStep m c r).pc c).togo < (m.pc c).togo

theorem Machine.installs {r : Readings C P} (hhold : (m.pc c).Holding p) (hkeeps : m.Keeps (.core c r))
    (hdes : m.destroying p = false) : (coreStep m c r).current c = some p ∨ ((coreStep m c r).pc c).Holding p ∧
    ((coreStep m c r).pc c).togo < (m.pc c).togo := by
  change m.KeepsAt c r (m.pc c) at hkeeps
  unfold coreStep
  split <;> rename_i heq <;> rw [heq] at hhold hkeeps <;> simp only [Pc.Holding] at hhold <;>
    simp only [heq, Machine.setPc, update_self]
  · exact .inr ⟨hhold, by simp [Pc.togo]⟩
  · cases hhold
  · exact .inr ⟨congrArg some hhold, by simp [Pc.togo]⟩
  · cases hhold
  · obtain rfl := some.inj hhold
    rw [hdes]
    exact .inr ⟨rfl, by simp [Pc.togo]⟩
  · subst hhold
    split
    · exact .inr ⟨rfl, by simp [Pc.togo]⟩
    · exact .inr ⟨rfl, by simp [Pc.togo]⟩
  · subst hhold
    have hfree : m.onCpu _ = none := hkeeps
    rw [if_pos hfree]
    simp only [update_self]
    exact .inr ⟨rfl, by simp [Pc.togo]⟩
  · exact .inl hhold

theorem Machine.Inv.sound (h : m.Inv) : m.Sound := by
  refine ⟨fun c d p hc hd => ?_, h.queues.apart, fun p hdue _ hdes => ?_, fun c p r => installs⟩
  · exact some.inj ((h.cpus.current c p hc).symm.trans (h.cpus.current d p hd))
  · rcases h.due p hdue with hd | (hq | hh) | ⟨c, hc, -⟩
    · cases hd.symm.trans hdes
    · exact .inl hq
    · exact .inr (.inr hh)
    · exact .inr (.inl ⟨c, hc⟩)

/-- No runnable process is lost or run twice, in every run that keeps the queues apart and loses no exchange. -/
theorem processes_kept (kmalloc : C → Nat → Bool) (state : P → ProcState) (homeCore : P → C)
    (es : List (SchedEvent C P)) (h : (start kmalloc state homeCore).KeepsRun es) :
    ((start kmalloc state homeCore).run es).Sound :=
  ((inv_start kmalloc state homeCore).run h).sound

/-! ## Being due

A process that works stays due until it is dequeued: what a core lets go is stopped. -/

/-- The event neither dequeues nor stops the process. -/
def SchedEvent.Spares (p : P) : SchedEvent C P → Prop
  | .dequeueOn _ q | .dequeueAllOn _ q => q ≠ p
  | .setState q state => q = p → state = .working
  | .core _ _ | .route _ _ _ | .enqueueOn _ _ _ _ | .destroy _ => True

theorem Machine.due_letGo {q : P} (hdue : m.due p) (hwork : m.state p = .working)
    (hq : m.state q ≠ .working) : (m.letGo q).due p :=
  ⟨hdue, fun hpq => absurd (hpq ▸ hwork) hq⟩

theorem Machine.due_coreStep {r : Readings C P} (hdue : m.due p)
    (hwork : m.state p = .working) : (coreStep m c r).due p ∧ (coreStep m c r).state p = .working := by
  unfold coreStep
  split
  case h_3 =>
    -- entered with a process
    split
    · exact ⟨hdue, hwork⟩
    · exact ⟨Machine.due_letGo hdue hwork ‹_›, hwork⟩
  case h_4 =>
    -- requeueing
    refine ⟨?_, (congrFun (requeue_frame m c r _).2.2.2.1 p).trans hwork⟩
    unfold requeue
    split
    · split
      · exact hdue
      · exact .inl hdue
    · exact due_letGo hdue hwork ‹_›
  case h_7 =>
    -- selected: the idle process
    split
    · exact ⟨hdue, hwork⟩
    · simp only
      split <;> exact ⟨hdue, hwork⟩
  case h_18 q _ =>
    -- marking
    refine ⟨hdue, ?_⟩
    by_cases hpq : p = q
    · exact hpq ▸ update_self _ _ _
    · exact (update_of_ne hpq _ _).trans hwork
  all_goals first | exact ⟨hdue, hwork⟩ | (split <;> exact ⟨hdue, hwork⟩)

theorem Machine.due_step {e : SchedEvent C P} (hdue : m.due p) (hwork : m.state p = .working)
    (he : e.Spares p) : (m.step e).due p ∧ (m.step e).state p = .working := by
  cases e with
  | core c r => exact due_coreStep hdue hwork
  | route | destroy => exact ⟨hdue, hwork⟩
  | enqueueOn c q prio kmalloc =>
    change (enqueueSection m c q prio kmalloc).due p ∧ (enqueueSection m c q prio kmalloc).state p = .working
    unfold enqueueSection
    split <;> exact ⟨.inl hdue, hwork⟩
  | dequeueOn | dequeueAllOn => exact ⟨⟨hdue, Ne.symm he⟩, hwork⟩
  | setState q state =>
    refine ⟨hdue, ?_⟩
    by_cases hpq : p = q
    · subst hpq
      exact (update_self _ _ _).trans (he rfl)
    · exact (update_of_ne hpq _ _).trans hwork

theorem Machine.due_run {es : List (SchedEvent C P)} (hdue : m.due p)
    (hwork : m.state p = .working) (hes : ∀ e ∈ es, e.Spares p) (hm : m' = m.run es) : m'.due p := by
  induction es generalizing m with
  | nil => exact hm ▸ hdue
  | cons e es ih =>
    obtain ⟨hdue', hwork'⟩ := due_step hdue hwork (hes e mem_cons_self)
    exact ih hdue' hwork' (fun e' he' => hes e' (mem_cons_of_mem _ he')) hm

instance (s : RqState P) (p : P) : Decidable (s.Queued p) :=
  inferInstanceAs (Decidable (∃ i < schedPrioLevels, p ∈ s.contents i))

instance (s : RqState P) (prio : Nat) : Decidable (s.HasRoom prio) :=
  inferInstanceAs (Decidable (_ < _))

instance [Fintype C] (m : Machine C P) (c : C) (p : P) : Decidable (m.Elsewhere c p) :=
  inferInstanceAs (Decidable (∃ d, d ≠ c ∧ (m.core d).Queued p))

instance [Fintype C] (m : Machine C P) (c : C) (r : Readings C P) : (pc : Pc P) → Decidable (m.KeepsAt c r pc)
  | .requeueing p => inferInstanceAs (Decidable
      (m.state p = .working → ¬ m.Elsewhere c p ∧ ((m.core c).Queued p ∨ (m.core c).HasRoom r.prio)))
  | .exchanging _ p => inferInstanceAs (Decidable (m.onCpu p = none))
  | .outside | .entered _ | .selecting _ | .selected _ _ | .stolen _ _ | .installing _ _ | .claiming _ _
  | .switching _ _ | .releasing _ _ | .starting _ | .marking _ => isTrue trivial

instance [Fintype C] (m : Machine C P) : (e : SchedEvent C P) → Decidable (m.Keeps e)
  | .core c r => inferInstanceAs (Decidable (m.KeepsAt c r (m.pc c)))
  | .enqueueOn c p prio kmalloc => inferInstanceAs (Decidable
      (¬ m.Elsewhere c p ∧ ((m.core c).HasRoom prio ∨ enqueueRoom kmalloc ((m.core c).rq.queues prio) = none)))
  | .route _ _ _ | .dequeueOn _ _ | .dequeueAllOn _ _ | .setState _ _ | .destroy _ => isTrue trivial

def decidableKeepsRun [Fintype C] (m : Machine C P) : (es : List (SchedEvent C P)) → Decidable (m.KeepsRun es)
  | [] => isTrue trivial
  | e :: es =>
    have := decidableKeepsRun (m.step e) es
    inferInstanceAs (Decidable (m.Keeps e ∧ (m.step e).KeepsRun es))

instance [Fintype C] (m : Machine C P) (es : List (SchedEvent C P)) : Decidable (m.KeepsRun es) :=
  decidableKeepsRun m es

/-- Two cores with all their queues, and processes that can run. -/
def twoCores : Machine (Fin 2) (Fin 3) :=
  .start (fun _ _ => true) (fun _ => .working) fun _ => 0

def enqueueNormal (c : Fin 2) (p : Fin 3) : SchedEvent (Fin 2) (Fin 3) :=
  .enqueueOn c p ⟨schedPrioNormal, by decide⟩ none

/-- Core 0 runs process 0 and then process 1, while core 1 steals process 2. -/
def stealEvents : List (SchedEvent (Fin 2) (Fin 3)) :=
  [enqueueNormal 0 0] ++ replicate 11 (.core 0 {}) ++ [enqueueNormal 0 2, enqueueNormal 0 1] ++
    replicate 12 (.core 1 { victim := some 0 }) ++ replicate 10 (.core 0 {})

theorem processes_kept_stealEvents : twoCores.KeepsRun stealEvents ∧ (twoCores.run stealEvents).Sound :=
  ⟨by decide +kernel, processes_kept _ _ _ stealEvents (by decide +kernel)⟩

/-- Process 0 is enqueued on its home core; before it runs two others join it there, and the next `sched_enqueue` of
process 0 finds core 1 less loaded. -/
def twiceEvents : List (SchedEvent (Fin 2) (Fin 3)) :=
  [enqueueNormal 0 0, enqueueNormal 0 1, enqueueNormal 0 2, .route 0 3 [(0, 3), (1, 0)],
    enqueueNormal (enqueueTarget 0 3 [(0, 3), (1, 0)]) 0]

/-- Process 0 runs on core 0 and is put back; core 1 steals it before core 0 has cleared `on_cpu`. -/
def lostEvents : List (SchedEvent (Fin 2) (Fin 3)) :=
  replicate 11 (.core 0 {}) ++ [.enqueueOn 0 1 ⟨schedPrioStarved, by decide⟩ none] ++
    replicate 2 (.core 0 {}) ++ replicate 11 (.core 1 { victim := some 0 }) ++ replicate 7 (.core 0 {})

theorem lostEvents_spares : ∀ e ∈ lostEvents, e.Spares 0 := by
  intro e he
  simp only [lostEvents, mem_append, mem_replicate, mem_singleton] at he
  rcases he with (((⟨-, rfl⟩ | rfl) | ⟨-, rfl⟩) | ⟨-, rfl⟩) | ⟨-, rfl⟩ <;> exact trivial

theorem enqueueNormal_due : (twoCores.step (enqueueNormal 0 0)).due 0 := by
  change (enqueueSection twoCores 0 0 schedPrioNormal none).due 0
  unfold enqueueSection
  rw [if_neg (by decide +kernel)]
  exact .inr ⟨rfl, by decide +kernel⟩

theorem process_twice_and_lost :
    ¬ (twoCores.run twiceEvents).Sound ∧ ¬ (twoCores.run (enqueueNormal 0 0 :: lostEvents)).Sound := by
  constructor
  · intro h
    exact absurd (h.queued_one 0 1 0 (by decide +kernel) (by decide +kernel)) (by decide)
  · have hwork : (twoCores.step (enqueueNormal 0 0)).state 0 = .working := by decide +kernel
    have hend : (twoCores.run (enqueueNormal 0 0 :: lostEvents)).state 0 = .working ∧
        (twoCores.run (enqueueNormal 0 0 :: lostEvents)).destroying 0 = false := by decide +kernel
    have hqueue : ¬ ∃ c, ((twoCores.run (enqueueNormal 0 0 :: lostEvents)).core c).Queued 0 := by decide +kernel
    have hcur : ¬ ∃ c, (twoCores.run (enqueueNormal 0 0 :: lostEvents)).current c = some 0 := by decide +kernel
    have hpc : ∀ c, (twoCores.run (enqueueNormal 0 0 :: lostEvents)).pc c =
        if c = 0 then .starting (some 1) else .outside := by decide +kernel
    intro h
    have hdue := due_run enqueueNormal_due hwork lostEvents_spares (run_cons _ _ _)
    generalize twoCores.run (enqueueNormal 0 0 :: lostEvents) = m at *
    rcases h.somewhere 0 hdue hend.1 hend.2 with hq | hc | ⟨c, hh⟩
    · exact hqueue hq
    · exact hcur hc
    · rw [hpc] at hh
      split at hh <;> exact hh

end BoxOS.Scheduler
