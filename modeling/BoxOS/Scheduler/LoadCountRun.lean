import BoxOS.Scheduler.LoadCount

/-! # The load counters are exact where the queues and the counters change together

`CoreExact` says it of one core: its queues hold `ls`, every process of them is counted where its `current_prio` says,
and the counters are the lengths. Every section keeps it when the event is `Allowed`; a pop of `schedule()` always
does. The fields of the processes play no part in it, so it survives every resizing of a queue. -/

set_option linter.unusedSectionVars false
open Function (update update_apply update_eq_self update_of_ne update_self)

namespace BoxOS.Scheduler

open List Option LoadCounts LoadMachine

/-! ## Counting -/

section counting

variable {P : Type} {l : LoadCounts} {ls : Nat → List P} {i : Nat} {l' : List P} {prio : Int}

/-- The counters are the numbers of processes in the queues. -/
def LoadCounts.Of (l : LoadCounts) (ls : Nat → List P) : Prop :=
  l.context = (ls schedPrioContext).length ∧
  l.normal = (ls schedPrioIdle).length + (ls schedPrioNormal).length + (ls schedPrioStarved).length

theorem lt_levels_iff :
    i < schedPrioLevels ↔ i = schedPrioIdle ∨ i = schedPrioNormal ∨ i = schedPrioStarved ∨ i = schedPrioContext := by
  unfold schedPrioLevels schedPrioIdle schedPrioNormal schedPrioStarved schedPrioContext
  omega

theorem LoadCounts.Of.sub (h : l.Of ls) (hi : i < schedPrioLevels) (hlen : l'.length + 1 = (ls i).length)
    (hprio : prio = schedPrioContext ↔ i = schedPrioContext) : (l.sub prio).Of (update ls i l') := by
  obtain ⟨hc, hn⟩ := h
  unfold LoadCounts.sub
  rcases lt_levels_iff.mp hi with rfl | rfl | rfl | rfl
  case inr.inr.inr =>
    rw [if_pos (hprio.mpr rfl)]
    refine ⟨?_, hn⟩
    rw [update_self, dec32_of_pos (by omega)]
    dsimp only
    omega
  all_goals
    rw [if_neg fun he => absurd (hprio.mp he) (by decide)]
    refine ⟨hc, ?_⟩
    rw [dec32_of_pos (by omega)]
    simp only [update_apply, schedPrioIdle, schedPrioNormal, schedPrioStarved] at hlen hn ⊢
    simp
    omega

theorem LoadCounts.Of.add (h : l.Of ls) (hi : i < schedPrioLevels) (hlen : l'.length = (ls i).length + 1)
    (hmax : ∀ j < schedPrioLevels, (ls j).length ≤ runqueueMaxCap)
    (hprio : prio = schedPrioContext ↔ i = schedPrioContext) : (l.add prio).Of (update ls i l') := by
  obtain ⟨hc, hn⟩ := h
  have h0 := hmax schedPrioIdle (by decide)
  have h1 := hmax schedPrioNormal (by decide)
  have h2 := hmax schedPrioStarved (by decide)
  have h3 := hmax schedPrioContext (by decide)
  unfold runqueueMaxCap at h0 h1 h2 h3
  unfold LoadCounts.add
  rcases lt_levels_iff.mp hi with rfl | rfl | rfl | rfl
  case inr.inr.inr =>
    rw [if_pos (hprio.mpr rfl)]
    refine ⟨?_, hn⟩
    rw [update_self, inc32_of_lt (by omega)]
    dsimp only
    omega
  all_goals
    rw [if_neg fun he => absurd (hprio.mp he) (by decide)]
    refine ⟨hc, ?_⟩
    rw [inc32_of_lt (by omega)]
    simp only [update_apply, schedPrioIdle, schedPrioNormal, schedPrioStarved] at hlen hn ⊢
    simp
    omega

end counting

variable {C P : Type}

/-! ## What a run queue holds, whatever the fields of its processes say -/

section rings

def RunQueue.Rings (rq : RunQueue P) (ls : Nat → List P) : Prop :=
  RqState.HoldsWhen False ⟨rq, fun _ => {}⟩ ls

variable {s : RqState P} {rq : RunQueue P} {ls : Nat → List P} {p : P} {prio : Nat}

theorem RqState.HoldsWhen.rings {known : Prop} (h : s.HoldsWhen known ls) : s.rq.Rings ls :=
  ⟨h.queues, fun hf => hf.elim, h.bitmap, h.total⟩

theorem RunQueue.Rings.when (h : s.rq.Rings ls) : s.HoldsWhen False ls :=
  ⟨h.queues, fun hf => hf.elim, h.bitmap, h.total⟩

theorem runqueueInit_rings (kmalloc : Nat → Bool) : (runqueueInit (P := P) kmalloc).Rings fun _ => [] := by
  refine ⟨fun i hi => ?_, fun hf => hf.elim, fun i => by simp [runqueueInit], by simp [runqueueInit]⟩
  simp only [runqueueInit]
  split
  · exact ⟨rfl, by simp [runqueueInitialCap, runqueueMaxCap], Nat.zero_le _, by simp [runqueueInitialCap], fun h => h,
      rfl, rfl⟩
  · exact ⟨rfl, Nat.zero_le _, Nat.zero_le _, by simp, fun h => h, rfl, rfl⟩

variable [DecidableEq P] {kmalloc : Option (Nat → Option P)}

/-- What a pop does: nothing, or the first process of a priority leaves. -/
def PopsFrom (ls : Nat → List P) (s : RqState P) (r : RqState P × Option P) : Prop :=
  r = (s, none) ∨
    ∃ prio < schedPrioLevels, ∃ p l, ls prio = p :: l ∧ r.2 = some p ∧ r.1.rq.Rings (update ls prio l)

theorem RunQueue.Rings.pops_dequeueBest (h : s.rq.Rings ls) (kmalloc : Option (Nat → Option P)) :
    PopsFrom ls s (runqueueDequeueBest kmalloc s) := by
  have hplace : False → s.shrinksInPlace kmalloc := False.elim
  have hpop := h.when.dequeueBest hplace
  rcases hpop with ⟨hno, -⟩ | ⟨prio, hprio, p, l, hl, -, hres, hholds, -⟩
  · exact .inl hno
  · exact .inr ⟨prio, hprio, p, l, hl, hres, hholds.rings⟩

theorem RunQueue.Rings.pops_fair (h : s.rq.Rings ls) (kmalloc : Option (Nat → Option P))
    (hb : s.rq.activeBitmap &&& clearMask schedPrioContext ≠ 0) :
    ∃ prio < schedPrioLevels, prio ≠ schedPrioContext ∧ ∃ p l, ls prio = p :: l ∧ (selectFair kmalloc s).2 = some p ∧
    (selectFair kmalloc s).1.rq.Rings (update ls prio l) := by
  obtain ⟨hprio, hne, p, l, hl⟩ := h.when.fair_prio hb
  refine ⟨_, hprio, hne, p, l, hl, ?_⟩
  obtain ⟨hres, hholds, -⟩ := h.when.popHead hprio hl
  rw [selectFair, if_neg hb]
  exact ⟨hres, hholds.rings⟩

theorem stealPop_nothing
    (hs : s.rq.total ≤ 1 ∨ (s.rq.queues schedPrioNormal).count = 0 ∧ (s.rq.queues schedPrioIdle).count = 0) :
    stealPop s = (s, none) := by
  unfold stealPop
  split
  · rfl
  · rcases hs with hle | ⟨hn, hi⟩
    · omega
    · rw [if_neg (not_not_intro hn), if_neg (not_not_intro hi)]

end rings

/-! ## One core -/

/-- The queues of one core hold `ls`, no process is twice in them, and the counters count them. -/
structure CoreExact (currentPrio : P → Int) (rq : RunQueue P) (l : LoadCounts) (ls : Nat → List P) : Prop where
  rings : rq.Rings ls
  class_eq : ∀ i < schedPrioLevels, ∀ p ∈ ls i, (currentPrio p = schedPrioContext ↔ i = schedPrioContext)
  nodup : ∀ i < schedPrioLevels, (ls i).Nodup
  apart : ∀ i < schedPrioLevels, ∀ j < schedPrioLevels, ∀ p ∈ ls i, p ∈ ls j → i = j
  counts : l.Of ls

section core

variable {currentPrio : P → Int} {rq rq' : RunQueue P} {l : LoadCounts} {ls : Nat → List P} {p : P} {i : Nat}

theorem mem_update {l' : List P} {j : Nat} {x : P} : x ∈ update ls i l' j ↔ if j = i then x ∈ l' else x ∈ ls j := by
  rw [update_apply]
  split <;> rfl

theorem CoreExact.less (h : CoreExact currentPrio rq l ls) (hi : i < schedPrioLevels) {l' : List P}
    (hperm : p :: l' ~ ls i) (hrings : rq'.Rings (update ls i l')) :
    CoreExact currentPrio rq' (l.sub (currentPrio p)) (update ls i l') := by
  have hp : p ∈ ls i := hperm.subset mem_cons_self
  have hsub : ∀ j x, x ∈ update ls i l' j → x ∈ ls j := by
    intro j x hx
    rw [mem_update] at hx
    split at hx
    · rename_i hj
      exact hj ▸ hperm.subset (mem_cons_of_mem _ hx)
    · exact hx
  refine ⟨hrings, fun j hj x hx => h.class_eq j hj x (hsub j x hx), fun j hj => ?_,
    fun j hj k hk x hx hx' => h.apart j hj k hk x (hsub j x hx) (hsub k x hx'),
    h.counts.sub hi hperm.length_eq (h.class_eq i hi p hp)⟩
  by_cases hji : j = i
  · rw [hji, update_self]
    exact (nodup_cons.mp (hperm.nodup_iff.mpr (h.nodup i hi))).2
  · rw [update_of_ne hji]
    exact h.nodup j hj

variable [DecidableEq P]

/-- A process of no queue of the core joins one and is counted there. -/
theorem CoreExact.more (h : CoreExact currentPrio rq l ls) (hi : i < schedPrioLevels)
    (hp : ∀ j < schedPrioLevels, p ∉ ls j) (hrings : rq'.Rings (update ls i (ls i ++ [p]))) :
    CoreExact (update currentPrio p i) rq' (l.add i) (update ls i (ls i ++ [p])) := by
  have hmem : ∀ j < schedPrioLevels, ∀ x, x ∈ update ls i (ls i ++ [p]) j ↔ x ∈ ls j ∨ j = i ∧ x = p := by
    intro j hj x
    rw [mem_update]
    by_cases hji : j = i
    · simp [hji]
    · simp [hji]
  refine ⟨hrings, fun j hj x hx => ?_, fun j hj => ?_, fun j hj k hk x hx hx' => ?_,
    h.counts.add hi (by simp) (fun j hj => RqState.HoldsWhen.length_le h.rings hj) Int.natCast_inj⟩
  · rcases (hmem j hj x).mp hx with hx | ⟨rfl, rfl⟩
    · have hne : x ≠ p := fun he => hp j hj (he ▸ hx)
      rw [update_of_ne hne]
      exact h.class_eq j hj x hx
    · rw [update_self, Int.natCast_inj]
  · by_cases hji : j = i
    · rw [hji, update_self]
      refine (perm_append_singleton p (ls i)).nodup_iff.mpr (nodup_cons.mpr ⟨hp i hi, h.nodup i hi⟩)
    · rw [update_of_ne hji]
      exact h.nodup j hj
  · rcases (hmem j hj x).mp hx with hx | ⟨rfl, rfl⟩
    · rcases (hmem k hk x).mp hx' with hx' | ⟨rfl, rfl⟩
      · exact h.apart j hj k hk x hx hx'
      · exact absurd ‹x ∈ ls j› (hp j hj)
    · rcases (hmem k hk x).mp hx' with hx' | ⟨rfl, -⟩
      · exact absurd hx' (hp k hk)
      · rfl

theorem CoreExact.setPrio (h : CoreExact currentPrio rq l ls) {prio : Nat}
    (hp : ∀ j < schedPrioLevels, p ∈ ls j → (j = schedPrioContext ↔ prio = schedPrioContext)) :
    CoreExact (update currentPrio p prio) rq l ls := by
  refine { h with class_eq := fun j hj x hx => ?_ }
  by_cases hxp : x = p
  · subst hxp
    rw [update_self, Int.natCast_inj]
    exact (hp j hj hx).symm
  · rw [update_of_ne hxp]
    exact h.class_eq j hj x hx

/-! ## Selecting -/

variable {s : RqState P}

theorem CoreExact.pops {r : RqState P × Option P} (h : CoreExact currentPrio s.rq l ls) (hr : PopsFrom ls s r) :
    ∃ ls', CoreExact currentPrio r.1.rq (l.taken currentPrio r.2) ls' := by
  rcases hr with rfl | ⟨i, hi, p, l', hl, hp, hrings⟩
  · exact ⟨ls, h⟩
  · rw [hp]
    exact ⟨_, h.less hi (Perm.of_eq hl.symm) hrings⟩

theorem CoreExact.selectLoop {destroying : P → Bool} {kmalloc : Nat → Option (Nat → Option P)} (n : Nat)
    {r : RqState P × Option P} (h : CoreExact currentPrio r.1.rq l ls) :
    ∃ ls', CoreExact currentPrio (selectLoop destroying kmalloc n r).1.rq
      (selectLoopLoads destroying currentPrio kmalloc n r l) ls' := by
  induction n generalizing r l ls with
  | zero => exact ⟨ls, h⟩
  | succ n ih =>
    obtain ⟨s', next⟩ := r
    cases next with
    | none => exact ⟨ls, h⟩
    | some p =>
      rw [Scheduler.selectLoop, selectLoopLoads]
      split
      · obtain ⟨ls', hls'⟩ := h.pops (h.rings.pops_dequeueBest (kmalloc n))
        exact ih hls'
      · exact ⟨ls, h⟩

theorem CoreExact.selectNext (h : CoreExact currentPrio s.rq l ls) (destroying : P → Bool)
    (kmalloc : Nat → Option (Nat → Option P)) (fairnessRound : Bool) :
    ∃ ls', CoreExact currentPrio (schedulerSelectNext destroying kmalloc fairnessRound s).1.rq
      (selectNextLoads destroying currentPrio kmalloc fairnessRound s l) ls' := by
  unfold schedulerSelectNext selectNextLoads
  dsimp only
  by_cases hfair : fairnessRound = true ∧ s.rq.activeBitmap &&& clearMask schedPrioContext ≠ 0
  · -- a lower priority: its process is counted as a normal one
    obtain ⟨i, hi, hne, p, l', hl, hp, hrings⟩ := h.rings.pops_fair (kmalloc s.rq.total) hfair.2
    have hsub : ({ l with normal := dec32 l.normal } : LoadCounts) = l.sub (currentPrio p) := by
      have hclass := h.class_eq i hi p (hl ▸ mem_cons_self)
      rw [LoadCounts.sub, if_neg fun he => hne (hclass.mp he)]
    rw [if_pos hfair, if_pos hfair.1, hsub]
    exact CoreExact.selectLoop _ (h.less hi (Perm.of_eq hl.symm) hrings)
  rw [if_neg hfair]
  have hpops : PopsFrom ls s (if fairnessRound = true then selectFair (kmalloc s.rq.total) s
      else runqueueDequeueBest (kmalloc s.rq.total) s) := by
    by_cases hround : fairnessRound = true
    · have hzero : s.rq.activeBitmap &&& clearMask schedPrioContext = 0 := by
        by_contra hne
        exact hfair ⟨hround, hne⟩
      rw [if_pos hround, selectFair, if_pos hzero]
      exact h.rings.pops_dequeueBest _
    · rw [if_neg hround]
      exact h.rings.pops_dequeueBest _
  obtain ⟨ls', hls'⟩ := h.pops hpops
  exact CoreExact.selectLoop _ hls'

end core

/-! ## The whole machine -/

variable [DecidableEq C] [DecidableEq P]

namespace LoadMachine

structure Exact (w : LoadMachine C P) : Prop where
  range : ∀ p, prioInRange (w.currentPrio p)
  cores : ∀ c, ∃ ls, CoreExact w.currentPrio (w.m.rq c) (w.counts c) ls

theorem start_exact (kmalloc : C → Nat → Bool) (state : P → ProcState) (homeCore : P → C) :
    (start kmalloc state homeCore).Exact := by
  have hzero : prioInRange 0 := by decide
  refine ⟨fun _ => hzero, fun c => ⟨fun _ => [], runqueueInit_rings _, ?_, ?_, ?_, rfl, rfl⟩⟩ <;> simp

section steps

variable {w : LoadMachine C P} {c : C} {p : P} {prio : Nat} {kmalloc : Option (Nat → Option P)}

theorem Exact.same (h : w.Exact) {m : Machine C P} (hrq : m.rq = w.m.rq) :
    ({ w with m := m } : LoadMachine C P).Exact := by
  refine ⟨h.range, fun c => ?_⟩
  obtain ⟨ls, hls⟩ := h.cores c
  exact ⟨ls, by rw [hrq]; exact hls⟩

theorem Exact.atCore (h : w.Exact) {m : Machine C P} {rq : RunQueue P} {l : LoadCounts}
    (hrq : m.rq = update w.m.rq c rq) (hc : ∃ ls, CoreExact w.currentPrio rq l ls) :
    ({ w with m := m, counts := update w.counts c l } : LoadMachine C P).Exact := by
  refine ⟨h.range, fun d => ?_⟩
  dsimp only
  rw [hrq]
  by_cases hd : d = c
  · rw [hd, update_self, update_self]
    exact hc
  · rw [update_of_ne hd, update_of_ne hd]
    exact h.cores d

theorem enqueue_answer (hprio : prio < schedPrioLevels) :
    (w.HasRoom c prio kmalloc → (runqueueEnqueue kmalloc (w.m.core c) p prio).2 = true) ∧
    (¬ w.HasRoom c prio kmalloc → runqueueEnqueue kmalloc (w.m.core c) p prio = (w.m.core c, false)) := by
  have hrange : ¬ ((prio : Int) < 0 ∨ (schedPrioLevels : Int) ≤ prio) := by omega
  unfold HasRoom runqueueEnqueue
  rw [if_neg hrange]
  simp only [Int.toNat_natCast, Machine.core]
  cases ((w.m.rq c).queues prio).procs with
  | none => simp
  | some a => cases enqueueRoom kmalloc ((w.m.rq c).queues prio) <;> simp

theorem contents_eq {ls : Nat → List P} {l : LoadCounts} (hls : CoreExact w.currentPrio (w.m.rq c) l ls) {i : Nat}
    (hi : i < schedPrioLevels) : (w.m.core c).contents i = ls i :=
  (hls.rings.queues i hi).contents_eq

/-- A process joins a queue with room: the other cores count it as this one does. -/
theorem Exact.joins (h : w.Exact) (hprio : prio < schedPrioLevels) (hroom : w.HasRoom c prio kmalloc)
    (hjoins : w.Joins c p prio) {m : Machine C P}
    (hrq : m.rq = update w.m.rq c (runqueueEnqueue kmalloc (w.m.core c) p prio).1.rq) :
    ({ (w.setPrio p prio).count c fun l => l.add prio with m := m } : LoadMachine C P).Exact := by
  have hcast : castSigned 8 prio = prio := by
    refine castSigned_of_lt ?_
    unfold schedPrioLevels at hprio
    omega
  have hok : (runqueueEnqueue kmalloc (w.m.core c) p prio).2 = true := (enqueue_answer hprio).1 hroom
  refine ⟨fun x => ?_, fun d => ?_⟩
  · simp only [count, setPrio, hcast]
    by_cases hx : x = p
    · rw [hx, update_self]
      exact ⟨Int.natCast_nonneg _, by exact_mod_cast hprio⟩
    · rw [update_of_ne hx]
      exact h.range x
  · simp only [count, setPrio, hcast, hrq]
    obtain ⟨ls, hls⟩ := h.cores d
    by_cases hd : d = c
    · subst hd
      rw [update_self, update_self]
      have hrings : (w.m.core d).rq.Rings ls := hls.rings
      obtain hno | ⟨-, -, -, hholds⟩ : runqueueEnqueue kmalloc (w.m.core d) p prio = (w.m.core d, false) ∨ _ :=
        hrings.when.enqueue (fun hf => hf.elim) fun hf => hf.elim
      · rw [hno] at hok
        cases hok
      · refine ⟨_, hls.more hprio (fun j hj hp => hjoins.1 j hj ?_) hholds.rings⟩
        rwa [contents_eq hls hj]
    · rw [update_of_ne hd, update_of_ne hd]
      refine ⟨ls, hls.setPrio fun j hj hp => hjoins.2 d j hj ?_⟩
      rwa [contents_eq hls hj]

/-- A process in a used slot of core `c` is taken out and counted off. -/
theorem InSlot.remove (hslot : w.InSlot c p) {ls : Nat → List P} {l : LoadCounts}
    (hls : CoreExact w.currentPrio (w.m.rq c) l ls) :
    ∃ ls', CoreExact w.currentPrio (runqueueRemove (w.m.core c) p).rq (l.sub (w.currentPrio p)) ls' := by
  obtain ⟨i, hi, k, hk, hfields, hat⟩ := hslot
  have hq := hls.rings.queues i hi
  have hcap : 0 < ((w.m.rq c).queues i).capacity := Nat.lt_of_le_of_lt (Nat.zero_le k) (hk.trans_le hq.fits)
  have hlk : (ls i)[k]? = some p := by
    refine hq.slot.mpr ⟨hk, ?_⟩
    rwa [hq.procs hcap, bind_some] at hat
  have hslotAt : slotAt (w.m.core c) p = some p := by
    have hlt := Nat.mod_lt (((w.m.rq c).queues i).head + k) hcap
    unfold slotAt
    simp only [Machine.core, hfields, Int.toNat_natCast]
    rw [if_neg (by omega)]
    exact hat
  have hremove : runqueueRemove (w.m.core c) p =
      removeSlot (w.m.core c) p i ((((w.m.rq c).queues i).head + k) % ((w.m.rq c).queues i).capacity) := by
    have hfields' : (w.m.core c).proc p = w.m.proc p := rfl
    rw [runqueueRemove, if_neg, if_neg (not_not_intro hslotAt), hfields', hfields]
    · simp only [Int.toNat_natCast]
    · rw [hfields', hfields]
      dsimp only
      omega
  rw [hremove]
  have hrings : (w.m.core c).rq.Rings ls := hls.rings
  obtain ⟨l', hperm, hholds, -⟩ := hrings.when.removeSlot hi hlk
  exact ⟨_, hls.less hi hperm hholds.rings⟩

/-! ### One step -/

section

variable (h : w.Exact)

include h

theorem enqueueOn_exact {prio : Fin schedPrioLevels} (he : w.Allowed (.enqueueOn c p prio kmalloc)) :
    (w.step (.enqueueOn c p prio kmalloc)).Exact := by
  simp only [step, loads, enqueueLoads, Machine.step, enqueueSection]
  by_cases hc : runqueueContains (w.m.core c) p = true
  · rw [if_pos hc, if_pos hc]
    exact h.same rfl
  rw [if_neg hc, if_neg hc]
  by_cases hroom : w.HasRoom c prio kmalloc
  · rw [if_pos ((enqueue_answer prio.isLt).1 hroom)]
    have hjoins := (he.resolve_left hc).resolve_left (not_not_intro hroom)
    exact h.joins prio.isLt hroom hjoins rfl
  · rw [(enqueue_answer prio.isLt).2 hroom, if_neg Bool.false_ne_true]
    exact h.same (update_eq_self ..)

theorem requeue_exact {r : Readings C P} (hpc : w.m.pc c = .requeueing p) (he : w.Allowed (.core c r)) :
    (w.step (.core c r)).Exact := by
  simp only [Allowed, hpc, CoreAllowed] at he
  simp only [step, loads, coreLoads, requeueLoads, Machine.step, coreStep, hpc, requeue]
  by_cases hwork : w.m.state p = .working
  · rw [if_pos hwork]
    by_cases hc : runqueueContains (w.m.core c) p = true
    · rw [if_pos hc, if_neg (by simp [hc])]
      exact h.same rfl
    · obtain ⟨hroom, hjoins⟩ := (he hwork).resolve_left hc
      rw [if_neg hc, if_pos ⟨hwork, by simpa using hc⟩]
      exact h.joins r.prio.isLt hroom hjoins rfl
  · rw [if_neg hwork, if_neg fun hw => hwork hw.1]
    exact h.same rfl

theorem select_exact {r : Readings C P} {cur : Option P} (hpc : w.m.pc c = .selecting cur) :
    (w.step (.core c r)).Exact := by
  simp only [step, loads, coreLoads, Machine.step, coreStep, hpc]
  split
  · exact h.same rfl
  · obtain ⟨ls, hls⟩ := h.cores c
    exact h.atCore rfl (CoreExact.selectNext (s := w.m.core c) hls _ _ _)

theorem steal_exact {r : Readings C P} {cur : Option P} (hpc : w.m.pc c = .selected cur none)
    (he : w.Allowed (.core c r)) : (w.step (.core c r)).Exact := by
  simp only [Allowed, hpc, CoreAllowed] at he
  simp only [step, loads, coreLoads, Machine.step, coreStep, hpc]
  cases hv : r.victim.filter (· ≠ c) with
  | none => exact h.same rfl
  | some v =>
    obtain ⟨hvic, hne⟩ := filter_eq_some_iff.mp hv
    have hnothing : stealPop (w.m.core v) = (w.m.core v, none) := stealPop_nothing (he v hvic (by simpa using hne))
    simp only [stealLoads, hnothing]
    exact h.same (update_eq_self ..)

theorem core_exact {r : Readings C P} (he : w.Allowed (.core c r)) : (w.step (.core c r)).Exact := by
  cases hpc : w.m.pc c with
  | requeueing p => exact requeue_exact h hpc he
  | selecting cur => exact select_exact h hpc
  | selected cur next =>
    cases next with
    | none => exact steal_exact h hpc he
    | some p =>
      simp only [step, loads, coreLoads, Machine.step, coreStep, hpc]
      exact h.same rfl
  | stolen | claiming | switching | marking =>
    simp only [step, loads, coreLoads, Machine.step, coreStep, hpc]
    exact h.same rfl
  | outside | exchanging =>
    simp only [step, loads, coreLoads, Machine.step, coreStep, hpc]
    refine h.same ?_
    split <;> rfl
  | entered cur =>
    simp only [step, loads, coreLoads, Machine.step, coreStep, hpc]
    refine h.same ?_
    cases cur with
    | none => rfl
    | some p =>
      dsimp only
      split <;> rfl
  | installing _ next | starting next =>
    simp only [step, loads, coreLoads, Machine.step, coreStep, hpc]
    cases next <;> exact h.same rfl
  | releasing cur =>
    simp only [step, loads, coreLoads, Machine.step, coreStep, hpc]
    cases cur <;> exact h.same rfl

theorem dequeueOn_exact (he : w.Allowed (.dequeueOn c p)) : (w.step (.dequeueOn c p)).Exact := by
  obtain ⟨hhome, hslot⟩ := he
  obtain ⟨ls, hls⟩ := h.cores c
  simp only [step, loads, dequeueLoads, Machine.step]
  rw [if_pos (h.range p), hhome]
  exact h.atCore rfl (hslot.remove hls)

theorem dequeueAllOn_exact (he : w.Allowed (.dequeueAllOn c p)) : (w.step (.dequeueAllOn c p)).Exact := by
  simp only [step, loads, dequeueAllLoads, Machine.step]
  by_cases hc : runqueueContains (w.m.core c) p = true
  · obtain ⟨ls, hls⟩ := h.cores c
    rw [if_pos hc, if_pos ⟨hc, h.range p⟩]
    exact h.atCore rfl ((he hc).remove hls)
  · rw [if_neg hc, if_neg fun hw => hc hw.1]
    exact h.same (update_eq_self ..)

theorem step_exact (e : SchedEvent C P) (he : w.Allowed e) : (w.step e).Exact := by
  cases e with
  | core c r => exact core_exact h he
  | enqueueOn c p prio kmalloc => exact enqueueOn_exact h he
  | dequeueOn c p => exact dequeueOn_exact h he
  | dequeueAllOn c p => exact dequeueAllOn_exact h he
  | route | setState | destroy => exact h.same rfl

/-! ### Every run -/

theorem run_exact (es : List (SchedEvent C P)) (hes : w.AllAllowed es) : (w.run es).Exact := by
  induction es generalizing w with
  | nil => exact h
  | cons e es ih => exact ih (step_exact h e hes.1) hes.2

end

theorem AllAllowed.take (es : List (SchedEvent C P)) (hes : w.AllAllowed es) (n : Nat) : w.AllAllowed (es.take n) := by
  induction es generalizing w n with
  | nil => simpa using hes
  | cons e es ih =>
    cases n with
    | zero => trivial
    | succ n => exact ⟨hes.1, ih hes.2 n⟩

/-- The counters of a core are the numbers of the processes queued on it. -/
theorem Exact.counts_eq (h : w.Exact) (c : C) :
    (w.counts c).context = (w.contextProcs c).card ∧ (w.counts c).normal = (w.normalProcs c).card := by
  obtain ⟨ls, hls⟩ := h.cores c
  have h0 := contents_eq hls (show schedPrioIdle < schedPrioLevels by decide)
  have h1 := contents_eq hls (show schedPrioNormal < schedPrioLevels by decide)
  have h2 := contents_eq hls (show schedPrioStarved < schedPrioLevels by decide)
  have h3 := contents_eq hls (show schedPrioContext < schedPrioLevels by decide)
  refine ⟨?_, ?_⟩
  · simp only [contextProcs, queuedAt, flatMap_cons, flatMap_nil, append_nil, h3]
    rw [toFinset_card_of_nodup (hls.nodup _ (by decide))]
    exact hls.counts.1
  · simp only [normalProcs, queuedAt, flatMap_cons, flatMap_nil, append_nil, h0, h1, h2]
    have hdisj : ∀ i < schedPrioLevels, ∀ j < schedPrioLevels, i ≠ j → (ls i).Disjoint (ls j) :=
      fun i hi j hj hne x hx hx' => hne (hls.apart i hi j hj x hx hx')
    have hnodup : (ls schedPrioIdle ++ (ls schedPrioNormal ++ ls schedPrioStarved)).Nodup := by
      refine (hls.nodup _ (by decide)).append
        ((hls.nodup _ (by decide)).append (hls.nodup _ (by decide)) (hdisj _ (by decide) _ (by decide) (by decide))) ?_
      rw [disjoint_append_right]
      exact ⟨hdisj _ (by decide) _ (by decide) (by decide), hdisj _ (by decide) _ (by decide) (by decide)⟩
    rw [toFinset_card_of_nodup hnodup, length_append, length_append, ← Nat.add_assoc]
    exact hls.counts.2

theorem Exact.counts_le (h : w.Exact) (c : C) :
    (w.counts c).context ≤ runqueueMaxCap ∧ (w.counts c).normal ≤ 3 * runqueueMaxCap := by
  obtain ⟨ls, hls⟩ := h.cores c
  obtain ⟨hc, hn⟩ := hls.counts
  have h0 := RqState.HoldsWhen.length_le hls.rings (show schedPrioIdle < schedPrioLevels by decide)
  have h1 := RqState.HoldsWhen.length_le hls.rings (show schedPrioNormal < schedPrioLevels by decide)
  have h2 := RqState.HoldsWhen.length_le hls.rings (show schedPrioStarved < schedPrioLevels by decide)
  have h3 := RqState.HoldsWhen.length_le hls.rings (show schedPrioContext < schedPrioLevels by decide)
  omega

end steps

end LoadMachine

/-! ## The parameters of the true totals -/

theorem total32_eq {ns : List Nat} (h : ns.sum < 2 ^ 32) : total32 ns = ns.sum := by
  have hfold : ∀ (ns : List Nat) (t : Nat), t + ns.sum < 2 ^ 32 →
      ns.foldl (fun total n => (total + n) % 2 ^ 32) t = t + ns.sum := by
    intro ns
    induction ns with
    | nil => exact fun t _ => rfl
    | cons n ns ih =>
      intro t ht
      rw [sum_cons, ← Nat.add_assoc] at ht ⊢
      rw [foldl_cons, Nat.mod_eq_of_lt (by omega)]
      exact ih _ ht
  rw [total32, hfold ns 0 (by omega), Nat.zero_add]

theorem sum_map_le {α : Type} {xs : List α} {f : α → Nat} {b : Nat} (hb : ∀ x, f x ≤ b) (hlen : xs.length ≤ maxCores) :
    (xs.map f).sum ≤ maxCores * b := by
  have hsum := sum_le_card_nsmul (xs.map f) b (by simpa using fun x _ => hb x)
  rw [length_map, nsmul_eq_mul, Nat.cast_id] at hsum
  exact hsum.trans (Nat.mul_le_mul_right b hlen)

theorem clampParam_eq {lo hi n : Nat} (h : lo ≤ hi) : clampParam lo hi n = max lo (min hi n) := by
  unfold clampParam
  dsimp only
  split_ifs <;> omega

theorem schedulerRecalcParameters_eq (now : Nat) (params : SchedParams) {counts : List LoadCounts}
    (hsum : (counts.map context).sum + (counts.map normal).sum < 2 ^ 31) :
    schedulerRecalcParameters now params counts =
      some (params.ofTotals now counts.length (counts.map context).sum (counts.map normal).sum) := by
  unfold schedulerRecalcParameters SchedParams.ofTotals
  split
  · rfl
  dsimp only
  rw [total32_eq (by omega), total32_eq (by omega)]
  generalize (counts.map context).sum = tc at *
  generalize (counts.map normal).sum = tn at *
  have hratio : fairnessRatio tc tn =
      some (if 0 < tc ∧ 0 < tn then schedulerFairnessBase + tc / (tn + 1) else 1) := by
    have hdiv : tc / (tn + 1) ≤ tc := Nat.div_le_self ..
    unfold fairnessRatio schedulerFairnessBase
    split
    · rw [Nat.mod_eq_of_lt (by omega), if_neg (by omega), Nat.mod_eq_of_lt (by omega)]
    · rfl
  have hticks :
      (schedulerStarvationBase + (tc + tn) % 2 ^ 32 / 4) % 2 ^ 32 = schedulerStarvationBase + (tc + tn) / 4 := by
    unfold schedulerStarvationBase
    rw [Nat.mod_eq_of_lt (by omega), Nat.mod_eq_of_lt (by omega)]
  rw [hratio, hticks, Option.map_some, clampParam_eq (by decide), clampParam_eq (by decide)]

/-- Along every run in which each event finds the queues and the counters in step, the counters of a core are the
numbers of the processes queued there, and the parameters computed from them are those of the true totals. -/
theorem load_counters_exact {cores : List C} (hcores : cores.length ≤ maxCores) (kmalloc : C → Nat → Bool)
    (state : P → ProcState) (homeCore : P → C) (es : List (SchedEvent C P))
    (hes : (start kmalloc state homeCore).AllAllowed es) (contextAt normalAt : C → Nat) (now : Nat)
    (params : SchedParams) :
    let reached := fun k => (start kmalloc state homeCore).run (es.take k)
    (∀ k c, ((reached k).counts c).context = ((reached k).contextProcs c).card ∧
      ((reached k).counts c).normal = ((reached k).normalProcs c).card) ∧
    schedulerRecalcParameters now params (cores.map fun c =>
        ⟨((reached (contextAt c)).counts c).context, ((reached (normalAt c)).counts c).normal⟩) =
      some (params.ofTotals now cores.length
        (cores.map fun c => ((reached (contextAt c)).contextProcs c).card).sum
        (cores.map fun c => ((reached (normalAt c)).normalProcs c).card).sum) := by
  intro reached
  have hexact : ∀ k, (reached k).Exact := fun k =>
    run_exact (start_exact kmalloc state homeCore) _ (LoadMachine.AllAllowed.take es hes k)
  have hcounts := fun k c => (hexact k).counts_eq c
  refine ⟨hcounts, ?_⟩
  have hc : (cores.map fun c => ((reached (contextAt c)).counts c).context).sum ≤ maxCores * runqueueMaxCap :=
    sum_map_le (fun c => ((hexact (contextAt c)).counts_le c).1) hcores
  have hn : (cores.map fun c => ((reached (normalAt c)).counts c).normal).sum ≤ maxCores * (3 * runqueueMaxCap) :=
    sum_map_le (fun c => ((hexact (normalAt c)).counts_le c).2) hcores
  unfold maxCores runqueueMaxCap at hc hn
  rw [schedulerRecalcParameters_eq]
  · simp only [length_map, List.map_map, Function.comp_def, (hcounts _ _).1, (hcounts _ _).2]
  · simp only [List.map_map, Function.comp_def]
    omega

/-- Two processes join a core, one is dequeued, and the other runs and is put back. -/
theorem load_counters_exact_requeue :
    let es : List (SchedEvent (Fin 2) (Fin 2)) :=
      [.enqueueOn 0 0 ⟨schedPrioNormal, by decide⟩ none, .enqueueOn 0 1 ⟨schedPrioContext, by decide⟩ none,
        .dequeueOn 0 1] ++ replicate 13 (.core 0 {})
    let w := (start (fun _ _ => true) (fun _ => .working) fun _ => 0).run es
    (w.counts 0).context = (w.contextProcs 0).card ∧ (w.counts 0).normal = (w.normalProcs 0).card := by
  intro es w
  have hes : (start (fun _ _ => true) (fun _ => .working) fun _ => 0).AllAllowed es := by decide +kernel
  exact (load_counters_exact (show ([0, 1] : List (Fin 2)).length ≤ maxCores by decide) _ _ _ es hes (fun _ => 0)
    (fun _ => 0) 10 ⟨0, 0, 0, 0⟩).1 16 0

/-- A process runs and stops to wait: `sched_dequeue` counts it off a second time, below zero. With a context process
in the queue `scheduler_recalc_parameters` then divides by zero. -/
theorem waiting_process_wraps_count :
    let es : List (SchedEvent (Fin 1) (Fin 2)) :=
      .enqueueOn 0 0 ⟨schedPrioNormal, by decide⟩ none :: replicate 12 (.core 0 {}) ++
        [.setState 0 .waiting, .dequeueOn 0 0, .enqueueOn 0 1 ⟨schedPrioContext, by decide⟩ none]
    let w := (start (fun _ _ => true) (fun _ => .working) fun _ => 0).run es
    w.m.current 0 = some 0 ∧ (w.counts 0).normal = 2 ^ 32 - 1 ∧ (w.normalProcs 0).card = 0 ∧
      schedulerRecalcParameters 10 ⟨0, 0, 0, 0⟩ [w.counts 0] = none := by
  decide +kernel

end BoxOS.Scheduler
