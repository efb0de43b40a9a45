import BoxOS.Scheduler.Schedule

/-! # The load counters of the cores

`g_core_context_count` and `g_core_normal_count` are adjusted by hand in each section that changes a run queue, with
`current_prio` of the process, and `scheduler_recalc_parameters` sums them up. `LoadMachine` is the machine of
`schedule()` with these counters: every event changes the queues as there and the counters as here. -/

namespace BoxOS.Scheduler

def maxCores : Nat := 256
def schedRecalcInterval : Nat := 10
def schedulerMinFairness : Nat := 2
def schedulerMaxFairness : Nat := 20
def schedulerMinStarvation : Nat := 10
def schedulerMaxStarvation : Nat := 100
def schedulerFairnessBase : Nat := 4
def schedulerStarvationBase : Nat := 25
def schedulerStealCooldownBase : Nat := 10

/-- `g_core_context_count` and `g_core_normal_count` of one core, `uint32_t` both. -/
structure LoadCounts where
  context : Nat := 0
  normal : Nat := 0
  deriving DecidableEq, Repr

def LoadCounts.add (l : LoadCounts) (prio : Int) : LoadCounts :=
  if prio = schedPrioContext then { l with context := inc32 l.context } else { l with normal := inc32 l.normal }

def LoadCounts.sub (l : LoadCounts) (prio : Int) : LoadCounts :=
  if prio = schedPrioContext then { l with context := dec32 l.context } else { l with normal := dec32 l.normal }

/-! ## The parameters -/

/-- `g_dynamic_fairness_ratio`, `g_dynamic_starvation_ticks`, `g_dynamic_steal_cooldown` and `s_last_recalc`. -/
structure SchedParams where
  fairnessRatio : Nat
  starvationTicks : Nat
  stealCooldown : Nat
  lastRecalc : Nat
  deriving DecidableEq, Repr

/-- Below the minimum the minimum, above the maximum the maximum, by two checks in this order. -/
def clampParam (lo hi n : Nat) : Nat :=
  let n := if n < lo then lo else n
  if hi < n then hi else n

/-- A total of counters, in a `uint32_t`. -/
def total32 (ns : List Nat) : Nat :=
  ns.foldl (fun total n => (total + n) % 2 ^ 32) 0

/-- The ratio before it is clamped; `none` is the fault of a division by zero. -/
def fairnessRatio (totalContext totalNormal : Nat) : Option Nat :=
  if 0 < totalContext ∧ 0 < totalNormal then
    let divisor := (totalNormal + 1) % 2 ^ 32
    if divisor = 0 then none else some ((schedulerFairnessBase + totalContext / divisor) % 2 ^ 32)
  else some 1

/-- `scheduler_recalc_parameters` on the counters it reads, one pair for each core. What it does to parked cores comes
with the events of the machine. -/
def schedulerRecalcParameters (now : Nat) (params : SchedParams) (counts : List LoadCounts) : Option SchedParams :=
  if (now + 2 ^ 64 - params.lastRecalc) % 2 ^ 64 < schedRecalcInterval then some params
  else
    let totalContext := total32 (counts.map LoadCounts.context)
    let totalNormal := total32 (counts.map LoadCounts.normal)
    (fairnessRatio totalContext totalNormal).map fun ratio =>
      { fairnessRatio := clampParam schedulerMinFairness schedulerMaxFairness ratio
        starvationTicks := clampParam schedulerMinStarvation schedulerMaxStarvation
          ((schedulerStarvationBase + (totalContext + totalNormal) % 2 ^ 32 / 4) % 2 ^ 32)
        stealCooldown := schedulerStealCooldownBase + counts.length / 2
        lastRecalc := now }

/-- What the parameters are meant to be for the given totals, without the arithmetic of the machine. -/
def SchedParams.ofTotals (now : Nat) (params : SchedParams) (cores totalContext totalNormal : Nat) : SchedParams :=
  if (now + 2 ^ 64 - params.lastRecalc) % 2 ^ 64 < schedRecalcInterval then params
  else
    { fairnessRatio := max schedulerMinFairness (min schedulerMaxFairness
        (if 0 < totalContext ∧ 0 < totalNormal then schedulerFairnessBase + totalContext / (totalNormal + 1) else 1))
      starvationTicks := max schedulerMinStarvation (min schedulerMaxStarvation
        (schedulerStarvationBase + (totalContext + totalNormal) / 4))
      stealCooldown := schedulerStealCooldownBase + cores / 2
      lastRecalc := now }

/-! ## The counters in the sections of the scheduler -/

structure LoadMachine (C P : Type) where
  m : Machine C P
  /-- `current_prio`, an `int8_t` -/
  currentPrio : P → Int
  counts : C → LoadCounts

variable {C P : Type} [DecidableEq C] [DecidableEq P]

/-- `current_prio` names a priority. -/
def prioInRange (prio : Int) : Prop :=
  0 ≤ prio ∧ prio < schedPrioLevels

instance (prio : Int) : Decidable (prioInRange prio) :=
  inferInstanceAs (Decidable (_ ∧ _))

/-- What the counters of the core lose for the process that a pop has taken. -/
def LoadCounts.taken (currentPrio : P → Int) (l : LoadCounts) : Option P → LoadCounts
  | none => l
  | some p => l.sub (currentPrio p)

/-- The counters along the loop of `scheduler_select_next`. -/
def selectLoopLoads (destroying : P → Bool) (currentPrio : P → Int) (kmalloc : Nat → Option (Nat → Option P)) :
    Nat → RqState P × Option P → LoadCounts → LoadCounts
  | n + 1, (s, some p), l =>
    if destroying p then
      let r := runqueueDequeueBest (kmalloc n) s
      selectLoopLoads destroying currentPrio kmalloc n r (l.taken currentPrio r.2)
    else l
  | _, _, l => l

/-- The counters in `scheduler_select_next`: a fairness round that finds a lower priority takes a normal process
without a look at its `current_prio`. -/
def selectNextLoads (destroying : P → Bool) (currentPrio : P → Int) (kmalloc : Nat → Option (Nat → Option P))
    (fairnessRound : Bool) (s : RqState P) (l : LoadCounts) : LoadCounts :=
  let first := if fairnessRound then selectFair (kmalloc s.rq.total) s else runqueueDequeueBest (kmalloc s.rq.total) s
  selectLoopLoads destroying currentPrio kmalloc s.rq.total first
    (if fairnessRound ∧ s.rq.activeBitmap &&& clearMask schedPrioContext ≠ 0 then { l with normal := dec32 l.normal }
    else l.taken currentPrio first.2)

namespace LoadMachine

def setPrio (w : LoadMachine C P) (p : P) (prio : Nat) : LoadMachine C P :=
  { w with currentPrio := Function.update w.currentPrio p (castSigned 8 prio) }

def count (w : LoadMachine C P) (c : C) (f : LoadCounts → LoadCounts) : LoadMachine C P :=
  { w with counts := Function.update w.counts c (f (w.counts c)) }

/-- The section of `sched_enqueue` and `sched_enqueue_on`. -/
def enqueueLoads (w : LoadMachine C P) (c : C) (p : P) (prio : Nat) (kmalloc : Option (Nat → Option P)) :
    LoadMachine C P :=
  if runqueueContains (w.m.core c) p then w
  else if (runqueueEnqueue kmalloc (w.m.core c) p prio).2 then (w.setPrio p prio).count c fun l => l.add prio
  else w

/-- The section of `schedule()` that puts the current process back: it does not look at the answer of
`runqueue_enqueue`. -/
def requeueLoads (w : LoadMachine C P) (c : C) (p : P) (prio : Nat) : LoadMachine C P :=
  if w.m.state p = .working ∧ runqueueContains (w.m.core c) p = false then
    (w.setPrio p prio).count c fun l => l.add prio
  else w

/-- The section of `sched_dequeue`: `home_core` is read again for the counter. -/
def dequeueLoads (w : LoadMachine C P) (p : P) : LoadMachine C P :=
  if prioInRange (w.currentPrio p) then w.count (w.m.homeCore p) fun l => l.sub (w.currentPrio p) else w

/-- One round of `sched_dequeue_all_cores`. -/
def dequeueAllLoads (w : LoadMachine C P) (c : C) (p : P) : LoadMachine C P :=
  if runqueueContains (w.m.core c) p ∧ prioInRange (w.currentPrio p) then
    w.count c fun l => l.sub (w.currentPrio p)
  else w

/-- `sched_try_steal` on core `c` with victim `v`: the count moves with the process. -/
def stealLoads (w : LoadMachine C P) (c v : C) : LoadMachine C P :=
  match (stealPop (w.m.core v)).2 with
  | none => w
  | some p =>
    if prioInRange (w.currentPrio p) then
      (w.count v fun l => l.sub (w.currentPrio p)).count c fun l => l.add (w.currentPrio p)
    else w

/-- The counters in the next operation of `schedule()` on core `c`. -/
def coreLoads (w : LoadMachine C P) (c : C) (r : Readings C P) : LoadMachine C P :=
  match w.m.pc c with
  | .requeueing p => w.requeueLoads c p r.prio
  | .selecting _ =>
    if r.isParked then w
    else w.count c (selectNextLoads w.m.destroying w.currentPrio r.kmalloc r.fairnessRound (w.m.core c))
  | .selected _ none =>
    match r.victim.filter (· ≠ c) with
    | none => w
    | some v => w.stealLoads c v
  | _ => w

def loads (w : LoadMachine C P) : SchedEvent C P → LoadMachine C P
  | .core c r => w.coreLoads c r
  | .enqueueOn c p prio kmalloc => w.enqueueLoads c p prio kmalloc
  | .dequeueOn _ p => w.dequeueLoads p
  | .dequeueAllOn c p => w.dequeueAllLoads c p
  | .route .. | .setState .. | .destroy .. => w

def step (w : LoadMachine C P) (e : SchedEvent C P) : LoadMachine C P :=
  { w.loads e with m := w.m.step e }

def run (w : LoadMachine C P) (es : List (SchedEvent C P)) : LoadMachine C P :=
  es.foldl LoadMachine.step w

/-- Processes come from `process_create`, which clears their fields. -/
def start (kmalloc : C → Nat → Bool) (state : P → ProcState) (homeCore : P → C) : LoadMachine C P where
  m := Machine.start kmalloc state homeCore
  currentPrio _ := 0
  counts _ := {}

/-- The processes that are queued on core `c` at one of the priorities. -/
def queuedAt (w : LoadMachine C P) (c : C) (prios : List Nat) : Finset P :=
  (prios.flatMap (w.m.core c).contents).toFinset

def contextProcs (w : LoadMachine C P) (c : C) : Finset P :=
  w.queuedAt c [schedPrioContext]

def normalProcs (w : LoadMachine C P) (c : C) : Finset P :=
  w.queuedAt c [schedPrioIdle, schedPrioNormal, schedPrioStarved]

/-! ## When the counters are adjusted as the queues are -/

/-- `runqueue_enqueue` finds an array with a free slot, or gets a larger one. -/
def HasRoom (w : LoadMachine C P) (c : C) (prio : Nat) (kmalloc : Option (Nat → Option P)) : Prop :=
  ((w.m.rq c).queues prio).procs.isSome = true ∧ (enqueueRoom kmalloc ((w.m.rq c).queues prio)).isSome = true

/-- The process is in no queue of core `c`, and the cores that have it count it under the same counter. -/
def Joins (w : LoadMachine C P) (c : C) (p : P) (prio : Nat) : Prop :=
  (∀ i < schedPrioLevels, p ∉ (w.m.core c).contents i) ∧
  ∀ d, ∀ i < schedPrioLevels, p ∈ (w.m.core d).contents i → (i = schedPrioContext ↔ prio = schedPrioContext)

/-- The fields of the process name a used slot of core `c`, and the process is in it. -/
def InSlot (w : LoadMachine C P) (c : C) (p : P) : Prop :=
  ∃ i < schedPrioLevels, ∃ k < ((w.m.rq c).queues i).count,
    w.m.proc p = ⟨i, ((((w.m.rq c).queues i).head + k) % ((w.m.rq c).queues i).capacity : Nat)⟩ ∧
    ((w.m.rq c).queues i).procs.bind
      (fun a => a ((((w.m.rq c).queues i).head + k) % ((w.m.rq c).queues i).capacity)) = some p

/-- `sched_try_steal` finds no second process on the victim, or none that it may take. -/
def StealsNothing (w : LoadMachine C P) (v : C) : Prop :=
  (w.m.rq v).total ≤ 1 ∨
    ((w.m.rq v).queues schedPrioNormal).count = 0 ∧ ((w.m.rq v).queues schedPrioIdle).count = 0

/-- The condition on a core that stands at `pc` of `schedule()`. -/
def CoreAllowed (w : LoadMachine C P) (c : C) (r : Readings C P) : Pc P → Prop
  | .requeueing p =>
    w.m.state p = .working →
    runqueueContains (w.m.core c) p = true ∨ w.HasRoom c r.prio (r.kmalloc 0) ∧ w.Joins c p r.prio
  | .selected _ none => ∀ v ∈ r.victim, v ≠ c → w.StealsNothing v
  | _ => True

/-- The condition on a state and the event that comes next. -/
def Allowed (w : LoadMachine C P) : SchedEvent C P → Prop
  | .core c r => w.CoreAllowed c r (w.m.pc c)
  | .enqueueOn c p prio kmalloc =>
    runqueueContains (w.m.core c) p = true ∨ ¬ w.HasRoom c prio kmalloc ∨ w.Joins c p prio
  | .dequeueOn c p => w.m.homeCore p = c ∧ w.InSlot c p
  | .dequeueAllOn c p => runqueueContains (w.m.core c) p = true → w.InSlot c p
  | .route .. | .setState .. | .destroy .. => True

def AllAllowed : LoadMachine C P → List (SchedEvent C P) → Prop
  | _, [] => True
  | w, e :: es => w.Allowed e ∧ AllAllowed (w.step e) es

section decidable

variable (w : LoadMachine C P) (c : C) (p : P)

instance (prio : Nat) (kmalloc : Option (Nat → Option P)) : Decidable (w.HasRoom c prio kmalloc) :=
  inferInstanceAs (Decidable (_ ∧ _))

instance (prio : Nat) [Fintype C] : Decidable (w.Joins c p prio) :=
  inferInstanceAs (Decidable (_ ∧ _))

instance : Decidable (w.InSlot c p) :=
  inferInstanceAs (Decidable (∃ i < schedPrioLevels, _))

instance (v : C) : Decidable (w.StealsNothing v) :=
  inferInstanceAs (Decidable (_ ∨ _))

instance [Fintype C] (r : Readings C P) : (pc : Pc P) → Decidable (w.CoreAllowed c r pc)
  | .requeueing p => inferInstanceAs (Decidable (w.m.state p = .working → _ ∨ _))
  | .selected _ none => inferInstanceAs (Decidable (∀ v ∈ r.victim, v ≠ c → w.StealsNothing v))
  | .outside | .entered _ | .selecting _ | .selected _ (some _) | .stolen .. | .installing .. | .claiming ..
  | .exchanging .. | .switching .. | .releasing .. | .starting _ | .marking _ => isTrue trivial

instance [Fintype C] : (e : SchedEvent C P) → Decidable (w.Allowed e)
  | .core c r => inferInstanceAs (Decidable (w.CoreAllowed c r (w.m.pc c)))
  | .enqueueOn c p prio kmalloc =>
    inferInstanceAs (Decidable (runqueueContains (w.m.core c) p = true ∨ ¬ w.HasRoom c prio kmalloc ∨ w.Joins c p prio))
  | .dequeueOn c p => inferInstanceAs (Decidable (w.m.homeCore p = c ∧ w.InSlot c p))
  | .dequeueAllOn c p => inferInstanceAs (Decidable (runqueueContains (w.m.core c) p = true → w.InSlot c p))
  | .route .. | .setState .. | .destroy .. => isTrue trivial

instance instDecidableAllAllowed [Fintype C] :
    (w : LoadMachine C P) → (es : List (SchedEvent C P)) → Decidable (w.AllAllowed es)
  | _, [] => isTrue trivial
  | w, e :: es =>
    have := instDecidableAllAllowed (w.step e) es
    inferInstanceAs (Decidable (w.Allowed e ∧ AllAllowed (w.step e) es))

end decidable

end LoadMachine

end BoxOS.Scheduler
