import BoxOS.Scheduler.CoreQueue

/-! # `schedule()` on several cores

Each core has a run queue and a current process; the cores run `schedule()` one atomic operation or lock-protected
section at a time, between them the callers of `sched_enqueue`, `sched_enqueue_on`, `sched_dequeue` and
`sched_dequeue_all_cores`. The idle process is `none`. What a core reads of clocks, loads and flags of the machine
(parked, fairness round, cooldown of stealing, the victim) comes with the event. -/

open Function (update)

namespace BoxOS.Scheduler

inductive ProcState where
  | created
  | working
  | waiting
  | stopped
  | done
  | crashed
  deriving DecidableEq, Repr

/-- Where `schedule()` stands on a core; `cur` is what it read as current, `next` what it will switch to. -/
inductive Pc (P : Type) where
  /-- not in `schedule()` -/
  | outside
  /-- `current_process` is read -/
  | entered (cur : Option P)
  /-- the state was `PROC_WORKING`: the section that puts the process back comes -/
  | requeueing (cur : P)
  | selecting (cur : Option P)
  /-- `scheduler_select_next` has answered -/
  | selected (cur next : Option P)
  /-- a process was stolen, its `home_core` is not yet set -/
  | stolen (cur : Option P) (next : P)
  /-- in the section that installs: `destroying` is read next -/
  | installing (cur next : Option P)
  /-- `on_cpu` is read next -/
  | claiming (cur : Option P) (next : P)
  /-- the exchange of `on_cpu` comes -/
  | exchanging (cur : Option P) (next : P)
  /-- `current_process` is written next -/
  | switching (cur next : Option P)
  /-- the old process's `on_cpu` is cleared next -/
  | releasing (cur next : Option P)
  /-- the state of the new process is read next -/
  | starting (next : Option P)
  /-- it was `PROC_CREATED`: it starts to work -/
  | marking (next : P)
  deriving DecidableEq, Repr

structure Machine (C P : Type) where
  rq : C → RunQueue P
  proc : P → RqFields
  current : C → Option P
  pc : C → Pc P
  state : P → ProcState
  destroying : P → Bool
  onCpu : P → Option C
  homeCore : P → C
  /-- bookkeeping of the model: enqueued, and since then neither dequeued nor let go by a core that found it stopped -/
  due : P → Prop

variable {C P : Type} [DecidableEq C] [DecidableEq P]
variable (m : Machine C P)

/-- The run queue of a core with the fields of all processes. -/
def Machine.core (c : C) : RqState P :=
  ⟨m.rq c, m.proc⟩

def Machine.setCore (c : C) (s : RqState P) : Machine C P :=
  { m with rq := update m.rq c s.rq, proc := s.proc }

def Machine.setPc (c : C) (pc : Pc P) : Machine C P :=
  { m with pc := update m.pc c pc }

/-- The loop of `scheduler_select_next`: processes that are being destroyed are dropped. -/
def selectLoop (destroying : P → Bool) (kmalloc : Nat → Option (Nat → Option P)) :
    Nat → RqState P × Option P → RqState P × Option P
  | n + 1, (s, some p) =>
    if destroying p then selectLoop destroying kmalloc n (runqueueDequeueBest (kmalloc n) s) else (s, some p)
  | _, r => r

/-- The locked section of `scheduler_select_next`; the queue has as many rounds for the loop as processes. -/
def schedulerSelectNext (destroying : P → Bool) (kmalloc : Nat → Option (Nat → Option P)) (fairnessRound : Bool)
    (s : RqState P) : RqState P × Option P :=
  selectLoop destroying kmalloc s.rq.total
    (if fairnessRound then selectFair (kmalloc s.rq.total) s else runqueueDequeueBest (kmalloc s.rq.total) s)

/-- What a core finds outside the queues while it runs `schedule()`. -/
structure Readings (C P : Type) where
  isParked : Bool := false
  prio : Fin schedPrioLevels := ⟨schedPrioNormal, by decide⟩
  fairnessRound : Bool := false
  /-- the core chosen by `sched_try_steal`, if stealing is tried -/
  victim : Option C := none
  kmalloc : Nat → Option (Nat → Option P) := fun _ => none

/-- A core that has taken the process from a queue and is on the way to switching to it. -/
def Pc.Holding : Pc P → P → Prop
  | .selected _ next, p => next = some p
  | .stolen _ next, p => next = p
  | .installing _ next, p => next = some p
  | .claiming _ next, p => next = p
  | .exchanging _ next, p => next = p
  | .switching _ next, p => next = some p
  | _, _ => False

def Machine.Placed (p : P) : Prop :=
  (∃ c, (m.core c).Queued p) ∨ ∃ c, (m.pc c).Holding p

/-- A core found the process stopped: without another place it has to be enqueued again. -/
def Machine.letGo (p : P) : Machine C P :=
  { m with due := fun x => m.due x ∧ (x = p → m.Placed p) }

/-- The locked section that puts the current process back. -/
def requeue (c : C) (r : Readings C P) (p : P) : Machine C P :=
  if m.state p = .working then
    if runqueueContains (m.core c) p then m
    else
      let res := runqueueEnqueue (r.kmalloc 0) (m.core c) p r.prio
      { m.setCore c res.1 with due := fun x => m.due x ∨ x = p ∧ res.2 = true }
  else m.letGo p

/-- The next operation of `schedule()` on core `c`. -/
def coreStep (c : C) (r : Readings C P) : Machine C P :=
  match m.pc c with
  | .outside => if r.isParked then m else m.setPc c (.entered (m.current c))
  | .entered none => m.setPc c (.selecting none)
  | .entered (some p) =>
    if m.state p = .working then m.setPc c (.requeueing p) else (m.letGo p).setPc c (.selecting (some p))
  | .requeueing p => (requeue m c r p).setPc c (.selecting (some p))
  | .selecting cur =>
    if r.isParked then m.setPc c (.selected cur none)
    else
      let res := schedulerSelectNext m.destroying r.kmalloc r.fairnessRound (m.core c)
      (m.setCore c res.1).setPc c (.selected cur res.2)
  | .selected cur (some p) => m.setPc c (.installing cur (some p))
  | .selected cur none =>
    match r.victim.filter (· ≠ c) with
    | none => m.setPc c (.installing cur none)
    | some v =>
      let res := stealPop (m.core v)
      match res.2 with
      | none => (m.setCore v res.1).setPc c (.installing cur none)
      | some p => (m.setCore v res.1).setPc c (.stolen cur p)
  | .stolen cur p => { m.setPc c (.installing cur (some p)) with homeCore := update m.homeCore p c }
  | .installing cur none => m.setPc c (.switching cur none)
  | .installing cur (some p) => m.setPc c (if m.destroying p then .switching cur none else .claiming cur p)
  | .claiming cur p => m.setPc c (if m.onCpu p = some c then .switching cur (some p) else .exchanging cur p)
  | .exchanging cur p =>
    if m.onCpu p = none then
      { m.setPc c (.switching cur (some p)) with onCpu := update m.onCpu p (some c) }
    else m.setPc c (.switching cur none)
  | .switching cur next => { m.setPc c (.releasing cur next) with current := update m.current c next }
  | .releasing none next => m.setPc c (.starting next)
  | .releasing (some p) next =>
    { m.setPc c (.starting next) with
      onCpu := if next = some p then m.onCpu else update m.onCpu p none }
  | .starting none => m.setPc c .outside
  | .starting (some p) => m.setPc c (if m.state p = .created then .marking p else .outside)
  | .marking p => { m.setPc c .outside with state := update m.state p .working }

/-- The core `sched_enqueue` chooses, from the loads it reads of the cores that may be chosen. -/
def enqueueTarget (home : C) (homeLoad : Nat) (loads : List (C × Nat)) : C :=
  (loads.foldl (fun best l => if l.2 + 1 < best.2 then l else best) (home, homeLoad)).1

/-- The locked section of `sched_enqueue` and `sched_enqueue_on`. -/
def enqueueSection (c : C) (p : P) (prio : Nat) (kmalloc : Option (Nat → Option P)) : Machine C P :=
  if runqueueContains (m.core c) p then { m with due := fun x => m.due x ∨ x = p }
  else
    let res := runqueueEnqueue kmalloc (m.core c) p prio
    { m.setCore c res.1 with due := fun x => m.due x ∨ x = p ∧ res.2 = true }

/-- What happens next, anywhere in the machine. -/
inductive SchedEvent (C P : Type) where
  | core (c : C) (r : Readings C P)
  /-- `sched_enqueue` before its lock, for a process that has not run of late -/
  | route (p : P) (homeLoad : Nat) (loads : List (C × Nat))
  | enqueueOn (c : C) (p : P) (prio : Fin schedPrioLevels) (kmalloc : Option (Nat → Option P))
  /-- `sched_dequeue`: `c` is the `home_core` it read before the lock -/
  | dequeueOn (c : C) (p : P)
  /-- one round of `sched_dequeue_all_cores` -/
  | dequeueAllOn (c : C) (p : P)
  | setState (p : P) (state : ProcState)
  | destroy (p : P)

def Machine.step : SchedEvent C P → Machine C P
  | .core c r => coreStep m c r
  | .route p homeLoad loads =>
    { m with homeCore := update m.homeCore p (enqueueTarget (m.homeCore p) homeLoad loads) }
  | .enqueueOn c p prio kmalloc => enqueueSection m c p prio kmalloc
  | .dequeueOn c p =>
    { m.setCore c (runqueueRemove (m.core c) p) with due := fun x => m.due x ∧ x ≠ p }
  | .dequeueAllOn c p =>
    { m.setCore c (if runqueueContains (m.core c) p then runqueueRemove (m.core c) p else m.core c) with
      due := fun x => m.due x ∧ x ≠ p }
  | .setState p state => { m with state := update m.state p state }
  | .destroy p => { m with destroying := update m.destroying p true }

def Machine.run (es : List (SchedEvent C P)) : Machine C P :=
  es.foldl Machine.step m

/-- The cores are idle and their queues empty; `kmalloc` says which queues have their array. -/
def Machine.start (kmalloc : C → Nat → Bool) (state : P → ProcState) (homeCore : P → C) : Machine C P where
  rq c := runqueueInit (kmalloc c)
  proc _ := {}
  current _ := none
  pc _ := .outside
  state := state
  destroying _ := false
  onCpu _ := none
  homeCore := homeCore
  due _ := False

end BoxOS.Scheduler
