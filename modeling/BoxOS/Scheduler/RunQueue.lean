import BoxOS.Lib.Ring
import Mathlib.Data.Nat.Bitwise

/-! # The run queue of a core

Four circular queues, one for each priority, that grow and shrink; every process keeps the priority and the slot it
is queued under. `kmalloc` is an argument: `none` when it fails, else what the fresh memory happens to hold. -/

open Function (update)

namespace BoxOS.Scheduler

def schedPrioIdle : Nat := 0
def schedPrioNormal : Nat := 1
def schedPrioStarved : Nat := 2
def schedPrioContext : Nat := 3
def schedPrioLevels : Nat := 4
def runqueueInitialCap : Nat := 64
def runqueueMaxCap : Nat := 4096

/-- The value of `n` stored in a signed integer of `w` bits. -/
def castSigned (w n : Nat) : Int :=
  Int.bmod n (2 ^ w)

/-- `n--` on a `uint32_t`. -/
def dec32 (n : Nat) : Nat :=
  if n = 0 then 2 ^ 32 - 1 else n - 1

/-- `n++` on a `uint32_t`. -/
def inc32 (n : Nat) : Nat :=
  if n + 1 = 2 ^ 32 then 0 else n + 1

/-- `rq_prio` and `rq_index` of a process. -/
structure RqFields where
  prio : Int := -1
  index : Int := -1
  deriving DecidableEq, Repr

/-- One priority: `procs` is `NULL` or an array of process pointers. -/
structure SchedQueue (P : Type) where
  procs : Option (Nat → Option P)
  capacity : Nat
  head : Nat
  tail : Nat
  count : Nat

structure RunQueue (P : Type) where
  queues : Nat → SchedQueue P
  activeBitmap : Nat
  total : Nat

/-- A run queue together with the fields of the processes. -/
structure RqState (P : Type) where
  rq : RunQueue P
  proc : P → RqFields

variable {P : Type}

/-- The loop of `schedqueue_resize`: `n` cells from `idx` on to the front of `new`, from `i` on. -/
def resizeLoop (procs : Nat → Option P) (capacity : Nat) : Nat → Nat → Nat → (Nat → Option P) → Nat → Option P
  | 0, _, _, new => new
  | n + 1, i, idx, new =>
    resizeLoop procs capacity n (i + 1) ((idx + 1) % capacity) (update new i (procs idx))

def schedqueueResize (kmalloc : Option (Nat → Option P)) (sq : SchedQueue P) (newCap : Nat) : Option (SchedQueue P) :=
  if newCap < sq.count ∨ runqueueMaxCap < newCap then none
  else
    match kmalloc, sq.procs with
    | some fresh, some procs =>
      some
        { procs := some (resizeLoop procs sq.capacity sq.count 0 sq.head fresh)
          capacity := newCap
          head := 0
          tail := sq.count
          count := sq.count }
    | _, _ => none

/-- `runqueue_init`; `kmalloc` says which of the four allocations succeed. -/
def runqueueInit (kmalloc : Nat → Bool) : RunQueue P where
  queues i :=
    if kmalloc i then ⟨some fun _ => none, runqueueInitialCap, 0, 0, 0⟩ else ⟨none, 0, 0, 0, 0⟩
  activeBitmap := 0
  total := 0

/-- The bits of a `uint32_t` that are not `1u << prio`. -/
def clearMask (prio : Nat) : Nat :=
  (2 ^ 32 - 1) ^^^ 2 ^ prio

section operations

variable [DecidableEq P]
variable (s : RqState P)

def RqState.setQueue (prio : Nat) (q : SchedQueue P) : RqState P :=
  { s with rq := { s.rq with queues := update s.rq.queues prio q } }

/-- The queue `runqueue_enqueue` puts the process in: the one there is, or a larger copy when it is full. -/
def enqueueRoom (kmalloc : Option (Nat → Option P)) (q : SchedQueue P) : Option (SchedQueue P) :=
  if q.capacity ≤ q.count then
    let newCap := if runqueueMaxCap < q.capacity * 2 then runqueueMaxCap else q.capacity * 2
    if newCap ≤ q.count then none else schedqueueResize kmalloc q newCap
  else some q

def runqueueEnqueue (kmalloc : Option (Nat → Option P)) (s : RqState P) (p : P) (prio : Int) : RqState P × Bool :=
  if prio < 0 ∨ (schedPrioLevels : Int) ≤ prio then (s, false)
  else
    match (s.rq.queues prio.toNat).procs with
    | none => (s, false)
    | some _ =>
      match enqueueRoom kmalloc (s.rq.queues prio.toNat) with
      | none => (s, false)
      | some q =>
        ({ rq :=
            { queues := update s.rq.queues prio.toNat
                { q with
                  procs := q.procs.map fun a => update a q.tail (some p)
                  tail := (q.tail + 1) % q.capacity
                  count := inc32 q.count }
              activeBitmap := s.rq.activeBitmap ||| 2 ^ prio.toNat
              total := inc32 s.rq.total }
           proc := update s.proc p ⟨castSigned 8 prio.toNat, castSigned 16 q.tail⟩ }, true)

/-- Take the process at the head of priority `prio`: the same code in `runqueue_dequeue_best`, in the fairness round
of `scheduler_select_next` and in `sched_try_steal`. -/
def popHead (prio : Nat) : RqState P × Option P :=
  let q := s.rq.queues prio
  match q.procs.bind fun a => a q.head with
  | none => (s, none)
  | some p =>
    ({ rq :=
        { queues := update s.rq.queues prio
            { q with
              procs := q.procs.map fun a => update a q.head none
              head := (q.head + 1) % q.capacity
              count := dec32 q.count }
          activeBitmap := if dec32 q.count = 0 then s.rq.activeBitmap &&& clearMask prio else s.rq.activeBitmap
          total := dec32 s.rq.total }
       proc := update s.proc p {} }, some p)

/-- The end of `runqueue_dequeue_best`: halve a queue of more than the initial size that is less than a quarter
full. -/
def shrinkRoom (kmalloc : Option (Nat → Option P)) (q : SchedQueue P) : SchedQueue P :=
  if q.count < q.capacity / 4 ∧ runqueueInitialCap < q.capacity then
    let newCap := if q.capacity / 2 < runqueueInitialCap then runqueueInitialCap else q.capacity / 2
    (schedqueueResize kmalloc q newCap).getD q
  else q

/-- `31 - __builtin_clz(bitmap)` is `Nat.log2`. -/
def runqueueDequeueBest (kmalloc : Option (Nat → Option P)) (s : RqState P) : RqState P × Option P :=
  if s.rq.activeBitmap = 0 then (s, none)
  else
    let prio := s.rq.activeBitmap.log2
    if (s.rq.queues prio).procs.isNone ∨ (s.rq.queues prio).count = 0 then (s, none)
    else
      let r := popHead s prio
      (r.1.setQueue prio (shrinkRoom kmalloc (r.1.rq.queues prio)), r.2)

/-- The fairness round of `scheduler_select_next`: the best priority below `SCHED_PRIO_CONTEXT`, else the best. -/
def selectFair (kmalloc : Option (Nat → Option P)) (s : RqState P) : RqState P × Option P :=
  if s.rq.activeBitmap &&& clearMask schedPrioContext = 0 then runqueueDequeueBest kmalloc s
  else popHead s (s.rq.activeBitmap &&& clearMask schedPrioContext).log2

/-- The pop of `sched_try_steal`: from `SCHED_PRIO_NORMAL`, else from `SCHED_PRIO_IDLE`, of a queue with more than one
process. -/
def stealPop : RqState P × Option P :=
  if s.rq.total ≤ 1 then (s, none)
  else if (s.rq.queues schedPrioNormal).count ≠ 0 then popHead s schedPrioNormal
  else if (s.rq.queues schedPrioIdle).count ≠ 0 then popHead s schedPrioIdle
  else (s, none)

/-- The slot `runqueue_remove` and `runqueue_contains` look at. -/
def slotAt (p : P) : Option P :=
  let q := s.rq.queues (s.proc p).prio.toNat
  if (q.capacity : Int) ≤ (s.proc p).index then none else q.procs.bind fun a => a (s.proc p).index.toNat

/-- The last used slot, `(tail - 1 + capacity) % capacity`; the wrap of `tail - 1` at zero cancels. -/
def SchedQueue.lastSlot (q : SchedQueue P) : Nat :=
  (q.tail + q.capacity - 1) % q.capacity

/-- The body of `runqueue_remove` behind its checks: the process sits in slot `idx` of priority `prio`. The last
process of the queue takes its slot, unless it is the first or the last itself. -/
def removeSlot (p : P) (prio idx : Nat) : RqState P :=
  let q : SchedQueue P := { s.rq.queues prio with count := dec32 (s.rq.queues prio).count }
  let cleared := q.procs.map fun a => update a idx none
  let total := dec32 s.rq.total
  if q.count = 0 then
    { rq :=
        { queues := update s.rq.queues prio { q with procs := cleared, head := 0, tail := 0 }
          activeBitmap := s.rq.activeBitmap &&& clearMask prio
          total := total }
      proc := update s.proc p {} }
  else if idx = q.head then
    { rq :=
        { s.rq with
          queues := update s.rq.queues prio { q with procs := cleared, head := (q.head + 1) % q.capacity }
          total := total }
      proc := update s.proc p {} }
  else if idx = q.lastSlot then
    { rq :=
        { s.rq with
          queues := update s.rq.queues prio { q with procs := cleared, tail := q.lastSlot }
          total := total }
      proc := update s.proc p {} }
  else
    match q.procs.bind fun a => a q.lastSlot with
    | none => s
    | some z =>
      { rq :=
          { s.rq with
            queues := update s.rq.queues prio
              { q with
                procs := q.procs.map fun a => update (update a idx (some z)) q.lastSlot none
                tail := q.lastSlot }
            total := total }
        proc := update (update s.proc z { s.proc z with index := castSigned 16 idx }) p {} }

def runqueueRemove (p : P) : RqState P :=
  if (s.proc p).prio < 0 ∨ (s.proc p).index < 0 then s
  else if slotAt s p ≠ some p then s
  else removeSlot s p (s.proc p).prio.toNat (s.proc p).index.toNat

def runqueueContains (p : P) : Bool :=
  if (s.proc p).prio < 0 ∨ (schedPrioLevels : Int) ≤ (s.proc p).prio ∨ (s.proc p).index < 0 then false
  else decide (slotAt s p = some p)

end operations

end BoxOS.Scheduler
