import BoxOS.Touch.Publish

/-!
# Touches that interrupt

A claim in the mode `INTERRUPT` runs a handler of the process: `touch_interrupt_deliver` saves the registers of a
waiting process and lets it work on the handler, `TouchIrqReturn` gives the registers back. A touch that comes while a
handler is active goes to the front of a pending list, from which `TouchIrqReturn` takes one touch and delivers it
again. Both deliveries begin with the test that the process is waiting.

The state is that of one process, with a record of what was published and of the handlers that were entered. A publish
here is one that `TouchPublishId` has admitted and hands to the claims of the process.
-/

namespace BoxOS.Touch

open Scheduler (ProcState)

structure Registers where
  rip : Nat
  rsp : Nat
  rflags : Nat
  deriving DecidableEq

/-- A node of the pending list; `nth` is bookkeeping of the model: the number of its publish, `none` for one that was
already pending at the start. -/
structure TouchPending where
  tagId : Nat
  flags : Nat
  sourcePid : Nat
  payload : List UInt8
  plen : Nat
  nth : Option Nat

structure IrqProcess where
  pid : Nat
  state : ProcState
  destroying : Bool
  /-- `context` -/
  regs : Registers
  rdi : Nat
  irqActive : Bool
  irqSaved : Registers
  irqPending : List TouchPending
  /-- `cabin->subs_head` -/
  subs : List (TouchSub Nat)

/-- What the allocations of a call answer: that of a pending node, and `touch_emit_payload`, which is 0 when it fails.
-/
structure IrqMemory where
  kmalloc : Bool
  emitted : Nat

def IrqMemory.Succeeds (mem : IrqMemory) : Prop := mem.kmalloc = true ∧ mem.emitted ≠ 0

variable (proc : IrqProcess)

def findProcSub (tagId : Nat) : Option (TouchSub Nat) :=
  proc.subs.find? fun s => s.tagId = tagId

/-- `touch_interrupt_deliver`, and whether it entered the handler. -/
def touchInterruptDeliver (sub : TouchSub Nat) (tagId : Nat) (p : Payload) (sourcePid flags : Nat)
    (nth : Option Nat) (mem : IrqMemory) : IrqProcess × Bool :=
  if proc.state ≠ .waiting then (proc, false)
  else if proc.irqActive then
    if mem.kmalloc then
      let plen := min p.plen subPayloadMax
      let node := ⟨tagId, flags, sourcePid, p.copyOver subPayloadMax [], plen, nth⟩
      ({ proc with irqPending := node :: proc.irqPending }, false)
    else (proc, false)
  else if mem.emitted = 0 then (proc, false)
  else
    ({ proc with
        irqSaved := proc.regs
        regs := ⟨sub.handlerAddr, sub.stackTop, proc.regs.rflags⟩
        rdi := mem.emitted
        irqActive := true
        state := .working }, true)

/-- `TouchIrqReturn` up to the delivery of the pending touch that it takes. -/
def takePending : IrqProcess × Option TouchPending :=
  ({ proc with regs := proc.irqSaved, irqActive := false, irqPending := proc.irqPending.tail }, proc.irqPending.head?)

/-- The claim that a publish of the tag is handed to: the process lives and asked to be interrupted. -/
def IrqProcess.hearing (tagId : Nat) : Option (TouchSub Nat) :=
  if proc.destroying ∨ proc.state = .crashed ∨ proc.state = .done then none
  else (findProcSub proc tagId).filter fun s => s.proc = proc.pid ∧ s.mode = .interrupt

/-- The part of `deliver_one` that latches the payload of a claim. -/
def IrqProcess.latch (tagId : Nat) (p : Payload) (policy : TouchPolicy) : IrqProcess :=
  if policy = .latched then { proc with subs := proc.subs.map fun s => if s.tagId = tagId then s.keep p else s }
  else proc

structure IrqWorld where
  proc : IrqProcess
  /-- how many publishes there were -/
  published : Nat
  /-- the publishes made while a handler was active -/
  waited : List Nat
  /-- the publishes whose handler was entered -/
  entered : List Nat
  /-- what was saved when the first handler was entered -/
  first : Option Registers

/-- Before the first step; a handler that is active now is the first. -/
def irqStart : IrqWorld where
  proc := { proc with irqPending := proc.irqPending.map fun q => { q with nth := none } }
  published := 0
  waited := []
  entered := []
  first := if proc.irqActive then some proc.irqSaved else none

inductive IrqOp where
  | publish (tagId : Nat) (p : Payload) (sourcePid flags : Nat) (policy : TouchPolicy) (mem : IrqMemory)
  | irqReturn (mem : IrqMemory)

def IrqOp.mem : IrqOp → IrqMemory
  | publish _ _ _ _ _ mem => mem
  | irqReturn mem => mem

def IrqOp.isReturn : IrqOp → Bool
  | publish .. => false
  | irqReturn _ => true

namespace IrqWorld

variable (w : IrqWorld)

/-- A call of `touch_interrupt_deliver`, with the record of it. -/
def hand (sub : TouchSub Nat) (tagId : Nat) (p : Payload) (sourcePid flags : Nat) (nth : Option Nat)
    (mem : IrqMemory) : IrqWorld :=
  let r := touchInterruptDeliver w.proc sub tagId p sourcePid flags nth mem
  { w with
    proc := r.1
    entered := if r.2 then w.entered ++ nth.toList else w.entered
    first := if r.2 && w.first.isNone then some w.proc.regs else w.first }

/-- Records a publish to a claim of the process. -/
def count : IrqWorld :=
  { w with
    published := w.published + 1
    waited := if w.proc.irqActive then w.waited ++ [w.published] else w.waited }

/-- `deliver_one` for the claim `sub` of the process. -/
def deliverOne (sub : TouchSub Nat) (tagId : Nat) (p : Payload) (sourcePid flags : Nat)
    (policy : TouchPolicy) (nth : Nat) (mem : IrqMemory) : IrqWorld :=
  if policy = .latched ∧ sub.hasPending then w
  else hand { w with proc := w.proc.latch tagId p policy } sub tagId p sourcePid flags (some nth) mem

def step : IrqOp → IrqWorld
  | .publish tagId p sourcePid flags policy mem =>
    match w.proc.hearing tagId with
    | none => w
    | some sub => w.count.deliverOne sub tagId p sourcePid flags policy w.published mem
  | .irqReturn mem =>
    let r := takePending w.proc
    let w := { w with proc := r.1 }
    match r.2 with
    | none => w
    | some q =>
      match (findProcSub w.proc q.tagId).filter fun s => s.mode = .interrupt with
      | none => w
      | some sub =>
        let p := if 0 < q.plen then ⟨some q.payload, q.plen⟩ else ⟨none, q.plen⟩
        w.hand sub q.tagId p q.sourcePid q.flags q.nth mem

def run (ops : List IrqOp) : IrqWorld := ops.foldl step w

/-- A publish to a claim of the process while a handler is active. -/
def Waits : IrqOp → Prop
  | .publish tagId _ _ _ _ _ => (w.proc.hearing tagId).isSome ∧ w.proc.irqActive = true
  | .irqReturn _ => False

/-- The process waits, and the touch is not one that its claim holds latched already. -/
def Queues : IrqOp → Prop
  | .publish tagId _ _ _ policy _ =>
    w.proc.state = .waiting ∧ ∀ sub, w.proc.hearing tagId = some sub → ¬ (policy = .latched ∧ sub.hasPending = true)
  | .irqReturn _ => True

/-- After enough further returns the publishes made while a handler was active have entered the handler, in their order
and once each, and the registers are those saved when the first handler was entered. -/
def Delivers (ops : List IrqOp) : Prop :=
  ∃ n, ∀ mems : List IrqMemory, n ≤ mems.length → (∀ mem ∈ mems, mem.Succeeds) →
    let t := w.run (ops ++ mems.map .irqReturn)
    t.entered.filter (· ∈ t.waited) = t.waited ∧ ∀ r, t.first = some r → t.proc.regs = r

/-- At most one publish is made while a handler is active, and then the process is waiting. -/
def OneWaits (ops : List IrqOp) : Prop :=
  ∀ pre op post, ops = pre ++ op :: post → (w.run pre).Waits op →
    (w.run pre).Queues op ∧ ∀ pre' op' post', ops = pre' ++ op' :: post' → (w.run pre').Waits op' → pre' = pre

end IrqWorld

end BoxOS.Touch
