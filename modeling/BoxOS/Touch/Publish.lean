import BoxOS.Touch.IrqRing
import BoxOS.Scheduler.Schedule

/-!
# Publishing a touch

`TouchPublishId` serves one tag: it checks the capability of the tag's bucket, sets the level, calls the kernel's
watches and hands the touch to the subscriptions. `TouchPublishPair` does so for a full and a bare tag, `TouchQueueTick`
for the delayed publishes that are due. A publish that the capability does not admit is refused in two places: a
`KERNEL_ONLY` tag before anything is done, an `OWNERS` tag only when the subscriptions are served.

A lock-protected section is one step. What a watch, a subscription's own delivery and a wake do are functions on the
whole state, and the calls of them are recorded.
-/

namespace BoxOS.Touch

open Scheduler (ProcState)

/-- `BOXOS_TOUCH_PAYLOAD_MAX` -/
def touchPayloadMax : Nat := 96

/-- The size of `pending_payload` of a subscription. -/
def subPayloadMax : Nat := 64

/-- `CONFIG_TOUCH_REACT_DEPTH_MAX` -/
def reactDepthMax : Nat := 4

/-- `CONFIG_TOUCH_REACT_STACK_MARGIN` -/
def reactStackMargin : Nat := 8192

inductive TouchMode where
  | rest
  | react
  | interrupt
  deriving DecidableEq, Repr

inductive TouchPolicy where
  | edge
  | level
  | latched
  deriving DecidableEq, Repr

inductive TouchCapability where
  | open_
  | owners
  | kernelOnly
  deriving DecidableEq, Repr

/-- `kpayload` (`none` is `NULL`) and `plen`. -/
structure Payload where
  kpayload : Option (List UInt8)
  plen : Nat
  deriving DecidableEq

/-- The state a publish gives a level. -/
def Payload.newState (p : Payload) : UInt8 :=
  match p.kpayload with
  | some bytes => if 0 < p.plen then bytes.headD 0 else 0
  | none => 0

/-- What a copy of at most `max` bytes leaves in a buffer that held `old`. -/
def Payload.copyOver (p : Payload) (max : Nat) (old : List UInt8) : List UInt8 :=
  match p.kpayload with
  | some bytes => bytes.take (min p.plen max)
  | none => old

structure Process where
  pid : Nat
  state : ProcState
  destroying : Bool
  /-- `cabin->tag_bits` and `cabin->tag_overflow_ids` -/
  tagBits : Nat
  tagOverflowIds : List Nat

def processHasTagId (proc : Process) (tagId : Nat) : Bool :=
  if tagId < 64 then proc.tagBits.testBit tagId else proc.tagOverflowIds.contains tagId

/-- A subscription of a process of type `π`. -/
structure TouchSub (π : Type) where
  proc : π
  tagId : Nat
  mode : TouchMode
  hasPending : Bool
  pendingPlen : Nat
  pendingPayload : List UInt8
  /-- `u.irq` -/
  handlerAddr : Nat
  stackTop : Nat

/-- A latched touch stays with its subscription until it is acknowledged. -/
def TouchSub.keep {π : Type} (sub : TouchSub π) (p : Payload) : TouchSub π :=
  let plen := min p.plen subPayloadMax
  { sub with
    hasPending := true
    pendingPlen := plen
    pendingPayload := if 0 < plen then p.copyOver subPayloadMax sub.pendingPayload else sub.pendingPayload }

/-- The bucket of a tag, with subscriptions of type `σ` and watches of type `ω`. -/
structure TouchBucket (σ ω : Type) where
  policy : TouchPolicy
  capability : TouchCapability
  levelState : UInt8
  latchedPayload : Option (List UInt8)
  latchedPlen : Nat
  subCount : Nat
  head : List σ
  watchCount : Nat
  watchHead : List ω

/-- A node of the delayed queue. -/
inductive QueueNode where
  | publish (fireTick tagId : Nat) (payload : Payload) (sourcePid flags : Nat)
  | wake (fireTick targetPid : Nat) (owesResult : Bool) (parkSeq : Nat)
  deriving DecidableEq

def QueueNode.fireTick : QueueNode → Nat
  | publish t .. => t
  | wake t .. => t

structure TouchWorld (π σ ω : Type) where
  /-- `touch_bucket_lookup` -/
  bucket : Nat → Option (TouchBucket σ ω)
  sub : σ → TouchSub π
  process : π → Process
  /-- `process_find_ref` -/
  find : Nat → Option π
  /-- `g_react_depth` of the core that publishes -/
  reactDepth : Nat
  queue : List QueueNode

/-- Who was called: a watch, or the delivery of a subscription. -/
inductive Call (σ ω : Type) where
  | watch (w : ω)
  | sub (s : σ)
  deriving DecidableEq

/-- What a publish leads to outside this module, and the answers it gets. -/
structure PublishEnv (π σ ω : Type) where
  watchFn : ω → Nat → Payload → Nat → TouchWorld π σ ω → TouchWorld π σ ω
  /-- `TouchRestDeliver`, `touch_react_deliver` and `touch_interrupt_deliver` -/
  deliver : TouchMode → σ → Nat → Payload → Nat → Nat → TouchWorld π σ ω → TouchWorld π σ ω
  /-- `touch_queue_fire_wake` -/
  fireWake : Nat → Bool → Nat → TouchWorld π σ ω → TouchWorld π σ ω
  /-- the stack pointer, and the top and the floor of the kernel stack, in `touch_depth_enter` -/
  rsp : Nat
  stackTop : Nat
  stackFloor : Nat
  /-- `kmalloc` for a snapshot of the given size -/
  snapRoom : Nat → Bool
  /-- `kmalloc` for a latched payload -/
  latchRoom : Bool

section

variable {π σ ω : Type} [DecidableEq σ]

/-- The loop that takes a snapshot of a list: its buffer grows four times as large when it is full. -/
def snapLoop {α : Type} (room : Nat → Bool) : Nat → List α → List α → List α
  | _, snap, [] => snap
  | cap, snap, x :: xs =>
    if cap ≤ snap.length then
      if room (cap * 4) then snapLoop room (cap * 4) (snap ++ [x]) xs else snap
    else snapLoop room cap (snap ++ [x]) xs

variable (env : PublishEnv π σ ω)

/-- Whether `touch_depth_enter` lets a call in, with the depth already counted. -/
def touchDepthEnter (depth : Nat) : Bool :=
  if env.stackTop ≠ 0 ∧ env.stackFloor ≠ 0 ∧ env.stackFloor < env.rsp ∧ env.rsp ≤ env.stackTop then
    decide (reactStackMargin ≤ env.rsp - env.stackFloor)
  else decide (depth ≤ reactDepthMax)

/-- What a publish did: the state after it, whom it called, and the number of subscriptions it handed the touch to. -/
structure Outcome (π σ ω : Type) where
  world : TouchWorld π σ ω
  calls : List (Call σ ω)
  handed : Nat

namespace TouchWorld

variable (w : TouchWorld π σ ω)

def setBucket (tagId : Nat) (b : TouchBucket σ ω) : TouchWorld π σ ω :=
  { w with bucket := Function.update w.bucket tagId (some b) }

/-- The process wears the tag, as `process_find_ref` and `process_has_tag_id` find it. -/
def Wears (pid tagId : Nat) : Prop :=
  ∃ p, w.find pid = some p ∧ processHasTagId (w.process p) tagId = true

/-- The subscription is one that the snapshot takes. -/
def listens (s : σ) : Bool :=
  let proc := w.process (w.sub s).proc
  !proc.destroying && proc.state ≠ .crashed && proc.state ≠ .done

end TouchWorld

/-- The calls of the watches in a snapshot. -/
def callWatches (tagId : Nat) (p : Payload) (sourcePid : Nat) (snap : List ω)
    (w : TouchWorld π σ ω) : TouchWorld π σ ω :=
  snap.foldl (fun w x => env.watchFn x tagId p sourcePid w) w

def touchWatchDeliver (w : TouchWorld π σ ω) (b : TouchBucket σ ω) (tagId : Nat) (p : Payload)
    (sourcePid : Nat) : TouchWorld π σ ω × List (Call σ ω) :=
  let snap := snapLoop env.snapRoom 8 [] b.watchHead
  if touchDepthEnter env (w.reactDepth + 1) then
    let w := callWatches env tagId p sourcePid snap { w with reactDepth := w.reactDepth + 1 }
    ({ w with reactDepth := w.reactDepth - 1 }, snap.map .watch)
  else (w, [])

/-- The part of `deliver_one` that latches a payload, for the subscription and for its bucket. -/
def latch (w : TouchWorld π σ ω) (s : σ) (p : Payload) : TouchWorld π σ ω :=
  let sub := w.sub s
  let w := { w with sub := Function.update w.sub s (sub.keep p) }
  match w.bucket sub.tagId with
  | none => w
  | some b =>
    match if b.latchedPayload.isNone && env.latchRoom then some [] else b.latchedPayload with
    | none => w
    | some old =>
      let copy := if 0 < min p.plen touchPayloadMax then p.copyOver touchPayloadMax old else old
      w.setBucket sub.tagId { b with latchedPayload := some copy, latchedPlen := min p.plen touchPayloadMax }

/-- `deliver_one`: the new state, whom it called, and its answer. -/
def deliverOne (w : TouchWorld π σ ω) (s : σ) (mode : TouchMode) (tagId : Nat) (p : Payload)
    (sourcePid flags : Nat) (policy : TouchPolicy) : TouchWorld π σ ω × List (Call σ ω) × Bool :=
  if (w.process (w.sub s).proc).destroying then (w, [], false)
  else if policy = .latched ∧ (w.sub s).hasPending then (w, [], true)
  else
    let w := if policy = .latched then latch env w s p else w
    (env.deliver mode s tagId p sourcePid flags w, [.sub s], true)

/-- The loop that hands the touch to a snapshot of the subscriptions. -/
def deliverLoop (env : PublishEnv π σ ω) (tagId : Nat) (p : Payload) (sourcePid flags : Nat) (policy : TouchPolicy) :
    List (σ × TouchMode) → Outcome π σ ω → Outcome π σ ω
  | [], o => o
  | (s, mode) :: rest, o =>
    let r := deliverOne env o.world s mode tagId p sourcePid flags policy
    deliverLoop env tagId p sourcePid flags policy rest
      ⟨r.1, o.calls ++ r.2.1, o.handed + if r.2.2 then 1 else 0⟩

variable (w : TouchWorld π σ ω)

def ownersOk (cap : TouchCapability) (tagId sourcePid : Nat) : Bool :=
  if cap = .owners ∧ sourcePid ≠ 0 then
    match w.find sourcePid with
    | some sender => processHasTagId (w.process sender) tagId
    | none => false
  else true

/-- The state of a publish that has set the level of its tag. -/
def setLevel (b : TouchBucket σ ω) (tagId : Nat) (p : Payload) : TouchWorld π σ ω :=
  if b.policy = .level then w.setBucket tagId { b with levelState := p.newState } else w

/-- The part of `TouchPublishId` behind the watches; `r` is the state after them and whom they were. -/
def serveSubs (b : TouchBucket σ ω) (tagId : Nat) (p : Payload) (sourcePid flags : Nat)
    (r : TouchWorld π σ ω × List (Call σ ω)) : Outcome π σ ω :=
  if b.subCount = 0 then ⟨r.1, r.2, 0⟩
  else
    -- the list of subscriptions is read after the watches were called
    let subs := ((r.1.bucket tagId).map TouchBucket.head).getD []
    let snap := (snapLoop env.snapRoom 64 [] (subs.filter r.1.listens)).map fun s => (s, (r.1.sub s).mode)
    if ownersOk r.1 b.capability tagId sourcePid then
      deliverLoop env tagId p sourcePid flags b.policy snap ⟨r.1, r.2, 0⟩
    else ⟨r.1, r.2, 0⟩

def touchPublishId (w : TouchWorld π σ ω) (tagId : Nat) (p : Payload) (sourcePid flags : Nat) :
    Outcome π σ ω :=
  match w.bucket tagId with
  | none => ⟨w, [], 0⟩
  | some b =>
    if b.capability = .kernelOnly ∧ sourcePid ≠ 0 then ⟨w, [], 0⟩
    else
      let w := setLevel w b tagId p
      if b.policy = .level ∧ p.newState = 0 then ⟨w, [], 0⟩
      else if b.subCount = 0 ∧ b.watchCount = 0 then ⟨w, [], 0⟩
      else
        serveSubs env b tagId p sourcePid flags
          (if b.watchCount ≠ 0 then touchWatchDeliver env w b tagId p sourcePid else (w, []))

def touchPublishPair (w : TouchWorld π σ ω) (fullId bareId : Nat) (p : Payload)
    (sourcePid flags : Nat) : Outcome π σ ω :=
  let o := if fullId ≠ tagInvalid then touchPublishId env w fullId p sourcePid flags else ⟨w, [], 0⟩
  if bareId ≠ tagInvalid ∧ bareId ≠ fullId then
    let o' := touchPublishId env o.world bareId p sourcePid flags
    ⟨o'.world, o.calls ++ o'.calls, o.handed + o'.handed⟩
  else o

/-- The second loop of `TouchQueueTick`; it frees each node it has served. -/
def fireLoop (env : PublishEnv π σ ω) : List QueueNode → Outcome π σ ω → Outcome π σ ω
  | [], o => o
  | .wake _ target owes seq :: rest, o => fireLoop env rest ⟨env.fireWake target owes seq o.world, o.calls, o.handed⟩
  | .publish _ tagId p sourcePid flags :: rest, o =>
    let o' := touchPublishId env o.world tagId p sourcePid flags
    fireLoop env rest ⟨o'.world, o.calls ++ o'.calls, o.handed + o'.handed⟩

/-- The first loop of `TouchQueueTick`: what is due goes to the front of the list to fire. -/
def dueLoop (now : Nat) : List QueueNode → List QueueNode → List QueueNode
  | [], fire => fire
  | n :: rest, fire => dueLoop now rest (if n.fireTick ≤ now then n :: fire else fire)

def touchQueueTick (w : TouchWorld π σ ω) (now : Nat) : Outcome π σ ω :=
  fireLoop env (dueLoop now w.queue []) ⟨{ w with queue := w.queue.filter fun n => now < n.fireTick }, [], 0⟩

/-- `TouchPolicyGet`; `registered` are the buckets with `TOUCH_BUCKET_FLAG_REGISTERED`. -/
def touchPolicyGet (registered : Nat → Bool) (tagId : Nat) : TouchPolicy × TouchCapability :=
  match w.bucket tagId with
  | some b => if registered tagId then (b.policy, b.capability) else (.edge, .open_)
  | none => (.edge, .open_)

inductive SendResult where
  | invalidArgument
  | accessDenied
  | ok
  deriving DecidableEq

/-- `SysTouchSend` of a process, from the tags it was given on; `fireAt` is the tick of a delayed send, `none` sends at
once, and `room` answers the allocation of a node. -/
def sysTouchSend (w : TouchWorld π σ ω) (registered : Nat → Bool) (proc : Process)
    (fullId bareId : Nat) (p : Payload) (fireAt : Option Nat) (room : Nat → Bool) : SendResult × Outcome π σ ω :=
  if fullId = tagInvalid ∧ bareId = tagInvalid then (.invalidArgument, ⟨w, [], 0⟩)
  else
    let checkId := if fullId ≠ tagInvalid then fullId else bareId
    let cap := (touchPolicyGet w registered checkId).2
    if cap = .kernelOnly then (.accessDenied, ⟨w, [], 0⟩)
    else if cap = .owners ∧ processHasTagId proc checkId = false then (.accessDenied, ⟨w, [], 0⟩)
    else
      match fireAt with
      | none => (.ok, touchPublishPair env w fullId bareId p proc.pid 2)
      | some tick =>
        let full := if fullId ≠ tagInvalid ∧ room 0 then [QueueNode.publish tick fullId p proc.pid 2] else []
        let bare := if bareId ≠ tagInvalid ∧ bareId ≠ fullId ∧ room 1 then [QueueNode.publish tick bareId p proc.pid 2]
          else []
        (.ok, ⟨{ w with queue := bare ++ full ++ w.queue }, [], 0⟩)

end

end BoxOS.Touch
