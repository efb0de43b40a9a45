import BoxOS.Ipc.Stash
import BoxOS.Ipc.ResultRing

/-!
# Routing of results

The results in the reply ring of a strand are for different readers: `route_of` tells them apart. A reader takes a
result of its route from the stash of that route, or looks for one in the ring (`ring_take`) and puts what is for others
into their stashes on the way. `result_pop_any` asks for IPC and for kernel replies, one after the other, and then looks
for both in the ring.

The ring is the list of the results that are published from its head on (`result_ring_exact`: they are popped once, in
the order of their positions), at most as many as it has slots. Results arrive at any time; a reader's steps are the
turns of the loop in `ring_take`, each with one look at the head of the ring.
-/

namespace BoxOS.Ipc

/-- `FOR_CALLER`, `FOR_IPC`, `FOR_FERRY`, `FOR_NOBODY` -/
inductive Route where
  | caller
  | ipc
  | ferry
  | nobody
  deriving DecidableEq, Repr

def errorCode (r : Result) : Nat := byteOf r 0 + byteOf r 1 * 2 ^ 8 + byteOf r 2 * 2 ^ 16 + byteOf r 3 * 2 ^ 24

def senderPid (r : Result) : Nat := byteOf r 16 + byteOf r 17 * 2 ^ 8 + byteOf r 18 * 2 ^ 16 + byteOf r 19 * 2 ^ 24

/-- `KCTX_KIND (context)` -/
def contextKind (r : Result) : Nat := byteOf r 20

def kctxTouch : Nat := 9

def kctxStorage : Nat := 10

def routeOf (e : Result) : Route :=
  if senderPid e ≠ 0 then .ipc
  else if contextKind e = kctxStorage then .ferry
  else if contextKind e = kctxTouch then .nobody
  else if errorCode e = 9 then .nobody
  else .caller

inductive PopCall where
  | nonIpc
  | ipc
  | ferry
  | any
  deriving DecidableEq, Repr

/-- The routes a call asks for. -/
def PopCall.asks : PopCall → List Route
  | nonIpc => [.caller]
  | ipc => [.ipc]
  | ferry => [.ferry]
  | any => [.ipc, .caller]

/-- Where the reader is. -/
inductive ReaderPc where
  | idle
  /-- the stash of the route is looked into next -/
  | take (c : PopCall) (r : Route)
  /-- in `ring_take` -/
  | scan (c : PopCall) (want : List Route)
  deriving DecidableEq

/-- What the allocations of a step answer: `malloc` of a `Stash`, and of a chunk. -/
structure StashMemory where
  stash : Bool
  chunk : Option (Nat → Result)

structure Reader where
  /-- the results in the ring, from its head on -/
  ring : List Result
  /-- the stashes of the routes, where they exist -/
  stash : Route → Option (Stash Result)
  pc : ReaderPc
  /-- what has arrived -/
  arrived : List Result
  /-- what the calls have returned -/
  answers : List (PopCall × Result)

/-- A reader with its ring of `cap` slots; the main strand has its stashes from the start. -/
structure ReaderConfig where
  cap : Nat
  main : Bool

def stashOf (k : ReaderConfig) (create malloc : Bool) : Option (Stash Result) → Option (Stash Result)
  | some s => some s
  | none => if k.main || create && malloc then some (stashInit k.cap) else none

namespace Reader

def setStash (t : Reader) (r : Route) (s : Option (Stash Result)) : Reader :=
  { t with stash := Function.update t.stash r s }

def answer (t : Reader) (c : PopCall) (e : Result) : Reader :=
  { t with pc := .idle, answers := t.answers ++ [(c, e)] }

/-- Where a call goes on when `ring_take` has not found what it wants. -/
def afterScan (c : PopCall) (want : List Route) : ReaderPc :=
  if c = .any then
    if want = [.ipc] then .take .any .caller
    else if want = [.caller] then .scan .any [.ipc, .caller]
    else .idle
  else .idle

/-- `stash_take` of the stash of a route. -/
def takeStep (k : ReaderConfig) (t : Reader) (c : PopCall) (r : Route) (mem : StashMemory) : Reader :=
  match stashOf k false mem.stash (t.stash r) with
  | none => { t with pc := .scan c [r] }
  | some s =>
    match stashTake s with
    | (s, some e) => (t.setStash r (some s)).answer c e
    | (s, none) => { t.setStash r (some s) with pc := .scan c [r] }

/-- One turn of the loop in `ring_take`. -/
def scanStep (k : ReaderConfig) (t : Reader) (c : PopCall) (want : List Route) (mem : StashMemory) : Reader :=
  match t.ring with
  | [] => { t with pc := afterScan c want }
  | e :: rest =>
    if routeOf e ∈ want then { t with ring := rest }.answer c e
    else if routeOf e = .nobody then { t with ring := rest }
    else
      match stashOf k true mem.stash (t.stash (routeOf e)) with
      | none => { t with pc := afterScan c want }
      | some s =>
        match stashReserve s mem.chunk with
        | (s, false) => { t.setStash (routeOf e) (some s) with pc := afterScan c want }
        | (s, true) => { t.setStash (routeOf e) (some (stashPut s e)) with ring := rest }

end Reader

inductive ReaderEvent where
  | arrive (e : Result)
  | call (c : PopCall)
  | step (mem : StashMemory)

/-- Where a call begins. -/
def PopCall.begins : PopCall → ReaderPc
  | nonIpc => .take .nonIpc .caller
  | ipc => .take .ipc .ipc
  | ferry => .take .ferry .ferry
  | any => .take .any .ipc

namespace Reader

variable (k : ReaderConfig)
variable (t : Reader)

def next : ReaderEvent → Option Reader
  | .arrive e =>
    if t.ring.length < k.cap then some { t with ring := t.ring ++ [e], arrived := t.arrived ++ [e] } else none
  | .call c => if t.pc = .idle then some { t with pc := c.begins } else none
  | .step mem =>
    match t.pc with
    | .idle => none
    | .take c r => some (t.takeStep k c r mem)
    | .scan c want => some (t.scanStep k c want mem)

def Step (e : ReaderEvent) (u : Reader) : Prop := t.next k e = some u

/-- Before anything has arrived; the stashes are not there or just set up. -/
structure Starts (k : ReaderConfig) (t : Reader) : Prop where
  ring : t.ring = []
  stash : ∀ r, t.stash r = none ∨ t.stash r = some (stashInit k.cap)
  pc : t.pc = .idle
  arrived : t.arrived = []
  answers : t.answers = []

/-- The results kept in the stash of a route, the oldest first. -/
def kept (r : Route) : List Result :=
  match t.stash r with
  | none => []
  | some s => s.chunks.flatMap (StashChunk.contents k.cap)

/-- The results of a route that were returned, in the order of the calls. -/
def returned (r : Route) : List Result :=
  (t.answers.map Prod.snd).filter fun e => routeOf e = r

/-- The allocation for the head of the ring fails in this step. -/
def Refuses (mem : StashMemory) : Prop :=
  ∃ c want e rest, t.pc = .scan c want ∧ t.ring = e :: rest ∧ routeOf e ∉ want ∧ routeOf e ≠ .nobody ∧
    ∀ s, stashOf k true mem.stash (t.stash (routeOf e)) = some s → (stashReserve s mem.chunk).2 = false

/-- The results are where they belong. -/
structure Routed (k : ReaderConfig) (t : Reader) : Prop where
  /-- what arrived on a route was returned, in this order, or is in its stash, or in the ring -/
  placed : ∀ r, r ≠ .nobody →
    t.arrived.filter (fun e => routeOf e = r) = t.returned r ++ t.kept k r ++ t.ring.filter fun e => routeOf e = r
  /-- a call returns what it asks for -/
  asked : ∀ a ∈ t.answers, routeOf a.2 ∈ a.1.asks
  /-- a failed allocation leaves the ring and what the stashes keep -/
  refused : ∀ mem u, t.Refuses k mem → t.Step k (.step mem) u → u.ring = t.ring ∧ ∀ r, u.kept k r = t.kept k r

/-- What a turn of `ring_take` looks at: the routes that are wanted, and the head of the ring. -/
def looks : Option (List Route × Result) :=
  match t.pc with
  | .scan _ want => t.ring.head?.map fun e => (want, e)
  | _ => none

/-- The step takes no IPC result from the ring past one in the stash, and no stash comes to 2^32 results. -/
def InTurn : ReaderEvent → Prop
  | .step _ => ∀ x ∈ t.looks,
      (routeOf x.2 = .ipc → .ipc ∈ x.1 → t.kept k .ipc = []) ∧
      (routeOf x.2 ∉ x.1 → (t.kept k (routeOf x.2)).length + 1 < 2 ^ 32)
  | _ => True

instance : (e : ReaderEvent) → Decidable (t.InTurn k e)
  | .step _ => inferInstanceAs (Decidable (∀ x ∈ t.looks, _))
  | .arrive _ | .call _ => inferInstanceAs (Decidable True)

end Reader

end BoxOS.Ipc
