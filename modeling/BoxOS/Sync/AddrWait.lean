import BoxOS.Lib.Runs
import Mathlib.Tactic

/-!
# Parking on an address

A strand parks on a word of its address space (`SysAddrPark`): it looks at the word, links its entry into the bucket of
the address, goes to rest and looks again. `SysAddrWake` claims entries of the bucket and then answers their strands;
`SyncTimeoutDeliver` claims the entry of one strand once its time is over. Whoever claims an entry gives the answer.

A section under a bucket's lock, a load and a store are one step each. The guide takes every pocket of a strand, so a
strand may park again while it is linked: its entry is taken out, and the old park is forgotten (`forgotten_park`). An
answer that the reply ring refuses is lost as well. `SyncTimeoutDeliver` may run at any time. The strands are not being
destroyed.
-/

open Function (update)

namespace BoxOS.Sync

/-- The answers to a park. -/
inductive Code where
  | ok
  | timeout
  | valueMismatch
  | invalidAddress
  | noMemory
  deriving DecidableEq

/-- `AddrWaitEntry`, but for its links. -/
structure Entry where
  space : Nat
  va : Nat
  expected : Nat
  cookie : Nat
  timed : Bool
  fireAt : Nat
  done : Bool
  linked : Bool

/-- The parameters of `SysAddrPark`. -/
structure ParkCall where
  va : Nat
  expected : Nat
  timeoutMs : Nat
  cookie : Nat
  deriving DecidableEq

/-- Where a strand is in `SysAddrPark`. -/
inductive ParkPc where
  | idle
  | load (c : ParkCall)
  | unlink (c : ParkCall)
  /-- finds the bucket and the deadline -/
  | prepare (c : ParkCall)
  | link (c : ParkCall) (fireAt : Nat)
  /-- `PROC_WAITING` -/
  | rest (c : ParkCall)
  | recheck (c : ParkCall)
  | loadDone (c : ParkCall) (changed : Bool)
  | claim (c : ParkCall)
  /-- `PROC_WORKING`; the answer is given, or somebody else gives it -/
  | resume
  /-- `PROC_WORKING`; returns `ERR_ADDR_VALUE_MISMATCH` -/
  | resumeChanged (c : ParkCall)
  /-- the operation has returned, and the guide answers -/
  | reply (cookie : Nat) (code : Code)
  deriving DecidableEq

/-- Where a thread is that wakes strands or delivers a timeout. -/
inductive ThreadPc (σ : Type) where
  | idle
  | wake (space va count : Nat)
  | answer (claimed : List σ)
  /-- `PROC_WORKING` for `p`: in `KResultPush`, and `again` after it -/
  | rouse (p : σ) (again : Bool) (claimed : List σ)
  | timeout (p : σ)
  | timeoutLook (p : σ) (now : Nat)
  | timeoutDue (p : σ) (now bucket : Nat)
  | timeoutAnswer (p : σ) (cookie : Nat)

structure WaitState (σ α : Type) where
  mem : Nat → Nat
  /-- `g_global_tick` -/
  tick : Nat
  bucket : Nat → List σ
  entry : σ → Entry
  /-- the strand's state is `PROC_WAITING` -/
  waiting : σ → Bool
  pc : σ → ParkPc
  thread : α → ThreadPc σ
  /-- the cookies of the strand's parks -/
  parks : σ → List Nat
  /-- how its parks were completed -/
  completions : σ → List Code
  /-- the answers it got -/
  answers : σ → List (Nat × Code)

/-- The bucket of an address: `AddrWaitGetBucket`. -/
def bucketIndex (space va : Nat) : Nat :=
  ((va / 2 ^ 3) ^^^ (space / 2 ^ 4 * 0x9E3779B1 % 2 ^ 64)) % 2 ^ 16

/-- `SCHEDULER_DEFAULT_TICK_HZ` -/
def tickHz : Nat := 250

def ParkCall.delay (c : ParkCall) : Nat :=
  let delay := c.timeoutMs * tickHz / 1000
  if delay = 0 then 1 else delay

section

variable {σ α : Type} [DecidableEq σ] [DecidableEq α]

def waitInit (mem : Nat → Nat) : WaitState σ α :=
  ⟨mem, 0, fun _ => [], fun _ => ⟨0, 0, 0, 0, false, 0, false, false⟩, fun _ => false, fun _ => .idle, fun _ => .idle,
    fun _ => [], fun _ => [], fun _ => []⟩

namespace WaitState

variable (s : WaitState σ α)

def goto (p : σ) (pc : ParkPc) : WaitState σ α :=
  { s with pc := update s.pc p pc }

def become (a : α) (pc : ThreadPc σ) : WaitState σ α :=
  { s with thread := update s.thread a pc }

/-- A park of `p` is completed. -/
def complete (p : σ) (code : Code) : WaitState σ α :=
  { s with completions := update s.completions p (s.completions p ++ [code]) }

/-- `KResultPush`: the answer is in the reply ring of `p`. -/
def answerTo (p : σ) (cookie : Nat) (code : Code) : WaitState σ α :=
  { s with answers := update s.answers p (s.answers p ++ [(cookie, code)]) }

def setWaiting (p : σ) (waiting : Bool) : WaitState σ α :=
  { s with waiting := update s.waiting p waiting }

/-- `AddrWaitUnlink` -/
def unlink (b : Nat) (p : σ) : WaitState σ α :=
  { s with
    bucket := update s.bucket b ((s.bucket b).erase p)
    entry := update s.entry p { s.entry p with linked := false } }

/-- What `AddrWaitClaimLocked` does to an entry that it claims. -/
def claim (b : Nat) (p : σ) (code : Code) : WaitState σ α :=
  ({ s with entry := update s.entry p { s.entry p with done := true } }.unlink b p).complete p code

/-- The entry is linked on the address. -/
def On (space va : Nat) (p : σ) : Prop :=
  (s.entry p).linked = true ∧ (s.entry p).space = space ∧ (s.entry p).va = va

instance (s : WaitState σ α) (space va : Nat) (p : σ) : Decidable (s.On space va p) :=
  inferInstanceAs (Decidable (_ ∧ _))

end WaitState

/-- The loop of `SysAddrWake` over a bucket: what it claims, in order. -/
def wakeLoop (claims : σ → Bool) (count : Nat) : List σ → Nat → List σ
  | [], _ => []
  | p :: rest, n =>
    if count = 0 ∨ n < count then
      if claims p then p :: wakeLoop claims count rest (n + 1) else wakeLoop claims count rest n
    else []

namespace WaitState

/-- The section of `SysAddrWake` under the bucket's lock. -/
def wake (s : WaitState σ α) (space va count : Nat) : List σ × WaitState σ α :=
  let b := bucketIndex space va
  let claimed := wakeLoop (fun p => decide ((s.entry p).space = space ∧ (s.entry p).va = va ∧
    (s.entry p).linked = true ∧ (s.entry p).done = false)) count (s.bucket b) 0
  (claimed, claimed.foldl (fun s p => s.claim b p .ok) s)

/-- The next access of `SysAddrPark` by `p`; `found`: the bucket is there or can be made, a reply is pending in the
ring, or the ring takes the answer. -/
def parkStep (translate : Nat → Nat → Nat) (space : σ → Nat) (s : WaitState σ α) (p : σ) (found : Bool) :
    WaitState σ α :=
  match s.pc p with
  | .idle => s
  | .load c =>
    if translate (space p) c.va = 0 then (s.complete p .invalidAddress).goto p (.reply c.cookie .invalidAddress)
    else if s.mem (translate (space p) c.va) ≠ c.expected then
      (s.complete p .valueMismatch).goto p (.reply c.cookie .valueMismatch)
    else s.goto p (.unlink c)
  | .unlink c =>
    if (s.entry p).linked then
      (s.unlink (bucketIndex (s.entry p).space (s.entry p).va) p).goto p (.prepare c)
    else s.goto p (.prepare c)
  | .prepare c =>
    if found then s.goto p (.link c (if 0 < c.timeoutMs then s.tick + c.delay else 0))
    else (s.complete p .noMemory).goto p (.reply c.cookie .noMemory)
  | .link c fireAt =>
    { s with
      pc := update s.pc p (.rest c)
      entry := update s.entry p
        ⟨space p, c.va, c.expected, c.cookie, decide (0 < c.timeoutMs), fireAt, false, true⟩
      bucket := update s.bucket (bucketIndex (space p) c.va) (p :: s.bucket (bucketIndex (space p) c.va)) }
  | .rest c => (s.setWaiting p !found).goto p (.recheck c)
  | .recheck c => s.goto p (.loadDone c (decide (s.mem (translate (space p) c.va) ≠ c.expected)))
  | .loadDone c changed =>
    if (s.entry p).done then s.goto p .resume
    else if changed then s.goto p (.claim c)
    else s.goto p .idle
  | .claim c =>
    if (s.entry p).linked = true ∧ (s.entry p).done = false then
      (s.claim (bucketIndex (s.entry p).space (s.entry p).va) p .valueMismatch).goto p (.resumeChanged c)
    else s.goto p .resume
  | .resume => (s.setWaiting p false).goto p .idle
  | .resumeChanged c => (s.setWaiting p false).goto p (.reply c.cookie .valueMismatch)
  | .reply cookie code => if found then (s.answerTo p cookie code).goto p .resume else s.goto p .idle

/-- The next access of a thread in `SysAddrWake` or `SyncTimeoutDeliver`; `room`: the reply ring takes the answer. -/
def threadStep (s : WaitState σ α) (a : α) (room : Bool) : WaitState σ α :=
  match s.thread a with
  | .idle => s
  | .wake space va count => (s.wake space va count).2.become a (.answer (s.wake space va count).1)
  | .answer [] => s.become a .idle
  | .answer (p :: rest) =>
    if room then (s.answerTo p (s.entry p).cookie .ok).become a (.rouse p false rest) else
      s.become a (.rouse p true rest)
  | .rouse p false rest => (s.setWaiting p false).become a (.rouse p true rest)
  | .rouse p true rest => (s.setWaiting p false).become a (.answer rest)
  | .timeout p => s.become a (.timeoutLook p s.tick)
  | .timeoutLook p now =>
    if (s.entry p).linked then s.become a (.timeoutDue p now (bucketIndex (s.entry p).space (s.entry p).va))
    else s.become a .idle
  | .timeoutDue p now b =>
    if (s.entry p).linked = true ∧ (s.entry p).timed = true ∧ (s.entry p).fireAt ≤ now ∧ (s.entry p).done = false then
      (s.claim b p .timeout).become a (.timeoutAnswer p (s.entry p).cookie)
    else s.become a .idle
  | .timeoutAnswer p cookie =>
    if room then (s.answerTo p cookie .timeout).become a (.rouse p false []) else s.become a (.rouse p true [])

end WaitState

inductive WaitEvent (σ α : Type) where
  | park (p : σ) (c : ParkCall)
  | step (p : σ) (found : Bool)
  | wake (a : α) (space va count : Nat)
  | timeout (a : α) (p : σ)
  | run (a : α) (room : Bool)
  | fireWake (p : σ)
  | tick
  | store (phys value : Nat)

/-- One access of a strand, of a waker or of a timeout, a tick, or a store to a word. -/
inductive WaitStep (translate : Nat → Nat → Nat) (space : σ → Nat) :
    WaitState σ α → WaitEvent σ α → WaitState σ α → Prop
  | park {s : WaitState σ α} (p : σ) (c : ParkCall) : s.pc p = .idle →
      WaitStep translate space s (.park p c)
        { s with
          pc := update s.pc p (.load c)
          parks := update s.parks p (s.parks p ++ [c.cookie]) }
  | step {s : WaitState σ α} (p : σ) (found : Bool) :
      WaitStep translate space s (.step p found) (s.parkStep translate space p found)
  | wake {s : WaitState σ α} (a : α) (sp va count : Nat) : s.thread a = .idle → translate sp va ≠ 0 →
      WaitStep translate space s (.wake a sp va count) (s.become a (.wake sp va count))
  | timeout {s : WaitState σ α} (a : α) (p : σ) : s.thread a = .idle →
      WaitStep translate space s (.timeout a p) (s.become a (.timeout p))
  | run {s : WaitState σ α} (a : α) (room : Bool) : WaitStep translate space s (.run a room) (s.threadStep a room)
  /-- `touch_queue_fire_wake` lets the strand work on before its answer is there -/
  | fireWake {s : WaitState σ α} (p : σ) :
      WaitStep translate space s (.fireWake p) (s.setWaiting p false)
  | tick {s : WaitState σ α} : WaitStep translate space s .tick { s with tick := s.tick + 1 }
  | store {s : WaitState σ α} (phys value : Nat) :
      WaitStep translate space s (.store phys value) { s with mem := update s.mem phys value }

/-- A strand parks again only when its last park is answered, and the reply rings have room for every answer. -/
def WaitState.meets (s : WaitState σ α) : WaitEvent σ α → Bool
  | .park p _ => (s.answers p).length == (s.parks p).length
  | .step p found =>
    match s.pc p with
    | .reply _ _ => found
    | _ => true
  | .run _ room => room
  | _ => true

end

end BoxOS.Sync
