import BoxOS.Ipc.RingInv

/-!
# Touches owed to a resting process

`TouchRestDeliver` puts a touch into the ring of its target, or on the target's owed list while that list is not empty
or when the ring is full. `TouchOwedHandOver` moves the list into the ring; the flag `owed_draining` lets one thread at
a time do so. `TouchOwedRelease` throws the list away.

A section under `owed_lock`, a load, a store and a compare-and-swap are one step each, and the accesses of `KTouchPush`
are those of the ring. A publish carries its publisher and its number among that publisher's publishes.
-/

open Function (update)

namespace BoxOS.Touch

open Ipc

structure Publish (τ ε : Type) where
  owner : τ
  nth : Nat
  touch : ε

/-- Where a thread is. `k`: the publish that called `TouchOwedHandOver`, if one did. -/
inductive OwedPc (τ ε : Type) where
  | idle
  /-- `TouchRestDeliver`: loads `destroying` -/
  | deliver (e : Publish τ ε)
  /-- loads `owed_count` -/
  | firstCount (e : Publish τ ε)
  /-- loads it again after the hand-over -/
  | secondCount (e : Publish τ ε)
  /-- in its own `KTouchPush` -/
  | direct (e : Publish τ ε)
  /-- `touch_owed_append`: the check before the node is allocated -/
  | append (e : Publish τ ε)
  | appendLocked (e : Publish τ ε)
  /-- `TouchOwedHandOver`: loads `owed_count` -/
  | handOver (k : Option (Publish τ ε))
  | handFlag (k : Option (Publish τ ε))
  | handTake (k : Option (Publish τ ε))
  /-- in the `KTouchPush` of the node `n` -/
  | handPush (k : Option (Publish τ ε)) (n : Publish τ ε)
  | handBack (k : Option (Publish τ ε)) (n : Publish τ ε)
  | handSub (k : Option (Publish τ ε))
  | handLeave (k : Option (Publish τ ε))

/-- The thread has looked for nodes, and looks at the count next. -/
def OwedPc.lookedFor {τ ε : Type} : OwedPc τ ε → Bool
  | .handLeave _ => true
  | .secondCount _ => true
  | _ => false

/-- The push has loaded `head` and not yet `tail`. -/
def betweenLoads {ρ : Type} : PushPc ρ → Bool
  | .loadTail _ _ => true
  | _ => false

structure OwedState (τ ε : Type) where
  ring : RingState τ (Publish τ ε) 1
  owed : List (Publish τ ε)
  /-- `owed_count` -/
  count : Nat
  /-- `hdr.owed` of the ring -/
  slip : Nat
  /-- `owed_draining`, and who set it -/
  draining : Option τ
  destroying : Bool
  pc : τ → OwedPc τ ε
  /-- how many publishes a thread has begun -/
  sent : τ → Nat
  /-- a push of the thread's present call was refused while the ring held as many records as it has slots -/
  wasFull : τ → Bool
  /-- the ring was not full for the thread's present call, but the page of a slot could not be mapped, another thread
  was draining, another publish came on the list after the thread had found it empty, or `head` was stored between its
  loads -/
  hindered : τ → Bool
  /-- what `TouchOwedRelease` threw away -/
  released : List (Publish τ ε)
  /-- what `touch_drop_announce` reported: whether the ring had been full, and whether the list was at its bound -/
  dropped : List (Publish τ ε × Bool × Bool)

section

variable {τ ε : Type} [DecidableEq τ]

def owedInit (data : Nat → Fin 1 → Publish τ ε) (out : Fin 1 → Publish τ ε) : OwedState τ ε :=
  ⟨ringInit data out, [], 0, 0, none, false, fun _ => .idle, fun _ => 0, fun _ => false, fun _ => false, [], []⟩

namespace OwedState

variable (s : OwedState τ ε)

def goto (t : τ) (pc : OwedPc τ ε) : OwedState τ ε :=
  { s with pc := update s.pc t pc }

/-- Calls `KTouchPush`. -/
def callPush (t : τ) (e : Publish τ ε) (pc : OwedPc τ ε) : OwedState τ ε :=
  { s with ring := s.ring.goto t (.loadHead fun _ => e), pc := update s.pc t pc }

/-- Returns from `TouchOwedHandOver`. -/
def handReturn (k : Option (Publish τ ε)) : OwedPc τ ε :=
  match k with
  | none => .idle
  | some e => .secondCount e

/-- The threads of `who` are hindered, unless the ring was full for them before. -/
def hinder (who : τ → Bool) : τ → Bool := fun t => s.hindered t || who t && !s.wasFull t

/-- `touch_drop_announce`, and the return of `TouchRestDeliver`. -/
def announce (cap : Nat) (s : OwedState τ ε) (t : τ) (e : Publish τ ε) : OwedState τ ε :=
  { s with
    pc := update s.pc t .idle
    dropped := s.dropped ++ [(e, s.wasFull t, decide (cap ≤ s.count))] }

/-- The next access of `KTouchPush` to the ring. -/
def ringStep (cap : Nat) (s : OwedState τ ε) (t : τ) (weak : Bool) : OwedState τ ε :=
  let ring := s.ring.pushStep cap (fun _ => cap) t weak
  let full := match ring.push t with
    | .returned false => decide (cap ≤ s.ring.tail - s.ring.head)
    | _ => false
  { s with
    ring := ring
    wasFull := update s.wasFull t (s.wasFull t || full)
    hindered := update s.hindered t (s.hindered t && !full) }

/-- The next access of `KTouchPush`; before it claims a slot its page is mapped and translated. -/
def pushStep (cap : Nat) (s : OwedState τ ε) (t : τ) (weak granted : Bool) : OwedState τ ε :=
  match granted, s.ring.push t with
  | false, .claim _ _ => { s with ring := s.ring.goto t (.returned false), hindered := s.hinder (· = t) }
  | _, _ => s.ringStep cap t weak

/-- The next access of thread `t`; `weak`: a compare-and-swap of the ring fails by itself, `granted`: `kmalloc` finds
memory, or the page of the slot can be mapped and translates. -/
def step (cap : Nat) (s : OwedState τ ε) (t : τ) (weak granted : Bool) : OwedState τ ε :=
  match s.pc t with
  | .idle => s
  | .deliver e => if s.destroying then s.announce cap t e else s.goto t (.firstCount e)
  | .firstCount e => if s.count = 0 then s.callPush t e (.direct e) else s.goto t (.handOver (some e))
  | .secondCount e => if s.count = 0 then s.callPush t e (.direct e) else s.goto t (.append e)
  | .direct e =>
    match s.ring.push t with
    | .returned true => s.goto t .idle
    | .returned false => s.goto t (.append e)
    | _ => s.pushStep cap t weak granted
  | .append e =>
    if cap ≤ s.count then s.announce cap t e
    else if granted then s.goto t (.appendLocked e)
    else s.announce cap t e
  | .appendLocked e =>
    if s.count < cap then
      { s with
        pc := update s.pc t .idle
        hindered := s.hinder fun q => (s.pc q).lookedFor
        owed := s.owed ++ [e]
        count := s.count + 1
        slip := s.count + 1 }
    else s.announce cap t e
  | .handOver k => if s.count = 0 then s.goto t (handReturn k) else s.goto t (.handFlag k)
  | .handFlag k =>
    match s.draining with
    | none => { s with pc := update s.pc t (.handTake k), draining := some t }
    | some _ => { s with pc := update s.pc t (handReturn k), hindered := s.hinder (· = t) }
  | .handTake k =>
    match s.owed with
    | [] => s.goto t (.handLeave k)
    | n :: rest =>
      { s with
        ring := s.ring.goto t (.loadHead fun _ => n)
        pc := update s.pc t (.handPush k n)
        owed := rest }
  | .handPush k n =>
    match s.ring.push t with
    | .returned true => s.goto t (.handSub k)
    | .returned false => s.goto t (.handBack k n)
    | _ => s.pushStep cap t weak granted
  | .handBack k n => { s with pc := update s.pc t (.handLeave k), owed := n :: s.owed }
  | .handSub k =>
    { s with
      pc := update s.pc t (.handTake k)
      count := (s.count + 2 ^ 32 - 1) % 2 ^ 32
      slip := (s.count + 2 ^ 32 - 1) % 2 ^ 32 }
  | .handLeave k => { s with pc := update s.pc t (handReturn k), draining := none }

/-- `TouchRestDeliver` is called. -/
def publish (t : τ) (touch : ε) : OwedState τ ε :=
  { s with
    pc := update s.pc t (.deliver ⟨t, s.sent t, touch⟩)
    sent := update s.sent t (s.sent t + 1)
    wasFull := update s.wasFull t false
    hindered := update s.hindered t false }

/-- `TouchOwedRelease` -/
def release : OwedState τ ε :=
  { s with owed := [], count := 0, slip := 0, released := s.released ++ s.owed }

/-- The next access of the target. -/
def pop (cap : Nat) : OwedState τ ε :=
  { s with
    ring := s.ring.popStep cap
    hindered := match s.ring.pop with
      | .advance _ => s.hinder fun t => betweenLoads (s.ring.push t)
      | _ => s.hindered }

end OwedState

inductive OwedEvent (τ ε : Type) where
  | publish (t : τ) (touch : ε)
  | handOver (t : τ)
  | step (t : τ) (weak granted : Bool)
  | release
  | destroying (b : Bool)
  | beginPop
  | pop

/-- One access of a publisher, of a draining thread, of the cleanup or of the target. -/
inductive OwedStep (cap : Nat) : OwedState τ ε → OwedEvent τ ε → OwedState τ ε → Prop
  | publish {s : OwedState τ ε} (t : τ) (touch : ε) : s.pc t = .idle →
      OwedStep cap s (.publish t touch) (s.publish t touch)
  | handOver {s : OwedState τ ε} (t : τ) : s.pc t = .idle →
      OwedStep cap s (.handOver t) (s.goto t (.handOver none))
  | step {s : OwedState τ ε} (t : τ) (weak granted : Bool) :
      OwedStep cap s (.step t weak granted) (s.step cap t weak granted)
  | release {s : OwedState τ ε} : OwedStep cap s .release s.release
  | destroying {s : OwedState τ ε} (b : Bool) : OwedStep cap s (.destroying b) { s with destroying := b }
  | beginPop {s : OwedState τ ε} : s.ring.pop = .idle →
      OwedStep cap s .beginPop { s with ring := { s.ring with pop := .loadTail } }
  | pop {s : OwedState τ ε} : OwedStep cap s .pop (s.pop cap)

/-- A run whose every step meets `C`. -/
abbrev OwedRun (cap : Nat) (C : OwedState τ ε → OwedEvent τ ε → Prop) :
    OwedState τ ε → List (OwedEvent τ ε) → OwedState τ ε → Prop :=
  Lib.Run (OwedStep cap) C

/-- The step of an event, where it is possible. -/
def OwedState.next (cap : Nat) (s : OwedState τ ε) : OwedEvent τ ε → Option (OwedState τ ε)
  | .publish t touch => match s.pc t with
    | .idle => some (s.publish t touch)
    | _ => none
  | .handOver t => match s.pc t with
    | .idle => some (s.goto t (.handOver none))
    | _ => none
  | .step t weak granted => some (s.step cap t weak granted)
  | .release => some s.release
  | .destroying b => some { s with destroying := b }
  | .beginPop => if s.ring.pop = .idle then some { s with ring := { s.ring with pop := .loadTail } } else none
  | .pop => some (s.pop cap)

theorem OwedState.next_step {cap : Nat} {s t : OwedState τ ε} {e : OwedEvent τ ε} (h : s.next cap e = some t) :
    OwedStep cap s e t := by
  cases e with
  | publish p touch =>
    simp only [OwedState.next] at h
    split at h
    · rename_i hp
      cases h
      exact .publish p touch hp
    · cases h
  | handOver p =>
    simp only [OwedState.next] at h
    split at h
    · rename_i hp
      cases h
      exact .handOver p hp
    · cases h
  | step p weak granted =>
    cases h
    exact .step p weak granted
  | release =>
    cases h
    exact .release
  | destroying b =>
    cases h
    exact .destroying b
  | beginPop =>
    simp only [OwedState.next] at h
    split at h
    · rename_i hp
      cases h
      exact .beginPop hp
    · cases h
  | pop =>
    cases h
    exact .pop

end

end BoxOS.Touch
