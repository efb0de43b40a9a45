import BoxOS.Lib.Runs
import Mathlib.Tactic

/-!
# The ring of interrupt events

`TouchPublishIrqPair` claims a position of a ring that overwrites its oldest events, stores the position's generation
into the slot, then the event field by field, then the `done` mark. `touch_irq_ring_serve` reads the slots in the order
of the positions: it takes an event over if the generation and the `done` mark are those of its position and the
generation still is after the copy.

The counters of the source have 32 bits. They are kept unwrapped here, and every access takes their low 32 bits.
-/

open Function (update)

namespace BoxOS.Touch

/-- `CONFIG_TOUCH_IRQ_RING_SIZE` -/
def irqRingSize : Nat := 64

/-- `TOUCH_IRQ_PAYLOAD_MAX` -/
def irqPayloadMax : Nat := 64

/-- `TOUCH_TAG_INVALID` -/
def tagInvalid : Nat := 0xFFFF

def u32 (n : Nat) : Nat := n % 2 ^ 32

/-- The fields of a `TouchIrqSlot` after `gen` and `done`, with the `plen` bytes of payload that count. -/
structure IrqFields where
  fullId : Nat
  bareId : Nat
  flags : Nat
  plen : Nat
  cutFrom : Nat
  sourcePid : Nat
  payload : List Nat
  deriving DecidableEq

/-- An event as it is put into the ring. -/
structure IrqEvent extends IrqFields where
  fits : payload.length ≤ irqPayloadMax
  counted : plen = payload.length

/-- What `TouchPublishIrqPair` makes of its arguments: a payload that is too long is cut. -/
def irqEvent (fullId bareId : Nat) (payload : List Nat) (sourcePid flags : Nat) : IrqEvent where
  fullId := fullId
  bareId := bareId
  flags := flags
  plen := (payload.take irqPayloadMax).length
  cutFrom := if irqPayloadMax < payload.length then payload.length else 0
  sourcePid := sourcePid
  payload := payload.take irqPayloadMax
  fits := by rw [List.length_take]; exact Nat.min_le_left _ _
  counted := rfl

/-- The stores of an event in their order: a cell of the slot and its value. -/
def IrqEvent.stores (e : IrqEvent) : List (Nat × Nat) :=
  [(0, e.fullId), (1, e.bareId), (2, e.flags), (3, e.plen), (4, e.cutFrom), (5, e.sourcePid)] ++
    e.payload.zipIdx.map fun b => (6 + b.2, b.1)

/-- The cells of a slot. -/
def irqCells : Nat := 6 + irqPayloadMax

/-- The event in a copy of a slot. -/
def irqDecode (copy : Nat → Nat) : IrqFields where
  fullId := copy 0
  bareId := copy 1
  flags := copy 2
  plen := copy 3
  cutFrom := copy 4
  sourcePid := copy 5
  payload := (List.range (copy 3)).map fun i => copy (6 + i)

/-- Where a producer is. -/
inductive IrqPc where
  | idle
  | claim (e : IrqEvent)
  | storeGen (e : IrqEvent) (raw : Nat)
  /-- the first `k` stores are made -/
  | store (e : IrqEvent) (raw k : Nat)

/-- Where the consumer is. -/
inductive ServePc where
  | idle
  | load
  | checkGen
  | checkDone
  | copy (k : Nat)
  deriving DecidableEq

structure IrqState (π : Type) where
  claimed : Nat
  read : Nat
  gen : Nat → Nat
  done : Nat → Nat
  data : Nat → Nat → Nat
  push : π → IrqPc
  serve : ServePc
  copy : Nat → Nat
  lost : Nat
  /-- what was handed to `TouchPublishPair` -/
  delivered : List IrqFields
  /-- the events that claimed a position, in the order of the positions -/
  published : List IrqEvent

/-- `raw & (CONFIG_TOUCH_IRQ_RING_SIZE - 1)` -/
def irqSlot (raw : Nat) : Nat := u32 raw % irqRingSize

/-- `(int32_t)(seen - gen) > 0` -/
def isLater (seen gen : Nat) : Prop := 0 < u32 (seen + 2 ^ 32 - gen) ∧ u32 (seen + 2 ^ 32 - gen) < 2 ^ 31

instance (seen gen : Nat) : Decidable (isLater seen gen) := inferInstanceAs (Decidable (_ ∧ _))

section

variable {π : Type} [DecidableEq π]

def irqInit (data : Nat → Nat → Nat) (copy : Nat → Nat) : IrqState π :=
  ⟨0, 0, fun _ => 0, fun _ => 0, data, fun _ => .idle, .idle, copy, 0, [], []⟩

namespace IrqState

/-- The next access of producer `p`. -/
def pushStep (s : IrqState π) (p : π) : IrqState π :=
  match s.push p with
  | .idle => s
  | .claim e =>
    { s with
      push := update s.push p (.storeGen e s.claimed)
      claimed := s.claimed + 1
      published := s.published ++ [e] }
  | .storeGen e raw =>
    { s with
      push := update s.push p (.store e raw 0)
      gen := update s.gen (irqSlot raw) (raw + 1) }
  | .store e raw k =>
    match e.stores[k]? with
    | some (c, v) =>
      { s with
        push := update s.push p (.store e raw (k + 1))
        data := update s.data (irqSlot raw) (update (s.data (irqSlot raw)) c v) }
    | none =>
      { s with
        push := update s.push p .idle
        done := update s.done (irqSlot raw) (raw + 1) }

/-- The consumer gives the event of its position up. -/
def lose (s : IrqState π) : IrqState π := { s with read := s.read + 1, lost := s.lost + 1, serve := .load }

/-- The next access of `touch_irq_ring_serve`. -/
def serveStep (s : IrqState π) : IrqState π :=
  match s.serve with
  | .idle => s
  | .load =>
    let lag := u32 (u32 s.claimed + 2 ^ 32 - u32 s.read)
    if u32 s.read = u32 s.claimed then { s with serve := .idle }
    else if irqRingSize < lag then
      { s with read := s.read + (lag - irqRingSize), lost := s.lost + (lag - irqRingSize), serve := .checkGen }
    else { s with serve := .checkGen }
  | .checkGen =>
    let seen := u32 (s.gen (irqSlot s.read))
    if seen = u32 (s.read + 1) then { s with serve := .checkDone }
    else if isLater seen (u32 (s.read + 1)) then s.lose
    else { s with serve := .idle }
  | .checkDone =>
    { s with serve := if u32 (s.done (irqSlot s.read)) = u32 (s.read + 1) then .copy 0 else .idle }
  | .copy k =>
    if k < irqCells then
      { s with copy := update s.copy k (s.data (irqSlot s.read) k), serve := .copy (k + 1) }
    else if u32 (s.gen (irqSlot s.read)) = u32 (s.read + 1) then
      { s with read := s.read + 1, delivered := s.delivered ++ [irqDecode s.copy], serve := .load }
    else s.lose

end IrqState

inductive IrqStepEvent (π : Type) where
  | publish (p : π) (fullId bareId : Nat) (payload : List Nat) (sourcePid flags : Nat)
  | push (p : π)
  | beginServe
  | serve

/-- One access of a producer or of the consumer. -/
inductive IrqStep : IrqState π → IrqStepEvent π → IrqState π → Prop
  | publish {s : IrqState π} (p : π) (fullId bareId : Nat) (payload : List Nat) (sourcePid flags : Nat) :
      s.push p = .idle → ¬(fullId = tagInvalid ∧ bareId = tagInvalid) →
      IrqStep s (.publish p fullId bareId payload sourcePid flags)
        { s with push := update s.push p (.claim (irqEvent fullId bareId payload sourcePid flags)) }
  | push {s : IrqState π} (p : π) : IrqStep s (.push p) (s.pushStep p)
  | beginServe {s : IrqState π} : s.serve = .idle → IrqStep s .beginServe { s with serve := .load }
  | serve {s : IrqState π} : IrqStep s .serve s.serveStep

/-- The step of an event, where it is possible. -/
def IrqState.next (s : IrqState π) : IrqStepEvent π → Option (IrqState π)
  | .publish p fullId bareId payload sourcePid flags =>
    match s.push p with
    | .idle =>
      if fullId = tagInvalid ∧ bareId = tagInvalid then none
      else some { s with push := update s.push p (.claim (irqEvent fullId bareId payload sourcePid flags)) }
    | _ => none
  | .push p => some (s.pushStep p)
  | .beginServe => if s.serve = .idle then some { s with serve := .load } else none
  | .serve => some s.serveStep

theorem IrqState.next_step {s t : IrqState π} {e : IrqStepEvent π} (h : s.next e = some t) : IrqStep s e t := by
  cases e with
  | publish p fullId bareId payload sourcePid flags =>
    simp only [IrqState.next] at h
    split at h
    · rename_i hp
      split at h
      · cases h
      · rename_i hvalid
        cases h
        exact .publish p fullId bareId payload sourcePid flags hp hvalid
    · cases h
  | push p =>
    cases h
    exact .push p
  | beginServe =>
    simp only [IrqState.next] at h
    split at h
    · rename_i hp
      cases h
      exact .beginServe hp
    · cases h
  | serve =>
    cases h
    exact .serve

end

end BoxOS.Touch
