import BoxOS.Lib.Ring
import BoxOS.Lib.Runs
import Mathlib.Tactic

/-!
# Rings between the kernel and a process

The reply ring and the touch ring of a process are one protocol: any number of pushes in the kernel (`KResultPush`,
`KTouchPush`) and one consumer in the process (`result_pop`, `touch_ring_pop_slot`). A push reads `head`, then `tail`,
claims a position by compare-and-swap on `tail`, copies its record into the slot of the position and publishes it by the
slot's sequence number: `2 * round` while the slot is free, one more when it is published, two more when it is popped.

Every load, store and compare-and-swap is a step of its own, and the copies go cell by cell. A record is `w` cells of
type `β`; `limit r` is the occupancy from which on a push of `r` is refused. The pages of the slots are mapped.
-/

open Function (update)

namespace BoxOS.Ipc

def u64 (n : Nat) : Nat := n % 2 ^ 64

/-- Where a push is. -/
inductive PushPc (ρ : Type) where
  /-- not in a push; what the last one returned -/
  | returned (ok : Bool)
  | loadHead (r : ρ)
  | loadTail (r : ρ) (head : Nat)
  | claim (r : ρ) (pos : Nat)
  | checkSeq (r : ρ) (pos : Nat)
  /-- the first `k` cells are copied -/
  | copy (r : ρ) (pos k : Nat)

/-- Where the consumer is. -/
inductive PopPc where
  | idle
  | loadTail
  | loadHead (tail : Nat)
  | checkSeq (pos : Nat)
  | copy (pos k : Nat)
  /-- the slot is released and `head` is still to be stored -/
  | advance (pos : Nat)
  deriving DecidableEq

structure RingState (π β : Type) (w : Nat) where
  head : Nat
  tail : Nat
  seq : Nat → Nat
  data : Nat → Fin w → β
  push : π → PushPc (Fin w → β)
  pop : PopPc
  /-- the consumer's buffer -/
  out : Fin w → β
  /-- `g_krp_seq_broken`, `g_ktr_seq_broken` -/
  seqBroken : Nat
  /-- the records whose push claimed a position, in the order of the positions -/
  claimed : List (Fin w → β)
  /-- what the consumer got -/
  popped : List (Fin w → β)
  /-- the records that were refused because the ring was full -/
  dropped : List (Fin w → β)

/-- What a push expects to find in the slot of a position: `2 * round`. -/
def seqFree (cap pos : Nat) : Nat := u64 (2 * (pos / cap))

/-- What a push stores there, and the consumer expects. -/
def seqFull (cap pos : Nat) : Nat := u64 (2 * (pos / cap) + 1)

/-- What the consumer stores there. -/
def seqTaken (cap pos : Nat) : Nat := u64 (2 * (pos / cap) + 1 + 1)

section

variable {π β : Type} {w : Nat} [DecidableEq π]

/-- An empty ring, over any content of the slots and of the consumer's buffer. -/
def ringInit (data : Nat → Fin w → β) (out : Fin w → β) : RingState π β w :=
  ⟨0, 0, fun _ => 0, data, fun _ => .returned true, .idle, out, 0, [], [], []⟩

def RingState.goto (s : RingState π β w) (p : π) (pc : PushPc (Fin w → β)) : RingState π β w :=
  { s with push := update s.push p pc }

/-- The next access of the push of `p`; `weak`: the compare-and-swap fails by itself. -/
def RingState.pushStep (cap : Nat) (limit : (Fin w → β) → Nat) (s : RingState π β w) (p : π) (weak : Bool) :
    RingState π β w :=
  match s.push p with
  | .returned _ => s
  | .loadHead r => s.goto p (.loadTail r s.head)
  | .loadTail r head =>
    if limit r ≤ u64 (s.tail + 2 ^ 64 - head) then
      { s with push := update s.push p (.returned false), dropped := s.dropped ++ [r] }
    else s.goto p (.claim r s.tail)
  | .claim r pos =>
    if s.tail = pos ∧ weak = false then
      { s with push := update s.push p (.checkSeq r pos), tail := u64 (pos + 1), claimed := s.claimed ++ [r] }
    else s.goto p (.loadHead r)
  | .checkSeq r pos =>
    { s with
      push := update s.push p (.copy r pos 0)
      seqBroken := if s.seq (pos % cap) = seqFree cap pos then s.seqBroken else s.seqBroken + 1 }
  | .copy r pos k =>
    if h : k < w then
      { s with
        push := update s.push p (.copy r pos (k + 1))
        data := update s.data (pos % cap) (update (s.data (pos % cap)) ⟨k, h⟩ (r ⟨k, h⟩)) }
    else
      { s with
        push := update s.push p (.returned true)
        seq := update s.seq (pos % cap) (seqFull cap pos) }

/-- The next access of the consumer. -/
def RingState.popStep (cap : Nat) (s : RingState π β w) : RingState π β w :=
  match s.pop with
  | .idle => s
  | .loadTail => { s with pop := .loadHead s.tail }
  | .loadHead tail => { s with pop := if s.head = tail then .idle else .checkSeq s.head }
  | .checkSeq pos => { s with pop := if s.seq (pos % cap) = seqFull cap pos then .copy pos 0 else .idle }
  | .copy pos k =>
    if h : k < w then
      { s with pop := .copy pos (k + 1), out := update s.out ⟨k, h⟩ (s.data (pos % cap) ⟨k, h⟩) }
    else { s with pop := .advance pos, seq := update s.seq (pos % cap) (seqTaken cap pos) }
  | .advance pos => { s with pop := .idle, head := u64 (pos + 1), popped := s.popped ++ [s.out] }

inductive RingEvent (π β : Type) (w : Nat) where
  | begin (p : π) (r : Fin w → β)
  | push (p : π) (weak : Bool)
  | beginPop
  | pop

/-- One access of a push or of the consumer. -/
inductive RingStep (cap : Nat) (limit : (Fin w → β) → Nat) :
    RingState π β w → RingEvent π β w → RingState π β w → Prop
  | begin {s : RingState π β w} (p : π) (r : Fin w → β) (ok : Bool) : s.push p = .returned ok →
      RingStep cap limit s (.begin p r) (s.goto p (.loadHead r))
  | push {s : RingState π β w} (p : π) (weak : Bool) :
      RingStep cap limit s (.push p weak) (s.pushStep cap limit p weak)
  | beginPop {s : RingState π β w} : s.pop = .idle → RingStep cap limit s .beginPop { s with pop := .loadTail }
  | pop {s : RingState π β w} : RingStep cap limit s .pop (s.popStep cap)

/-- A run of pushes and of the consumer whose every step meets `C`. -/
abbrev RingRun (cap : Nat) (limit : (Fin w → β) → Nat) (C : RingState π β w → RingEvent π β w → Prop) :
    RingState π β w → List (RingEvent π β w) → RingState π β w → Prop :=
  Lib.Run (RingStep cap limit) C

/-- The step of an event, where it is possible. -/
def RingState.next (cap : Nat) (limit : (Fin w → β) → Nat) (s : RingState π β w) :
    RingEvent π β w → Option (RingState π β w)
  | .begin p r => match s.push p with
    | .returned _ => some (s.goto p (.loadHead r))
    | _ => none
  | .push p weak => some (s.pushStep cap limit p weak)
  | .beginPop => if s.pop = .idle then some { s with pop := .loadTail } else none
  | .pop => some (s.popStep cap)

theorem RingState.next_step {cap : Nat} {limit : (Fin w → β) → Nat} {s t : RingState π β w} {e : RingEvent π β w}
    (h : s.next cap limit e = some t) : RingStep cap limit s e t := by
  cases e with
  | begin p r =>
    simp only [RingState.next] at h
    split at h
    · rename_i ok hp
      cases h
      exact .begin p r ok hp
    · cases h
  | push p weak =>
    cases h
    exact .push p weak
  | beginPop =>
    simp only [RingState.next] at h
    split at h
    · rename_i hp
      cases h
      exact .beginPop hp
    · cases h
  | pop =>
    cases h
    exact .pop

/-! ## The invariant -/

/-- The push has claimed `pos` for `r` and not published it yet. -/
def PushPc.Writes {ρ : Type} (pc : PushPc ρ) (r : ρ) (pos : Nat) : Prop :=
  pc = .checkSeq r pos ∨ ∃ k, pc = .copy r pos k

/-- The record of `pos` is in its slot as it was pushed. -/
def RingState.Published (cap : Nat) (s : RingState π β w) (pos : Nat) : Prop :=
  s.seq (pos % cap) = seqFull cap pos ∧ s.claimed[pos]? = some (s.data (pos % cap))

/-- `pos` is claimed for `r`, and its slot is free for it. -/
structure RingState.Claimed (cap : Nat) (s : RingState π β w) (r : Fin w → β) (pos : Nat) : Prop where
  ge : s.head ≤ pos
  lt : pos < s.tail
  record : s.claimed[pos]? = some r
  seq : s.seq (pos % cap) = seqFree cap pos

/-- What a push relies on, at each of its places. -/
def RingState.PushOk (cap : Nat) (limit : (Fin w → β) → Nat) (s : RingState π β w) : PushPc (Fin w → β) → Prop
  | .returned _ => True
  | .loadHead _ => True
  | .loadTail _ head => head ≤ s.head
  | .claim r pos => pos < s.head + limit r
  | .checkSeq r pos => s.Claimed cap r pos
  | .copy r pos k => s.Claimed cap r pos ∧ ∀ i : Fin w, i < k → s.data (pos % cap) i = r i

/-- What the consumer relies on. -/
def RingState.PopOk (cap : Nat) (s : RingState π β w) : Prop :=
  match s.pop with
  | .idle => True
  | .loadTail => True
  | .loadHead tail => s.head ≤ tail ∧ tail ≤ s.tail
  | .checkSeq pos => pos = s.head ∧ s.head < s.tail
  | .copy pos k => pos = s.head ∧ s.head < s.tail ∧ s.Published cap pos ∧
      ∀ i : Fin w, i < k → s.out i = s.data (pos % cap) i
  | .advance pos => pos = s.head ∧ s.head < s.tail ∧ s.seq (pos % cap) = seqTaken cap pos ∧ s.claimed[pos]? = some s.out

structure RingInv (cap : Nat) (limit : (Fin w → β) → Nat) (s : RingState π β w) : Prop where
  le : s.head ≤ s.tail
  room : s.tail ≤ s.head + cap
  bound : s.tail < 2 ^ 64
  length : s.claimed.length = s.tail
  taken : s.popped = s.claimed.take s.head
  free : ∀ pos, s.tail ≤ pos → pos < s.head + cap → s.seq (pos % cap) = seqFree cap pos
  used : ∀ pos, s.head ≤ pos → pos < s.tail →
    (∃ p r, (s.push p).Writes r pos) ∨ s.Published cap pos ∨ s.pop = .advance pos
  pushes : ∀ p, s.PushOk cap limit (s.push p)
  alone : ∀ p q r r' pos, (s.push p).Writes r pos → (s.push q).Writes r' pos → p = q
  consumer : s.PopOk cap
  held : ∀ pos r, s.claimed[pos]? = some r → pos < s.head + limit r
  unbroken : s.seqBroken = 0

end

end BoxOS.Ipc
