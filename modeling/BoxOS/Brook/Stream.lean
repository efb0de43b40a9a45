import Mathlib.Data.List.Basic
import Mathlib.Algebra.GroupWithZero.Nat

/-!
# A brook: frames from one writer to one reader

The shared page of a brook holds two free-running counters, the frames between them, and for each end whether it is
attached. `brook_push_core` and `brook_pop_core` are broken into their single accesses to that page; between any two of
them the other side may act, and the kernel may take an end away at any point of its work, as it does when a process
dies. What a caller does while it waits touches none of these words: a blocked call starts over or gives up.
-/

namespace BoxOS.Brook

/-- `writer_alive` and `reader_alive`: 0, 1 and `BROOK_ALIVE_FROZEN`. -/
inductive Alive where
  | dead
  | alive
  | frozen
  deriving DecidableEq

/-- The words of one end, and the `BROOK_STREAM` flag of the handle it is held by. -/
structure EndWords where
  alive : Alive
  everAttached : Bool
  streaming : Bool

/-- Bytes of a frame, and frames in the ring: a power of two that 32 bits hold. -/
structure Shape where
  frameSize : Nat
  logCount : Nat
  small : logCount < 32

def Shape.frameCount (sh : Shape) : Nat := 2 ^ sh.logCount

/-- Where the writer is: opening, in `brook_push_core` with the frame to push, or being released. -/
inductive WriterPc where
  | detached
  /-- `writer_alive` is 1, `writer_ever_attached` not yet stored -/
  | attaching
  /-- the claim is not yet linked -/
  | linking
  | idle
  | loadTail (frame : List UInt8)
  | loadHead (frame : List UInt8) (tail : Nat)
  /-- the first `k` bytes are in the slot -/
  | copy (frame : List UInt8) (tail k : Nat)
  | checkAlive (frame : List UInt8)
  | checkEver (frame : List UInt8)
  | freeze (frame : List UInt8)
  | blocked (frame : List UInt8)
  /-- the release has unmapped the pages and still has to clear `writer_alive` -/
  | unmapped
  deriving DecidableEq

/-- Where the reader is. A pop that found the ring empty remembers, for the proofs only, the tail it loaded. -/
inductive ReaderPc where
  | detached
  | attaching
  | linking
  | idle
  | loadHead
  | loadTail (head : Nat)
  /-- the bytes copied out of the slot so far -/
  | copy (head : Nat) (bytes : List UInt8)
  | checkAlive (tail : Nat)
  | checkEver (tail : Nat)
  | freeze (tail : Nat)
  | blocked
  | unmapped
  deriving DecidableEq

/-- The shared page and both ends. The last four fields are for the proofs: the frames pushed and popped so far, and
whether a pop returned `ERR_STREAM_CLOSED` and a push `ERR_PROCESS_TERMINATED`. -/
structure Stream where
  tail : Nat
  head : Nat
  slots : Nat → Nat → UInt8
  writer : EndWords
  reader : EndWords
  writerPc : WriterPc
  readerPc : ReaderPc
  pushed : List (List UInt8)
  popped : List (List UInt8)
  closed : Bool
  terminated : Bool

/-- A new brook: `brook_header_init` on a page of zeros. -/
def Stream.init : Stream where
  tail := 0
  head := 0
  slots := fun _ _ => 0
  writer := ⟨.dead, false, false⟩
  reader := ⟨.dead, false, false⟩
  writerPc := .detached
  readerPc := .detached
  pushed := []
  popped := []
  closed := false
  terminated := false

/-- What an end does next: the kernel attaches it, a call starts, the call or the kernel goes on by one access, a call
that would wait returns, or the kernel takes the end away. -/
inductive Act where
  | attach (streaming : Bool)
  | push (frame : List UInt8)
  | pop
  | go
  | giveUp
  | drop

namespace Stream

variable (sh : Shape)

/-- The end's word after the compare-and-swap of `BrookReleaseInternal`: 1 becomes 0. -/
def clearAlive (e : EndWords) : EndWords := if e.alive = .alive then { e with alive := .dead } else e

/-- One access of the writer. -/
def writerStep (s : Stream) : Act → Option Stream
  | .attach streaming =>
    match s.writerPc with
    | .detached =>
      if s.writer.alive = .dead then
        some { s with writer := { s.writer with alive := .alive, streaming := streaming }, writerPc := .attaching }
      else none
    | _ => none
  | .push frame =>
    match s.writerPc with
    | .idle => if frame.length = sh.frameSize then some { s with writerPc := .loadTail frame } else none
    | _ => none
  | .pop => none
  | .go =>
    match s.writerPc with
    | .detached => none
    | .attaching => some { s with writer := { s.writer with everAttached := true }, writerPc := .linking }
    | .linking => some { s with writerPc := .idle }
    | .idle => none
    | .loadTail frame => some { s with writerPc := .loadHead frame s.tail }
    | .loadHead frame tail =>
      if (tail + 2 ^ 64 - s.head) % 2 ^ 64 < sh.frameCount then some { s with writerPc := .copy frame tail 0 }
      else if s.writer.streaming then some { s with writerPc := .blocked frame }
      else some { s with writerPc := .checkAlive frame }
    | .copy frame tail k =>
      if k < sh.frameSize then
        let slot := tail % sh.frameCount
        some { s with
          slots := Function.update s.slots slot (Function.update (s.slots slot) k (frame.getD k 0))
          writerPc := .copy frame tail (k + 1) }
      else some { s with tail := (tail + 1) % 2 ^ 64, pushed := s.pushed ++ [frame], writerPc := .idle }
    | .checkAlive frame =>
      if s.reader.alive = .dead then some { s with writerPc := .checkEver frame }
      else some { s with writerPc := .blocked frame }
    | .checkEver frame =>
      if s.reader.everAttached then some { s with writerPc := .freeze frame }
      else some { s with writerPc := .blocked frame }
    | .freeze frame =>
      match s.reader.alive with
      | .dead =>
        some { s with reader := { s.reader with alive := .frozen }, writerPc := .idle, terminated := true }
      | .frozen => some { s with writerPc := .idle, terminated := true }
      | .alive => some { s with writerPc := .loadTail frame }
    | .blocked frame => some { s with writerPc := .loadTail frame }
    | .unmapped => some { s with writer := clearAlive s.writer, writerPc := .detached }
  | .giveUp =>
    match s.writerPc with
    | .blocked _ => some { s with writerPc := .idle }
    | _ => none
  | .drop =>
    match s.writerPc with
    | .detached | .attaching | .unmapped => none
    | _ => some { s with writerPc := .unmapped }

/-- One access of the reader. -/
def readerStep (s : Stream) : Act → Option Stream
  | .attach streaming =>
    match s.readerPc with
    | .detached =>
      if s.reader.alive = .dead then
        some { s with reader := { s.reader with alive := .alive, streaming := streaming }, readerPc := .attaching }
      else none
    | _ => none
  | .push _ => none
  | .pop =>
    match s.readerPc with
    | .idle => some { s with readerPc := .loadHead }
    | _ => none
  | .go =>
    match s.readerPc with
    | .detached => none
    | .attaching => some { s with reader := { s.reader with everAttached := true }, readerPc := .linking }
    | .linking => some { s with readerPc := .idle }
    | .idle => none
    | .loadHead => some { s with readerPc := .loadTail s.head }
    | .loadTail head =>
      if head ≠ s.tail then some { s with readerPc := .copy head [] }
      else if s.reader.streaming then some { s with readerPc := .blocked }
      else some { s with readerPc := .checkAlive s.tail }
    | .copy head bytes =>
      if bytes.length < sh.frameSize then
        some { s with readerPc := .copy head (bytes ++ [s.slots (head % sh.frameCount) bytes.length]) }
      else some { s with head := (head + 1) % 2 ^ 64, popped := s.popped ++ [bytes], readerPc := .idle }
    | .checkAlive tail =>
      if s.writer.alive = .dead then some { s with readerPc := .checkEver tail }
      else some { s with readerPc := .blocked }
    | .checkEver tail =>
      if s.writer.everAttached then some { s with readerPc := .freeze tail }
      else some { s with readerPc := .blocked }
    | .freeze _ =>
      match s.writer.alive with
      | .dead => some { s with writer := { s.writer with alive := .frozen }, readerPc := .idle, closed := true }
      | .frozen => some { s with readerPc := .idle, closed := true }
      | .alive => some { s with readerPc := .loadHead }
    | .blocked => some { s with readerPc := .loadHead }
    | .unmapped => some { s with reader := clearAlive s.reader, readerPc := .detached }
  | .giveUp =>
    match s.readerPc with
    | .blocked => some { s with readerPc := .idle }
    | _ => none
  | .drop =>
    match s.readerPc with
    | .detached | .attaching | .unmapped => none
    | _ => some { s with readerPc := .unmapped }

/-- Which end acts. -/
inductive Event where
  | writer (a : Act)
  | reader (a : Act)

def next (s : Stream) : Event → Option Stream
  | .writer a => s.writerStep sh a
  | .reader a => s.readerStep sh a

def Step (s : Stream) (e : Event) (t : Stream) : Prop := s.next sh e = some t

end Stream

end BoxOS.Brook
