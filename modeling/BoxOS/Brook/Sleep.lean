import BoxOS.Brook.Stream

/-!
# Sleeping on a brook

What the two ends of one brook do about their bells: `brook_push_core` and `brook_pop_core` with `brook_ring` after the
exchange of their index, `brook_sleep_until` with `box_turn_in`, and the survivor bell of a release. Every access to a
shared word is a step of its own. An end is run by one strand at a time, not always the one that opened it. The frames
are those of `BoxOS.Brook.Stream`.

`made` says that the operation has made the wait condition of the other end true; it is for the statements only.
-/

namespace BoxOS.Brook.Sleep

/-- `BROOK_WRITER` and `BROOK_READER`. -/
inductive Role where
  | writer
  | reader
deriving DecidableEq

def Role.peer : Role → Role
  | .writer => .reader
  | .reader => .writer

@[simp] theorem Role.peer_peer (r : Role) : r.peer.peer = r := by cases r <;> rfl

theorem Role.ne_peer (r : Role) : r ≠ r.peer := by cases r <;> simp [Role.peer]

theorem Role.eq_or (q r : Role) : q = r ∨ q = r.peer := by cases q <;> cases r <;> simp [Role.peer]

/-- A bell word: a pid, 0 for nobody, and `BROOK_BELL_RUNG`. Pids are far below that bit. -/
structure Bell where
  who : Nat
  rung : Bool
deriving DecidableEq

/-- What `box_mark` has loaded. -/
structure TurnInMark where
  result : Nat
  touch : Nat
deriving DecidableEq

/-- A slot that `KResultPush` has claimed: it holds a bell's result or another one, and may be published. -/
structure ResultSlot where
  bell : Bool
  published : Bool
deriving DecidableEq

/-- The rings of a strand, from their heads on. -/
structure Inbox where
  resultTail : Nat
  touchTail : Nat
  results : List ResultSlot
  touches : List Bool

/-- `turn_in_arrival`. -/
def Inbox.Arrival (i : Inbox) (seen : TurnInMark) : Prop :=
  i.resultTail ≠ seen.result ∨ i.touchTail ≠ seen.touch ∨ i.results.head?.any (·.published) = true ∨
    i.touches.head? = some true

instance (i : Inbox) (seen : TurnInMark) : Decidable (i.Arrival seen) := inferInstanceAs (Decidable (_ ∨ _ ∨ _ ∨ _))

/-- Where an end is. -/
inductive Pc where
  | gone
  /-- `BrookOpenInternal` has set the alive word to 1, and then `ever_attached` -/
  | attaching
  | linking
  | idle
  /-- `brook_push_core` or `brook_pop_core`: the loads of the loop, and the exchange -/
  | look
  | publish
  /-- `brook_ring` -/
  | ringLoad (made : Bool)
  | ringCas (who : Nat) (made : Bool)
  | submit (who : Nat) (made : Bool)
  | undo (who : Nat) (made : Bool)
  | checkAlive
  | checkEver
  | freeze
  | wait
  /-- `brook_sleep_until` -/
  | hang
  | markResult
  | markTouch (result : Nat)
  | recheck (mark : TurnInMark)
  | recheckAlive (mark : TurnInMark)
  | recheckEver (mark : TurnInMark)
  | turnedIn (mark : TurnInMark)
  | takeDown
  /-- the release in the kernel -/
  | unmapped (made : Bool)
  | survivorLoad (made : Bool)
  | survivorCas (who : Nat) (made : Bool)
deriving DecidableEq

/-- An end: its words in the header, its handle, and the strand that runs it. -/
structure End where
  alive : Alive
  everAttached : Bool
  bell : Bell
  streaming : Bool
  selfPid : Nat
  strand : Nat
  pc : Pc

/-- The brook, the rings of the strands, and the bells on their way: BELL manifests that the kernel has not executed,
and what `brook_ring_pid` is about to push. -/
structure World where
  tail : UInt64
  head : UInt64
  ends : Role → End
  inbox : Nat → Inbox
  flying : List Nat

/-- A new brook. -/
def World.init : World where
  tail := 0
  head := 0
  ends := fun _ => ⟨.dead, false, ⟨0, false⟩, false, 0, 0, .gone⟩
  inbox := fun _ => ⟨0, 0, [], []⟩
  flying := []

namespace World

variable (cap : UInt32) (w : World)

/-- One end changes. -/
def setEnd (r : Role) (f : End → End) : World := { w with ends := Function.update w.ends r (f (w.ends r)) }

/-- An end goes on. -/
def goto (r : Role) (pc : Pc) : World := w.setEnd r fun e => { e with pc := pc }

def setInbox (p : Nat) (f : Inbox → Inbox) : World := { w with inbox := Function.update w.inbox p (f (w.inbox p)) }

/-- There is a frame to pop, or room for one to push. -/
def CanMove : Role → Prop
  | .reader => w.head ≠ w.tail
  | .writer => w.tail - w.head < cap.toUInt64

instance : (r : Role) → Decidable (w.CanMove cap r)
  | .reader => inferInstanceAs (Decidable (w.head ≠ w.tail))
  | .writer => inferInstanceAs (Decidable (w.tail - w.head < cap.toUInt64))

/-- The other end has been there and is not any more. -/
def Deserted (r : Role) : Prop :=
  (w.ends r).streaming = false ∧ (w.ends r.peer).alive = .dead ∧ (w.ends r.peer).everAttached = true

instance (r : Role) : Decidable (w.Deserted r) := inferInstanceAs (Decidable (_ ∧ _ ∧ _))

/-- `brook_pop_ready` and `brook_push_ready`. -/
def Ready (r : Role) : Prop := w.CanMove cap r ∨ w.Deserted r

instance (r : Role) : Decidable (w.Ready cap r) := inferInstanceAs (Decidable (_ ∨ _))

/-- The exchange of the own index. -/
def move : Role → World
  | .reader => { w with head := w.head + 1 }
  | .writer => { w with tail := w.tail + 1 }

end World

/-- Is an end asleep: it has hung its bell and not yet taken it down. -/
def Pc.asleep : Pc → Bool
  | .markResult | .markTouch _ | .recheck _ | .recheckAlive _ | .recheckEver _ | .turnedIn _ => true
  | _ => false

/-- The claim of an end is there. -/
def Pc.attached : Pc → Bool
  | .gone | .survivorLoad _ | .survivorCas _ _ => false
  | _ => true

/-- The process may be killed there. -/
def Pc.inUser : Pc → Bool
  | .gone | .attaching | .linking | .unmapped _ | .survivorLoad _ | .survivorCas _ _ => false
  | _ => true

/-- The operation that goes on has made the other end's wait condition true. -/
def Pc.made : Pc → Bool
  | .ringLoad m | .ringCas _ m | .submit _ m | .undo _ m | .unmapped m | .survivorLoad m | .survivorCas _ m => m
  | _ => false

/-- What the caller of a call that would wait asked for: `BROOK_MODE_TRY` and a timeout that is over, a timeout, or
`BROOK_MODE_BLOCK`. -/
inductive Waiting where
  | giveUp
  | again
  | block
deriving DecidableEq

/-- What may happen. -/
inductive Event where
  /-- nobody holds the brook any more, and the next open makes a new one -/
  | renew
  | attach (r : Role) (strand : Nat) (streaming : Bool)
  | link (r : Role) (ok : Bool)
  | call (r : Role) (strand : Nat)
  | go (r : Role)
  | wait (r : Role) (how : Waiting)
  | submit (r : Role) (ok : Bool)
  | release (r : Role)
  | kill (r : Role)
  /-- the kernel claims a slot for a bell on its way; or it never gets there -/
  | deliver (k : Nat)
  | lose (k : Nat)
  | result (p : Nat)
  | touch (p : Nat)
  | publish (p i : Nat)
  | publishTouch (p i : Nat)
  | consume (p : Nat)
  | consumeTouch (p : Nat)

/-- A bell is rung: the pid stays, and `BROOK_BELL_RUNG` comes. -/
def ringBell (e : End) : End := { e with bell := { e.bell with rung := true } }

/-- One access of an end. -/
def go (cap : UInt32) (w : World) (r : Role) : Option World :=
  let e := w.ends r
  let o := w.ends r.peer
  match e.pc with
  | .gone | .linking | .idle | .wait | .submit _ _ => none
  | .attaching => some (w.setEnd r fun e => { e with everAttached := true, pc := .linking })
  | .look =>
    some (w.goto r (if w.CanMove cap r then .publish else if e.streaming then .wait else .checkAlive))
  | .publish => some ((w.move r).goto r (.ringLoad !decide (w.Ready cap r.peer)))
  | .ringLoad made => some (w.goto r (if o.bell.who = 0 ∨ o.bell.rung = true then .idle else .ringCas o.bell.who made))
  | .ringCas who made =>
    some (if o.bell = ⟨who, false⟩ then (w.setEnd r.peer ringBell).goto r (.submit who made) else w.goto r .idle)
  | .undo who _ =>
    some ((if o.bell = ⟨who, true⟩ then w.setEnd r.peer fun o => { o with bell := ⟨who, false⟩ } else w).goto r .idle)
  | .checkAlive => some (w.goto r (if o.alive = .dead then .checkEver else .wait))
  | .checkEver => some (w.goto r (if o.everAttached then .freeze else .wait))
  | .freeze =>
    match o.alive with
    | .dead => some ((w.setEnd r.peer fun o => { o with alive := .frozen }).goto r .idle)
    | .frozen => some (w.goto r .idle)
    | .alive => some (w.goto r .look)
  | .hang => some (w.setEnd r fun e => { e with bell := ⟨e.selfPid, false⟩, pc := .markResult })
  | .markResult => some (w.goto r (.markTouch (w.inbox e.strand).resultTail))
  | .markTouch result => some (w.goto r (.recheck ⟨result, (w.inbox e.strand).touchTail⟩))
  | .recheck m =>
    some (w.goto r (if w.CanMove cap r then .takeDown else if e.streaming then .turnedIn m else .recheckAlive m))
  | .recheckAlive m => some (w.goto r (if o.alive = .dead then .recheckEver m else .turnedIn m))
  | .recheckEver m => some (w.goto r (if o.everAttached then .takeDown else .turnedIn m))
  | .turnedIn m => if (w.inbox e.strand).Arrival m then some (w.goto r .takeDown) else none
  | .takeDown => some (w.setEnd r fun e => { e with bell := ⟨0, false⟩, pc := .look })
  | .unmapped made =>
    some (w.setEnd r fun e =>
      { e with
        alive := if e.alive = .alive then .dead else e.alive
        pc := .survivorLoad (made || !decide (w.Ready cap r.peer)) })
  | .survivorLoad made =>
    some (w.goto r (if o.bell.who = 0 ∨ o.bell.rung = true then .gone else .survivorCas o.bell.who made))
  | .survivorCas who _ =>
    some (if o.bell = ⟨who, false⟩ then { (w.setEnd r.peer ringBell).goto r .gone with flying := w.flying ++ [who] }
      else w.goto r .gone)

/-- Some end that the strand runs is asleep. -/
def World.Asleep (w : World) (p : Nat) : Prop :=
  ((w.ends .writer).strand = p ∧ (w.ends .writer).pc.asleep = true) ∨
    ((w.ends .reader).strand = p ∧ (w.ends .reader).pc.asleep = true)

instance (w : World) (p : Nat) : Decidable (w.Asleep p) := inferInstanceAs (Decidable (_ ∨ _))

def next (cap : UInt32) (w : World) : Event → Option World
  | .renew =>
    if (w.ends .writer).pc = .gone ∧ (w.ends .reader).pc = .gone then
      some { World.init with inbox := w.inbox, flying := w.flying }
    else none
  | .attach r p streaming =>
    if (w.ends r).pc = .gone ∧ (w.ends r).alive = .dead ∧ p ≠ 0 then
      some (w.setEnd r fun e =>
      { e with alive := .alive, streaming := streaming, selfPid := p, strand := p, pc := .attaching })
    else none
  | .link r ok =>
    if (w.ends r).pc = .linking then
      some (if ok then w.goto r .idle
        else w.setEnd r fun e => { e with alive := if e.alive = .alive then .dead else e.alive, pc := .gone })
    else none
  | .call r p =>
    if (w.ends r).pc = .idle ∧ p ≠ 0 then some (w.setEnd r fun e => { e with strand := p, pc := .look }) else none
  | .go r => go cap w r
  | .wait r how =>
    if (w.ends r).pc = .wait then
      some (w.goto r (match how with | .giveUp => .idle | .again => .look | .block => .hang))
    else none
  | .submit r ok =>
    match (w.ends r).pc with
    | .submit who made =>
      some (if ok then { w.goto r .idle with flying := w.flying ++ [who] } else w.goto r (.undo who made))
    | _ => none
  | .release r =>
    if (w.ends r).pc = .idle then some (w.setEnd r fun e => { e with bell := ⟨0, false⟩, pc := .unmapped false }) else
      none
  | .kill r => if (w.ends r).pc.inUser then some (w.goto r (.unmapped (w.ends r).pc.made)) else none
  | .deliver k =>
    w.flying[k]?.map fun who =>
      { w.setInbox who fun i => { i with resultTail := i.resultTail + 1, results := i.results ++ [⟨true, false⟩] } with
        flying := w.flying.eraseIdx k }
  | .lose k => w.flying[k]?.map fun _ => { w with flying := w.flying.eraseIdx k }
  | .result p =>
    some (w.setInbox p fun i => { i with resultTail := i.resultTail + 1, results := i.results ++ [⟨false, false⟩] })
  | .touch p => some (w.setInbox p fun i => { i with touchTail := i.touchTail + 1, touches := i.touches ++ [false] })
  | .publish p k =>
    some (w.setInbox p fun i => { i with results := i.results.modify k fun s => { s with published := true } })
  | .publishTouch p k => some (w.setInbox p fun i => { i with touches := i.touches.modify k fun _ => true })
  | .consume p =>
    if w.Asleep p then none
    else match (w.inbox p).results with
      | ⟨_, true⟩ :: rest => some (w.setInbox p fun i => { i with results := rest })
      | _ => none
  | .consumeTouch p =>
    if w.Asleep p then none
    else match (w.inbox p).touches with
      | true :: rest => some (w.setInbox p fun i => { i with touches := rest })
      | _ => none

def Step (cap : UInt32) (w : World) (e : Event) (w' : World) : Prop := next cap w e = some w'

end BoxOS.Brook.Sleep
