import BoxOS.Lib.Runs
import Mathlib.Tactic

/-!
# The braid array

A block lies on up to eight disks. `braidWriteBlock` and `braidWriteBlockTagged` write as many copies as the mode asks
for, `braidReadBlock` and `braidReadBlockTagged` take the first copy that can be read, `braidAutoHeal` the one most
disks agree on. Every raw read and write of a disk succeeds, or fails without effect, as the environment says.

A block is named by the address its callers pass, the sector of a block of the volume; the eight sectors from there on
are one cell of a disk. With more than eight disks counted the loops of the source run past their arrays, and the model
says nothing about them.
-/

open Function (update)

namespace BoxOS.TagFS

def braidMaxDisks : Nat := 8

inductive BraidMode where
  | mirror
  | stripe
  | weave
  deriving DecidableEq

inductive BraidError where
  | outOfRange
  | deviceNotReady
  | io
  | corrupted
  | invalidArgument
  deriving DecidableEq

structure BraidState (β : Type) where
  mode : BraidMode
  diskCount : Nat
  activeDisks : Nat
  online : Nat → Bool
  /-- what a disk holds at an address -/
  copy : Nat → Nat → β
  /-- the data of the last write of a block that returned OK -/
  last : Nat → Option β

/-- `BoxHashContent` of a block, and the first byte of that of a tag context. -/
structure BraidEnv (β τ : Type) where
  hash : β → Nat
  tagByte : τ → Nat

def setCopy {β : Type} (copy : Nat → Nat → β) (disk block : Nat) (d : β) : Nat → Nat → β :=
  update copy disk (update (copy disk) block d)

section

variable {β τ : Type}

def braidComputeTagDisk (env : BraidEnv β τ) (tag : Option τ) (diskCount : Nat) : Nat :=
  match tag with
  | none => 0
  | some t => if diskCount = 0 then 0 else env.tagByte t % diskCount

/-- The copies a write of the mode makes. -/
def BraidMode.copies : BraidMode → Nat
  | .mirror => 2
  | .stripe => 1
  | .weave => 3

namespace BraidState

/-! ## Disks -/

variable (s : BraidState β)

def braidAddDisk (disk : Nat) : Except BraidError (BraidState β) :=
  if braidMaxDisks ≤ disk then .error .outOfRange
  else .ok { s with
    online := update s.online disk true
    diskCount := (s.diskCount + 1) % 2 ^ 8
    activeDisks := (s.activeDisks + 1) % 2 ^ 8 }

def braidRemoveDisk (disk : Nat) : Except BraidError (BraidState β) :=
  if braidMaxDisks ≤ disk then .error .outOfRange
  else if s.online disk = false then .error .deviceNotReady
  else .ok { s with
    online := update s.online disk false
    activeDisks := (s.activeDisks + (2 ^ 8 - 1)) % 2 ^ 8 }

def braidSetDiskOnline (disk : Nat) (online : Bool) : Except BraidError (BraidState β) :=
  if braidMaxDisks ≤ disk then .error .outOfRange
  else .ok { s with
    online := update s.online disk online
    activeDisks := (s.activeDisks + if online then 1 else 2 ^ 8 - 1) % 2 ^ 8 }

/-- `online[i]` of the snapshot an operation takes. -/
def inReach (i : Nat) : Bool := decide (i < s.diskCount) && s.online i

/-! ## Reads -/

/-- The loop of `BraidReadBlock`: at most two disks are tried. -/
def readLoop (env : BraidEnv β τ) (s : BraidState β) (block : Nat) (expected : Option Nat) (readOk : Nat → Bool) :
    List Nat → Nat → BraidError → Except BraidError β
  | [], _, result => .error result
  | i :: rest, tried, result =>
    if tried < 2 then
      if s.inReach i then
        if readOk i = false then readLoop env s block expected readOk rest (tried + 1) .io
        else if expected.any (fun h => env.hash (s.copy i block) ≠ h) then
          readLoop env s block expected readOk rest (tried + 1) .corrupted
        else .ok (s.copy i block)
      else readLoop env s block expected readOk rest tried result
    else .error result

variable (env : BraidEnv β τ)

def braidReadBlock (s : BraidState β) (block : Nat) (expected : Option Nat)
    (readOk : Nat → Bool) : Except BraidError β :=
  readLoop env s block expected readOk (List.range s.diskCount) 0 .io

def braidReadBlockTagged (s : BraidState β) (block : Nat) (tag : Option τ)
    (readOk : Nat → Bool) : Except BraidError β :=
  let preferred := braidComputeTagDisk env tag s.diskCount
  if s.inReach preferred && readOk preferred then .ok (s.copy preferred block)
  else
    match (List.range s.diskCount).find? fun i => decide (i ≠ preferred) && s.inReach i && readOk i with
    | some i => .ok (s.copy i block)
    | none => .error .io

/-! ## Writes -/

/-- The loop that writes copies to the disks `use` admits until `required` are written; how many, and the disks. -/
def writeLoop (block : Nat) (d : β) (writeOk use : Nat → Bool) (required : Nat) :
    List Nat → Nat → (Nat → Nat → β) → Nat × (Nat → Nat → β)
  | [], done, copy => (done, copy)
  | i :: rest, done, copy =>
    if done < required then
      if use i && writeOk i then writeLoop block d writeOk use required rest (done + 1) (setCopy copy i block d)
      else writeLoop block d writeOk use required rest done copy
    else (done, copy)

/-- `BraidWriteBlock`; `none` is the division by zero of an array without disks. -/
def braidWriteBlock (block : Nat) (d : β) (writeOk : Nat → Bool) :
    Option (Except BraidError (BraidState β)) :=
  match s.mode with
  | .stripe =>
    if s.diskCount = 0 then none
    else
      let target := block % s.diskCount % 2 ^ 8
      if s.inReach target && writeOk target then some (.ok { s with copy := setCopy s.copy target block d })
      else some (.error .io)
  | mode =>
    let (done, copy) := writeLoop block d writeOk s.inReach mode.copies (List.range s.diskCount) 0 s.copy
    if done = 0 then some (.error .io) else some (.ok { s with copy := copy })

def braidWriteBlockTagged (s : BraidState β) (block : Nat) (d : β) (tag : Option τ)
    (writeOk : Nat → Bool) : Except BraidError (BraidState β) :=
  if tag.isNone then .error .invalidArgument
  else
    let primary := braidComputeTagDisk env tag s.diskCount
    let first := s.inReach primary && writeOk primary
    let copy := if first then setCopy s.copy primary block d else s.copy
    match s.mode with
    | .stripe => if first then .ok { s with copy := copy } else .error .io
    | mode =>
      let (done, copy) := writeLoop block d writeOk (fun i => decide (i ≠ primary) && s.inReach i) mode.copies
        (List.range s.diskCount) (if first then 1 else 0) copy
      if done = 0 then .error .io else .ok { s with copy := copy }

/-! ## Healing -/

/-- The disks that agree with a disk. -/
def agreement (s : BraidState β) (block : Nat) (readable : Nat → Bool) (i : Nat) : Nat :=
  (List.range s.diskCount).countP fun j =>
    readable j && decide (env.hash (s.copy i block) = env.hash (s.copy j block))

/-- The loop that picks the copy most disks agree on. -/
def bestLoop (count : Nat → Nat) (readable : Nat → Bool) : List Nat → Option Nat → Nat → Option Nat
  | [], best, _ => best
  | i :: rest, best, bestCount =>
    if readable i && decide (bestCount < count i) then bestLoop count readable rest (some i) (count i)
    else bestLoop count readable rest best bestCount

def braidAutoHeal (s : BraidState β) (block : Nat) (readOk writeOk : Nat → Bool) :
    Except BraidError (BraidState β) :=
  let readable := fun i => s.inReach i && readOk i
  match bestLoop (agreement env s block readable) readable (List.range s.diskCount) none 0 with
  | none => .error .io
  | some best =>
    let heals := fun i => decide (i ≠ best) && s.inReach i && writeOk i &&
      (!readable i || decide (env.hash (s.copy i block) ≠ env.hash (s.copy best block)))
    .ok { s with copy := fun i => if heals i then update (s.copy i) block (s.copy best block) else s.copy i }

def braidIsHealthy : Bool :=
  match s.mode with
  | .mirror => 2 ≤ s.activeDisks
  | .stripe => 1 ≤ s.activeDisks
  | .weave => 3 ≤ s.activeDisks

end BraidState

/-! ## Runs -/

inductive BraidEvent (β τ : Type) where
  | addDisk (disk : Nat)
  | removeDisk (disk : Nat)
  | setDiskOnline (disk : Nat) (online : Bool)
  | writeBlock (block : Nat) (d : β) (writeOk : Nat → Bool)
  | writeBlockTagged (block : Nat) (d : β) (tag : Option τ) (writeOk : Nat → Bool)
  | readBlock (block : Nat) (expected : Option Nat) (readOk : Nat → Bool)
  | readBlockTagged (block : Nat) (tag : Option τ) (readOk : Nat → Bool)
  | autoHeal (block : Nat) (readOk writeOk : Nat → Bool)

/-- The state after a call. -/
def BraidState.after (s : BraidState β) : Except BraidError (BraidState β) → BraidState β
  | .ok t => t
  | .error _ => s

/-- The state after a write. -/
def BraidState.afterWrite (s : BraidState β) (block : Nat) (d : β) : Except BraidError (BraidState β) → BraidState β
  | .ok t => { t with last := update s.last block (some d) }
  | .error _ => s

/-- One call; `none` where it traps. -/
def BraidState.next (env : BraidEnv β τ) (s : BraidState β) : BraidEvent β τ → Option (BraidState β)
  | .addDisk disk => some (s.after (s.braidAddDisk disk))
  | .removeDisk disk => some (s.after (s.braidRemoveDisk disk))
  | .setDiskOnline disk online => some (s.after (s.braidSetDiskOnline disk online))
  | .writeBlock block d writeOk => (s.braidWriteBlock block d writeOk).map (s.afterWrite block d)
  | .writeBlockTagged block d tag writeOk =>
    some (s.afterWrite block d (BraidState.braidWriteBlockTagged env s block d tag writeOk))
  | .readBlock .. => some s
  | .readBlockTagged .. => some s
  | .autoHeal block readOk writeOk => some (s.after (BraidState.braidAutoHeal env s block readOk writeOk))

/-- After `BraidInit`. -/
def braidInit (mode : BraidMode) (copy : Nat → Nat → β) : BraidState β :=
  ⟨mode, 0, 0, fun _ => false, copy, fun _ => none⟩

end

end BoxOS.TagFS
