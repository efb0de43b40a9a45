import BoxOS.Lib.Runs
import Mathlib.Tactic

/-!
# The table of compiled manifests

A compiled manifest is named by a handle: the slot of the table that has it, and the slot's generation.
`manifestResolve` takes a reference through a handle, `manifestRelease` gives one back and destroys the manifest with
the last; `ManifestReleaseAllForOwner` collects the handles of a dead owner in batches of 64 and releases them. One step
is one section under the table's lock.

The objects are numbered in the order they are made, so no two have the same number. Beside the table stand the books it
is compared with: who holds a reference (`ownerRef`, `pins`), which manifests were destroyed, and how many references
the cleanups dropped.
-/

open Function (update)

namespace BoxOS.Manifest

/-- `MANIFEST_TABLE_INITIAL_CAP` -/
def tableInitialCap : Nat := 32

/-- `MANIFEST_TABLE_MAX_CAP` -/
def tableMaxCap : Nat := 2 ^ 24

/-- The size of `batch` in `ManifestReleaseAllForOwner`. -/
def batchSize : Nat := 64

/-- `MANIFEST_MAKE_HANDLE` -/
def makeHandle (slot gen : Nat) : Nat := gen * 2 ^ 32 + slot

/-- `MANIFEST_HANDLE_SLOT` -/
def handleSlot (h : Nat) : Nat := h % 2 ^ 32

/-- `MANIFEST_HANDLE_GEN` -/
def handleGen (h : Nat) : Nat := h / 2 ^ 32 % 2 ^ 32

structure ManifestSlot where
  manifest : Option Nat
  generation : Nat
  /-- `none` is `MANIFEST_SLOT_NIL` -/
  nextFree : Option Nat

/-- The fields of `CompiledManifest` that the table uses. -/
structure OwnedManifest where
  refCount : Nat
  ownerPid : Nat

/-- What became of the reference a manifest is compiled with. -/
inductive OwnerRef where
  | held
  | released
  | cleaned
  deriving DecidableEq

/-- Where `ManifestReleaseAllForOwner` is. -/
inductive Cleanup where
  | idle
  | collect
  /-- the handles still to release, and how many were collected -/
  | release (batch : List Nat) (collected : Nat)

structure TableState where
  capacity : Nat
  firstFree : Option Nat
  slots : Nat → ManifestSlot
  objects : Nat → OwnedManifest
  nextObject : Nat
  /-- per owner -/
  cleanup : Nat → Cleanup
  /-- the handle an object was given -/
  handleOf : Nat → Nat
  destroyed : List Nat
  ownerRef : Nat → OwnerRef
  /-- the retains and executions that are not released, with the handle they used -/
  pins : List (Nat × Nat)
  /-- the references the cleanups dropped of an object -/
  drops : Nat → Nat

namespace TableState

/-! ## Slots -/

/-- `slot_init_range` -/
def slotInit (newCap i : Nat) : ManifestSlot := ⟨none, 1, if i + 1 < newCap then some (i + 1) else none⟩

/-- The end of the free chain from `cur`. -/
def chainEnd (slots : Nat → ManifestSlot) : Nat → Nat → Nat
  | 0, cur => cur
  | fuel + 1, cur =>
    match (slots cur).nextFree with
    | none => cur
    | some next => chainEnd slots fuel next

variable (s : TableState)

/-- `manifest_table_grow_locked` -/
def tableGrow (newCap : Nat) (kmallocOk : Bool) : Option TableState :=
  if newCap < s.capacity then none
  else if tableMaxCap < newCap then none
  else if newCap = s.capacity then some s
  else if kmallocOk then
    let slots := fun i => if i < s.capacity then s.slots i else slotInit newCap i
    match s.firstFree with
    | none => some { s with slots := slots, capacity := newCap, firstFree := some s.capacity }
    | some first =>
      let last := chainEnd slots newCap first
      some { s with
        slots := update slots last { slots last with nextFree := some s.capacity }, capacity := newCap }
  else none

/-- The first half of `manifest_alloc_slot_locked`: a full table grows. -/
def growIfFull (kmallocOk : Bool) : Option TableState :=
  match s.firstFree with
  | none => s.tableGrow (if s.capacity * 2 % 2 ^ 32 = 0 then tableInitialCap else s.capacity * 2 % 2 ^ 32) kmallocOk
  | some _ => some s

/-- `manifest_alloc_slot_locked` -/
def allocSlot (kmallocOk : Bool) : Option (Nat × TableState) := do
  let u ← s.growIfFull kmallocOk
  let slot ← u.firstFree
  return (slot, { u with
    firstFree := (u.slots slot).nextFree
    slots := update u.slots slot { u.slots slot with nextFree := none } })

/-- `manifest_free_slot_locked` -/
def freeSlot (slot : Nat) : TableState :=
  { s with
    slots := update s.slots slot ⟨none, ((s.slots slot).generation + 1) % 2 ^ 32, s.firstFree⟩
    firstFree := some slot }

/-! ## Handles -/

/-- The section of `ManifestCompile` under the lock. -/
def manifestCompile (pid : Nat) (kmallocOk : Bool) : TableState :=
  match s.allocSlot kmallocOk with
  | none => s
  | some (slot, t) =>
    let id := t.nextObject
    { t with
      slots := update t.slots slot { t.slots slot with manifest := some id }
      objects := update t.objects id ⟨1, pid⟩
      nextObject := id + 1
      handleOf := update t.handleOf id (makeHandle slot (t.slots slot).generation)
      ownerRef := update t.ownerRef id .held }

/-- The manifest a handle names. -/
def lookup (h : Nat) : Option Nat :=
  if handleSlot h < s.capacity ∧
    (s.slots (handleSlot h)).generation = handleGen h then (s.slots (handleSlot h)).manifest
  else none

def setRefCount (id refCount : Nat) : TableState :=
  { s with objects := update s.objects id { s.objects id with refCount := refCount } }

/-- `ManifestResolve`, which is also `ManifestRetain` -/
def manifestResolve (h : Nat) : TableState :=
  match s.lookup h with
  | none => s
  | some id =>
    { s.setRefCount id (((s.objects id).refCount + 1) % 2 ^ 32) with pins := (h, id) :: s.pins }

def manifestRelease (h : Nat) : TableState :=
  match s.lookup h with
  | none => s
  | some id =>
    let t := s.setRefCount id (((s.objects id).refCount + (2 ^ 32 - 1)) % 2 ^ 32)
    if (s.objects id).refCount = 1 then { t.freeSlot (handleSlot h) with destroyed := id :: t.destroyed } else t

/-! ## The cleanup of an owner -/

/-- The slot has a manifest of this owner. -/
def ownedBy (pid slot : Nat) : Bool :=
  (s.slots slot).manifest.any fun id => decide ((s.objects id).ownerPid = pid)

/-- The handles of one batch. -/
def collectBatch (pid : Nat) : List Nat :=
  (((List.range s.capacity).filter (s.ownedBy pid)).take batchSize).map fun i =>
    makeHandle i (s.slots i).generation

/-- The reference of the owner is given back; what for is written in the books. -/
def releaseOwned (h : Nat) (ref : OwnerRef) : TableState :=
  match s.lookup h with
  | none => s
  | some id => { s.manifestRelease h with ownerRef := update s.ownerRef id ref }

def setCleanup (pid : Nat) (c : Cleanup) : TableState :=
  { s with cleanup := update s.cleanup pid c }

/-- The next section of `ManifestReleaseAllForOwner`. -/
def cleanupStep (pid : Nat) : Option TableState :=
  match s.cleanup pid with
  | .idle => none
  | .collect => some (s.setCleanup pid (.release (s.collectBatch pid) (s.collectBatch pid).length))
  | .release [] collected => some (s.setCleanup pid (if collected = batchSize then .collect else .idle))
  | .release (h :: rest) collected =>
    let t := (s.releaseOwned h .cleaned).setCleanup pid (.release rest collected)
    match s.lookup h with
    | none => some t
    | some id => some { t with drops := update t.drops id (t.drops id + 1) }

end TableState

/-! ## Runs -/

inductive TableEvent where
  | compile (pid : Nat) (kmallocOk : Bool)
  | resolve (h : Nat)
  | releasePin (h id : Nat)
  | releaseOwner (pid h : Nat)
  | die (pid : Nat)
  | cleanup (pid : Nat)
  deriving DecidableEq

/-- One section. A handle is a 64-bit word, a retain or an execution is released once, an owner releases handles it
compiled, and a dead one does nothing any more. -/
def TableState.next (s : TableState) : TableEvent → Option TableState
  | .compile pid kmallocOk =>
    match s.cleanup pid with
    | .idle => some (s.manifestCompile pid kmallocOk)
    | _ => none
  | .resolve h => if h < 2 ^ 64 then some (s.manifestResolve h) else none
  | .releasePin h id =>
    if (h, id) ∈ s.pins then some { s.manifestRelease h with pins := s.pins.erase (h, id) } else none
  | .releaseOwner pid h =>
    match s.cleanup pid with
    | .idle =>
      if (List.range s.nextObject).any fun id => decide (s.handleOf id = h ∧ (s.objects id).ownerPid = pid) then
        some (s.releaseOwned h .released)
      else none
    | _ => none
  | .die pid =>
    match s.cleanup pid with
    | .idle => some (s.setCleanup pid .collect)
    | _ => none
  | .cleanup pid => s.cleanupStep pid

def emptyTable : TableState :=
  ⟨0, none, fun _ => ⟨none, 0, none⟩, fun _ => ⟨0, 0⟩, 0, fun _ => .idle, fun _ => 0, [], fun _ => .released, [],
    fun _ => 0⟩

def manifestSubsystemInit : TableState := (emptyTable.tableGrow tableInitialCap true).getD emptyTable

end BoxOS.Manifest
