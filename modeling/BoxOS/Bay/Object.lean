import BoxOS.Lib.Holdings

/-!
# Bays: shared memory by tag

`BayOpenInternal`, `BayReleaseInternal` and `BayCleanupCabin` of `bay.c`, cut into their sections under a bucket lock or
a bay lock and what lies between them: `tme_keyid_alloc` and `tme_keyid_free`, the mapping of the pages, and their
release. Any number of calls run at the same time, and each step is one section of one call.

The buckets are one list of objects, a bucket being the part of it whose tags have its hash; the claims of all cabins
are one list, and so is what is mapped in them. Page tables and statistics are left out.
-/

open Function (update)

namespace BoxOS.Bay

open Lib

/-- The errors that the calls return. -/
inductive BayError where
  | invalidArgument
  | tagNotFound
  | unsupported
  | quotaExceeded
  | noMemory
  | permissionDenied
  | ioError
  deriving DecidableEq

/-- What a call returns: for an open the address and the size. -/
inductive BayResult where
  | ok
  | opened (userVa size : Nat)
  | error (e : BayError)
  deriving DecidableEq

/-- `BayObject` besides its tag and its count; the last two fields are for the proofs: the cabin of the creator, and how
often `bay_free_chunks` has freed the pages. -/
structure BayData where
  tmeKeyid : Nat
  totalSize : Nat
  userSize : Nat
  chunkSize : Nat
  createPid : Nat
  createCabin : Nat
  pagesFreed : Nat

def bayFreeChunks (e : Entry UInt16 BayData) : Entry UInt16 BayData :=
  { e with data := { e.data with pagesFreed := e.data.pagesFreed + 1 } }

/-- `BayClaim`, and the cabin whose list it is in; also where a bay is mapped. -/
structure BayClaim where
  cabin : Nat
  bay : Nat
  userVaBase : Nat
  deriving DecidableEq

/-- Of a cabin: `bay_va_next`, `tme_keyids_held` and `strand_count`; `born` says that it has been made. -/
structure Cabin where
  bayVaNext : Nat
  tmeKeyidsHeld : Nat
  strandCount : Nat
  born : Bool

def tmeQuotaPerProc : Nat := 8

/-- `CABIN_BAY_BASE` and `CABIN_BAY_END`. -/
def cabinBayBase : Nat := 0x0000400100000000

@[inherit_doc cabinBayBase]
def cabinBayEnd : Nat := 0x0000600000000000

/-- `PMM_PAGE_SIZE` and `BAY_HUGE_SIZE`. -/
def pmmPageSize : Nat := 4096

@[inherit_doc pmmPageSize]
def bayHugeSize : Nat := 2 * 1024 * 1024

/-- `g_tme`: whether `mk_active`, and `max_keyid`. -/
structure Tme where
  mkActive : Bool
  maxKeyid : Nat

/-- What `bay_alloc_chunks` makes of a size: the size of a chunk, and all chunks together. -/
def bayAllocChunks (size : Nat) (huge : Bool) : Nat × Nat :=
  let cs := if size ≥ bayHugeSize ∧ huge then bayHugeSize else pmmPageSize
  (cs, (size + cs - 1) % 2 ^ 64 / cs % 2 ^ 32 * cs)

/-- Where a creation goes on after it has given everything back: it fails, or it has lost the race and looks again. -/
inductive After where
  | fail (e : BayError)
  | again

/-- What a call is about to do. `home` is the cabin of the bay's creator and is for the proofs. -/
inductive BayPc where
  /-- `BayOpenInternal`: looks for the tag -/
  | lookup
  /-- counts a key for the cabin -/
  | charge
  | allocKey
  /-- allocates pages and the object -/
  | build (key : Nat)
  /-- looks for a winner, else links the object -/
  | insert (key chunkSize totalSize : Nat)
  | freeKey (key : Nat) (after : After)
  /-- gives the count back -/
  | uncharge (after : After)
  /-- looks for the tag after a lost race -/
  | again
  | reserve (bay : Nat)
  | map (bay va : Nat)
  | link (bay va : Nat)
  /-- gives the reference up -/
  | drop (bay : Nat) (res : BayResult)
  /-- `bay_drop_ref_locked`, after the last reference -/
  | freeChunks (bay key pid home : Nat) (res : BayResult)
  | freeBayKey (key pid home : Nat) (res : BayResult)
  | giveBack (pid home : Nat) (res : BayResult)
  /-- `BayReleaseInternal`: unlinks the claim -/
  | unlink (va : Nat)
  /-- `BayCleanupCabin`: takes the list of claims -/
  | take
  | unmap (claim : BayClaim)
  | done (res : BayResult)

/-- The kinds of call. -/
inductive BayCall where
  | open
  | release
  | cleanup
  deriving DecidableEq

/-- A call in progress: the process and its cabin, the arguments of an open, and the claims that a cleanup still has to
release. -/
structure BayOp where
  call : BayCall
  pid : Nat
  cabin : Nat
  tag : UInt16
  size : Nat
  create : Bool
  encrypted : Bool
  todo : List BayClaim
  pc : BayPc

/-- What the surroundings decide in a step: an allocation, a mapping or a permission that fails, whether pages of 2 MB
can be had, and whether the processor can give a key id a new key. -/
structure Choice where
  fail : Option BayError := none
  huge : Bool := false
  rekeyed : Bool := true

/-- The state that the calls share. `procs` is the process table with the cabin of each process. The last three fields
are for the proofs: how often each key id was handed out and freed, and how many arrays of pages are allocated. -/
structure BayState where
  bays : Registry UInt16 BayData
  claims : List BayClaim
  maps : List BayClaim
  cabin : Nat → Cabin
  procs : Nat → Option Nat
  keyUsed : Nat → Bool
  keyAllocs : Nat → Nat
  keyFrees : Nat → Nat
  chunksOut : Nat

namespace BayState

variable (s : BayState)

def setCabin (k : Nat) (c : Cabin) : BayState := { s with cabin := update s.cabin k c }

def data (s : BayState) (p : Nat) : Option BayData := s.bays.entries[p]?.map (·.data)

/-- `bay->tme_keyid`. -/
def keyOf (p : Nat) : Nat := ((s.data p).map (·.tmeKeyid)).getD 0

/-- The cabin of the creator. -/
def homeOf (p : Nat) : Nat := ((s.data p).map (·.createCabin)).getD 0

/-- A key id is handed out. -/
def takeKey (k : Nat) : BayState :=
  { s with
    keyUsed := update s.keyUsed k true
    keyAllocs := update s.keyAllocs k (s.keyAllocs k + 1) }

/-- `tme_keyid_alloc`: the first key id that is not in use. -/
def tmeKeyidAlloc (tme : Tme) (s : BayState) : Option (Nat × BayState) :=
  ((List.range' 1 tme.maxKeyid).find? fun k => !s.keyUsed k).map fun k => (k, s.takeKey k)

/-- `tme_keyid_free` of a key id that was handed out; one that cannot get a new key stays in use. -/
def tmeKeyidFree (k : Nat) (rekeyed : Bool) : BayState :=
  { s with
    keyUsed := if rekeyed then update s.keyUsed k false else s.keyUsed
    keyFrees := update s.keyFrees k (s.keyFrees k + 1) }

/-- `if (cabin->tme_keyids_held > 0) cabin->tme_keyids_held--`. -/
def uncharge (k : Nat) : BayState :=
  s.setCabin k { s.cabin k with tmeKeyidsHeld := (s.cabin k).tmeKeyidsHeld - 1 }

/-- The end of `bay_drop_ref_locked`: the count of the cabin of the process with the creator's pid. -/
def giveBack (pid : Nat) : BayState :=
  match s.procs pid with
  | none => s
  | some k => s.uncharge k

/-- `bay_reserve_user_va`; the alignment is the size of a chunk. -/
def reserveUserVa (k size align : Nat) : Option (Nat × BayState) :=
  let cur := ((s.cabin k).bayVaNext + align - 1) / align * align
  if size > cabinBayEnd - cur then none
  else some (cur, s.setCabin k { s.cabin k with bayVaNext := cur + size })

end BayState

namespace BayOp

/-- The next claim of a cleanup, or the end. -/
def finish (op : BayOp) (res : BayResult) : BayOp :=
  match op.todo with
  | [] => { op with pc := .done res }
  | c :: cs => { op with todo := cs, pc := .unmap c }

def goto (op : BayOp) (pc : BayPc) : BayOp := { op with pc := pc }

/-- After a creation has given everything back. -/
def after (op : BayOp) : After → BayOp
  | .fail e => op.goto (.done (.error e))
  | .again => op.goto .again

/-- The checks on a bay that was found, and the reference to it. -/
def found (s : BayState) (op : BayOp) (p : Nat) : BayState × BayOp :=
  if op.encrypted = decide (s.keyOf p ≠ 0) then ({ s with bays := s.bays.addRef p }, op.goto (.reserve p))
  else (s, op.goto (.done (.error .invalidArgument)))

/-- `bay_drop_ref_locked` up to the release of the lock. -/
def dropRef (s : BayState) (op : BayOp) (p : Nat) (res : BayResult) : BayState × BayOp :=
  let bays := s.bays.dropRef p
  let pid := ((s.data p).map (·.createPid)).getD 0
  ({ s with bays := bays },
    if bays.refsOf p = 0 then op.goto (.freeChunks p (s.keyOf p) pid (s.homeOf p) res) else op.finish res)

/-- The bay that the next section of a call takes a reference to, when it finds one. -/
def attaches (s : BayState) (op : BayOp) : Option Nat :=
  match op.pc with
  | .lookup | .again => (s.bays.find op.tag).filter fun p => op.encrypted = decide (s.keyOf p ≠ 0)
  | _ => none

/-- The next section of a call. -/
def step (tme : Tme) (s : BayState) (op : BayOp) (c : Choice) : BayState × BayOp :=
  match op.pc with
  | .lookup =>
    match s.bays.find op.tag with
    | some p => found s op p
    | none =>
      if op.create = false then (s, op.goto (.done (.error .tagNotFound)))
      else if op.size = 0 then (s, op.goto (.done (.error .invalidArgument)))
      else if op.encrypted = false then (s, op.goto (.build 0))
      else if tme.mkActive = false then (s, op.goto (.done (.error .unsupported)))
      else (s, op.goto .charge)
  | .charge =>
    if (s.cabin op.cabin).tmeKeyidsHeld ≥ tmeQuotaPerProc then (s, op.goto (.done (.error .quotaExceeded)))
    else
      (s.setCabin op.cabin { s.cabin op.cabin with tmeKeyidsHeld := (s.cabin op.cabin).tmeKeyidsHeld + 1 },
        op.goto .allocKey)
  | .allocKey =>
    match s.tmeKeyidAlloc tme with
    | none => (s, op.goto (.uncharge (.fail .noMemory)))
    | some (k, s) => (s, op.goto (.build k))
  | .build key =>
    match c.fail with
    | some e => if key = 0 then (s, op.goto (.done (.error e))) else (s, op.goto (.freeKey key (.fail e)))
    | none =>
      let (cs, total) := bayAllocChunks op.size c.huge
      ({ s with chunksOut := s.chunksOut + 1 }, op.goto (.insert key cs total))
  | .insert key cs total =>
    match s.bays.find op.tag with
    | some _ =>
      ({ s with chunksOut := s.chunksOut - 1 }, op.goto (if key = 0 then .again else .freeKey key .again))
    | none =>
      let p := s.bays.entries.length
      ({ s with bays := (s.bays.insert op.tag ⟨key, total, op.size, cs, op.pid, op.cabin, 0⟩).addRef p },
        op.goto (.reserve p))
  | .freeKey key next => (s.tmeKeyidFree key c.rekeyed, op.goto (.uncharge next))
  | .uncharge next => (s.uncharge op.cabin, op.after next)
  | .again =>
    match s.bays.find op.tag with
    | some p => found s op p
    | none => (s, op.goto (.done (.error .tagNotFound)))
  | .reserve p =>
    let d := (s.data p).getD ⟨0, 0, 0, 0, 0, 0, 0⟩
    match s.reserveUserVa op.cabin d.totalSize d.chunkSize with
    | none => (s, op.goto (.drop p (.error .noMemory)))
    | some (va, s) => (s, op.goto (.map p va))
  | .map p va =>
    match c.fail with
    | some e => (s, op.goto (.drop p (.error e)))
    | none => ({ s with maps := ⟨op.cabin, p, va⟩ :: s.maps }, op.goto (.link p va))
  | .link p va =>
    ({ s with claims := ⟨op.cabin, p, va⟩ :: s.claims },
      op.finish (.opened va (((s.data p).map (·.userSize)).getD 0)))
  | .drop p res => dropRef s op p res
  | .freeChunks p key pid home res =>
    ({ s with bays := s.bays.modify p bayFreeChunks, chunksOut := s.chunksOut - 1 },
      if key = 0 then op.finish res else op.goto (.freeBayKey key pid home res))
  | .freeBayKey key pid home res => (s.tmeKeyidFree key c.rekeyed, op.goto (.giveBack pid home res))
  | .giveBack pid _ res => (s.giveBack pid, op.finish res)
  | .unlink va =>
    match s.claims.find? fun c => decide (c.cabin = op.cabin ∧ c.userVaBase = va) with
    | none => (s, op.goto (.done (.error .tagNotFound)))
    | some claim =>
      ({ s with claims := s.claims.eraseP fun c => decide (c.cabin = op.cabin ∧ c.userVaBase = va) },
        op.goto (.unmap claim))
  | .take =>
    ({ s with claims := s.claims.filter fun c => !decide (c.cabin = op.cabin) },
      { op with todo := s.claims.filter fun c => decide (c.cabin = op.cabin) }.finish .ok)
  | .unmap claim => ({ s with maps := s.maps.erase claim }, op.goto (.drop claim.bay .ok))
  | .done _ => (s, op)

end BayOp

/-- The shared state and the calls in progress. -/
structure BaySystem where
  shared : BayState
  ops : List BayOp

/-- What can happen: a process opens, releases or cleans up, a call does its next section, a cabin is made with its
first process, a strand joins a cabin, and a process goes. -/
inductive BayEvent where
  | open (pid : Nat) (tag : UInt16) (size : Nat) (create encrypted : Bool)
  | release (pid va : Nat)
  | cleanup (cabin : Nat)
  | step (i : Nat) (c : Choice)
  | newCabin (pid cabin : Nat)
  | strand (pid cabin : Nat)
  | exit (pid : Nat)

namespace BaySystem

/-- `BayInit`, before there is any process. -/
def init : BaySystem where
  shared :=
    { bays := .empty, claims := [], maps := [], cabin := fun _ => ⟨cabinBayBase, 0, 0, false⟩, procs := fun _ => none,
      keyUsed := fun _ => false, keyAllocs := fun _ => 0, keyFrees := fun _ => 0, chunksOut := 0 }
  ops := []

def call (s : BaySystem) (op : BayOp) : BaySystem := { s with ops := s.ops ++ [op] }

def next (tme : Tme) (s : BaySystem) : BayEvent → BaySystem
  | .open pid tag size create encrypted =>
    match s.shared.procs pid with
    | none => s
    | some cabin => s.call ⟨.open, pid, cabin, tag, size, create, encrypted, [], .lookup⟩
  | .release pid va =>
    match s.shared.procs pid with
    | none => s
    | some cabin => s.call ⟨.release, pid, cabin, 0, 0, false, false, [], .unlink va⟩
  | .cleanup cabin => s.call ⟨.cleanup, 0, cabin, 0, 0, false, false, [], .take⟩
  | .step i c =>
    match s.ops[i]? with
    | none => s
    | some op =>
      let (shared, op') := op.step tme s.shared c
      ⟨shared, s.ops.set i op'⟩
  | .newCabin pid k =>
    if (s.shared.procs pid).isSome ∨ (s.shared.cabin k).born then s
    else
      { s with shared := { s.shared with
          cabin := update s.shared.cabin k { s.shared.cabin k with strandCount := 1, born := true }
          procs := update s.shared.procs pid (some k) } }
  | .strand pid k =>
    if (s.shared.procs pid).isSome ∨ (s.shared.cabin k).strandCount = 0 then s
    else
      { s with shared := { s.shared with
          cabin := update s.shared.cabin k
            { s.shared.cabin k with strandCount := (s.shared.cabin k).strandCount + 1 }
          procs := update s.shared.procs pid (some k) } }
  | .exit pid =>
    match s.shared.procs pid with
    | none => s
    | some k =>
      { s with shared := { s.shared with
          cabin := update s.shared.cabin k
            { s.shared.cabin k with strandCount := (s.shared.cabin k).strandCount - 1 }
          procs := update s.shared.procs pid none } }

/-- One event. -/
def Step (tme : Tme) (s : BaySystem) (e : BayEvent) (s' : BaySystem) : Prop := s' = s.next tme e

end BaySystem

end BoxOS.Bay
