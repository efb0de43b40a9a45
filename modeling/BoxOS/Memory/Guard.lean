import BoxOS.Memory.MemTag

/-!
# Guard tags

The part of `memtag.c` that decides which cabin may use which region: guard flags, the masks of the cabins, the cabins a
region is attached to, and the sweeps that revoke and restore attachments. A sweep finds its regions by a query and
looks at a bounded number of regions, attachments, tags and processes. What is written into page tables and published as
events is left out: an attachment has its pages present when it is active.
-/

namespace BoxOS.Memory

open MemTagBitmapIndex

/-- `MEMTAG_MASK_BITS`. -/
def maskBits : Nat := 1024

/-- `MEMTAG_ENFORCE_REGIONS_PER_CALL`. -/
def enforceRegionsPerCall : Nat := 256

/-- `MEMTAG_ENFORCE_ATTACHES_PER_REGION`. -/
def enforceAttachesPerRegion : Nat := 32

/-- `MEMTAG_GUARDS_PER_REGION`. -/
def guardsPerRegion : Nat := 64

/-- `MEMTAG_SWEEP_PIDS_PER_CALL`. -/
def sweepPidsPerCall : Nat := 256

/-- `active_memtags`: the bits of a cabin's mask. -/
abbrev TagMask := UInt16 → Bool

def maskHas (mask : TagMask) (t : UInt16) : Bool := decide (t.toNat < maskBits) && mask t

/-- `MaskSetAtomic` on a tag below `MEMTAG_MASK_BITS`. -/
def maskSet (mask : TagMask) (t : UInt16) : TagMask := fun u => if u = t then true else mask u

/-- `MaskClearAtomic` on a tag below `MEMTAG_MASK_BITS`. -/
def maskClear (mask : TagMask) (t : UInt16) : TagMask := fun u => if u = t then false else mask u

/-- A live process: its pid and the page tables of its cabin, if it has one. Strands of one cabin share these. -/
structure Proc where
  pid : Nat
  cabin : Option Nat

/-- The live processes in the order of the process table; no two have the same pid. -/
structure ProcTable where
  procs : List Proc
  pids : (procs.map (·.pid)).Nodup

/-- `process_find_ref`. -/
def ProcTable.find (tbl : ProcTable) (pid : Nat) : Option Proc := tbl.procs.find? fun p => decide (p.pid = pid)

/-- `process_snapshot_pids`. -/
def ProcTable.snapshotPids (tbl : ProcTable) (max : Nat) : List Nat := (tbl.procs.take max).map (·.pid)

namespace MemRegionAttach

/-- What `AttachLookup` compares. -/
def key (a : MemRegionAttach) : Nat × Nat := (a.ctx, a.vaBase)

end MemRegionAttach

/-- The attachment that `AttachLookup` finds gets another state. -/
def setFirst (ctx va : Nat) (st : AttachState) : List MemRegionAttach → List MemRegionAttach
  | [] => []
  | a :: as => if a.ctx = ctx ∧ a.vaBase = va then { a with state := st } :: as else a :: setFirst ctx va st as

/-- The list after `MemRegionRegistryAttach`: an attachment at the same place is made active again. -/
def attachAt (ctx va : Nat) (as : List MemRegionAttach) : List MemRegionAttach :=
  if as.any (fun a => decide (a.key = (ctx, va))) then setFirst ctx va .active as else ⟨ctx, va, .active⟩ :: as

/-- The list after `MemRegionRegistryDetach`. -/
def detachAt (ctx va : Nat) (as : List MemRegionAttach) : List MemRegionAttach :=
  as.eraseP fun a => decide (a.key = (ctx, va))

namespace MemTagState

/-! ## The registries -/

variable (s : MemTagState)

/-- `MemTagRegistryIsGuard`. -/
def isGuard (t : UInt16) : Bool := (s.tags[t.toNat]?.map (·.guard)).getD false

/-- `MemTagRegistryMarkGuard` and `MemTagRegistryClearGuard`. -/
def markGuard (t : UInt16) (guard : Bool) : MemTagState :=
  { s with tags := s.tags.modify t.toNat fun e => { e with guard := guard } }

/-- An active region's list of attachments is changed. -/
def modifyAttaches (id : Nat) (f : List MemRegionAttach → List MemRegionAttach) : MemTagState :=
  match s.region id with
  | none => s
  | some r => s.setSlot id { r with attaches := f r.attaches }

/-- `MemRegionRegistrySnapshotAttachs`. -/
def snapshotAttachs (id max : Nat) : List MemRegionAttach :=
  match s.region id with
  | none => []
  | some r => r.attaches.take max

/-- `MemRegionRegistrySetAttachState`. -/
def setAttachState (id ctx va : Nat) (st : AttachState) : MemTagState :=
  s.modifyAttaches id (setFirst ctx va st)

/-- `MemRegionRegistryAttach`. -/
def registryAttach (id ctx va pages : Nat) : MemTagState :=
  if ctx = 0 ∨ pages = 0 then s else s.modifyAttaches id (attachAt ctx va)

/-- `MemRegionRegistryDetach`. -/
def registryDetach (id ctx va : Nat) : MemTagState :=
  if ctx = 0 then s else s.modifyAttaches id (detachAt ctx va)

/-! ## Guards -/

def guardsOnRegion (id max : Nat) : List UInt16 :=
  ((s.registryListTags id guardsPerRegion).filter s.isGuard).take max

variable (mask : TagMask)

def cabinSatisfiesRegion (id : Nat) : Bool :=
  (s.guardsOnRegion id guardsPerRegion).all (maskHas mask)

/-- One attachment of the snapshot in `EnforceForCabinTag`. -/
def enforceAttach (ctx id : Nat) (revoke : Bool) (s : MemTagState) (att : MemRegionAttach) :
    MemTagState :=
  if att.ctx ≠ ctx then s
  else if revoke then
    if att.state ≠ .active then s
    else if s.cabinSatisfiesRegion mask id then s
    else s.setAttachState id att.ctx att.vaBase .revoked
  else
    if att.state ≠ .revoked then s
    else if s.cabinSatisfiesRegion mask id = false then s
    else s.setAttachState id att.ctx att.vaBase .active

/-- One region in `EnforceForCabinTag`. -/
def enforceRegion (ctx : Nat) (revoke : Bool) (s : MemTagState) (id : Nat) : MemTagState :=
  (s.snapshotAttachs id enforceAttachesPerRegion).foldl (enforceAttach mask ctx id revoke) s

def enforceForCabinTag (ctx : Nat) (t : UInt16) (revoke : Bool) (al : Allocs) :
    MemTagState :=
  let (reply, index) := s.index.queryCore (.and [t]) enforceRegionsPerCall al
  (reply.out.take reply.count).foldl (enforceRegion mask ctx revoke) { s with index := index }

end MemTagState

/-- The registries and the masks of the cabins. -/
structure GuardState where
  mem : MemTagState
  mask : Nat → TagMask

namespace GuardState

variable (physDomain : Nat → Nat) (tbl : ProcTable)
variable (s : GuardState)

/-- One cabin has another mask. -/
def setMask (ctx : Nat) (mask : TagMask) : GuardState :=
  { s with mask := fun c => if c = ctx then mask else s.mask c }

/-- `EnforceForCabinTag` with the mask as it is. -/
def enforce (ctx : Nat) (t : UInt16) (revoke : Bool) (al : Allocs) : GuardState :=
  { s with mem := s.mem.enforceForCabinTag (s.mask ctx) ctx t revoke al }

/-- One pid of `MemTagSweepGuard`; `al` says for each process what the allocations of its query do. -/
def sweepPid (t : UInt16) (guardOn : Bool) (al : Nat → Allocs) (s : GuardState) (pid : Nat) : GuardState :=
  match (tbl.find pid).bind (·.cabin) with
  | none => s
  | some ctx => s.enforce ctx t guardOn (al pid)

def memTagSweepGuard (t : UInt16) (guardOn : Bool) (al : Nat → Allocs) : GuardState :=
  (tbl.snapshotPids sweepPidsPerCall).foldl (sweepPid tbl t guardOn al) s

def memTagSetGuard (name : String) (guard : Bool) (al : Nat → Allocs) : GuardState :=
  match s.mem.internStr name with
  | (none, mem) => { s with mem := mem }
  | (some t, mem) =>
    if mem.isGuard t = guard then { s with mem := mem.markGuard t guard }
    else memTagSweepGuard tbl { s with mem := mem.markGuard t guard } t guard al

def memCabinGrant (pid : Nat) (t : UInt16) (al : Allocs) : GuardState :=
  if t = invalidTagId then s
  else if t.toNat ≥ maskBits then s
  else
    match (tbl.find pid).bind (·.cabin) with
    | none => s
    | some ctx =>
      if maskHas (s.mask ctx) t then s
      else
        let s := s.setMask ctx (maskSet (s.mask ctx) t)
        if s.mem.isGuard t then s.enforce ctx t false al else s

def memCabinRevoke (pid : Nat) (t : UInt16) (al : Allocs) : GuardState :=
  if t = invalidTagId then s
  else if t.toNat ≥ maskBits then s
  else
    match (tbl.find pid).bind (·.cabin) with
    | none => s
    | some ctx =>
      if maskHas (s.mask ctx) t then
        let s := s.setMask ctx (maskClear (s.mask ctx) t)
        if s.mem.isGuard t then s.enforce ctx t true al else s
      else s

def memRegionAccessAllowed (pid id : Nat) : Bool :=
  if id = invalidRegionId then false
  else
    match s.mem.guardsOnRegion id guardsPerRegion with
    | [] => true
    | guards =>
      match tbl.find pid with
      | none => false
      | some p =>
        match p.cabin with
        | none => false
        | some ctx => guards.all (maskHas (s.mask ctx))

/-- The calls of a run; `create` is there to have regions. -/
inductive Op where
  | create (basePhys pages : Nat) (kernel : Bool) (heapSlots : Nat) (al : Allocs)
  | apply (id : Nat) (name : String) (al : Allocs)
  | clear (id : Nat) (name : String)
  | setGuard (name : String) (guard : Bool) (al : Nat → Allocs)
  | grant (pid : Nat) (t : UInt16) (al : Allocs)
  | revoke (pid : Nat) (t : UInt16) (al : Allocs)
  | attach (id ctx va pages : Nat)
  | detach (id ctx va : Nat)
  | destroy (id : Nat)

def next : Op → GuardState
  | .create basePhys pages kernel heapSlots al =>
    { s with mem := (MemTagState.memRegionCreate physDomain s.mem basePhys pages kernel heapSlots al).2 }
  | .apply id name al => { s with mem := (s.mem.memTagApply id name al).2 }
  | .clear id name => { s with mem := (s.mem.memTagClear id name).2 }
  | .setGuard name guard al => s.memTagSetGuard tbl name guard al
  | .grant pid t al => s.memCabinGrant tbl pid t al
  | .revoke pid t al => s.memCabinRevoke tbl pid t al
  | .attach id ctx va pages => { s with mem := s.mem.registryAttach id ctx va pages }
  | .detach id ctx va => { s with mem := s.mem.registryDetach id ctx va }
  | .destroy id => { s with mem := s.mem.memRegionDestroy id }

/-- One call. -/
def Step (op : Op) (s' : GuardState) : Prop := s' = s.next physDomain tbl op

end GuardState

end BoxOS.Memory
