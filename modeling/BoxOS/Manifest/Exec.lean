import BoxOS.Lib.Runs
import BoxOS.Lib.Words

/-!
# Manifests: compilation and the two executors

A manifest is a header and a list of ops in a byte string. `manifestCompile` checks the bytes and resolves the handler
of every op; `manifestExecute` runs a compiled manifest, `manifestExecuteOnce` runs the bytes themselves. The op
handlers, the registry and the authorisation are parameters: a handler may change the world and the crates, and so what
is authorised later.
-/

namespace BoxOS.Manifest

open Lib

/-- The answers of the executors and of the compiler that are not a handler's. -/
inductive Code where
  | ok
  | invalidArgument
  | bufferTooSmall
  | invalidPocket
  | versionMismatch
  | invalidOpcode
  | accessDenied
  | invalidBufferId
  | noMemory
  /-- any other code of a handler -/
  | other (code : Nat)
  deriving DecidableEq

/-- `ManifestOp`, with the offset of its header in the bytes. -/
structure Op where
  offset : Nat
  opKind : Nat
  flags : Nat
  inCrate : Nat
  outCrate : Nat
  paramSize : Nat
  params : List UInt8
  deriving DecidableEq

structure Crate where
  magic : Nat
  addr : Nat
  size : Nat
  capacity : Nat
  kind : Nat
  deriving DecidableEq

/-- `CrateIsValid` -/
def Crate.isValid (c : Crate) : Bool :=
  decide (c.magic = 0x43525441 ∧ c.size ≤ c.capacity ∧ ¬(0 < c.capacity ∧ c.addr = 0) ∧ c.kind ≤ 2)

def crateIndexNone : Nat := 0xFFFF

def Op.optional (op : Op) : Bool := op.flags.testBit 3

def Op.skipOnError (op : Op) : Bool := op.flags.testBit 0

/-- `sizeof(Manifest)` -/
def headerSize : Nat := 16

/-- `sizeof(ManifestOp)` -/
def opHeaderSize : Nat := 12

variable (bytes : List UInt8)

/-- The op whose header starts at `off`. -/
def opAt (off : Nat) : Op where
  offset := off
  opKind := fieldAt 4 off bytes
  flags := fieldAt 2 (off + 4) bytes
  inCrate := fieldAt 2 (off + 6) bytes
  outCrate := fieldAt 2 (off + 8) bytes
  paramSize := fieldAt 2 (off + 10) bytes
  params := (bytes.drop (off + 12)).take (fieldAt 2 (off + 10) bytes)

def Op.total (op : Op) : Nat := opHeaderSize + op.paramSize

/-- `op_count` of the header -/
def opCount : Nat := fieldAt 2 6 bytes

/-- The checks of the header that the compiler and `ManifestExecuteOnce` share. -/
def checkHeader : Code :=
  if bytes.length < headerSize then .bufferTooSmall
  else if fieldAt 4 0 bytes ≠ 0x534F4E4D then .invalidPocket
  else if fieldAt 2 4 bytes ≠ 1 then .versionMismatch
  else if fieldAt 4 12 bytes ≠ bytes.length then .invalidArgument
  else if opCount bytes = 0 then .invalidArgument
  else .ok

/-- The loop of `manifest_validate_and_index`: the offsets of `n` ops from `cur` on, and where they end. -/
def indexOps (bytes : List UInt8) : Nat → Nat → Option (List Nat × Nat)
  | 0, cur => some ([], cur)
  | n + 1, cur =>
    if cur + opHeaderSize > bytes.length then none
    else if cur + (opAt bytes cur).total > bytes.length then none
    else (indexOps bytes n (cur + (opAt bytes cur).total)).map fun (offsets, stop) => (cur :: offsets, stop)

/-- `manifest_validate_and_index` -/
def validateAndIndex : Except Code (List Nat) :=
  if checkHeader bytes ≠ .ok then .error (checkHeader bytes)
  else match indexOps bytes (opCount bytes) headerSize with
    | none => .error .invalidArgument
    | some (offsets, stop) => if stop ≠ bytes.length then .error .invalidArgument else .ok offsets

/-- What a manifest runs in: `η` names the handlers. -/
structure Machine (ω η : Type) where
  /-- `OpRegistryLookup` -/
  lookup : Nat → Option η
  /-- `ManifestOpAuthorize` for the process of the context -/
  authorize : ω → Nat → Bool
  handler : η → Op → List Crate → ω → Code × List Crate × ω
  canvasBatchBegin : ω → ω
  canvasBatchEnd : ω → ω

structure CompiledManifest (η : Type) where
  rawBytes : List UInt8
  opOffsets : List Nat
  handlers : List η

section

variable {ω η : Type}

/-- `manifest_resolve_handlers` -/
def resolveHandlers (m : Machine ω η) (w : ω) (bytes : List UInt8) : List Nat → Except Code (List η)
  | [] => .ok []
  | off :: rest =>
    match m.lookup (opAt bytes off).opKind with
    | none => .error .invalidOpcode
    | some reg =>
      if m.authorize w (opAt bytes off).opKind then (resolveHandlers m w bytes rest).map (reg :: ·)
      else .error .accessDenied

/-- `MANIFEST_RAW_MAX_SIZE` -/
def rawMaxSize : Nat := 2 ^ 20

variable (m : Machine ω η)

/-- `ManifestCompile` with the owner's rights in `w`, all memory there. -/
def manifestCompile (w : ω) (bytes : List UInt8) : Except Code (CompiledManifest η) :=
  if bytes.length = 0 then .error .invalidArgument
  else if bytes.length < headerSize then .error .bufferTooSmall
  else if bytes.length > rawMaxSize then .error .invalidArgument
  else do
    let offsets ← validateAndIndex bytes
    let handlers ← resolveHandlers m w bytes offsets
    return ⟨bytes, offsets, handlers⟩

/-- What the loop of an executor carries. -/
structure ExecState (ω η : Type) where
  world : ω
  crates : List Crate
  /-- `first_error`, and `error_code` of the result -/
  firstError : Code
  completedOps : Nat
  failedOpIdx : Nat
  /-- `EXEC_RESULT_PARTIAL` -/
  hadError : Bool
  prevFailed : Bool
  anyExecuted : Bool
  /-- the handler calls so far -/
  calls : List (η × Op)

/-- `ManifestExecResult`, and the handler calls that were made. -/
structure Outcome (η : Type) where
  /-- what the executor returns -/
  code : Code
  errorCode : Code
  totalOps : Nat
  completedOps : Nat
  failedOpIdx : Nat
  hadError : Bool
  allSkipped : Bool
  calls : List (η × Op)
  deriving DecidableEq

namespace ExecState

def init (w : ω) (crates : List Crate) : ExecState ω η :=
  ⟨w, crates, .ok, 0, 0, false, false, false, []⟩

variable (s : ExecState ω η)

/-- Keeps the first error. -/
def record (i : Nat) (rc : Code) : ExecState ω η :=
  if s.firstError = .ok then { s with firstError := rc, failedOpIdx := i, hadError := true } else s

/-- What both loops do with the code of a handler. -/
def settle (i : Nat) (op : Op) (rc : Code) : ExecState ω η :=
  if rc ≠ .ok then
    if op.optional then { s.record i rc with completedOps := (s.record i rc).completedOps + 1 }
    else { s.record i rc with prevFailed := true }
  else { s with completedOps := s.completedOps + 1 }

/-- A handler call. -/
def call (m : Machine ω η) (s : ExecState ω η) (reg : η) (op : Op) : Code × ExecState ω η :=
  let (rc, crates, w) := m.handler reg op s.crates s.world
  (rc, { s with world := w, crates := crates, calls := s.calls ++ [(reg, op)] })

def outcome (totalOps : Nat) : Outcome η :=
  ⟨s.firstError, s.firstError, totalOps, s.completedOps, s.failedOpIdx, s.hadError, !s.anyExecuted, s.calls⟩

end ExecState

/-- `crate_index_in_range` -/
def indexInRange (crates : List Crate) (idx : Nat) : Bool := idx = crateIndexNone ∨ idx < crates.length

/-- No crate, or a valid one. -/
def crateOk (crates : List Crate) (idx : Nat) : Bool :=
  idx = crateIndexNone ∨ ∃ c ∈ crates[idx]?, c.isValid

def dispatchOp (s : ExecState ω η) (reg : η) (op : Op) : Code × ExecState ω η :=
  if !indexInRange s.crates op.inCrate || !indexInRange s.crates op.outCrate then (.invalidArgument, s)
  else if !crateOk s.crates op.inCrate then (.invalidBufferId, s)
  else if !crateOk s.crates op.outCrate then (.invalidBufferId, s)
  else if !m.authorize s.world op.opKind then (.accessDenied, s)
  else s.call m reg op

/-- The loop of `ManifestExecute`, from op number `i` on. -/
def executeLoop (m : Machine ω η) (bytes : List UInt8) : Nat → List (Nat × η) → ExecState ω η → ExecState ω η
  | _, [], s => s
  | i, (off, reg) :: rest, s =>
    let op := opAt bytes off
    if s.prevFailed && op.skipOnError then executeLoop m bytes (i + 1) rest s
    else if s.prevFailed && !op.optional then s
    else
      let (rc, s') := dispatchOp m { s with anyExecuted := true } reg op
      executeLoop m bytes (i + 1) rest (s'.settle i op rc)

/-- The world inside the loop. -/
def batchBegin (n : Nat) (w : ω) : ω := if 1 < n then m.canvasBatchBegin w else w

def batchEnd (n : Nat) (w : ω) : ω := if 1 < n then m.canvasBatchEnd w else w

/-- `ManifestExecute` of a handle that resolves to `cm`: the outcome, and the world and crates it leaves. -/
def manifestExecute (cm : CompiledManifest η) (crates : List Crate) (w : ω) :
    Outcome η × List Crate × ω :=
  let n := cm.opOffsets.length
  let s := executeLoop m cm.rawBytes 0 (cm.opOffsets.zip cm.handlers) (.init (batchBegin m n w) crates)
  (s.outcome n, s.crates, batchEnd m n s.world)

/-- The loop of `ManifestExecuteOnce`: `n` more ops, op number `i` next, at `cursor`. -/
def executeOnceLoop (m : Machine ω η) (bytes : List UInt8) : Nat → Nat → Nat → ExecState ω η → ExecState ω η
  | 0, _, _, s => s
  | n + 1, i, cursor, s =>
    if cursor + opHeaderSize > bytes.length then s.record i .invalidArgument
    else
      let op := opAt bytes cursor
      if cursor + op.total > bytes.length then s.record i .invalidArgument
      else
        let next := executeOnceLoop m bytes n (i + 1) (cursor + op.total)
        if s.prevFailed && op.skipOnError then next s
        else if s.prevFailed && !op.optional then s
        else match m.lookup op.opKind with
          | none => next { s.record i .invalidOpcode with prevFailed := true }
          | some reg =>
            if op.inCrate ≠ crateIndexNone ∧ s.crates.length ≤ op.inCrate then
              next { s.record i .invalidArgument with prevFailed := true }
            else if op.outCrate ≠ crateIndexNone ∧ s.crates.length ≤ op.outCrate then
              next { s.record i .invalidArgument with prevFailed := true }
            else if !m.authorize s.world op.opKind then next (s.settle i op .accessDenied)
            else
              let (rc, s') := s.call m reg op
              next ({ s' with anyExecuted := true }.settle i op rc)

def manifestExecuteOnce (bytes : List UInt8) (crates : List Crate) (w : ω) :
    Except Code (Outcome η × List Crate × ω) :=
  if checkHeader bytes ≠ .ok then .error (checkHeader bytes)
  else
    let n := opCount bytes
    let s := executeOnceLoop m bytes n 0 headerSize (.init (batchBegin m n w) crates)
    .ok (s.outcome n, s.crates, batchEnd m n s.world)

end

end BoxOS.Manifest
