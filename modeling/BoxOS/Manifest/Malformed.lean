import BoxOS.Manifest.ExecAgree

/-!
# Malformed manifests

`manifest_validate_and_index` looks at the whole string before anything runs, `ManifestExecuteOnce` at one record after
the other while it runs them. Both read inside the string only, and the first accepts the well-formed strings and no
others. The second has run the ops ahead of a defect when it comes to it (`one_shot_malformed_iff`).

The callers of both refuse strings of more than `MANIFEST_RAW_MAX_SIZE` bytes, so that no 32-bit position wraps.
-/

namespace BoxOS.Manifest

open Lib List

variable {ω η : Type} {m : Machine ω η} {s : ExecState ω η} {bytes : List UInt8} {crates : List Crate} {w : ω}
  {n i cur : Nat}

/-! ## What is read -/

/-- The headers of ops the loop of `manifest_validate_and_index` reads. -/
def indexReads (bytes : List UInt8) : Nat → Nat → List Nat
  | 0, _ => []
  | n + 1, cur =>
    if cur + opHeaderSize > bytes.length then []
    else if cur + (opAt bytes cur).total > bytes.length then [cur]
    else cur :: indexReads bytes n (cur + (opAt bytes cur).total)

/-- The headers of ops the loop of `ManifestExecuteOnce` reads. -/
def onceReads (m : Machine ω η) (bytes : List UInt8) : Nat → Nat → Nat → ExecState ω η → List Nat
  | 0, _, _, _ => []
  | n + 1, i, cursor, s =>
    if cursor + opHeaderSize > bytes.length then []
    else
      let op := opAt bytes cursor
      if cursor + op.total > bytes.length then [cursor]
      else if s.prevFailed && op.skipOnError then cursor :: onceReads m bytes n (i + 1) (cursor + op.total) s
      else if s.prevFailed && !op.optional then [cursor]
      else cursor :: onceReads m bytes n (i + 1) (cursor + op.total) (onceStep m i op s)

/-- The reads of a walk, each an offset and a size: the manifest's header, and headers of ops when it is right. -/
def readsOf (bytes : List UInt8) (ops : List Nat) : List (Nat × Nat) :=
  if bytes.length < headerSize then []
  else (0, headerSize) :: if checkHeader bytes ≠ .ok then [] else ops.map fun off => (off, opHeaderSize)

def validateReads (bytes : List UInt8) : List (Nat × Nat) := readsOf bytes (indexReads bytes (opCount bytes) headerSize)

def executeOnceReads (m : Machine ω η) (bytes : List UInt8) (crates : List Crate) (w : ω) : List (Nat × Nat) :=
  readsOf bytes (onceReads m bytes (opCount bytes) 0 headerSize (.init (batchBegin m (opCount bytes) w) crates))

theorem indexReads_le : ∀ off ∈ indexReads bytes n cur, off + opHeaderSize ≤ bytes.length := by
  induction n generalizing cur with
  | zero => exact nofun
  | succ n ih =>
    unfold indexReads
    split
    · exact nofun
    rename_i hheader
    split
    · simpa using hheader
    · exact forall_mem_cons.mpr ⟨not_lt.mp hheader, ih⟩

theorem onceReads_le : ∀ off ∈ onceReads m bytes n i cur s, off + opHeaderSize ≤ bytes.length := by
  induction n generalizing i cur s with
  | zero => exact nofun
  | succ n ih =>
    unfold onceReads
    split
    · exact nofun
    rename_i hheader
    have hle : cur + opHeaderSize ≤ bytes.length := not_lt.mp hheader
    dsimp only
    split
    · simpa using hle
    split
    · exact forall_mem_cons.mpr ⟨hle, ih⟩
    · split
      · simpa using hle
      · exact forall_mem_cons.mpr ⟨hle, ih⟩

theorem readsOf_le {ops : List Nat} (h : ∀ off ∈ ops, off + opHeaderSize ≤ bytes.length) :
    ∀ r ∈ readsOf bytes ops, r.1 + r.2 ≤ bytes.length := by
  unfold readsOf
  split
  · exact nofun
  rename_i hlen
  refine forall_mem_cons.mpr ⟨by simpa using hlen, ?_⟩
  split
  · exact nofun
  · exact forall_mem_map.mpr h

/-! ## What is accepted -/

/-- A record of an op: its header and the parameters this announces. -/
def IsRecord (r : List UInt8) : Prop := r.length = opHeaderSize + fieldAt 2 10 r

/-- A valid header with the size of the string, and behind it as many records as it says, at least one, and nothing
else. -/
def WellFormed (bytes : List UInt8) : Prop :=
  headerSize ≤ bytes.length ∧ fieldAt 4 0 bytes = 0x534F4E4D ∧ fieldAt 2 4 bytes = 1 ∧
  fieldAt 4 12 bytes = bytes.length ∧
    opCount bytes ≠ 0 ∧
    ∃ records : List (List UInt8), records.length = opCount bytes ∧ bytes.drop headerSize = records.flatten ∧
      ∀ r ∈ records, IsRecord r

theorem checkHeader_ok : checkHeader bytes = .ok ↔ headerSize ≤ bytes.length ∧ fieldAt 4 0 bytes = 0x534F4E4D ∧
    fieldAt 2 4 bytes = 1 ∧ fieldAt 4 12 bytes = bytes.length ∧ opCount bytes ≠ 0 := by
  unfold checkHeader
  split
  · rename_i h
    simp [not_le.mpr h]
  rename_i h
  have hle := not_lt.mp h
  split
  · simp_all
  split
  · simp_all
  · split
    · simp_all
    · split <;> simp_all

theorem isRecord_take {k : Nat} (hk : opHeaderSize ≤ k) (hfits : cur + k ≤ bytes.length) :
    IsRecord ((bytes.drop cur).take k) ↔ k = (opAt bytes cur).total := by
  have hlen : ((bytes.drop cur).take k).length = k := by
    rw [length_take, length_drop]
    omega
  have hfield : fieldAt 2 10 ((bytes.drop cur).take k) = fieldAt 2 (cur + 10) bytes := by
    unfold opHeaderSize at hk
    rw [← fieldAt_drop, fieldAt, fieldAt, drop_take, take_take, Nat.min_eq_left (by omega)]
  rw [IsRecord, hlen, hfield]
  rfl

/-- The loop goes through exactly the strings that consist of records from `cur` on. -/
theorem indexOps_iff (hcur : cur ≤ bytes.length) :
    (∃ offsets, indexOps bytes n cur = some (offsets, bytes.length)) ↔
      ∃ records : List (List UInt8), records.length = n ∧ bytes.drop cur = records.flatten ∧
        ∀ r ∈ records, IsRecord r := by
  induction n generalizing cur with
  | zero =>
    constructor
    · rintro ⟨offsets, h⟩
      cases h
      exact ⟨[], rfl, drop_length, nofun⟩
    · rintro ⟨records, hlen, hdrop, -⟩
      rw [length_eq_zero_iff.mp hlen, flatten_nil, drop_eq_nil_iff] at hdrop
      exact ⟨[], by rw [indexOps, le_antisymm hcur hdrop]⟩
  | succ n ih =>
    constructor
    · rintro ⟨offsets, h⟩
      unfold indexOps at h
      split at h
      · cases h
      split at h
      · cases h
      rename_i hfits
      obtain ⟨⟨offsets', stop'⟩, h', hcons⟩ := Option.map_eq_some_iff.mp h
      obtain ⟨rfl, rfl⟩ := Prod.mk.inj hcons
      obtain ⟨records, hlen, hdrop, hrecords⟩ := (ih (not_lt.mp hfits)).mp ⟨offsets', h'⟩
      refine ⟨(bytes.drop cur).take (opAt bytes cur).total :: records, congrArg (· + 1) hlen, ?_,
        forall_mem_cons.mpr ⟨(isRecord_take (Nat.le_add_right ..) (not_lt.mp hfits)).mpr rfl, hrecords⟩⟩
      rw [flatten_cons, ← hdrop, ← drop_drop, take_append_drop]
    · rintro ⟨records, hlen, hdrop, hrecords⟩
      obtain ⟨r, rest, rfl⟩ := exists_cons_of_length_eq_add_one hlen
      obtain ⟨hr, hrest⟩ := forall_mem_cons.mp hrecords
      have hrlen : opHeaderSize ≤ r.length := by
        rw [show r.length = _ from hr]
        exact Nat.le_add_right ..
      have hsum : bytes.length - cur = r.length + rest.flatten.length := by
        rw [← length_drop, hdrop, flatten_cons, length_append]
      have htake : (bytes.drop cur).take r.length = r := by
        rw [hdrop, flatten_cons]
        exact take_left
      have htotal : r.length = (opAt bytes cur).total :=
        (isRecord_take hrlen (by omega)).mp (htake.symm ▸ hr)
      have hrec : bytes.drop (cur + r.length) = rest.flatten := by
        rw [← drop_drop, hdrop, flatten_cons]
        exact drop_left
      obtain ⟨offsets, h⟩ := (ih (by omega)).mpr ⟨rest, Nat.succ.inj hlen, hrec, hrest⟩
      refine ⟨cur :: offsets, ?_⟩
      rw [indexOps, if_neg (by omega), if_neg (by omega), ← htotal, h]
      rfl

theorem validate_accepts_iff : (∃ offsets, validateAndIndex bytes = .ok offsets) ↔ WellFormed bytes := by
  have hsplit : WellFormed bytes ↔ checkHeader bytes = .ok ∧ ∃ records : List (List UInt8),
      records.length = opCount bytes ∧ bytes.drop headerSize = records.flatten ∧ ∀ r ∈ records, IsRecord r := by
    rw [checkHeader_ok]
    unfold WellFormed
    tauto
  rw [hsplit]
  unfold validateAndIndex
  split
  · rename_i hbad
    exact ⟨fun ⟨_, h⟩ => (nomatch h), fun h => absurd h.1 hbad⟩
  rename_i hgood
  have hok := not_not.mp hgood
  rw [← indexOps_iff (checkHeader_ok.mp hok).1]
  split
  · rename_i hnone
    simp [hnone]
  rename_i offsets stop hsome
  rw [hsome]
  split
  · rename_i hstop
    exact ⟨fun ⟨_, h⟩ => (nomatch h), fun ⟨_, _, h⟩ => absurd (Prod.mk.inj (Option.some.inj h)).2 hstop⟩
  · rename_i hstop
    exact ⟨fun _ => ⟨hok, offsets, by rw [not_not.mp hstop]⟩, fun _ => ⟨offsets, rfl⟩⟩

/-! ## What is run -/

/-- The complete records from `cur` on. -/
def completeOps (bytes : List UInt8) : Nat → Nat → List Op
  | 0, _ => []
  | n + 1, cur =>
    if cur + opHeaderSize > bytes.length then []
    else if cur + (opAt bytes cur).total > bytes.length then []
    else opAt bytes cur :: completeOps bytes n (cur + (opAt bytes cur).total)

/-- The op's kind is registered and its crates are in range. -/
def Op.known (m : Machine ω η) (crates : List Crate) (op : Op) : Bool :=
  (m.lookup op.opKind).isSome && indexInRange crates op.inCrate && indexInRange crates op.outCrate

/-- One of the ops gets its turn and is known and authorised. `stopped`: an op was not known, or denied and not
optional; after it only ops that are optional and not skipped get their turn, up to the first op that is neither. -/
def reachesHandler (m : Machine ω η) (w : ω) (crates : List Crate) : Bool → List Op → Bool
  | _, [] => false
  | stopped, op :: rest =>
    if stopped && op.skipOnError then reachesHandler m w crates stopped rest
    else if stopped && !op.optional then false
    else if op.known m crates then
      m.authorize w op.opKind || reachesHandler m w crates (stopped || !op.optional) rest
    else reachesHandler m w crates true rest

/-- The handler calls of `ManifestExecuteOnce`. -/
def onceCalls (m : Machine ω η) (bytes : List UInt8) (crates : List Crate) (w : ω) : List (η × Op) :=
  match manifestExecuteOnce m bytes crates w with
  | .error _ => []
  | .ok (outcome, _, _) => outcome.calls

theorem onceStep_calls_ne {op : Op} (h : s.calls ≠ []) : (onceStep m i op s).calls ≠ [] := by
  unfold onceStep
  split
  · exact (record_calls (s := s) .invalidOpcode).symm ▸ h
  · exact fun hnil => h (prefix_nil.mp (hnil ▸ onceTurn_calls))

theorem executeOnceLoop_calls_ne (h : s.calls ≠ []) : (executeOnceLoop m bytes n i cur s).calls ≠ [] := by
  induction n generalizing i cur s with
  | zero => exact h
  | succ n ih =>
    by_cases hheader : cur + opHeaderSize > bytes.length
    · rw [executeOnceLoop, if_pos hheader, record_calls]
      exact h
    by_cases hfits : cur + (opAt bytes cur).total > bytes.length
    · rw [executeOnceLoop, if_neg hheader]
      rw [if_pos hfits, record_calls]
      exact h
    rw [executeOnceLoop_succ rfl hheader hfits]
    split
    · exact ih h
    · split
      · exact h
      · exact ih (onceStep_calls_ne h)

/-- The walk so far called nothing, so that the world and the crates are the ones it began with. -/
structure Idle (w : ω) (crates : List Crate) (s : ExecState ω η) : Prop where
  world : s.world = w
  crates : s.crates = crates
  calls : s.calls = []

theorem Idle.record (h : Idle w crates s) (rc : Code) (b : Bool) :
    Idle w crates { s.record i rc with prevFailed := b } := by
  unfold ExecState.record
  split <;> exact ⟨h.world, h.crates, h.calls⟩

theorem Idle.denied (h : Idle w crates s) (op : Op) : Idle w crates (s.settle i op .accessDenied) ∧
    (s.settle i op .accessDenied).prevFailed = (s.prevFailed || !op.optional) := by
  unfold ExecState.settle ExecState.record
  cases hop : op.optional <;> by_cases hfirst : s.firstError = .ok <;>
    simp [hfirst] <;> exact ⟨h.world, h.crates, h.calls⟩

theorem not_known_of_inCrate {op : Op} (h : op.inCrate ≠ crateIndexNone ∧ crates.length ≤ op.inCrate) :
    op.known m crates = false := by
  simp [Op.known, indexInRange, h.1, not_lt.mpr h.2]

theorem not_known_of_outCrate {op : Op} (h : op.outCrate ≠ crateIndexNone ∧ crates.length ≤ op.outCrate) :
    op.known m crates = false := by
  simp [Op.known, indexInRange, h.1, not_lt.mpr h.2]

/-- The turn of an op while nothing was called. -/
theorem Idle.step (h : Idle w crates s) (op : Op) :
    (op.known m crates = false ∧ Idle w crates (onceStep m i op s) ∧ (onceStep m i op s).prevFailed = true) ∨
    (op.known m crates = true ∧ m.authorize w op.opKind = false ∧ Idle w crates (onceStep m i op s) ∧
      (onceStep m i op s).prevFailed = (s.prevFailed || !op.optional)) ∨
    (op.known m crates = true ∧ m.authorize w op.opKind = true ∧ (onceStep m i op s).calls ≠ []) := by
  unfold onceStep
  cases hlookup : m.lookup op.opKind with
  | none => exact .inl ⟨by simp [Op.known, hlookup], h.record .invalidOpcode true, rfl⟩
  | some reg =>
    dsimp only
    unfold onceTurn
    rw [h.crates, h.world]
    split
    · exact .inl ⟨not_known_of_inCrate ‹_›, h.record .invalidArgument true, rfl⟩
    rename_i hin
    split
    · exact .inl ⟨not_known_of_outCrate ‹_›, h.record .invalidArgument true, rfl⟩
    rename_i hout
    have hknown : op.known m crates = true := by
      simp only [Op.known, indexInRange, hlookup, Option.isSome_some, Bool.true_and, Bool.and_eq_true,
        decide_eq_true_eq]
      omega
    cases hauth : m.authorize w op.opKind with
    | false => exact .inr (.inl ⟨hknown, rfl, h.denied op⟩)
    | true =>
      refine .inr (.inr ⟨hknown, rfl, ?_⟩)
      rw [if_neg (by decide : ¬(!true) = true), settle_calls]
      exact append_ne_nil_of_right_ne_nil _ (cons_ne_nil _ _)

/-- The loop calls a handler exactly if one of the complete records gets to its own. -/
theorem Idle.loop (h : Idle w crates s) :
    (executeOnceLoop m bytes n i cur s).calls = [] ↔
      reachesHandler m w crates s.prevFailed (completeOps bytes n cur) = false := by
  induction n generalizing i cur s with
  | zero => exact ⟨fun _ => rfl, fun _ => h.calls⟩
  | succ n ih =>
    unfold completeOps
    by_cases hheader : cur + opHeaderSize > bytes.length
    · rw [executeOnceLoop, if_pos hheader, if_pos hheader, record_calls]
      exact ⟨fun _ => rfl, fun _ => h.calls⟩
    by_cases hfits : cur + (opAt bytes cur).total > bytes.length
    · rw [executeOnceLoop, if_neg hheader, if_neg hheader, if_pos hfits, if_pos hfits, record_calls]
      exact ⟨fun _ => rfl, fun _ => h.calls⟩
    rw [executeOnceLoop_succ rfl hheader hfits, if_neg hheader, if_neg hfits, reachesHandler]
    split
    · exact ih h
    split
    · exact ⟨fun _ => rfl, fun _ => h.calls⟩
    rcases h.step (m := m) (i := i) (opAt bytes cur) with ⟨hknown, hidle, hprev⟩ | ⟨hknown, hauth, hidle, hprev⟩ |
      ⟨hknown, hauth, hcalls⟩
    · rw [hknown, ih hidle, hprev]
      rfl
    · rw [hknown, hauth, ih hidle, hprev]
      rfl
    · rw [hknown, hauth]
      exact ⟨fun hnil => absurd hnil (executeOnceLoop_calls_ne hcalls), by rintro ⟨⟩⟩

/-- A refused string is run in part exactly if its header is right and one of the complete records ahead of the defect
gets to its handler. -/
theorem one_shot_malformed_iff (m : Machine ω η) (bytes : List UInt8) (crates : List Crate) (w : ω) :
    (((¬ ∃ offsets, validateAndIndex bytes = .ok offsets) → onceCalls m bytes crates w = []) ∧
    (∀ r ∈ validateReads bytes ++ executeOnceReads m bytes crates w, r.1 + r.2 ≤ bytes.length) ∧
    ((∃ offsets, validateAndIndex bytes = .ok offsets) ↔ WellFormed bytes)) ↔
    checkHeader bytes ≠ .ok ∨ WellFormed bytes ∨
    reachesHandler m (batchBegin m (opCount bytes) w) crates false (completeOps bytes (opCount bytes) headerSize) =
    false := by
  have hreads : ∀ r ∈ validateReads bytes ++ executeOnceReads m bytes crates w, r.1 + r.2 ≤ bytes.length := by
    intro r hr
    rcases mem_append.mp hr with hr | hr
    · exact readsOf_le indexReads_le r hr
    · exact readsOf_le onceReads_le r hr
  have hcalls : onceCalls m bytes crates w = [] ↔ checkHeader bytes ≠ .ok ∨
      reachesHandler m (batchBegin m (opCount bytes) w) crates false (completeOps bytes (opCount bytes) headerSize) =
      false := by
    unfold onceCalls manifestExecuteOnce
    by_cases hok : checkHeader bytes = .ok
    · rw [if_neg (not_not.mpr hok)]
      have hidle :
        Idle (η := η) (batchBegin m (opCount bytes) w) crates (.init (batchBegin m (opCount bytes) w) crates) :=
        ⟨rfl, rfl, rfl⟩
      have hloop := @Idle.loop ω η m _ bytes crates _ (opCount bytes) 0 headerSize hidle
      exact ⟨fun h => .inr (hloop.mp h), fun h => hloop.mpr (h.resolve_left (not_not.mpr hok))⟩
    · rw [if_pos hok]
      exact ⟨fun _ => .inl hok, fun _ => rfl⟩
  rw [hcalls, validate_accepts_iff]
  tauto

/-- A `MNOS` manifest of two ops: the first is complete, the second has no header left. -/
def cutManifest : List UInt8 :=
  [0x4D, 0x4E, 0x4F, 0x53, 1, 0, 2, 0, 0, 0, 0, 0, 28, 0, 0, 0, 7, 0, 0, 0, 0, 0, 0xFF, 0xFF, 0xFF, 0xFF, 0, 0]

/-- Every kind of op is registered and allowed. -/
def openMachine : Machine Nat Nat where
  lookup kind := some kind
  authorize _ _ := true
  handler _ _ crates w := (.ok, crates, w + 1)
  canvasBatchBegin w := w
  canvasBatchEnd w := w

/-- The manifest is refused, and its first op has run. -/
theorem cut_manifest_runs_half : (¬ ∃ offsets, validateAndIndex cutManifest = .ok offsets) ∧
    onceCalls openMachine cutManifest [] 0 ≠ [] := by
  have hrefused : validateAndIndex cutManifest = .error .invalidArgument := by decide +kernel
  refine ⟨fun ⟨offsets, h⟩ => ?_, by decide +kernel⟩
  rw [hrefused] at h
  cases h

end BoxOS.Manifest
