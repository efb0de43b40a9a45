import BoxOS.Manifest.Exec

/-!
# Where the two executors of manifests agree

- both executors go through the ops in the same way and differ in the turn of an op only (`executeLoop_eq`,
  `executeOnceLoop_eq`);
- `Alike` says on which ops the turns have the same effect;
- after a turn with another effect the outcomes differ for good (`behind`, `calls_subset`, `firstError_kept`), so that
  `execute_agrees_iff` is exact.
-/

namespace BoxOS.Manifest

open List Option ExecState

variable {ω η : Type} {m : Machine ω η} {s t : ExecState ω η} {i n : Nat} {reg : η} {op : Op}

/-! ## One loop, two turns -/

/-- The turn of an op in `ManifestExecute`. -/
def executeTurn (m : Machine ω η) (i : Nat) (reg : η) (op : Op) (s : ExecState ω η) : ExecState ω η :=
  (dispatchOp m { s with anyExecuted := true } reg op).2.settle i op
    (dispatchOp m { s with anyExecuted := true } reg op).1

/-- The turn of an op in `ManifestExecuteOnce`, its handler known. -/
def onceTurn (m : Machine ω η) (i : Nat) (reg : η) (op : Op) (s : ExecState ω η) : ExecState ω η :=
  if op.inCrate ≠ crateIndexNone ∧ s.crates.length ≤ op.inCrate then
    { s.record i .invalidArgument with prevFailed := true }
  else if op.outCrate ≠ crateIndexNone ∧ s.crates.length ≤ op.outCrate then
    { s.record i .invalidArgument with prevFailed := true }
  else if !m.authorize s.world op.opKind then s.settle i op .accessDenied
  else { (s.call m reg op).2 with anyExecuted := true }.settle i op (s.call m reg op).1

/-- An op gets its turn in `ManifestExecuteOnce`. -/
def onceStep (m : Machine ω η) (i : Nat) (op : Op) (s : ExecState ω η) : ExecState ω η :=
  match m.lookup op.opKind with
  | none => { s.record i .invalidOpcode with prevFailed := true }
  | some reg => onceTurn m i reg op s

/-- The loop over the ops: which of them get their turn. -/
def turnLoop (turn : Nat → η → Op → ExecState ω η → ExecState ω η) :
    Nat → List (η × Op) → ExecState ω η → ExecState ω η
  | _, [], s => s
  | i, (reg, op) :: rest, s =>
    if s.prevFailed && op.skipOnError then turnLoop turn (i + 1) rest s
    else if s.prevFailed && !op.optional then s
    else turnLoop turn (i + 1) rest (turn i reg op s)

section

variable {turn : Nat → η → Op → ExecState ω η → ExecState ω η} {rest : List (η × Op)}

theorem turnLoop_skip (hstopped : s.prevFailed = true) (hskip : op.skipOnError = true) :
    turnLoop turn i ((reg, op) :: rest) s = turnLoop turn (i + 1) rest s := by
  rw [turnLoop, hstopped, hskip]
  rfl

theorem turnLoop_stop (hstopped : s.prevFailed = true) (hskip : op.skipOnError = false)
    (hoptional : op.optional = false) : turnLoop turn i ((reg, op) :: rest) s = s := by
  rw [turnLoop, hstopped, hskip, hoptional]
  rfl

theorem turnLoop_turn (h : s.prevFailed = false ∨ (op.skipOnError = false ∧ op.optional = true)) :
    turnLoop turn i ((reg, op) :: rest) s = turnLoop turn (i + 1) rest (turn i reg op s) := by
  rw [turnLoop]
  rcases h with h | ⟨hskip, hoptional⟩
  · rw [h]
    rfl
  · rw [hskip, hoptional, Bool.and_false, Bool.not_true, Bool.and_false]
    rfl

end

/-- The ops of a compiled manifest with their handlers. -/
def opsAt (bytes : List UInt8) (l : List (Nat × η)) : List (η × Op) := l.map fun x => (x.2, opAt bytes x.1)

theorem executeLoop_eq (bytes : List UInt8) (l : List (Nat × η)) :
    executeLoop m bytes i l s = turnLoop (executeTurn m) i (opsAt bytes l) s := by
  induction l generalizing i s with
  | nil => rfl
  | cons x rest ih =>
    obtain ⟨off, reg⟩ := x
    simp only [executeLoop, opsAt, map_cons, turnLoop]
    split
    · exact ih
    · split
      · rfl
      · exact ih

theorem executeOnceLoop_succ {bytes : List UInt8} {cur : Nat} (hop : opAt bytes cur = op)
    (hheader : ¬ cur + opHeaderSize > bytes.length) (hfits : ¬ cur + op.total > bytes.length) :
    executeOnceLoop m bytes (n + 1) i cur s =
      if s.prevFailed && op.skipOnError then executeOnceLoop m bytes n (i + 1) (cur + op.total) s
      else if s.prevFailed && !op.optional then s
      else executeOnceLoop m bytes n (i + 1) (cur + op.total) (onceStep m i op s) := by
  rw [executeOnceLoop, if_neg hheader]
  rw [hop, if_neg hfits]
  unfold onceStep
  split
  · rfl
  split
  · rfl
  cases m.lookup op.opKind with
  | none => rfl
  | some reg =>
    dsimp only
    unfold onceTurn
    split
    · rfl
    · split
      · rfl
      · split <;> rfl

theorem executeOnceLoop_eq (bytes : List UInt8) {wc : ω} {offsets : List Nat} {handlers : List η} {cur stop : Nat}
    (hindex : indexOps bytes n cur = some (offsets, stop))
    (hresolve : resolveHandlers m wc bytes offsets = .ok handlers) :
    executeOnceLoop m bytes n i cur s = turnLoop (onceTurn m) i (opsAt bytes (offsets.zip handlers)) s := by
  induction n generalizing i s cur offsets handlers with
  | zero =>
    cases hindex
    cases hresolve
    rfl
  | succ n ih =>
    unfold indexOps at hindex
    split at hindex
    · cases hindex
    rename_i hheader
    split at hindex
    · cases hindex
    rename_i hfits
    obtain ⟨⟨offsets', stop'⟩, hindex', hcons⟩ := map_eq_some_iff.mp hindex
    obtain ⟨rfl, rfl⟩ := Prod.mk.inj hcons
    unfold resolveHandlers at hresolve
    split at hresolve
    · cases hresolve
    rename_i reg hlookup
    split at hresolve
    · obtain ⟨handlers', hresolve', rfl⟩ : ∃ hs, resolveHandlers m wc bytes offsets' = .ok hs ∧
          handlers = reg :: hs := by
        cases hr : resolveHandlers m wc bytes offsets' with
        | error e =>
          rw [hr] at hresolve
          cases hresolve
        | ok hs =>
          rw [hr] at hresolve
          cases hresolve
          exact ⟨hs, rfl, rfl⟩
      rw [executeOnceLoop_succ rfl hheader hfits]
      simp only [zip_cons_cons, opsAt, map_cons, turnLoop, onceStep, hlookup]
      split
      · exact ih hindex' hresolve'
      · split
        · rfl
        · exact ih hindex' hresolve'
    · cases hresolve

variable {bytes : List UInt8} {offsets : List Nat}

theorem indexOps_length {cur stop : Nat} (h : indexOps bytes n cur = some (offsets, stop)) : offsets.length = n := by
  induction n generalizing cur offsets with
  | zero =>
    cases h
    rfl
  | succ n ih =>
    unfold indexOps at h
    split at h
    · cases h
    split at h
    · cases h
    · obtain ⟨⟨offsets', stop'⟩, h', hcons⟩ := map_eq_some_iff.mp h
      obtain ⟨rfl, rfl⟩ := Prod.mk.inj hcons
      rw [length_cons, ih h']

theorem indexOps_sorted {cur stop : Nat}
    (h : indexOps bytes n cur = some (offsets, stop)) : (∀ o ∈ offsets, cur ≤ o) ∧ offsets.Nodup := by
  induction n generalizing cur offsets with
  | zero =>
    cases h
    exact ⟨nofun, nodup_nil⟩
  | succ n ih =>
    unfold indexOps at h
    split at h
    · cases h
    split at h
    · cases h
    obtain ⟨⟨offsets', stop'⟩, h', hcons⟩ := map_eq_some_iff.mp h
    obtain ⟨rfl, rfl⟩ := Prod.mk.inj hcons
    obtain ⟨hle, hnodup⟩ := ih h'
    have htotal : 0 < (opAt bytes cur).total := Nat.add_pos_left (by decide) _
    refine ⟨fun o ho => ?_, nodup_cons.mpr ⟨fun hmem => ?_, hnodup⟩⟩
    · rcases mem_cons.mp ho with rfl | ho
      · exact le_rfl
      · have := hle o ho
        omega
    · have := hle cur hmem
      omega

variable {handlers : List η}

theorem resolveHandlers_length {wc : ω}
    (h : resolveHandlers m wc bytes offsets = .ok handlers) : handlers.length = offsets.length := by
  induction offsets generalizing handlers with
  | nil =>
    cases h
    rfl
  | cons off rest ih =>
    unfold resolveHandlers at h
    split at h
    · cases h
    split at h
    · cases hr : resolveHandlers m wc bytes rest with
      | error e =>
        rw [hr] at h
        cases h
      | ok hs =>
        rw [hr] at h
        cases h
        rw [length_cons, length_cons, ih hr]
    · cases h

/-! ## The condition -/

/-- The op names a crate that is not there. -/
def Op.OutOfRange (op : Op) (crates : List Crate) : Prop :=
  ¬(indexInRange crates op.inCrate = true ∧ indexInRange crates op.outCrate = true)

/-- The op names a crate that is there and not valid. -/
def Op.BadCrate (op : Op) (crates : List Crate) : Prop :=
  ¬(crateOk crates op.inCrate = true ∧ crateOk crates op.outCrate = true)

instance (op : Op) (crates : List Crate) : Decidable (op.OutOfRange crates) :=
  inferInstanceAs (Decidable (¬_))

instance (op : Op) (crates : List Crate) : Decidable (op.BadCrate crates) :=
  inferInstanceAs (Decidable (¬_))

/-- No op that gets its turn is optional with a crate out of range, or has an invalid crate (but where it is denied
after an earlier error), and one of them gets to its handler. `failed`: there was an error, `stopped`: at an op that was
not optional, `called`: a handler was called. -/
def Alike (m : Machine ω η) : List (η × Op) → ω → List Crate → Bool → Bool → Bool → Prop
  | [], _, _, _, _, called => called = true
  | (reg, op) :: rest, w, crates, failed, stopped, called =>
    if stopped && op.skipOnError then Alike m rest w crates failed stopped called
    else if stopped && !op.optional then called = true
    else if op.OutOfRange crates then op.optional = false ∧ Alike m rest w crates true true called
    else if op.BadCrate crates then
      m.authorize w op.opKind = false ∧ failed = true ∧ Alike m rest w crates true (stopped || !op.optional) called
    else if m.authorize w op.opKind = false then Alike m rest w crates true (stopped || !op.optional) called
    else
      let (rc, crates', w') := m.handler reg op crates w
      Alike m rest w' crates' (failed || rc ≠ .ok) (stopped || (rc ≠ .ok && !op.optional)) true

/-! ## What a turn does -/

variable (rc : Code)

@[simp] theorem record_completedOps : (s.record i rc).completedOps = s.completedOps := by
  unfold record
  split <;> rfl

@[simp] theorem record_prevFailed : (s.record i rc).prevFailed = s.prevFailed := by
  unfold record
  split <;> rfl

@[simp] theorem record_calls : (s.record i rc).calls = s.calls := by
  unfold record
  split <;> rfl

theorem record_firstError : (s.record i rc).firstError = if s.firstError = .ok then rc else s.firstError := by
  unfold record
  split <;> rfl

theorem settle_calls : (s.settle i op rc).calls = s.calls := by
  unfold settle
  split
  · split <;> exact record_calls rc
  · rfl

theorem settle_completedOps (s : ExecState ω η) (i : Nat) (op : Op) (rc : Code) :
    s.completedOps ≤ (s.settle i op rc).completedOps ∧ (s.settle i op rc).completedOps ≤ s.completedOps + 1 ∧
    (op.optional = true → (s.settle i op rc).completedOps = s.completedOps + 1) := by
  unfold settle
  split
  · split
    · exact ⟨by simp, by simp, fun _ => by simp⟩
    · rename_i hoptional
      exact ⟨by simp, by simp, fun h => absurd h hoptional⟩
  · exact ⟨Nat.le_succ _, le_rfl, fun _ => rfl⟩

theorem settle_prevFailed (h : s.prevFailed = true) : (s.settle i op rc).prevFailed = true := by
  unfold settle
  split
  · split
    · exact (record_prevFailed rc).trans h
    · rfl
  · exact h

theorem settle_firstError (h : s.firstError ≠ .ok) : (s.settle i op rc).firstError = s.firstError := by
  have hrecord : (s.record i rc).firstError = s.firstError := by
    rw [record_firstError, if_neg h]
  unfold settle
  split
  · split <;> exact hrecord
  · rfl

theorem settle_firstError_ok {rc : Code} (h : s.firstError = .ok) (hrc : rc ≠ .ok) :
    (s.settle i op rc).firstError = rc := by
  have hrecord : (s.record i rc).firstError = rc := by
    rw [record_firstError, if_pos h]
  unfold settle
  rw [if_pos hrc]
  split <;> exact hrecord

theorem dispatchOp_cases (m : Machine ω η) (s : ExecState ω η) (reg : η) (op : Op) :
    (dispatchOp m s reg op).2 = s ∨ (dispatchOp m s reg op) = s.call m reg op := by
  unfold dispatchOp
  split
  · exact .inl rfl
  split
  · exact .inl rfl
  split
  · exact .inl rfl
  · split
    · exact .inl rfl
    · exact .inr rfl

theorem dispatchOp_kept (m : Machine ω η) (s : ExecState ω η) (reg : η) (op : Op) :
    (dispatchOp m s reg op).2.completedOps = s.completedOps ∧ (dispatchOp m s reg op).2.prevFailed = s.prevFailed ∧
    (dispatchOp m s reg op).2.firstError = s.firstError ∧
    ((dispatchOp m s reg op).2.calls = s.calls ∨ (dispatchOp m s reg op).2.calls = s.calls ++ [(reg, op)]) :=
    by
  rcases dispatchOp_cases m s reg op with h | h
  · rw [h]
    exact ⟨rfl, rfl, rfl, .inl rfl⟩
  · rw [h]
    exact ⟨rfl, rfl, rfl, .inr rfl⟩

theorem executeTurn_completedOps (i : Nat) (reg : η) (op : Op) (s : ExecState ω η) :
    s.completedOps ≤ (executeTurn m i reg op s).completedOps ∧
    (op.optional = true → (executeTurn m i reg op s).completedOps = s.completedOps + 1) := by
  have hkept := (dispatchOp_kept m { s with anyExecuted := true } reg op).1
  have hsettle := settle_completedOps (dispatchOp m { s with anyExecuted := true } reg op).2 i op
    (dispatchOp m { s with anyExecuted := true } reg op).1
  rw [hkept] at hsettle
  exact ⟨hsettle.1, hsettle.2.2⟩

theorem executeTurn_firstError (h : s.firstError ≠ .ok) : (executeTurn m i reg op s).firstError = s.firstError := by
  have hkept := (dispatchOp_kept m { s with anyExecuted := true } reg op).2.2.1
  unfold executeTurn
  rw [settle_firstError _ (by rw [hkept]; exact h), hkept]

theorem executeTurn_calls (i : Nat) (reg : η) (op : Op) (s : ExecState ω η) :
    (executeTurn m i reg op s).calls = s.calls ∨ (executeTurn m i reg op s).calls = s.calls ++ [(reg, op)] := by
  unfold executeTurn
  rw [settle_calls]
  exact (dispatchOp_kept m { s with anyExecuted := true } reg op).2.2.2

theorem onceTurn_completedOps (i : Nat) (reg : η) (op : Op) (s : ExecState ω η) :
    (onceTurn m i reg op s).completedOps ≤ s.completedOps + 1 := by
  unfold onceTurn
  split
  · simp
  split
  · simp
  · split
    · exact (settle_completedOps ..).2.1
    · exact (settle_completedOps ..).2.1

theorem onceTurn_prevFailed (h : s.prevFailed = true) : (onceTurn m i reg op s).prevFailed = true := by
  unfold onceTurn
  split
  · rfl
  split
  · rfl
  · split
    · exact settle_prevFailed _ h
    · exact settle_prevFailed _ h

theorem onceTurn_firstError (h : s.firstError ≠ .ok) : (onceTurn m i reg op s).firstError = s.firstError := by
  have hrecord : (s.record i .invalidArgument).firstError = s.firstError := by
    rw [record_firstError, if_neg h]
  unfold onceTurn
  split
  · exact hrecord
  split
  · exact hrecord
  · split
    · exact settle_firstError _ h
    · exact settle_firstError _ h

theorem onceTurn_calls : s.calls <+: (onceTurn m i reg op s).calls := by
  unfold onceTurn
  split
  · rw [record_calls]
  split
  · rw [record_calls]
  split
  · rw [settle_calls]
  · rw [settle_calls]
    exact prefix_append ..

/-! ## Differences that stay -/

variable (l : List (η × Op))

theorem executeLoop_completedOps : s.completedOps ≤ (turnLoop (executeTurn m) i l s).completedOps := by
  induction l generalizing i s with
  | nil => exact le_rfl
  | cons x rest ih =>
    unfold turnLoop
    split
    · exact ih
    · split
      · exact le_rfl
      · exact (executeTurn_completedOps ..).1.trans ih

theorem behind (hstopped : t.prevFailed = true) (hlt : t.completedOps < s.completedOps) :
    (turnLoop (onceTurn m) i l t).completedOps < (turnLoop (executeTurn m) i l s).completedOps := by
  induction l generalizing i s t with
  | nil => exact hlt
  | cons x rest ih =>
    obtain ⟨reg, op⟩ := x
    cases hskip : op.skipOnError with
    | true =>
      rw [turnLoop_skip hstopped hskip]
      cases hprev : s.prevFailed with
      | true =>
        rw [turnLoop_skip hprev hskip]
        exact ih hstopped hlt
      | false =>
        rw [turnLoop_turn (.inl hprev)]
        exact ih hstopped (hlt.trans_le (executeTurn_completedOps ..).1)
    | false =>
      cases hoptional : op.optional with
      | false =>
        rw [turnLoop_stop hstopped hskip hoptional]
        exact hlt.trans_le (executeLoop_completedOps _)
      | true =>
        rw [turnLoop_turn (.inr ⟨hskip, hoptional⟩), turnLoop_turn (.inr ⟨hskip, hoptional⟩)]
        refine ih (onceTurn_prevFailed hstopped) ?_
        have h₁ := onceTurn_completedOps (m := m) i reg op t
        have h₂ := (executeTurn_completedOps (m := m) i reg op s).2 hoptional
        omega

theorem firstError_kept {turn : Nat → η → Op → ExecState ω η → ExecState ω η}
    (hturn : ∀ {i reg op s}, s.firstError ≠ .ok → (turn i reg op s).firstError = s.firstError) (l : List (η × Op))
    (h : s.firstError ≠ .ok) : (turnLoop turn i l s).firstError = s.firstError := by
  induction l generalizing i s with
  | nil => rfl
  | cons x rest ih =>
    unfold turnLoop
    split
    · exact ih h
    · split
      · rfl
      · rw [ih (by rw [hturn h]; exact h), hturn h]

theorem calls_subset {c : η × Op} (hc : c ∈ (turnLoop (executeTurn m) i l s).calls) :
    c ∈ s.calls ∨ c ∈ l := by
  induction l generalizing i s with
  | nil => exact .inl hc
  | cons x rest ih =>
    obtain ⟨reg, op⟩ := x
    unfold turnLoop at hc
    split at hc
    · exact (ih hc).imp_right (mem_cons_of_mem _)
    split at hc
    · exact .inl hc
    rcases ih hc with h | h
    · rcases executeTurn_calls (m := m) i reg op s with he | he
      · rw [he] at h
        exact .inl h
      · rw [he, mem_append, mem_singleton] at h
        rcases h with h | rfl
        · exact .inl h
        · exact .inr mem_cons_self
    · exact .inr (mem_cons_of_mem _ h)

theorem calls_kept : s.calls <+: (turnLoop (onceTurn m) i l s).calls := by
  induction l generalizing i s with
  | nil => exact prefix_rfl
  | cons x rest ih =>
    unfold turnLoop
    split
    · exact ih
    · split
      · exact prefix_rfl
      · exact onceTurn_calls.trans ih

/-! ## The turn of an op, case by case -/

theorem indexInRange_eq_false {crates : List Crate} {idx : Nat} :
    indexInRange crates idx = false ↔ idx ≠ crateIndexNone ∧ crates.length ≤ idx := by
  unfold indexInRange
  rw [decide_eq_false_iff_not, not_or, Nat.not_lt]

/-- The state after an op was executed. -/
def ExecState.executed (s : ExecState ω η) : ExecState ω η := { s with anyExecuted := true }

theorem record_executed : s.executed.record i rc = (s.record i rc).executed := by
  unfold record executed
  split <;> rfl

theorem settle_executed : s.executed.settle i op rc = (s.settle i op rc).executed := by
  unfold settle
  rw [record_executed]
  split
  · split <;> rfl
  · rfl

theorem settle_error {rc rc' : Code} (h : s.firstError ≠ .ok) (hrc : rc ≠ .ok) (hrc' : rc' ≠ .ok) :
    s.settle i op rc = s.settle i op rc' := by
  unfold settle record
  rw [if_pos hrc, if_pos hrc', if_neg h, if_neg h]

theorem executeTurn_outOfRange (h : op.OutOfRange s.crates) :
    executeTurn m i reg op s = (s.settle i op .invalidArgument).executed := by
  have hd : dispatchOp m s.executed reg op = (.invalidArgument, s.executed) := by
    unfold dispatchOp
    refine if_pos ?_
    unfold Op.OutOfRange at h
    rw [not_and_or, Bool.not_eq_true, Bool.not_eq_true] at h
    exact Bool.or_eq_true_iff.mpr (h.imp (by rw [executed]; simp) (by rw [executed]; simp))
  unfold executeTurn
  change (dispatchOp m s.executed reg op).2.settle i op (dispatchOp m s.executed reg op).1 = _
  rw [hd, settle_executed]

theorem executeTurn_badCrate (hrange : ¬op.OutOfRange s.crates) (h : op.BadCrate s.crates) :
    executeTurn m i reg op s = (s.settle i op .invalidBufferId).executed := by
  have hd : dispatchOp m s.executed reg op = (.invalidBufferId, s.executed) := by
    unfold Op.OutOfRange at hrange
    unfold Op.BadCrate at h
    rw [not_not] at hrange
    unfold dispatchOp
    have hcrates : s.executed.crates = s.crates := rfl
    rw [hcrates, hrange.1, hrange.2]
    rw [not_and_or, Bool.not_eq_true, Bool.not_eq_true] at h
    rcases h with h | h
    · rw [h]
      rfl
    · rw [h]
      cases crateOk s.crates op.inCrate <;> rfl
  unfold executeTurn
  change (dispatchOp m s.executed reg op).2.settle i op (dispatchOp m s.executed reg op).1 = _
  rw [hd, settle_executed]

theorem dispatchOp_good (reg : η) (hrange : ¬op.OutOfRange s.crates) (hcrate : ¬op.BadCrate s.crates) :
    dispatchOp m s.executed reg op =
      if !m.authorize s.world op.opKind then (.accessDenied, s.executed) else s.executed.call m reg op := by
  unfold Op.OutOfRange at hrange
  unfold Op.BadCrate at hcrate
  rw [not_not] at hrange hcrate
  unfold dispatchOp
  have hcrates : s.executed.crates = s.crates := rfl
  rw [hcrates, hrange.1, hrange.2, hcrate.1, hcrate.2]
  rfl

theorem onceTurn_outOfRange (h : op.OutOfRange s.crates) :
    onceTurn m i reg op s = { s.record i .invalidArgument with prevFailed := true } := by
  unfold Op.OutOfRange at h
  rw [not_and_or, Bool.not_eq_true, Bool.not_eq_true, indexInRange_eq_false, indexInRange_eq_false] at h
  unfold onceTurn
  rcases h with h | h
  · rw [if_pos h]
  · rw [if_pos h, ite_self]

theorem onceTurn_inRange (h : ¬op.OutOfRange s.crates) : onceTurn m i reg op s = if !m.authorize s.world op.opKind then
    s.settle i op .accessDenied else (s.call m reg op).2.executed.settle i op (s.call m reg op).1 := by
  unfold Op.OutOfRange at h
  rw [not_not] at h
  unfold onceTurn
  rw [if_neg, if_neg]
  · rfl
  · rw [← indexInRange_eq_false, h.2]
    exact Bool.noConfusion
  · rw [← indexInRange_eq_false, h.1]
    exact Bool.noConfusion

/-! ## The agreement -/

theorem settle_failed (s : ExecState ω η) (i : Nat) (op : Op) {rc : Code} (hrc : rc ≠ .ok) :
    (s.settle i op rc).firstError ≠ .ok ∧ (s.settle i op rc).prevFailed = (s.prevFailed || !op.optional) := by
  have hrecord : (s.record i rc).firstError ≠ .ok := by
    rw [record_firstError]
    split
    · exact hrc
    · assumption
  unfold settle
  rw [if_pos hrc]
  cases hoptional : op.optional with
  | true =>
    rw [if_pos rfl]
    exact ⟨hrecord, by simp⟩
  | false =>
    rw [if_neg Bool.false_ne_true]
    exact ⟨hrecord, by simp⟩

theorem settle_world (s : ExecState ω η) (i : Nat) (op : Op) (rc : Code) : (s.settle i op rc).world = s.world ∧
    (s.settle i op rc).crates = s.crates ∧ (s.settle i op rc).anyExecuted = s.anyExecuted := by
  have hrecord : (s.record i rc).world = s.world ∧ (s.record i rc).crates = s.crates ∧
      (s.record i rc).anyExecuted = s.anyExecuted := by
    unfold record
    split <;> exact ⟨rfl, rfl, rfl⟩
  unfold settle
  split
  · split <;> exact hrecord
  · exact ⟨rfl, rfl, rfl⟩

/-- What `Alike` asks of the ops that are left. -/
def ExecState.AlikeFrom (m : Machine ω η) (s : ExecState ω η) (l : List (η × Op)) : Prop :=
  Alike m l s.world s.crates (decide (s.firstError ≠ .ok)) s.prevFailed s.anyExecuted

theorem settle_alikeFrom (hrc : rc ≠ .ok) (l : List (η × Op)) :
    (s.settle i op rc).AlikeFrom m l =
      Alike m l s.world s.crates true (s.prevFailed || !op.optional) s.anyExecuted := by
  obtain ⟨hfirst, hprev⟩ := settle_failed s i op hrc
  obtain ⟨hw, hc, ha⟩ := settle_world s i op rc
  unfold ExecState.AlikeFrom
  rw [hw, hc, ha, hprev, decide_eq_true hfirst]

theorem alike_turn {rest : List (η × Op)} {w : ω} {crates : List Crate} {failed stopped called : Bool}
    (h : stopped = false ∨ (op.skipOnError = false ∧ op.optional = true)) :
    Alike m ((reg, op) :: rest) w crates failed stopped called ↔
      if op.OutOfRange crates then op.optional = false ∧ Alike m rest w crates true true called
      else if op.BadCrate crates then
        m.authorize w op.opKind = false ∧ failed = true ∧ Alike m rest w crates true (stopped || !op.optional) called
      else if m.authorize w op.opKind = false then Alike m rest w crates true (stopped || !op.optional) called
      else
        Alike m rest (m.handler reg op crates w).2.2 (m.handler reg op crates w).2.1
          (failed || (m.handler reg op crates w).1 ≠ .ok)
          (stopped || ((m.handler reg op crates w).1 ≠ .ok && !op.optional)) true := by
  have hskip : ¬(stopped && op.skipOnError) = true := by
    rcases h with h | h <;> simp [h]
  have hstop : ¬(stopped && !op.optional) = true := by
    rcases h with h | h <;> simp [h]
  rw [Alike, if_neg hskip, if_neg hstop]

theorem call_alikeFrom :
    ((s.call m reg op).2.executed.settle i op (s.call m reg op).1).AlikeFrom m l ↔
      Alike m l (m.handler reg op s.crates s.world).2.2 (m.handler reg op s.crates s.world).2.1
        (decide (s.firstError ≠ .ok) || (m.handler reg op s.crates s.world).1 ≠ .ok)
        (s.prevFailed || ((m.handler reg op s.crates s.world).1 ≠ .ok && !op.optional)) true := by
  have hrc : (s.call m reg op).1 = (m.handler reg op s.crates s.world).1 := rfl
  by_cases h : (m.handler reg op s.crates s.world).1 = .ok
  · rw [hrc, h]
    simp only [settle, ne_eq, not_true_eq_false, if_false, decide_false, Bool.or_false, Bool.false_and]
    rfl
  · rw [settle_alikeFrom _ (by rw [hrc]; exact h)]
    simp only [ne_eq, h, not_false_eq_true, decide_true, Bool.or_true, Bool.true_and]
    rfl

/-- The executors agree from op number `i` on. -/
def Agree (m : Machine ω η) (n i : Nat) (l : List (η × Op)) (s : ExecState ω η) : Prop :=
  (turnLoop (executeTurn m) i l s.executed).outcome n = (turnLoop (onceTurn m) i l s).outcome n

section

variable {rest : List (η × Op)}
  (ih : ∀ {s : ExecState ω η}, (∀ c ∈ rest, c ∉ s.calls) → (Agree m n (i + 1) rest s ↔ s.AlikeFrom m rest))
  (hnew : ∀ c ∈ rest, c ∉ s.calls)

include ih hnew

/-- Both record the error; only `ManifestExecute` lets an optional op pass. -/
theorem agree_outOfRange (hrange : op.OutOfRange s.crates) :
    (turnLoop (executeTurn m) (i + 1) rest (executeTurn m i reg op s.executed)).outcome n =
    (turnLoop (onceTurn m) (i + 1) rest (onceTurn m i reg op s)).outcome n ↔
    op.optional = false ∧ Alike m rest s.world s.crates true true s.anyExecuted := by
  rw [executeTurn_outOfRange (s := s.executed) hrange, onceTurn_outOfRange hrange, settle_executed]
  cases hoptional : op.optional with
  | false =>
    have hsettle : s.settle i op .invalidArgument = { s.record i .invalidArgument with prevFailed := true } := by
      unfold settle
      rw [if_pos nofun, hoptional]
      rfl
    rw [← hsettle]
    refine (ih (s := s.settle i op .invalidArgument) (by rw [settle_calls]; exact hnew)).trans ?_
    rw [settle_alikeFrom .invalidArgument nofun, hoptional, Bool.not_false, Bool.or_true]
    exact (and_iff_right rfl).symm
  | true =>
    have hcompleted := (settle_completedOps s i op .invalidArgument).2.2 hoptional
    refine iff_of_false (fun h => ?_) fun h => (nomatch h.1)
    refine absurd (congrArg Outcome.completedOps h) (behind rest rfl ?_).ne'
    change (s.record i .invalidArgument).completedOps < (s.settle i op .invalidArgument).completedOps
    rw [hcompleted, record_completedOps]
    exact Nat.lt_succ_self _

/-- `ManifestExecuteOnce` does not look whether a crate is valid. -/
theorem agree_badCrate (hrange : ¬op.OutOfRange s.crates) (hcrate : op.BadCrate s.crates) (hself : (reg, op) ∉ s.calls)
    (hx : (reg, op) ∉ rest) :
    (turnLoop (executeTurn m) (i + 1) rest (executeTurn m i reg op s.executed)).outcome n =
        (turnLoop (onceTurn m) (i + 1) rest (onceTurn m i reg op s)).outcome n ↔
      m.authorize s.world op.opKind = false ∧ decide (s.firstError ≠ .ok) = true ∧
        Alike m rest s.world s.crates true (s.prevFailed || !op.optional) s.anyExecuted := by
  rw [executeTurn_badCrate (s := s.executed) hrange hcrate, onceTurn_inRange hrange, settle_executed]
  cases hauth : m.authorize s.world op.opKind with
  | true =>
    -- the handler gets its call in one executor only
    refine iff_of_false (fun h => ?_) fun h => (nomatch h.1)
    have hcalls : (reg, op) ∈ (turnLoop (onceTurn m) (i + 1) rest
        ((s.call m reg op).2.executed.settle i op (s.call m reg op).1)).calls := by
      refine (calls_kept rest).subset ?_
      rw [settle_calls]
      exact mem_append_right _ (mem_singleton_self _)
    have hsame := congrArg Outcome.calls h
    rw [Bool.not_true, if_neg Bool.false_ne_true] at hsame
    change (turnLoop (executeTurn m) (i + 1) rest _).calls = (turnLoop (onceTurn m) (i + 1) rest _).calls at hsame
    rw [← hsame] at hcalls
    rcases calls_subset rest hcalls with hold | hlater
    · have hcalls' : (s.settle i op .invalidBufferId).executed.executed.calls = s.calls := settle_calls _
      rw [hcalls'] at hold
      exact hself hold
    · exact hx hlater
  | false =>
    rw [Bool.not_false, if_pos rfl]
    by_cases hfirst : s.firstError = .ok
    · refine iff_of_false (fun h => ?_) fun h => absurd h.2.1 (by simp [hfirst])
      have hE : (s.settle i op .invalidBufferId).executed.executed.firstError = .invalidBufferId :=
        settle_firstError_ok hfirst nofun
      have hO : (s.settle i op .accessDenied).firstError = .accessDenied := settle_firstError_ok hfirst nofun
      have hcode := congrArg Outcome.code h
      change (turnLoop (executeTurn m) (i + 1) rest _).firstError =
        (turnLoop (onceTurn m) (i + 1) rest _).firstError at hcode
      rw [firstError_kept executeTurn_firstError rest (by rw [hE]; nofun),
        firstError_kept onceTurn_firstError rest (by rw [hO]; nofun), hE, hO] at hcode
      cases hcode
    · have hsame : s.settle i op .invalidBufferId = s.settle i op .accessDenied := settle_error hfirst nofun nofun
      rw [hsame]
      refine (ih (s := s.settle i op .accessDenied) (by rw [settle_calls]; exact hnew)).trans ?_
      rw [settle_alikeFrom .accessDenied nofun, decide_eq_true hfirst]
      exact ⟨fun h => ⟨rfl, rfl, h⟩, fun h => h.2.2⟩

theorem agree_good (hrange : ¬op.OutOfRange s.crates) (hcrate : ¬op.BadCrate s.crates) (hx : (reg, op) ∉ rest) :
    (turnLoop (executeTurn m) (i + 1) rest (executeTurn m i reg op s.executed)).outcome n =
      (turnLoop (onceTurn m) (i + 1) rest (onceTurn m i reg op s)).outcome n ↔
      if m.authorize s.world op.opKind = false then
        Alike m rest s.world s.crates true (s.prevFailed || !op.optional) s.anyExecuted
      else
        Alike m rest (m.handler reg op s.crates s.world).2.2 (m.handler reg op s.crates s.world).2.1
          (decide (s.firstError ≠ .ok) || (m.handler reg op s.crates s.world).1 ≠ .ok)
          (s.prevFailed || ((m.handler reg op s.crates s.world).1 ≠ .ok && !op.optional)) true := by
  have hexecute : executeTurn m i reg op s.executed =
      (if !m.authorize s.world op.opKind then s.settle i op .accessDenied
        else (s.call m reg op).2.executed.settle i op (s.call m reg op).1).executed := by
    unfold executeTurn
    change (dispatchOp m s.executed reg op).2.settle i op (dispatchOp m s.executed reg op).1 = _
    rw [dispatchOp_good reg hrange hcrate]
    cases m.authorize s.world op.opKind with
    | true => exact settle_executed (s := (s.call m reg op).2.executed) (s.call m reg op).1
    | false => exact settle_executed _
  rw [hexecute, onceTurn_inRange hrange]
  cases hauth : m.authorize s.world op.opKind with
  | false =>
    rw [Bool.not_false, if_pos rfl, if_pos rfl]
    refine (ih (s := s.settle i op .accessDenied) (by rw [settle_calls]; exact hnew)).trans ?_
    rw [settle_alikeFrom .accessDenied nofun]
  | true =>
    rw [Bool.not_true, if_neg Bool.false_ne_true, if_neg Bool.noConfusion]
    refine (ih fun c hc => ?_).trans (call_alikeFrom rest)
    rw [settle_calls]
    change c ∉ s.calls ++ [(reg, op)]
    rw [mem_append, mem_singleton, not_or]
    exact ⟨hnew c hc, fun e => hx (e ▸ hc)⟩

end

/-- The executors agree exactly when the ops that are left are dealt with alike. -/
theorem agree_iff (hnodup : l.Nodup) (hnew : ∀ c ∈ l, c ∉ s.calls) :
    Agree m n i l s ↔ s.AlikeFrom m l := by
  induction l generalizing i s with
  | nil =>
    unfold Agree ExecState.AlikeFrom Alike turnLoop outcome executed
    cases s.anyExecuted <;> simp
  | cons x rest ih =>
    obtain ⟨reg, op⟩ := x
    obtain ⟨hx, hrest⟩ := nodup_cons.mp hnodup
    have hnew' : ∀ c ∈ rest, c ∉ s.calls := fun c hc => hnew c (mem_cons_of_mem _ hc)
    have hcases : (s.prevFailed = true ∧ op.skipOnError = true) ∨
        (s.prevFailed = true ∧ op.skipOnError = false ∧ op.optional = false) ∨
        (s.prevFailed = false ∨ (op.skipOnError = false ∧ op.optional = true)) := by
      cases s.prevFailed <;> cases op.skipOnError <;> cases op.optional <;> simp
    unfold Agree
    rcases hcases with ⟨hstopped, hskip⟩ | ⟨hstopped, hskip, hoptional⟩ | hturn
    · rw [turnLoop_skip hstopped hskip, turnLoop_skip (s := s.executed) hstopped hskip]
      refine (ih hrest hnew').trans ?_
      unfold ExecState.AlikeFrom
      rw [Alike, hstopped, hskip]
      rfl
    · rw [turnLoop_stop hstopped hskip hoptional, turnLoop_stop (s := s.executed) hstopped hskip hoptional]
      unfold ExecState.AlikeFrom
      rw [Alike, hstopped, hskip, hoptional]
      unfold outcome executed
      cases s.anyExecuted <;> simp
    · rw [turnLoop_turn hturn, turnLoop_turn (s := s.executed) hturn]
      unfold ExecState.AlikeFrom
      rw [alike_turn hturn]
      by_cases hrange : op.OutOfRange s.crates
      · rw [if_pos hrange]
        exact agree_outOfRange (fun h => ih hrest h) hnew' hrange
      rw [if_neg hrange]
      by_cases hcrate : op.BadCrate s.crates
      · rw [if_pos hcrate]
        exact agree_badCrate (fun h => ih hrest h) hnew' hrange hcrate (hnew _ mem_cons_self) hx
      · rw [if_neg hcrate]
        exact agree_good (fun h => ih hrest h) hnew' hrange hcrate hx

/-! ## Compiled and one-shot execution -/

/-- The ops of a byte string with the handlers they have in the registry. -/
def registeredOps (m : Machine ω η) (bytes : List UInt8) : List (η × Op) :=
  (((indexOps bytes (opCount bytes) headerSize).map (·.1)).getD []).filterMap fun off =>
    (m.lookup (opAt bytes off).opKind).map fun reg => (reg, opAt bytes off)

theorem manifestCompile_ok {wc : ω} {cm : CompiledManifest η}
    (h : manifestCompile m wc bytes = .ok cm) : checkHeader bytes = .ok ∧ cm.rawBytes = bytes ∧
      indexOps bytes (opCount bytes) headerSize = some (cm.opOffsets, bytes.length) ∧
      resolveHandlers m wc bytes cm.opOffsets = .ok cm.handlers := by
  unfold manifestCompile at h
  split at h
  · cases h
  split at h
  · cases h
  split at h
  · cases h
  cases hindex : validateAndIndex bytes with
  | error e =>
    rw [hindex] at h
    cases h
  | ok offsets =>
    cases hresolve : resolveHandlers m wc bytes offsets with
    | error e =>
      simp only [hindex, hresolve, bind, Except.bind] at h
      cases h
    | ok handlers =>
      simp only [hindex, hresolve, bind, Except.bind, pure, Except.pure] at h
      cases h
      unfold validateAndIndex at hindex
      split at hindex
      · cases hindex
      rename_i hheader
      split at hindex
      · cases hindex
      rename_i offsets' stop hops
      split at hindex
      · cases hindex
      rename_i hstop
      cases hindex
      rw [not_not] at hheader hstop
      exact ⟨hheader, rfl, by rw [hops, hstop], hresolve⟩

theorem opsAt_eq {wc : ω}
    (h : resolveHandlers m wc bytes offsets = .ok handlers) : opsAt bytes (offsets.zip handlers) =
      offsets.filterMap fun off => (m.lookup (opAt bytes off).opKind).map fun reg => (reg, opAt bytes off) := by
  induction offsets generalizing handlers with
  | nil => rfl
  | cons off rest ih =>
    unfold resolveHandlers at h
    split at h
    · cases h
    rename_i reg hlookup
    split at h
    · cases hr : resolveHandlers m wc bytes rest with
      | error e =>
        rw [hr] at h
        cases h
      | ok hs =>
        rw [hr] at h
        cases h
        rw [filterMap_cons, hlookup]
        exact congrArg ((reg, opAt bytes off) :: ·) (ih hr)
    · cases h

theorem opsAt_nodup (hlen : handlers.length = offsets.length) (h : offsets.Nodup) :
    (opsAt bytes (offsets.zip handlers)).Nodup := by
  refine Nodup.of_map (fun x => x.2.offset) ?_
  have hoffsets :
      (opsAt bytes (offsets.zip handlers)).map (fun x => x.2.offset) = (offsets.zip handlers).map (·.1) := by
    unfold opsAt
    rw [List.map_map]
    rfl
  rw [hoffsets, map_fst_zip hlen.ge]
  exact h

theorem turnLoop_executed (hl : l ≠ []) (h : s.prevFailed = false) :
    turnLoop (executeTurn m) i l s = turnLoop (executeTurn m) i l s.executed := by
  cases l with
  | nil => exact absurd rfl hl
  | cons x rest =>
    obtain ⟨reg, op⟩ := x
    rw [turnLoop_turn (.inl h), turnLoop_turn (s := s.executed) (.inl h)]
    rfl

/-- Compiled and one-shot execution of the same manifest agree exactly when every op that gets its turn is dealt with
alike. -/
theorem execute_agrees_iff (m : Machine ω η) (wc w : ω) (bytes : List UInt8) (crates : List Crate)
    {cm : CompiledManifest η} (h : manifestCompile m wc bytes = .ok cm) :
    (manifestExecuteOnce m bytes crates w).map (·.1) = .ok (manifestExecute m cm crates w).1 ↔
      Alike m (registeredOps m bytes) (batchBegin m (opCount bytes) w) crates false false false := by
  obtain ⟨hheader, hraw, hindex, hresolve⟩ := manifestCompile_ok h
  have hlen := indexOps_length hindex
  have hops : opsAt bytes (cm.opOffsets.zip cm.handlers) = registeredOps m bytes := by
    rw [opsAt_eq hresolve, registeredOps, hindex]
    rfl
  have hne : registeredOps m bytes ≠ [] := by
    intro hnil
    rw [← hops] at hnil
    have hzero := congrArg List.length hnil
    rw [opsAt, length_map, length_zip, resolveHandlers_length hresolve, hlen, min_self] at hzero
    unfold checkHeader at hheader
    simp only [hzero, length_nil] at hheader
    split at hheader
    · cases hheader
    split at hheader
    · cases hheader
    split at hheader
    · cases hheader
    · split at hheader
      · cases hheader
      · cases hheader
  have hnodup : (registeredOps m bytes).Nodup := by
    rw [← hops]
    exact opsAt_nodup (resolveHandlers_length hresolve) (indexOps_sorted hindex).2
  have honce : (manifestExecuteOnce m bytes crates w).map (·.1) =
      .ok ((turnLoop (onceTurn m) 0 (registeredOps m bytes)
        (.init (batchBegin m (opCount bytes) w) crates)).outcome (opCount bytes)) := by
    unfold manifestExecuteOnce
    rw [if_neg (by rw [hheader]; exact fun hk => hk rfl)]
    simp only [executeOnceLoop_eq bytes hindex hresolve, hops]
    rfl
  have hcompiled : (manifestExecute m cm crates w).1 = (turnLoop (executeTurn m) 0 (registeredOps m bytes)
      (init (batchBegin m (opCount bytes) w) crates).executed).outcome (opCount bytes) := by
    unfold manifestExecute
    simp only [executeLoop_eq, hraw, hops, hlen]
    rw [turnLoop_executed _ hne rfl]
  rw [honce, hcompiled, Except.ok.injEq, eq_comm]
  exact agree_iff _ hnodup nofun

/-! ## One op -/

/-- A machine whose only handler does nothing. -/
def quietMachine : Machine Unit Unit where
  lookup _ := some ()
  authorize _ _ := true
  handler _ _ crates w := (.ok, crates, w)
  canvasBatchBegin := id
  canvasBatchEnd := id

/-- A manifest of one op with the given flags and input crate. -/
def oneOp (flags inLow inHigh : UInt8) : List UInt8 :=
  [0x4D, 0x4E, 0x4F, 0x53, 1, 0, 1, 0, 0, 0, 0, 0, 28, 0, 0, 0] ++
    [1, 0, 0, 0, flags, 0, inLow, inHigh, 0xFF, 0xFF, 0, 0]

theorem execute_agrees_iff_one : ∃ cm, manifestCompile quietMachine () (oneOp 0 0xFF 0xFF) = .ok cm ∧
    (manifestExecuteOnce quietMachine (oneOp 0 0xFF 0xFF) [] ()).map (·.1) =
    .ok (manifestExecute quietMachine cm [] ()).1 := by
  have hcompile : manifestCompile quietMachine () (oneOp 0 0xFF 0xFF) = .ok ⟨oneOp 0 0xFF 0xFF, [16], [()]⟩ := rfl
  refine ⟨_, hcompile, (execute_agrees_iff _ _ _ _ _ hcompile).mpr ?_⟩
  have hops : registeredOps quietMachine (oneOp 0 0xFF 0xFF) = [((), opAt (oneOp 0 0xFF 0xFF) 16)] := rfl
  rw [hops, alike_turn (.inl rfl), if_neg (by decide), if_neg (by decide), if_neg (by decide)]
  rfl

/-- An optional op with a crate out of range is completed by one executor and stops the other. -/
theorem optional_out_of_range_differs :
    ∃ cm, manifestCompile quietMachine () (oneOp 8 0 0) = .ok cm ∧
      (manifestExecuteOnce quietMachine (oneOp 8 0 0) [] ()).map (·.1) ≠
        .ok (manifestExecute quietMachine cm [] ()).1 := by
  refine ⟨⟨oneOp 8 0 0, [16], [()]⟩, rfl, fun h => ?_⟩
  have honce : (manifestExecuteOnce quietMachine (oneOp 8 0 0) [] ()).map (·.1.completedOps) = .ok 0 := rfl
  have hcompiled : (manifestExecute quietMachine ⟨oneOp 8 0 0, [16], [()]⟩ [] ()).1.completedOps = 1 := rfl
  have hboth := congrArg (Except.map Outcome.completedOps) h
  cases (honce.symm.trans hboth).trans (congrArg Except.ok hcompiled)

end BoxOS.Manifest
