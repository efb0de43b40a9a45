import Mathlib.Algebra.GroupWithZero.Nat
import Mathlib.Data.Fintype.Basic
import Mathlib.Tactic.FinCases

/-! # The write token of an open file

Asynchronous writes to one file take turns: `ObjWriteAsync` claims the file's token or queues behind it, and the job
that ends hands it on and wakes the next one. A step is one access to shared memory or one section under
`async_token_lock`; a run is any interleaving of the steps of submitters, baton workers and disk completions. What a
handler finds in its job's data is a choice of the environment. -/

set_option linter.unusedSectionVars false
namespace BoxOS.Storage

open List

inductive WriteJobState where
  | init
  | tokenWait
  | locate
  | alloc
  | cowBefore
  | cowReadOld
  | dmaFill
  | ahciSubmit
  | ahciDone
  | beginTxn
  | logMeta
  | cowAfter
  | commitTxn
  | publish
  | releaseToken
  | done
  | error
  deriving DecidableEq, Repr

/-- What the handlers find in the job: whether their allocations, submissions and statuses are good, and the
conditions they branch on. -/
structure JobFacts where
  staleMount : Bool := false
  ok : Bool := true
  found : Bool := true
  cow : Bool := false
  partialRmw : Bool := false
  allocFresh : Bool := false
  bytesLeft : Bool := false
  metaUnchanged : Bool := false
  cowRedirected : Bool := false
  deriving DecidableEq, Repr

/-- How a handler of `wjob_pump` ends: with the next state stored, with a command given to the disk, or in
`wjob_finalize` with an error. -/
inductive Handled where
  | next (s : WriteJobState)
  | submitted (write : Bool)
  | failed
  deriving DecidableEq, Repr

variable (c : JobFacts)

def wLocate : Handled :=
  if !c.found then .next .alloc
  else if !c.allocFresh && c.cow then .next .cowBefore
  else if c.partialRmw && !c.allocFresh then .next .cowReadOld
  else .next .dmaFill

def wAlloc : Handled :=
  if c.ok then .next .locate else .failed

def wCowBefore : Handled :=
  if !c.ok then .failed else if c.partialRmw then .next .cowReadOld else .next .dmaFill

def wCowReadOld : Handled :=
  if c.ok then .submitted false else .failed

def wAhciSubmit : Handled :=
  if c.ok then .submitted true else .failed

def wAhciDone : Handled :=
  if !c.ok then .failed else if c.bytesLeft then .next .locate else .next .beginTxn

def wLogMeta : Handled :=
  if c.metaUnchanged then .next .commitTxn
  else if !c.ok then .failed
  else if c.cowRedirected then .next .cowAfter
  else .next .commitTxn

/-- The handlers of the states that `wjob_pump` works on before the token is released. -/
def handle : WriteJobState → Option Handled
  | .locate => some (wLocate c)
  | .alloc => some (wAlloc c)
  | .cowBefore => some (wCowBefore c)
  | .cowReadOld => some (wCowReadOld c)
  | .dmaFill => some (.next .ahciSubmit)
  | .ahciSubmit => some (wAhciSubmit c)
  | .ahciDone => some (wAhciDone c)
  | .beginTxn => some (.next .logMeta)
  | .logMeta => some (wLogMeta c)
  | .cowAfter => some (.next .commitTxn)
  | .commitTxn => some (.next .publish)
  | .publish => some (.next .releaseToken)
  | _ => none

/-- Who hands the token on: `w_release_token`, or `wjob_finalize` of a job that failed. -/
inductive HandOff where
  | release
  | failure
  deriving DecidableEq, Repr

/-- A point in `wjob_pump`, named by what comes next. -/
inductive Pump (J : Type) where
  | enter
  | load
  | handle (s : WriteJobState)
  | handOff (k : HandOff)
  | storeNext (k : HandOff) (n : J)
  | passNext (k : HandOff) (n : J)
  | finish (k : HandOff)
  deriving DecidableEq, Repr

/-- Where a job is. `handed` and `located` lie between its leaving the pending list and the `BatonPass` of the
finishing job `i`; `completed` between the state store of its disk completion and the `BatonPass`; `stranded` jobs
were left by `wjob_pump` in a state it does not work on. -/
inductive Place (J : Type) where
  | fresh
  | claimed
  | pending
  | handed (i : J)
  | located (i : J)
  | baton
  | pumping (p : Pump J)
  | disk (write : Bool)
  | completed
  | stranded
  | freed
  deriving DecidableEq, Repr

open Place

/-- A write job. `waitDue`: its submitter has queued it and not yet stored `W_TOKEN_WAIT`; `released`: it has given
the token back; `ticket`: the turn in which its submitter held the lock. -/
structure WriteJob (J : Type) where
  state : WriteJobState := .init
  place : Place J := .fresh
  waitDue : Bool := false
  released : Bool := false
  ticket : Nat := 0
  deriving DecidableEq, Repr

/-- The token of an `OpenFileEntry`. -/
structure AsyncToken (J : Type) where
  owner : Option J := none
  pending : List J := []
  deriving DecidableEq, Repr

structure TokenState (J F : Type) where
  jobs : J → WriteJob J := fun _ => {}
  tokens : F → AsyncToken J := fun _ => {}
  batons : List J := []
  clock : Nat := 0

open TokenState

inductive TokenEvent (J : Type) where
  | tryClaim (j : J)
  | submitStore (j : J)
  | pump (j : J) (c : JobFacts)
  | complete (j : J) (ok : Bool)
  | completePass (j : J)
  | take
  deriving DecidableEq, Repr

variable {J F : Type} [DecidableEq J] [DecidableEq F]

def TokenState.setJob (s : TokenState J F) (j : J) (w : WriteJob J) : TokenState J F :=
  { s with jobs := Function.update s.jobs j w }

def TokenState.setToken (s : TokenState J F) (f : F) (t : AsyncToken J) : TokenState J F :=
  { s with tokens := Function.update s.tokens f t }

@[simp, grind =]
theorem TokenState.setJob_jobs (s : TokenState J F) (j i : J) (w : WriteJob J) :
    (s.setJob j w).jobs i = if i = j then w else s.jobs i :=
  Function.update_apply ..

@[simp, grind =]
theorem TokenState.setJob_tokens (s : TokenState J F) (j : J) (w : WriteJob J) (f : F) :
    (s.setJob j w).tokens f = s.tokens f :=
  rfl

@[simp, grind =]
theorem TokenState.setJob_batons (s : TokenState J F) (j : J) (w : WriteJob J) : (s.setJob j w).batons = s.batons :=
  rfl

@[simp, grind =]
theorem TokenState.setJob_clock (s : TokenState J F) (j : J) (w : WriteJob J) : (s.setJob j w).clock = s.clock :=
  rfl

@[simp, grind =]
theorem TokenState.setToken_tokens (s : TokenState J F) (f g : F) (t : AsyncToken J) :
    (s.setToken f t).tokens g = if g = f then t else s.tokens g :=
  Function.update_apply ..

@[simp, grind =]
theorem TokenState.setToken_jobs (s : TokenState J F) (f : F) (t : AsyncToken J) (j : J) :
    (s.setToken f t).jobs j = s.jobs j :=
  rfl

@[simp, grind =]
theorem TokenState.setToken_batons (s : TokenState J F) (f : F) (t : AsyncToken J) :
    (s.setToken f t).batons = s.batons :=
  rfl

@[simp, grind =]
theorem TokenState.setToken_clock (s : TokenState J F) (f : F) (t : AsyncToken J) : (s.setToken f t).clock = s.clock :=
  rfl

/-- `token_try_claim`, the section under the lock; `file` is the file a job writes to. -/
def tokenTryClaim (file : J → F) (s : TokenState J F) (j : J) : TokenState J F :=
  let w := s.jobs j
  let t := s.tokens (file j)
  if w.place = .fresh then
    match t.owner with
    | none =>
      { (s.setToken (file j) { t with owner := some j }).setJob j { w with place := .claimed, ticket := s.clock } with
        clock := s.clock + 1 }
    | some _ =>
      { (s.setToken (file j) { t with pending := t.pending ++ [j] }).setJob j
          { w with place := .pending, waitDue := true, ticket := s.clock } with
        clock := s.clock + 1 }
  else s

/-- The store of `ObjWriteAsync` behind `token_try_claim`: `W_LOCATE` and the call of `wjob_pump`, or
`W_TOKEN_WAIT`. -/
def submitStore (s : TokenState J F) (j : J) : TokenState J F :=
  let w := s.jobs j
  if w.place = .claimed then s.setJob j { w with state := .locate, place := .pumping .enter }
  else if w.waitDue then s.setJob j { w with state := .tokenWait, waitDue := false }
  else s

/-- `token_release_handoff`, the section under the lock. -/
def tokenReleaseHandoff (file : J → F) (s : TokenState J F) (j : J) (k : HandOff) : TokenState J F :=
  let w := s.jobs j
  let t := s.tokens (file j)
  if t.owner = some j then
    match t.pending with
    | [] =>
      (s.setToken (file j) { t with owner := none }).setJob j { w with place := .pumping (.finish k), released := true }
    | n :: rest =>
      ((s.setToken (file j) { owner := some n, pending := rest }).setJob n { s.jobs n with place := .handed j }).setJob
        j { w with place := .pumping (.storeNext k n), released := true }
  else s.setJob j { w with place := .pumping (.finish k) }

/-- One step of `wjob_pump` on the job `j`. -/
def pumpStep (file : J → F) (s : TokenState J F) (j : J) (c : JobFacts) : Pump J → TokenState J F
  | .enter => s.setJob j { s.jobs j with place := .pumping (if c.staleMount then .handOff .failure else .load) }
  | .load =>
    match (s.jobs j).state with
    | .init | .tokenWait | .error => s.setJob j { s.jobs j with place := .stranded }
    | .releaseToken => s.setJob j { s.jobs j with place := .pumping (.handOff .release) }
    | .done => s.setJob j { s.jobs j with place := .freed }
    | st => s.setJob j { s.jobs j with place := .pumping (.handle st) }
  | .handle st =>
    match handle c st with
    | some (.next st') => s.setJob j { s.jobs j with state := st', place := .pumping .load }
    | some (.submitted write) => s.setJob j { s.jobs j with place := .disk write }
    | some .failed => s.setJob j { s.jobs j with place := .pumping (.handOff .failure) }
    | none => s
  | .handOff k => tokenReleaseHandoff file s j k
  | .storeNext k n =>
    (s.setJob n { s.jobs n with state := .locate, place := .located j }).setJob j
      { s.jobs j with place := .pumping (.passNext k n) }
  | .passNext k n =>
    { (s.setJob n { s.jobs n with place := .baton }).setJob j { s.jobs j with place := .pumping (.finish k) } with
      batons := s.batons ++ [n] }
  | .finish .release => s.setJob j { s.jobs j with state := .done, place := .pumping .load }
  | .finish .failure => s.setJob j { s.jobs j with place := .freed }

/-- `wjob_cow_read_complete` and `wjob_ahci_complete`, the state store. -/
def diskComplete (s : TokenState J F) (j : J) (ok : Bool) : TokenState J F :=
  match (s.jobs j).place with
  | .disk write =>
    s.setJob j { s.jobs j with state := if !write && ok then .dmaFill else .ahciDone, place := .completed }
  | _ => s

def TokenState.step (file : J → F) (s : TokenState J F) : TokenEvent J → TokenState J F
  | .tryClaim j => tokenTryClaim file s j
  | .submitStore j => submitStore s j
  | .pump j c =>
    match (s.jobs j).place with
    | .pumping p => pumpStep file s j c p
    | _ => s
  | .complete j ok => diskComplete s j ok
  | .completePass j =>
    if (s.jobs j).place = .completed then
      { s.setJob j { s.jobs j with place := .baton } with batons := s.batons ++ [j] }
    else s
  | .take =>
    match s.batons with
    | [] => s
    | j :: rest => { s.setJob j { s.jobs j with place := .pumping .enter } with batons := rest }

def TokenState.run (file : J → F) (es : List (TokenEvent J)) : TokenState J F :=
  es.foldl (TokenState.step file) {}

/-! ## What the hand-off promises -/

/-- The job has its turn: it is past the claim or the hand-off and has not released the token. -/
def WriteJob.Turn (w : WriteJob J) : Prop :=
  w.released = false ∧ w.place ≠ .fresh ∧ w.place ≠ .pending ∧ w.place ≠ .freed

/-- `wjob_pump` runs on the job, or its submitter is about to call it. -/
def TokenState.Pumped (s : TokenState J F) (j : J) : Prop :=
  (s.jobs j).place = .claimed ∨ ∃ p, (s.jobs j).place = .pumping p

/-- A disk command of the job is under way, or its completion is on the way to `wjob_pump`. -/
def TokenState.OnDisk (s : TokenState J F) (j : J) : Prop :=
  (∃ write, (s.jobs j).place = .disk write) ∨
    ((s.jobs j).place = .completed ∨ j ∈ s.batons) ∧ ((s.jobs j).state = .dmaFill ∨ (s.jobs j).state = .ahciDone)

/-- The job has been handed the token: a finishing job is about to store `W_LOCATE` in it, or it is in that state
with its baton passed or about to be. -/
def TokenState.Woken (s : TokenState J F) (j : J) : Prop :=
  (∃ i k, (s.jobs i).place = .pumping (.storeNext k j)) ∨
    (s.jobs j).state = .locate ∧ ((∃ i k, (s.jobs i).place = .pumping (.passNext k j)) ∨ j ∈ s.batons)

/-- One job of a file has its turn, and it is the owner; the pending list holds the waiting jobs once, in the order
of their submission, and only behind an owner; and somebody runs the owner or is going to. -/
structure TokenState.Kept (file : J → F) (s : TokenState J F) : Prop where
  turn : ∀ f j, (s.tokens f).owner = some j ↔ file j = f ∧ (s.jobs j).Turn
  waiting : ∀ f j, j ∈ (s.tokens f).pending ↔ file j = f ∧ (s.jobs j).place = .pending
  order : ∀ f, (s.tokens f).pending.Pairwise fun i j => (s.jobs i).ticket < (s.jobs j).ticket
  behind : ∀ f, (s.tokens f).owner = none → (s.tokens f).pending = []
  served : ∀ f j, (s.tokens f).owner = some j → s.Pumped j ∨ s.OnDisk j ∨ s.Woken j

/-! ## The state of one job -/

/-- The states in which a baton may reach `wjob_pump`. -/
def WriteJobState.wakes : WriteJobState → Bool
  | .locate => true
  | .dmaFill => true
  | .ahciDone => true
  | _ => false

/-- The states `wjob_pump` goes on with while the job has the token. -/
def WriteJobState.works : WriteJobState → Bool
  | .init => false
  | .tokenWait => false
  | .error => false
  | .done => false
  | _ => true

/-- The state, the flags and the place of a job fit together; no job is stranded. -/
def WriteJob.Ok (w : WriteJob J) : Prop :=
  match w.place with
  | .fresh => w.released = false ∧ w.waitDue = false
  | .pending | .handed _ => w.released = false
  | .claimed | .disk _ => w.released = false ∧ w.waitDue = false
  | .located _ => w.released = false ∧ w.waitDue = false ∧ w.state = .locate
  | .completed => w.released = false ∧ w.waitDue = false ∧ (w.state = .dmaFill ∨ w.state = .ahciDone)
  | .baton | .pumping .enter => w.released = false ∧ w.waitDue = false ∧ w.state.wakes = true
  | .pumping .load => w.waitDue = false ∧ if w.released then w.state = .done else w.state.works = true
  | .pumping (.handle _) | .pumping (.handOff _) => w.released = false ∧ w.waitDue = false
  | .pumping (.storeNext _ _) | .pumping (.passNext _ _) | .pumping (.finish _) => w.released = true ∧ w.waitDue = false
  | .stranded => False
  | .freed => w.waitDue = false

theorem WriteJobState.works_of_wakes {st : WriteJobState} (h : st.wakes = true) : st.works = true := by
  cases st <;> first | rfl | exact nomatch h

theorem handle_works {c : JobFacts} {st st' : WriteJobState} (h : handle c st = some (.next st')) :
    st'.works = true := by
  cases st <;> simp only [handle, wLocate, wAlloc, wCowBefore, wCowReadOld, wAhciSubmit, wAhciDone, wLogMeta,
    Option.some.injEq, Handled.next.injEq, reduceCtorEq] at h <;> (try split_ifs at h) <;> cases h <;> rfl

/-! ## How jobs, lists and owners hang together -/

/-- What the rest of the state knows about a job. -/
inductive Role (J : Type) where
  | alone
  | pending
  | handed (i : J)
  | located (i : J)
  | baton
  | storing (n : J)
  | passing (n : J)

def Place.role : Place J → Role J
  | .pending => .pending
  | .handed i => .handed i
  | .located i => .located i
  | .baton => .baton
  | .pumping (.storeNext _ n) => .storing n
  | .pumping (.passNext _ n) => .passing n
  | _ => .alone

variable {p : Place J}

theorem Place.role_pending : p.role = .pending ↔ p = .pending := by
  cases p
  case pumping q => cases q <;> simp [role]
  all_goals simp [role]

theorem Place.role_baton : p.role = .baton ↔ p = .baton := by
  cases p
  case pumping q => cases q <;> simp [role]
  all_goals simp [role]

theorem Place.role_handed {i : J} : p.role = .handed i ↔ p = .handed i := by
  cases p
  case pumping q => cases q <;> simp [role]
  all_goals simp [role]

theorem Place.role_located {i : J} : p.role = .located i ↔ p = .located i := by
  cases p
  case pumping q => cases q <;> simp [role]
  all_goals simp [role]

theorem Place.role_storing {n : J} : p.role = .storing n ↔ ∃ k, p = .pumping (.storeNext k n) := by
  cases p
  case pumping q => cases q <;> simp [role]
  all_goals simp [role]

theorem Place.role_passing {n : J} : p.role = .passing n ↔ ∃ k, p = .pumping (.passNext k n) := by
  cases p
  case pumping q => cases q <;> simp [role]
  all_goals simp [role]

structure TokenState.Links (file : J → F) (s : TokenState J F) : Prop where
  turn : ∀ f j, (s.tokens f).owner = some j ↔ file j = f ∧ (s.jobs j).Turn
  waiting : ∀ f j, j ∈ (s.tokens f).pending ↔ file j = f ∧ (s.jobs j).place.role = .pending
  order : ∀ f, (s.tokens f).pending.Pairwise fun i j => (s.jobs i).ticket < (s.jobs j).ticket
  before : ∀ f, ∀ j ∈ (s.tokens f).pending, (s.jobs j).ticket < s.clock
  behind : ∀ f, (s.tokens f).owner = none → (s.tokens f).pending = []
  batons : ∀ j, j ∈ s.batons ↔ (s.jobs j).place.role = .baton
  nodup : s.batons.Nodup
  handed : ∀ i n, (s.jobs n).place.role = .handed i ↔ (s.jobs i).place.role = .storing n
  located : ∀ i n, (s.jobs n).place.role = .located i ↔ (s.jobs i).place.role = .passing n

theorem TokenState.Links.setJob {file : J → F} {s : TokenState J F} (h : s.Links file) {j : J} {w : WriteJob J}
    (hturn : w.Turn ↔ (s.jobs j).Turn) (hrole : w.place.role = (s.jobs j).place.role)
    (hticket : w.ticket = (s.jobs j).ticket) : (s.setJob j w).Links file := by
  have hT : ∀ i, ((s.setJob j w).jobs i).Turn ↔ (s.jobs i).Turn := by
    intro i
    rw [setJob_jobs]
    split
    · rename_i hi
      rw [hi, hturn]
    · rfl
  have hR : ∀ i, ((s.setJob j w).jobs i).place.role = (s.jobs i).place.role := by
    intro i
    rw [setJob_jobs]
    split
    · rename_i hi
      rw [hi, hrole]
    · rfl
  have hK : ∀ i, ((s.setJob j w).jobs i).ticket = (s.jobs i).ticket := by
    intro i
    rw [setJob_jobs]
    split
    · rename_i hi
      rw [hi, hticket]
    · rfl
  refine ⟨?_, ?_, ?_, ?_, h.behind, ?_, h.nodup, ?_, ?_⟩ <;> simp only [hT, hR, hK]
  · exact h.turn
  · exact h.waiting
  · exact h.order
  · exact h.before
  · exact h.batons
  · exact h.handed
  · exact h.located

section steps

variable {file : J → F} {s : TokenState J F}

section

variable (h : s.Links file)

include h

theorem TokenState.Links.claim {j : J} {w : WriteJob J} (hfresh : (s.jobs j).place = .fresh)
    (hfree : (s.tokens (file j)).owner = none) (hturn : w.Turn) (hrole : w.place.role = .alone) (n : Nat) :
    TokenState.Links file
      { (s.setToken (file j) { s.tokens (file j) with owner := some j }).setJob j w with clock := s.clock + n } := by
  have hold : ¬ (s.jobs j).Turn := fun ht => ht.2.1 hfresh
  have holdrole : (s.jobs j).place.role = .alone := by
    rw [hfresh]
    rfl
  obtain ⟨h1, h2, h3, h4, h5, h6, h7, h8, h9⟩ := h
  refine ⟨?_, ?_, fun f => ?order, ?_, ?_, ?_, ?_, ?_, ?_⟩
  case order =>
    have hsame : (((s.setToken (file j) { s.tokens (file j) with owner := some j }).setJob j w).tokens f).pending =
        (s.tokens f).pending := by grind
    rw [hsame]
    refine (h3 f).imp_of_mem fun hi hk hlt => ?_
    grind
  all_goals grind

/-- The token was taken: the job queues up behind the others. -/
theorem TokenState.Links.enqueue {j o : J} {w : WriteJob J} (hfresh : (s.jobs j).place = .fresh)
    (howned : (s.tokens (file j)).owner = some o) (hturn : ¬ w.Turn) (hrole : w.place.role = .pending)
    (hticket : w.ticket = s.clock) :
    TokenState.Links file
      { (s.setToken (file j) { s.tokens (file j) with pending := (s.tokens (file j)).pending ++ [j] }).setJob j w with
        clock := s.clock + 1 } := by
  have hold : ¬ (s.jobs j).Turn := fun ht => ht.2.1 hfresh
  have holdrole : (s.jobs j).place.role = .alone := by
    rw [hfresh]
    rfl
  obtain ⟨h1, h2, h3, h4, h5, h6, h7, h8, h9⟩ := h
  refine ⟨?_, ?_, fun f => ?order, ?_, ?_, ?_, ?_, ?_, ?_⟩
  case order =>
    have hkept : (s.tokens f).pending.Pairwise fun a b =>
        (if a = j then w else s.jobs a).ticket < (if b = j then w else s.jobs b).ticket := by
      refine (h3 f).imp_of_mem fun hi hk hlt => ?_
      grind
    simp only [setJob_jobs, setToken_jobs, setJob_tokens, setToken_tokens]
    split
    · rename_i hf
      subst hf
      refine pairwise_append.mpr ⟨hkept, pairwise_singleton .., fun a ha b hb => ?_⟩
      grind
    · exact hkept
  all_goals grind

theorem TokenState.Links.free {j : J} {w : WriteJob J} (howner : (s.tokens (file j)).owner = some j)
    (hnil : (s.tokens (file j)).pending = []) (hold : (s.jobs j).place.role = .alone) (hturn : ¬ w.Turn)
    (hrole : w.place.role = .alone) :
    TokenState.Links file ((s.setToken (file j) { s.tokens (file j) with owner := none }).setJob j w) := by
  obtain ⟨h1, h2, h3, h4, h5, h6, h7, h8, h9⟩ := h
  refine ⟨?_, ?_, fun f => ?order, ?_, ?_, ?_, ?_, ?_, ?_⟩
  case order =>
    have hsame : (((s.setToken (file j) { s.tokens (file j) with owner := none }).setJob j w).tokens f).pending =
        (s.tokens f).pending := by grind
    rw [hsame]
    refine (h3 f).imp_of_mem fun hi hk hlt => ?_
    grind
  all_goals grind

/-- The first waiting job gets the token; the releasing job is about to wake it. -/
theorem TokenState.Links.handOff {j n : J} {rest : List J} {w w' : WriteJob J}
    (howner : (s.tokens (file j)).owner = some j) (hpend : (s.tokens (file j)).pending = n :: rest)
    (hold : (s.jobs j).place.role = .alone) (hturn : ¬ w.Turn) (hrole : w.place.role = .storing n) (hturn' : w'.Turn)
    (hrole' : w'.place.role = .handed j) :
    TokenState.Links file (((s.setToken (file j) { owner := some n, pending := rest }).setJob n w').setJob j w) := by
  obtain ⟨h1, h2, h3, h4, h5, h6, h7, h8, h9⟩ := h
  have hn : file n = file j ∧
    (s.jobs n).place.role = .pending := (h2 (file j) n).mp (by rw [hpend]; exact mem_cons_self)
  have hnj : n ≠ j := by
    intro hnj
    rw [hnj, hold] at hn
    cases hn.2
  have hsorted := pairwise_cons.mp (hpend ▸ h3 (file j))
  have hmem : ∀ i, i ∈ rest ↔ i ≠ n ∧ file i = file j ∧ (s.jobs i).place.role = .pending := by
    intro i
    have hi := h2 (file j) i
    rw [hpend, mem_cons] at hi
    constructor
    · intro hr
      refine ⟨fun hin => ?_, hi.mp (.inr hr)⟩
      exact Nat.lt_irrefl _ (hsorted.1 n (hin ▸ hr))
    · rintro ⟨hne, hp⟩
      exact (hi.mpr hp).resolve_left hne
  refine ⟨fun f i => ?turn, ?_, fun f => ?order, ?_, ?_, ?_, ?_, ?_, ?_⟩
  case turn =>
    have hi := h1 f i
    simp only [setJob_jobs, setToken_jobs, setJob_tokens, setToken_tokens]
    by_cases hf : f = file j
    · rw [if_pos hf, hf]
      rw [hf, howner] at hi
      grind
    · rw [if_neg hf]
      grind
  case order =>
    simp only [setJob_jobs, setToken_jobs, setJob_tokens, setToken_tokens]
    split
    · refine hsorted.2.imp_of_mem fun hi hk hlt => ?_
      grind
    · refine (h3 f).imp_of_mem fun hi hk hlt => ?_
      grind
  all_goals grind

theorem TokenState.Links.storeNext {j n : J} {w w' : WriteJob J}
    (hold : (s.jobs j).place.role = .storing n) (hnot : ¬ (s.jobs j).Turn) (hturn : ¬ w.Turn)
    (hrole : w.place.role = .passing n) (hturn' : w'.Turn ↔ (s.jobs n).Turn) (hrole' : w'.place.role = .located j)
    (hticket' : w'.ticket = (s.jobs n).ticket) : TokenState.Links file ((s.setJob n w').setJob j w) := by
  obtain ⟨h1, h2, h3, h4, h5, h6, h7, h8, h9⟩ := h
  have hn : (s.jobs n).place.role = .handed j := (h8 j n).mpr hold
  refine ⟨?_, ?_, fun f => ?order, ?_, ?_, ?_, ?_, ?_, ?_⟩
  case order =>
    refine (h3 f).imp_of_mem fun hi hk hlt => ?_
    grind
  all_goals grind

theorem TokenState.Links.passNext {j n : J} {w w' : WriteJob J} (hold : (s.jobs j).place.role = .passing n)
    (hnot : ¬ (s.jobs j).Turn) (hturn : ¬ w.Turn) (hrole : w.place.role = .alone) (hturn' : w'.Turn ↔ (s.jobs n).Turn)
    (hrole' : w'.place.role = .baton) (hticket' : w'.ticket = (s.jobs n).ticket) :
    TokenState.Links file { (s.setJob n w').setJob j w with batons := s.batons ++ [n] } := by
  obtain ⟨h1, h2, h3, h4, h5, h6, h7, h8, h9⟩ := h
  have hn : (s.jobs n).place.role = .located j := (h9 j n).mpr hold
  have hfresh : n ∉ s.batons := by
    rw [h6, hn]
    exact nofun
  refine ⟨?_, ?_, fun f => ?order, ?_, ?_, ?_, ?nodup, ?_, ?_⟩
  case order =>
    refine (h3 f).imp_of_mem fun hi hk hlt => ?_
    grind
  case nodup => exact nodup_append.mpr ⟨h7, pairwise_singleton .., by grind⟩
  all_goals grind

theorem TokenState.Links.completePass {j : J} {w : WriteJob J} (hold : (s.jobs j).place.role = .alone)
    (hturn : w.Turn ↔ (s.jobs j).Turn) (hrole : w.place.role = .baton) (hticket : w.ticket = (s.jobs j).ticket) :
    TokenState.Links file { s.setJob j w with batons := s.batons ++ [j] } := by
  obtain ⟨h1, h2, h3, h4, h5, h6, h7, h8, h9⟩ := h
  refine ⟨?_, ?_, fun f => ?order, ?_, ?_, ?_, ?nodup, ?_, ?_⟩
  case order =>
    refine (h3 f).imp_of_mem fun hi hk hlt => ?_
    grind
  case nodup => exact nodup_append.mpr ⟨h7, pairwise_singleton .., by grind⟩
  all_goals grind

theorem TokenState.Links.take {j : J} {rest : List J} {w : WriteJob J}
    (hbatons : s.batons = j :: rest) (hturn : w.Turn ↔ (s.jobs j).Turn) (hrole : w.place.role = .alone) :
    TokenState.Links file { s.setJob j w with batons := rest } := by
  obtain ⟨h1, h2, h3, h4, h5, h6, h7, h8, h9⟩ := h
  have hold : (s.jobs j).place.role = .baton := (h6 j).mp (by rw [hbatons]; exact mem_cons_self)
  rw [hbatons] at h7
  obtain ⟨hnot, hnodup⟩ := nodup_cons.mp h7
  refine ⟨?_, ?_, fun f => ?order, ?_, ?_, ?_, ?_, ?_, ?_⟩
  case order =>
    refine (h3 f).imp_of_mem fun hi hk hlt => ?_
    grind
  all_goals grind

end

end steps

/-! ## Every run -/

/-- Every job is fit, and jobs, lists and owners hang together. -/
structure TokenState.Inv (file : J → F) (s : TokenState J F) : Prop where
  ok : ∀ j, (s.jobs j).Ok
  links : s.Links file

/-- The step does not store `W_LOCATE` in a job whose submitter has not stored `W_TOKEN_WAIT` yet. -/
def TokenState.inTime (s : TokenState J F) : TokenEvent J → Bool
  | .pump i _ =>
    match (s.jobs i).place with
    | .pumping (.storeNext _ n) => !(s.jobs n).waitDue
    | _ => true
  | _ => true

/-- No step of the run wakes a job before its submitter is done with it. -/
def TokenState.allInTime (file : J → F) (s : TokenState J F) : List (TokenEvent J) → Bool
  | [] => true
  | e :: es => s.inTime e && (s.step file e).allInTime file es

section run

variable {file : J → F} {s : TokenState J F}

theorem TokenState.inv_start : ({} : TokenState J F).Inv file := by
  refine ⟨fun _ => ⟨rfl, rfl⟩, ?_⟩
  constructor <;> simp [WriteJob.Turn, role]

theorem ok_update {g : J → WriteJob J} (h : ∀ i, (g i).Ok) {w : WriteJob J} (hw : w.Ok) (j i : J) :
    (Function.update g j w i).Ok := by
  rw [Function.update_apply]
  split
  · exact hw
  · exact h i

theorem TokenState.Inv.setJob (h : s.Inv file) {j : J} {w : WriteJob J} (hok : w.Ok) (hturn : w.Turn ↔ (s.jobs j).Turn)
    (hrole : w.place.role = (s.jobs j).place.role) (hticket : w.ticket = (s.jobs j).ticket) : (s.setJob j w).Inv file :=
  ⟨ok_update h.ok hok j, h.links.setJob hturn hrole hticket⟩

theorem TokenState.Inv.tryClaim (h : s.Inv file) (j : J) : (tokenTryClaim file s j).Inv file := by
  unfold tokenTryClaim
  simp only
  split
  case isTrue hfresh =>
    have hok := h.ok j
    simp only [WriteJob.Ok, hfresh] at hok
    split
    case h_1 hfree =>
      refine ⟨ok_update h.ok ?_ j, h.links.claim hfresh hfree ?_ rfl 1⟩
      · exact hok
      · exact ⟨hok.1, nofun, nofun, nofun⟩
    case h_2 o howned =>
      refine ⟨ok_update h.ok ?_ j, h.links.enqueue hfresh howned ?_ rfl rfl⟩
      · exact hok.1
      · exact fun ht => ht.2.2.1 rfl
  case isFalse => exact h

theorem TokenState.Inv.submitStore (h : s.Inv file) (j : J) : (submitStore s j).Inv file := by
  have hok := h.ok j
  unfold BoxOS.Storage.submitStore
  simp only
  split
  case isTrue hplace =>
    simp only [WriteJob.Ok, hplace] at hok
    refine h.setJob ⟨hok.1, hok.2, rfl⟩ ?_ ?_ rfl
    · simp [WriteJob.Turn, hplace]
    · rw [hplace]
      rfl
  case isFalse =>
    split
    case isTrue hdue =>
      refine h.setJob ?_ Iff.rfl rfl rfl
      revert hok
      simp only [WriteJob.Ok]
      split <;> simp [hdue]
    case isFalse => exact h

theorem TokenState.Inv.handOff (h : s.Inv file) {j : J} {k : HandOff}
    (hplace : (s.jobs j).place = .pumping (.handOff k)) : (tokenReleaseHandoff file s j k).Inv file := by
  have hok := h.ok j
  simp only [WriteJob.Ok, hplace] at hok
  have hrole : (s.jobs j).place.role = .alone := by
    rw [hplace]
    rfl
  have howner : (s.tokens (file j)).owner = some j := by
    rw [h.links.turn]
    simp [WriteJob.Turn, hplace, hok.1]
  unfold tokenReleaseHandoff
  simp only [howner, if_true]
  split
  case h_1 hnil =>
    refine ⟨ok_update h.ok ?_ j, h.links.free howner hnil hrole ?_ rfl⟩
    · exact ⟨rfl, hok.2⟩
    · exact fun ht => nomatch ht.1
  case h_2 n rest hpend =>
    have hn := ((h.links.waiting (file j) n).mp (by rw [hpend]; exact mem_cons_self)).2
    have hnok := h.ok n
    simp only [WriteJob.Ok, role_pending.mp hn] at hnok
    refine ⟨ok_update (ok_update h.ok ?_ n) ?_ j, h.links.handOff howner hpend hrole ?_ rfl ?_ rfl⟩
    · exact hnok
    · exact ⟨rfl, hok.2⟩
    · exact fun ht => nomatch ht.1
    · exact ⟨hnok, nofun, nofun, nofun⟩

theorem TokenState.Inv.storeNext (h : s.Inv file) {j n : J} {k : HandOff}
    (hplace : (s.jobs j).place = .pumping (.storeNext k n)) (hdue : (s.jobs n).waitDue = false) :
    TokenState.Inv file ((s.setJob n { s.jobs n with state := .locate, place := .located j }).setJob j
    { s.jobs j with place := .pumping (.passNext k n) }) := by
  have hok := h.ok j
  simp only [WriteJob.Ok, hplace] at hok
  have hrole : (s.jobs j).place.role = .storing n := by
    rw [hplace]
    rfl
  have hn := role_handed.mp ((h.links.handed j n).mpr hrole)
  have hnok := h.ok n
  simp only [WriteJob.Ok, hn] at hnok
  refine ⟨ok_update (ok_update h.ok ?_ n) ?_ j, h.links.storeNext hrole ?_ ?_ rfl ?_ rfl rfl⟩
  · exact ⟨hnok, hdue, rfl⟩
  · exact hok
  · exact fun ht => nomatch ht.1.symm.trans hok.1
  · exact fun ht => nomatch ht.1.symm.trans hok.1
  · simp [WriteJob.Turn, hn]

theorem TokenState.Inv.passNext (h : s.Inv file) {j n : J} {k : HandOff}
    (hplace : (s.jobs j).place = .pumping (.passNext k n)) :
    TokenState.Inv file { (s.setJob n { s.jobs n with place := .baton }).setJob j
    { s.jobs j with place := .pumping (.finish k) } with batons := s.batons ++ [n] } := by
  have hok := h.ok j
  simp only [WriteJob.Ok, hplace] at hok
  have hrole : (s.jobs j).place.role = .passing n := by
    rw [hplace]
    rfl
  have hn := role_located.mp ((h.links.located j n).mpr hrole)
  have hnok := h.ok n
  simp only [WriteJob.Ok, hn] at hnok
  refine ⟨ok_update (ok_update h.ok ?_ n) ?_ j, h.links.passNext hrole ?_ ?_ rfl ?_ rfl rfl⟩
  · exact ⟨hnok.1, hnok.2.1, by rw [hnok.2.2]; rfl⟩
  · exact hok
  · exact fun ht => nomatch ht.1.symm.trans hok.1
  · exact fun ht => nomatch ht.1.symm.trans hok.1
  · simp [WriteJob.Turn, hn]

theorem TokenState.Inv.load (h : s.Inv file) {j : J} (c : JobFacts) (hplace : (s.jobs j).place = .pumping .load) :
    (pumpStep file s j c .load).Inv file := by
  have hok := h.ok j
  simp only [WriteJob.Ok, hplace] at hok
  obtain ⟨hdue, hstate⟩ := hok
  cases hrel : (s.jobs j).released
  case true =>
    rw [hrel, if_pos rfl] at hstate
    simp only [pumpStep, hstate]
    refine h.setJob hdue ?_ ?_ rfl
    · simp [WriteJob.Turn, hrel]
    · rw [hplace]
      rfl
  case false =>
    rw [hrel, if_neg (by decide)] at hstate
    cases hst : (s.jobs j).state <;> rw [hst] at hstate
    case init | tokenWait | error | done => cases hstate
    all_goals
      simp only [pumpStep, hst]
      refine h.setJob ⟨hrel, hdue⟩ ?_ ?_ rfl
      · simp [WriteJob.Turn, hplace, hrel]
      · rw [hplace]
        rfl

theorem TokenState.Inv.handle (h : s.Inv file) {j : J} (c : JobFacts) {st : WriteJobState}
    (hplace : (s.jobs j).place = .pumping (.handle st)) : (pumpStep file s j c (.handle st)).Inv file := by
  have hok := h.ok j
  simp only [WriteJob.Ok, hplace] at hok
  simp only [pumpStep]
  split
  case h_1 st' hst =>
    refine h.setJob ⟨hok.2, ?_⟩ ?_ ?_ rfl
    · simp only [hok.1]
      exact handle_works hst
    · simp [WriteJob.Turn, hplace]
    · rw [hplace]
      rfl
  case h_2 write _ =>
    refine h.setJob hok ?_ ?_ rfl
    · simp [WriteJob.Turn, hplace]
    · rw [hplace]
      rfl
  case h_3 =>
    refine h.setJob hok ?_ ?_ rfl
    · simp [WriteJob.Turn, hplace]
    · rw [hplace]
      rfl
  case h_4 => exact h

theorem TokenState.Inv.pumpStep (h : s.Inv file) {j : J} (c : JobFacts) {p : Pump J}
    (hplace : (s.jobs j).place = .pumping p) (htime : s.inTime (.pump j c) = true) :
    (pumpStep file s j c p).Inv file := by
  have hok := h.ok j
  cases p
  case enter =>
    simp only [WriteJob.Ok, hplace] at hok
    refine h.setJob ?_ ?_ ?_ rfl
    · cases c.staleMount
      · exact ⟨hok.2.1, by simpa [hok.1] using WriteJobState.works_of_wakes hok.2.2⟩
      · exact ⟨hok.1, hok.2.1⟩
    · simp [WriteJob.Turn, hplace]
    · rw [hplace]
      cases c.staleMount <;> rfl
  case load => exact h.load c hplace
  case handle st => exact h.handle c hplace
  case handOff k => exact h.handOff hplace
  case storeNext k n =>
    refine h.storeNext hplace ?_
    simpa [inTime, hplace] using htime
  case passNext k n => exact h.passNext hplace
  case finish k =>
    simp only [WriteJob.Ok, hplace] at hok
    cases k
    · refine h.setJob ⟨hok.2, ?_⟩ ?_ ?_ rfl
      · simp [hok.1]
      · simp [WriteJob.Turn, hok.1]
      · rw [hplace]
        rfl
    refine h.setJob hok.2 ?_ ?_ rfl
    · simp [WriteJob.Turn, hok.1]
    · rw [hplace]
      rfl

theorem TokenState.Inv.complete (h : s.Inv file) (j : J) (ok : Bool) : (diskComplete s j ok).Inv file := by
  have hok := h.ok j
  unfold diskComplete
  split
  case h_1 write hplace =>
    simp only [WriteJob.Ok, hplace] at hok
    refine h.setJob ⟨hok.1, hok.2, ?_⟩ ?_ ?_ rfl
    · cases write <;> cases ok <;> simp
    · simp [WriteJob.Turn, hplace]
    · rw [hplace]
      rfl
  case h_2 => exact h

theorem TokenState.Inv.step (h : s.Inv file) (e : TokenEvent J) (htime : s.inTime e = true) :
    (s.step file e).Inv file := by
  cases e
  case tryClaim j => exact h.tryClaim j
  case submitStore j => exact h.submitStore j
  case pump j c =>
    simp only [TokenState.step]
    split
    case h_1 p hplace => exact h.pumpStep c hplace htime
    case h_2 => exact h
  case complete j ok => exact h.complete j ok
  case completePass j =>
    simp only [TokenState.step]
    split
    case isTrue hplace =>
      have hok := h.ok j
      simp only [WriteJob.Ok, hplace] at hok
      refine ⟨ok_update h.ok ?_ j, h.links.completePass ?_ ?_ rfl rfl⟩
      · refine ⟨hok.1, hok.2.1, ?_⟩
        rcases hok.2.2 with hst | hst <;> simp only [hst] <;> rfl
      · rw [hplace]
        rfl
      · simp [WriteJob.Turn, hplace]
    case isFalse => exact h
  case take =>
    simp only [TokenState.step]
    split
    case h_1 => exact h
    case h_2 j rest hbatons =>
      have hplace := role_baton.mp ((h.links.batons j).mp (by rw [hbatons]; exact mem_cons_self))
      have hok := h.ok j
      simp only [WriteJob.Ok, hplace] at hok
      refine ⟨ok_update h.ok ?_ j, h.links.take hbatons ?_ rfl⟩
      · exact hok
      · simp [WriteJob.Turn, hplace]

theorem TokenState.Inv.run {es : List (TokenEvent J)} (h : s.Inv file) (htime : s.allInTime file es = true) :
    (es.foldl (TokenState.step file) s).Inv file := by
  induction es generalizing s with
  | nil => exact h
  | cons e es ih =>
    simp only [allInTime, Bool.and_eq_true] at htime
    exact ih (h.step e htime.1) htime.2

/-- The owner is run by somebody, waits for the disk, or is being woken. -/
theorem TokenState.Inv.served (h : s.Inv file) {f : F} {j : J} (howner : (s.tokens f).owner = some j) :
    s.Pumped j ∨ s.OnDisk j ∨ s.Woken j := by
  obtain ⟨-, hturn⟩ := (h.links.turn f j).mp howner
  have hok := h.ok j
  cases hplace : (s.jobs j).place
  case fresh => exact absurd hplace hturn.2.1
  case pending => exact absurd hplace hturn.2.2.1
  case freed => exact absurd hplace hturn.2.2.2
  case stranded => simp [WriteJob.Ok, hplace] at hok
  case claimed => exact .inl (.inl hplace)
  case pumping p => exact .inl (.inr ⟨p, hplace⟩)
  case disk write => exact .inr (.inl (.inl ⟨write, hplace⟩))
  case completed =>
    simp only [WriteJob.Ok, hplace] at hok
    exact .inr (.inl (.inr ⟨.inl hplace, hok.2.2⟩))
  case handed i =>
    obtain ⟨k, hi⟩ := role_storing.mp ((h.links.handed i j).mp (role_handed.mpr hplace))
    exact .inr (.inr (.inl ⟨i, k, hi⟩))
  case located i =>
    simp only [WriteJob.Ok, hplace] at hok
    obtain ⟨k, hi⟩ := role_passing.mp ((h.links.located i j).mp (role_located.mpr hplace))
    exact .inr (.inr (.inr ⟨hok.2.2, .inl ⟨i, k, hi⟩⟩))
  case baton =>
    simp only [WriteJob.Ok, hplace] at hok
    have hmem := (h.links.batons j).mpr (role_baton.mpr hplace)
    cases hst : (s.jobs j).state <;> rw [hst] at hok
    case locate => exact .inr (.inr (.inr ⟨hst, .inr hmem⟩))
    case dmaFill => exact .inr (.inl (.inr ⟨.inr hmem, .inl hst⟩))
    case ahciDone => exact .inr (.inl (.inr ⟨.inr hmem, .inr hst⟩))
    all_goals cases hok.2.2

end run

/-- When no job is woken before its submitter has stored `W_TOKEN_WAIT`, no interleaving strands the owner. -/
theorem token_kept (file : J → F) (es : List (TokenEvent J))
    (htime : ({} : TokenState J F).allInTime file es = true) : (TokenState.run file es).Kept file := by
  have h : (TokenState.run file es).Inv file := TokenState.inv_start.run htime
  refine ⟨h.links.turn, fun f j => ?_, h.links.order, h.links.behind, fun f j => h.served⟩
  rw [h.links.waiting, role_pending]

/-- The numerals of two jobs. -/
local instance jobNumerals : NeZero 2 := ⟨by decide⟩

/-- Two writes to one file: the second queues up and waits, is handed the token, and writes a block. -/
def turnEvents : List (TokenEvent (Fin 2)) :=
  [.tryClaim 0, .submitStore 0, .tryClaim 1, .submitStore 1] ++
    replicate 7 (.pump 0 {}) ++ [.complete 0 true, .completePass 0, .take] ++ replicate 17 (.pump 0 {}) ++
    [.take] ++ replicate 7 (.pump 1 {})

theorem token_kept_turnEvents : ({} : TokenState (Fin 2) Unit).allInTime (fun _ => ()) turnEvents = true ∧
    ((TokenState.run (fun _ => ()) turnEvents).tokens ()).owner = some 1 ∧
    (TokenState.run (fun _ => ()) turnEvents).Kept (fun _ => ()) :=
  have htime : ({} : TokenState (Fin 2) Unit).allInTime (fun _ => ()) turnEvents = true := by decide +kernel
  ⟨htime, by decide +kernel, token_kept _ turnEvents htime⟩

/-- The second submitter stores `W_TOKEN_WAIT` after the first job has handed the token over and stored
`W_LOCATE`. -/
def lateEvents : List (TokenEvent (Fin 2)) :=
  [.tryClaim 0, .submitStore 0] ++ replicate 7 (.pump 0 {}) ++ [.complete 0 true, .completePass 0, .take] ++
    replicate 12 (.pump 0 {}) ++ [.tryClaim 1, .pump 0 {}, .pump 0 {}, .submitStore 1, .pump 0 {}, .pump 0 {},
      .pump 0 {}, .take, .pump 1 {}, .pump 1 {}]

/-- The second job owns the token in `W_TOKEN_WAIT`, and nobody will ever run it. -/
theorem token_stranded :
    ((TokenState.run (fun _ => ()) lateEvents : TokenState (Fin 2) Unit).tokens ()).owner = some 1 ∧
    ((TokenState.run (fun _ => ()) lateEvents : TokenState (Fin 2) Unit).jobs 1).state = .tokenWait ∧
    ¬ (TokenState.run (fun _ => ()) lateEvents : TokenState (Fin 2) Unit).Kept (fun _ => ()) := by
  have howner : ((TokenState.run (fun _ => ()) lateEvents : TokenState (Fin 2) Unit).tokens ()).owner = some 1 := by
    decide +kernel
  have hstate : ((TokenState.run (fun _ => ()) lateEvents : TokenState (Fin 2) Unit).jobs 1).state = .tokenWait := by
    decide +kernel
  have hplace : ((TokenState.run (fun _ => ()) lateEvents : TokenState (Fin 2) Unit).jobs 1).place = .stranded := by
    decide +kernel
  have hfreed : ((TokenState.run (fun _ => ()) lateEvents : TokenState (Fin 2) Unit).jobs 0).place = .freed := by
    decide +kernel
  refine ⟨howner, hstate, fun hk => ?_⟩
  rcases hk.served () 1 howner with hp | hd | hw
  · simp [TokenState.Pumped, hplace] at hp
  · simp [TokenState.OnDisk, hplace, hstate] at hd
  · simp only [TokenState.Woken, hstate, reduceCtorEq, false_and, or_false] at hw
    obtain ⟨i, k, hi⟩ := hw
    fin_cases i
    · exact nomatch hfreed.symm.trans hi
    · exact nomatch hplace.symm.trans hi

end BoxOS.Storage
