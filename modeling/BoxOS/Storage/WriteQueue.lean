import BoxOS.Storage.WriteJobRun

/-! # Asynchronous writes to one file, one after another

`ObjWriteAsync` opens its own handle and then claims the token of the file or waits for it. Submissions come at any
moment, between any two handlers of the job that has the token. -/

namespace BoxOS.Storage

open Lib TagFS List Option WriteJobData

/-- What a caller of `ObjWriteAsync` asks for; `append` is flag `0x1`. -/
structure WriteRequest where
  offset : Nat
  append : Bool
  src : List UInt8

/-- The job of a request, with a handle that is opened now. -/
def openJob (v : StoredFile) (r : WriteRequest) : WriteJobData where
  extents := v.extents
  fileSize := v.size
  src := r.src
  startOffset := if r.append then v.size else r.offset
  state := .tokenWait

/-- An open file with its token; `served` has the requests in the order in which they received it. -/
structure TokenFile where
  file : StoredFile
  owner : Option WriteJobData
  pending : List (WriteRequest × WriteJobData)
  served : List WriteRequest
  failed : Bool

open TokenFile

def TokenFile.opened (v : StoredFile) : TokenFile :=
  ⟨v, none, [], [], false⟩

inductive WriteEvent where
  | submit (r : WriteRequest)
  /-- the next handler of the job that has the token -/
  | pump

/-- `token_try_claim` for a job that is made now. -/
def TokenFile.submit (m : TokenFile) (r : WriteRequest) : TokenFile :=
  if r.src = [] then m
  else
    match m.owner with
    | none => { m with owner := some { openJob m.file r with state := .locate }, served := m.served ++ [r] }
    | some _ => { m with pending := m.pending ++ [(r, openJob m.file r)] }

/-- `token_release_handoff`. -/
def TokenFile.handOff (m : TokenFile) : TokenFile :=
  match m.pending with
  | [] => { m with owner := none }
  | (r, k) :: rest => { m with owner := some { k with state := .locate }, pending := rest, served := m.served ++ [r] }

def TokenFile.pump (env : JobEnv) (m : TokenFile) : TokenFile :=
  match m.owner with
  | none => m
  | some j =>
    let x := WriteJobData.step env (m.file, j)
    match x.2.state with
    | .done => { m with file := x.1 }.handOff
    | .error => { { m with file := x.1 } with failed := true }.handOff
    | _ => { m with file := x.1, owner := some x.2 }

def TokenFile.step (env : JobEnv) (m : TokenFile) : WriteEvent → TokenFile
  | .submit r => m.submit r
  | .pump => m.pump env

def TokenFile.run (env : JobEnv) (m : TokenFile) (es : List WriteEvent) : TokenFile :=
  es.foldl (TokenFile.step env) m

/-- The byte array after the requests, one after another; an append starts at the end it finds. -/
def applyRequests (bytes : List UInt8) (rs : List WriteRequest) : List UInt8 :=
  rs.foldl (fun c r => writeBytes c (if r.append then c.length else r.offset) r.src) bytes

/-! ## When nothing is lost -/

/-- The job that is handed the token has the extents and the size that are recorded, and can write. -/
def JobCurrent (env : JobEnv) (v : StoredFile) (k : WriteJobData) : Prop :=
  k.extents = v.extents ∧ k.fileSize = v.size ∧ Writable env v k.startOffset k.src

/-- Whoever receives the token in this step has an up-to-date copy of the file. -/
def TokenFile.Current (env : JobEnv) (m : TokenFile) : WriteEvent → Prop
  | .submit r => m.owner = none → r.src ≠ [] → JobCurrent env m.file (openJob m.file r)
  | .pump => ∀ j, m.owner = some j → j.state = .releaseToken → ∀ r k rest, m.pending = (r, k) :: rest →
      JobCurrent env m.file k

def TokenFile.CurrentRun (env : JobEnv) (m : TokenFile) : List WriteEvent → Prop
  | [] => True
  | e :: es => m.Current env e ∧ (m.step env e).CurrentRun env es

/-- No snapshot: the blocks of the file stay its blocks. -/
def KeepsBlocks (v₀ : StoredFile) (x : StoredFile × WriteJobData) : Prop :=
  x.2.state ≠ .cowBefore ∧ (∀ b ∈ blocksOf v₀.extents, b ∈ blocksOf x.2.extents) ∧
    ∀ b ∈ blocksOf v₀.extents, b ∈ blocksOf x.1.extents

variable {env : JobEnv}

theorem locateBlock_plain (hcow : env.cowActive = false) (j : WriteJobData) :
    (j.locateBlock env).extents = j.extents ∧ (j.locateBlock env).state ≠ .cowBefore := by
  unfold locateBlock
  simp only [hcow, Bool.and_false]
  split
  · exact ⟨rfl, by simp⟩
  rw [if_neg (by simp)]
  split
  · exact ⟨rfl, by simp⟩
  · split <;> exact ⟨rfl, by simp⟩

theorem KeepsBlocks.step {v₀ v : StoredFile} {j : WriteJobData} (hcow : env.cowActive = false)
    (h : KeepsBlocks v₀ (v, j)) : KeepsBlocks v₀ (WriteJobData.step env (v, j)) := by
  obtain ⟨hstate, hjob, hfile⟩ := h
  unfold WriteJobData.step
  simp only at hstate hjob hfile ⊢
  split <;> rename_i hs
  · obtain ⟨hext, hne⟩ := locateBlock_plain hcow j
    exact ⟨hne, hext ▸ hjob, hfile⟩
  · unfold allocBlockStep
    split
    · exact ⟨by simp, hjob, hfile⟩
    split
    · exact ⟨by simp, hjob, hfile⟩
    split
    · exact ⟨by simp, hjob, hfile⟩
    rename_i extents hgrown
    obtain rfl := growExtents_eq_some hgrown
    refine ⟨by simp, fun b hb => ?_, hfile⟩
    simp only [blocksOf_append, mem_append]
    exact .inl (hjob b hb)
  · exact absurd hs hstate
  · exact ⟨by simp, hjob, hfile⟩
  · exact ⟨by simp, hjob, hfile⟩
  · exact ⟨by simp, hjob, hfile⟩
  · refine ⟨?_, hjob, hfile⟩
    split <;> simp
  · exact ⟨by simp, hjob, hfile⟩
  · unfold logMeta
    split
    · exact ⟨by simp, hjob, hfile⟩
    simp only
    split
    · refine ⟨?_, hjob, hjob⟩
      simp only
      split <;> simp
    · exact ⟨by simp, hjob, hfile⟩
  · exact ⟨by simp, hjob, hfile⟩
  · exact ⟨by simp, hjob, hfile⟩
  · exact ⟨by simp, hjob, hfile⟩
  · exact ⟨by simp, hjob, hfile⟩
  · exact ⟨hstate, hjob, hfile⟩
  · exact ⟨hstate, hjob, hfile⟩
  · exact ⟨hstate, hjob, hfile⟩
  · exact ⟨hstate, hjob, hfile⟩

/-! ## The invariant -/

section queue

variable {env : JobEnv} {v₀ : StoredFile} {m : TokenFile}

/-- The file `v` has the bytes of the requests, and the blocks taken since `v₀` are its blocks. -/
structure Applied (v₀ : StoredFile) (rs : List WriteRequest) (v : StoredFile) : Prop where
  ok : v.Ok
  bytes : v.bytes = applyRequests v₀.bytes rs
  taken : ∀ b, v.space.Holds b → v₀.space.Holds b ∨ b ∈ blocksOf v.extents

/-- The job with the token works on a file that has the requests before it applied. -/
structure Serving (env : JobEnv) (v₀ : StoredFile) (rs : List WriteRequest) (v : StoredFile) (j : WriteJobData)
    (base : StoredFile) (r : WriteRequest) : Prop where
  applied : Applied v₀ rs base
  nonempty : r.src ≠ []
  writable : Writable env base (if r.append then base.size else r.offset) r.src
  ok : JobOk base (if r.append then base.size else r.offset) r.src v j
  keeps : KeepsBlocks base (v, j)

structure TokenFile.Inv (env : JobEnv) (v₀ : StoredFile) (m : TokenFile) : Prop where
  idle : m.owner = none → m.pending = [] ∧ Applied v₀ m.served m.file
  busy : ∀ j, m.owner = some j → j.state ≠ .done ∧ ∃ rs r base, m.served = rs ++ [r] ∧
    Serving env v₀ rs m.file j base r
  queue : ∀ p ∈ m.pending, p.1.src ≠ [] ∧ ∃ v, p.2 = openJob v p.1

theorem length_bytes (v : StoredFile) : v.bytes.length = v.size := by
  simp [StoredFile.bytes, fileBytes]

variable {v : StoredFile} {r : WriteRequest}

theorem openJob_current {v' : StoredFile} (h : JobCurrent env v (openJob v' r)) :
    { openJob v' r with state := .locate } = submitted v (if r.append then v.size else r.offset) r.src ∧
      Writable env v (if r.append then v.size else r.offset) r.src := by
  obtain ⟨hext, hsize, hwr⟩ := h
  have hext' : v'.extents = v.extents := hext
  have hsize' : v'.size = v.size := hsize
  have hstart : (openJob v' r).startOffset = if r.append then v.size else r.offset := by
    rw [← hsize']
    rfl
  refine ⟨?_, hstart ▸ hwr⟩
  simp only [openJob, submitted, hext', hsize']

theorem Applied.serve {rs : List WriteRequest} {v' : StoredFile} (h : Applied v₀ rs v) (hsrc : r.src ≠ [])
    (hcur : JobCurrent env v (openJob v' r)) : Serving env v₀ rs v { openJob v' r with state := .locate } v r := by
  obtain ⟨hjob, hwr⟩ := openJob_current hcur
  refine ⟨h, hsrc, hwr, ?_, ?_⟩
  · rw [hjob]
    exact JobOk.start h.ok hwr hsrc
  · rw [hjob]
    exact ⟨by simp [submitted], fun b hb => hb, fun b hb => hb⟩

theorem Serving.finish {rs : List WriteRequest} {base : StoredFile} {j : WriteJobData}
    (h : Serving env v₀ rs v j base r) (hdone : j.state = .done) : Applied v₀ (rs ++ [r]) v := by
  have hpub : Published base (if r.append then base.size else r.offset) r.src v := by
    have hok := h.ok
    unfold JobOk at hok
    rwa [hdone] at hok
  obtain ⟨hcov, hbytes⟩ := hpub.written.bytes h.applied.ok h.nonempty h.writable.tail
  rw [← hpub.size] at hcov hbytes
  refine ⟨⟨hpub.written.inv, hcov, hpub.written.nodup, hpub.written.held⟩, ?_, fun b hb => ?_⟩
  · rw [applyRequests, foldl_append, foldl_cons, foldl_nil, ← applyRequests, ← h.applied.bytes,
      length_bytes]
    exact hbytes
  · rcases hpub.written.taken b hb with hbase | hmem
    · exact (h.applied.taken b hbase).imp_right (h.keeps.2.2 b)
    · exact .inr hmem

/-- A job is done when it has released the token. -/
theorem step_done {j : WriteJobData} (h : (WriteJobData.step env (v, j)).2.state = .done)
    (hj : j.state ≠ .done) : j.state = .releaseToken ∧ (WriteJobData.step env (v, j)).1 = v := by
  unfold WriteJobData.step at h ⊢
  simp only at h ⊢
  split at h <;> rename_i hs
  · unfold locateBlock at h
    simp only at h
    split at h
    · cases h
    split at h
    · cases h
    split at h
    · cases h
    split at h <;> cases h
  · unfold allocBlockStep at h
    split at h
    · cases h
    split at h
    · cases h
    split at h <;> cases h
  · unfold cowBefore at h
    split at h
    · cases h
    simp only at h
    split at h
    · cases h
    · simp only at h
      split at h <;> cases h
  · cases h
  · cases h
  · cases h
  · simp only at h
    split at h <;> cases h
  · cases h
  · unfold logMeta at h
    split at h
    · cases h
    simp only at h
    split at h
    · simp only at h
      split at h <;> cases h
    · cases h
  · cases h
  · cases h
  · cases h
  · exact ⟨hs, rfl⟩
  · exact absurd h hj
  · exact absurd h hj
  · exact absurd h hj
  · exact absurd h hj

theorem TokenFile.Inv.submit (h : m.Inv env v₀) (hcur : m.Current env (.submit r)) : (m.submit r).Inv env v₀ := by
  unfold TokenFile.submit
  split
  · exact h
  rename_i hsrc
  split
  · rename_i hnone
    obtain ⟨hpend, happ⟩ := h.idle hnone
    refine ⟨nofun, fun j hj => ?_, h.queue⟩
    obtain rfl := some.inj hj
    exact ⟨by simp, m.served, r, m.file, rfl, happ.serve hsrc (hcur hnone hsrc)⟩
  rename_i j hj
  refine ⟨fun hno => (nomatch hj.symm.trans hno), h.busy, fun p hp => ?_⟩
  rcases mem_append.mp hp with hp | hp
  · exact h.queue p hp
  · obtain rfl := mem_singleton.mp hp
    exact ⟨hsrc, m.file, rfl⟩

theorem TokenFile.inv_handOff (hserved : Applied v₀ m.served m.file)
    (hqueue : ∀ p ∈ m.pending, p.1.src ≠ [] ∧ ∃ v, p.2 = openJob v p.1)
    (hcur : ∀ r k rest, m.pending = (r, k) :: rest → JobCurrent env m.file k) : m.handOff.Inv env v₀ := by
  unfold handOff
  split
  · rename_i hnil
    exact ⟨fun _ => ⟨hnil, hserved⟩, fun j hj => (nomatch hj), hqueue⟩
  rename_i r k rest hcons
  rw [hcons] at hqueue
  obtain ⟨hsrc, v, hk⟩ := hqueue (r, k) mem_cons_self
  have hk' : k = openJob v r := hk
  subst hk'
  refine ⟨nofun, fun j hj => ?_, fun p hp => hqueue p (mem_cons_of_mem _ hp)⟩
  obtain rfl := some.inj hj
  exact ⟨by simp, m.served, r, m.file, rfl, hserved.serve hsrc (hcur r _ rest hcons)⟩

theorem TokenFile.failed_handOff (m : TokenFile) : m.handOff.failed = m.failed := by
  unfold handOff
  split <;> rfl

theorem TokenFile.Inv.pump (h : m.Inv env v₀) (hcow : env.cowActive = false) (hcur : m.Current env .pump)
    (hok : (m.pump env).failed = false) : (m.pump env).Inv env v₀ := by
  unfold TokenFile.pump at hok ⊢
  split
  · exact h
  rename_i j hj
  obtain ⟨hdone, rs, r, base, hserved, hserve⟩ := h.busy j hj
  have hnext : Serving env v₀ rs (WriteJobData.step env (m.file, j)).1 (WriteJobData.step env (m.file, j)).2 base r :=
    ⟨hserve.applied, hserve.nonempty, hserve.writable, hserve.ok.step hserve.applied.ok hserve.writable,
      hserve.keeps.step hcow⟩
  simp only [hj] at hok ⊢
  split
  · rename_i hend
    obtain ⟨hrelease, hfile⟩ := step_done hend hdone
    refine inv_handOff ?_ h.queue fun r' k rest hcons => ?_
    · simp only [hserved]
      exact hnext.finish hend
    · simp only [hfile]
      exact hcur j hj hrelease r' k rest hcons
  · rename_i herr
    rw [herr] at hok
    simp only [failed_handOff] at hok
    cases hok
  · rename_i hmore _
    refine ⟨nofun, fun j' hj' => ?_, h.queue⟩
    obtain rfl := some.inj hj'
    exact ⟨hmore, rs, r, base, hserved, hnext⟩

theorem TokenFile.failed_step {e : WriteEvent} (h : (m.step env e).failed = false) : m.failed = false := by
  cases e with
  | submit r =>
    change (m.submit r).failed = false at h
    unfold TokenFile.submit at h
    split at h
    · exact h
    · split at h <;> exact h
  | pump =>
    change (m.pump env).failed = false at h
    unfold TokenFile.pump at h
    split at h
    · exact h
    simp only at h
    split at h
    · rwa [failed_handOff] at h
    · rw [failed_handOff] at h
      cases h
    · exact h

theorem TokenFile.failed_run {es : List WriteEvent} (h : (m.run env es).failed = false) : m.failed = false := by
  induction es generalizing m with
  | nil => exact h
  | cons e es ih => exact failed_step (ih h)

theorem TokenFile.Inv.run {es : List WriteEvent} (h : m.Inv env v₀) (hcow : env.cowActive = false)
    (hcur : m.CurrentRun env es) (hok : (m.run env es).failed = false) : (m.run env es).Inv env v₀ := by
  induction es generalizing m with
  | nil => exact h
  | cons e es ih =>
    refine ih ?_ hcur.2 hok
    cases e with
    | submit r => exact h.submit hcur.1
    | pump => exact h.pump hcow hcur.1 (failed_run hok)

end queue

/-- All jobs are done: the file reads as the requests in the order of the token left it, and every block they took is
one of its blocks. -/
structure Serialised (v₀ : StoredFile) (m : TokenFile) : Prop where
  read : readFile m.file.disk m.file.extents m.file.size = some (applyRequests v₀.bytes m.served)
  size : m.file.size = (applyRequests v₀.bytes m.served).length
  taken : ∀ b, m.file.space.Holds b → v₀.space.Holds b ∨ b ∈ blocksOf m.file.extents

/-- Queued writes are not lost when every job that receives the token has the file as it is recorded. -/
theorem queued_writes_serialised (env : JobEnv) (v : StoredFile) (es : List WriteEvent) (hv : v.Ok)
    (hcow : env.cowActive = false) (hcur : (opened v).CurrentRun env es) (hok : ((opened v).run env es).failed = false)
    (hdone : ((opened v).run env es).owner = none) : Serialised v ((opened v).run env es) := by
  have hstart : (opened v).Inv env v :=
    ⟨fun _ => ⟨rfl, hv, rfl, fun b hb => .inl hb⟩, fun j hj => (nomatch hj), fun p hp => (nomatch hp)⟩
  obtain ⟨-, happ⟩ := (hstart.run hcow hcur hok).idle hdone
  refine ⟨?_, ?_, happ.taken⟩
  · rw [readFile_eq happ.ok.covered, ← happ.bytes]
    rfl
  · rw [← happ.bytes, length_bytes]

theorem currentRun_pumps {m : TokenFile} (n : Nat) (h : m.pending = []) : m.CurrentRun env (replicate n .pump) := by
  induction n generalizing m with
  | zero => exact trivial
  | succ n ih =>
    refine ⟨fun j hj hs r k rest hcons => (nomatch h.symm.trans hcons), ih ?_⟩
    change (m.pump env).pending = []
    unfold TokenFile.pump
    split
    · exact h
    · simp only
      split <;> simp [handOff, h]

theorem currentRun_append {m : TokenFile} {es es' : List WriteEvent} (h : m.CurrentRun env es)
    (h' : (m.run env es).CurrentRun env es') : m.CurrentRun env (es ++ es') := by
  induction es generalizing m with
  | nil => exact h'
  | cons e es ih => exact ⟨h.1, ih h.2 h'⟩

/-- An overwrite that is about to hand the token on, and an append that waits for it. -/
def overwriteThenAppend : List WriteEvent :=
  .submit ⟨1, false, [7, 8, 9]⟩ :: (replicate 9 .pump ++ .submit ⟨0, true, [4]⟩ :: .pump :: replicate 11 .pump)

theorem TokenFile.submit_waits {m : TokenFile} {r : WriteRequest} (h : m.owner.isSome) (hsrc : r.src ≠ []) :
    m.submit r = { m with pending := m.pending ++ [(r, openJob m.file r)] } := by
  obtain ⟨j, hj⟩ := isSome_iff_exists.mp h
  rw [TokenFile.submit, if_neg hsrc]
  simp only [hj]

theorem overwriteThenAppend_current : (opened threeBytes).CurrentRun plainEnv overwriteThenAppend := by
  refine ⟨fun _ _ => ⟨rfl, rfl, writable_inside (by decide) (by decide)⟩, ?_⟩
  refine currentRun_append (currentRun_pumps 9 rfl) ?_
  refine ⟨fun hno => absurd hno (by decide +kernel), ?_⟩
  refine ⟨fun j _ _ r k rest hcons => ?_, currentRun_pumps 11 (by decide +kernel)⟩
  change (TokenFile.submit _ _).pending = _ at hcons
  change JobCurrent plainEnv (TokenFile.submit _ _).file k
  rw [submit_waits (by decide +kernel) (by decide)] at hcons ⊢
  rw [show (run plainEnv _ (replicate 9 WriteEvent.pump)).pending = [] by decide +kernel] at hcons
  obtain ⟨⟨rfl, rfl⟩, rfl⟩ := hcons
  exact ⟨rfl, rfl, writable_inside (by decide +kernel) (by decide +kernel)⟩

theorem queued_writes_serialised_threeBytes : ((opened threeBytes).run plainEnv overwriteThenAppend).served.length = 2 ∧
    Serialised threeBytes ((opened threeBytes).run plainEnv overwriteThenAppend) :=
  ⟨by decide +kernel, queued_writes_serialised plainEnv threeBytes overwriteThenAppend threeBytes_ok rfl
    overwriteThenAppend_current (by decide +kernel) (by decide +kernel)⟩

/-- Two appends, the second one submitted while the first one runs. -/
def twoAppends : List WriteEvent :=
  .submit ⟨0, true, [1]⟩ :: .submit ⟨0, true, [2]⟩ :: replicate 20 .pump

/-- The second append starts where the first one started. -/
theorem append_overwrites_append : threeBytes.Ok ∧ ((opened threeBytes).run plainEnv twoAppends).failed = false ∧
    ((opened threeBytes).run plainEnv twoAppends).owner = none ∧
    ¬ Serialised threeBytes ((opened threeBytes).run plainEnv twoAppends) := by
  refine ⟨threeBytes_ok, by decide +kernel, by decide +kernel, fun h => ?_⟩
  exact absurd h.size (by decide +kernel)

end BoxOS.Storage
