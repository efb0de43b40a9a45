import BoxOS.Memory.Translation

/-!
# Translations that cores keep

Each core keeps entries of page tables under the PCID of their context, and takes in new ones from the context that it
has loaded at any moment. A context stands for its PCID; without PCIDs a load of CR3 empties everything.

An operation of `vmm.c` that changes tables is a state of the core that runs it (`Op`), and goes on step by step: the
scan over the other cores, the own flush, `g_shootdown_lock`, `shootdown_arm`, the wait. Every call of
`vmm_tlb_shootdown_handler`, from the interrupt or from a loop that polls, is one of `handlers`, and they go on in any
order. `history` is for the statements only.
-/

namespace BoxOS.Memory.Tlb

/-- What `vmm_shootdown_pages` and `vmm_shootdown_full_evict` are called for. `span` pages from `addr` on changed. -/
structure Request where
  ctx : Nat
  addr : Nat
  count : Nat
  span : Nat
  full : Bool
  evict : Option Nat
deriving DecidableEq

/-- What a core does to tables. -/
inductive Op where
  | idle
  | protecting (ctx base count done : Nat) (flags : BitVec 64)
  | splitting (ctx base span page : Nat)
  | scanning (r : Request) (next : Nat) (targets : List Nat)
  | flushing (r : Request) (targets : List Nat)
  | locking (r : Request) (targets : List Nat)
  | asking (r : Request) (targets rest : List Nat)
  | waiting (r : Request) (targets : List Nat)
deriving DecidableEq

/-- How far a call of `vmm_tlb_shootdown_handler` is. -/
inductive Phase where
  | start
  | active
  | read (gen : Nat)
  | asked (gen : Nat)
  | claimed
  | flushed
  | evicted
deriving DecidableEq

/-- A core: the context of CR3 and of `current_process`, its TLB, and `g_core_shootdown_req`. -/
structure Core where
  loaded : Nat
  current : Option Nat
  tlb : List (Nat × Leaf)
  req : Nat
  op : Op

/-- `g_shootdown`. -/
structure Shootdown where
  addr : Nat
  count : Nat
  pending : Nat
  gen : Nat
  evict : Option Nat
  active : Bool

/-- What happened to a generation. -/
inductive Mark where
  | armed (gen : Nat) (targets : List Nat)
  | flushed (gen core : Nat)
  | acked (gen core : Nat)
  | returned (gen : Nat)
deriving DecidableEq

structure World where
  tables : Nat → Tables
  core : Nat → Core
  ctxLock : Nat → Bool
  shoot : Shootdown
  lock : Option Nat
  handlers : List (Nat × Phase)
  history : List Mark

/-- Nothing is kept and nothing is going on. -/
def World.init (tables : Nat → Tables) (loaded : Nat → Nat) (current : Nat → Option Nat) : World where
  tables := tables
  core := fun j => ⟨loaded j, current j, [], 0, .idle⟩
  ctxLock := fun _ => false
  shoot := ⟨0, 0, 0, 0, none, false⟩
  lock := none
  handlers := []
  history := []

namespace World

variable (w : World)

/-- One core changes. -/
def setCore (j : Nat) (f : Core → Core) : World :=
  { w with core := Function.update w.core j (f (w.core j)) }

/-- The tables of a context change. -/
def setTables (c : Nat) (T : Tables) : World := { w with tables := Function.update w.tables c T }

/-- `spin_lock` and `spin_unlock` of the lock of a context. -/
def setCtxLock (c : Nat) (b : Bool) : World := { w with ctxLock := Function.update w.ctxLock c b }

theorem core_setCore (j : Nat) (f : Core → Core) (m : Nat) :
    (w.setCore j f).core m = if m = j then f (w.core m) else w.core m := by
  unfold setCore
  simp only [Function.update_apply]
  split
  · rename_i he
    rw [he]
  · rfl

def mark (m : Mark) : World := { w with history := m :: w.history }

end World

namespace World

/-- A call of the handler goes on. -/
def goto (w : World) (k j : Nat) (p : Phase) : World := { w with handlers := w.handlers.set k (j, p) }

/-- A call of the handler returns. -/
def leave (w : World) (k : Nat) : World := { w with handlers := w.handlers.eraseIdx k }

end World

/-! ## What empties a TLB -/

/-- `invlpg` of some pages, for the current PCID. -/
def invlpg (c : Core) (addr count : Nat) : Core :=
  { c with tlb := c.tlb.filter fun e => !decide (e.1 = c.loaded ∧ e.2.Meets addr count) }

/-- A load of CR3. -/
def loadCr3 (pcid : Bool) (ctx : Nat) (noflush : Bool) (c : Core) : Core :=
  { c with
    loaded := ctx
    tlb := if pcid then if noflush then c.tlb else c.tlb.filter fun e => !decide (e.1 = ctx) else [] }

variable (n : Nat)

/-- The own flush of `vmm_shootdown_pages` and `vmm_shootdown_full_evict`. -/
def localFlush (pcid : Bool) (r : Request) (c : Core) : Core :=
  if r.full = false ∧ (n ≤ 1 ∨ r.count ≤ 64) then invlpg c r.addr r.count else loadCr3 pcid c.loaded false c

/-- The flush of `vmm_tlb_shootdown_handler`; `CR4.PGE` empties everything. -/
def handlerFlush (s : Shootdown) (c : Core) : Core :=
  if s.addr = 0 ∨ s.count = 0 ∨ s.count > 64 then { c with tlb := [] } else invlpg c s.addr s.count

/-- A core that executes the evicted context loads `kernel_context->pml4_phys`. -/
def handlerEvict (pcid : Bool) (s : Shootdown) (c : Core) : Core :=
  if s.evict = some c.loaded then loadCr3 pcid 0 false c else c

/-! ## Steps -/

/-- The scan picks a core: for the kernel and for a full flush every core. -/
def Selected (w : World) (r : Request) (j : Nat) : Prop := r.full = true ∨ r.ctx = 0 ∨ (w.core j).current = some r.ctx

instance (w : World) (r : Request) (j : Nat) : Decidable (Selected w r j) := inferInstanceAs (Decidable (_ ∨ _ ∨ _))

/-- `shootdown_arm` up to `active`; the number of targets is a `uint8_t`. -/
def armWith (s : Shootdown) (r : Request) (targets : List Nat) : Shootdown where
  addr := if r.full = false ∧ r.count ≤ 64 then r.addr else 0
  count := if r.full = false ∧ r.count ≤ 64 then r.count else 0
  pending := targets.length % 256
  gen := s.gen + 1
  evict := r.evict
  active := true

/-- `atomic_fetch_sub_u32` of one; zero wraps. -/
def fetchSub : Nat → Nat
  | 0 => 2 ^ 32 - 1
  | p + 1 => p

theorem fetchSub_succ {p : Nat} (hpos : 0 < p) : fetchSub p + 1 = p := by
  cases p with
  | zero => cases hpos
  | succ p => rfl

def setOp (o : Op) (c : Core) : Core := { c with op := o }

/-- The operation of a core goes on. -/
def advance (pcid : Bool) (w : World) (i : Nat) : Option World :=
  match (w.core i).op with
  | .idle => none
  | .protecting ctx base count done flags =>
    if done = count then
      some ((w.setCtxLock ctx false).setCore i (setOp (.scanning ⟨ctx, base, count, count, false, none⟩ 0 [])))
    else
      match protectPage (w.tables ctx) (base + done) flags with
      | none => some ((w.setCtxLock ctx false).setCore i (setOp .idle))
      | some T => some ((w.setTables ctx T).setCore i (setOp (.protecting ctx base count (done + 1) flags)))
  | .splitting ctx _ _ page =>
    some ((w.setCtxLock ctx false).setCore i fun c => setOp .idle (invlpg c page 1))
  | .scanning r next targets =>
    if next < n then
      if next ≠ i ∧ Selected w r next then some (w.setCore i (setOp (.scanning r (next + 1) (targets ++ [next]))))
      else some (w.setCore i (setOp (.scanning r (next + 1) targets)))
    else some (w.setCore i (setOp (.flushing r targets)))
  | .flushing r targets =>
    some (w.setCore i fun c => setOp (if targets = [] then .idle else .locking r targets) (localFlush n pcid r c))
  | .locking r targets =>
    if w.lock = none then
      some (({ w with lock := some i, shoot := armWith w.shoot r targets }.setCore i
        (setOp (.asking r targets targets))).mark (.armed (w.shoot.gen + 1) targets))
    else none
  | .asking r targets (j :: rest) =>
    some ((w.setCore j fun c => { c with req := w.shoot.gen }).setCore i (setOp (.asking r targets rest)))
  | .asking r targets [] => some (w.setCore i (setOp (.waiting r targets)))
  | .waiting _ _ =>
    if w.shoot.pending = 0 then
      some (({ w with lock := none, shoot := { w.shoot with active := false } }.setCore i (setOp .idle)).mark
        (.returned w.shoot.gen))
    else none

/-- A call of the handler goes on. -/
def handle (pcid : Bool) (w : World) (k : Nat) : Option World :=
  match w.handlers[k]? with
  | none => none
  | some (j, .start) => some (if w.shoot.active then w.goto k j .active else w.leave k)
  | some (j, .active) => some (w.goto k j (.read w.shoot.gen))
  | some (j, .read gen) => some (if (w.core j).req = gen then w.goto k j (.asked gen) else w.leave k)
  | some (j, .asked gen) =>
    some (if (w.core j).req = gen then (w.goto k j .claimed).setCore j fun c => { c with req := 0 } else w.leave k)
  | some (j, .claimed) => some (((w.goto k j .flushed).setCore j (handlerFlush w.shoot)).mark (.flushed w.shoot.gen j))
  | some (j, .flushed) => some ((w.goto k j .evicted).setCore j (handlerEvict pcid w.shoot))
  | some (j, .evicted) =>
    some (({ w.leave k with shoot := { w.shoot with pending := fetchSub w.shoot.pending } } : World).mark
      (.acked w.shoot.gen j))

/-- What may happen. -/
inductive Event where
  | fill (j page : Nat)
  | setCurrent (j : Nat) (ctx : Option Nat)
  | loadCr3 (j ctx : Nat) (noflush : Bool)
  | mapPage (i ctx page frame : Nat) (flags : BitVec 64)
  | mapHuge (i ctx page frame : Nat) (flags : BitVec 64)
  | demote (i ctx page : Nat)
  | unmapPage (i ctx page : Nat)
  | unmapHuge (i ctx page : Nat)
  | protect (i ctx base count : Nat) (flags : BitVec 64)
  | flushAll (i : Nat) (evict : Option Nat)
  | advance (i : Nat)
  | call (j : Nat)
  | handle (k : Nat)

/-- A core starts an operation on a context that is not locked. -/
def begins (w : World) (i ctx : Nat) : Prop := i < n ∧ (w.core i).op = .idle ∧ w.ctxLock ctx = false

instance (n : Nat) (w : World) (i ctx : Nat) : Decidable (begins n w i ctx) := inferInstanceAs (Decidable (_ ∧ _ ∧ _))

def next (pcid : Bool) (w : World) : Event → Option World
  | .fill j page =>
    if j < n then
      (leafAt (w.tables (w.core j).loaded) page).map fun l => w.setCore j fun c =>
      { c with tlb := (c.loaded, l) :: c.tlb }
    else none
  | .setCurrent j ctx => some (w.setCore j fun c => { c with current := ctx })
  | .loadCr3 j ctx noflush => some (w.setCore j (loadCr3 pcid ctx noflush))
  | .mapPage i ctx page frame flags =>
    if begins n w i ctx then (mapPage (w.tables ctx) page frame flags).map (w.setTables ctx) else none
  | .mapHuge i ctx page frame flags =>
    if begins n w i ctx then (mapHuge (w.tables ctx) page frame flags).map (w.setTables ctx) else none
  | .demote i ctx page =>
    if begins n w i ctx then
      (demote (w.tables ctx) page).map fun r =>
        ((w.setTables ctx r.1).setCtxLock ctx true).setCore i (setOp (.splitting ctx r.2.1 r.2.2 page))
    else none
  | .unmapPage i ctx page =>
    if begins n w i ctx then
      (unmapPage (w.tables ctx) page).map fun T =>
        (w.setTables ctx T).setCore i (setOp (.scanning ⟨ctx, page, 1, 1, false, none⟩ 0 []))
    else none
  | .unmapHuge i ctx page =>
    if begins n w i ctx then
      (unmapHuge (w.tables ctx) page).map fun T =>
        (w.setTables ctx T).setCore i (setOp (.scanning ⟨ctx, page, 1, 512, false, none⟩ 0 []))
    else none
  | .protect i ctx base count flags =>
    if begins n w i ctx then some ((w.setCtxLock ctx true).setCore i (setOp (.protecting ctx base count 0 flags))) else
      none
  | .flushAll i evict =>
    if i < n ∧
      (w.core i).op = .idle then some (w.setCore i (setOp (.scanning ⟨0, 0, 0, 0, true, evict⟩ 0 []))) else none
  | .advance i => advance n pcid w i
  | .call j => some { w with handlers := w.handlers ++ [(j, .start)] }
  | .handle k => handle pcid w k

/-- One step. -/
def Step (pcid : Bool) (w : World) (e : Event) (w' : World) : Prop := next n pcid w e = some w'

/-! ## Stale entries -/

/-- The tables translate a page as an entry does. -/
def Agrees (T : Tables) (l : Leaf) (p : Nat) : Prop := (leafAt T p).map (·.translate p) = some (l.translate p)

instance (T : Tables) (l : Leaf) (p : Nat) : Decidable (Agrees T l p) := inferInstanceAs (Decidable (_ = _))

/-- A core keeps no stale entry. -/
def NoneStale (w : World) (j : Nat) : Prop :=
  ∀ e ∈ (w.core j).tlb, ∀ k < e.2.span, Agrees (w.tables e.1) e.2 (e.2.base + k)

instance (w : World) (j : Nat) : Decidable (NoneStale w j) :=
  inferInstanceAs (Decidable (∀ e ∈ (w.core j).tlb, ∀ k < e.2.span, _))

/-- A change of tables makes entries stale only on cores that have the context loaded and meet `P`. -/
def StaleOnly (w : World) (ctx : Nat) (T : Tables) (P : Nat → Prop) : Prop :=
  ∀ j < n, ∀ e ∈ (w.core j).tlb, e.1 = ctx → ∀ k < e.2.span, Agrees (w.tables ctx) e.2 (e.2.base + k) →
    ¬Agrees T e.2 (e.2.base + k) → (w.core j).loaded = ctx ∧ P j

instance (n : Nat) (w : World) (ctx : Nat) (T : Tables) (P : Nat → Prop) [DecidablePred P] :
    Decidable (StaleOnly n w ctx T P) :=
  inferInstanceAs (Decidable (∀ j < n, ∀ e ∈ (w.core j).tlb, e.1 = ctx → ∀ k < e.2.span, _ → _ → _))

/-- A core is told of a change: it makes the change itself, or the scan picks it. -/
def Told (w : World) (i ctx j : Nat) : Prop := j = i ∨ ctx = 0 ∨ (w.core j).current = some ctx

instance (w : World) (i ctx j : Nat) : Decidable (Told w i ctx j) := inferInstanceAs (Decidable (_ ∨ _ ∨ _))

/-- No core keeps a stale entry of the pages that `vmm_protect` has changed. -/
def NoneStaleIn (w : World) (ctx base count : Nat) : Prop :=
  ∀ j < n, ∀ e ∈ (w.core j).tlb, e.1 = ctx → ∀ k < e.2.span, base ≤ e.2.base + k → e.2.base + k < base + count →
    Agrees (w.tables ctx) e.2 (e.2.base + k)

instance (n : Nat) (w : World) (ctx base count : Nat) : Decidable (NoneStaleIn n w ctx base count) :=
  inferInstanceAs (Decidable (∀ j < n, ∀ e ∈ (w.core j).tlb, e.1 = ctx → ∀ k < e.2.span, _ → _ → _))

/-- What a step of an operation asks for. -/
def CleanAdvance (w : World) (i : Nat) : Prop :=
  match (w.core i).op with
  | .protecting ctx base count done flags =>
    if done = count then True
    else match protectPage (w.tables ctx) (base + done) flags with
      | none => NoneStaleIn n w ctx base done
      | some T => StaleOnly n w ctx T (Told w i ctx)
  | _ => True

/-- What a step of a handler asks for. -/
def CleanHandle (w : World) (k : Nat) : Prop :=
  ∀ x ∈ w.handlers[k]?, x.2 = .flushed → w.shoot.evict = some (w.core x.1).loaded → NoneStale w x.1

/-- When a change makes entries stale, the cores that keep them have the context loaded and are told of it; and a core
that keeps a stale entry goes on with the same process and the same context. -/
def Clean (pcid : Bool) (w : World) : Event → Prop
  | .demote i ctx page => ∀ r ∈ demote (w.tables ctx) page, StaleOnly n w ctx r.1 (· = i)
  | .unmapPage i ctx page => ∀ T ∈ unmapPage (w.tables ctx) page, StaleOnly n w ctx T (Told w i ctx)
  | .unmapHuge i ctx page => ∀ T ∈ unmapHuge (w.tables ctx) page, StaleOnly n w ctx T (Told w i ctx)
  | .setCurrent j ctx => ctx = (w.core j).current ∨ NoneStale w j
  | .loadCr3 j ctx _ => pcid = true → ctx = (w.core j).loaded ∨ NoneStale w j
  | .advance i => CleanAdvance n w i
  | .handle k => CleanHandle w k
  | _ => True

end BoxOS.Memory.Tlb
