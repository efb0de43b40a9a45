import BoxOS.Scheduler.RunQueueInv

/-! # Runs of a run queue

Any order of enqueues, pops and removals. As long as a queue moves to another array only with its head at the front,
every process is queued once and knows its slot, and without removals each priority is first in, first out. A queue
that is moved with its head elsewhere leaves its processes with the slots they had before. -/

set_option linter.unusedSectionVars false
open Function (update update_of_ne update_self)

namespace BoxOS.Scheduler

open List

variable {P : Type} [DecidableEq P]

inductive RqOp (P : Type) where
  | enqueue (p : P) (prio : Int) (kmalloc : Option (Nat → Option P))
  | dequeueBest (kmalloc : Option (Nat → Option P))
  | selectFair (kmalloc : Option (Nat → Option P))
  | steal
  | remove (p : P)

/-- A run queue with the record of the processes that entered and left each priority, in order. -/
structure RqRun (P : Type) where
  state : RqState P
  entered : Nat → List P := fun _ => []
  left : Nat → List P := fun _ => []

open RqRun

def appendAt (f : Nat → List P) (i : Nat) (p : P) : Nat → List P :=
  update f i (f i ++ [p])

/-- A pop, recorded under the priority its process was queued with. -/
def RqRun.popped (r : RqRun P) (res : RqState P × Option P) : RqRun P :=
  match res.2 with
  | none => { r with state := res.1 }
  | some p => { r with state := res.1, left := appendAt r.left (r.state.proc p).prio.toNat p }

/-- Every caller of `runqueue_enqueue` asks `runqueue_contains` first. -/
def RqRun.step (r : RqRun P) : RqOp P → RqRun P
  | .enqueue p prio kmalloc =>
    if runqueueContains r.state p then r
    else
      let res := runqueueEnqueue kmalloc r.state p prio
      { r with state := res.1, entered := if res.2 then appendAt r.entered prio.toNat p else r.entered }
  | .dequeueBest kmalloc => r.popped (runqueueDequeueBest kmalloc r.state)
  | .selectFair kmalloc => r.popped (selectFair kmalloc r.state)
  | .steal => r.popped (stealPop r.state)
  | .remove p => { r with state := runqueueRemove r.state p }

/-- `runqueue_init`, with every process outside. -/
def RqRun.start (kmalloc : Nat → Bool) : RqRun P :=
  { state := ⟨runqueueInit kmalloc, fun _ => {}⟩ }

def RqRun.run (kmalloc : Nat → Bool) (ops : List (RqOp P)) : RqRun P :=
  ops.foldl step (start kmalloc)

/-! ## What a run queue promises -/

structure RqState.Kept (s : RqState P) : Prop where
  once : ((List.range schedPrioLevels).flatMap s.contents).Nodup
  slot : ∀ i < schedPrioLevels, ∀ p ∈ s.contents i, ∃ idx < (s.rq.queues i).capacity,
    s.proc p = ⟨i, (idx : Nat)⟩ ∧ (s.rq.queues i).slots idx = some p
  contains : ∀ p, runqueueContains s p = true ↔ ∃ i < schedPrioLevels, p ∈ s.contents i
  removed : ∀ i < schedPrioLevels, ∀ p ∈ s.contents i,
    p :: (runqueueRemove s p).contents i ~ s.contents i ∧
      ∀ j < schedPrioLevels, j ≠ i → (runqueueRemove s p).contents j = s.contents j
  notRemoved : ∀ p, (∀ i < schedPrioLevels, p ∉ s.contents i) → runqueueRemove s p = s
  count : ∀ i < schedPrioLevels, (s.rq.queues i).count = (s.contents i).length
  bitmap : ∀ i, s.rq.activeBitmap.testBit i = true ↔ i < schedPrioLevels ∧ s.contents i ≠ []
  total : s.rq.total = ∑ i ∈ Finset.range schedPrioLevels, (s.contents i).length
  best : ∀ kmalloc, match (runqueueDequeueBest kmalloc s).2 with
    | some p => ∃ i < schedPrioLevels, (s.contents i).head? = some p ∧
        ∀ j < schedPrioLevels, i < j → s.contents j = []
    | none => ∀ i < schedPrioLevels, s.contents i = []

/-- First in, first out: what entered a priority is what left it, followed by what is there. -/
def RqRun.Fifo (r : RqRun P) : Prop :=
  ∀ i < schedPrioLevels, r.entered i = r.left i ++ r.state.contents i

/-- The operation moves a queue to another array only with its head at the front, or empty. -/
def RqState.inPlace (s : RqState P) : RqOp P → Prop
  | .enqueue _ prio kmalloc =>
    enqueueRoom kmalloc (s.rq.queues prio.toNat) = none ∨
      (s.rq.queues prio.toNat).count < (s.rq.queues prio.toNat).capacity ∨ (s.rq.queues prio.toNat).head = 0
  | .dequeueBest kmalloc => s.shrinksInPlace kmalloc
  | .selectFair kmalloc => s.shrinksInPlace kmalloc
  | .steal => True
  | .remove _ => True

instance (s : RqState P) (kmalloc : Option (Nat → Option P)) : Decidable (s.shrinksInPlace kmalloc) :=
  inferInstanceAs (Decidable (_ ∨ _))

instance (s : RqState P) (op : RqOp P) : Decidable (s.inPlace op) :=
  match op with
  | .enqueue _ _ _ => inferInstanceAs (Decidable (_ ∨ _))
  | .dequeueBest kmalloc => inferInstanceAs (Decidable (s.shrinksInPlace kmalloc))
  | .selectFair kmalloc => inferInstanceAs (Decidable (s.shrinksInPlace kmalloc))
  | .steal => inferInstanceAs (Decidable True)
  | .remove _ => inferInstanceAs (Decidable True)

def RqRun.allInPlace (r : RqRun P) : List (RqOp P) → Prop
  | [] => True
  | op :: ops => r.state.inPlace op ∧ (r.step op).allInPlace ops

instance RqRun.decidableAllInPlace : (r : RqRun P) → (ops : List (RqOp P)) → Decidable (r.allInPlace ops)
  | _, [] => inferInstanceAs (Decidable True)
  | r, op :: ops =>
    have := decidableAllInPlace (r.step op) ops
    inferInstanceAs (Decidable (_ ∧ _))

def RqOp.isRemove : RqOp P → Bool
  | .remove _ => true
  | _ => false

/-! ## Every run -/

/-- The state holds `ls`, and a process that is in none of its lists has no slot. -/
structure RqState.Inv (s : RqState P) (ls : Nat → List P) : Prop where
  holds : s.Holds ls
  outside : ∀ p, Unqueued ls p → s.proc p = {}

/-- The record fits the lists. -/
def RqRun.Records (r : RqRun P) (ls : Nat → List P) : Prop :=
  ∀ i < schedPrioLevels, r.entered i = r.left i ++ ls i

theorem RqRun.inv_start (kmalloc : Nat → Bool) :
    (start kmalloc : RqRun P).state.Inv (fun _ => []) ∧ (start kmalloc : RqRun P).Records fun _ => [] := by
  refine ⟨⟨⟨fun i _ => ?_, fun i _ k hk => ?_, fun i => ?_, ?_⟩, fun p _ => rfl⟩, fun i _ => rfl⟩
  · simp only [start, runqueueInit]
    split
    · exact ⟨rfl, by simp only; decide, Nat.zero_le _, by simp [runqueueInitialCap], fun h => h, rfl, rfl⟩
    · exact ⟨rfl, by simp only; decide, Nat.zero_le _, by simp, fun h => h, rfl, rfl⟩
  · simp only [start, runqueueInit] at hk
    split at hk <;> exact absurd hk (Nat.not_lt_zero k)
  · simp [start, runqueueInit]
  · simp [start, runqueueInit]

theorem unqueued_update {ls : Nat → List P} {i : Nat} {l : List P} {p : P} (hi : i < schedPrioLevels) :
    Unqueued (update ls i l) p ↔ p ∉ l ∧ ∀ j < schedPrioLevels, j ≠ i → p ∉ ls j := by
  constructor
  · intro h
    refine ⟨?_, fun j hj hne => ?_⟩
    · have := h i hi
      rwa [update_self] at this
    · have := h j hj
      rwa [update_of_ne hne] at this
  · rintro ⟨hl, hrest⟩ j hj
    by_cases hne : j = i
    · subst hne
      rwa [update_self]
    · rw [update_of_ne hne]
      exact hrest j hj hne

section steps

variable {r : RqRun P} {ls : Nat → List P}

/-- A pop keeps the invariant, and what leaves is recorded at the front of its list. -/
theorem RqRun.inv_popped {res : RqState P × Option P} (h : r.state.Inv ls) (hp : r.state.Pops ls res) :
    ∃ ls', (r.popped res).state.Inv ls' ∧ (r.Records ls → (r.popped res).Records ls') := by
  rcases hp with rfl | ⟨prio, hprio, p, l, hl, hres, hholds, hframe, hself⟩
  · exact ⟨ls, h, id⟩
  have hpl : p ∈ ls prio := hl ▸ mem_cons_self
  obtain ⟨k, -, -, hfields⟩ := h.holds.fields hprio hpl
  refine ⟨update ls prio l, ⟨?_, fun x hx => ?_⟩, fun hrec i hi => ?_⟩
  · simp only [popped, hres]
    exact hholds
  · simp only [popped, hres]
    by_cases hxp : x = p
    · rw [hxp, hself]
    rw [hframe x hxp]
    obtain ⟨hxl, hrest⟩ := (unqueued_update hprio).mp hx
    refine h.outside x fun j hj => ?_
    by_cases hj' : j = prio
    · rw [hj', hl]
      simp [hxp, hxl]
    · exact hrest j hj hj'
  · simp only [popped, hres, hfields, Int.toNat_natCast, appendAt]
    by_cases hip : i = prio
    · rw [hip, update_self, update_self, hrec prio hprio, hl, append_assoc,
        singleton_append]
    · rw [update_of_ne hip, update_of_ne hip]
      exact hrec i hi

theorem RqRun.inv_enqueue (h : r.state.Inv ls) (p : P) (prio : Int) (kmalloc : Option (Nat → Option P))
    (hplace : r.state.inPlace (.enqueue p prio kmalloc)) : ∃ ls', (r.step (.enqueue p prio kmalloc)).state.Inv ls' ∧
    (r.Records ls → (r.step (.enqueue p prio kmalloc)).Records ls') := by
  by_cases hin : runqueueContains r.state p = true
  · refine ⟨ls, ?_, ?_⟩ <;> simp only [step, hin, if_true]
    · exact h
    · exact id
  have hout : Unqueued ls p := fun i hi hp => hin (h.holds.contains_of_mem hi hp)
  simp only [step, hin, Bool.false_eq_true, if_false]
  rcases h.holds.when.enqueue (fun _ => hout) (fun _ => hplace) with hfail | ⟨hprio, hok, hframe, hholds⟩
  · rw [hfail]
    exact ⟨ls, h, id⟩
  refine ⟨_, ⟨hholds.holds trivial, fun x hx => ?_⟩, fun hrec i hi => ?_⟩
  · obtain ⟨hxl, hrest⟩ := (unqueued_update hprio).mp hx
    have hxp : x ≠ p := fun hxp => hxl (by simp [hxp])
    rw [hframe x hxp]
    refine h.outside x fun j hj => ?_
    by_cases hj' : j = prio.toNat
    · rw [hj']
      exact fun hxj => hxl (mem_append_left _ hxj)
    · exact hrest j hj hj'
  · simp only [hok, if_true, appendAt]
    by_cases hip : i = prio.toNat
    · rw [hip, update_self, update_self, hrec _ hprio, append_assoc]
    · rw [update_of_ne hip, update_of_ne hip]
      exact hrec i hi

theorem RqRun.inv_remove (h : r.state.Inv ls) (p : P) : ∃ ls', (r.step (.remove p)).state.Inv ls' := by
  by_cases hout : Unqueued ls p
  · refine ⟨ls, ?_⟩
    simp only [step]
    rw [remove_of_fields (h.outside p hout)]
    exact h
  obtain ⟨i, hi, hpi⟩ : ∃ i, i < schedPrioLevels ∧ p ∈ ls i := by
    by_contra hnone
    exact hout fun i hi hp => hnone ⟨i, hi, hp⟩
  obtain ⟨l', hperm, hholds, hself, hframe⟩ := h.holds.remove hi hpi
  refine ⟨_, hholds, fun x hx => ?_⟩
  obtain ⟨hxl, hrest⟩ := (unqueued_update hi).mp hx
  simp only [step]
  by_cases hxp : x = p
  · rw [hxp, hself]
  have hxi : x ∉ ls i := by
    intro hxi
    rcases mem_cons.mp (hperm.mem_iff.mpr hxi) with he | he
    · exact hxp he
    · exact hxl he
  rw [hframe x hxi]
  refine h.outside x fun j hj => ?_
  by_cases hj' : j = i
  · rw [hj']
    exact hxi
  · exact hrest j hj hj'

theorem RqRun.inv_step (h : r.state.Inv ls) (op : RqOp P) (hplace : r.state.inPlace op) :
    ∃ ls', (r.step op).state.Inv ls' ∧ (op.isRemove = false → r.Records ls → (r.step op).Records ls') := by
  cases op
  case enqueue p prio kmalloc =>
    obtain ⟨ls', hinv, hrec⟩ := inv_enqueue h p prio kmalloc hplace
    exact ⟨ls', hinv, fun _ => hrec⟩
  case dequeueBest kmalloc =>
    obtain ⟨ls', hinv, hrec⟩ := inv_popped h (h.holds.pops_dequeueBest hplace)
    exact ⟨ls', hinv, fun _ => hrec⟩
  case selectFair kmalloc =>
    obtain ⟨ls', hinv, hrec⟩ := inv_popped h (h.holds.pops_selectFair hplace)
    exact ⟨ls', hinv, fun _ => hrec⟩
  case steal =>
    obtain ⟨ls', hinv, hrec⟩ := inv_popped h h.holds.pops_stealPop
    exact ⟨ls', hinv, fun _ => hrec⟩
  case remove p =>
    obtain ⟨ls', hinv⟩ := inv_remove h p
    exact ⟨ls', hinv, nofun⟩

theorem RqRun.inv_run {ops : List (RqOp P)} (h : r.state.Inv ls) (hplace : r.allInPlace ops) :
    ∃ ls', (ops.foldl step r).state.Inv ls' ∧
    ((∀ op ∈ ops, op.isRemove = false) → r.Records ls → (ops.foldl step r).Records ls') := by
  induction ops generalizing r ls with
  | nil => exact ⟨ls, h, fun _ hrec => hrec⟩
  | cons op ops ih =>
    obtain ⟨ls₁, hinv, hrec⟩ := inv_step h op hplace.1
    obtain ⟨ls₂, hinv₂, hrec₂⟩ := ih hinv hplace.2
    refine ⟨ls₂, hinv₂, fun hno hr => hrec₂ (fun o ho => hno o (mem_cons_of_mem op ho)) ?_⟩
    exact hrec (hno op mem_cons_self) hr

end steps

theorem dequeueBest_result (kmalloc : Option (Nat → Option P)) (s : RqState P) :
    (runqueueDequeueBest kmalloc s).2 = (runqueueDequeueBest none s).2 := by
  unfold runqueueDequeueBest
  split
  · rfl
  · simp only
    split <;> rfl

theorem RqState.Inv.kept {s : RqState P} {ls : Nat → List P} (h : s.Inv ls) : s.Kept := by
  have hc : ∀ i < schedPrioLevels, s.contents i = ls i := fun i hi => h.holds.contents_eq hi
  refine ⟨?_, fun i hi p hp => ?_, fun p => ?_, fun i hi p hp => ?_, fun p hp => ?_, fun i hi => ?_, fun i => ?_, ?_,
    fun kmalloc => ?_⟩
  · rw [nodup_flatMap]
    refine ⟨fun i hi => ?_, ?_⟩
    · have hi' := mem_range.mp hi
      rw [hc i hi']
      exact h.holds.nodup hi'
    · refine nodup_range.imp_of_mem ?_
      intro i j hi hj hne p hpi hpj
      have hi' := mem_range.mp hi
      have hj' := mem_range.mp hj
      rw [hc i hi'] at hpi
      rw [hc j hj'] at hpj
      exact hne (h.holds.prio_unique hi' hj' hpi hpj)
  · rw [hc i hi] at hp
    obtain ⟨k, hk, hslot, hfields⟩ := h.holds.fields hi hp
    have hf := (h.holds.queues i hi).fits
    exact ⟨_, Nat.mod_lt _ (by omega), hfields, hslot⟩
  · constructor
    · intro hcon
      by_contra hnone
      have hout : Unqueued ls p := fun i hi hp => hnone ⟨i, hi, by rw [hc i hi]; exact hp⟩
      rw [contains_of_fields (h.outside p hout)] at hcon
      cases hcon
    · rintro ⟨i, hi, hp⟩
      rw [hc i hi] at hp
      exact h.holds.contains_of_mem hi hp
  · rw [hc i hi] at hp
    obtain ⟨l', hperm, hholds, -, -⟩ := h.holds.remove hi hp
    refine ⟨?_, fun j hj hne => ?_⟩
    · rw [hholds.contents_eq hi, hc i hi, update_self]
      exact hperm
    · rw [hholds.contents_eq hj, hc j hj, update_of_ne hne]
  · refine remove_of_fields (h.outside p fun i hi hpi => hp i hi ?_)
    rw [hc i hi]
    exact hpi
  · rw [hc i hi]
    exact (h.holds.queues i hi).count
  · rw [h.holds.bitmap, decide_eq_true_eq]
    constructor
    · rintro ⟨hi, hne⟩
      exact ⟨hi, by rwa [hc i hi]⟩
    · rintro ⟨hi, hne⟩
      exact ⟨hi, by rwa [hc i hi] at hne⟩
  · rw [h.holds.total]
    refine Finset.sum_congr rfl fun i hi => ?_
    rw [hc i (Finset.mem_range.mp hi)]
  · rw [dequeueBest_result]
    rcases h.holds.when.dequeueBest (fun _ => .inl (Eq.refl none)) with
      ⟨hnone, hempty⟩ | ⟨prio, hprio, p, l, hl, habove, hres, -⟩
    · rw [hnone]
      exact fun i hi => (hc i hi).trans (hempty i hi)
    · rw [hres]
      exact ⟨prio, hprio, by rw [hc prio hprio, hl]; rfl, fun j hj hlt => (hc j hj).trans (habove j hj hlt)⟩

/-- When no operation moves a queue whose head is not at the front, every state of the run keeps its promises, and
without removals each priority is first in, first out. -/
theorem runqueue_kept (kmalloc : Nat → Bool) (ops : List (RqOp P)) (hplace : (start kmalloc : RqRun P).allInPlace ops) :
    (run kmalloc ops).state.Kept ∧ ((∀ op ∈ ops, op.isRemove = false) → (run kmalloc ops).Fifo) := by
  obtain ⟨hinv, hrec⟩ := inv_start (P := P) kmalloc
  obtain ⟨ls, hinv', hrec'⟩ := inv_run hinv hplace
  refine ⟨hinv'.kept, fun hno i hi => ?_⟩
  rw [show (run kmalloc ops).state.contents i = ls i from hinv'.holds.contents_eq hi]
  exact hrec' hno hrec i hi

/-- `n` processes of normal priority, from `i` on. -/
def enqueues (i n : Nat) : List (RqOp Nat) :=
  (List.range' i n).map fun p => .enqueue p 1 (some fun _ => none)

/-- A queue that grows before anything has left it, loses a process from its middle, and is drained a little. -/
def growOps : List (RqOp Nat) :=
  enqueues 0 66 ++ [.remove 5, .selectFair none, .steal, .enqueue 66 3 none, .dequeueBest none]

theorem runqueue_kept_growOps :
    (start fun _ => true : RqRun Nat).allInPlace growOps ∧ (run (fun _ => true) growOps).state.Kept :=
  have hplace : (start fun _ => true : RqRun Nat).allInPlace growOps := by decide +kernel
  ⟨hplace, (runqueue_kept _ growOps hplace).1⟩

/-- A queue of 64 that one process has left and two more enter: the second makes it grow with its head at slot 1. -/
def rotateOps : List (RqOp Nat) :=
  enqueues 0 64 ++ [.dequeueBest none] ++ enqueues 64 2

/-- Process 1 is at the head of its queue, and `runqueue_contains` does not find it. -/
theorem runqueue_rotated : ((run (fun _ => true) rotateOps).state.contents 1).head? = some 1 ∧
    runqueueContains (run (fun _ => true) rotateOps).state 1 = false ∧
    ¬ (run (fun _ => true) rotateOps).state.Kept := by
  have hhead : ((run (fun _ => true) rotateOps).state.contents 1).head? = some 1 := by decide +kernel
  have hcon : runqueueContains (run (fun _ => true) rotateOps).state 1 = false := by decide +kernel
  refine ⟨hhead, hcon, fun hk => ?_⟩
  have hin := (hk.contains 1).mpr ⟨1, by decide, mem_of_mem_head? hhead⟩
  exact nomatch hcon.symm.trans hin

end BoxOS.Scheduler
