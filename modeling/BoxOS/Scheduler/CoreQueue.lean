import BoxOS.Scheduler.RunQueueInv

/-! # Queues that are not resized

While no queue of a core is resized its unused slots are empty, so `runqueue_contains` and `runqueue_remove` also
answer for a process that is queued on another core. The operations of `schedule()` on one run queue: `Takes` says
what leaves it, `Adds` what joins it. -/

set_option linter.unusedSectionVars false
open Function (update update_of_ne update_self)

namespace BoxOS.Scheduler

open Lib List Option

variable {P : Type} [DecidableEq P]

/-- The process is in one of the queues of the core. -/
def RqState.Queued (s : RqState P) (p : P) : Prop :=
  ∃ i < schedPrioLevels, p ∈ s.contents i

/-- A slot that is not empty belongs to the process in it. -/
def RqState.Clean (s : RqState P) (ls : Nat → List P) : Prop :=
  ∀ i < schedPrioLevels, ∀ j p, (s.rq.queues i).slots j = some p → p ∈ ls i ∧ s.proc p = ⟨i, j⟩

/-- The queues hold `ls`, with their unused slots empty and their initial size. -/
structure RqState.TidyAs (s : RqState P) (ls : Nat → List P) : Prop where
  holds : s.Holds ls
  clean : s.Clean ls
  small : ∀ i < schedPrioLevels, (s.rq.queues i).capacity ≤ runqueueInitialCap

def RqState.Tidy (s : RqState P) : Prop :=
  ∃ ls, s.TidyAs ls

/-- `next` and the processes that are `gone` leave the queues. -/
structure Takes (gone : P → Prop) (s s' : RqState P) (next : Option P) : Prop where
  tidy : s'.Tidy
  sub : ∀ x, s'.Queued x → s.Queued x
  kept : ∀ x, s.Queued x → s'.Queued x ∨ gone x ∨ next = some x
  next : ∀ x, next = some x → s.Queued x ∧ ¬ s'.Queued x
  same : ∀ x, ¬ s.Queued x → s'.proc x = s.proc x
  left : ∀ x, s.Queued x → ¬ s'.Queued x → s'.proc x = {}

/-- The process `p` joins the queues. -/
structure Adds (s s' : RqState P) (p : P) : Prop where
  tidy : s'.Tidy
  queued : ∀ x, s'.Queued x ↔ s.Queued x ∨ x = p
  same : ∀ x, x ≠ p → s'.proc x = s.proc x

section one

variable {s : RqState P} {ls : Nat → List P} {p : P} {prio : Nat}

theorem RqState.Holds.queued (h : s.Holds ls) : s.Queued p ↔ ∃ i < schedPrioLevels, p ∈ ls i := by
  refine exists_congr fun i => and_congr_right fun hi => ?_
  rw [h.contents_eq hi]

theorem RqState.Holds.unqueued (h : s.Holds ls) (hp : ¬ s.Queued p) : Unqueued ls p :=
  fun i hi hmem => hp (h.queued.mpr ⟨i, hi, hmem⟩)

theorem RqState.TidyAs.ne_of_slot (h : s.TidyAs ls) {i j i' j' : Nat} {x y : P} (hi : i < schedPrioLevels)
    (hi' : i' < schedPrioLevels) (hx : (s.rq.queues i).slots j = some x) (hy : (s.rq.queues i').slots j' = some y)
    (hne : i ≠ i' ∨ j ≠ j') : x ≠ y := by
  rintro rfl
  have hfields := (h.clean i hi j x hx).2.symm.trans (h.clean i' hi' j' x hy).2
  rw [RqFields.mk.injEq, Int.natCast_inj, Int.natCast_inj] at hfields
  omega

theorem RqState.TidyAs.slotAt_ne (h : s.TidyAs ls) (hp : ¬ s.Queued p) (hprio : 0 ≤ (s.proc p).prio)
    (hlev : (s.proc p).prio < schedPrioLevels) : slotAt s p ≠ some p := by
  intro hslot
  unfold slotAt at hslot
  simp only at hslot
  split at hslot
  · cases hslot
  have hi : (s.proc p).prio.toNat < schedPrioLevels := by omega
  obtain ⟨a, ha, haj⟩ := bind_eq_some_iff.mp hslot
  have hs : (s.rq.queues (s.proc p).prio.toNat).slots (s.proc p).index.toNat = some p := by
    rw [SchedQueue.slots, ha]
    exact haj
  exact hp (h.holds.queued.mpr ⟨_, hi, (h.clean _ hi _ _ hs).1⟩)

theorem RqState.TidyAs.contains_eq (h : s.TidyAs ls) (hlev : (s.proc p).prio < schedPrioLevels) :
    runqueueContains s p = true ↔ s.Queued p := by
  constructor
  · intro hc
    unfold runqueueContains at hc
    split at hc
    · cases hc
    · by_contra hp
      exact h.slotAt_ne hp (by omega) hlev (of_decide_eq_true hc)
  · intro hp
    obtain ⟨i, hi, hmem⟩ := h.holds.queued.mp hp
    exact h.holds.contains_of_mem hi hmem

theorem RqState.TidyAs.remove_absent (h : s.TidyAs ls) (hp : ¬ s.Queued p) (hlev : (s.proc p).prio < schedPrioLevels) :
    runqueueRemove s p = s := by
  unfold runqueueRemove
  split
  · rfl
  · rw [if_pos (h.slotAt_ne hp (by omega) hlev)]

theorem RqState.TidyAs.update (h : s.TidyAs ls) {q' : SchedQueue P} {l' : List P} {proc' : P → RqFields} {b t : Nat}
    (hholds : RqState.Holds ⟨⟨update s.rq.queues prio q', b, t⟩, proc'⟩ (update ls prio l'))
    (hcap : q'.capacity ≤ runqueueInitialCap) (hslots : ∀ j x, q'.slots j = some x → x ∈ l' ∧ proc' x = ⟨prio, j⟩)
    (hframe : ∀ i < schedPrioLevels, i ≠ prio → ∀ x ∈ ls i, proc' x = s.proc x) :
    RqState.TidyAs ⟨⟨update s.rq.queues prio q', b, t⟩, proc'⟩ (update ls prio l') := by
  refine ⟨hholds, fun i hi j x hx => ?_, fun i hi => ?_⟩
  · simp only at hx ⊢
    by_cases hip : i = prio
    · subst hip
      rw [update_self] at hx ⊢
      exact hslots j x hx
    · rw [update_of_ne hip] at hx ⊢
      obtain ⟨hmem, hfields⟩ := h.clean i hi j x hx
      exact ⟨hmem, (hframe i hi hip x hmem).trans hfields⟩
  · simp only
    by_cases hip : i = prio
    · subst hip
      rw [update_self]
      exact hcap
    · rw [update_of_ne hip]
      exact h.small i hi

theorem exists_mem_update {l : List P} (hprio : prio < schedPrioLevels) :
    (∃ i < schedPrioLevels, p ∈ update ls prio l i) ↔ p ∈ l ∨ ∃ i < schedPrioLevels, i ≠ prio ∧ p ∈ ls i := by
  constructor
  · rintro ⟨i, hi, hmem⟩
    by_cases hip : i = prio
    · subst hip
      rw [update_self] at hmem
      exact .inl hmem
    · rw [update_of_ne hip] at hmem
      exact .inr ⟨i, hi, hip, hmem⟩
  · rintro (hmem | ⟨i, hi, hip, hmem⟩)
    · exact ⟨prio, hprio, by rwa [update_self]⟩
    · exact ⟨i, hi, by rwa [update_of_ne hip]⟩

/-! ## Joining -/

/-- A queue with a free slot takes a process that no queue of the core has. -/
theorem RqState.TidyAs.enqueue (h : s.TidyAs ls) {kmalloc : Option (Nat → Option P)} (hp : ¬ s.Queued p)
    (hprio : prio < schedPrioLevels) (hroom : (s.rq.queues prio).count < (s.rq.queues prio).capacity) :
    (runqueueEnqueue kmalloc s p prio).2 = true ∧ Adds s (runqueueEnqueue kmalloc s p prio).1 p := by
  have hq := h.holds.queues prio hprio
  have hprocs := hq.procs (by omega)
  have hcap := h.small prio hprio
  have htail : (s.rq.queues prio).tail < (s.rq.queues prio).capacity := by
    rw [hq.tail]
    exact Nat.mod_lt _ (by omega)
  have hroom' : enqueueRoom kmalloc (s.rq.queues prio) = some (s.rq.queues prio) := by
    rw [enqueueRoom, if_neg (by omega)]
  have hres : runqueueEnqueue kmalloc s p prio =
      (⟨⟨Function.update s.rq.queues prio ((s.rq.queues prio).pushed p), s.rq.activeBitmap ||| 2 ^ prio,
          inc32 s.rq.total⟩,
        Function.update s.proc p ⟨prio, (s.rq.queues prio).tail⟩⟩, true) := by
    unfold runqueueInitialCap at hcap
    unfold schedPrioLevels at hprio
    unfold runqueueEnqueue
    rw [if_neg (by unfold schedPrioLevels; omega), Int.toNat_natCast, hprocs]
    simp only [hroom']
    rw [castSigned_of_lt (by omega), castSigned_of_lt (by omega), SchedQueue.pushed, hprocs]
  have hholds : (runqueueEnqueue kmalloc s p prio).1.Holds (Function.update ls prio (ls prio ++ [p])) := by
    rcases @RqState.HoldsWhen.enqueue P _ s ls True h.holds.when kmalloc p prio (fun _ => h.holds.unqueued hp)
      (fun _ => .inr (.inl (by rwa [Int.toNat_natCast]))) with hno | ⟨-, -, -, hok⟩
    · rw [hres, Prod.mk.injEq] at hno
      cases hno.2
    · rw [Int.toNat_natCast] at hok
      exact hok.holds trivial
  have hslots : ((s.rq.queues prio).pushed p).slots =
      Function.update (s.rq.queues prio).slots (s.rq.queues prio).tail (some p) :=
    (s.rq.queues prio).slots_map hprocs (fun a => Function.update a (s.rq.queues prio).tail (some p)) _ rfl
  refine ⟨by rw [hres], ⟨Function.update ls prio (ls prio ++ [p]), ?_⟩, fun x => ?_, fun x hx => ?_⟩
  · rw [hres] at hholds ⊢
    refine h.update hholds hcap (fun j x hx => ?_) fun i hi _ x hx => ?_
    · rw [hslots] at hx
      by_cases hj : j = (s.rq.queues prio).tail
      · subst hj
        rw [update_self, some.injEq] at hx
        subst hx
        exact ⟨by simp, update_self _ _ _⟩
      rw [update_of_ne hj] at hx
      obtain ⟨hmem, hfields⟩ := h.clean prio hprio j x hx
      have hne : x ≠ p := fun he => hp (h.holds.queued.mpr ⟨prio, hprio, he ▸ hmem⟩)
      exact ⟨mem_append_left _ hmem, by rw [update_of_ne hne, hfields]⟩
    · have hne : x ≠ p := fun he => hp (h.holds.queued.mpr ⟨i, hi, he ▸ hx⟩)
      exact update_of_ne hne _ _
  · rw [hholds.queued, h.holds.queued, exists_mem_update hprio, mem_append, mem_singleton]
    constructor
    · rintro ((hmem | rfl) | ⟨i, hi, -, hmem⟩)
      · exact .inl ⟨prio, hprio, hmem⟩
      · exact .inr rfl
      · exact .inl ⟨i, hi, hmem⟩
    · rintro (⟨i, hi, hmem⟩ | rfl)
      · by_cases hip : i = prio
        · exact .inl (.inl (hip ▸ hmem))
        · exact .inr ⟨i, hi, hip, hmem⟩
      · exact .inl (.inr rfl)
  · rw [hres]
    exact update_of_ne hx _ _

/-! ## Leaving -/

section leaving

open scoped List

variable {s' : RqState P} {l : List P}

theorem RqState.TidyAs.takes (h : s.TidyAs ls) (hprio : prio < schedPrioLevels) (hperm : p :: l ~ ls prio)
    (h' : s'.TidyAs (Function.update ls prio l)) (hframe : ∀ x, x ∉ ls prio → s'.proc x = s.proc x)
    (hself : s'.proc p = {}) {gone : P → Prop} {next : Option P} (hnext : ∀ x, next = some x → x = p)
    (hgone : gone p ∨ next = some p) : Takes gone s s' next := by
  have hnodup := nodup_cons.mp (hperm.nodup_iff.mpr (h.holds.nodup hprio))
  have hp : s.Queued p := h.holds.queued.mpr ⟨prio, hprio, hperm.subset mem_cons_self⟩
  have hiff : ∀ x, s'.Queued x ↔ s.Queued x ∧ x ≠ p := by
    intro x
    rw [h'.holds.queued, h.holds.queued, exists_mem_update hprio]
    constructor
    · rintro (hmem | ⟨i, hi, hip, hmem⟩)
      · exact ⟨⟨prio, hprio, hperm.subset (mem_cons_of_mem _ hmem)⟩, fun he => hnodup.1 (he ▸ hmem)⟩
      · refine ⟨⟨i, hi, hmem⟩, fun he => hip (h.holds.prio_unique hi hprio hmem ?_)⟩
        exact he ▸ hperm.subset mem_cons_self
    · rintro ⟨⟨i, hi, hmem⟩, hne⟩
      by_cases hip : i = prio
      · subst hip
        exact .inl (mem_of_ne_of_mem hne (hperm.symm.subset hmem))
      · exact .inr ⟨i, hi, hip, hmem⟩
  refine ⟨⟨_, h'⟩, fun x hx => ((hiff x).mp hx).1, fun x hx => ?_, fun x hx => ?_, fun x hx => ?_, fun x hx hx' => ?_⟩
  · by_cases hxp : x = p
    · subst hxp
      exact .inr hgone
    · exact .inl ((hiff x).mpr ⟨hx, hxp⟩)
  · obtain rfl := hnext x hx
    exact ⟨hp, fun hq => ((hiff x).mp hq).2 rfl⟩
  · exact hframe x fun hmem => hx (h.holds.queued.mpr ⟨prio, hprio, hmem⟩)
  · have hxp : x = p := by
      by_contra hne
      exact hx' ((hiff x).mpr ⟨hx, hne⟩)
    rw [hxp, hself]

theorem Takes.refl (h : s.Tidy) (gone : P → Prop) : Takes gone s s none :=
  ⟨h, fun _ hx => hx, fun _ hx => .inl hx, fun _ hx => (nomatch hx), fun _ _ => rfl, fun _ hx hx' => absurd hx hx'⟩

theorem RqState.TidyAs.popHead (h : s.TidyAs ls) (hprio : prio < schedPrioLevels) (hl : ls prio = p :: l) :
    (Scheduler.popHead s prio).2 = some p ∧ (Scheduler.popHead s prio).1.TidyAs (Function.update ls prio l) ∧
      Takes (fun _ => False) s (Scheduler.popHead s prio).1 (Scheduler.popHead s prio).2 := by
  have hq : (s.rq.queues prio).Holds (p :: l) := hl ▸ h.holds.queues prio hprio
  obtain ⟨hres, hholds, -, hframe, hself⟩ := h.holds.when.popHead hprio hl
  have hpop : ∃ b t, (Scheduler.popHead s prio).1 =
      ⟨⟨Function.update s.rq.queues prio (s.rq.queues prio).popped, b, t⟩, Function.update s.proc p {}⟩ := by
    have hhead : ((s.rq.queues prio).procs.bind fun a => a (s.rq.queues prio).head) = some p := by
      rw [hq.procs (hq.pos (cons_ne_nil _ _)).2, bind_some]
      exact hq.slots_head
    unfold Scheduler.popHead
    simp only [hhead]
    exact ⟨_, _, rfl⟩
  have htidy : (Scheduler.popHead s prio).1.TidyAs (Function.update ls prio l) := by
    obtain ⟨b, t, hpop⟩ := hpop
    rw [hpop] at hholds ⊢
    refine h.update (hholds.holds trivial) (h.small prio hprio) (fun j x hx => ?_) fun i hi hip x hx => ?_
    · rw [SchedQueue.popped_slots hq] at hx
      by_cases hj : j = (s.rq.queues prio).head
      · rw [hj, update_self] at hx
        cases hx
      rw [update_of_ne hj] at hx
      obtain ⟨hmem, hfields⟩ := h.clean prio hprio j x hx
      have hxp : x ≠ p := h.ne_of_slot hprio hprio hx hq.slots_head (.inr hj)
      rw [hl] at hmem
      exact ⟨mem_of_ne_of_mem hxp hmem, by rw [update_of_ne hxp, hfields]⟩
    · refine update_of_ne (fun hxp => hip (h.holds.prio_unique hi hprio hx ?_)) _ _
      rw [hxp, hl]
      exact mem_cons_self
  refine ⟨hres, htidy, h.takes hprio (hl ▸ Perm.refl _) htidy (fun x hx => hframe x ?_) hself ?_ (.inr hres)⟩
  · rintro rfl
    exact hx (hl ▸ mem_cons_self)
  · intro x hx
    rw [hres, some.injEq] at hx
    exact hx.symm

theorem shrinkRoom_small {kmalloc : Option (Nat → Option P)} {q : SchedQueue P} (h : q.capacity ≤ runqueueInitialCap) :
    shrinkRoom kmalloc q = q := by
  rw [shrinkRoom, if_neg (by omega)]

theorem RqState.setQueue_self (s : RqState P) (prio : Nat) : s.setQueue prio (s.rq.queues prio) = s := by
  rw [RqState.setQueue, Function.update_eq_self]

theorem RqState.TidyAs.dequeueBest (h : s.TidyAs ls) (kmalloc : Option (Nat → Option P)) :
    Takes (fun _ => False) s (runqueueDequeueBest kmalloc s).1 (runqueueDequeueBest kmalloc s).2 := by
  unfold runqueueDequeueBest
  by_cases hb : s.rq.activeBitmap = 0
  · rw [if_pos hb]
    exact .refl ⟨ls, h⟩ _
  rw [if_neg hb]
  obtain ⟨hprio, -, ⟨p, l, hl⟩, -⟩ := @log2_prio P _ ls _ (fun _ => True) _ hb (by simpa using h.holds.bitmap)
  obtain ⟨-, htidy, htakes⟩ := h.popHead hprio hl
  simp only
  split
  · exact .refl ⟨ls, h⟩ _
  · rw [shrinkRoom_small (htidy.small _ hprio), RqState.setQueue_self]
    exact htakes

theorem RqState.TidyAs.selectFair (h : s.TidyAs ls) (kmalloc : Option (Nat → Option P)) :
    Takes (fun _ => False) s (selectFair kmalloc s).1 (selectFair kmalloc s).2 := by
  unfold Scheduler.selectFair
  split
  · exact h.dequeueBest kmalloc
  · rename_i hb
    obtain ⟨hprio, -, p, l, hl⟩ := h.holds.when.fair_prio hb
    exact (h.popHead hprio hl).2.2

theorem RqState.TidyAs.stealPop (h : s.TidyAs ls) : Takes (fun _ => False) s (stealPop s).1 (stealPop s).2 := by
  have hhead : ∀ i < schedPrioLevels, (s.rq.queues i).count ≠ 0 →
      Takes (fun _ => False) s (Scheduler.popHead s i).1 (Scheduler.popHead s i).2 := by
    intro i hi hne
    obtain ⟨p, l, hl⟩ : ∃ p l, ls i = p :: l := by
      refine exists_cons_of_ne_nil fun hnil => hne ?_
      rw [(h.holds.queues i hi).count, hnil, length_nil]
    exact (h.popHead hi hl).2.2
  unfold Scheduler.stealPop
  split
  · exact .refl ⟨ls, h⟩ _
  split
  · exact hhead _ (by decide) ‹_›
  · split
    · exact hhead _ (by decide) ‹_›
    · exact .refl ⟨ls, h⟩ _

/-- `runqueue_remove` empties the slot, or moves the last process there. -/
theorem removeSlot_slots {i idx : Nat} {z : P} (hprocs : (s.rq.queues i).procs = some (s.rq.queues i).slots)
    (hz : (s.rq.queues i).slots (s.rq.queues i).lastSlot = some z) : ∃ q' b t proc',
    removeSlot s p i idx = ⟨⟨update s.rq.queues i q', b, t⟩, proc'⟩ ∧ q'.capacity = (s.rq.queues i).capacity ∧
    (q'.slots = update (s.rq.queues i).slots idx none ∧ proc' = update s.proc p {} ∨ idx ≠ (s.rq.queues i).lastSlot ∧
    q'.slots = update (update (s.rq.queues i).slots idx (some z)) (s.rq.queues i).lastSlot none ∧
    proc' = update (update s.proc z { s.proc z with index := castSigned 16 idx }) p {}) := by
  have hz' : ((s.rq.queues i).procs.bind fun a => a (s.rq.queues i).lastSlot) = some z := by
    rw [hprocs, bind_some, hz]
  have hclear := (s.rq.queues i).slots_map hprocs fun a => update a idx none
  unfold removeSlot
  simp only
  split
  · exact ⟨_, _, _, _, rfl, rfl, .inl ⟨hclear _ rfl, rfl⟩⟩
  split
  · exact ⟨_, _, _, _, rfl, rfl, .inl ⟨hclear _ rfl, rfl⟩⟩
  split
  · exact ⟨_, _, _, _, rfl, rfl, .inl ⟨hclear _ rfl, rfl⟩⟩
  rename_i hlast
  have hsame : SchedQueue.lastSlot { s.rq.queues i with count := dec32 (s.rq.queues i).count } =
      (s.rq.queues i).lastSlot := rfl
  rw [hsame] at hlast ⊢
  rw [hz']
  have hmove := (s.rq.queues i).slots_map hprocs fun a =>
    update (update a idx (some z)) (s.rq.queues i).lastSlot none
  exact ⟨_, _, _, _, rfl, rfl, .inr ⟨hlast, hmove _ rfl, rfl⟩⟩

theorem RqState.TidyAs.remove (h : s.TidyAs ls) (hp : s.Queued p) : Takes (· = p) s (runqueueRemove s p) none := by
  obtain ⟨i, hi, hmem⟩ := h.holds.queued.mp hp
  obtain ⟨k, hk, hslot, hfields⟩ := h.holds.fields hi hmem
  obtain ⟨l, hperm, hholds, hself, hframe⟩ := h.holds.remove hi hmem
  refine h.takes hi hperm ?_ hframe hself (fun x hx => (nomatch hx)) (.inl rfl)
  have hq := h.holds.queues i hi
  have hcap := h.small i hi
  have hpos : 0 < (s.rq.queues i).capacity := (hq.pos (ne_nil_of_mem hmem)).2
  have hlt := Nat.mod_lt ((s.rq.queues i).head + k) hpos
  obtain ⟨l₀, z, hz⟩ := eq_nil_or_concat' (ls i) |>.resolve_left (ne_nil_of_mem hmem)
  have hlast : (s.rq.queues i).slots (s.rq.queues i).lastSlot = some z := (hz ▸ hq).slots_lastSlot
  rw [h.holds.remove_eq hi hmem hfields] at hholds hself hframe ⊢
  generalize ((s.rq.queues i).head + k) % (s.rq.queues i).capacity = idx at *
  have hpne : ∀ j x, (s.rq.queues i).slots j = some x → j ≠ idx → x ≠ p ∧ x ∈ l := by
    intro j x hx hj
    have hxp : x ≠ p := h.ne_of_slot hi hi hx hslot (.inr hj)
    exact ⟨hxp, mem_of_ne_of_mem hxp (hperm.symm.subset (h.clean i hi j x hx).1)⟩
  obtain ⟨q', b, t, proc', hres, hcap', hslots⟩ := @removeSlot_slots P _ s p i idx z (hq.procs hpos) hlast
  rw [hres] at hholds hframe ⊢
  refine h.update hholds (hcap' ▸ hcap) (fun j x hx => ?_) fun i' hi' hne x hx => ?_
  · rcases hslots with ⟨hs, hproc⟩ | ⟨hidx, hs, hproc⟩
    · rw [hs] at hx
      by_cases hj : j = idx
      · rw [hj, update_self] at hx
        cases hx
      rw [update_of_ne hj] at hx
      obtain ⟨hxp, hxl⟩ := hpne j x hx hj
      rw [hproc, update_of_ne hxp]
      exact ⟨hxl, (h.clean i hi j x hx).2⟩
    · have hzne := hpne _ _ hlast hidx.symm
      rw [hs] at hx
      by_cases hjl : j = (s.rq.queues i).lastSlot
      · rw [hjl, update_self] at hx
        cases hx
      rw [update_of_ne hjl] at hx
      by_cases hj : j = idx
      · -- the last process, moved into the slot that fell free
        subst hj
        rw [update_self, some.injEq] at hx
        subst hx
        rw [hproc, update_of_ne hzne.1, update_self, (h.clean i hi _ z hlast).2]
        unfold runqueueInitialCap at hcap
        rw [castSigned_of_lt (by omega)]
        exact ⟨hzne.2, rfl⟩
      rw [update_of_ne hj] at hx
      obtain ⟨hxp, hxl⟩ := hpne j x hx hj
      have hxz : x ≠ z := h.ne_of_slot hi hi hx hlast (.inr hjl)
      rw [hproc, update_of_ne hxp, update_of_ne hxz]
      exact ⟨hxl, (h.clean i hi j x hx).2⟩
  · exact hframe x fun hxi => hne (h.holds.prio_unique hi' hi hx hxi)

end leaving

end one

end BoxOS.Scheduler
