import BoxOS.Baton.Queue

/-!
# Knocks

`KnockOn` passes the baton of a knock unless it is on its way already; `BatonPump` runs what `baton_pop` returns, and
the run function of a knock opens it first (`KnockOpen`). `knock n`: node `n` is the baton of a knock; other batons are
passed as they are.

`baton_queue_exact` is about every run of producers, one consumer and any knocks, after `BatonInit`.
-/

set_option linter.unusedSectionVars false

open Function (update update_apply update_of_ne update_self)

namespace BoxOS.Baton

open Lib List Option QueueState

structure KnockState (π ν : Type) where
  queue : QueueState π ν
  /-- `k->raised` -/
  raised : ν → Bool
  /-- `knock_claim` was won and `BatonPass` comes next -/
  passing : π → Option ν
  /-- what `BatonPump` got and has not run yet -/
  running : Option ν

inductive Event (π ν : Type) where
  | knockOn (p : π) (n : ν)
  | batonPass (p : π) (n : ν)
  | link (p : π)
  | beginPop
  | pop
  | run (n : ν)

section

variable {π ν : Type} [DecidableEq π] [DecidableEq ν]

def knockInit : KnockState π ν := ⟨batonInit, fun _ => false, fun _ => none, none⟩

/-- `KnockOn` up to its claim. -/
def KnockState.knockOn (s : KnockState π ν) (p : π) (n : ν) : KnockState π ν :=
  if s.raised n then s
  else { s with raised := update s.raised n true, passing := update s.passing p (some n) }

/-- What the pump runs next. -/
def Popped.toRun : Popped ν → Option ν
  | .got (.node n) => some n
  | _ => none

/-- The run function of a baton: that of a knock calls `KnockOpen` first. -/
def KnockState.run (knock : ν → Bool) (s : KnockState π ν) (n : ν) : KnockState π ν :=
  { s with running := none, raised := if knock n then update s.raised n false else s.raised }

/-- One access of a producer, of a knocker or of the pump. -/
inductive KnockStep (knock : ν → Bool) : KnockState π ν → Event π ν → KnockState π ν → Prop
  | knockOn {s : KnockState π ν} (p : π) (n : ν) : knock n = true → s.passing p = none → s.queue.link p = .idle →
      KnockStep knock s (.knockOn p n) (s.knockOn p n)
  | pass {s : KnockState π ν} (p : π) (n : ν) : s.passing p = some n →
      KnockStep knock s (.batonPass p n)
        { s with queue := s.queue.beginLink p n, passing := update s.passing p none }
  | batonPass {s : KnockState π ν} (p : π) (n : ν) : knock n = false → s.passing p = none → s.queue.link p = .idle →
      s.queue.busy n = false → KnockStep knock s (.batonPass p n) { s with queue := s.queue.beginLink p n }
  | link {s : KnockState π ν} (p : π) : KnockStep knock s (.link p) { s with queue := s.queue.linkStep p }
  | beginPop {s : KnockState π ν} : s.queue.pop = .idle → s.running = none →
      KnockStep knock s .beginPop { s with queue := { s.queue with pop := .start } }
  | pop {s : KnockState π ν} : s.running = none →
      KnockStep knock s .pop { s with queue := s.queue.popStep.1, running := s.queue.popStep.2.toRun }
  | run {s : KnockState π ν} (n : ν) : s.running = some n → KnockStep knock s (.run n) (s.run knock n)

/-- A run and its events. -/
inductive KnockRun (knock : ν → Bool) : KnockState π ν → List (Event π ν) → KnockState π ν → Prop
  | nil (s : KnockState π ν) : KnockRun knock s [] s
  | cons {s t u : KnockState π ν} {es : List (Event π ν)} {e : Event π ν} :
      KnockStep knock s e t → KnockRun knock t es u → KnockRun knock s (e :: es) u

/-! ## Where a knock is -/

/-- A knock that is raised has one baton on its way, and one that is not has none. -/
structure KnockInv (knock : ν → Bool) (s : KnockState π ν) : Prop where
  queue : ∃ chain, QueueInv s.queue chain
  idle : ∀ p n, s.passing p = some n → s.queue.link p = .idle ∧ s.queue.busy n = false ∧ s.running ≠ some n ∧
    knock n = true ∧ ∀ q, s.passing q = some n → q = p
  stopped : ∀ n, s.running = some n → s.queue.pop = .idle ∧ (knock n = true → s.queue.busy n = false)
  away : ∀ n, knock n = true → s.raised n = false →
    (∀ p, s.passing p ≠ some n) ∧ s.queue.busy n = false ∧ s.running ≠ some n
  onWay : ∀ n, knock n = true → s.raised n = true →
    (∃ p, s.passing p = some n) ∨ s.queue.busy n = true ∨ s.running = some n

variable {knock : ν → Bool} {s t : KnockState π ν} {n : ν}

theorem knockInit_inv : KnockInv knock (knockInit : KnockState π ν) where
  queue := ⟨_, batonInit_inv⟩
  idle _ _ h := nomatch h
  stopped _ h := nomatch h
  away _ _ _ := ⟨nofun, rfl, nofun⟩
  onWay _ _ h := nomatch h

theorem KnockInv.knockOn (h : KnockInv knock s) (p : π) (hn : knock n = true) (hp : s.passing p = none)
    (hl : s.queue.link p = .idle) : KnockInv knock (s.knockOn p n) := by
  unfold KnockState.knockOn
  split
  · exact h
  rename_i hr
  obtain ⟨hnone, hbusy, hrun⟩ := h.away n hn (by simpa using hr)
  refine ⟨h.queue, fun q m hq => ?_, h.stopped, fun m hm hr' => ?_, fun m hm hr' => ?_⟩
  · simp only [update_apply] at hq ⊢
    split at hq
    · rename_i hqp
      subst hqp
      obtain rfl := some.inj hq
      refine ⟨hl, hbusy, hrun, hn, fun r hr' => ?_⟩
      split at hr'
      · assumption
      · exact absurd hr' (hnone r)
    obtain ⟨h₁, h₂, h₃, h₄, h₅⟩ := h.idle q m hq
    refine ⟨h₁, h₂, h₃, h₄, fun r hr' => ?_⟩
    split at hr'
    · obtain rfl := some.inj hr'
      exact absurd hq (hnone q)
    · exact h₅ r hr'
  · simp only [update_apply] at hr' ⊢
    split at hr'
    · cases hr'
    rename_i hmn
    obtain ⟨h₁, h₂, h₃⟩ := h.away m hm hr'
    refine ⟨fun q hq => ?_, h₂, h₃⟩
    split at hq
    · exact hmn (some.inj hq).symm
    · exact h₁ q hq
  · simp only [update_apply] at hr' ⊢
    split at hr'
    · rename_i hmn
      exact .inl ⟨p, by rw [if_pos rfl, hmn]⟩
    rcases h.onWay m hm hr' with ⟨q, hq⟩ | hrest
    · refine .inl ⟨q, ?_⟩
      have hqp : q ≠ p := by
        rintro rfl
        cases hp.symm.trans hq
      rw [if_neg hqp, hq]
    · exact .inr hrest

/-- A baton is passed: the node was not the queue's. -/
theorem KnockInv.beginLink (h : KnockInv knock s) {p : π} (hl : s.queue.link p = .idle) (hb : s.queue.busy n = false)
    (hr : knock n = true → s.running ≠ some n) {passing : π → Option ν}
    (hsub : ∀ q m, passing q = some m → s.passing q = some m ∧ m ≠ n ∧ q ≠ p)
    (haway : knock n = true → s.raised n = true) (hsame : ∀ q m, m ≠ n → s.passing q = some m → passing q = some m) :
    KnockInv knock { s with queue := s.queue.beginLink p n, passing := passing } := by
  obtain ⟨chain, hq⟩ := h.queue
  refine ⟨⟨chain, hq.beginLink hl hb⟩, fun q m hm => ?_, fun m hm => ?_, fun m hm hr' => ?_, fun m hm hr' => ?_⟩
  · obtain ⟨hold, hmn, hqp⟩ := hsub q m hm
    obtain ⟨h₁, h₂, h₃, h₄, h₅⟩ := h.idle q m hold
    refine ⟨?_, ?_, h₃, h₄, fun r hr' => h₅ r (hsub r m hr').1⟩
    · exact (update_of_ne hqp _ _).trans h₁
    · exact (update_of_ne hmn _ _).trans h₂
  · obtain ⟨h₁, h₂⟩ := h.stopped m hm
    refine ⟨h₁, fun hk => ?_⟩
    have hmn : m ≠ n := by
      rintro rfl
      exact hr hk hm
    exact (update_of_ne hmn _ _).trans (h₂ hk)
  · have hmn : m ≠ n := fun heq => by
      subst heq
      cases (haway hm).symm.trans hr'
    obtain ⟨h₁, h₂, h₃⟩ := h.away m hm hr'
    exact ⟨fun q hq => h₁ q (hsub q m hq).1, (update_of_ne hmn _ _).trans h₂, h₃⟩
  · by_cases hmn : m = n
    · subst hmn
      exact .inr (.inl (update_self ..))
    · rcases h.onWay m hm hr' with ⟨q, hq⟩ | hbusy | hrun
      · exact .inl ⟨q, hsame q m hmn hq⟩
      · exact .inr (.inl ((update_of_ne hmn _ _).trans hbusy))
      · exact .inr (.inr hrun)

theorem linkStep_frame (q : QueueState π ν) (p : π) : (q.linkStep p).busy = q.busy ∧ (q.linkStep p).pop = q.pop ∧
    ∀ r, q.link r = .idle → (q.linkStep p).link r = .idle := by
  unfold linkStep
  have hother : ∀ pc, q.link p ≠ .idle → ∀ r, q.link r = .idle → update q.link p pc r = .idle := by
    intro pc hp r hr
    have hrp : r ≠ p := by
      rintro rfl
      exact hp hr
    rw [update_of_ne hrp, hr]
  cases hp : q.link p with
  | idle => exact ⟨rfl, rfl, fun _ hr => hr⟩
  | clear n => exact ⟨rfl, rfl, hother _ (by rw [hp]; exact nofun)⟩
  | swap n => exact ⟨rfl, rfl, hother _ (by rw [hp]; exact nofun)⟩
  | join n prev => exact ⟨rfl, rfl, hother _ (by rw [hp]; exact nofun)⟩

variable {q : QueueState π ν}

variable {chain : List (Ref ν)} {e : Event π ν} {l : List (KnockState π ν)}

/-- What a step of `baton_pop` does to the nodes that are busy. -/
theorem popStep_frame (h : QueueInv q chain) :
    q.popStep.1.link = q.link ∧
    ((∃ n, q.popStep.2 = .got (.node n) ∧ q.busy n = true ∧ q.popStep.1.busy = update q.busy n false ∧
        q.popStep.1.pop = .idle) ∨
      q.popStep.2.toRun = none ∧ q.popStep.1.busy = q.busy) := by
  have htake : ∀ x, q.head ≠ .stub → ∃ n, (q.take x).2 = .got (.node n) ∧ q.busy n = true ∧
      (q.take x).1.busy = update q.busy n false ∧ (q.take x).1.pop = .idle := by
    intro x hne
    have hmem : q.head ∈ chain := mem_of_mem_head? h.head
    unfold QueueState.take
    generalize q.head = r at hne hmem
    cases r with
    | stub => exact absurd rfl hne
    | node n => exact ⟨n, rfl, h.busy n hmem, rfl, rfl⟩
  have hok := h.pop
  unfold popStep
  cases hpc : q.pop with
  | start =>
    cases hx : q.next q.head with
    | none =>
      simp only []
      split <;> exact ⟨rfl, .inr ⟨rfl, rfl⟩⟩
    | some x =>
      simp only []
      split
      · exact ⟨rfl, .inr ⟨rfl, rfl⟩⟩
      · rename_i hne
        exact ⟨rfl, .inl (htake x hne)⟩
  | skipped =>
    rw [hpc] at hok
    cases hx : q.next q.head with
    | none => exact ⟨rfl, .inr ⟨rfl, rfl⟩⟩
    | some x => exact ⟨rfl, .inl (htake x hok)⟩
  | checkTail =>
    simp only []
    split <;> exact ⟨rfl, .inr ⟨rfl, rfl⟩⟩
  | recheck =>
    rw [hpc] at hok
    cases hx : q.next q.head with
    | none => exact ⟨rfl, .inr ⟨rfl, rfl⟩⟩
    | some x => exact ⟨rfl, .inl (htake x hok.1)⟩
  | _ => exact ⟨rfl, .inr ⟨rfl, rfl⟩⟩

theorem KnockInv.pop (h : KnockInv knock s) (hr : s.running = none) :
    KnockInv knock { s with queue := s.queue.popStep.1, running := s.queue.popStep.2.toRun } := by
  obtain ⟨chain, hq⟩ := h.queue
  obtain ⟨hlink, ⟨n, hgot, hb, hbusy, hpop⟩ | ⟨hnot, hbusy⟩⟩ := popStep_frame hq
  · -- the node that was busy is to be run now
    refine ⟨hq.popStep, fun p m hm => ?_, fun m hm => ?_, fun m hm hr' => ?_, fun m hm hr' => ?_⟩
    · obtain ⟨h₁, h₂, h₃, h₄, h₅⟩ := h.idle p m hm
      have hmn : m ≠ n := by
        rintro rfl
        cases h₂.symm.trans hb
      refine ⟨by rw [hlink]; exact h₁, ?_, ?_, h₄, h₅⟩
      · rw [hbusy, update_of_ne hmn, h₂]
      · rw [hgot]
        exact fun heq => hmn (some.inj heq).symm
    · rw [hgot] at hm
      obtain rfl : n = m := some.inj hm
      exact ⟨hpop, fun _ => by rw [hbusy, update_self]⟩
    · obtain ⟨h₁, h₂, h₃⟩ := h.away m hm hr'
      have hmn : m ≠ n := by
        rintro rfl
        cases h₂.symm.trans hb
      refine ⟨h₁, by rw [hbusy, update_of_ne hmn, h₂], ?_⟩
      rw [hgot]
      exact fun heq => hmn (some.inj heq).symm
    · by_cases hmn : m = n
      · exact .inr (.inr (by rw [hgot, hmn]; rfl))
      · rcases h.onWay m hm hr' with hp | hb' | hrun
        · exact .inl hp
        · exact .inr (.inl (by rw [hbusy, update_of_ne hmn, hb']))
        · cases hr.symm.trans hrun
  · have hrun : s.queue.popStep.2.toRun = s.running := hnot.trans hr.symm
    refine ⟨hq.popStep, fun p m hm => ?_, fun m hm => ?_, fun m hm hr' => ?_, fun m hm hr' => ?_⟩
    · obtain ⟨h₁, h₂, h₃, h₄, h₅⟩ := h.idle p m hm
      exact ⟨by rw [hlink]; exact h₁, by rw [hbusy]; exact h₂, by rw [hrun]; exact h₃, h₄, h₅⟩
    · cases hnot.symm.trans hm
    · obtain ⟨h₁, h₂, h₃⟩ := h.away m hm hr'
      exact ⟨h₁, by rw [hbusy]; exact h₂, by rw [hrun]; exact h₃⟩
    · rw [hbusy, hrun]
      exact h.onWay m hm hr'

theorem raised_run (s : KnockState π ν) (n m : ν) :
    (s.run knock n).raised m = if m = n ∧ knock n = true then false else s.raised m := by
  unfold KnockState.run
  by_cases hn : knock n = true
  · simp only [hn, if_true, and_true, update_apply]
  · have hno : ¬ (m = n ∧ knock n = true) := fun h => hn h.2
    rw [if_neg hn, if_neg hno]

theorem KnockInv.run (h : KnockInv knock s) (hr : s.running = some n) : KnockInv knock (s.run knock n) := by
  obtain ⟨hpop, hb⟩ := h.stopped n hr
  refine ⟨h.queue, fun p m hm => ?_, nofun, fun m hm hr' => ?_, fun m hm hr' => ?_⟩
  · obtain ⟨h₁, h₂, h₃, h₄, h₅⟩ := h.idle p m hm
    exact ⟨h₁, h₂, nofun, h₄, h₅⟩
  · by_cases hmn : m = n
    · subst hmn
      exact ⟨fun p hp => (h.idle p m hp).2.2.1 hr, hb hm, nofun⟩
    · have hold : s.raised m = false := by rwa [raised_run, if_neg fun hno => hmn hno.1] at hr'
      obtain ⟨h₁, h₂, -⟩ := h.away m hm hold
      exact ⟨h₁, h₂, nofun⟩
  · have hmn : m ≠ n := by
      rintro rfl
      rw [raised_run, if_pos ⟨rfl, hm⟩] at hr'
      cases hr'
    have hold : s.raised m = true := by rwa [raised_run, if_neg fun hno => hmn hno.1] at hr'
    rcases h.onWay m hm hold with hp | hb' | hrun
    · exact .inl hp
    · exact .inr (.inl hb')
    · exact absurd (some.inj (hrun.symm.trans hr)) hmn

theorem KnockStep.inv (hstep : KnockStep knock s e t) (h : KnockInv knock s) : KnockInv knock t := by
  obtain ⟨chain, hq⟩ := h.queue
  cases hstep with
  | knockOn p n hn hp hl => exact h.knockOn p hn hp hl
  | pass p n hp =>
    obtain ⟨hl, hb, hr, hn, honly⟩ := h.idle p n hp
    refine h.beginLink hl hb (fun _ => hr) (fun q m hm => ?_) (fun hk => ?_) fun q m hmn hm => ?_
    · simp only [update_apply] at hm
      split at hm
      · cases hm
      rename_i hqp
      refine ⟨hm, ?_, hqp⟩
      rintro rfl
      exact hqp (honly q hm)
    · by_contra hno
      exact (h.away n hk (by simpa using hno)).1 p hp
    · have hqp : q ≠ p := by
        rintro rfl
        exact hmn (some.inj (hm.symm.trans hp))
      rw [update_of_ne hqp, hm]
  | batonPass p n hn hp hl hb =>
    refine h.beginLink hl hb (fun hk => nomatch hn.symm.trans hk) (fun q m hm => ⟨hm, ?_, ?_⟩)
      (fun hk => nomatch hn.symm.trans hk) fun q m _ hm => hm
    · rintro rfl
      cases hn.symm.trans (h.idle q m hm).2.2.2.1
    · rintro rfl
      cases hp.symm.trans hm
  | link p =>
    obtain ⟨hbusy, hpop, hidle⟩ := linkStep_frame s.queue p
    refine ⟨hq.linkStep p, fun q m hm => ?_, fun m hm => ?_, fun m hm hr => ?_, fun m hm hr => ?_⟩
    · obtain ⟨h₁, h₂, h₃⟩ := h.idle q m hm
      exact ⟨hidle q h₁, by rw [hbusy]; exact h₂, h₃⟩
    · rw [hbusy, hpop]
      exact h.stopped m hm
    · rw [hbusy]
      exact h.away m hm hr
    · rw [hbusy]
      exact h.onWay m hm hr
  | beginPop hpop hr =>
    refine ⟨⟨chain, hq.setPop (fun prev heq => nomatch hpop.symm.trans heq) trivial⟩, h.idle, fun m hm => ?_,
      h.away, h.onWay⟩
    cases hr.symm.trans hm
  | pop hr => exact h.pop hr
  | run n hr => exact h.run hr

theorem KnockRun.inv {es : List (Event π ν)} (hrun : KnockRun knock s es t) (h : KnockInv knock s) :
    KnockInv knock t := by
  induction hrun with
  | nil => exact h
  | cons hstep _ ih => exact ih (hstep.inv h)

/-! ## What a knock is followed by -/

theorem KnockStep.raised (hstep : KnockStep knock s e t) (hn : s.raised n = true) (he : e ≠ .run n) :
    t.raised n = true := by
  cases hstep with
  | knockOn p m hm hp hl =>
    unfold KnockState.knockOn
    split
    · exact hn
    · simp only [update_apply, hn, ite_self]
  | pass | batonPass | link | beginPop | pop => exact hn
  | run m hr =>
    have hmn : n ≠ m := by
      rintro rfl
      exact he rfl
    rw [raised_run, if_neg fun hno => hmn hno.1, hn]

theorem KnockRun.raised {es : List (Event π ν)} (hrun : KnockRun knock s es t) (hn : s.raised n = true)
    (he : Event.run n ∉ es) : t.raised n = true := by
  induction hrun with
  | nil => exact hn
  | cons hstep _ ih =>
    rw [mem_cons, not_or] at he
    exact ih (hstep.raised hn fun heq => he.1 heq.symm) he.2

theorem KnockRun.split {es₁ es₂ : List (Event π ν)} {u : KnockState π ν} (hrun : KnockRun knock s (es₁ ++ es₂) u) :
    ∃ t, KnockRun knock s es₁ t ∧ KnockRun knock t es₂ u := by
  induction es₁ generalizing s with
  | nil => exact ⟨s, .nil s, hrun⟩
  | cons e es ih =>
    cases hrun with
    | cons hstep hrest =>
      obtain ⟨t, h₁, h₂⟩ := ih hrest
      exact ⟨t, .cons hstep h₁, h₂⟩

theorem raised_knockOn (s : KnockState π ν) (p : π) (n : ν) : (s.knockOn p n).raised n = true := by
  unfold KnockState.knockOn
  split
  · assumption
  · exact update_self n true s.raised

/-- Nobody is in the middle of anything, and every node has been returned and run. -/
structure KnockState.Quiet (s : KnockState π ν) : Prop where
  passing : ∀ p, s.passing p = none
  link : ∀ p, s.queue.link p = .idle
  running : s.running = none
  returned : s.queue.returned.length = s.queue.linked.length

/-- The baton of a knock is with the knocker, linked or being linked, or about to be run. -/
def KnockState.OnWay (s : KnockState π ν) (n : ν) : Prop :=
  (∃ p, s.passing p = some n) ∨ (∃ p, (s.queue.link p).links = some n) ∨
    n ∈ s.queue.linked.drop s.queue.returned.length ∨ s.running = some n

theorem KnockInv.on_way (h : KnockInv knock s) (hn : knock n = true) (hr : s.raised n = true) : s.OnWay n := by
  obtain ⟨chain, hq⟩ := h.queue
  rcases h.onWay n hn hr with hp | hb | hrun
  · exact .inl hp
  · rcases hq.used n hb with hl | hmem
    · exact .inr (.inl hl)
    · have hin : Ref.node n ∈ nodesOf chain := mem_filter.mpr ⟨hmem, by simp⟩
      have hdrop : (s.queue.linked.drop s.queue.returned.length).map Ref.node = nodesOf chain := by
        rw [map_drop, hq.order, drop_left]
      rw [← hdrop] at hin
      obtain ⟨m, hm, heq⟩ := List.mem_map.mp hin
      exact .inr (.inr (.inl (Ref.node.inj heq ▸ hm)))
  · exact .inr (.inr (.inr hrun))

theorem KnockState.Quiet.off_way (hq : s.Quiet) (n : ν) : ¬ s.OnWay n := by
  rintro (⟨p, hp⟩ | ⟨p, hp⟩ | hmem | hrun)
  · cases (hq.passing p).symm.trans hp
  · rw [hq.link p] at hp
    cases hp
  · rw [hq.returned, drop_length] at hmem
    cases hmem
  · cases hq.running.symm.trans hrun

/-! ## When `baton_pop` finds nothing -/

/-- A producer is between its exchange and its store. -/
def QueueState.Linking (q : QueueState π ν) : Prop := ∃ p n prev, q.link p = .join n prev

/-- The states of a call of `baton_pop` that began in `s`; it has not returned in the last one. -/
inductive PopCall (knock : ν → Bool) (s : KnockState π ν) : List (KnockState π ν) → KnockState π ν → Prop
  | start : s.queue.pop = .start → PopCall knock s [s] s
  | step {l : List (KnockState π ν)} {t u : KnockState π ν} {e : Event π ν} :
      PopCall knock s l t → KnockStep knock t e u → u.queue.pop ≠ .idle → PopCall knock s (l ++ [u]) u

theorem QueueInv.broken (h : QueueInv q chain) (hnext : q.next q.head = none)
    (hne : q.head ≠ q.tail) (hpop : ∀ prev, q.pop ≠ .joinStub prev) : q.Linking := by
  obtain ⟨b, hb⟩ := exists_adj_head h.head h.tail hne
  rcases h.joined _ _ hb with hj | ⟨-, ⟨p, n, hp, -⟩ | ⟨hj, -⟩⟩
  · cases hnext.symm.trans hj
  · exact ⟨p, n, _, hp⟩
  · exact absurd hj (hpop _)

theorem QueueInv.stub_open (h : QueueInv q chain) (hnext : q.next q.head = none) (hhead : q.head = .stub)
    (hpop : ∀ prev, q.pop ≠ .joinStub prev) : q.returned.length = q.linked.length ∨ q.Linking := by
  by_cases hne : q.head = q.tail
  · left
    have hlen := congrArg List.length h.order
    rw [h.single hne, hhead, length_map, length_append] at hlen
    exact (hlen.trans (Nat.add_zero _)).symm
  · exact .inr (h.broken hnext hne hpop)

theorem linkStep_tail (q : QueueState π ν) (p : π) :
    (q.linkStep p).Linking ∨ ((q.linkStep p).tail = q.tail ∧ (q.linkStep p).head = q.head) := by
  unfold linkStep
  cases q.link p with
  | idle | clear | join => exact .inr ⟨rfl, rfl⟩
  | swap n => exact .inl ⟨p, n, q.tail, update_self ..⟩

theorem popStep_checkTail (h : q.popStep.1.pop = .checkTail) : q.next q.head = none ∧ (∀ prev, q.pop ≠ .joinStub prev) ∧
    q.popStep.1.head = q.head ∧ q.popStep.1.tail = q.tail := by
  unfold popStep at h ⊢
  cases hpc : q.pop with
  | idle =>
    rw [hpc] at h
    cases hpc.symm.trans h
  | start =>
    rw [hpc] at h
    cases hx : q.next q.head with
    | none =>
      simp only [hx] at h ⊢
      split <;> exact ⟨trivial, nofun, rfl, rfl⟩
    | some x =>
      simp only [hx] at h
      split at h <;> cases h
  | skipped =>
    rw [hpc] at h
    cases hx : q.next q.head with
    | none => exact ⟨rfl, nofun, rfl, rfl⟩
    | some x =>
      simp only [hx] at h
      cases h
  | checkTail =>
    rw [hpc] at h
    simp only [] at h
    split at h <;> cases h
  | recheck =>
    rw [hpc] at h
    simp only [] at h
    split at h <;> cases h
  | _ =>
    rw [hpc] at h
    cases h

/-- The consumer looks at the tail: so far nothing was behind the head, or a producer was caught between its exchange
and its store. -/
theorem KnockStep.checkTail (hstep : KnockStep knock s e t) (h : KnockInv knock s)
    (hs : s ∈ l) (ih : s.queue.pop = .checkTail → (∃ u ∈ l, u.queue.Linking) ∨ s.queue.head = s.queue.tail)
    (ht : t.queue.pop = .checkTail) : (∃ u ∈ l ++ [t], u.queue.Linking) ∨ t.queue.head = t.queue.tail := by
  have hgrow : (∃ u ∈ l, u.queue.Linking) → ∃ u ∈ l ++ [t], u.queue.Linking := fun ⟨u, hu, he⟩ =>
    ⟨u, mem_append_left _ hu, he⟩
  obtain ⟨chain, hq⟩ := h.queue
  cases hstep with
  | knockOn p m hm hp hl =>
    have hsame : (s.knockOn p m).queue = s.queue := by
      unfold KnockState.knockOn
      split <;> rfl
    rw [hsame] at ht ⊢
    exact (ih ht).imp_left hgrow
  | pass | batonPass | run => exact (ih ht).imp_left hgrow
  | link p =>
    have hpop : s.queue.pop = .checkTail := (linkStep_frame s.queue p).2.1.symm.trans ht
    rcases linkStep_tail s.queue p with he | ⟨htail, hhead⟩
    · exact .inl ⟨_, mem_append_right _ mem_cons_self, he⟩
    · rw [htail, hhead]
      exact (ih hpop).imp_left hgrow
  | beginPop hpop hr => cases ht
  | pop hr =>
    -- it is here because the head was not linked to anything
    obtain ⟨hnext, hpop, hhead, htail⟩ := popStep_checkTail ht
    simp only [hhead, htail]
    by_cases heq : s.queue.head = s.queue.tail
    · exact .inr heq
    · exact .inl ⟨s, mem_append_left _ hs, hq.broken hnext heq hpop⟩

theorem PopCall.checkTail (hcall : PopCall knock s l t) (h : KnockInv knock s) : t ∈ l ∧ KnockInv knock t ∧
    (t.queue.pop = .checkTail → (∃ u ∈ l, u.queue.Linking) ∨ t.queue.head = t.queue.tail) := by
  induction hcall with
  | start hs => exact ⟨mem_singleton_self s, h, fun hc => nomatch hs.symm.trans hc⟩
  | step hcall hstep hidle ih =>
    obtain ⟨hmem, hinv, htail⟩ := ih
    exact ⟨mem_append_right _ mem_cons_self, hstep.inv hinv, hstep.checkTail hinv hmem htail⟩

theorem popStep_nothing (h : q.popStep.2 = .nothing) : (q.pop = .start ∧ q.next q.head = none ∧ q.head = .stub) ∨
    (q.pop = .checkTail ∧ q.head ≠ q.tail) ∨ (q.pop = .recheck ∧ q.next q.head = none) := by
  unfold popStep at h
  cases hpc : q.pop with
  | start =>
    rw [hpc] at h
    cases hx : q.next q.head with
    | none =>
      by_cases hs : q.head = .stub
      · exact .inl ⟨rfl, rfl, hs⟩
      · simp only [hx, if_neg hs] at h
        cases h
    | some x =>
      simp only [hx] at h
      split at h <;> cases h
  | skipped =>
    rw [hpc] at h
    simp only [] at h
    split at h <;> cases h
  | checkTail =>
    rw [hpc] at h
    simp only [] at h
    split at h
    · rename_i hne
      exact .inr (.inl ⟨rfl, hne⟩)
    · cases h
  | recheck =>
    rw [hpc] at h
    cases hx : q.next q.head with
    | none => exact .inr (.inr ⟨rfl, rfl⟩)
    | some x =>
      simp only [hx] at h
      cases h
  | _ =>
    rw [hpc] at h
    cases h

theorem PopCall.nothing (hcall : PopCall knock s l t) (h : KnockInv knock s) (hnull : t.queue.popStep.2 = .nothing) :
    t.queue.returned.length = t.queue.linked.length ∨ ∃ u ∈ l, u.queue.Linking := by
  obtain ⟨hmem, hinv, htail⟩ := hcall.checkTail h
  obtain ⟨chain, hq⟩ := hinv.queue
  rcases popStep_nothing hnull with ⟨hpc, hnext, hstub⟩ | ⟨hpc, hne⟩ | ⟨hpc, hnext⟩
  · exact (hq.stub_open hnext hstub fun prev heq => nomatch hpc.symm.trans heq).imp_right fun hl => ⟨t, hmem, hl⟩
  · exact .inr ((htail hpc).elim id fun heq => absurd heq hne)
  · -- the stub is behind the head by now, so the head is not the last
    have hok := hq.pop
    rw [hpc] at hok
    refine .inr ⟨t, hmem, hq.broken hnext (fun heq => ?_) fun prev heq => nomatch hpc.symm.trans heq⟩
    rw [hq.single heq] at hok
    exact hok.1 (mem_singleton.mp hok.2).symm

/-- The accesses `baton_pop` has left at most. -/
def PopPc.togo : PopPc ν → Nat
  | .idle => 0
  | .recheck => 1
  | .joinStub _ => 2
  | .swapStub => 3
  | .clearStub => 4
  | .checkTail => 5
  | .skipped => 6
  | .start => 7

theorem popStep_togo (q : QueueState π ν) (h : q.pop ≠ .idle) : q.popStep.1.pop.togo < q.pop.togo := by
  unfold popStep
  cases hpc : q.pop with
  | idle => exact absurd hpc h
  | start =>
    simp only []
    split <;> split <;> simp [PopPc.togo, QueueState.take]
  | skipped =>
    simp only []
    split <;> simp [PopPc.togo, QueueState.take]
  | checkTail =>
    simp only []
    split <;> simp [PopPc.togo]
  | recheck =>
    simp only []
    split <;> simp [PopPc.togo, QueueState.take]
  | clearStub => simp [PopPc.togo]
  | swapStub => simp [PopPc.togo]
  | joinStub prev => simp [PopPc.togo]

/-- The queue returns the nodes in the order of the exchanges, each once for each link; a call of `baton_pop` ends, and
in `NULL` before everything has been returned only if a producer was between its exchange and its store during the call;
and the baton of a knock is on its way until it is run after the knock. -/
theorem baton_queue_exact (knock : ν → Bool) {s : KnockState π ν} {es : List (Event π ν)}
    (hrun : KnockRun knock knockInit es s) :
    s.queue.returned <+: s.queue.linked.map Ref.node ∧
    (∀ l t, PopCall knock s l t → t.queue.popStep.2 = .nothing →
      t.queue.returned.length = t.queue.linked.length ∨ ∃ u ∈ l, u.queue.Linking) ∧
    (s.queue.pop ≠ .idle → s.queue.popStep.1.pop.togo < s.queue.pop.togo) ∧
    ∀ p n es₁ es₂, es = es₁ ++ .knockOn p n :: es₂ →
      (Event.run n ∉ es₂ → s.OnWay n) ∧ (s.Quiet → Event.run n ∈ es₂) := by
  have hinv := hrun.inv knockInit_inv
  obtain ⟨chain, hq⟩ := hinv.queue
  refine ⟨?_, fun l t hcall hnull => hcall.nothing hinv hnull, popStep_togo s.queue, fun p n es₁ es₂ hes => ?_⟩
  · rw [hq.order]
    exact prefix_append ..
  · subst hes
    obtain ⟨t, -, hrest⟩ := hrun.split
    have hway : Event.run n ∉ es₂ → s.OnWay n := fun hno => by
      cases hrest with
      | cons hstep hrest =>
        cases hstep with
        | knockOn _ _ hn hp hl => exact hinv.on_way hn (hrest.raised (raised_knockOn t p n) hno)
    refine ⟨hway, fun hquiet => ?_⟩
    by_contra hno
    exact hquiet.off_way n (hway hno)

end

/-- Two producers link a node each, one between the exchange and the store of the other; the first node is run. -/
def firstRound : List (Event Bool Bool) :=
  [.knockOn false false, .batonPass false false, .knockOn true true, .batonPass true true, .link false, .link false,
    .link true, .link true, .link true, .link false, .beginPop, .pop, .pop, .run false]

/-- The first node is linked again; both nodes are run. -/
def secondRound : List (Event Bool Bool) :=
  [.batonPass false false, .link false, .link false, .link false, .beginPop, .pop, .run true, .beginPop] ++
    replicate 6 .pop ++ [.run false]

theorem baton_queue_exact_again :
    ∃ s : KnockState Bool Bool, s.queue.returned = [.node false, .node true, .node false] ∧
    s.queue.returned <+: s.queue.linked.map Ref.node ∧ Event.run false ∈ secondRound := by
  obtain ⟨s, hrun, hquiet, hret⟩ : ∃ s, KnockRun (fun _ => true) (knockInit : KnockState Bool Bool)
      (firstRound ++ .knockOn false false :: secondRound) s ∧ s.Quiet ∧
      s.queue.returned = [.node false, .node true, .node false] := by
    refine ⟨_, .cons (.knockOn false false rfl rfl rfl) <| .cons (.pass false false rfl) <|
      .cons (.knockOn true true rfl rfl rfl) <| .cons (.pass true true rfl) <| .cons (.link false) <|
      .cons (.link false) <| .cons (.link true) <| .cons (.link true) <| .cons (.link true) <|
      .cons (.link false) <| .cons (.beginPop rfl rfl) <|
      .cons (.pop rfl) <| .cons (.pop rfl) <| .cons (.run false rfl) <| .cons (.knockOn false false rfl rfl rfl) <|
      .cons (.pass false false rfl) <| .cons (.link false) <| .cons (.link false) <| .cons (.link false) <|
      .cons (.beginPop rfl rfl) <| .cons (.pop rfl) <| .cons (.run true rfl) <| .cons (.beginPop rfl rfl) <|
      .cons (.pop rfl) <| .cons (.pop rfl) <| .cons (.pop rfl) <| .cons (.pop rfl) <| .cons (.pop rfl) <|
      .cons (.pop rfl) <| .cons (.run false rfl) <| .nil _, ⟨?_, ?_, rfl, rfl⟩, rfl⟩
    · exact fun p => by cases p <;> rfl
    · exact fun p => by cases p <;> rfl
  obtain ⟨hpre, -, -, hknock⟩ := baton_queue_exact (fun _ => true) hrun
  exact ⟨s, hret, hpre, (hknock false false firstRound secondRound rfl).2 hquiet⟩

/-- A producer links a whole node while the consumer is about to look at the tail: `NULL` with two nodes in the queue,
and nobody is linking any more. -/
theorem null_with_all_linked : ∃ (s : KnockState Unit Bool) (es : List (Event Unit Bool)),
    KnockRun (fun _ => false) knockInit es s ∧ s.queue.popStep.2 = .nothing ∧
      s.queue.returned = [] ∧ s.queue.linked = [false, true] ∧ ∀ p, s.queue.link p = .idle := by
  refine ⟨_, _,
    .cons (.batonPass () false rfl rfl rfl rfl) <| .cons (.link ()) <| .cons (.link ()) <| .cons (.link ()) <|
    .cons (.beginPop rfl rfl) <| .cons (.pop rfl) <| .cons (.pop rfl) <| .cons (.batonPass () true rfl rfl rfl rfl) <|
    .cons (.link ()) <| .cons (.link ()) <| .cons (.link ()) <| .nil _, ?_, ?_, ?_, ?_⟩
  · rfl
  · rfl
  · rfl
  · exact fun _ => rfl

end BoxOS.Baton
