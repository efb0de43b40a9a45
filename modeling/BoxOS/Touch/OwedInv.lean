import BoxOS.Touch.Owed

/-!
# Where every publish is

Each publish of a thread is in one place: in the hands of its publisher, in the hands of the draining thread, in the
ring, on the owed list, thrown away by the cleanup, or reported dropped. Seen from one publisher, what is in the ring,
what the draining thread holds, what the list holds and what the publisher itself holds are in the order of their
publication.
-/

set_option linter.unusedSectionVars false

open Function (update update_of_ne update_self)

namespace BoxOS.Touch

open Ipc List OwedState
open scoped List

section

variable {τ ε ρ : Type} [DecidableEq τ]

/-- The push has its position. -/
def hasPosition : PushPc ρ → Bool
  | .checkSeq _ _ => true
  | .copy _ _ _ => true
  | .returned ok => ok
  | _ => false

/-- The push is one of `r`, or over. -/
def PushOf (r : ρ) : PushPc ρ → Prop
  | .returned _ => True
  | .loadHead r' => r' = r
  | .loadTail r' _ => r' = r
  | .claim r' _ => r' = r
  | .checkSeq r' _ => r' = r
  | .copy r' _ _ => r' = r

namespace OwedPc

/-- The publish the thread works on, while it is in no other place. -/
def own (push : PushPc (Fin 1 → Publish τ ε)) : OwedPc τ ε → List (Publish τ ε)
  | .idle => []
  | .deliver e => [e]
  | .firstCount e => [e]
  | .secondCount e => [e]
  | .direct e => if hasPosition push then [] else [e]
  | .append e => [e]
  | .appendLocked e => [e]
  | .handOver k => k.toList
  | .handFlag k => k.toList
  | .handTake k => k.toList
  | .handPush k _ => k.toList
  | .handBack k _ => k.toList
  | .handSub k => k.toList
  | .handLeave k => k.toList

/-- The node taken off the list, while it is in no other place. -/
def held (push : PushPc (Fin 1 → Publish τ ε)) : OwedPc τ ε → List (Publish τ ε)
  | .handPush _ n => if hasPosition push then [] else [n]
  | .handBack _ n => [n]
  | _ => []

/-- The thread holds a node that is still counted. -/
def holds : OwedPc τ ε → Nat
  | .handPush _ _ => 1
  | .handBack _ _ => 1
  | .handSub _ => 1
  | _ => 0

/-- The thread has set `owed_draining`. -/
def drains : OwedPc τ ε → Bool
  | .handTake _ => true
  | .handPush _ _ => true
  | .handBack _ _ => true
  | .handSub _ => true
  | .handLeave _ => true
  | _ => false

/-- The push of a thread is the one it is in. -/
def Carries (push : PushPc (Fin 1 → Publish τ ε)) : OwedPc τ ε → Prop
  | .direct e => PushOf (fun _ => e) push
  | .handPush _ n => PushOf (fun _ => n) push
  | _ => ∃ ok, push = .returned ok

/-- Why the thread does not find the ring free or the list empty: it is to blame on the ring or on another thread. -/
def Excused (push : PushPc (Fin 1 → Publish τ ε)) (blamed : Bool) (count : Nat) : OwedPc τ ε → Prop
  | .direct _ => push = .returned false → blamed = true
  | .handPush _ _ => push = .returned false → blamed = true
  | .handBack _ _ => blamed = true
  | .handLeave _ => blamed = true ∨ count = 0
  | .secondCount _ => blamed = true ∨ count = 0
  | .append _ => blamed = true
  | .appendLocked _ => blamed = true
  | _ => True

theorem carries_of_returned {push : PushPc (Fin 1 → Publish τ ε)} (h : ∃ ok, push = .returned ok) (pc : OwedPc τ ε) :
    pc.Carries push := by
  obtain ⟨ok, rfl⟩ := h
  cases pc with
  | direct | handPush => trivial
  | _ => exact ⟨ok, rfl⟩

theorem Excused.imp {push : PushPc (Fin 1 → Publish τ ε)} {b b' : Bool} {n n' : Nat} {pc : OwedPc τ ε}
    (h : pc.Excused push b n) (hb : b = true → b' = true)
    (hn : n = 0 → pc.lookedFor = true → b' = true ∨ n' = 0) : pc.Excused push b' n' := by
  cases pc with
  | direct | handPush => exact fun hr => hb (h hr)
  | handBack | append | appendLocked => exact hb h
  | handLeave | secondCount => exact h.elim (fun hb' => .inl (hb hb')) fun h0 => hn h0 rfl
  | _ => trivial

end OwedPc

namespace OwedState

/-- The publish thread `t` works on. -/
def own (s : OwedState τ ε) (t : τ) : List (Publish τ ε) := (s.pc t).own (s.ring.push t)

/-- The node the draining thread holds and has not put into the ring. -/
def held (s : OwedState τ ε) : List (Publish τ ε) :=
  match s.draining with
  | none => []
  | some d => (s.pc d).held (s.ring.push d)

/-- The node the draining thread holds and has not taken off the count. -/
def holds (s : OwedState τ ε) : Nat :=
  match s.draining with
  | none => 0
  | some d => (s.pc d).holds

/-- The ring was full for the present call of `t`, or `t` was hindered. -/
def blamed (s : OwedState τ ε) (t : τ) : Bool := s.wasFull t || s.hindered t

/-- What was put into the ring, in the order of the positions. -/
def delivered (s : OwedState τ ε) : List (Publish τ ε) := s.ring.claimed.map fun r => r 0

end OwedState

/-- The numbers of the publishes of `t`. -/
def nths (t : τ) (l : List (Publish τ ε)) : List Nat := (l.filter fun e => e.owner = t).map (·.nth)

theorem nths_append {t : τ} (l l' : List (Publish τ ε)) : nths t (l ++ l') = nths t l ++ nths t l' := by
  simp only [nths, filter_append, map_append]

theorem nths_eq_nil {t : τ} {l : List (Publish τ ε)} (h : ∀ e ∈ l, e.owner ≠ t) : nths t l = [] := by
  rw [nths, filter_eq_nil_iff.mpr, map_nil]
  intro e he
  simpa using h e he

theorem nths_singleton {t : τ} {e : Publish τ ε} (h : e.owner = t) : nths t [e] = [e.nth] := by
  simp [nths, h]

/-- What is on its way, seen from `t`. -/
def OwedState.line (s : OwedState τ ε) (t : τ) : List Nat :=
  nths t (s.delivered ++ (s.held ++ s.owed)) ++ nths t (s.own t)

/-- What is thrown away or dropped, of the publishes of `t`. -/
def OwedState.gone (s : OwedState τ ε) (t : τ) : List Nat := nths t (s.released ++ s.dropped.map (·.1))

structure OwedInv (cap : Nat) (s : OwedState τ ε) : Prop where
  ring : RingInv cap (fun _ => cap) s.ring
  fresh : ∀ t r head, s.ring.push t = .loadTail r head → head = s.ring.head ∨ s.blamed t = true
  carries : ∀ t, (s.pc t).Carries (s.ring.push t)
  drains : ∀ t, (s.pc t).drains = true ↔ s.draining = some t
  count : s.count = s.owed.length + s.holds
  bound : s.count ≤ cap
  slip : s.slip = s.count
  owns : ∀ t, ∀ e ∈ s.own t, e.owner = t
  /-- who goes to the ring itself has nothing on the list -/
  clear : ∀ t e, s.pc t = .direct e → hasPosition (s.ring.push t) = false → ∀ x ∈ s.held ++ s.owed, x.owner ≠ t
  order : ∀ t, (s.line t).Pairwise (· < ·)
  places : ∀ t, s.line t ++ s.gone t ~ List.range (s.sent t)
  excused : ∀ t, (s.pc t).Excused (s.ring.push t) (s.blamed t) s.count
  dropped : ∀ d ∈ s.dropped, d.2 = (true, true)

/-- The steps that make `TouchRestDeliver` and its hand-over deliver as they say: no node is held at a release, a
publish that meets a full list was not hindered, one that does not gets memory, and the target is not being destroyed.
-/
def OwedState.orderly (cap : Nat) (s : OwedState τ ε) (e : OwedEvent τ ε) : Bool :=
  decide (s.ring.tail + 1 < 2 ^ 64) &&
    match e with
    | .step t _ granted =>
      match s.pc t with
      | .deliver _ => !s.destroying
      | .append _ => if cap ≤ s.count then !s.hindered t else granted
      | .appendLocked _ => decide (s.count < cap) || !s.hindered t
      | _ => true
    | .release => s.holds == 0
    | _ => true

variable {cap : Nat} {s s' : OwedState τ ε} {t : τ} {e : Publish τ ε}

theorem owedInit_inv (data : Nat → Fin 1 → Publish τ ε) (out : Fin 1 → Publish τ ε) :
    OwedInv cap (owedInit data out) where
  ring := ringInit_inv data out
  fresh _ _ _ h := nomatch h
  carries _ := ⟨true, rfl⟩
  drains _ := ⟨nofun, nofun⟩
  count := rfl
  bound := Nat.zero_le _
  slip := rfl
  owns _ _ h := nomatch h
  clear _ _ h := nomatch h
  order _ := List.Pairwise.nil
  places _ := List.Perm.nil
  excused _ := trivial
  dropped _ h := nomatch h

/-! ## Steps of one thread -/

/-- A step of `t`: what is to be shown of the other threads is only what speaks of all. -/
structure Stepped (cap : Nat) (s s' : OwedState τ ε) (t : τ) : Prop where
  pc : ∀ q, q ≠ t → s'.pc q = s.pc q
  push : ∀ q, q ≠ t → s'.ring.push q = s.ring.push q
  ring : RingInv cap (fun _ => cap) s'.ring
  head : s'.ring.head = s.ring.head
  fresh : ∀ r head, s'.ring.push t = .loadTail r head → head = s.ring.head ∨ s'.blamed t = true
  carries : (s'.pc t).Carries (s'.ring.push t)
  drains : ∀ t, (s'.pc t).drains = true ↔ s'.draining = some t
  count : s'.count = s'.owed.length + s'.holds
  bound : s'.count ≤ cap
  slip : s'.slip = s'.count
  owns : ∀ e ∈ s'.own t, e.owner = t
  sub : ∀ x ∈ s'.held ++ s'.owed, x.owner ≠ t → x ∈ s.held ++ s.owed
  clear : ∀ e, s'.pc t = .direct e → hasPosition (s'.ring.push t) = false → ∀ x ∈ s'.held ++ s'.owed, x.owner ≠ t
  excused : (s'.pc t).Excused (s'.ring.push t) (s'.blamed t) s'.count
  was : ∀ q, q ≠ t → s.blamed q = true → s'.blamed q = true
  calm : ∀ q, q ≠ t → s.count = 0 → (s.pc q).lookedFor = true → s'.blamed q = true ∨ s'.count = 0

/-- No publish begins, is thrown away or is dropped. -/
structure SameBooks (s s' : OwedState τ ε) : Prop where
  sent : s'.sent = s.sent
  released : s'.released = s.released
  dropped : s'.dropped = s.dropped

theorem OwedInv.change (h : OwedInv cap s) (w : Stepped cap s s' t) (horder : ∀ q, (s'.line q).Pairwise (· < ·))
    (hplaces : ∀ q, s'.line q ++ s'.gone q ~ List.range (s'.sent q))
    (hdropped : ∀ d ∈ s'.dropped, d.2 = (true, true)) : OwedInv cap s' := by
  refine ⟨w.ring, fun q r head hq => ?_, fun q => ?_, w.drains, w.count, w.bound, w.slip, fun q => ?_,
    fun q e hq hpos => ?_, horder, hplaces, fun q => ?_, hdropped⟩
  · rw [w.head]
    by_cases hqt : q = t
    · rw [hqt] at hq ⊢
      exact w.fresh r head hq
    · rw [w.push q hqt] at hq
      exact (h.fresh q r head hq).imp_right (w.was q hqt)
  · by_cases hqt : q = t
    · rw [hqt]
      exact w.carries
    · rw [w.pc q hqt, w.push q hqt]
      exact h.carries q
  · by_cases hqt : q = t
    · rw [hqt]
      exact w.owns
    · rw [own, w.pc q hqt, w.push q hqt]
      exact h.owns q
  · by_cases hqt : q = t
    · rw [hqt] at hq hpos ⊢
      exact w.clear e hq hpos
    · rw [w.pc q hqt] at hq
      rw [w.push q hqt] at hpos
      intro x hx hxq
      exact h.clear q e hq hpos x (w.sub x hx (by rwa [hxq])) hxq
  · by_cases hqt : q = t
    · rw [hqt]
      exact w.excused
    · rw [w.pc q hqt, w.push q hqt]
      exact (h.excused q).imp (w.was q hqt) (w.calm q hqt)

theorem OwedInv.turn (h : OwedInv cap s) (w : Stepped cap s s' t) (hline : ∀ q, s'.line q = s.line q)
    (hbooks : SameBooks s s') : OwedInv cap s' := by
  refine h.change w (fun q => ?_) (fun q => ?_) ?_
  · rw [hline]
    exact h.order q
  · rw [hline, OwedState.gone, hbooks.released, hbooks.dropped, hbooks.sent]
    exact h.places q
  · rw [hbooks.dropped]
    exact h.dropped

theorem line_of_eq (hpc : ∀ q, q ≠ t → s'.pc q = s.pc q) (hpush : ∀ q, q ≠ t → s'.ring.push q = s.ring.push q)
    (hown : s'.own t = s.own t) (hline : s'.delivered ++ (s'.held ++ s'.owed) = s.delivered ++ (s.held ++ s.owed))
    (q : τ) : s'.line q = s.line q := by
  have hq : s'.own q = s.own q := by
    by_cases hqt : q = t
    · rw [hqt, hown]
    · rw [own, hpc q hqt, hpush q hqt]
      rfl
  rw [OwedState.line, hline, hq]
  rfl

/-! ### The draining thread -/

theorem held_of_draining (h : s.draining = some t) : s.held = (s.pc t).held (s.ring.push t) := by
  rw [held, h]

theorem holds_of_draining (h : s.draining = some t) : s.holds = (s.pc t).holds := by
  rw [holds, h]

theorem held_of_none (h : s.draining = none) : s.held = [] := by
  rw [held, h]

theorem holds_of_none (h : s.draining = none) : s.holds = 0 := by
  rw [holds, h]

theorem held_of_other (ht : s.draining ≠ some t) (hdraining : s'.draining = s.draining)
    (hpc : ∀ q, q ≠ t → s'.pc q = s.pc q) (hpush : ∀ q, q ≠ t → s'.ring.push q = s.ring.push q) :
    s'.held = s.held ∧ s'.holds = s.holds := by
  unfold held holds
  rw [hdraining]
  cases hd : s.draining with
  | none => exact ⟨rfl, rfl⟩
  | some d =>
    have hdt : d ≠ t := by
      rintro rfl
      exact ht hd
    dsimp only
    rw [hpc d hdt, hpush d hdt]
    exact ⟨rfl, rfl⟩

theorem OwedInv.drains_of_eq (h : OwedInv cap s) (t : τ) (hpc : ∀ q, q ≠ t → s'.pc q = s.pc q)
    (hdraining : s'.draining = s.draining) (ht : (s'.pc t).drains = (s.pc t).drains) (q : τ) : (s'.pc q).drains = true ↔
    s'.draining = some q := by
  rw [hdraining, ← h.drains q]
  by_cases hq : q = t
  · rw [hq, ht]
  · rw [hpc q hq]

theorem OwedInv.not_draining (h : OwedInv cap s) (ht : (s.pc t).drains = false) : s.draining ≠ some t := by
  intro hd
  have := (h.drains t).mpr hd
  cases this.symm.trans ht

/-- A step of `t` to `p` that leaves the ring alone. -/
structure OffRing (cap : Nat) (s s' : OwedState τ ε) (t : τ) (p : OwedPc τ ε) : Prop where
  pc : s'.pc = update s.pc t p
  ring : s'.ring = s.ring
  returned : ∃ ok, s.ring.push t = .returned ok
  excused : p.Excused (s.ring.push t) (s'.blamed t) s'.count
  direct : ∀ e, p ≠ .direct e
  bound : s'.count ≤ cap
  slip : s'.slip = s'.count
  was : ∀ q, q ≠ t → s.blamed q = true → s'.blamed q = true
  calm : ∀ q, q ≠ t → s.count = 0 → (s.pc q).lookedFor = true → s'.blamed q = true ∨ s'.count = 0

theorem OwedInv.offRing (h : OwedInv cap s) {p : OwedPc τ ε} (w : OffRing cap s s' t p)
    (hdrains : ∀ q, (s'.pc q).drains = true ↔ s'.draining = some q) (hcount : s'.count = s'.owed.length + s'.holds)
    (howns : ∀ e ∈ s'.own t, e.owner = t) (hsub : ∀ x ∈ s'.held ++ s'.owed, x.owner ≠ t → x ∈ s.held ++ s.owed) :
    Stepped cap s s' t := by
  have hself : s'.pc t = p := by rw [w.pc, update_self]
  have hring := w.ring
  have hfresh : ∀ r head, s.ring.push t ≠ .loadTail r head := fun r head hl => by
    obtain ⟨ok, hok⟩ := w.returned
    cases hok.symm.trans hl
  exact ⟨fun q hq => by rw [w.pc, update_of_ne hq], fun _ _ => by rw [hring], by rw [hring]; exact h.ring,
    by rw [hring], by rw [hring]; exact fun r head hl => absurd hl (hfresh r head),
    by rw [hself, hring]; exact OwedPc.carries_of_returned w.returned p, hdrains, hcount, w.bound, w.slip, howns, hsub,
    fun e he => absurd (hself.symm.trans he) (w.direct e), by rw [hself, hring]; exact w.excused, w.was, w.calm⟩

theorem OwedInv.relist (h : OwedInv cap s) {p : OwedPc τ ε} (w : OffRing cap s s' t p)
    (hown : p.own (s.ring.push t) = s.own t) (hdrains : ∀ q, (s'.pc q).drains = true ↔ s'.draining = some q)
    (hcat : s'.held ++ s'.owed = s.held ++ s.owed) (hcount : s'.count = s'.owed.length + s'.holds)
    (hbooks : SameBooks s s') : OwedInv cap s' := by
  have hother : ∀ q, q ≠ t → s'.pc q = s.pc q := fun q hq => by rw [w.pc, update_of_ne hq]
  have hown' : s'.own t = s.own t := by rw [own, w.pc, update_self, w.ring, hown]
  refine h.turn (h.offRing w hdrains hcount (by rw [hown']; exact h.owns t) (by rw [hcat]; exact fun x hx _ => hx))
    (line_of_eq hother (fun _ _ => by rw [w.ring]) hown' ?_) hbooks
  rw [hcat, OwedState.delivered, w.ring]
  rfl

/-- A step of a thread that does not drain, and leaves the ring alone. -/
theorem OwedInv.aside (h : OwedInv cap s) {pc : OwedPc τ ε} (hpc : s'.pc = update s.pc t pc) (hring : s'.ring = s.ring)
    (hdraining : s'.draining = s.draining) (hd : (s.pc t).drains = false) (hd' : pc.drains = false) :
    s'.held = s.held ∧ s'.holds = s.holds ∧ s'.delivered = s.delivered ∧ (∀ q, q ≠ t → s'.own q = s.own q) ∧
      ∀ q, (s'.pc q).drains = true ↔ s'.draining = some q := by
  have hother : ∀ q, q ≠ t → s'.pc q = s.pc q := fun q hq => by rw [hpc, update_of_ne hq]
  obtain ⟨hheld, hholds⟩ := held_of_other (h.not_draining hd) hdraining hother fun _ _ => by rw [hring]
  refine ⟨hheld, hholds, by rw [OwedState.delivered, hring]; rfl, fun q hq => ?_,
    h.drains_of_eq t hother hdraining (by rw [hpc, update_self, hd, hd'])⟩
  rw [own, hother q hq, hring]
  rfl

/-- A step of `t` that changes only where `t` is, and whether it is hindered. -/
theorem OwedInv.goto (h : OwedInv cap s) {pc pc' : OwedPc τ ε} {hindered : τ → Bool} (hp : s.pc t = pc)
    (hs' : s' = { s with pc := update s.pc t pc', hindered := hindered })
    (hkeep : ∀ q, s.hindered q = true → hindered q = true) (hown : pc'.own (s.ring.push t) = pc.own (s.ring.push t))
    (hheld : pc'.held (s.ring.push t) = pc.held (s.ring.push t)) (hholds : pc'.holds = pc.holds)
    (hdrains : pc'.drains = pc.drains) (hreturned : ∃ ok, s.ring.push t = .returned ok)
    (hexcused : pc'.Excused (s.ring.push t) (s.wasFull t || hindered t) s.count) (hdirect : ∀ e, pc' ≠ .direct e) :
    OwedInv cap s' := by
  subst hs'
  generalize hs' : ({ s with pc := update s.pc t pc', hindered := hindered } : OwedState τ ε) = s'
  have hself : s'.pc t = pc' := by rw [← hs']; exact update_self ..
  have hother : ∀ q, q ≠ t → s'.pc q = s.pc q := fun q hq => by rw [← hs']; exact update_of_ne hq ..
  have hring : s'.ring = s.ring := by rw [← hs']
  have hdraining : s'.draining = s.draining := by rw [← hs']
  have hsame : s'.held = s.held ∧ s'.holds = s.holds := by
    by_cases hd : s.draining = some t
    · rw [held_of_draining hd, held_of_draining (hdraining.trans hd), holds_of_draining hd,
        holds_of_draining (hdraining.trans hd), hself, hp, hring]
      exact ⟨hheld, hholds⟩
    · exact held_of_other hd hdraining hother fun _ _ => by rw [hring]
  refine h.relist (p := pc') ⟨by rw [← hs'], hring, hreturned, by rw [← hs']; exact hexcused, hdirect,
    by rw [← hs']; exact h.bound, by rw [← hs']; exact h.slip, fun q _ hq => ?_,
    fun q _ h0 _ => .inr (by rw [← hs']; exact h0)⟩
    (by rw [hown, own, hp]) (h.drains_of_eq t hother hdraining (by rw [hself, hdrains, hp])) ?_ ?_
    (by rw [← hs']; exact ⟨rfl, rfl, rfl⟩)
  · rw [← hs']
    exact (Bool.or_eq_true _ _).mpr (((Bool.or_eq_true _ _).mp hq).imp_right (hkeep q))
  · rw [hsame.1, ← hs']
  · rw [hsame.2, ← hs']
    exact h.count

/-! ## Accesses of the ring -/

section

variable {β : Type} {w : Nat} {ring : RingState τ β w} {limit : (Fin w → β) → Nat} {r : Fin w → β} {weak : Bool}

theorem pushStep_push_of_ne {q : τ} (hq : q ≠ t) : (ring.pushStep cap limit t weak).push q = ring.push q := by
  unfold RingState.pushStep
  split
  · rfl
  · exact update_of_ne hq ..
  · split <;> exact update_of_ne hq ..
  · split <;> exact update_of_ne hq ..
  · exact update_of_ne hq ..
  · split <;> exact update_of_ne hq ..

theorem pushStep_head : (ring.pushStep cap limit t weak).head = ring.head := by
  unfold RingState.pushStep
  split
  · rfl
  · rfl
  · split <;> rfl
  · split <;> rfl
  · rfl
  · split <;> rfl

theorem pushStep_loadTail (hnot : ∀ r head, ring.push t ≠ .loadTail r head) {head : Nat}
    (h : (ring.pushStep cap limit t weak).push t = .loadTail r head) : head = ring.head := by
  unfold RingState.pushStep at h
  split at h
  · exact absurd h (hnot r head)
  · rw [RingState.goto_push_self] at h
    cases h
    rfl
  · rename_i r' head' hp
    exact absurd hp (hnot r' head')
  · split at h <;> simp [RingState.goto] at h
  · simp at h
  · split at h <;> simp at h

theorem pushStep_refused (hnot : ∀ ok, ring.push t ≠ .returned ok)
    (h : (ring.pushStep cap limit t weak).push t = .returned false) :
    ∃ r head, ring.push t = .loadTail r head ∧ limit r ≤ u64 (ring.tail + 2 ^ 64 - head) := by
  unfold RingState.pushStep at h
  split at h
  · rename_i ok hp
    exact absurd hp (hnot ok)
  · simp [RingState.goto] at h
  · rename_i r' head' hp
    split at h
    · rename_i hfull
      exact ⟨r', head', hp, hfull⟩
    · simp [RingState.goto] at h
  · split at h <;> simp [RingState.goto] at h
  · simp at h
  · split at h <;> simp at h

/-- A push claims a position for its record once. -/
theorem pushStep_claimed (cap : Nat) (limit : (Fin w → β) → Nat) (weak : Bool) (hof : PushOf r (ring.push t))
    (hnot : ∀ ok, ring.push t ≠ .returned ok) :
    PushOf r ((ring.pushStep cap limit t weak).push t) ∧
    ((ring.pushStep cap limit t weak).claimed = ring.claimed ∧
      hasPosition ((ring.pushStep cap limit t weak).push t) = hasPosition (ring.push t) ∨
      (ring.pushStep cap limit t weak).claimed = ring.claimed ++ [r] ∧
      hasPosition ((ring.pushStep cap limit t weak).push t) = true ∧ hasPosition (ring.push t) = false) := by
  unfold RingState.pushStep
  cases hp : ring.push t with
  | returned ok => exact absurd hp (hnot ok)
  | loadHead r' =>
    rw [hp] at hof
    dsimp only
    rw [RingState.goto_push_self]
    exact ⟨hof, .inl ⟨rfl, rfl⟩⟩
  | loadTail r' head =>
    rw [hp] at hof
    dsimp only
    split
    · dsimp only
      rw [update_self]
      exact ⟨trivial, .inl ⟨rfl, rfl⟩⟩
    · rw [RingState.goto_push_self]
      exact ⟨hof, .inl ⟨rfl, rfl⟩⟩
  | claim r' pos =>
    rw [hp] at hof
    obtain rfl : r' = r := hof
    dsimp only
    split
    · dsimp only
      rw [update_self]
      exact ⟨rfl, .inr ⟨rfl, rfl, rfl⟩⟩
    · rw [RingState.goto_push_self]
      exact ⟨rfl, .inl ⟨rfl, rfl⟩⟩
  | checkSeq r' pos =>
    rw [hp] at hof
    dsimp only
    rw [update_self]
    exact ⟨hof, .inl ⟨rfl, rfl⟩⟩
  | copy r' pos k =>
    rw [hp] at hof
    dsimp only
    split
    · dsimp only
      rw [update_self]
      exact ⟨hof, .inl ⟨rfl, rfl⟩⟩
    · dsimp only
      rw [update_self]
      exact ⟨trivial, .inl ⟨rfl, rfl⟩⟩

end

theorem OwedInv.refused_full (h : OwedInv cap s) {weak : Bool} (hnot : ∀ ok, s.ring.push t ≠ .returned ok)
    (hr : (s.ring.pushStep cap (fun _ => cap) t weak).push t = .returned false) :
    cap ≤ s.ring.tail - s.ring.head ∨ s.blamed t = true := by
  obtain ⟨r, head, hp, hfull⟩ := pushStep_refused hnot hr
  refine (h.fresh t r head hp).imp_left ?_
  rintro rfl
  have hb := h.ring.bound
  have hle := h.ring.le
  unfold u64 at hfull
  omega

/-- An access of a push to the ring: the parts that do not depend on whose push it is. -/
theorem OwedInv.ringStep_parts (h : OwedInv cap s) (weak : Bool) (hnot : ∀ ok, s.ring.push t ≠ .returned ok) :
    (∀ r head, (s.ringStep cap t weak).ring.push t = .loadTail r head →
      head = s.ring.head ∨ (s.ringStep cap t weak).blamed t = true) ∧
    ((s.ringStep cap t weak).ring.push t = .returned false → (s.ringStep cap t weak).blamed t = true) ∧
    ∀ q, q ≠ t → s.blamed q = true → (s.ringStep cap t weak).blamed q = true := by
  refine ⟨fun r head hp => .inl ?_, fun hr => ?_, fun q hq hb => ?_⟩
  · by_cases hl : ∃ r head, s.ring.push t = .loadTail r head
    · obtain ⟨r', head', hl⟩ := hl
      simp only [ringStep, RingState.pushStep, hl] at hp
      split at hp <;> simp [RingState.goto] at hp
    · exact pushStep_loadTail (fun r head hl' => hl ⟨r, head, hl'⟩) hp
  · change (s.ring.pushStep cap (fun _ => cap) t weak).push t = .returned false at hr
    simp only [blamed, ringStep, hr, update_self]
    by_cases hfull : cap ≤ s.ring.tail - s.ring.head
    · simp [hfull]
    · have hblamed := (h.refused_full hnot hr).resolve_left hfull
      simpa [hfull, blamed] using hblamed
  · simpa only [blamed, ringStep, update_of_ne hq] using hb

theorem delivered_of_claimed {e : Publish τ ε} (h : s'.ring.claimed = s.ring.claimed ++ [fun _ => e]) :
    s'.delivered = s.delivered ++ [e] := by
  rw [OwedState.delivered, h, map_append]
  rfl

theorem OwedInv.handPush (h : OwedInv cap s) {weak : Bool} (hb : s.ring.tail + 1 < 2 ^ 64) {k : Option (Publish τ ε)}
    {n : Publish τ ε} (hp : s.pc t = .handPush k n) (hnot : ∀ ok, s.ring.push t ≠ .returned ok) :
    OwedInv cap (s.ringStep cap t weak) := by
  have hcarries := h.carries t
  rw [hp] at hcarries
  obtain ⟨hof, hclaimed⟩ := pushStep_claimed cap (fun _ => cap) weak hcarries hnot
  obtain ⟨hfresh, hfull, hwas⟩ := h.ringStep_parts weak hnot
  have hd : s.draining = some t := (h.drains t).mp (by rw [hp]; rfl)
  have hd' : (s.ringStep cap t weak).draining = some t := hd
  have hpc : (s.ringStep cap t weak).pc t = .handPush k n := hp
  have hheld : s.held = if hasPosition (s.ring.push t) then [] else [n] := by
    rw [held_of_draining hd, hp]
    rfl
  have hheld' : (s.ringStep cap t weak).held =
      if hasPosition ((s.ring.pushStep cap (fun _ => cap) t weak).push t) then [] else [n] := by
    rw [held_of_draining hd', hpc]
    rfl
  have hown : (s.ringStep cap t weak).own t = s.own t := by
    rw [own, own, hpc, hp]
    rfl
  have hline : (s.ringStep cap t weak).delivered ++ ((s.ringStep cap t weak).held ++ (s.ringStep cap t weak).owed) =
      s.delivered ++ (s.held ++ s.owed) := by
    rcases hclaimed with ⟨hsame, hpos⟩ | ⟨hnew, hpos, hpos'⟩
    · rw [hheld', hheld, hpos, OwedState.delivered, ringStep, hsame]
      rfl
    · rw [hheld', hheld, hpos, hpos', delivered_of_claimed hnew]
      simp [ringStep]
  have hsub : ∀ x ∈ (s.ringStep cap t weak).held ++ (s.ringStep cap t weak).owed, x ∈ s.held ++ s.owed := by
    intro x hx
    rcases mem_append.mp hx with hx | hx
    · refine mem_append_left _ ?_
      rw [hheld'] at hx
      rw [hheld]
      rcases hclaimed with ⟨-, hpos⟩ | ⟨-, hpos, -⟩
      · rwa [hpos] at hx
      · simp [hpos] at hx
    · exact mem_append_right _ hx
  refine h.turn ⟨fun _ _ => rfl, fun q hq => pushStep_push_of_ne hq, h.ring.pushStep (fun _ => le_rfl) hb t weak,
    pushStep_head, hfresh, ?_, ?_, ?_, h.bound, h.slip, ?_, fun x hx _ => hsub x hx, ?_, ?_, hwas,
    fun _ _ h0 _ => .inr h0⟩
    (line_of_eq (fun _ _ => rfl) (fun q hq => pushStep_push_of_ne hq) hown hline) ⟨rfl, rfl, rfl⟩
  · rw [hpc]
    exact hof
  · exact h.drains_of_eq t (fun _ _ => rfl) rfl rfl
  · rw [holds_of_draining hd', hpc, ← hp, ← holds_of_draining hd]
    exact h.count
  · rw [hown]
    exact h.owns t
  · intro e he
    cases hpc.symm.trans he
  · rw [hpc]
    exact hfull

theorem OwedInv.direct (h : OwedInv cap s) {weak : Bool} (hb : s.ring.tail + 1 < 2 ^ 64) (hp : s.pc t = .direct e)
    (hnot : ∀ ok, s.ring.push t ≠ .returned ok) : OwedInv cap (s.ringStep cap t weak) := by
  have hcarries := h.carries t
  rw [hp] at hcarries
  obtain ⟨hof, hclaimed⟩ := pushStep_claimed cap (fun _ => cap) weak hcarries hnot
  obtain ⟨hfresh, hfull, hwas⟩ := h.ringStep_parts weak hnot
  have hd : s.draining ≠ some t := h.not_draining (by rw [hp]; rfl)
  have hpush : ∀ q, q ≠ t → (s.ringStep cap t weak).ring.push q = s.ring.push q := fun q hq => pushStep_push_of_ne hq
  have hpc : (s.ringStep cap t weak).pc t = .direct e := hp
  have hsame : (s.ringStep cap t weak).held = s.held ∧ (s.ringStep cap t weak).holds = s.holds :=
    held_of_other hd rfl (fun _ _ => rfl) hpush
  have hown : s.own t = if hasPosition (s.ring.push t) then [] else [e] := by
    rw [own, hp]
    rfl
  have hown' : (s.ringStep cap t weak).own t =
      if hasPosition ((s.ring.pushStep cap (fun _ => cap) t weak).push t) then [] else [e] := by
    rw [own, hpc]
    rfl
  have hsub : ∀ x ∈ (s.ringStep cap t weak).own t, x ∈ s.own t := by
    rw [hown, hown']
    rcases hclaimed with ⟨-, hpos⟩ | ⟨-, hpos, -⟩
    · rw [hpos]
      exact fun x hx => hx
    · simp [hpos]
  have hline : ∀ q, (s.ringStep cap t weak).line q = s.line q := by
    rcases hclaimed with ⟨hold, hpos⟩ | ⟨hnew, hpos, hpos'⟩
    · refine line_of_eq (fun _ _ => rfl) hpush (by rw [hown, hown', hpos]) ?_
      rw [hsame.1, OwedState.delivered, ringStep, hold]
      rfl
    -- the publisher itself has nothing behind what it puts into the ring
    have howner : e.owner = t := h.owns t e (by rw [hown, hpos']; exact mem_singleton_self e)
    have hclear := nths_eq_nil (h.clear t e hp hpos')
    intro q
    rw [OwedState.line, OwedState.line, delivered_of_claimed hnew, hsame.1]
    change nths q (s.delivered ++ [e] ++ (s.held ++ s.owed)) ++ _ = _
    by_cases hq : q = t
    · rw [hq, hown, hown', hpos, hpos']
      rw [nths_append, nths_append s.delivered [e], nths_append s.delivered, hclear]
      simp [nths]
    have hother : (s.ringStep cap t weak).own q = s.own q := by
      rw [own, hpush q hq]
      rfl
    have hnil : nths q [e] = [] := nths_eq_nil fun x hx => by
      rw [mem_singleton.mp hx, howner]
      exact Ne.symm hq
    rw [hother, nths_append, nths_append, hnil, append_nil, ← nths_append]
  refine h.turn ⟨fun _ _ => rfl, hpush, h.ring.pushStep (fun _ => le_rfl) hb t weak, pushStep_head, hfresh,
    ?_, ?_, ?_, h.bound, h.slip, fun x hx => h.owns t x (hsub x hx), ?_, ?_, ?_, hwas,
    fun _ _ h0 _ => .inr h0⟩ hline ⟨rfl, rfl, rfl⟩
  · rw [hpc]
    exact hof
  · exact h.drains_of_eq t (fun _ _ => rfl) rfl rfl
  · rw [hsame.2]
    exact h.count
  · rw [hsame.1]
    exact fun x hx _ => hx
  · rw [hsame.1]
    intro e' he' hpos'
    rcases hclaimed with ⟨-, hpos⟩ | ⟨-, hpos, -⟩
    · exact h.clear t e hp (hpos.symm.trans hpos')
    · cases hpos.symm.trans hpos'
  · rw [hpc]
    exact hfull

/-- The page of the slot is refused to a push of `t`. -/
theorem OwedInv.refuse (h : OwedInv cap s) {r : Fin 1 → Publish τ ε} {pos : Nat} (hp : s.ring.push t = .claim r pos)
    (hpc : (∃ e, s.pc t = .direct e) ∨ ∃ k n, s.pc t = .handPush k n) :
    OwedInv cap { s with ring := s.ring.goto t (.returned false), hindered := s.hinder (· = t) } := by
  generalize hs' : ({ s with ring := s.ring.goto t (.returned false), hindered := s.hinder (· = t) } : OwedState τ ε) =
    s'
  have hsame : s'.pc = s.pc ∧ s'.owed = s.owed ∧ s'.draining = s.draining ∧ s'.count = s.count := by
    rw [← hs']
    exact ⟨rfl, rfl, rfl, rfl⟩
  have hpself : s'.ring.push t = .returned false := by rw [← hs']; exact update_self ..
  have hpush : ∀ q, q ≠ t → s'.ring.push q = s.ring.push q := fun q hq => by rw [← hs']; exact update_of_ne hq ..
  have hkeep : ∀ q, s.blamed q = true → s'.blamed q = true := fun q hq => by
    rw [← hs']
    simp only [blamed, hinder, Bool.or_eq_true] at hq ⊢
    tauto
  have hblamed : s'.blamed t = true := by
    rw [← hs']
    cases hw : s.wasFull t <;> simp [blamed, hinder, hw]
  have hown : s'.own t = s.own t := by
    rw [own, own, hsame.1, hp, hpself]
    rcases hpc with ⟨e, he⟩ | ⟨k, n, he⟩ <;> rw [he] <;> rfl
  have hheld : s'.held = s.held ∧ s'.holds = s.holds := by
    unfold held holds
    rw [hsame.1, hsame.2.2.1]
    cases s.draining with
    | none => exact ⟨rfl, rfl⟩
    | some d =>
      refine ⟨?_, rfl⟩
      dsimp only
      by_cases hd : d = t
      · subst hd
        rw [hp, hpself]
        rcases hpc with ⟨e, he⟩ | ⟨k, n, he⟩ <;> rw [he] <;> rfl
      · rw [hpush d hd]
  have hcat : s'.held ++ s'.owed = s.held ++ s.owed := by rw [hheld.1, hsame.2.1]
  refine h.turn ⟨fun q _ => congrFun hsame.1 q, hpush, ?_, by rw [← hs']; rfl, fun r head hl => ?_, ?_, ?_, ?_,
    by rw [← hs']; exact h.bound, by rw [← hs']; exact h.slip, by rw [hown]; exact h.owns t,
    by rw [hcat]; exact fun x hx _ => hx, fun e he hpos => ?_, ?_, fun q _ => hkeep q,
    fun q _ h0 _ => .inr (hsame.2.2.2.trans h0)⟩
    (line_of_eq (fun q _ => congrFun hsame.1 q) hpush hown ?_) (by rw [← hs']; exact ⟨rfl, rfl, rfl⟩)
  · rw [← hs']
    refine h.ring.goto _ trivial fun r pos => ?_
    rw [hp]
    simp [PushPc.Writes]
  · cases hpself.symm.trans hl
  · rw [hsame.1, hpself]
    exact OwedPc.carries_of_returned ⟨false, rfl⟩ _
  · exact h.drains_of_eq t (fun q _ => congrFun hsame.1 q) hsame.2.2.1 (by rw [hsame.1])
  · rw [hheld.2, hsame.2.1, hsame.2.2.2]
    exact h.count
  · rw [hcat]
    refine h.clear t e (by rw [← hsame.1]; exact he) ?_
    rw [hp]
    rfl
  · rw [hsame.1, hpself]
    rcases hpc with ⟨e, he⟩ | ⟨k, n, he⟩ <;> rw [he] <;> exact fun _ => hblamed
  · rw [hcat, OwedState.delivered, ← hs']
    rfl

/-! ## Steps on the list -/

theorem OwedInv.empty_of_count (h : OwedInv cap s) (h0 : s.count = 0) : s.held ++ s.owed = [] := by
  have hc := h.count
  have howed : s.owed = [] := length_eq_zero_iff.mp (by omega)
  have hholds : s.holds = 0 := by omega
  rw [howed, append_nil]
  unfold held
  unfold holds at hholds
  cases hd : s.draining with
  | none => rfl
  | some d =>
    rw [hd] at hholds
    dsimp only at hholds ⊢
    generalize s.pc d = pc at hholds
    cases pc with
    | handPush | handBack => cases hholds
    | _ => rfl

theorem OwedInv.callDirect (h : OwedInv cap s) (hown : s.own t = [e]) (hd : (s.pc t).drains = false)
    (hpush : ∃ ok, s.ring.push t = .returned ok) (h0 : s.count = 0) : OwedInv cap (s.callPush t e (.direct e)) := by
  obtain ⟨ok, hpush⟩ := hpush
  have hself : (s.callPush t e (.direct e)).pc t = .direct e := update_self ..
  have hpself : (s.callPush t e (.direct e)).ring.push t = .loadHead fun _ => e := update_self ..
  have hother : ∀ q, q ≠ t → (s.callPush t e (.direct e)).pc q = s.pc q := fun q hq => update_of_ne hq ..
  have hpother : ∀ q, q ≠ t → (s.callPush t e (.direct e)).ring.push q = s.ring.push q := fun q hq =>
    update_of_ne hq ..
  have hsame : (s.callPush t e (.direct e)).held = s.held ∧ (s.callPush t e (.direct e)).holds = s.holds :=
    held_of_other (h.not_draining hd) rfl hother hpother
  have hown' : (s.callPush t e (.direct e)).own t = s.own t := by
    rw [hown, own, hself, hpself]
    rfl
  refine h.turn ⟨hother, hpother, ?_, rfl, ?_, ?_, ?_, ?_, h.bound, h.slip, ?_, ?_, ?_, ?_, fun _ _ hq => hq,
    fun _ _ h0 _ => .inr h0⟩ (line_of_eq hother hpother hown' ?_) ⟨rfl, rfl, rfl⟩
  · refine h.ring.goto _ trivial fun r pos => ?_
    rw [hpush]
    simp [PushPc.Writes]
  · intro r head hl
    cases hpself.symm.trans hl
  · rw [hself, hpself]
    exact rfl
  · exact h.drains_of_eq t hother rfl (by rw [hself, hd]; rfl)
  · rw [hsame.2]
    exact h.count
  · rw [hown']
    exact h.owns t
  · rw [hsame.1]
    exact fun x hx _ => hx
  · intro e' he' hpos x hx
    rw [hsame.1] at hx
    change x ∈ s.held ++ s.owed at hx
    rw [h.empty_of_count h0] at hx
    cases hx
  · rw [hself, hpself]
    rintro ⟨⟩
  · rw [hsame.1]
    rfl

theorem OwedInv.handTake (h : OwedInv cap s) {k : Option (Publish τ ε)} {n : Publish τ ε} {rest : List (Publish τ ε)}
    (hp : s.pc t = .handTake k) (howed : s.owed = n :: rest) :
    OwedInv cap { s with
      ring := s.ring.goto t (.loadHead fun _ => n), pc := update s.pc t (.handPush k n), owed := rest } := by
  generalize hs' : ({ s with
      ring := s.ring.goto t (.loadHead fun _ => n), pc := update s.pc t (.handPush k n), owed := rest } :
    OwedState τ ε) = s'
  have hself : s'.pc t = .handPush k n := by rw [← hs']; exact update_self ..
  have hpself : s'.ring.push t = .loadHead fun _ => n := by rw [← hs']; exact update_self ..
  have hother : ∀ q, q ≠ t → s'.pc q = s.pc q := fun q hq => by rw [← hs']; exact update_of_ne hq ..
  have hpother : ∀ q, q ≠ t → s'.ring.push q = s.ring.push q := fun q hq => by
    rw [← hs']
    exact update_of_ne hq ..
  have hd : s.draining = some t := (h.drains t).mp (by rw [hp]; rfl)
  have hd' : s'.draining = some t := by rw [← hs']; exact hd
  have hheld : s.held = [] := by
    rw [held_of_draining hd, hp]
    rfl
  have hheld' : s'.held = [n] := by
    rw [held_of_draining hd', hself, hpself]
    rfl
  have howed' : s'.owed = rest := by rw [← hs']
  have hcat : s'.held ++ s'.owed = s.held ++ s.owed := by
    rw [hheld, hheld', howed, howed']
    rfl
  have hown : s'.own t = s.own t := by
    rw [own, own, hself, hp]
    rfl
  obtain ⟨ok, hpush⟩ : ∃ ok, s.ring.push t = .returned ok := by
    have := h.carries t
    rwa [hp] at this
  have hcount := h.count
  have hholds : s.holds = 0 := by
    rw [holds_of_draining hd, hp]
    rfl
  refine h.turn ⟨hother, hpother, ?_, by rw [← hs']; rfl, ?_, ?_, ?_, ?_, by rw [← hs']; exact h.bound,
    by rw [← hs']; exact h.slip, ?_, ?_, ?_, ?_, by rw [← hs']; exact fun _ _ hq => hq,
    by rw [← hs']; exact fun _ _ h0 _ => .inr h0⟩
    (line_of_eq hother hpother hown ?_) (by rw [← hs']; exact ⟨rfl, rfl, rfl⟩)
  · rw [← hs']
    refine h.ring.goto _ trivial fun r pos => ?_
    rw [hpush]
    simp [PushPc.Writes]
  · intro r head hl
    cases hpself.symm.trans hl
  · rw [hself, hpself]
    exact rfl
  · exact h.drains_of_eq t hother (by rw [hd, hd']) (by rw [hself, hp]; rfl)
  · rw [holds_of_draining hd', hself, howed', ← hs']
    rw [howed, length_cons, hholds] at hcount
    exact hcount
  · rw [hown]
    exact h.owns t
  · rw [hcat]
    exact fun x hx _ => hx
  · intro e he
    cases hself.symm.trans he
  · rw [hself, hpself]
    rintro ⟨⟩
  · rw [hcat, ← hs']
    rfl

theorem OwedInv.redrain (h : OwedInv cap s) {p : OwedPc τ ε} (w : OffRing cap s s' t p)
    (hold : s.draining = some t ∨ s.draining = none) (hnew : s'.draining = some t) (hdrains : p.drains = true)
    (hown : p.own (s.ring.push t) = s.own t) (hcat : p.held (s.ring.push t) ++ s'.owed = s.held ++ s.owed)
    (hcount : s'.count = s'.owed.length + p.holds) (hbooks : SameBooks s s') : OwedInv cap s' := by
  have hself : s'.pc t = p := by rw [w.pc, update_self]
  refine h.relist w hown (fun q => ?_) ?_ ?_ hbooks
  · rw [hnew]
    by_cases hq : q = t
    · rw [hq, hself, hdrains]
      exact ⟨fun _ => rfl, fun _ => rfl⟩
    have hne : ¬some t = some q := fun hs => hq (Option.some.inj hs).symm
    rw [w.pc, update_of_ne hq, h.drains q]
    rcases hold with hold | hold
    · rw [hold]
    · rw [hold]
      exact ⟨nofun, fun hs => absurd hs hne⟩
  · rw [held_of_draining hnew, hself, w.ring]
    exact hcat
  · rw [holds_of_draining hnew, hself]
    exact hcount

theorem OwedInv.handBack (h : OwedInv cap s) {k : Option (Publish τ ε)} {n : Publish τ ε}
    (hp : s.pc t = .handBack k n) : OwedInv cap { s with pc := update s.pc t (.handLeave k), owed := n :: s.owed } := by
  have hd : s.draining = some t := (h.drains t).mp (by rw [hp]; rfl)
  have hcarries := h.carries t
  have hblamed := h.excused t
  rw [hp] at hblamed
  have hcount := h.count
  rw [holds_of_draining hd, hp] at hcount
  rw [hp] at hcarries
  refine h.redrain ⟨rfl, rfl, hcarries, .inl hblamed, fun _ => nofun, h.bound, h.slip, fun _ _ hq => hq,
    fun _ _ h0 _ => .inr h0⟩ (.inl hd) hd rfl ?_ ?_ hcount ⟨rfl, rfl, rfl⟩
  · rw [own, hp]
    rfl
  · rw [held_of_draining hd, hp]
    rfl

theorem OwedInv.handSub (h : OwedInv cap s) (hcap : cap < 2 ^ 32) {k : Option (Publish τ ε)}
    (hp : s.pc t = .handSub k) :
    OwedInv cap { s with
      pc := update s.pc t (.handTake k)
      count := (s.count + 2 ^ 32 - 1) % 2 ^ 32
      slip := (s.count + 2 ^ 32 - 1) % 2 ^ 32 } := by
  have hd : s.draining = some t := (h.drains t).mp (by rw [hp]; rfl)
  have hcarries := h.carries t
  have hbound := h.bound
  have hcount : s.count = s.owed.length + 1 := by
    rw [h.count, holds_of_draining hd, hp]
    rfl
  have hsub : (s.count + 2 ^ 32 - 1) % 2 ^ 32 = s.owed.length := by omega
  rw [hp] at hcarries
  rw [hsub]
  refine h.redrain ⟨rfl, rfl, hcarries, trivial, fun _ => nofun, by change s.owed.length ≤ cap; omega, rfl,
    fun _ _ hq => hq, fun _ _ h0 _ => by omega⟩ (.inl hd) hd rfl ?_ ?_ rfl ⟨rfl, rfl, rfl⟩
  · rw [own, hp]
    rfl
  · rw [held_of_draining hd, hp]
    rfl

theorem OwedInv.handFlag (h : OwedInv cap s) {k : Option (Publish τ ε)} (hp : s.pc t = .handFlag k)
    (hd : s.draining = none) : OwedInv cap { s with pc := update s.pc t (.handTake k), draining := some t } := by
  have hcarries := h.carries t
  have hcount := h.count
  rw [holds_of_none hd] at hcount
  rw [hp] at hcarries
  refine h.redrain ⟨rfl, rfl, hcarries, trivial, fun _ => nofun, h.bound, h.slip, fun _ _ hq => hq,
    fun _ _ h0 _ => .inr h0⟩ (.inr hd) rfl rfl ?_ ?_ hcount ⟨rfl, rfl, rfl⟩
  · rw [own, hp]
    rfl
  · rw [held_of_none hd]
    rfl

theorem OwedInv.handLeave (h : OwedInv cap s) {k : Option (Publish τ ε)} (hp : s.pc t = .handLeave k) :
    OwedInv cap { s with pc := update s.pc t (handReturn k), draining := none } := by
  have hd : s.draining = some t := (h.drains t).mp (by rw [hp]; rfl)
  have hcarries := h.carries t
  have hexcused := h.excused t
  rw [hp] at hexcused
  have hcount := h.count
  rw [holds_of_draining hd, hp] at hcount
  rw [hp] at hcarries
  have hheld : s.held = [] := by
    rw [held_of_draining hd, hp]
    rfl
  refine h.relist ⟨rfl, rfl, hcarries, ?_, ?_, h.bound, h.slip, fun _ _ hq => hq,
    fun _ _ h0 _ => .inr h0⟩ ?_ ?_ ?_ hcount
    ⟨rfl, rfl, rfl⟩
  · cases k with
    | none => trivial
    | some e => exact hexcused
  · cases k <;> exact fun _ => nofun
  · rw [own, hp]
    cases k <;> rfl
  · intro q
    by_cases hq : q = t
    · simp only [hq, update_self]
      cases k <;> exact ⟨nofun, nofun⟩
    · simp only [update_of_ne hq, h.drains q, hd]
      exact ⟨fun hs => absurd (Option.some.inj hs).symm hq, nofun⟩
  · rw [hheld]
    rfl

theorem nths_of_ne {q : τ} (howner : e.owner = t) (hq : q ≠ t) : nths q [e] = [] :=
  nths_eq_nil fun x hx => by
    rw [mem_singleton.mp hx, howner]
    exact Ne.symm hq

theorem OwedInv.append (h : OwedInv cap s) (hown : s.own t = [e]) (hd : (s.pc t).drains = false)
    (hpush : ∃ ok, s.ring.push t = .returned ok) (hroom : s.count < cap) :
    OwedInv cap { s with
      pc := update s.pc t .idle, hindered := s.hinder fun q => (s.pc q).lookedFor
      owed := s.owed ++ [e], count := s.count + 1, slip := s.count + 1 } := by
  obtain ⟨s', hs'⟩ : ∃ s', s' = { s with
      pc := update s.pc t .idle, hindered := s.hinder fun q => (s.pc q).lookedFor
      owed := s.owed ++ [e], count := s.count + 1, slip := s.count + 1 } := ⟨_, rfl⟩
  rw [← hs']
  have hkeep : ∀ q, s.blamed q = true ∨ (s.pc q).lookedFor = true → s'.blamed q = true := fun q hq => by
    rw [hs']
    cases hw : s.wasFull q <;> simp [blamed, hinder, hw] at hq ⊢
    exact hq
  have hpc : s'.pc = update s.pc t .idle := by rw [hs']
  have hring : s'.ring = s.ring := by rw [hs']
  have howed : s'.owed = s.owed ++ [e] := by rw [hs']
  obtain ⟨hheld, hholds, hdel, hother, hdrains⟩ := h.aside hpc hring (by rw [hs']) hd rfl
  have hcount := h.count
  have howner : e.owner = t := h.owns t e (by rw [hown]; exact mem_singleton_self e)
  have hown' : s'.own t = [] := by
    rw [own, hpc, update_self]
    rfl
  refine h.turn (h.offRing ⟨hpc, hring, hpush, trivial, fun _ => nofun, by rw [hs']; exact hroom, by rw [hs'],
    fun q _ hq => hkeep q (.inl hq),
    fun q _ _ hq => .inl (hkeep q (.inr hq))⟩ hdrains ?_ (by rw [hown']; exact nofun) ?_)
    (fun q => ?_) ⟨by rw [hs'], by rw [hs'], by rw [hs']⟩
  · rw [howed, hholds, hs', length_append, length_singleton]
    change s.count + 1 = _
    omega
  · rw [hheld, howed, ← append_assoc]
    intro x hx hxt
    rcases mem_append.mp hx with hx | hx
    · exact hx
    · rw [mem_singleton.mp hx] at hxt
      exact absurd howner hxt
  · rw [OwedState.line, OwedState.line, hdel, hheld, howed, ← append_assoc, ← append_assoc, nths_append,
      append_assoc s.delivered]
    by_cases hq : q = t
    · rw [hq, hown, hown']
      exact append_nil _
    rw [nths_of_ne howner hq, append_nil, hother q hq]

theorem OwedInv.announce (h : OwedInv cap s) (hown : s.own t = [e]) (hd : (s.pc t).drains = false)
    (hpush : ∃ ok, s.ring.push t = .returned ok) (hblamed : s.blamed t = true) (hfree : s.hindered t = false)
    (hbound : cap ≤ s.count) : OwedInv cap (s.announce cap t e) := by
  have hfull : s.wasFull t = true := by simpa [blamed, hfree] using hblamed
  obtain ⟨s', hs'⟩ : ∃ s', s' = s.announce cap t e := ⟨_, rfl⟩
  rw [← hs']
  unfold OwedState.announce at hs'
  have hpc : s'.pc = update s.pc t .idle := by rw [hs']
  have hring : s'.ring = s.ring := by rw [hs']
  have howed : s'.owed = s.owed := by rw [hs']
  obtain ⟨hheld, hholds, hdel, hother, hdrains⟩ := h.aside hpc hring (by rw [hs']) hd rfl
  have howner : e.owner = t := h.owns t e (by rw [hown]; exact mem_singleton_self e)
  have hown' : s'.own t = [] := by
    rw [own, hpc, update_self]
    rfl
  have hlt : s.line t = s'.line t ++ [e.nth] := by
    rw [OwedState.line, OwedState.line, hdel, hheld, howed, hown, hown', nths_singleton howner]
    simp [nths]
  have hlq : ∀ q, q ≠ t → s'.line q = s.line q := fun q hq => by
    rw [OwedState.line, hdel, hheld, howed, hother q hq]
    rfl
  have hgone : ∀ q, s'.gone q = s.gone q ++ nths q [e] := fun q => by
    rw [OwedState.gone, OwedState.gone, hs']
    simp only [map_append, map_cons, map_nil, ← append_assoc, nths_append]
  refine h.change (h.offRing ⟨hpc, hring, hpush, trivial, fun _ => nofun, by rw [hs']; exact h.bound,
    by rw [hs']; exact h.slip, fun _ _ hq => by rw [hs']; exact hq, fun _ _ h0 _ => .inr (by rw [hs']; exact h0)⟩
    hdrains (by rw [howed, hholds, hs']; exact h.count)
    (by rw [hown']; exact nofun) (by rw [hheld, howed]; exact fun x hx _ => hx)) (fun q => ?_) (fun q => ?_) ?_
  · by_cases hq : q = t
    · have := h.order t
      rw [hlt] at this
      rw [hq]
      exact this.sublist (sublist_append_left _ _)
    · rw [hlq q hq]
      exact h.order q
  · have hsent : s'.sent = s.sent := by rw [hs']
    rw [hgone, hsent]
    by_cases hq : q = t
    · rw [hq, nths_singleton howner]
      have := h.places t
      rw [hlt, append_assoc] at this
      exact (Perm.append_left _ (perm_append_comm)).trans this
    · rw [hlq q hq, nths_of_ne howner hq, append_nil]
      exact h.places q
  · rw [hs']
    intro d hmem
    rcases mem_append.mp hmem with hmem | hmem
    · exact h.dropped d hmem
    · rw [mem_singleton.mp hmem, hfull, decide_eq_true hbound]

theorem OwedInv.publish (h : OwedInv cap s) (hp : s.pc t = .idle) (touch : ε) : OwedInv cap (s.publish t touch) := by
  obtain ⟨s', hs'⟩ : ∃ s', s' = s.publish t touch := ⟨_, rfl⟩
  rw [← hs']
  unfold OwedState.publish at hs'
  have hpc : s'.pc = update s.pc t (.deliver ⟨t, s.sent t, touch⟩) := by rw [hs']
  have hring : s'.ring = s.ring := by rw [hs']
  have howed : s'.owed = s.owed := by rw [hs']
  obtain ⟨hheld, hholds, hdel, hother, hdrains⟩ := h.aside hpc hring (by rw [hs']) (by rw [hp]; rfl) rfl
  have hcarries := h.carries t
  rw [hp] at hcarries
  have hown : s.own t = [] := by
    rw [own, hp]
    rfl
  have hown' : s'.own t = [⟨t, s.sent t, touch⟩] := by
    rw [own, hpc, update_self]
    rfl
  have hlt : s'.line t = s.line t ++ [s.sent t] := by
    rw [OwedState.line, OwedState.line, hdel, hheld, howed, hown, hown']
    simp [nths]
  have hlq : ∀ q, q ≠ t → s'.line q = s.line q := fun q hq => by
    rw [OwedState.line, hdel, hheld, howed, hother q hq]
    rfl
  have hgone : ∀ q, s'.gone q = s.gone q := fun q => by rw [OwedState.gone, hs']; rfl
  refine h.change (h.offRing ⟨hpc, hring, hcarries, trivial, fun _ => nofun, by rw [hs']; exact h.bound,
    by rw [hs']; exact h.slip, fun q hq hb => by rw [hs']; simpa only [blamed, update_of_ne hq] using hb,
    fun _ _ h0 _ => .inr (by rw [hs']; exact h0)⟩ hdrains
    (by rw [howed, hholds, hs']; exact h.count) ?_ (by rw [hheld, howed]; exact fun x hx _ => hx)) (fun q => ?_)
    (fun q => ?_) (by rw [hs']; exact h.dropped)
  · rw [hown']
    intro x hx
    rw [mem_singleton.mp hx]
  · by_cases hq : q = t
    · rw [hq, hlt, pairwise_append]
      refine ⟨h.order t, pairwise_singleton _ _, fun x hx y hy => ?_⟩
      -- every publish before this one has a smaller number
      have hmem : x ∈ List.range (s.sent t) := (h.places t).mem_iff.mp (mem_append_left _ hx)
      rw [mem_singleton.mp hy]
      exact mem_range.mp hmem
    · rw [hlq q hq]
      exact h.order q
  · rw [hgone]
    by_cases hq : q = t
    · have hsent : s'.sent t = s.sent t + 1 := by rw [hs']; exact update_self ..
      rw [hq, hlt, hsent, range_succ, append_assoc]
      refine (Perm.append_left _ perm_append_comm).trans ?_
      rw [← append_assoc]
      exact (h.places t).append_right _
    · have hsent : s'.sent q = s.sent q := by rw [hs']; exact update_of_ne hq ..
      rw [hlq q hq, hsent]
      exact h.places q

theorem OwedInv.release (h : OwedInv cap s) (hholds : s.holds = 0) : OwedInv cap s.release := by
  have hline : ∀ q, (s.release.line q).Sublist (s.line q) := fun q => by
    refine Sublist.append ?_ (Sublist.refl _)
    refine Sublist.map _ (Sublist.filter _ ?_)
    exact Sublist.append (Sublist.refl _) (Sublist.append (Sublist.refl _) (nil_sublist _))
  refine ⟨h.ring, h.fresh, h.carries, h.drains, ?_, Nat.zero_le _, rfl, h.owns, fun q e hq hpos x hx => ?_,
    fun q => (h.order q).sublist (hline q), fun q => ?_, fun q => (h.excused q).imp id fun _ _ => .inr rfl, h.dropped⟩
  · change 0 = 0 + s.holds
    omega
  · refine h.clear q e hq hpos x (mem_append_left _ ?_)
    rcases mem_append.mp hx with hx | hx
    · exact hx
    · cases hx
  · have hold := h.places q
    have hnew : s.release.line q ++ s.release.gone q =
        nths q s.delivered ++ nths q s.held ++ nths q (s.own q) ++
          (nths q s.released ++ nths q s.owed ++ nths q (s.dropped.map (·.1))) := by
      simp only [OwedState.line, OwedState.gone, OwedState.release, nths_append]
      change nths q s.delivered ++ (nths q s.held ++ nths q []) ++ nths q (s.own q) ++ _ = _
      simp [nths]
    rw [hnew]
    refine List.Perm.trans ?_ hold
    simp only [OwedState.line, OwedState.gone, nths_append]
    rw [perm_iff_count]
    intro a
    simp only [count_append]
    omega

theorem OwedInv.pops (h : OwedInv cap s) {ring : RingState τ (Publish τ ε) 1} {hindered : τ → Bool}
    (hring : RingInv cap (fun _ => cap) ring) (hpush : ring.push = s.ring.push)
    (hclaimed : ring.claimed = s.ring.claimed) (hkeep : ∀ t, s.hindered t = true → hindered t = true)
    (hfresh : ring.head = s.ring.head ∨ ∀ t, betweenLoads (s.ring.push t) = true → (s.wasFull t || hindered t) = true) :
    OwedInv cap { s with ring := ring, hindered := hindered } := by
  have hblamed : ∀ t, s.blamed t = true → (s.wasFull t || hindered t) = true := fun t ht =>
    (Bool.or_eq_true _ _).mpr (((Bool.or_eq_true _ _).mp ht).imp_right (hkeep t))
  have hheld : ({ s with ring := ring, hindered := hindered } : OwedState τ ε).held = s.held := by
    unfold held
    rw [hpush]
  have hown : ∀ t, ({ s with ring := ring, hindered := hindered } : OwedState τ ε).own t = s.own t := fun t => by
    unfold own
    rw [hpush]
  have hdel : ({ s with ring := ring, hindered := hindered } : OwedState τ ε).delivered = s.delivered := by
    unfold OwedState.delivered
    rw [hclaimed]
  have hline : ∀ t, ({ s with ring := ring, hindered := hindered } : OwedState τ ε).line t = s.line t := fun t => by
    unfold OwedState.line
    rw [hheld, hown, hdel]
  refine ⟨hring, fun t r head ht => ?_, fun t => ?_, h.drains, h.count, h.bound, h.slip, fun t => ?_,
    fun t e ht hpos => ?_, fun t => ?_, fun t => ?_, fun t => ?_, h.dropped⟩
  · change ring.push t = .loadTail r head at ht
    rw [hpush] at ht
    rcases hfresh with hfresh | hfresh
    · exact (h.fresh t r head ht).imp (fun he => he.trans hfresh.symm) (hblamed t)
    · exact .inr (hfresh t (by rw [ht]; rfl))
  · change (s.pc t).Carries (ring.push t)
    rw [hpush]
    exact h.carries t
  · rw [hown]
    exact h.owns t
  · rw [hheld]
    change hasPosition (ring.push t) = false at hpos
    rw [hpush] at hpos
    exact h.clear t e ht hpos
  · rw [hline]
    exact h.order t
  · rw [hline]
    exact h.places t
  · change (s.pc t).Excused (ring.push t) (s.wasFull t || hindered t) s.count
    rw [hpush]
    exact (h.excused t).imp (hblamed t) fun h0 _ => .inr h0

/-! ## Every step -/

theorem OwedInv.pushStep (h : OwedInv cap s) {weak granted : Bool} (hb : s.ring.tail + 1 < 2 ^ 64)
    (hpc : (∃ e, s.pc t = .direct e) ∨ ∃ k n, s.pc t = .handPush k n) (hnot : ∀ ok, s.ring.push t ≠ .returned ok) :
    OwedInv cap (s.pushStep cap t weak granted) := by
  unfold OwedState.pushStep
  split
  · rename_i hp
    exact h.refuse hp hpc
  · rcases hpc with ⟨e, he⟩ | ⟨k, n, he⟩
    · exact h.direct hb he hnot
    · exact h.handPush hb he hnot

theorem OwedInv.step (h : OwedInv cap s) (hcap : cap < 2 ^ 32) {weak granted : Bool}
    (ho : s.orderly cap (.step t weak granted) = true) : OwedInv cap (s.step cap t weak granted) := by
  obtain ⟨hb, ho⟩ := Bool.and_eq_true_iff.mp ho
  replace hb := of_decide_eq_true hb
  have hcarries := h.carries t
  have hexcused := h.excused t
  have hsame : ∀ q, s.hindered q = true → s.hindered q = true := fun _ => id
  unfold OwedState.step
  dsimp only at ho
  cases hp : s.pc t with
  | idle => exact h
  | deliver e =>
    rw [hp] at hcarries ho
    dsimp only
    rw [show s.destroying = false by simpa using ho, if_neg Bool.false_ne_true]
    exact h.goto hp rfl hsame rfl rfl rfl rfl hcarries trivial (fun _ => nofun)
  | firstCount e =>
    rw [hp] at hcarries
    dsimp only
    split
    · rename_i h0
      exact h.callDirect (by rw [own, hp]; rfl) (by rw [hp]; rfl) hcarries h0
    · exact h.goto hp rfl hsame rfl rfl rfl rfl hcarries trivial (fun _ => nofun)
  | secondCount e =>
    rw [hp] at hcarries hexcused
    dsimp only
    split
    · rename_i h0
      exact h.callDirect (by rw [own, hp]; rfl) (by rw [hp]; rfl) hcarries h0
    · rename_i h0
      exact h.goto hp rfl hsame rfl rfl rfl rfl hcarries (hexcused.resolve_right h0) (fun _ => nofun)
  | direct e =>
    rw [hp] at hexcused
    dsimp only
    split
    · rename_i hr
      exact h.goto hp rfl hsame (by rw [hr]; rfl) rfl rfl rfl ⟨true, hr⟩ trivial (fun _ => nofun)
    · rename_i hr
      exact h.goto hp rfl hsame (by rw [hr]; rfl) rfl rfl rfl ⟨false, hr⟩ (hexcused hr) (fun _ => nofun)
    · rename_i hr₁ hr₂
      exact h.pushStep hb (.inl ⟨e, hp⟩) fun ok hok => by cases ok with
        | true => exact hr₁ hok
        | false => exact hr₂ hok
  | append e =>
    rw [hp] at hcarries hexcused ho
    dsimp only at ho ⊢
    split
    · rename_i hle
      rw [if_pos hle] at ho
      exact h.announce (by rw [own, hp]; rfl) (by rw [hp]; rfl) hcarries hexcused (by simpa using ho) hle
    · rename_i hlt
      rw [if_neg hlt] at ho
      rw [if_pos ho]
      exact h.goto hp rfl hsame rfl rfl rfl rfl hcarries hexcused (fun _ => nofun)
  | appendLocked e =>
    rw [hp] at hcarries hexcused ho
    dsimp only
    split
    · rename_i hlt
      exact h.append (by rw [own, hp]; rfl) (by rw [hp]; rfl) hcarries hlt
    · rename_i hge
      exact h.announce (by rw [own, hp]; rfl) (by rw [hp]; rfl) hcarries hexcused (by simpa [hge] using ho)
        (Nat.le_of_not_lt hge)
  | handOver k =>
    rw [hp] at hcarries
    dsimp only
    split
    · rename_i h0
      exact h.goto hp rfl hsame (by cases k <;> rfl) (by cases k <;> rfl) (by cases k <;> rfl)
        (by cases k <;> rfl) hcarries (by cases k with
          | none => trivial
          | some e => exact .inr h0) (by cases k <;> exact fun _ => nofun)
    · exact h.goto hp rfl hsame rfl rfl rfl rfl hcarries trivial (fun _ => nofun)
  | handFlag k =>
    rw [hp] at hcarries
    dsimp only
    split
    · rename_i hd
      exact h.handFlag hp hd
    · have hblamed : (s.wasFull t || s.hinder (· = t) t) = true := by
        cases hw : s.wasFull t <;> simp [hinder, hw]
      exact h.goto hp rfl (fun q hq => by simp [hinder, hq]) (by cases k <;> rfl) (by cases k <;> rfl)
        (by cases k <;> rfl) (by cases k <;> rfl) hcarries
        (by cases k with
          | none => trivial
          | some e => exact .inl hblamed) (by cases k <;> exact fun _ => nofun)
  | handTake k =>
    rw [hp] at hcarries
    dsimp only
    split
    · rename_i howed
      -- `t` drains and holds nothing, so the count is that of the list
      have h0 : s.count = 0 := by
        rw [h.count, howed, holds_of_draining ((h.drains t).mp (by rw [hp]; rfl)), hp]
        rfl
      exact h.goto hp rfl hsame rfl rfl rfl rfl hcarries (.inr h0) (fun _ => nofun)
    · rename_i n rest howed
      exact h.handTake hp howed
  | handPush k n =>
    rw [hp] at hexcused
    dsimp only
    split
    · rename_i hr
      exact h.goto hp rfl hsame rfl (by rw [hr]; rfl) rfl rfl ⟨true, hr⟩ trivial (fun _ => nofun)
    · rename_i hr
      exact h.goto hp rfl hsame rfl (by rw [hr]; rfl) rfl rfl ⟨false, hr⟩ (hexcused hr) (fun _ => nofun)
    · rename_i hr₁ hr₂
      exact h.pushStep hb (.inr ⟨k, n, hp⟩) fun ok hok => by cases ok with
        | true => exact hr₁ hok
        | false => exact hr₂ hok
  | handBack k n => exact h.handBack hp
  | handSub k => exact h.handSub hcap hp
  | handLeave k => exact h.handLeave hp

theorem popStep_same {β : Type} {w : Nat} (cap : Nat) (ring : RingState τ β w) :
    (ring.popStep cap).push = ring.push ∧ (ring.popStep cap).claimed = ring.claimed ∧
    ((ring.popStep cap).head = ring.head ∨ ∃ pos, ring.pop = .advance pos) := by
  unfold RingState.popStep
  split
  · exact ⟨rfl, rfl, .inl rfl⟩
  · exact ⟨rfl, rfl, .inl rfl⟩
  · exact ⟨rfl, rfl, .inl rfl⟩
  · exact ⟨rfl, rfl, .inl rfl⟩
  · split <;> exact ⟨rfl, rfl, .inl rfl⟩
  · rename_i pos hp
    exact ⟨rfl, rfl, .inr ⟨pos, hp⟩⟩

theorem OwedInv.next (h : OwedInv cap s) (hcap : cap < 2 ^ 32) {ev : OwedEvent τ ε} (ho : s.orderly cap ev = true)
    (hs : OwedStep cap s ev s') : OwedInv cap s' := by
  have hsame : ∀ q, s.hindered q = true → s.hindered q = true := fun _ => id
  cases hs with
  | publish t touch hp => exact h.publish hp touch
  | handOver t hp =>
    have hcarries := h.carries t
    rw [hp] at hcarries
    exact h.goto hp rfl hsame rfl rfl rfl rfl hcarries trivial (fun _ => nofun)
  | step t weak granted => exact h.step hcap ho
  | release => exact h.release (beq_iff_eq.mp (Bool.and_eq_true_iff.mp ho).2)
  | destroying b =>
    exact ⟨h.ring, h.fresh, h.carries, h.drains, h.count, h.bound, h.slip, h.owns, h.clear, h.order, h.places,
      h.excused, h.dropped⟩
  | beginPop hp =>
    exact h.pops (h.ring.turn trivial fun pos hadv => (nomatch hp.symm.trans hadv)) rfl rfl hsame (.inl rfl)
  | pop =>
    obtain ⟨hpush, hclaimed, hhead⟩ := popStep_same cap s.ring
    refine h.pops h.ring.popStep hpush hclaimed (fun t ht => ?_) (hhead.imp_right fun ⟨pos, hpos⟩ t hl => ?_)
    · cases s.ring.pop with
      | advance => simp [hinder, ht]
      | _ => exact ht
    · rw [hpos]
      cases hw : s.wasFull t <;> simp [hinder, hw, hl]

end

end BoxOS.Touch
