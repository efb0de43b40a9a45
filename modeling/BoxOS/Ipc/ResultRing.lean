import BoxOS.Ipc.RingInv

/-!
# The reply ring

`KResultPush` puts answers (results with a cookie) and events (results without) into the reply ring of a process. Events
leave room for as many answers as the process's pocket ring has slots.

`result_ring_exact`: in every run every result that claimed a position is popped once, in the order of the positions and
with its bytes; and where no `head` is stored between the two loads of an answer's push, no answer is refused for lack
of room. `KResultPush` loads `head` before `tail`, so what the consumer pops between the two loads counts as still there
(`answer_refused_empty`).
-/

set_option linter.unusedSectionVars false

namespace BoxOS.Ipc

open List

/-- The packed `Result`: its last four bytes are `context`. -/
abbrev Result := Fin 24 → UInt8

/-- The byte at an offset. -/
def byteOf (r : Result) (i : Nat) : Nat := if h : i < 24 then (r ⟨i, h⟩).toNat else 0

/-- `KCTX_COOKIE24 (context)` -/
def cookie24 (r : Result) : Nat := byteOf r 21 + byteOf r 22 * 2 ^ 8 + byteOf r 23 * 2 ^ 16

/-- A result somebody waits for. -/
def IsAnswer (r : Result) : Prop := cookie24 r ≠ 0

instance (r : Result) : Decidable (IsAnswer r) := inferInstanceAs (Decidable (cookie24 r ≠ 0))

/-- The occupancy from which on `KResultPush` refuses; `pocket`: the slots of the pocket ring, if it is there. -/
def resultLimit (cap : Nat) (pocket : Option Nat) (r : Result) : Nat :=
  if cookie24 r = 0 then
    let reserve := pocket.getD (cap / 2)
    let limit := if reserve < cap then cap - reserve else cap / 2
    if limit = 0 then 1 else limit
  else cap

theorem resultLimit_le {cap : Nat} (hcap : 0 < cap) (pocket : Option Nat) (r : Result) :
    resultLimit cap pocket r ≤ cap := by
  unfold resultLimit
  dsimp only
  split
  · split <;> split <;> omega
  · exact le_rfl

theorem resultLimit_answer {cap : Nat} {pocket : Option Nat} {r : Result} (h : IsAnswer r) :
    resultLimit cap pocket r = cap :=
  if_neg h

theorem resultLimit_event {cap reserve : Nat} (hcap : reserve < cap) {r : Result} (h : ¬IsAnswer r) :
    resultLimit cap (some reserve) r = cap - reserve := by
  rw [resultLimit, if_pos (not_not.mp h)]
  dsimp only [Option.getD_some]
  rw [if_pos hcap, if_neg (by omega)]

section

variable {π : Type} [DecidableEq π]

/-- The push has a result in hand that has not claimed a position. -/
def PushPc.Pending {ρ : Type} (pc : PushPc ρ) (r : ρ) : Prop :=
  pc = .loadHead r ∨ (∃ head, pc = .loadTail r head) ∨ ∃ pos, pc = .claim r pos

/-- At most `n` answers are being pushed or wait to be popped. -/
def AtMostOwed (n : Nat) (s : RingState π UInt8 24) : Prop :=
  ∀ ps : List π, ps.Nodup → (∀ p ∈ ps, ∃ r, IsAnswer r ∧ (s.push p).Pending r) →
    ps.length + (s.claimed.drop s.head).countP (fun r => decide (IsAnswer r)) ≤ n

/-- The free-running positions do not wrap, and `head` is not stored between the two loads of an answer's push. -/
def Undisturbed (s : RingState π UInt8 24) (e : RingEvent π UInt8 24) : Prop :=
  s.tail + 1 < 2 ^ 64 ∧
    (e = .pop → ∀ pos, s.pop = .advance pos → ∀ p r head, s.push p = .loadTail r head → ¬IsAnswer r)

/-- Every result that claimed a position is popped once, in order and with its bytes. -/
structure Delivered (cap : Nat) (limit : Result → Nat) (s : RingState π UInt8 24) : Prop where
  popped : s.popped = s.claimed.take s.head
  positions : s.claimed.length = s.tail ∧ s.head ≤ s.tail
  slots : ∀ pos, s.head ≤ pos → pos < s.tail →
    (∃! p, ∃ r, (s.push p).Writes r pos) ∨ s.Published cap pos ∨ s.pop = .advance pos
  /-- from its publication to its pop a slot keeps what it holds -/
  kept : ∀ e t, RingStep cap limit s e t → ∀ pos, s.head ≤ pos → pos < s.tail → s.Published cap pos →
    t.data (pos % cap) = s.data (pos % cap) ∧ (t.Published cap pos ∨ t.pop = .advance pos)
  /-- what is published at the head is what the next `result_pop` returns -/
  next : s.pop = .idle → s.head < s.tail → (∀ p r, ¬(s.push p).Writes r s.head) →
    ∃ n, ((RingState.popStep cap)^[n] { s with pop := .loadTail }).popped = s.claimed.take (s.head + 1)
  unbroken : s.seqBroken = 0

variable {cap : Nat} {s t : RingState π UInt8 24}

theorem delivered {limit : Result → Nat} (h : RingInv cap limit s) : Delivered cap limit s where
  popped := h.taken
  positions := ⟨h.length, h.le⟩
  slots pos hge hlt := by
    rcases h.used pos hge hlt with ⟨p, r, hp⟩ | hrest
    · exact .inl ⟨p, ⟨r, hp⟩, fun q ⟨r', hq⟩ => h.alone q p r' r pos hq hp⟩
    · exact .inr hrest
  kept _ _ hs _ := h.step_published hs
  next := h.pop_next
  unbroken := h.unbroken

/-! ## Answers and their room -/

theorem tail_le_of_owed {reserve : Nat} (hcap : reserve < cap) (h : RingInv cap (resultLimit cap (some reserve)) s) :
    s.tail ≤ s.head + (cap - reserve) + (s.claimed.drop s.head).countP (fun r => decide (IsAnswer r)) := by
  have hall : ∀ r ∈ s.claimed.drop (s.head + (cap - reserve)), decide (IsAnswer r) = true := by
    intro r hr
    obtain ⟨i, hi, hir⟩ := getElem_of_mem hr
    have hget : s.claimed[s.head + (cap - reserve) + i]? = some r := by
      rw [← getElem?_drop, getElem?_eq_getElem hi, hir]
    by_contra hans
    have hheld := h.held _ r hget
    rw [resultLimit_event hcap (by simpa using hans)] at hheld
    omega
  have hcount := countP_eq_length.mpr hall
  have hsub : (s.claimed.drop (s.head + (cap - reserve))).Sublist (s.claimed.drop s.head) := by
    rw [← drop_drop]
    exact drop_sublist _ _
  have hle := hsub.countP_le (p := fun r => decide (IsAnswer r))
  rw [hcount, length_drop, h.length] at hle
  omega

/-- The head an answer's push has loaded is the head; no answer was refused. -/
structure Fresh (s : RingState π UInt8 24) : Prop where
  loaded : ∀ p r head, s.push p = .loadTail r head → IsAnswer r → head = s.head
  kept : ∀ r ∈ s.dropped, ¬IsAnswer r

theorem Fresh.goto (h : Fresh s) {p : π} {pc : PushPc Result}
    (ht : t.push = Function.update s.push p pc) (hhead : t.head = s.head) (hdropped : t.dropped = s.dropped)
    (hpc : ∀ r head, pc = .loadTail r head → IsAnswer r → head = s.head) : Fresh t where
  loaded q r head hq hr := by
    rw [hhead]
    by_cases hqp : q = p
    · rw [ht, hqp, Function.update_self] at hq
      exact hpc r head hq hr
    · rw [ht, Function.update_of_ne hqp] at hq
      exact h.loaded q r head hq hr
  kept := by
    rw [hdropped]
    exact h.kept

theorem Fresh.room (h : Fresh s) {reserve : Nat} (hcap : reserve < cap)
    (hinv : RingInv cap (resultLimit cap (some reserve)) s) (howed : AtMostOwed reserve s) {p : π} {r : Result}
    {head : Nat} (hp : s.push p = .loadTail r head) (hr : IsAnswer r) : u64 (s.tail + 2 ^ 64 - head) < cap := by
  obtain rfl := h.loaded p r head hp hr
  have hone := howed [p] (nodup_singleton p) fun q hq => by
    rw [mem_singleton] at hq
    exact ⟨r, hr, .inr (.inl ⟨s.head, by rw [hq, hp]⟩)⟩
  have htail := tail_le_of_owed hcap hinv
  have hle := hinv.le
  have hb := hinv.bound
  simp only [length_singleton] at hone
  unfold u64
  omega

theorem Fresh.pushStep (h : Fresh s) {reserve : Nat} (hcap : reserve < cap)
    (hinv : RingInv cap (resultLimit cap (some reserve)) s) (howed : AtMostOwed reserve s) (p : π) (weak : Bool) :
    Fresh (s.pushStep cap (resultLimit cap (some reserve)) p weak) := by
  unfold RingState.pushStep
  split
  · exact h
  · refine h.goto rfl rfl rfl fun r head hpc _ => ?_
    cases hpc
    rfl
  · rename_i r head hp
    split
    · rename_i hfull
      have hnot : ¬IsAnswer r := by
        intro hr
        have := h.room hcap hinv howed hp hr
        rw [resultLimit_answer hr] at hfull
        omega
      have hgo : Fresh (s.goto p (.returned false)) := h.goto rfl rfl rfl nofun
      refine ⟨hgo.loaded, fun r' hr' => ?_⟩
      rcases mem_append.mp hr' with hr' | hr'
      · exact h.kept r' hr'
      · rw [mem_singleton] at hr'
        rwa [hr']
    · exact h.goto rfl rfl rfl nofun
  · split <;> exact h.goto rfl rfl rfl nofun
  · exact h.goto rfl rfl rfl nofun
  · split <;> exact h.goto rfl rfl rfl nofun

theorem Fresh.popStep (h : Fresh s) (hquiet : Undisturbed s .pop) : Fresh (s.popStep cap) := by
  unfold RingState.popStep
  split
  · exact h
  · exact ⟨h.loaded, h.kept⟩
  · exact ⟨h.loaded, h.kept⟩
  · exact ⟨h.loaded, h.kept⟩
  · split <;> exact ⟨h.loaded, h.kept⟩
  · rename_i pos hp
    refine ⟨fun p r head hl hr => ?_, h.kept⟩
    exact absurd hr (hquiet.2 rfl pos hp p r head hl)

theorem Fresh.step (h : Fresh s) {reserve : Nat} (hcap : reserve < cap)
    (hinv : RingInv cap (resultLimit cap (some reserve)) s) (howed : AtMostOwed reserve s) {e : RingEvent π UInt8 24}
    (hquiet : Undisturbed s e) (hs : RingStep cap (resultLimit cap (some reserve)) s e t) : Fresh t := by
  cases hs with
  | begin p r ok hp => exact h.goto rfl rfl rfl nofun
  | push p weak => exact h.pushStep hcap hinv howed p weak
  | beginPop hp => exact ⟨h.loaded, h.kept⟩
  | pop => exact h.popStep hquiet

/-! ## Every run -/

theorem run_inv {limit : Result → Nat} (hlimit : ∀ r, limit r ≤ cap)
    {C : RingState π UInt8 24 → RingEvent π UInt8 24 → Prop} (hC : ∀ s e, C s e → Undisturbed s e)
    {es : List (RingEvent π UInt8 24)} (run : RingRun cap limit C s es t) (h : RingInv cap limit s) :
    RingInv cap limit t := by
  exact run.invariant (fun _ _ _ hc hs hinv => hinv.step hlimit (hC _ _ hc).1 hs) h

theorem run_fresh {reserve : Nat} (hcap : reserve < cap) {C : RingState π UInt8 24 → RingEvent π UInt8 24 → Prop}
    (hC : ∀ s e, C s e → Undisturbed s e) (howed : ∀ s e, C s e → AtMostOwed reserve s)
    {es : List (RingEvent π UInt8 24)} (run : RingRun cap (resultLimit cap (some reserve)) C s es t)
    (h : RingInv cap (resultLimit cap (some reserve)) s) (hf : Fresh s) : Fresh t := by
  have hpos : 0 < cap := by omega
  have hboth := run.invariant (P := fun u => RingInv cap (resultLimit cap (some reserve)) u ∧ Fresh u)
    (fun _ _ _ hc hs hinv => ⟨hinv.1.step (resultLimit_le hpos _) (hC _ _ hc).1 hs,
      hinv.2.step hcap hinv.1 (howed _ _ hc) (hC _ _ hc) hs⟩) ⟨h, hf⟩
  exact hboth.2

/-- The reply ring delivers every claimed result exactly once and in order, and refuses no answer. -/
theorem result_ring_exact (hcap : 0 < cap) (pocket : Option Nat) (data : Nat → Result) (out : Result)
    {C : RingState π UInt8 24 → RingEvent π UInt8 24 → Prop} (hC : ∀ s e, C s e → Undisturbed s e)
    {es : List (RingEvent π UInt8 24)} (run : RingRun cap (resultLimit cap pocket) C (ringInit data out) es s) :
    Delivered cap (resultLimit cap pocket) s ∧ ∀ slots, pocket = some slots → slots < cap →
    (∀ s e, C s e → AtMostOwed slots s) → ∀ r ∈ s.dropped, ¬IsAnswer r := by
  have hinit : RingInv cap (resultLimit cap pocket) (ringInit data out : RingState π UInt8 24) :=
    ringInit_inv data out
  refine ⟨delivered (run_inv (resultLimit_le hcap pocket) hC run hinit), ?_⟩
  rintro slots rfl hslots howed
  have hfresh : Fresh (ringInit data out : RingState π UInt8 24) :=
    ⟨nofun, nofun⟩
  exact (run_fresh hslots hC howed run hinit hfresh).kept

/-! ## Runs that can be computed -/

def PushPc.pendingAnswer : PushPc Result → Bool
  | .loadHead r => decide (IsAnswer r)
  | .loadTail r _ => decide (IsAnswer r)
  | .claim r _ => decide (IsAnswer r)
  | _ => false

theorem PushPc.Pending.pendingAnswer {pc : PushPc Result} {r : Result} (h : pc.Pending r) (hr : IsAnswer r) :
    pc.pendingAnswer = true := by
  rcases h with rfl | ⟨head, rfl⟩ | ⟨pos, rfl⟩ <;> exact decide_eq_true hr

/-- Producer `false` alone pushes answers, and no more than one waits. -/
def oneOwed (s : RingState Bool UInt8 24) : Bool :=
  !(s.push true).pendingAnswer &&
    decide ((s.push false).pendingAnswer.toNat + (s.claimed.drop s.head).countP (fun r => decide (IsAnswer r)) ≤ 1)

theorem atMostOwed_of_oneOwed {s : RingState Bool UInt8 24} (h : oneOwed s = true) : AtMostOwed 1 s := by
  simp only [oneOwed, Bool.and_eq_true, Bool.not_eq_true', decide_eq_true_eq] at h
  obtain ⟨htrue, hle⟩ := h
  intro ps hnodup hps
  have hsub : ps ⊆ [false] := by
    intro p hp
    obtain ⟨r, hr, hpending⟩ := hps p hp
    cases p with
    | false => simp
    | true => cases htrue.symm.trans (hpending.pendingAnswer hr)
  have hlen := (subperm_of_subset hnodup hsub).length_le
  cases ps with
  | nil =>
    simp only [length_nil]
    omega
  | cons p ps =>
    obtain ⟨r, hr, hpending⟩ := hps p mem_cons_self
    obtain rfl := mem_singleton.mp (hsub mem_cons_self)
    rw [hpending.pendingAnswer hr] at hle
    simp only [length_singleton, Bool.toNat_true] at hlen hle
    omega

/-- A step at which the claim's conditions hold, for two producers. -/
def calm (s : RingState Bool UInt8 24) (e : RingEvent Bool UInt8 24) : Bool :=
  oneOwed s && decide (s.tail + 1 < 2 ^ 64) &&
    match e, s.pop with
    | .pop, .advance _ => !(s.push false).pendingAnswer
    | _, _ => true

theorem undisturbed_of_calm {s : RingState Bool UInt8 24} {e : RingEvent Bool UInt8 24} (h : calm s e = true) :
    Undisturbed s e ∧ AtMostOwed 1 s := by
  simp only [calm, Bool.and_eq_true, decide_eq_true_eq] at h
  obtain ⟨⟨howed, hb⟩, hpop⟩ := h
  refine ⟨⟨hb, ?_⟩, atMostOwed_of_oneOwed howed⟩
  rintro rfl pos hadv p r head hp hr
  have hpending : (s.push p).pendingAnswer = true :=
    PushPc.Pending.pendingAnswer (.inr (.inl ⟨head, hp⟩)) hr
  cases p with
  | false => simp [hadv, hpending] at hpop
  | true => simp [oneOwed, hpending] at howed

/-- A whole push by `p`. -/
def pushes (p : Bool) (r : Result) : List (RingEvent Bool UInt8 24) :=
  .begin p r :: replicate 29 (.push p false)

/-- A whole `result_pop`. -/
def pops : List (RingEvent Bool UInt8 24) :=
  .beginPop :: replicate 29 .pop

theorem result_ring_exact_two : ∃ s : RingState Bool UInt8 24,
    Delivered 2 (resultLimit 2 (some 1)) s ∧ s.popped = [fun _ => 0, fun _ => 1] ∧ ∀ r ∈ s.dropped, ¬IsAnswer r := by
  obtain ⟨s, run, hpopped⟩ : ∃ s, RingRun 2 (resultLimit 2 (some 1)) (fun s e => Undisturbed s e ∧ AtMostOwed 1 s)
      (ringInit (fun _ _ => 0) fun _ => 0) (pushes true (fun _ => 0) ++ pops ++ pushes false (fun _ => 1) ++ pops) s ∧
        s.popped = [fun _ => 0, fun _ => 1] :=
    Lib.exec_reaches calm RingState.next_step undisturbed_of_calm (by decide +kernel)
  obtain ⟨hdel, hkept⟩ := result_ring_exact (by decide) (some 1) (fun _ _ => 0) (fun _ => 0)
    (C := fun s e => Undisturbed s e ∧ AtMostOwed 1 s) (fun _ _ h => h.1) run
  exact ⟨s, hdel, hpopped, hkept 1 rfl (by decide) fun _ _ h => h.2⟩

/-- An answer is refused while the ring is empty: two events came and went between the two loads of its push. -/
theorem answer_refused_empty : ∃ (es : List (RingEvent Bool UInt8 24)) (s : RingState Bool UInt8 24),
    RingRun 2 (resultLimit 2 (some 1)) (fun s _ => AtMostOwed 1 s) (ringInit (fun _ _ => 0) fun _ => 0) es s ∧
      s.head = s.tail ∧ ∃ r ∈ s.dropped, IsAnswer r :=
  ⟨.begin false (fun _ => 1) :: .push false false ::
    (pushes true (fun _ => 0) ++ pops ++ pushes true (fun _ => 0) ++ pops ++ [.push false false]),
    Lib.exec_reaches (fun s _ => oneOwed s) RingState.next_step atMostOwed_of_oneOwed (by decide +kernel)⟩

end

end BoxOS.Ipc
