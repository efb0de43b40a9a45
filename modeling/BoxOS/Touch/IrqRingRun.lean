import BoxOS.Touch.IrqRingInv

/-!
# Every interrupt event is delivered whole or counted lost

`irq_ring_exact` is about every run of producers and one consumer in which no producer is overtaken by a whole ring. A
producer that is overtaken goes on storing its fields over those of the later event in its slot; generation and `done`
mark are then those of the later event, and the consumer takes over a mixture (`irq_event_torn`).
-/

set_option linter.unusedSectionVars false

namespace BoxOS.Touch

open List IrqState

section

variable {π : Type} [DecidableEq π]

/-! ## The consumer alone -/

/-- No producer is between its claim and its `done` mark, and the consumer will stop at the last claim only. -/
structure Alone (s : IrqState π) : Prop where
  inv : IrqInv s
  finished : ∀ raw, ¬s.Busy raw
  near : s.claimed < s.read + 2 ^ 31
  phase : match s.serve with
    | .idle => s.read = s.claimed
    | .load => True
    | .copy k => k ≤ irqCells ∧ s.read < s.claimed ∧ s.claimed ≤ s.read + irqRingSize
    | _ => s.read < s.claimed ∧ s.claimed ≤ s.read + irqRingSize

/-- How many steps the consumer has at most before it. -/
def IrqState.stepsLeft (s : IrqState π) : Nat :=
  (s.claimed - s.read) * (irqCells + 10) + match s.serve with
    | .idle => 0
    | .load => irqCells + 5
    | .checkGen => irqCells + 4
    | .checkDone => irqCells + 3
    | .copy k => irqCells + 2 - k

variable {s : IrqState π}

/-- One step of the consumer alone: it goes on as long as it has not read the last claim. -/
theorem Alone.step (h : Alone s) (hserve : s.serve ≠ .idle) :
    Alone s.serveStep ∧ s.serveStep.stepsLeft < s.stepsLeft := by
  have hinv := h.inv.serveStep h.near
  have hle := h.inv.le
  have hnear := h.near
  have hphase := h.phase
  have hcells : irqCells = 70 := rfl
  have hsize : irqRingSize = 64 := rfl
  -- the slot of a position of the last round holds its event
  have hset : s.read < s.claimed → s.claimed ≤ s.read + irqRingSize → s.Settled s.read := fun hlt hlast =>
    h.inv.settled s.read hlt hlast (h.finished s.read)
  cases hs : s.serve with
  | idle => exact absurd hs hserve
  | load =>
    have hlag : u32 (u32 s.claimed + 2 ^ 32 - u32 s.read) = s.claimed - s.read := by
      unfold u32
      omega
    simp only [serveStep, hs, hlag] at hinv ⊢
    split
    · rename_i heq
      rw [if_pos heq] at hinv
      have heq' : s.read = s.claimed := by
        unfold u32 at heq
        omega
      refine ⟨⟨hinv, h.finished, hnear, heq'⟩, ?_⟩
      simp only [stepsLeft, hs]
      omega
    rename_i hne
    rw [if_neg hne] at hinv
    have hne' : s.read ≠ s.claimed := fun heq => hne (by rw [heq])
    split
    · rename_i hover
      rw [if_pos hover] at hinv
      refine ⟨⟨hinv, h.finished, ?_, ?_⟩, ?_⟩
      · change s.claimed < s.read + (s.claimed - s.read - irqRingSize) + 2 ^ 31
        omega
      · change s.read + (s.claimed - s.read - irqRingSize) < s.claimed ∧
          s.claimed ≤ s.read + (s.claimed - s.read - irqRingSize) + irqRingSize
        omega
      · simp only [stepsLeft, hs]
        have hmul : (s.claimed - (s.read + (s.claimed - s.read - irqRingSize))) * (irqCells + 10) ≤
            (s.claimed - s.read) * (irqCells + 10) := Nat.mul_le_mul_right _ (by omega)
        omega
    · rename_i hover
      rw [if_neg hover] at hinv
      refine ⟨⟨hinv, h.finished, hnear, ?_⟩, ?_⟩
      · change s.read < s.claimed ∧ s.claimed ≤ s.read + irqRingSize
        omega
      · simp only [stepsLeft, hs]
        omega
  | checkGen =>
    simp only [hs] at hphase
    have hgen := (hset hphase.1 hphase.2).gen
    simp only [serveStep, hs, hgen, if_true] at hinv ⊢
    refine ⟨⟨hinv, h.finished, hnear, hphase⟩, ?_⟩
    simp only [stepsLeft, hs]
    omega
  | checkDone =>
    simp only [hs] at hphase
    have hdone := (hset hphase.1 hphase.2).done
    simp only [serveStep, hs, hdone, if_true] at hinv ⊢
    refine ⟨⟨hinv, h.finished, hnear, ⟨Nat.zero_le _, hphase⟩⟩, ?_⟩
    simp only [stepsLeft, hs]
    omega
  | copy k =>
    simp only [hs] at hphase
    have hgen := (hset hphase.2.1 hphase.2.2).gen
    simp only [serveStep, hs, hgen, if_true] at hinv ⊢
    split
    · rename_i hk
      rw [if_pos hk] at hinv
      refine ⟨⟨hinv, h.finished, hnear, ⟨hk, hphase.2⟩⟩, ?_⟩
      simp only [stepsLeft, hs]
      omega
    rename_i hk
    rw [if_neg hk] at hinv
    refine ⟨⟨hinv, h.finished, ?_, trivial⟩, ?_⟩
    · change s.claimed < s.read + 1 + 2 ^ 31
      omega
    · simp only [stepsLeft, hs]
      have hmul : (s.claimed - s.read) * (irqCells + 10) =
          (s.claimed - (s.read + 1)) * (irqCells + 10) + (irqCells + 10) := by
        rw [← Nat.succ_mul]
        congr 1
        omega
      omega

theorem serveStep_idle (h : s.serve = .idle) : s.serveStep = s := by
  simp only [serveStep, h]

theorem Alone.steps (h : Alone s) (n : Nat) : Alone (serveStep^[n] s) := by
  induction n generalizing s with
  | zero => exact h
  | succ n ih =>
    rw [Function.iterate_succ_apply]
    by_cases hs : s.serve = .idle
    · rw [serveStep_idle hs]
      exact ih h
    · exact ih (h.step hs).1

theorem Alone.stops (n : Nat) : ∀ {s : IrqState π}, Alone s → s.stepsLeft ≤ n →
    ∃ n, (serveStep^[n] s).serve = .idle := by
  induction n with
  | zero =>
    intro s h hn
    by_cases hs : s.serve = .idle
    · exact ⟨0, hs⟩
    · have := (h.step hs).2
      omega
  | succ n ih =>
    intro s h hn
    by_cases hs : s.serve = .idle
    · exact ⟨0, hs⟩
    · obtain ⟨halone, hless⟩ := h.step hs
      obtain ⟨m, hm⟩ := ih halone (by omega)
      exact ⟨m + 1, hm⟩

/-! ## Every run -/

structure IrqOk (s : IrqState π) : Prop where
  /-- what is delivered are published events, whole, none twice and in the order of the claims -/
  delivered : ∃ at_ : List Nat, at_.Pairwise (· < ·) ∧ (∀ i ∈ at_, i < s.claimed) ∧
    s.delivered.map some = at_.map (fun i => s.published[i]?.map (·.toIrqFields))
  claims : s.published.length = s.claimed
  account : s.delivered.length + s.lost + (s.claimed - s.read) = s.claimed
  /-- once the producers have finished the consumer stops, and only at the last claim -/
  drained : s.serve = .idle → (∀ raw, ¬s.Busy raw) → s.claimed < s.read + 2 ^ 31 →
    (∃ n, (serveStep^[n] { s with serve := .load }).serve = .idle) ∧
    ∀ n, (serveStep^[n] { s with serve := .load }).serve = .idle →
      (serveStep^[n] { s with serve := .load }).read = (serveStep^[n] { s with serve := .load }).claimed

theorem irqOk (h : IrqInv s) : IrqOk s where
  delivered := by
    obtain ⟨at_, hsorted, hat, hmap, -⟩ := h.booked
    exact ⟨at_, hsorted, fun i hi => (hat i hi).trans_le h.le, hmap⟩
  claims := h.length
  account := by
    obtain ⟨at_, -, -, hmap, hlen⟩ := h.booked
    have := congrArg List.length hmap
    have hle := h.le
    rw [length_map, length_map] at this
    omega
  drained hserve hfinished hnear := by
    have hstart : Alone { s with serve := .load } :=
      ⟨h.served rfl rfl rfl rfl rfl rfl h.le trivial h.booked, hfinished, hnear, trivial⟩
    refine ⟨hstart.stops _ le_rfl, fun n hn => ?_⟩
    have := (hstart.steps n).phase
    rwa [hn] at this

/-- The interrupt ring delivers no torn event and accounts for every one. -/
theorem irq_ring_exact (data : Nat → Nat → Nat) (copy : Nat → Nat) {es : List (IrqStepEvent π)} {s : IrqState π}
    (run : Lib.Run IrqStep Punctual (irqInit data copy) es s) : IrqOk s :=
  irqOk (run.invariant (fun _ _ _ hp hs h => h.step hp hs) (irqInit_inv data copy))

end

theorem punctual_of_raw {s : IrqState Bool} {e : IrqStepEvent Bool} (h : decide (s.claimed < s.read + 2 ^ 31 ∧
    (irqRingSize ≤ s.claimed → ∀ p, (s.push p).raw ≠ some (s.claimed - irqRingSize))) = true) : Punctual s e :=
  ⟨(of_decide_eq_true h).1, fun _ _ _ _ hge ⟨p, hp⟩ => (of_decide_eq_true h).2 hge p hp⟩

/-- A producer publishes an event of a tag. -/
def publishes (p : Bool) (tag : Nat) : List (IrqStepEvent Bool) := .publish p tag 2 [7] 3 4 :: replicate 10 (.push p)

/-- Producer `false` claims the first position and the other one those behind it; then both go around the ring. -/
def twoProducers : List (IrqStepEvent Bool) :=
  [.publish false 1 2 [7] 3 4, .push false] ++ (List.range 62).flatMap (publishes true) ++ replicate 9 (.push false) ++
    [7, 8].flatMap (publishes true) ++ publishes false 9

/-- Two events are overwritten before the consumer comes; the next one is delivered. -/
theorem irq_ring_exact_two : ∃ s : IrqState Bool, IrqOk s ∧ s.claimed = 66 ∧ s.lost = 2 ∧
    s.delivered = [⟨1, 2, 4, 1, 0, 3, [7]⟩] := by
  obtain ⟨s, run, hend⟩ : ∃ s, Lib.Run IrqStep Punctual (irqInit (fun _ _ => 0) fun _ => 0)
      (twoProducers ++ .beginServe :: replicate 74 .serve) s ∧ s.claimed = 66 ∧ s.lost = 2 ∧
        s.delivered = [⟨1, 2, 4, 1, 0, 3, [7]⟩] :=
    Lib.exec_reaches _ next_step punctual_of_raw (by decide +kernel)
  exact ⟨s, irq_ring_exact _ _ run, hend⟩

/-- Producer `i` publishes an event of tag `tag` and claims its position. -/
def claims (tag i : Nat) : List (IrqStepEvent Nat) := [.publish i tag tag [] 0 0, .push i]

/-- Producer `0` is overtaken by producer `64` between two of its stores: its later stores fall into the event of
producer `64`, and what is delivered was published by nobody. -/
theorem irq_event_torn : ∃ (es : List (IrqStepEvent Nat)) (s : IrqState Nat),
    Lib.Run IrqStep (fun _ _ => True) (irqInit (fun _ _ => 0) fun _ => 0) es s ∧
    ∃ d ∈ s.delivered, ∀ e ∈ s.published, e.toIrqFields ≠ d :=
  ⟨claims 1 0 ++ replicate 2 (.push 0) ++ ((List.range 63).map (· + 1)).flatMap (claims 1) ++
    claims 2 64 ++ replicate 7 (.push 64) ++ replicate 5 (.push 0) ++ [.push 64] ++
    ((List.range 63).map (· + 65)).flatMap (claims 1) ++ .beginServe :: replicate 74 .serve,
    Lib.run_reaches next_step (by decide +kernel)⟩

end BoxOS.Touch
