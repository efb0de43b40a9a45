import BoxOS.Touch.OwedInv

/-!
# Delivery to a resting subscriber

`touch_owed_exact` is about every run of publishers, hand-overs, releases and pops whose steps are orderly. Where a
release meets a draining thread that holds a node, the count is set to zero under that thread and then counted down
(`release_wraps_count`).
-/

namespace BoxOS.Touch

open Ipc List
open scoped List

variable {τ ε : Type} [DecidableEq τ]

/-- Every publish is accounted for, and those of one publisher arrive in order. -/
structure OwedOk (cap : Nat) (s : OwedState τ ε) : Prop where
  /-- the list and the node in hand, and never below zero -/
  count : s.count = s.owed.length + s.holds ∧ s.count ≤ cap
  /-- the `nth` publish of `t` is in one place: the ring, the hand-over, the list, `t` itself, thrown away or dropped -/
  places : ∀ t, nths t s.delivered ++ nths t s.held ++ nths t s.owed ++ nths t (s.own t) ++ nths t s.released ++
    nths t (s.dropped.map (·.1)) ~ List.range (s.sent t)
  settled : ∀ t, s.pc t = .idle → s.own t = []
  dropped : ∀ d ∈ s.dropped, d.2 = (true, true)
  arrived : s.ring.popped = s.ring.claimed.take s.ring.head
  order : ∀ t, (nths t s.delivered).Pairwise (· < ·)

theorem owedOk {cap : Nat} {s : OwedState τ ε} (h : OwedInv cap s) : OwedOk cap s where
  count := ⟨h.count, h.bound⟩
  places t := by
    have := h.places t
    simp only [OwedState.line, OwedState.gone, nths_append, ← append_assoc] at this
    exact this
  settled t ht := by
    rw [OwedState.own, ht]
    rfl
  dropped := h.dropped
  arrived := h.ring.taken
  order t := by
    have := h.order t
    rw [OwedState.line, nths_append, append_assoc] at this
    exact this.sublist (sublist_append_left _ _)

/-- Touch delivery to a resting subscriber is ordered and accounted for. -/
theorem touch_owed_exact {cap : Nat} (hcap : cap < 2 ^ 32) (data : Nat → Fin 1 → Publish τ ε)
    (out : Fin 1 → Publish τ ε) {es : List (OwedEvent τ ε)} {s : OwedState τ ε}
    (run : OwedRun cap (fun s e => s.orderly cap e) (owedInit data out) es s) : OwedOk cap s :=
  owedOk (run.invariant (fun _ _ _ ho hs h => h.next hcap ho hs) (owedInit_inv data out))

/-! ## Two threads -/

/-- A publish that goes to the ring, one that is owed, and the pop of the first. -/
def oneOwedRun : List (OwedEvent Bool Unit) :=
  .publish false () :: replicate 9 (.step false false true) ++
    .publish false () :: replicate 7 (.step false false true) ++ .beginPop :: replicate 6 .pop

def firstState : OwedState Bool Unit := owedInit (fun _ _ => ⟨false, 0, ()⟩) fun _ => ⟨false, 0, ()⟩

theorem touch_owed_exact_two : ∃ s : OwedState Bool Unit, OwedOk 1 s ∧ nths false s.delivered = [0, 1] := by
  obtain ⟨s, run, hdelivered⟩ : ∃ s, OwedRun 1 (fun s e => s.orderly 1 e) firstState
      (oneOwedRun ++ .handOver true :: replicate 13 (.step true false true)) s ∧ nths false s.delivered = [0, 1] :=
    Lib.run_reaches OwedState.next_step (by decide +kernel)
  exact ⟨s, touch_owed_exact (by decide) _ _ run, hdelivered⟩

/-- A release under a draining thread that holds a node: the count wraps below zero. -/
theorem release_wraps_count : ∃ (es : List (OwedEvent Bool Unit)) (s : OwedState Bool Unit),
    OwedRun 1 (fun _ _ => True) firstState es s ∧ s.count = 2 ^ 32 - 1 ∧ s.owed = [] ∧ s.holds = 0 :=
  ⟨oneOwedRun ++ .handOver true :: replicate 3 (.step true false true) ++
    .release :: replicate 8 (.step true false true), Lib.run_reaches OwedState.next_step (by decide +kernel)⟩

end BoxOS.Touch
