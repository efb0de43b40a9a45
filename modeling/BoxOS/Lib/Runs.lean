import Mathlib.Data.List.Basic

/-! # Runs of a labelled transition relation

`Run step C` is a run of `step` whose every step meets the condition `C`. An invariant that every such step keeps holds
of every state such a run reaches. Where the steps can be computed, `exec` computes a run. -/

namespace Lib

variable {σ ε : Type*} {step : σ → ε → σ → Prop} {C D : σ → ε → Prop} {s t : σ} {es : List ε}

/-- A run whose every step meets `C`. -/
inductive Run (step : σ → ε → σ → Prop) (C : σ → ε → Prop) : σ → List ε → σ → Prop
  | nil (s : σ) : Run step C s [] s
  | cons {s t u : σ} {e : ε} {es : List ε} : C s e → step s e t → Run step C t es u → Run step C s (e :: es) u

namespace Run

theorem invariant {P : σ → Prop} (run : Run step C s es t) (hstep : ∀ s e t, C s e → step s e t → P s → P t)
    (h : P s) : P t := by
  induction run with
  | nil s => exact h
  | cons hc hs _ ih => exact ih (hstep _ _ _ hc hs h)

theorem imp (run : Run step C s es t) (h : ∀ s e, C s e → D s e) : Run step D s es t := by
  induction run with
  | nil s => exact .nil s
  | cons hc hs _ ih => exact .cons (h _ _ hc) hs ih

theorem simulates {τ : Type*} {step' : τ → ε → τ → Prop} {f : σ → τ} {P : σ → Prop} (run : Run step C s es t)
    (hstep : ∀ s e t, P s → C s e → step s e t → P t ∧ step' (f s) e (f t)) (h : P s) :
    P t ∧ Run step' (fun _ _ => True) (f s) es (f t) := by
  induction run with
  | nil s => exact ⟨h, .nil _⟩
  | cons hc hs _ ih =>
    obtain ⟨hmid, habs⟩ := hstep _ _ _ h hc hs
    obtain ⟨hend, hrest⟩ := ih hmid
    exact ⟨hend, .cons trivial habs hrest⟩

end Run

/-- Computes the run of a list of events that are possible and pass a test. -/
def exec (next : σ → ε → Option σ) (ok : σ → ε → Bool) : σ → List ε → Option σ
  | s, [] => some s
  | s, e :: es => if ok s e then (next s e).bind fun t => exec next ok t es else none

theorem exec_run {next : σ → ε → Option σ} {ok : σ → ε → Bool} (hnext : ∀ {s e t}, next s e = some t → step s e t)
    (hok : ∀ {s e}, ok s e = true → C s e) (h : exec next ok s es = some t) : Run step C s es t := by
  induction es generalizing s with
  | nil =>
    cases h
    exact .nil _
  | cons e es ih =>
    simp only [exec] at h
    split at h
    · rename_i he
      obtain ⟨u, hu, hrest⟩ := Option.bind_eq_some_iff.mp h
      exact .cons (hok he) (hnext hu) (ih hrest)
    · cases h

instance decidableSome {α : Type*} (o : Option α) (p : α → Prop) [DecidablePred p] :
    Decidable (∃ a, o = some a ∧ p a) :=
  inferInstanceAs (Decidable (∃ a ∈ o, p a))

/-- A computed run that ends as it should, by a test of the steps. -/
theorem exec_reaches {next : σ → ε → Option σ} (ok : σ → ε → Bool) {P : σ → Prop} [DecidablePred P]
    (hnext : ∀ {s e t}, next s e = some t → step s e t) (hok : ∀ {s e}, ok s e = true → C s e)
    (h : (exec next ok s es).any (fun t => decide (P t)) = true) : ∃ t, Run step C s es t ∧ P t := by
  obtain ⟨t, ht, hP⟩ := (Option.any_eq_true _ _).mp h
  exact ⟨t, exec_run hnext hok ht, of_decide_eq_true hP⟩

/-- The steps meet a condition that can be decided. -/
theorem run_reaches {next : σ → ε → Option σ} [∀ s e, Decidable (C s e)] {P : σ → Prop} [DecidablePred P]
    (hnext : ∀ {s e t}, next s e = some t → step s e t)
    (h : (exec next (fun s e => decide (C s e)) s es).any (fun t => decide (P t)) = true) :
    ∃ t, Run step C s es t ∧ P t :=
  exec_reaches _ hnext of_decide_eq_true h

end Lib
