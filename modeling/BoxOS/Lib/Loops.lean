import Mathlib.Data.List.Basic

/-! # Loops over a list

What a loop `l.foldl f s` keeps, and what it settles: where every round settles what its element stands for, and no
round undoes what another has settled, the loop settles what all elements stand for. -/

namespace Lib

variable {σ ι κ α : Type*} {f : σ → ι → σ} {s : σ}

theorem foldl_keeps (g : σ → α) (h : ∀ s i, g (f s i) = g s) (l : List ι) (s : σ) : g (l.foldl f s) = g s := by
  induction l generalizing s with
  | nil => rfl
  | cons i l ih => exact (ih (f s i)).trans (h s i)

theorem foldl_settles {G : σ → Prop} {A : σ → σ → Prop} {C : σ → ι → κ → Prop} {D : σ → κ → Prop} (refl : ∀ s, A s s)
    (trans : ∀ {s t u}, A s t → A t u → A s u) (hstep : ∀ {s}, G s → ∀ i, G (f s i) ∧ A s (f s i))
    (hset : ∀ {s}, G s → ∀ i x, C s i x → D (f s i) x) (hcond : ∀ {s t}, A s t → ∀ i x, C s i x → C t i x)
    (hdone : ∀ {s t}, A s t → ∀ x, D s x → D t x) (l : List ι) (h : G s) :
    G (l.foldl f s) ∧ A s (l.foldl f s) ∧ ∀ i ∈ l, ∀ x, C s i x → D (l.foldl f s) x := by
  induction l generalizing s with
  | nil => exact ⟨h, refl s, nofun⟩
  | cons j l ih =>
    obtain ⟨hgood, hadj⟩ := hstep h j
    obtain ⟨hgood', hadj', hall⟩ := ih hgood
    refine ⟨hgood', trans hadj hadj', fun i hi x hc => ?_⟩
    rcases List.mem_cons.mp hi with rfl | hi
    · exact hdone hadj' x (hset h i x hc)
    · exact hall i hi x (hcond hadj i x hc)

end Lib
