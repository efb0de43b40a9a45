import Mathlib.Data.List.Basic

/-! # Neighbours in a list

`Adj l a b`: somewhere in `l`, `b` comes right after `a`. A linked list whose links are set one at a time is described
by the list of its nodes and what holds of each pair of neighbours. -/

set_option autoImplicit false
namespace Lib

open List

variable {α : Type}

/-- `b` follows `a` in the list. -/
def Adj : List α → α → α → Prop
  | x :: y :: l, a, b => (x = a ∧ y = b) ∨ Adj (y :: l) a b
  | _, _, _ => False

variable {a b : α} {l : List α}

theorem adj_cons_cons {x y : α} : Adj (x :: y :: l) a b ↔ (x = a ∧ y = b) ∨ Adj (y :: l) a b :=
  Iff.rfl

theorem Adj.cons (h : Adj l a b) (x : α) : Adj (x :: l) a b := by
  cases l with
  | nil => exact h.elim
  | cons y l => exact .inr h

theorem Adj.mem_left (h : Adj l a b) : a ∈ l := by
  induction l with
  | nil => exact h.elim
  | cons x l ih =>
    cases l with
    | nil => exact h.elim
    | cons y l =>
      rcases h with ⟨rfl, -⟩ | h
      · exact mem_cons_self
      · exact mem_cons_of_mem _ (ih h)

theorem Adj.mem_tail (h : Adj l a b) : b ∈ l.tail := by
  induction l with
  | nil => exact h.elim
  | cons x l ih =>
    cases l with
    | nil => exact h.elim
    | cons y l =>
      rcases h with ⟨-, rfl⟩ | h
      · exact mem_cons_self
      · exact mem_of_mem_tail (ih h)

theorem Adj.mem_right (h : Adj l a b) : b ∈ l :=
  mem_of_mem_tail h.mem_tail

theorem adj_append_singleton {x : α} : Adj (l ++ [x]) a b ↔ Adj l a b ∨ (l.getLast? = some a ∧ x = b) := by
  induction l with
  | nil => simp [Adj]
  | cons y l ih =>
    cases l with
    | nil => simp [Adj]
    | cons z l =>
      rw [cons_append, cons_append, adj_cons_cons, adj_cons_cons, ← cons_append, ih, getLast?_cons_cons,
        or_assoc]

theorem Adj.ne_last {z : α} (hnd : l.Nodup) (h : Adj l a b) (hz : l.getLast? = some z) : a ≠ z := by
  induction l with
  | nil => exact h.elim
  | cons x l ih =>
    cases l with
    | nil => exact h.elim
    | cons y l =>
      rw [getLast?_cons_cons] at hz
      have hnd' := nodup_cons.mp hnd
      rcases h with ⟨rfl, -⟩ | h
      · rintro rfl
        exact hnd'.1 (mem_of_getLast? hz)
      · exact ih hnd'.2 h hz

theorem Adj.right_unique {c : α} (hnd : l.Nodup) (h₁ : Adj l a b) (h₂ : Adj l a c) : b = c := by
  induction l with
  | nil => exact h₁.elim
  | cons x l ih =>
    cases l with
    | nil => exact h₁.elim
    | cons y l =>
      have hnd' := nodup_cons.mp hnd
      rcases h₁ with ⟨rfl, rfl⟩ | h₁
      · rcases h₂ with ⟨-, rfl⟩ | h₂
        · rfl
        · exact absurd h₂.mem_left hnd'.1
      · rcases h₂ with ⟨rfl, -⟩ | h₂
        · exact absurd h₁.mem_left hnd'.1
        · exact ih hnd'.2 h₁ h₂

theorem exists_adj_head {z : α} (ha : l.head? = some a) (hz : l.getLast? = some z) (hne : a ≠ z) : ∃ b, Adj l a b := by
  cases l with
  | nil => cases ha
  | cons x l =>
    obtain rfl := Option.some.inj ha
    cases l with
    | nil => exact absurd (Option.some.inj hz) hne
    | cons y l => exact ⟨y, .inl ⟨rfl, rfl⟩⟩

theorem Adj.head_eq (hnd : l.Nodup) (ha : l.head? = some a) (h : Adj l a b) : ∃ rest, l = a :: b :: rest := by
  cases l with
  | nil => cases ha
  | cons x l =>
    obtain rfl := Option.some.inj ha
    cases l with
    | nil => exact h.elim
    | cons y l =>
      rcases h with ⟨-, rfl⟩ | h
      · exact ⟨l, rfl⟩
      · exact absurd h.mem_left (nodup_cons.mp hnd).1

end Lib
