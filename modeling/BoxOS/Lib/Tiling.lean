import Mathlib.Data.List.Chain

/-!
# Tilings

A list of items with a start and a stop tiles an interval when each item starts where the one before it stops, the first
at the start of the interval and the last up to its end.
-/

namespace Lib

open List

section

variable {α : Type} (start stop : α → Nat)

/-- The items cover the numbers from `a` to `b`, one after the other. -/
def Tiles (a b : Nat) : List α → Prop
  | [] => a = b
  | x :: xs => start x = a ∧ start x < stop x ∧ Tiles (stop x) b xs

variable {start stop} {a b c : Nat} {x y : α} {xs ys : List α}

theorem tiles_append : Tiles start stop a c (xs ++ ys) ↔ ∃ b, Tiles start stop a b xs ∧ Tiles start stop b c ys := by
  induction xs generalizing a with
  | nil =>
    constructor
    · exact fun h => ⟨a, rfl, h⟩
    · rintro ⟨b, rfl, h⟩
      exact h
  | cons x xs ih =>
    constructor
    · rintro ⟨h₁, h₂, h⟩
      obtain ⟨b, hxs, hys⟩ := ih.mp h
      exact ⟨b, ⟨h₁, h₂, hxs⟩, hys⟩
    · rintro ⟨b, ⟨h₁, h₂, hxs⟩, hys⟩
      exact ⟨h₁, h₂, ih.mpr ⟨b, hxs, hys⟩⟩

theorem tiles_replace (h : Tiles start stop a b (xs ++ x :: ys)) {zs : List α}
    (hzs : Tiles start stop (start x) (stop x) zs) : Tiles start stop a b (xs ++ zs ++ ys) := by
  obtain ⟨m, hxs, rfl, -, hys⟩ := tiles_append.mp h
  rw [append_assoc]
  exact tiles_append.mpr ⟨_, hxs, tiles_append.mpr ⟨_, hzs, hys⟩⟩

theorem Tiles.le (h : Tiles start stop a b xs) : a ≤ b := by
  induction xs generalizing a with
  | nil => exact Nat.le_of_eq h
  | cons x xs ih =>
    obtain ⟨rfl, hlt, h⟩ := h
    exact hlt.le.trans (ih h)

theorem Tiles.bounds (h : Tiles start stop a b xs) (hx : x ∈ xs) : a ≤ start x ∧ start x < stop x ∧ stop x ≤ b := by
  induction xs generalizing a with
  | nil => cases hx
  | cons y xs ih =>
    obtain ⟨rfl, hlt, h⟩ := h
    rcases mem_cons.mp hx with rfl | hx
    · exact ⟨le_rfl, hlt, h.le⟩
    · obtain ⟨h₁, h₂, h₃⟩ := ih h hx
      exact ⟨hlt.le.trans h₁, h₂, h₃⟩

theorem Tiles.pairwise (h : Tiles start stop a b xs) : xs.Pairwise fun x y => stop x ≤ start y := by
  induction xs generalizing a with
  | nil => exact .nil
  | cons x xs ih =>
    obtain ⟨rfl, hlt, h⟩ := h
    exact pairwise_cons.mpr ⟨fun y hy => (h.bounds hy).1, ih h⟩

theorem Tiles.eq_of_start (h : Tiles start stop a b xs) (hx : x ∈ xs) (hy : y ∈ xs) (heq : start x = start y) :
    x = y := by
  induction xs generalizing a with
  | nil => cases hx
  | cons z xs ih =>
    obtain ⟨rfl, hlt, h⟩ := h
    have hne : ∀ w ∈ xs, start z < start w := fun w hw => hlt.trans_le (h.bounds hw).1
    rcases mem_cons.mp hx with hxz | hx'
    · rcases mem_cons.mp hy with hyz | hy'
      · rw [hxz, hyz]
      · exact absurd (hxz ▸ heq) (Nat.ne_of_lt (hne y hy'))
    · rcases mem_cons.mp hy with hyz | hy'
      · exact absurd (hyz ▸ heq) (Nat.ne_of_gt (hne x hx'))
      · exact ih h hx' hy'

theorem Tiles.around (h : Tiles start stop a b (xs ++ x :: ys)) :
    (∀ y ∈ xs, stop y ≤ start x) ∧ ∀ y ∈ ys, stop x ≤ start y := by
  have hp := pairwise_append.mp h.pairwise
  exact ⟨fun y hy => hp.2.2 y hy x mem_cons_self, (pairwise_cons.mp hp.2.1).1⟩

end

end Lib
