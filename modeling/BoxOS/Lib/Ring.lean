import Mathlib.Data.List.Perm.Basic
import Mathlib.Data.List.Nodup
import Mathlib.Data.Nat.ModEq

/-! # Circular windows of an array

`window a cap head count` reads `count` cells of an array of `cap` cells in circular order from `head` on. The lemmas
say what the usual updates of a ring buffer do to it: writing behind its end, taking its first or last cell, moving
its last cell to another place, and copying it to the front of a new array. -/

set_option autoImplicit false
namespace Lib

open List

variable {α : Type*} {a : Nat → α} {cap head count : Nat}

def window (a : Nat → α) (cap head count : Nat) : List α :=
  (List.range count).map fun k => a ((head + k) % cap)

@[simp] theorem length_window : (window a cap head count).length = count := by
  simp [window]

@[simp] theorem window_zero : window a cap head 0 = [] :=
  rfl

variable {k : Nat} {x : α}

theorem getElem?_window (hk : k < count) : (window a cap head count)[k]? = some (a ((head + k) % cap)) := by
  simp [window, hk]

theorem ring_inj {l : Nat} (hk : k < cap) (hl : l < cap) (h : (head + k) % cap = (head + l) % cap) : k = l := by
  have h' : k ≡ l [MOD cap] := Nat.ModEq.add_left_cancel' head h
  exact Nat.ModEq.eq_of_lt_of_lt h' hk hl

theorem slot_inj {i j : Nat} (hi : head ≤ i) (hi' : i < head + cap) (hj : head ≤ j) (hj' : j < head + cap)
    (h : i % cap = j % cap) : i = j := by
  have h' : (head + (i - head)) % cap = (head + (j - head)) % cap := by
    rwa [Nat.add_sub_cancel' hi, Nat.add_sub_cancel' hj]
  have := ring_inj (by omega) (by omega) h'
  omega

theorem window_succ : window a cap head (count + 1) = window a cap head count ++ [a ((head + count) % cap)] := by
  simp [window, range_succ]

theorem window_cons : window a cap head (count + 1) = a (head % cap) :: window a cap ((head + 1) % cap) count := by
  simp only [window, range_succ_eq_map, map_cons, map_map, Nat.add_zero]
  refine congrArg _ (map_congr_left fun k _ => ?_)
  simp only [Function.comp_apply, Nat.mod_add_mod]
  rw [Nat.add_assoc, Nat.add_comm 1 k]

theorem window_update {i : Nat} (h : ∀ k < count, (head + k) % cap ≠ i) :
    window (Function.update a i x) cap head count = window a cap head count := by
  refine map_congr_left fun k hk => ?_
  exact Function.update_of_ne (h k (mem_range.mp hk)) ..

theorem window_push (h : count < cap) :
    window (Function.update a ((head + count) % cap) x) cap head (count + 1) = window a cap head count ++ [x] := by
  rw [window_succ, Function.update_self, window_update]
  intro k hk heq
  have := ring_inj (by omega) (by omega) heq
  omega

theorem window_pop (h : count < cap) :
    window (Function.update a (head % cap) x) cap ((head + 1) % cap) count = window a cap ((head + 1) % cap) count := by
  refine window_update fun k hk heq => ?_
  rw [Nat.mod_add_mod, Nat.add_assoc, ← Nat.add_zero head, Nat.add_assoc] at heq
  have := ring_inj (by omega) (by omega) heq
  omega

theorem window_set (hk : k < count) (h : count ≤ cap) :
    window (Function.update a ((head + k) % cap) x) cap head count = (window a cap head count).set k x := by
  refine ext_getElem? fun l => ?_
  by_cases hl : l < count
  · rw [getElem?_window hl, getElem?_set]
    by_cases hkl : k = l
    · simp [hkl, hl]
    · rw [if_neg hkl, getElem?_window hl, Function.update_of_ne]
      exact fun heq => hkl (ring_inj (by omega) (by omega) heq).symm
  · rw [getElem?_eq_none (by simpa using hl), getElem?_eq_none (by simpa using hl)]

theorem window_front (h : count ≤ cap) : window a cap 0 count = (List.range count).map a := by
  refine map_congr_left fun k hk => ?_
  have := mem_range.mp hk
  rw [Nat.zero_add, Nat.mod_eq_of_lt (by omega)]

open scoped List in
theorem perm_set_last {l : List α} {z : α} (hx : l[k]? = some x) : x :: l.set k z ~ l ++ [z] := by
  obtain ⟨hk, hxk⟩ := List.getElem?_eq_some_iff.mp hx
  have hl : l = l.take k ++ x :: l.drop (k + 1) := by
    rw [← hxk, ← drop_eq_getElem_cons hk, take_append_drop]
  have hset : l.set k z = l.take k ++ z :: l.drop (k + 1) := by
    rw [set_eq_take_append_cons_drop, if_pos hk]
  calc x :: l.set k z
      _ = x :: (l.take k ++ z :: l.drop (k + 1)) := by rw [hset]
      _ ~ x :: z :: (l.take k ++ l.drop (k + 1)) := perm_middle.cons x
      _ ~ z :: x :: (l.take k ++ l.drop (k + 1)) := List.Perm.swap ..
      _ ~ z :: (l.take k ++ x :: l.drop (k + 1)) := (perm_middle.symm).cons z
      _ = z :: l := by rw [← hl]
      _ ~ l ++ [z] := (perm_append_singleton z l).symm

end Lib
