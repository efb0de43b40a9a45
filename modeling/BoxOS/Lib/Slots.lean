import Mathlib.Tactic

/-!
# Arrays of slots

A growable array is a list that is read with a default (`List.getD`). `getD_set` and `getD_append_blank` say what a
write and a growth do to every slot. `ensureCapacity` is growth by doubling in 32-bit arithmetic; `ensureCapacity_spec`
says that it ends, and reaches every index below `2 ^ 31`, `ensureCapacity_two_pow` that it reaches no other from a
power of two.
-/

namespace Lib

open List Option

variable {α : Type}

theorem getD_set (l : List α) (i j : Nat) (a d : α) (hi : i < l.length) :
    (l.set i a).getD j d = if j = i then a else l.getD j d := by
  simp only [getD_eq_getElem?_getD, getElem?_set]
  by_cases h : i = j
  · subst h
    simp [hi]
  · rw [if_neg h, if_neg (Ne.symm h)]

theorem getD_append_blank (l : List α) (n j : Nat) (blank : α) :
    (l ++ replicate n blank).getD j blank = l.getD j blank := by
  simp only [getD_eq_getElem?_getD, getElem?_append, getElem?_replicate]
  by_cases h : j < l.length
  · rw [if_pos h]
  · rw [if_neg h, getElem?_eq_none (by omega)]
    split <;> rfl

theorem getD_replicate (n j : Nat) (blank : α) : (replicate n blank).getD j blank = blank := by
  simp only [getD_eq_getElem?_getD, getElem?_replicate]
  split <;> rfl

theorem getD_of_length_le {l : List α} {j : Nat} (h : l.length ≤ j) (d : α) : l.getD j d = d := by
  rw [getD_eq_getElem?_getD, getElem?_eq_none h]
  rfl

/-- `while (new_cap <= id) new_cap *= 2;` in 32 bits. After 32 doublings the capacity is zero for good, so a loop that
has not ended then never ends. -/
def growCap : Nat → Nat → Nat → Option Nat
  | 0, _, _ => none
  | fuel + 1, cap, id => if cap ≤ id then growCap fuel (cap * 2 % 2 ^ 32) id else some cap

/-- The array with at least `id + 1` slots; an empty one starts at 64. -/
def ensureCapacity (blank : α) (slots : List α) (id : Nat) : Option (List α) :=
  if id < slots.length then some slots
  else do
    let newCap ← growCap 33 (if slots.length ≠ 0 then slots.length else 64) id
    return slots ++ replicate (newCap - slots.length) blank

theorem growCap_spec {id : Nat} (hid : id < 2 ^ 31) (fuel cap : Nat) (hcap : 0 < cap) (h : id < cap * 2 ^ fuel) :
    ∃ cap', growCap (fuel + 1) cap id = some cap' ∧ id < cap' := by
  induction fuel generalizing cap with
  | zero => exact ⟨cap, by rw [growCap, if_neg (by omega)], by omega⟩
  | succ fuel ih =>
    by_cases hle : cap ≤ id
    · have hmod : cap * 2 % 2 ^ 32 = cap * 2 := Nat.mod_eq_of_lt (by omega)
      obtain ⟨cap', hgrow, hlt⟩ := ih (cap * 2) (by omega) (by rw [mul_assoc, ← pow_succ']; exact h)
      exact ⟨cap', by rw [growCap, if_pos hle, hmod, hgrow], hlt⟩
    · exact ⟨cap, by rw [growCap, if_neg hle], by omega⟩

theorem ensureCapacity_spec (blank : α) (slots : List α) {id : Nat} (hid : id < 2 ^ 31) :
    ∃ slots', ensureCapacity blank slots id = some slots' ∧ id < slots'.length ∧
    ∀ k, slots'.getD k blank = slots.getD k blank := by
  unfold ensureCapacity
  by_cases h : id < slots.length
  · exact ⟨slots, by rw [if_pos h], h, fun _ => rfl⟩
  rw [if_neg h]
  have hpos : 0 < (if slots.length ≠ 0 then slots.length else 64) := by split <;> omega
  obtain ⟨cap', hgrow, hlt⟩ := growCap_spec hid 32 _ hpos
    (lt_of_lt_of_le (by omega : id < 2 ^ 32) (Nat.le_mul_of_pos_left _ hpos))
  exact ⟨_, by rw [hgrow]; rfl, by simp; omega, fun k => getD_append_blank slots _ k blank⟩

theorem growCap_zero (fuel id : Nat) : growCap fuel 0 id = none := by
  induction fuel with
  | zero => rfl
  | succ fuel ih => rw [growCap, if_pos (Nat.zero_le id), Nat.zero_mul, Nat.zero_mod, ih]

theorem growCap_two_pow {id cap : Nat} (fuel k : Nat) (hk : k ≤ 31) (h : growCap fuel (2 ^ k) id = some cap) :
    id < cap ∧ ∃ j ≤ 31, cap = 2 ^ j := by
  induction fuel generalizing k with
  | zero => cases h
  | succ fuel ih =>
    rw [growCap] at h
    split at h
    · rcases Nat.lt_or_eq_of_le hk with hlt | rfl
      · rw [← pow_succ, Nat.mod_eq_of_lt (Nat.pow_lt_pow_right (by decide) (by omega))] at h
        exact ih (k + 1) hlt h
      · rw [show 2 ^ 31 * 2 % 2 ^ 32 = 0 by decide, growCap_zero] at h
        cases h
    · obtain rfl := some.inj h
      exact ⟨by omega, k, hk, rfl⟩

theorem ensureCapacity_two_pow {blank : α} {slots slots' : List α} {id k : Nat} (hk : k ≤ 31)
    (hlen : slots.length = 2 ^ k) (h : ensureCapacity blank slots id = some slots') :
    id < slots'.length ∧ ∃ j ≤ 31, slots'.length = 2 ^ j := by
  unfold ensureCapacity at h
  split at h
  · rename_i hlt
    obtain rfl := some.inj h
    exact ⟨hlt, k, hk, hlen⟩
  simp only [bind, bind_eq_some_iff, Option.pure_def, some.injEq] at h
  obtain ⟨cap, hcap, rfl⟩ := h
  have hne : slots.length ≠ 0 := by
    rw [hlen]
    exact (Nat.two_pow_pos k).ne'
  rw [if_pos hne, hlen] at hcap
  obtain ⟨hlt, j, hj, hpow⟩ := growCap_two_pow 33 k hk hcap
  have htotal : (slots ++ replicate (cap - slots.length) blank).length = cap := by
    rw [length_append, length_replicate]
    omega
  exact ⟨Nat.lt_of_lt_of_eq hlt htotal.symm, j, hj, htotal.trans hpow⟩

end Lib
