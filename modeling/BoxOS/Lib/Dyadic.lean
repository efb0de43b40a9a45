import Mathlib.Data.Nat.Bitwise
import Mathlib.Order.Interval.Set.Basic

/-!
# Dyadic blocks

The block of order `o` at `i` is the `2 ^ o` numbers from `i` on; it is aligned when `2 ^ o` divides `i`. Two aligned
blocks that share a number are nested. The buddy of an aligned block is the block it makes an aligned block of the next
order with.
-/

namespace Lib

/-- The numbers of the block of order `o` at `i`. -/
def block (i o : Nat) : Set Nat := Set.Ico i (i + 2 ^ o)

variable {i j o o' p : Nat}

instance (p i o : Nat) : Decidable (p ∈ block i o) := inferInstanceAs (Decidable (i ≤ p ∧ p < i + 2 ^ o))

theorem mem_block : p ∈ block i o ↔ i ≤ p ∧ p < i + 2 ^ o := Iff.rfl

theorem head_mem_block (i o : Nat) : i ∈ block i o := ⟨Nat.le_refl i, Nat.lt_add_of_pos_right (Nat.two_pow_pos o)⟩

theorem block_head (hi : 2 ^ o ∣ i) (hj : 2 ^ o' ∣ j) (hle : o' ≤ o) (h : i ∈ block j o') : i = j := by
  obtain ⟨a, rfl⟩ := (Nat.pow_dvd_pow 2 hle).trans hi
  obtain ⟨b, rfl⟩ := hj
  obtain ⟨h₁, h₂⟩ := h
  have hba : b ≤ a := Nat.le_of_mul_le_mul_left h₁ (Nat.two_pow_pos o')
  have hab : a < b + 1 := Nat.lt_of_mul_lt_mul_left (by rwa [Nat.mul_add, Nat.mul_one])
  rw [Nat.le_antisymm hba (Nat.lt_succ_iff.mp hab)]

theorem block_subset (hi : 2 ^ o ∣ i) (hj : 2 ^ o' ∣ j) (hle : o' ≤ o) (h₁ : p ∈ block i o) (h₂ : p ∈ block j o') :
    block j o' ⊆ block i o := by
  obtain ⟨a, rfl⟩ := hi
  obtain ⟨b, rfl⟩ := hj
  obtain ⟨k, rfl⟩ := Nat.exists_eq_add_of_le hle
  have hpow : 2 ^ (o' + k) = 2 ^ o' * 2 ^ k := Nat.pow_add 2 o' k
  obtain ⟨h₁, h₁'⟩ := h₁
  obtain ⟨h₂, h₂'⟩ := h₂
  rw [hpow, Nat.mul_assoc] at h₁ h₁'
  -- measured in blocks of the lower order
  have hlo : 2 ^ k * a < b + 1 := by
    refine Nat.lt_of_mul_lt_mul_left (a := 2 ^ o') ?_
    rw [Nat.mul_add, Nat.mul_one]
    exact h₁.trans_lt h₂'
  have hhi : b < 2 ^ k * a + 2 ^ k := by
    refine Nat.lt_of_mul_lt_mul_left (a := 2 ^ o') ?_
    rw [Nat.mul_add]
    exact h₂.trans_lt h₁'
  intro q hq
  obtain ⟨hq₁, hq₂⟩ := hq
  refine ⟨?_, ?_⟩
  · rw [hpow, Nat.mul_assoc]
    exact (Nat.mul_le_mul_left _ (Nat.lt_succ_iff.mp hlo)).trans hq₁
  · rw [hpow, Nat.mul_assoc, ← Nat.mul_add]
    refine hq₂.trans_le ?_
    rw [← Nat.mul_succ]
    exact Nat.mul_le_mul_left _ hhi

/-- The head of the buddy. -/
def buddyOf (i o : Nat) : Nat := i ^^^ 2 ^ o

theorem buddyOf_scaled (i o k : Nat) : (i * 2 ^ k) ^^^ (2 ^ o * 2 ^ k) = buddyOf i o * 2 ^ k := by
  rw [← Nat.shiftLeft_eq, ← Nat.shiftLeft_eq, ← Nat.shiftLeft_eq, buddyOf, Nat.shiftLeft_xor_distrib]

theorem buddyOf_cases (h : 2 ^ o ∣ i) :
    (2 ^ (o + 1) ∣ i ∧ buddyOf i o = i + 2 ^ o) ∨ ∃ j, i = j + 2 ^ o ∧ 2 ^ (o + 1) ∣ j ∧ buddyOf i o = j := by
  obtain ⟨a, rfl⟩ := h
  have hbuddy : buddyOf (2 ^ o * a) o = (a ^^^ 1) * 2 ^ o := by
    have := buddyOf_scaled a 0 o
    rw [buddyOf, Nat.mul_comm]
    simpa [buddyOf] using this
  rcases Nat.even_or_odd' a with ⟨b, rfl | rfl⟩
  · left
    refine ⟨⟨b, by rw [Nat.pow_succ, Nat.mul_assoc]⟩, ?_⟩
    have hx : (2 * b) ^^^ 1 = 2 * b + 1 := Nat.xor_one_of_even (even_two_mul b)
    rw [hbuddy, hx, Nat.add_mul, Nat.one_mul, Nat.mul_comm]
  right
  refine ⟨2 ^ o * (2 * b), by rw [Nat.mul_add, Nat.mul_one], ⟨b, by rw [Nat.pow_succ, Nat.mul_assoc]⟩, ?_⟩
  have hx : (2 * b + 1) ^^^ 1 = 2 * b := Nat.xor_one_of_odd (odd_two_mul_add_one b)
  rw [hbuddy, hx, Nat.mul_comm]

theorem block_union_buddy (h : 2 ^ o ∣ i) :
    2 ^ (o + 1) ∣ min i (buddyOf i o) ∧ block i o ∪ block (buddyOf i o) o = block (min i (buddyOf i o)) (o + 1) := by
  rcases buddyOf_cases h with ⟨hi, hb⟩ | ⟨j, rfl, hj, hb⟩
  · rw [hb, Nat.min_eq_left (Nat.le_add_right ..)]
    refine ⟨hi, Set.ext fun p => ?_⟩
    simp only [block, Set.mem_union, Set.mem_Ico]
    omega
  rw [hb, Nat.min_eq_right (Nat.le_add_right ..)]
  refine ⟨hj, Set.ext fun p => ?_⟩
  simp only [block, Set.mem_union, Set.mem_Ico]
  omega

theorem dvd_buddyOf (h : 2 ^ o ∣ i) : 2 ^ o ∣ buddyOf i o := by
  rcases buddyOf_cases h with ⟨-, hb⟩ | ⟨j, rfl, hj, hb⟩
  · rw [hb]
    exact Nat.dvd_add h (Nat.dvd_refl _)
  · rw [hb]
    exact (Nat.pow_dvd_pow 2 (Nat.le_succ o)).trans hj

theorem head_of_buddy (hi : 2 ^ o ∣ i) (hj : 2 ^ o' ∣ j) (h : buddyOf i o ∈ block j o') (hi' : i ∉ block j o') :
    o' ≤ o ∧ buddyOf i o = j := by
  have hle : o' ≤ o := by
    by_contra hno
    obtain ⟨hdvd, hunion⟩ := block_union_buddy hi
    have hmem : ∀ p, p ∈ block i o ∪ block (buddyOf i o) o → p ∈ block (min i (buddyOf i o)) (o + 1) := fun p hp =>
      hunion ▸ hp
    exact hi' (block_subset hj hdvd (Nat.lt_of_not_le hno) h (hmem _ (.inr (head_mem_block ..)))
      (hmem _ (.inl (head_mem_block ..))))
  exact ⟨hle, block_head (dvd_buddyOf hi) hj hle h⟩

end Lib
