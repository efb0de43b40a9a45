import Mathlib.Data.Nat.Bitwise
import Mathlib.Data.List.Basic
import Mathlib.Tactic

/-!
# Bits of byte arrays

A byte array (`List UInt8`) is read as a bit array, low bit of each byte first: `bitAt`. `setBit`, `clearBit` and
`testBit8` are the usual one-bit idioms on it; `bitAt_setBit` and `bitAt_clearBit` say what they do to every bit.
A full byte (`0xFF`) and an empty byte (`0x00`) decide eight bits at once (`bitAt_of_full`, `bitAt_of_empty`).
-/

namespace Lib

open List

/-- Bit `i` of a byte array; bits outside the array are clear. -/
def bitAt (bm : List UInt8) (i : Nat) : Bool := (bm.getD (i / 8) 0).toNat.testBit (i % 8)

/-- The byte with only bit `k` set. -/
def bitMask (k : Nat) : UInt8 := UInt8.ofNat (1 <<< k)

def setBit (bm : List UInt8) (i : Nat) : List UInt8 :=
  bm.set (i / 8) (bm.getD (i / 8) 0 ||| bitMask (i % 8))

def clearBit (bm : List UInt8) (i : Nat) : List UInt8 :=
  bm.set (i / 8) (bm.getD (i / 8) 0 &&& ~~~ bitMask (i % 8))

def testBit8 (bm : List UInt8) (i : Nat) : Bool := (bm.getD (i / 8) 0 &&& bitMask (i % 8)) != 0

/-! ## One byte -/

variable {k i : Nat} {bm : List UInt8}

theorem testBit_bitMask (hk : k < 8) (j : Nat) : (bitMask k).toNat.testBit j = decide (j = k) := by
  have hlt : 2 ^ k < 256 := lt_of_lt_of_le (Nat.pow_lt_pow_right (by decide) hk) (by decide)
  have : (bitMask k).toNat = 2 ^ k := by
    simp [bitMask, Nat.shiftLeft_eq, Nat.mod_eq_of_lt hlt]
  rw [this, Nat.testBit_two_pow]
  exact decide_eq_decide.mpr eq_comm

theorem testBit_or_mask (hk : k < 8) (b : UInt8) (j : Nat) :
    (b ||| bitMask k).toNat.testBit j = (b.toNat.testBit j || decide (j = k)) := by
  rw [UInt8.toNat_or, Nat.testBit_or, testBit_bitMask hk]

theorem testBit_and_not_mask (hk : k < 8) (b : UInt8) {j : Nat} (hj : j < 8) :
    (b &&& ~~~ bitMask k).toNat.testBit j = (b.toNat.testBit j && !decide (j = k)) := by
  rw [UInt8.toNat_and, Nat.testBit_and]
  congr 1
  have h : (~~~ bitMask k).toNat.testBit j = (~~~ (bitMask k).toBitVec).getLsbD j := rfl
  have h' : (bitMask k).toBitVec.getLsbD j = (bitMask k).toNat.testBit j := rfl
  rw [h, BitVec.getLsbD_not, h', testBit_bitMask hk]
  simp [hj]

theorem testBit_eq_and_mask (hk : k < 8) (b : UInt8) : ((b &&& bitMask k) != 0) = b.toNat.testBit k := by
  by_cases hb : b.toNat.testBit k = true
  · rw [hb]
    simp only [bne_iff_ne, ne_eq]
    intro h0
    have := congrArg (fun x : UInt8 => x.toNat.testBit k) h0
    simp [UInt8.toNat_and, Nat.testBit_and, hb, testBit_bitMask hk] at this
  rw [Bool.not_eq_true] at hb
  rw [hb, bne_eq_false_iff_eq]
  apply UInt8.toNat_inj.mp
  apply Nat.eq_of_testBit_eq
  intro j
  rw [UInt8.toNat_and, Nat.testBit_and, testBit_bitMask hk]
  by_cases hj : j = k
  · subst hj; simp [hb]
  · simp [hj]

theorem testBit_full {b : UInt8} (h : b = 0xFF) {k : Nat} (hk : k < 8) : b.toNat.testBit k = true := by
  subst h; revert k; decide

theorem testBit_empty {b : UInt8} (h : b = 0) (k : Nat) : b.toNat.testBit k = false := by
  subst h; simp

/-! ## Whole arrays -/

@[simp] theorem length_setBit (bm : List UInt8) (i : Nat) : (setBit bm i).length = bm.length := by simp [setBit]

@[simp] theorem length_clearBit (bm : List UInt8) (i : Nat) : (clearBit bm i).length = bm.length := by
  simp [clearBit]

theorem testBit8_eq (bm : List UInt8) (i : Nat) : testBit8 bm i = bitAt bm i :=
  testBit_eq_and_mask (Nat.mod_lt _ (by decide)) _

theorem bitAt_of_length_le (h : bm.length * 8 ≤ i) : bitAt bm i = false := by
  have : bm.getD (i / 8) 0 = 0 := by
    rw [getD_eq_getElem?_getD, getElem?_eq_none (by omega)]; rfl
  unfold bitAt
  rw [this]
  exact testBit_empty rfl _

theorem getD_set_self (hk : k < bm.length) (b : UInt8) : (bm.set k b).getD k 0 = b := by
  simp [getD_eq_getElem?_getD, hk]

theorem getD_set_ne {l : Nat} (h : k ≠ l) (b : UInt8) : (bm.set k b).getD l 0 = bm.getD l 0 := by
  simp [getD_eq_getElem?_getD, getElem?_set_ne h]

theorem bitAt_setBit (hi : i < bm.length * 8) (j : Nat) :
    bitAt (setBit bm i) j = (bitAt bm j || decide (j = i)) := by
  unfold bitAt setBit
  by_cases h : i / 8 = j / 8
  · rw [← h, getD_set_self (by omega), testBit_or_mask (Nat.mod_lt _ (by decide))]
    have : (j % 8 = i % 8) ↔ j = i := by omega
    simp only [this]
  · rw [getD_set_ne h]
    have : j ≠ i := by rintro rfl; exact h rfl
    simp [this]

theorem bitAt_clearBit (hi : i < bm.length * 8) (j : Nat) :
    bitAt (clearBit bm i) j = (bitAt bm j && !decide (j = i)) := by
  unfold bitAt clearBit
  by_cases h : i / 8 = j / 8
  · rw [← h, getD_set_self (by omega),
      testBit_and_not_mask (Nat.mod_lt _ (by decide)) _ (Nat.mod_lt _ (by decide))]
    have : (j % 8 = i % 8) ↔ j = i := by omega
    simp only [this]
  · rw [getD_set_ne h]
    have : j ≠ i := by rintro rfl; exact h rfl
    simp [this]

theorem bitAt_of_full {j : Nat} (hi : i % 8 = 0) (h : bm.getD (i / 8) 0 = 0xFF)
    (hj : i ≤ j) (hj' : j < i + 8) : bitAt bm j = true := by
  have : j / 8 = i / 8 := by omega
  unfold bitAt
  rw [this]
  exact testBit_full h (Nat.mod_lt _ (by decide))

theorem bitAt_of_empty {j : Nat} (hi : i % 8 = 0) (h : bm.getD (i / 8) 0 = 0)
    (hj : i ≤ j) (hj' : j < i + 8) : bitAt bm j = false := by
  have : j / 8 = i / 8 := by omega
  unfold bitAt
  rw [this]
  exact testBit_empty h _

theorem eq_of_bitAt {bm' : List UInt8} (hlen : bm.length = bm'.length) (h : ∀ i, bitAt bm i = bitAt bm' i) :
    bm = bm' := by
  refine List.ext_getElem hlen fun k hk hk' => UInt8.toNat_inj.mp (Nat.eq_of_testBit_eq fun i => ?_)
  by_cases hi : i < 8
  · have := h (k * 8 + i)
    unfold bitAt at this
    rwa [show (k * 8 + i) / 8 = k by omega, show (k * 8 + i) % 8 = i by omega, List.getD_eq_getElem _ _ hk,
      List.getD_eq_getElem _ _ hk'] at this
  · have hpow : 2 ^ 8 ≤ 2 ^ i := Nat.pow_le_pow_right (by omega) (by omega)
    rw [Nat.testBit_lt_two_pow (bm[k].toNat_lt.trans_le hpow), Nat.testBit_lt_two_pow (bm'[k].toNat_lt.trans_le hpow)]

end Lib
