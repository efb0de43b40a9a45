import BoxOS.Lib.Words

/-!
# Process ids

The generation of a pid goes back to 1 above `0xFFFF`, where `pid_life` compares as if it only grew. So it takes a past
use of a pid for the present one when a multiple of 65535 uses lies between them (`pid_lifetimes`).
-/

namespace BoxOS.Process

open Lib List
open Function (update update_self update_of_ne)

/-- `PID_MAX_COUNT`. -/
def pidMaxCount : Nat := 4096

/-- `pid_allocator_t`. -/
structure PidAllocator where
  bitmap : Nat → BitVec 64
  generation : Nat → Nat
  allocatedCount : Nat

inductive PidLife where
  | never
  | live
  | departed
deriving DecidableEq

def bitmapSet (bitmap : Nat → BitVec 64) (index : Nat) : Nat → BitVec 64 :=
  update bitmap (index / 64) (bitmap (index / 64) ||| BitVec.twoPow 64 (index % 64))

def bitmapClear (bitmap : Nat → BitVec 64) (index : Nat) : Nat → BitVec 64 :=
  update bitmap (index / 64) (bitmap (index / 64) &&& ~~~BitVec.twoPow 64 (index % 64))

def bitmapTest (bitmap : Nat → BitVec 64) (index : Nat) : Bool := (bitmap (index / 64)).getLsbD (index % 64)

def bitmapFindFree (bitmap : Nat → BitVec 64) (maxBits : Nat) : Nat :=
  match (range ((maxBits + 63) / 64)).find? fun w => bitmap w != ~~~0#64 with
  | some w =>
    let index := w * 64 + ctz 64 (~~~bitmap w).toNat
    if index < maxBits then index else maxBits
  | none => maxBits

namespace PidAllocator

variable (s : PidAllocator)

/-- `pid_alloc`; 0 is `PID_INVALID`. -/
def pidAlloc : Nat × PidAllocator :=
  let index := bitmapFindFree s.bitmap pidMaxCount
  if index ≥ pidMaxCount then (0, s)
  else
    let generation := s.generation index + 1
    (index + 1, ⟨bitmapSet s.bitmap index, update s.generation index (if generation > 0xFFFF then 1 else generation),
      s.allocatedCount + 1⟩)

def pidFree (pid : Nat) : PidAllocator :=
  if pid = 0 ∨ pid - 1 ≥ pidMaxCount ∨ bitmapTest s.bitmap (pid - 1) = false then s
  else { s with bitmap := bitmapClear s.bitmap (pid - 1), allocatedCount := s.allocatedCount - 1 }

def pidLife (pid generation : Nat) : PidLife :=
  if pid = 0 ∨ generation = 0 ∨ pid - 1 ≥ pidMaxCount then .never
  else if generation > s.generation (pid - 1) then .never
  else if generation < s.generation (pid - 1) then .departed
  else if bitmapTest s.bitmap (pid - 1) then .live else .departed

end PidAllocator

/-- A call; the log has the pids handed out so far. -/
inductive PidOp where
  | alloc
  | free (pid : Nat)

def PidOp.step (x : PidAllocator × List Nat) : PidOp → PidAllocator × List Nat
  | .alloc => (x.1.pidAlloc.2, if x.1.pidAlloc.1 = 0 then x.2 else x.1.pidAlloc.1 :: x.2)
  | .free pid => (x.1.pidFree pid, x.2)

/-- A run from `pid_allocator_init`. -/
def pidRun (ops : List PidOp) : PidAllocator × List Nat := ops.foldl PidOp.step (⟨fun _ => 0, fun _ => 0, 0⟩, [])

/-- The generation of the `n`-th use of an index. -/
def generationOf (n : Nat) : Nat := if n = 0 then 0 else (n - 1) % 65535 + 1

/-- The indices in use. -/
def inUse (bitmap : Nat → BitVec 64) : Finset Nat :=
  (Finset.range pidMaxCount).filter fun i => bitmapTest bitmap i = true

open PidAllocator

variable {bitmap : Nat → BitVec 64} {index : Nat} {s : PidAllocator} {log : List Nat}

theorem bitmapTest_set (j : Nat) :
    bitmapTest (bitmapSet bitmap index) j = (bitmapTest bitmap j || decide (j = index)) := by
  unfold bitmapTest bitmapSet
  by_cases h : j / 64 = index / 64
  · rw [h, update_self]
    simp [Nat.mod_lt, show j % 64 = index % 64 ↔ j = index by omega]
  · rw [update_of_ne h, decide_eq_false (by rintro rfl; exact h rfl), Bool.or_false]

theorem bitmapTest_clear (j : Nat) :
    bitmapTest (bitmapClear bitmap index) j = (bitmapTest bitmap j && !decide (j = index)) := by
  unfold bitmapTest bitmapClear
  by_cases h : j / 64 = index / 64
  · rw [h, update_self]
    simp [Nat.mod_lt, show j % 64 = index % 64 ↔ j = index by omega]
  · rw [update_of_ne h, decide_eq_false (by rintro rfl; exact h rfl), Bool.not_false, Bool.and_true]

/-- The scan ends at the lowest free index, or at the end when there is none. -/
theorem bitmapFindFree_spec (bitmap : Nat → BitVec 64) :
    (∀ i < bitmapFindFree bitmap pidMaxCount, bitmapTest bitmap i = true) ∧
      (bitmapFindFree bitmap pidMaxCount < pidMaxCount →
        bitmapTest bitmap (bitmapFindFree bitmap pidMaxCount) = false) := by
  have hfull : ∀ {i}, bitmap (i / 64) = ~~~0#64 → bitmapTest bitmap i = true := fun {i} h => by
    rw [bitmapTest, h, BitVec.getLsbD_not, BitVec.getLsbD_zero, decide_eq_true (Nat.mod_lt i (by decide))]
    rfl
  unfold bitmapFindFree pidMaxCount
  split
  · rename_i w hw
    obtain ⟨hne, hin, hbelow⟩ := find?_range_eq_some.mp hw
    rw [mem_range] at hin
    obtain ⟨hlt, hset, hlow⟩ := ctz_spec (v := (~~~bitmap w).toNat) (fun h0 => by
      rw [← BitVec.toNat_zero (w := 64), ← BitVec.toNat_eq] at h0
      rw [← h0, BitVec.not_not, bne_self_eq_false] at hne
      cases hne) (BitVec.isLt _)
    simp only [BitVec.testBit_toNat, BitVec.getLsbD_not] at hset hlow
    generalize ctz 64 (~~~bitmap w).toNat = k at hlt hset hlow ⊢
    dsimp only
    rw [if_pos (by omega)]
    refine ⟨fun i hi => ?_, fun _ => ?_⟩
    · by_cases h : i / 64 < w
      · exact hfull (by simpa using hbelow _ h)
      · have := hlow (i % 64) (by omega)
        rw [decide_eq_true (Nat.mod_lt i (by decide))] at this
        rw [bitmapTest, show i / 64 = w by omega]
        simpa using this
    · rw [bitmapTest, show (w * 64 + k) / 64 = w by omega, show (w * 64 + k) % 64 = k by omega]
      rw [decide_eq_true hlt] at hset
      simpa using hset
  · rename_i hno
    refine ⟨fun i hi => hfull ?_, fun h => absurd h (Nat.lt_irrefl _)⟩
    simpa using find?_eq_none.mp hno (i / 64) (mem_range.mpr (by omega))

theorem mem_inUse {i : Nat} : i ∈ inUse bitmap ↔ i < pidMaxCount ∧ bitmapTest bitmap i = true := by
  rw [inUse, Finset.mem_filter, Finset.mem_range]

theorem inUse_set (h : index < pidMaxCount) : inUse (bitmapSet bitmap index) = insert index (inUse bitmap) := by
  ext i
  by_cases hi : i = index
  · simp [hi, h, mem_inUse, bitmapTest_set]
  · simp [hi, mem_inUse, bitmapTest_set]

theorem inUse_clear : inUse (bitmapClear bitmap index) = (inUse bitmap).erase index := by
  ext i
  by_cases hi : i = index
  · simp [hi, mem_inUse, bitmapTest_clear]
  · simp [hi, mem_inUse, bitmapTest_clear]

/-- What the allocator knows after the uses of a log. -/
structure PidAllocator.Inv (s : PidAllocator) (log : List Nat) : Prop where
  count : s.allocatedCount = (inUse s.bitmap).card
  generation : ∀ i, s.generation i = generationOf (log.count (i + 1))

theorem PidAllocator.Inv.step {x : PidAllocator × List Nat} (h : x.1.Inv x.2) (op : PidOp) :
    (op.step x).1.Inv (op.step x).2 := by
  obtain ⟨s, log⟩ := x
  obtain ⟨hcount, hgen⟩ := h
  dsimp only at hcount hgen
  cases op with
  | alloc =>
    obtain ⟨-, hfree⟩ := bitmapFindFree_spec s.bitmap
    unfold PidOp.step pidAlloc
    dsimp only
    generalize bitmapFindFree s.bitmap pidMaxCount = index at hfree ⊢
    by_cases hfull : index ≥ pidMaxCount
    · rw [if_pos hfull]
      exact ⟨hcount, hgen⟩
    rw [if_neg hfull, if_neg (Nat.succ_ne_zero index)]
    have hnew : index ∉ inUse s.bitmap := fun hin => by
      rw [mem_inUse, hfree (by omega)] at hin
      cases hin.2
    refine ⟨?_, fun i => ?_⟩
    · rw [inUse_set (by omega), Finset.card_insert_of_notMem hnew, hcount]
    · show update s.generation index _ i = generationOf (List.count (i + 1) ((index + 1) :: log))
      by_cases hi : i = index
      · rw [hi, update_self, count_cons_self, hgen]
        unfold generationOf
        split_ifs <;> omega
      · rw [update_of_ne hi, count_cons_of_ne (by omega), hgen]
  | free pid =>
    unfold PidOp.step pidFree
    dsimp only
    split_ifs with hno
    · exact ⟨hcount, hgen⟩
    have hin : pid - 1 ∈ inUse s.bitmap := mem_inUse.mpr ⟨by omega, by simpa using fun ht => hno (.inr (.inr ht))⟩
    exact ⟨by rw [inUse_clear, Finset.card_erase_of_mem hin, hcount], hgen⟩

theorem pidRun_inv (ops : List PidOp) : (pidRun ops).1.Inv (pidRun ops).2 := by
  induction ops using List.reverseRecOn with
  | nil => exact ⟨by simp [pidRun, inUse, bitmapTest], fun i => rfl⟩
  | append_singleton ops op ih =>
    rw [pidRun, foldl_append]
    exact ih.step op

end BoxOS.Process
