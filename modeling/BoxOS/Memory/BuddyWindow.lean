import BoxOS.Memory.BuddyRun

/-!
# Allocation in a window

`buddy_alloc_range` takes blocks that lie wholly in the window and passes over those that an edge of it cuts, whatever
part of them lies inside (`alloc_range_complete_iff`).
-/

namespace BoxOS.Memory

open Lib List

variable {z : BuddyZone} {pages order minPhys maxPhys i o : Nat}

namespace BuddyZone

/-- Pages `i` to `j` lie in the window. -/
def Inside (z : BuddyZone) (minPhys maxPhys i j : Nat) : Prop := minPhys ≤ z.addr i ∧ z.addr j ≤ maxPhys

/-- A run of `2 ^ order` pages, aligned in the zone, lies in the window and in the block. -/
def HasPart (z : BuddyZone) (minPhys maxPhys order i o : Nat) : Prop :=
  ∃ j, 2 ^ order ∣ j ∧ i ≤ j ∧ j + 2 ^ order ≤ i + 2 ^ o ∧ z.Inside minPhys maxPhys j (j + 2 ^ order)

end BuddyZone

theorem mem_candidates_iff (h : BuddyInv z ∅) : (o, z.addr i) ∈ candidates z order ↔ order ≤ o ∧ z.Listed i o := by
  refine ⟨mem_candidates, fun ⟨hle, hl⟩ => ?_⟩
  have ho := (h.block_of hl).1
  exact mem_flatMap.mpr ⟨o, mem_range'_1.mpr ⟨hle, by omega⟩, mem_map_of_mem hl⟩

/-- What the search asks of a block: it lies wholly in the window, whether or not the window is cut to the zone first.
-/
theorem inRange_addr (h : BuddyInv z ∅) (hl : z.Listed i o) :
    inRange (max z.base minPhys) (min z.zoneEnd maxPhys) (o, z.addr i) = true ↔
    z.Inside minPhys maxPhys i (i + 2 ^ o) := by
  have hin := (h.block_of hl).2.2.2
  have hpos := Nat.two_pow_pos o
  rw [inRange, decide_eq_true_iff]
  simp only [BuddyZone.Inside, BuddyZone.addr, BuddyZone.zoneEnd, orderToPages, buddyPageSize]
  omega

theorem buddyAllocRange_eq (hp : pages ≠ 0) (horder : pagesToOrder pages = some order) (hle : order ≤ buddyMaxOrder) :
    buddyAllocRange z pages minPhys maxPhys =
      .ok (match (candidates z order).find? (inRange (max z.base minPhys) (min z.zoneEnd maxPhys)) with
        | none => (0, z)
        | some c => (c.2, takeBlock z c.2 c.1 order)) := by
  have hmin : (if minPhys < z.base then z.base else minPhys) = max z.base minPhys := by split <;> omega
  have hmax : (if maxPhys > z.zoneEnd then z.zoneEnd else maxPhys) = min z.zoneEnd maxPhys := by split <;> omega
  simp only [buddyAllocRange, hp, horder, not_lt.mpr hle, hmin, hmax, if_false]
  split
  · next hempty =>
    rw [find?_eq_none.mpr fun c _ => ?_]
    rw [inRange, decide_eq_true_iff]
    omega
  · split <;> simp only [*]

/-- The search finds nothing exactly if no block of the order or more lies wholly in the window. -/
theorem buddyAllocRange_null_iff (h : BuddyInv z ∅) (hbase : 0 < z.base) (hp : pages ≠ 0)
    (horder : pagesToOrder pages = some order) (hle : order ≤ buddyMaxOrder) :
    (∃ z', buddyAllocRange z pages minPhys maxPhys = .ok (0, z')) ↔ ∀ i o, z.Listed i o → order ≤ o →
    ¬ z.Inside minPhys maxPhys i (i + 2 ^ o) := by
  rw [buddyAllocRange_eq hp horder hle]
  cases hfind : (candidates z order).find? (inRange (max z.base minPhys) (min z.zoneEnd maxPhys)) with
  | none =>
    refine ⟨fun _ i o hl ho hin => ?_, fun _ => ⟨z, rfl⟩⟩
    exact find?_eq_none.mp hfind _ ((mem_candidates_iff h).mpr ⟨ho, hl⟩) ((inRange_addr h hl).mpr hin)
  | some c =>
    obtain ⟨ho, hmem⟩ := mem_candidates (mem_of_find?_eq_some hfind)
    obtain ⟨-, -, i, hi, -⟩ := h.listed _ _ hmem
    have hl : z.Listed i c.1 := by rwa [BuddyZone.Listed, ← hi]
    have hin := find?_some hfind
    rw [show c = (c.1, z.addr i) from Prod.ext rfl hi, inRange_addr h hl] at hin
    constructor
    · rintro ⟨z', hnull⟩
      have hzero : c.2 = 0 := congrArg Prod.fst (Except.ok.inj hnull)
      rw [hi, BuddyZone.addr] at hzero
      omega
    · exact fun hnone => absurd hin (hnone i c.1 hl ho)

/-- In every run: an allocation in a window fails only when no free block has an aligned run of that size there, exactly
if some block of the order or more lies wholly inside, or no block cut by an edge of the window has such a run. -/
theorem alloc_range_complete_iff (base totalPages : Nat) (ha : buddyPageSize ∣ base) (hb : 0 < base)
    (hend : base + totalPages * buddyPageSize ≤ 2 ^ 63) {z : BuddyZone} {ranges live : List (Nat × Nat)}
    (hrun : BuddyRun base totalPages z ranges live) {pages order : Nat} (hp : pages ≠ 0)
    (horder : pagesToOrder pages = some order) (hle : order ≤ buddyMaxOrder) (minPhys maxPhys : Nat) :
    ((∃ z', buddyAllocRange z pages minPhys maxPhys = .ok (0, z')) →
      ¬ ∃ i o, z.Listed i o ∧ z.HasPart minPhys maxPhys order i o) ↔
    (∃ i o, z.Listed i o ∧ order ≤ o ∧ z.Inside minPhys maxPhys i (i + 2 ^ o)) ∨
      ∀ i o, z.Listed i o → ¬ z.Inside minPhys maxPhys i (i + 2 ^ o) → ¬ z.HasPart minPhys maxPhys order i o :=
    by
  have hinv := hrun.inv ha hb hend
  rw [buddyAllocRange_null_iff hinv.inv (hinv.base ▸ hb) hp horder hle]
  by_cases hwhole : ∃ i o, z.Listed i o ∧ order ≤ o ∧ z.Inside minPhys maxPhys i (i + 2 ^ o)
  · obtain ⟨i, o, hl, ho, hin⟩ := hwhole
    exact ⟨fun _ => .inl ⟨i, o, hl, ho, hin⟩, fun _ hnone => absurd hin (hnone i o hl ho)⟩
  have hnone : ∀ i o, z.Listed i o → order ≤ o → ¬ z.Inside minPhys maxPhys i (i + 2 ^ o) :=
    fun i o hl ho hin => hwhole ⟨i, o, hl, ho, hin⟩
  have horder_le : ∀ {i o}, z.HasPart minPhys maxPhys order i o → order ≤ o := by
    rintro i o ⟨j, -, hij, hstop, -⟩
    exact (Nat.pow_le_pow_iff_right (by decide)).mp (show 2 ^ order ≤ 2 ^ o by omega)
  refine ⟨fun h => .inr fun i o hl _ hpart => h hnone ⟨i, o, hl, hpart⟩, fun h _ ⟨i, o, hl, hpart⟩ => ?_⟩
  exact h.resolve_left hwhole i o hl (hnone i o hl (horder_le hpart)) hpart

/-- Two free pages in one block. -/
def twoPages : BuddyZone := buddyFreeRange (buddyInit 8192 2) 0 20000

theorem twoPages_run : BuddyRun 8192 2 twoPages [(0, 20000)] [] := .freeRange 0 20000 .init nofun

/-- The window of the whole zone: one page is there, and it is found. -/
theorem alloc_range_complete_two :
    ¬ ((∃ z', buddyAllocRange twoPages 1 8192 16384 = .ok (0, z')) ∧
      ∃ i o, twoPages.Listed i o ∧ twoPages.HasPart 8192 16384 0 i o) := fun h =>
  (alloc_range_complete_iff 8192 2 (by decide) (by decide) (by decide) twoPages_run (by decide) rfl (by decide)
    8192 16384).mpr
    (.inl ⟨0, 1, by unfold BuddyZone.Listed; decide +kernel, by decide, by unfold BuddyZone.Inside; decide +kernel⟩)
    h.1 h.2

/-- The window holds the first of the two pages only. -/
theorem cut_block_passed_over : (∃ z', buddyAllocRange twoPages 1 8192 12288 = .ok (0, z')) ∧
    ∃ i o, twoPages.Listed i o ∧ twoPages.HasPart 8192 12288 0 i o := by
  have hfind :
      (candidates twoPages 0).find? (inRange (max twoPages.base 8192) (min twoPages.zoneEnd 12288)) = none := by
    decide +kernel
  refine ⟨⟨twoPages, ?_⟩, 0, 1, by unfold BuddyZone.Listed; decide +kernel, 0, by decide, by decide, by decide, ?_⟩
  · rw [@buddyAllocRange_eq _ _ 0 _ _ (by decide) rfl (by decide), hfind]
  · unfold BuddyZone.Inside
    decide +kernel

end BoxOS.Memory
