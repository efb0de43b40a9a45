import Mathlib.Tactic

/-!
# Page tables

The tables of `vmm.c` as they lie in memory, and the walks that do not change them: `vmm_walk_pml5_to_pml4`,
`vmm_get_pte_noalloc`, which stops at a large leaf, and `vmm_get_leaf_pte`, which returns leaves of all sizes.

An entry is found by its table and its index (`Slot`). The tables are apart from the bytes that the pages hold.
-/

namespace BoxOS.Memory

/-- `pte_t`. -/
abbrev Pte := BitVec 64

namespace Pte

/-- `VMM_FLAG_PRESENT`, `VMM_FLAG_WRITABLE`, `VMM_FLAG_USER` and `VMM_FLAG_LARGE_PAGE`. -/
def present (e : Pte) : Bool := e.getLsbD 0

@[inherit_doc present]
def writable (e : Pte) : Bool := e.getLsbD 1

@[inherit_doc present]
def user (e : Pte) : Bool := e.getLsbD 2

@[inherit_doc present]
def large (e : Pte) : Bool := e.getLsbD 7

end Pte

def vmmPageSize : Nat := 4096

/-- `VMM_PML5_INDEX` down to `VMM_PT_INDEX`: nine bits of the address. -/
def vmmIndex (addr shift : Nat) : Nat := addr / 2 ^ shift % 512

/-- An entry: the physical address of its table, and its index. -/
structure Slot where
  table : Nat
  index : Nat
  deriving DecidableEq

/-- The tables in memory, by the physical address of each. -/
def PageTables := Slot → Pte

/-- `vmm_context_t`: the root table, `g_vmm_paging_levels` and `vmm_pte_addr_mask`, which is of whole pages. -/
structure VmmContext where
  pml4 : Nat
  levels5 : Bool
  addrMask : Pte
  pages : ∀ i < 12, addrMask.getLsbD i = false

/-- `vmm_pte_to_phys`. -/
def VmmContext.pteToPhys (ctx : VmmContext) (e : Pte) : Nat := (e &&& ctx.addrMask).toNat

theorem VmmContext.pteToPhys_mod (ctx : VmmContext) (e : Pte) : ctx.pteToPhys e % vmmPageSize = 0 := by
  have hlow : (ctx.pteToPhys e) % 2 ^ 12 = 0 := by
    apply Nat.eq_of_testBit_eq
    intro i
    rw [Nat.testBit_mod_two_pow, Nat.zero_testBit]
    by_cases hi : i < 12
    · have := ctx.pages i hi
      unfold pteToPhys
      rw [BitVec.testBit_toNat, BitVec.getLsbD_and, this]
      simp
    · simp [hi]
  exact hlow

/-- `vmm_walk_pml5_to_pml4` without creating. -/
def vmmWalkPml5ToPml4 (m : PageTables) (ctx : VmmContext) (va : Nat) : Option Nat :=
  if ctx.levels5 then
    let e := m ⟨ctx.pml4, vmmIndex va 48⟩
    if e.present then some (ctx.pteToPhys e) else none
  else some ctx.pml4

/-- The table that an entry leads to. -/
def VmmContext.nextTable (m : PageTables) (ctx : VmmContext) (table : Nat) (va shift : Nat) : Option Nat :=
  let e := m ⟨table, vmmIndex va shift⟩
  if e.present then some (ctx.pteToPhys e) else none

def vmmGetPteNoalloc (m : PageTables) (ctx : VmmContext) (va : Nat) : Option Slot :=
  match vmmWalkPml5ToPml4 m ctx va with
  | none => none
  | some pml4 =>
    match ctx.nextTable m pml4 va 39 with
    | none => none
    | some pdpt =>
      let pdptEntry := m ⟨pdpt, vmmIndex va 30⟩
      if pdptEntry.present = false then none
      else if pdptEntry.large then none
      else
        let pd := ctx.pteToPhys pdptEntry
        let pdEntry := m ⟨pd, vmmIndex va 21⟩
        if pdEntry.present = false then none
        else if pdEntry.large then none
        else some ⟨ctx.pteToPhys pdEntry, vmmIndex va 12⟩

/-- `vmm_get_leaf_pte`: the leaf, and its level: 3 for 1 GiB, 2 for 2 MiB and 1 for 4 KiB. -/
def vmmGetLeafPte (m : PageTables) (ctx : VmmContext) (va : Nat) : Option (Slot × Nat) :=
  match vmmWalkPml5ToPml4 m ctx va with
  | none => none
  | some pml4 =>
    match ctx.nextTable m pml4 va 39 with
    | none => none
    | some pdpt =>
      let pdptEntry := m ⟨pdpt, vmmIndex va 30⟩
      if pdptEntry.present = false then none
      else if pdptEntry.large then some (⟨pdpt, vmmIndex va 30⟩, 3)
      else
        let pd := ctx.pteToPhys pdptEntry
        let pdEntry := m ⟨pd, vmmIndex va 21⟩
        if pdEntry.present = false then none
        else if pdEntry.large then some (⟨pd, vmmIndex va 21⟩, 2)
        else some (⟨ctx.pteToPhys pdEntry, vmmIndex va 12⟩, 1)

/-- The size of a leaf. -/
def leafSize (level : Nat) : Nat := vmmPageSize * 512 ^ (level - 1)

variable {m : PageTables} {ctx : VmmContext} {va k : Nat}

theorem vmmIndex_add (hk : va % vmmPageSize + k < vmmPageSize) {shift : Nat} (hs : 12 ≤ shift) :
    vmmIndex (va + k) shift = vmmIndex va shift := by
  have hpage : (va + k) / 2 ^ 12 = va / 2 ^ 12 := by
    unfold vmmPageSize at hk
    omega
  obtain ⟨d, rfl⟩ := Nat.exists_eq_add_of_le hs
  unfold vmmIndex
  rw [pow_add, ← Nat.div_div_eq_div_mul, ← Nat.div_div_eq_div_mul, hpage]

theorem getPte_eq_leaf (m : PageTables) (ctx : VmmContext) (va : Nat) (s : Slot) :
    vmmGetPteNoalloc m ctx va = some s ↔ vmmGetLeafPte m ctx va = some (s, 1) := by
  unfold vmmGetPteNoalloc vmmGetLeafPte
  split
  · simp
  split
  · simp
  simp only
  split
  · simp
  split
  · simp
  · split
    · simp
    · split <;> simp

theorem getPte_add (hk : va % vmmPageSize + k < vmmPageSize) :
    vmmGetPteNoalloc m ctx (va + k) = vmmGetPteNoalloc m ctx va := by
  unfold vmmGetPteNoalloc vmmWalkPml5ToPml4 VmmContext.nextTable
  rw [vmmIndex_add hk (by omega), vmmIndex_add hk (by omega), vmmIndex_add hk (by omega), vmmIndex_add hk (by omega),
    vmmIndex_add hk (by omega)]

end BoxOS.Memory
