import Mathlib.Logic.Function.Basic
import Mathlib.Algebra.GroupWithZero.Nat

/-!
# The buddy allocator

`buddy.c`, on a zone after `buddy_init`. A free list is the list of the physical addresses of its nodes, from head to
tail; `nodeOrder` is the order byte in the page at an address, which stays there when the node leaves its list.
`buddy_free` reads it from a page that may not be the head of a block, and then takes the node off the list of that
order: if it is not on that list, the links of the page lead anywhere, which is the fault `brokenList`.

Addresses are numbers; `ALIGN_UP` wraps at 64 bits. The lock, the names of the lists' ends and their lengths, which
nothing reads, are left out.
-/

namespace BoxOS.Memory

def buddyMaxOrder : Nat := 14

def buddyPageSize : Nat := 4096

structure BuddyZone where
  base : Nat
  totalPages : Nat
  /-- the bit of a page: true when it is not free -/
  allocMap : Nat → Bool
  freeLists : Nat → List Nat
  nodeOrder : Nat → Nat
  freeCount : Nat

inductive BuddyFault where
  /-- the loop of `pages_to_order` does not end -/
  | endless
  /-- the panic of `buddy_free` -/
  | doubleFree
  | brokenList
deriving DecidableEq

def alignUp (addr : Nat) : Nat := (addr + (buddyPageSize - 1)) % 2 ^ 64 / buddyPageSize * buddyPageSize

def alignDown (addr : Nat) : Nat := addr / buddyPageSize * buddyPageSize

/-- The loop of `pages_to_order`: after 64 turns `n` is 0 and stays so. -/
def pagesToOrderFrom (pages : Nat) : Nat → Nat → Nat → Option Nat
  | 0, n, order => if n < pages then none else some order
  | fuel + 1, n, order => if n < pages then pagesToOrderFrom pages fuel (n * 2 % 2 ^ 64) (order + 1) else some order

def pagesToOrder (pages : Nat) : Option Nat := pagesToOrderFrom pages 64 1 0

def orderToPages (order : Nat) : Nat := 2 ^ order

namespace BuddyZone

variable (z : BuddyZone)

def zoneEnd : Nat := z.base + z.totalPages * buddyPageSize

def pageIndex (phys : Nat) : Nat := (phys - z.base) / buddyPageSize

def allocMapMarkRange (startIdx count : Nat) (allocated : Bool) : BuddyZone :=
  { z with allocMap := fun p => if startIdx ≤ p ∧ p < startIdx + count then allocated else z.allocMap p }

def buddyListInsert (phys order : Nat) : BuddyZone :=
  { z with
    freeLists := Function.update z.freeLists order (z.freeLists order ++ [phys])
    nodeOrder := Function.update z.nodeOrder phys order }

def buddyListRemove (phys order : Nat) : BuddyZone :=
  { z with freeLists := Function.update z.freeLists order ((z.freeLists order).erase phys) }

def buddyAddress (blockPhys order : Nat) : Nat :=
  z.base + ((blockPhys - z.base) ^^^ (orderToPages order * buddyPageSize))

end BuddyZone

open BuddyZone

def buddyInit (base totalPages : Nat) : BuddyZone where
  base := base
  totalPages := totalPages
  allocMap _ := true
  freeLists _ := []
  nodeOrder _ := 0
  freeCount := 0

/-- The largest order of a block at `addr` that is aligned in the zone and ends by `stop`. -/
def orderAt (z : BuddyZone) (addr stop : Nat) : Nat → Nat → Nat
  | 0, order => order
  | fuel + 1, order =>
    let nextSize := orderToPages (order + 1) * buddyPageSize
    if (addr - z.base) % nextSize ≠ 0 then order
    else if addr + nextSize > stop then order
    else orderAt z addr stop fuel (order + 1)

/-- The loop of `buddy_free_range`. -/
def freeRangeLoop (stop : Nat) : Nat → BuddyZone → Nat → BuddyZone
  | 0, z, _ => z
  | fuel + 1, z, addr =>
    if addr < stop then
      let order := orderAt z addr stop buddyMaxOrder 0
      let blockPages := orderToPages order
      let z₁ := z.allocMapMarkRange (z.pageIndex addr) blockPages false
      let z₂ := { z₁ with freeCount := z₁.freeCount + blockPages }
      freeRangeLoop stop fuel (z₂.buddyListInsert addr order) (addr + blockPages * buddyPageSize)
    else z

variable (z : BuddyZone)

def buddyFreeRange (start stop : Nat) : BuddyZone :=
  let start := if start < z.base then z.base else start
  let stop := if stop > z.zoneEnd then z.zoneEnd else stop
  if start ≥ stop then z
  else
    let start := alignUp start
    let stop := alignDown stop
    if start ≥ stop then z else freeRangeLoop stop ((stop - start) / buddyPageSize) z start

/-- The body of the inner loop of `buddy_reserve_range`: a block of order `o` that overlaps the range leaves its list,
and what it has outside the range is freed again. -/
def reserveBlock (start stop o : Nat) (z : BuddyZone) (blockPhys : Nat) : BuddyZone :=
  let blockPages := orderToPages o
  let blockEnd := blockPhys + blockPages * buddyPageSize
  if blockPhys < stop ∧ blockEnd > start then
    let z₁ := z.buddyListRemove blockPhys o
    let z₂ := { z₁ with freeCount := z₁.freeCount - blockPages }
    let z₃ := z₂.allocMapMarkRange (z.pageIndex blockPhys) blockPages true
    let z₄ := if blockPhys < start then buddyFreeRange z₃ blockPhys start else z₃
    if blockEnd > stop then buddyFreeRange z₄ stop blockEnd else z₄
  else z

/-- The walk along one list. What is freed again goes to the ends of lists and does not overlap the range, so the nodes
are those the list begins with. -/
def reserveList (start stop : Nat) (z : BuddyZone) (o : Nat) : BuddyZone :=
  (z.freeLists o).foldl (reserveBlock start stop o) z

/-- The orders from `BUDDY_MAX_ORDER` down to 0. -/
def ordersDown : List Nat := (List.range (buddyMaxOrder + 1)).reverse

def buddyReserveRange (start stop : Nat) : BuddyZone :=
  let start := alignDown start
  let stop := alignUp stop
  let start := if start < z.base then z.base else start
  let stop := if stop > z.zoneEnd then z.zoneEnd else stop
  if start ≥ stop then z else ordersDown.foldl (reserveList start stop) z

/-- A block is halved until it has the order that is asked for; the upper halves go to their lists. -/
def splitBlock (blockPhys order : Nat) : Nat → BuddyZone → BuddyZone
  | 0, z => z
  | o + 1, z =>
    if o + 1 > order then
      splitBlock blockPhys order o (z.buddyListInsert (blockPhys + orderToPages o * buddyPageSize) o)
    else z

/-- How `buddy_alloc` and `buddy_alloc_range` take a block of order `o` from its list. -/
def takeBlock (blockPhys o order : Nat) : BuddyZone :=
  let z₁ := splitBlock blockPhys order o (z.buddyListRemove blockPhys o)
  let blockPages := orderToPages order
  let z₂ := z₁.allocMapMarkRange (z₁.pageIndex blockPhys) blockPages true
  { z₂ with freeCount := z₂.freeCount - blockPages }

/-- The nodes of the lists from `order` on, in the order they are looked at. -/
def candidates (order : Nat) : List (Nat × Nat) :=
  (List.range' order (buddyMaxOrder + 1 - order)).flatMap fun o => (z.freeLists o).map fun phys => (o, phys)

/-- `buddy_alloc`: the address, 0 for `NULL`. -/
def buddyAlloc (pages : Nat) : Except BuddyFault (Nat × BuddyZone) :=
  if pages = 0 then .ok (0, z)
  else
    match pagesToOrder pages with
    | none => .error .endless
    | some order =>
      if order > buddyMaxOrder then .ok (0, z)
      else
        -- the head of the first list that has one
        match (candidates z order).head? with
        | none => .ok (0, z)
        | some (o, blockPhys) => .ok (blockPhys, takeBlock z blockPhys o order)

/-- What `buddy_alloc_range` asks of a block. -/
def inRange (minPhys maxPhys : Nat) (c : Nat × Nat) : Bool :=
  let blockEnd := c.2 + orderToPages c.1 * buddyPageSize
  ¬ (c.2 ≥ maxPhys ∨ blockEnd ≤ minPhys) ∧ c.2 ≥ minPhys ∧ blockEnd ≤ maxPhys

def buddyAllocRange (pages minPhys maxPhys : Nat) : Except BuddyFault (Nat × BuddyZone) :=
  if pages = 0 then .ok (0, z)
  else
    match pagesToOrder pages with
    | none => .error .endless
    | some order =>
      if order > buddyMaxOrder then .ok (0, z)
      else
        let minPhys := if minPhys < z.base then z.base else minPhys
        let maxPhys := if maxPhys > z.zoneEnd then z.zoneEnd else maxPhys
        if minPhys ≥ maxPhys then .ok (0, z)
        else
          match (candidates z order).find? (inRange minPhys maxPhys) with
          | none => .ok (0, z)
          | some (o, blockPhys) => .ok (blockPhys, takeBlock z blockPhys o order)

/-- The loop of `buddy_free` that joins a block with its free buddies. -/
def coalesce : Nat → BuddyZone → Nat → Nat → Except BuddyFault (BuddyZone × Nat × Nat)
  | 0, z, block, order => .ok (z, block, order)
  | fuel + 1, z, block, order =>
    let buddyPhys := z.buddyAddress block order
    if buddyPhys < z.base ∨ buddyPhys + orderToPages order * buddyPageSize > z.zoneEnd then .ok (z, block, order)
    else if z.allocMap (z.pageIndex buddyPhys) then .ok (z, block, order)
    else if z.nodeOrder buddyPhys ≠ order then .ok (z, block, order)
    else if buddyPhys ∉ z.freeLists order then .error .brokenList
    else coalesce fuel (z.buddyListRemove buddyPhys order) (if buddyPhys < block then buddyPhys else block) (order + 1)

def buddyFree (phys pages : Nat) : Except BuddyFault BuddyZone :=
  if phys = 0 ∨ pages = 0 then .ok z
  else
    match pagesToOrder pages with
    | none => .error .endless
    | some order =>
      if order > buddyMaxOrder then .ok z
      else if phys < z.base ∨ phys ≥ z.zoneEnd then .ok z
      else
        let idx := z.pageIndex phys
        let blockPages := orderToPages order
        if (List.range blockPages).any fun i => ! z.allocMap (idx + i) then .error .doubleFree
        else
          let z₁ := z.allocMapMarkRange idx blockPages false
          let z₂ := { z₁ with freeCount := z₁.freeCount + blockPages }
          match coalesce (buddyMaxOrder - order) z₂ phys order with
          | .error e => .error e
          | .ok (z₃, block, order) => .ok (z₃.buddyListInsert block order)

end BoxOS.Memory
