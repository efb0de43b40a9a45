import Mathlib.Data.List.Basic

/-!
# The deque of boxcxx

`std::deque`: blocks of `k` elements, found through an array of pointers to them (`__map`), and two iterators. What was
allocated and not yet released is in `Heap.live`.

A block is where the map points to, so its cells are part of the slot. An iterator is the slot of its block and the
offset in it (`__node` and `__cur - __first`). A deque without a map, such as one that was moved from, is `none`.

What may throw, throws as `Throws` says. Moving and swapping elements that are in the deque does not throw.
-/

namespace BoxOS.Boxcxx.BlockMap

/-- What was allocated and not released, and the next address. -/
structure Heap where
  live : List Nat
  nextId : Nat

/-- `allocate`; the address is `nextId`. -/
def Heap.alloc (h : Heap) : Heap := ⟨h.nextId :: h.live, h.nextId + 1⟩

/-- `deallocate`. -/
def Heap.free (h : Heap) (x : Nat) : Heap := { h with live := h.live.erase x }

/-- A block; a cell is `none` where no element is constructed. -/
structure Block (α : Type*) where
  id : Nat
  cells : Nat → Option α

structure Iter where
  node : Nat
  off : Nat
deriving DecidableEq, Repr

/-- What throws while one element is added: the two allocations of `InitMap`, those of `GrowMap` and of the next block,
and the constructor of the element. -/
structure Throws where
  initArray : Bool := false
  initBlock : Bool := false
  growArray : Bool := false
  block : Bool := false
  construct : Bool := false

/-- A deque with a map. -/
structure Body (α : Type*) where
  arrayId : Nat
  map : List (Option (Block α))
  start : Iter
  finish : Iter

abbrev Deque (α : Type*) := Option (Body α)

/-! ## Iterators -/

namespace Iter

variable (k : Nat)

/-- `operator++`. -/
def incr (it : Iter) : Iter := if it.off + 1 = k then ⟨it.node + 1, 0⟩ else ⟨it.node, it.off + 1⟩

/-- `operator--`. -/
def decr (it : Iter) : Iter := if it.off = 0 then ⟨it.node - 1, k - 1⟩ else ⟨it.node, it.off - 1⟩

/-- `operator+=`. -/
def add (it : Iter) (n : Int) : Iter :=
  let offset := n + it.off
  if 0 ≤ offset ∧ offset < k then ⟨it.node, offset.toNat⟩
  else
    let nodeOff := if offset > 0 then offset / k else -((-offset - 1) / k) - 1
    ⟨(it.node + nodeOff).toNat, (offset - nodeOff * k).toNat⟩

/-- `operator-`. -/
def diff (a b : Iter) : Int := k * ((a.node : Int) - b.node) + a.off - b.off

end Iter

/-! ## The map -/

section Ops

variable {α : Type*} (k : Nat)

namespace Body

variable (b : Body α)

/-- `__map[n]`. -/
def slot (n : Nat) : Option (Block α) := b.map.getD n none

/-- `*it`. -/
def cell (it : Iter) : Option α := (b.slot it.node).bind fun blk => blk.cells it.off

/-- An element is constructed, assigned or destroyed. -/
def setCell (it : Iter) (x : Option α) : Body α :=
  { b with map := b.map.modify it.node (·.map fun blk => { blk with cells := Function.update blk.cells it.off x }) }

def size : Nat := (b.finish.diff k b.start).toNat

/-- What lies between `begin` and `end`. -/
def elems : List (Option α) := (List.range (b.size k)).map fun i : Nat => b.cell (b.start.add k (i : Int))

/-- Assigns to consecutive elements. -/
def writeAll (b : Body α) (it : Iter) : List (Option α) → Body α
  | [] => b
  | x :: xs => (b.setCell it x).writeAll (it.incr k) xs

end Body

/-- A step that may throw: the heap, the deque, and whether it threw. -/
abbrev Result (α : Type*) := Heap × Body α × Bool

/-- `InitMap(0)`; `none` when it throws. -/
def initMap (h : Heap) (o : Throws) : Heap × Deque α :=
  if o.initArray then (h, none)
  else
    let array := h.nextId
    let h := h.alloc
    if o.initBlock then (h.free array, none)
    else (h.alloc, some ⟨array, (List.replicate 8 none).set 4 (some ⟨h.nextId, fun _ => none⟩), ⟨4, 0⟩, ⟨4, 0⟩⟩)

def growMap (atBack : Bool) (h : Heap) (b : Body α) (o : Throws) : Result α :=
  if o.growArray then (h, b, true)
  else
    let used := b.finish.node - b.start.node + 1
    let want := b.map.length * 2
    let newStart := (want - used) / 2 + if atBack then 0 else (want - used) / 4
    let fresh := List.replicate newStart none ++ (b.map.drop b.start.node).take used ++
      List.replicate (want - used - newStart) none
    (h.alloc.free b.arrayId,
      ⟨h.nextId, fresh, ⟨newStart, b.start.off⟩, ⟨newStart + (b.finish.node - b.start.node), b.finish.off⟩⟩, false)

/-- The slot of the map that an insertion needs next. -/
def nextSlot (atBack : Bool) (b : Body α) : Nat := if atBack then b.finish.node + 1 else b.start.node - 1

/-- That slot is outside the map. -/
def atEdge (atBack : Bool) (b : Body α) : Prop :=
  if atBack then b.finish.node = b.map.length - 1 else b.start.node = 0

instance (atBack : Bool) (b : Body α) : Decidable (atEdge atBack b) := by
  unfold atEdge
  cases atBack <;> exact inferInstanceAs (Decidable (_ = _))

/-- `ReserveBack` and `ReserveFront`. -/
def reserve (atBack : Bool) (h : Heap) (b : Body α) (o : Throws) : Result α :=
  let g := if atEdge atBack b then growMap atBack h b o else (h, b, false)
  if g.2.2 then g
  else if (g.2.1.slot (nextSlot atBack g.2.1)).isSome then g
  else if o.block then (g.1, g.2.1, true)
  else
    (g.1.alloc, { g.2.1 with map := g.2.1.map.set (nextSlot atBack g.2.1) (some ⟨g.1.nextId, fun _ => none⟩) }, false)

/-- Whether the insertion needs another block. -/
def needsBlock (atBack : Bool) (b : Body α) : Prop := if atBack then b.finish.off + 1 = k else b.start.off = 0

instance (atBack : Bool) (b : Body α) : Decidable (needsBlock k atBack b) := by
  unfold needsBlock
  cases atBack <;> exact inferInstanceAs (Decidable (_ = _))

/-- The element is constructed at one end. -/
def place (atBack : Bool) (b : Body α) (v : α) : Body α :=
  if atBack then { b.setCell b.finish (some v) with finish := b.finish.incr k }
  else { b.setCell (b.start.decr k) (some v) with start := b.start.decr k }

/-- `emplace_back` and `emplace_front` of a deque with a map. -/
def emplaceBody (atBack : Bool) (h : Heap) (b : Body α) (v : α) (o : Throws) : Result α :=
  let r := if needsBlock k atBack b then reserve atBack h b o else (h, b, false)
  if r.2.2 then r
  else if o.construct then (r.1, r.2.1, true)
  else (r.1, place k atBack r.2.1 v, false)

/-- `emplace_back` and `emplace_front`: also whether it threw. -/
def emplace (atBack : Bool) (h : Heap) (d : Deque α) (v : α) (o : Throws) : Heap × Deque α × Bool :=
  match d with
  | some b =>
    let r := emplaceBody k atBack h b v o
    (r.1, some r.2.1, r.2.2)
  | none =>
    match initMap h o with
    | (h, none) => (h, none, true)
    | (h, some b) =>
      let r := emplaceBody k atBack h b v o
      (r.1, some r.2.1, r.2.2)

def emplaceBack (h : Heap) (d : Deque α) (v : α) (o : Throws) : Heap × Deque α × Bool := emplace k true h d v o

def emplaceFront (h : Heap) (d : Deque α) (v : α) (o : Throws) : Heap × Deque α × Bool := emplace k false h d v o

/-- A block of a slot is released. -/
def dropSlot (h : Heap) (b : Body α) (n : Nat) : Heap × Body α :=
  match b.slot n with
  | none => (h, b)
  | some blk => (h.free blk.id, { b with map := b.map.set n none })

/-- `pop_back`, with `ShrinkBack`. -/
def popBack (h : Heap) (b : Body α) : Heap × Body α :=
  let b := { b with finish := b.finish.decr k }
  let b := b.setCell b.finish none
  if b.finish.node + 1 < b.map.length then dropSlot h b (b.finish.node + 1) else (h, b)

/-- `pop_front`, with `ShrinkFront`. -/
def popFront (h : Heap) (b : Body α) : Heap × Body α :=
  let b := b.setCell b.start none
  let b := { b with start := b.start.incr k }
  if b.start.node > 0 then dropSlot h b (b.start.node - 1) else (h, b)

/-- Several times `pop_back`. -/
def popBacks : Nat → Heap → Body α → Heap × Body α
  | 0, h, b => (h, b)
  | n + 1, h, b => popBacks n (popBack k h b).1 (popBack k h b).2

/-- Elements are added one by one, up to the first that throws. -/
def emplaceAll (atBack : Bool) (h : Heap) (d : Deque α) : List (α × Throws) → Heap × Deque α × Bool
  | [] => (h, d, false)
  | v :: vs =>
    let r := emplace k atBack h d v.1 v.2
    if r.2.2 then r else emplaceAll atBack r.1 r.2.1 vs

/-- `std::rotate` of the elements from `pos` on: those from `old` on come first. -/
def rotateFrom (pos old : Nat) (b : Body α) : Body α :=
  b.writeAll k (b.start.add k pos) ((b.elems k).drop old ++ ((b.elems k).take old).drop pos)

/-- `insert` of some elements: appended and rotated. -/
def insert (h : Heap) (d : Deque α) (pos : Nat) (vs : List (α × Throws)) : Heap × Deque α × Bool :=
  let old := (d.map (Body.size k)).getD 0
  let r := emplaceAll k true h d vs
  if r.2.2 then r else (r.1, r.2.1.map (rotateFrom k pos old), false)

/-- `prepend_range`: put in front one by one and reversed. -/
def prependRange (h : Heap) (d : Deque α) (vs : List (α × Throws)) : Heap × Deque α × Bool :=
  let r := emplaceAll k false h d vs
  if r.2.2 then r
  else (r.1, r.2.1.map fun b => b.writeAll k b.start ((b.elems k).take vs.length).reverse, false)

/-- `erase` of `n` elements from `pos` on. -/
def erase (h : Heap) (b : Body α) (pos n : Nat) : Heap × Body α :=
  popBacks k n h (b.writeAll k (b.start.add k pos) ((b.elems k).drop (pos + n)))

def clear (h : Heap) (b : Body α) : Heap × Body α := popBacks k (b.size k) h b

def resize (h : Heap) (d : Deque α) (n : Nat) (v : α) (os : Nat → Throws) : Heap × Deque α × Bool :=
  match d with
  | none => emplaceAll k true h none ((List.range n).map fun j => (v, os j))
  | some b =>
    if b.size k > n then
      let r := popBacks k (b.size k - n) h b
      (r.1, some r.2, false)
    else emplaceAll k true h (some b) ((List.range (n - b.size k)).map fun j => (v, os j))

/-- The blocks of some slots are released. -/
def dropSlots (p : Nat → Bool) : List Nat → Heap → Body α → Heap × Body α
  | [], h, b => (h, b)
  | n :: ns, h, b =>
    if p n then dropSlots p ns (dropSlot h b n).1 (dropSlot h b n).2 else dropSlots p ns h b

def shrinkToFit (h : Heap) (b : Body α) : Heap × Body α :=
  dropSlots (fun n => decide (n < b.start.node ∨ n > b.finish.node)) (List.range b.map.length) h b

def teardown (h : Heap) (d : Deque α) : Heap :=
  match d with
  | none => h
  | some b =>
    let r := clear k h b
    let r := dropSlots (fun _ => true) (List.range r.2.map.length) r.1 r.2
    r.1.free r.2.arrayId

end Ops

end BoxOS.Boxcxx.BlockMap
