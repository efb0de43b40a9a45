import Mathlib.Data.List.Basic
import Mathlib.Algebra.GroupWithZero.Nat

/-!
# The flat hash table of box

`box::__flat_hash::Table` behind `flat_hash_map` and `flat_hash_set` (a set is a map to `Unit`): a circle of slots with
linear probing, in which an insertion moves elements that are nearer to their ideal slot out of the way, and a removal
moves displaced elements back.

A slot of which `ctl_` is zero is `none`. A loop that may go around has fuel, and `none` means that it did not come
back. Throwing constructors, hashes and allocations are left out.
-/

namespace BoxOS.Boxcxx.Flat

structure KeyEq (κ : Type*) where
  eq : κ → κ → Bool
  equiv : Equivalence fun a b => eq a b = true

/-- `Hash`; equal keys have the same hash. -/
structure HashFn {κ : Type*} (E : KeyEq κ) where
  hash : κ → Nat
  compat : ∀ a b, E.eq a b = true → hash a = hash b

/-- A taken slot: `ctl_[s]`, `keys_[s]` and `vals_[s]`. -/
structure Slot (κ μ : Type*) where
  ctl : Nat
  key : κ
  val : μ

/-- `ctl_`, `keys_` and `vals_`. -/
abbrev Slots (κ μ : Type*) := List (Option (Slot κ μ))

/-- `Table`; `cap_` is the number of slots. -/
structure Table {κ : Type*} (E : KeyEq κ) (μ : Type*) where
  hasher : HashFn E
  slots : Slots κ μ
  size : Nat

def kTaken : Nat := 0x80000000

def kMaxSlots : Nat := 2 ^ 31

/-- The first of 8, 16, … that is enough. There is none above 2^63, and then the loop does not end. -/
def doubling (enough : Nat → Bool) : Option Nat := ((List.range' 3 61).find? fun k => enough (2 ^ k)).map fun k => 2 ^ k

def roundSlots (want : Nat) : Option Nat := doubling fun n => decide (want ≤ n)

/-- `Limit`, for a number of slots. -/
def limitOf (cap : Nat) : Nat := cap - cap / 8

def slotsForSize (n : Nat) : Option Nat := doubling fun c => decide (n ≤ limitOf c)

def ctlOf (h : Nat) : Nat := h % 2 ^ 32 ||| kTaken

def idealOf (cap c : Nat) : Nat := c &&& (cap - 1)

/-- `DistanceOf` a slot with `c`; the subtraction is in 64 bits. -/
def distanceOf (cap s c : Nat) : Nat := (s + 2 ^ 64 - idealOf cap c) &&& (cap - 1)

/-- `(s + 1) & mask_`. -/
def nextSlot (cap s : Nat) : Nat := (s + 1) &&& (cap - 1)

/-- `(s - 1) & mask_`. -/
def prevSlot (cap s : Nat) : Nat := (s + 2 ^ 64 - 1) &&& (cap - 1)

section Slots

variable {κ μ : Type*}
variable (l : Slots κ μ)

def slotAt (s : Nat) : Option (Slot κ μ) := l.getD s none

/-- The taken slots in the order of the array. -/
def entries : List (Slot κ μ) := l.filterMap id

/-- The loop of `FindSlotImpl`; `none` in the result is `npos`. -/
def findLoop (E : KeyEq κ) (l : Slots κ μ) (c : Nat) (k : κ) : Nat → Nat → Nat → Option (Option Nat)
  | 0, _, _ => none
  | fuel + 1, s, d =>
    match slotAt l s with
    | none => some none
    | some x =>
      if distanceOf l.length s x.ctl < d then some none
      else if x.ctl == c && E.eq x.key k then some (some s)
      else findLoop E l c k fuel (nextSlot l.length s) (d + 1)

/-- The first loop of `PlaceWithCtl`. -/
def seekLoop (l : Slots κ μ) : Nat → Nat → Nat → Option Nat
  | 0, _, _ => none
  | fuel + 1, s, d =>
    match slotAt l s with
    | none => some s
    | some x => if distanceOf l.length s x.ctl ≥ d then seekLoop l fuel (nextSlot l.length s) (d + 1) else some s

/-- The second loop of `PlaceWithCtl`. -/
def freeLoop (l : Slots κ μ) : Nat → Nat → Option Nat
  | 0, _ => none
  | fuel + 1, e => if (slotAt l e).isNone then some e else freeLoop l fuel (nextSlot l.length e)

/-- The loop of `RotateRight`. -/
def rotateLoop (s : Nat) : Nat → Slots κ μ → Nat → Nat → Option (Slots κ μ)
  | 0, _, _, _ => none
  | fuel + 1, l, dst, src =>
    let l := l.set dst (slotAt l src)
    if src = s then some l else rotateLoop s fuel l src (prevSlot l.length src)

/-- `PlaceWithCtl`: also the slot. -/
def placeWithCtl (x : Slot κ μ) : Option (Slots κ μ × Nat) :=
  (seekLoop l l.length (idealOf l.length x.ctl) 0).bind fun s =>
    if (slotAt l s).isNone then some (l.set s (some x), s)
    else
      (freeLoop l l.length s).bind fun e =>
        (rotateLoop s l.length (l.set e (some x)) e (prevSlot l.length e)).map fun l => (l.set s (some x), s)

/-- `EraseAt`, without the size. -/
def eraseLoop : Nat → Slots κ μ → Nat → Option (Slots κ μ)
  | 0, _, _ => none
  | fuel + 1, l, s =>
    match slotAt l (nextSlot l.length s) with
    | none => some (l.set s none)
    | some x =>
      if distanceOf l.length (nextSlot l.length s) x.ctl ≠ 0 then
        eraseLoop fuel (l.set s (some x)) (nextSlot l.length s)
      else some (l.set s none)

/-- `PlaceWithCtl` of several slots: the loops of `RehashTo` and `CopyFrom`. -/
def placeAll (xs : List (Slot κ μ)) : Option (Slots κ μ) :=
  xs.foldlM (fun l x => (placeWithCtl l x).map Prod.fst) l

/-- The slots of `Allocate`. -/
def allocate (κ μ : Type*) (cap : Nat) : Slots κ μ := List.replicate cap none

end Slots

namespace Table

variable {κ μ : Type*} {E : KeyEq κ}

/-- A table without slots. -/
def empty (μ : Type*) (h : HashFn E) : Table E μ := ⟨h, [], 0⟩

variable (t : Table E μ)

def cap : Nat := t.slots.length

def findSlot (k : κ) : Option (Option Nat) :=
  if t.cap = 0 then some none
  else findLoop E t.slots (ctlOf (t.hasher.hash k)) k t.cap (t.hasher.hash k &&& (t.cap - 1)) 0

def rehashTo (slots : Nat) : Option (Table E μ) :=
  (placeAll (allocate κ μ slots) (entries t.slots)).map fun l => { t with slots := l, size := (entries t.slots).length }

/-- The end of `EmplaceKey` and of `AssignOrEmplace`: there is no such key. -/
def placeNew (k : κ) (v : μ) : Option (Table E μ × Nat) :=
  (if t.size + 1 > limitOf t.cap then t.rehashTo (if t.cap = 0 then 8 else t.cap * 2) else some t).bind fun t =>
    (placeWithCtl t.slots ⟨ctlOf (t.hasher.hash k), k, v⟩).map fun r =>
    ({ t with slots := r.1, size := t.size + 1 }, r.2)

/-- `EmplaceKey`: also the slot, and whether the key is new. -/
def emplaceKey (k : κ) (v : μ) : Option (Table E μ × Nat × Bool) :=
  (t.findSlot k).bind fun
    | some s => some (t, s, false)
    | none => (t.placeNew k v).map fun r => (r.1, r.2, true)

def assignOrEmplace (k : κ) (v : μ) : Option (Table E μ × Nat × Bool) :=
  (t.findSlot k).bind fun
    | some s => some ({ t with slots := t.slots.modify s fun x => x.map fun x => { x with val := v } }, s, false)
    | none => (t.placeNew k v).map fun r => (r.1, r.2, true)

def eraseAt (s : Nat) : Option (Table E μ) :=
  (eraseLoop t.cap t.slots s).map fun l => { t with slots := l, size := t.size - 1 }

/-- `erase` of an iterator, which points to a taken slot. -/
def eraseIter (s : Nat) : Option (Table E μ) := if (slotAt t.slots s).isSome then t.eraseAt s else none

/-- `erase` of a key: also the number of elements. -/
def eraseKey (k : κ) : Option (Table E μ × Nat) :=
  (t.findSlot k).bind fun
    | none => some (t, 0)
    | some s => (t.eraseAt s).map fun t => (t, 1)

/-- The loop of `EraseIf`. -/
def eraseIfLoop (p : κ → μ → Bool) (origin : Nat) : Nat → Table E μ → Nat → Nat → Option (Table E μ × Nat)
  | 0, _, _, _ => none
  | fuel + 1, t, n, removed =>
    if n < t.cap then
      let s := (origin + n) &&& (t.cap - 1)
      match slotAt t.slots s with
      | none => eraseIfLoop p origin fuel t (n + 1) removed
      | some x =>
        if !p x.key x.val then eraseIfLoop p origin fuel t (n + 1) removed
        else
          (t.eraseAt s).bind fun t =>
            eraseIfLoop p origin fuel t (if (slotAt t.slots s).isSome then n else n + 1) (removed + 1)
    else some (t, removed)

/-- `EraseIf`: also the number of elements. -/
def eraseIf (p : κ → μ → Bool) : Option (Table E μ × Nat) :=
  if t.cap = 0 ∨ t.size = 0 then some (t, 0)
  else
    let origin := t.slots.findIdx (·.isNone)
    eraseIfLoop p (if origin = t.cap then 0 else origin) (2 * t.cap + 1) t 0 0

def rehash (slots : Nat) : Option (Table E μ) :=
  (slotsForSize t.size).bind fun need =>
    (roundSlots (if slots < need then need else slots)).bind fun want =>
      if want = t.cap then some t else t.rehashTo want

/-- `max_size`; the allocator bounds it as well. -/
def maxSize (byAlloc : Nat) : Nat := min (kMaxSlots - kMaxSlots / 8) byAlloc

/-- `reserve`; past `max_size` it throws. -/
def reserve (byAlloc n : Nat) : Option (Table E μ) :=
  if n > maxSize byAlloc then some t
  else (slotsForSize n).bind fun want => if want > t.cap then t.rehashTo want else some t

/-- `CopyFrom`, into a table without slots that has the hash of the other one. -/
def copyFrom (other : Table E μ) : Option (Table E μ) :=
  if other.size = 0 then some (empty μ other.hasher)
  else
    (slotsForSize other.size).bind fun cap =>
      (placeAll (allocate κ μ cap) (entries other.slots)).map fun l => ⟨other.hasher, l, (entries other.slots).length⟩

def clear : Table E μ := { t with slots := t.slots.map fun _ => none, size := 0 }

/-- The loop of `KeyedEqual` over the taken slots. -/
def keyedEqualLoop (veq : μ → μ → Bool) (other : Table E μ) : List (Slot κ μ) → Option Bool
  | [] => some true
  | x :: rest =>
    (other.findSlot x.key).bind fun
      | none => some false
      | some o =>
        if (slotAt other.slots o).any fun y => veq x.val y.val then keyedEqualLoop veq other rest else some false

/-- `KeyedEqual`; `veq` is the comparison of values. -/
def keyedEqual (t other : Table E μ) (veq : μ → μ → Bool) : Option Bool :=
  if t.size ≠ other.size then some false else keyedEqualLoop veq other (entries t.slots)

end Table

end BoxOS.Boxcxx.Flat
