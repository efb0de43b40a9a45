import Mathlib.Data.List.Basic
import Mathlib.Algebra.GroupWithZero.Nat

/-!
# The chained hash table of boxcxx

`__ht::Table` behind the four unordered containers: an array of chains, each node with its cached hash, and iterators
that are pointers to nodes.

A pointer to a node in a chain is the part of the chain from this node on (`Cursor`), so that `next` is the tail. A node
has an identity, its address. When the table grows, and how far at least, comes from `max_load_factor` in floating
point; here both are any functions (`LoadFactor`). An allocation or a hash that throws leaves the table as it was and is
left out.
-/

namespace BoxOS.Boxcxx

/-- `Hash` and `KeyEq`: an equivalence, and equal keys have the same hash. -/
structure Hasher (κ : Type*) where
  hash : κ → Nat
  eq : κ → κ → Bool
  equiv : Equivalence fun a b => eq a b = true
  compat : ∀ a b, eq a b = true → hash a = hash b

/-- `__max_lf`: whether a number of nodes is too much for a number of buckets, and `lf_floor` of a number of nodes. -/
structure LoadFactor where
  tooFull : Nat → Nat → Bool
  floor : Nat → Nat

structure Node (ν : Type*) where
  id : Nat
  hash : Nat
  value : ν

/-- `Table`; `unique` says which of the containers it is in. -/
structure Table (κ ν : Type*) where
  hasher : Hasher κ
  unique : Bool
  maxLf : LoadFactor
  buckets : List (List (Node ν))
  count : Nat

/-- `Iter`: the node and what follows it in its chain; the end is `[]`. -/
abbrev Cursor (ν : Type*) := List (Node ν)

/-- `RoundBuckets`: the first of 8, 16, … that is enough. There is none above 2^63, and then the loop does not end. -/
def roundBuckets (want : Nat) : Option Nat :=
  ((List.range' 3 61).find? fun k => decide (want ≤ 2 ^ k)).map fun k => 2 ^ k

namespace Table

variable {κ ν : Type*}

/-- A table without buckets. -/
def empty (h : Hasher κ) (unique : Bool) (lf : LoadFactor) : Table κ ν := ⟨h, unique, lf, [], 0⟩

variable (t : Table κ ν)

/-- All nodes, chain by chain. -/
def nodes : List (Node ν) := t.buckets.flatten

/-- `IndexOf` for a number of buckets. -/
def slotOf (bucketCount hash : Nat) : Nat := hash &&& (bucketCount - 1)

@[inherit_doc slotOf]
def indexOf (hash : Nat) : Nat := slotOf t.buckets.length hash

/-- `__buckets[idx]`. -/
def chain (idx : Nat) : List (Node ν) := t.buckets.getD idx []

def nextBucketHead (start : Nat) : Cursor ν :=
  ((t.buckets.drop start).find? fun c => !c.isEmpty).getD []

/-- `begin`. -/
def first : Cursor ν := t.nextBucketHead 0

/-- `Iter::operator++`. -/
def advance : Cursor ν → Cursor ν
  | [] => []
  | n :: rest => if rest.isEmpty then t.nextBucketHead (t.indexOf n.hash + 1) else rest

/-- Steps of an iterator while the nodes pass a test: the nodes, and where it stops. -/
def walkWhile (t : Table κ ν) (q : Node ν → Bool) : Nat → Cursor ν → List (Node ν) × Cursor ν
  | 0, c => ([], c)
  | _ + 1, [] => ([], [])
  | fuel + 1, n :: rest =>
    if q n then
      let r := t.walkWhile q fuel (t.advance (n :: rest))
      (n :: r.1, r.2)
    else ([], n :: rest)

/-- Steps of an iterator up to another one. -/
def walkTo (t : Table κ ν) (last : Cursor ν) : Nat → Cursor ν → List (Node ν)
  | 0, _ => []
  | _ + 1, [] => []
  | fuel + 1, n :: rest =>
    if last.head?.map (·.id) = some n.id then [] else n :: t.walkTo last fuel (t.advance (n :: rest))

/-- What `begin` to `end` visits. -/
def visited : List (Node ν) := (t.walkWhile (fun _ => true) t.count t.first).1

section Keys

variable (keyOf : ν → κ)

/-- `__eq(KeyOfValue{}(n->value), key)`. -/
def hasKey (t : Table κ ν) (key : κ) (n : Node ν) : Bool := t.hasher.eq (keyOf n.value) key

/-- The test of the chain loops: the cached hash first. -/
def hits (t : Table κ ν) (h : Nat) (key : κ) (n : Node ν) : Bool := n.hash == h && t.hasKey keyOf key n

def find (t : Table κ ν) (key : κ) : Cursor ν :=
  if t.count = 0 then []
  else (t.chain (t.indexOf (t.hasher.hash key))).dropWhile fun n => !t.hits keyOf (t.hasher.hash key) key n

/-- `Count`. -/
def countKey (t : Table κ ν) (key : κ) : Nat :=
  (t.walkWhile (t.hasKey keyOf key) t.count (t.find keyOf key)).1.length

def equalRange (t : Table κ ν) (key : κ) : Cursor ν × Cursor ν :=
  (t.find keyOf key, (t.walkWhile (t.hasKey keyOf key) t.count (t.find keyOf key)).2)

end Keys

/-- Links a node into a chain at the place that `place` finds. -/
def link (place : List (Node ν) → List (Node ν)) (h : Nat) : Table κ ν :=
  { t with buckets := t.buckets.modify (t.indexOf h) place, count := t.count + 1 }

/-- Takes a node out of the chain of its cached hash: `ExtractNode`, and `Erase` without the next iterator. -/
def unlink (z : Node ν) : Table κ ν :=
  { t with buckets := t.buckets.modify (t.indexOf z.hash) (·.eraseP fun n => n.id == z.id), count := t.count - 1 }

def erase : Cursor ν → Table κ ν × Cursor ν
  | [] => (t, [])
  | z :: rest => (t.unlink z, t.advance (z :: rest))

def clear : Table κ ν := { t with buckets := t.buckets.map fun _ => [], count := 0 }

def allocateBuckets (n : Nat) : Table κ ν := { t with buckets := List.replicate n [] }

/-- The loop of `Rehash`: every node goes to the front of its new chain. -/
def relink (target : Nat) (nodes : List (Node ν)) : List (List (Node ν)) :=
  nodes.foldl (fun bs n => bs.modify (slotOf target n.hash) (n :: ·)) (List.replicate target [])

def rehash (wantBuckets : Nat) : Option (Table κ ν) :=
  match roundBuckets (max wantBuckets (t.maxLf.floor t.count)) with
  | none => none
  | some target =>
    if target = t.buckets.length then some t else some { t with buckets := relink target t.nodes }

def maybeGrow : Option (Table κ ν) :=
  if t.buckets.isEmpty then some (t.allocateBuckets 8)
  else if t.maxLf.tooFull (t.count + 1) t.buckets.length then t.rehash (t.buckets.length * 2)
  else some t

section Insert

variable (keyOf : ν → κ)

/-- Whether a node of the chain of the hash has the key. -/
def present (t : Table κ ν) (h : Nat) (key : κ) : Bool :=
  !t.buckets.isEmpty && (t.chain (t.indexOf h)).any (t.hits keyOf h key)

/-- `ReinsertUnique`: whether the node was linked. -/
def reinsertUnique (t : Table κ ν) (n : Node ν) : Option (Table κ ν × Bool) :=
  let h := t.hasher.hash (keyOf n.value)
  if t.present keyOf h (keyOf n.value) then some (t, false)
  else t.maybeGrow.map fun t => (t.link ({ n with hash := h } :: ·) h, true)

/-- `FindMultiSlot` and the linking after it: behind the last node before the first with the key. -/
def beforeGroup (t : Table κ ν) (h : Nat) (n : Node ν) (c : List (Node ν)) : List (Node ν) :=
  let q := fun e => !t.hits keyOf h (keyOf n.value) e
  c.takeWhile q ++ { n with hash := h } :: c.dropWhile q

def reinsertMulti (t : Table κ ν) (n : Node ν) : Option (Table κ ν) :=
  let h := t.hasher.hash (keyOf n.value)
  t.maybeGrow.map fun t => t.link (t.beforeGroup keyOf h n) h

/-- The loop of `EraseKey`. -/
def eraseKeyLoop (key : κ) : Nat → Table κ ν → Cursor ν → Nat → Table κ ν × Nat
  | 0, t, _, removed => (t, removed)
  | _ + 1, t, [], removed => (t, removed)
  | fuel + 1, t, n :: rest, removed =>
    if t.hasKey keyOf key n then
      let r := t.erase (n :: rest)
      eraseKeyLoop key fuel r.1 r.2 (removed + 1)
    else (t, removed)

/-- `EraseKey`: also the number of nodes. -/
def eraseKey (t : Table κ ν) (key : κ) : Table κ ν × Nat := eraseKeyLoop keyOf key t.count t (t.find keyOf key) 0

/-- The loop of `MergeUnique`: the target, and the source. -/
def mergeUniqueLoop : Nat → Table κ ν → Table κ ν → Cursor ν → Option (Table κ ν × Table κ ν)
  | 0, t, src, _ => some (t, src)
  | _ + 1, t, src, [] => some (t, src)
  | fuel + 1, t, src, n :: rest =>
    let next := src.advance (n :: rest)
    let h := t.hasher.hash (keyOf n.value)
    if t.present keyOf h (keyOf n.value) then mergeUniqueLoop fuel t src next
    else
      match t.maybeGrow with
      | none => none
      | some t => mergeUniqueLoop fuel (t.link ({ n with hash := h } :: ·) h) (src.unlink n) next

def mergeUnique (t src : Table κ ν) : Option (Table κ ν × Table κ ν) :=
  mergeUniqueLoop keyOf src.count t src src.first

/-- The loop of `MergeMulti`. -/
def mergeMultiLoop : Nat → Table κ ν → Table κ ν → Cursor ν → Option (Table κ ν × Table κ ν)
  | 0, t, src, _ => some (t, src)
  | _ + 1, t, src, [] => some (t, src)
  | fuel + 1, t, src, n :: rest =>
    let next := src.advance (n :: rest)
    let h := t.hasher.hash (keyOf n.value)
    match t.maybeGrow with
    | none => none
    | some t => mergeMultiLoop fuel (t.link (t.beforeGroup keyOf h n) h) (src.unlink n) next

def mergeMulti (t src : Table κ ν) : Option (Table κ ν × Table κ ν) :=
  mergeMultiLoop keyOf src.count t src src.first

/-- `EmplaceMulti` of some values; the new nodes have the addresses from `id` on. -/
def emplaceAll (t : Table κ ν) : Nat → List ν → Option (Table κ ν)
  | _, [] => some t
  | id, v :: vs => (t.reinsertMulti keyOf ⟨id, 0, v⟩).bind fun t => t.emplaceAll (id + 1) vs

/-- `CopyFrom`, into a table without buckets that has the hasher of the other one. -/
def copyFrom (t other : Table κ ν) (id : Nat) : Option (Table κ ν) :=
  if other.count = 0 then some t
  else emplaceAll keyOf { t.allocateBuckets other.buckets.length with maxLf := other.maxLf } id
    (other.visited.map (·.value))

end Insert

end Table

end BoxOS.Boxcxx
