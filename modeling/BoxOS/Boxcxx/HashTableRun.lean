import BoxOS.Lib.Holdings
import BoxOS.Lib.Runs
import BoxOS.Boxcxx.HashTableInv

/-!
# Runs of hash tables

Any number of tables, each with a hash of its own, and the nodes that were extracted. `BagWorld.Step` says what each
operation does to the multisets of elements, where the address of a node stands for its element. Every step of a run
does that (`Inv.next`), and every table that a run reaches is `WellKept`.

An operation that does not come back (a rehash to more than 2^63 buckets) has no next state, nor has one that is used
against its preconditions.
-/

namespace BoxOS.Boxcxx

open Lib List Option Table

/-- The tables, the node handles, and the next address of a node. -/
structure HashWorld (κ ν : Type*) where
  tables : List (Table κ ν)
  handles : List (Node ν)
  nextId : Nat

/-- The operations of the containers; a new table has the load factor `lf`. -/
inductive HashOp (κ ν : Type*) where
  | create (h : Hasher κ) (unique : Bool) (lf : LoadFactor) (buckets : Nat)
  | emplace (i : Nat) (v : ν)
  | erase (i id : Nat)
  | eraseKey (i : Nat) (key : κ)
  | extract (i id : Nat)
  | reinsert (i j : Nat)
  | merge (i j : Nat)
  | rehash (i want : Nat)
  | maxLoadFactor (i : Nat) (lf : LoadFactor)
  | copyNew (j : Nat) (lf : LoadFactor)
  | copy (i j : Nat)
  | move (i j : Nat)
  | moveElements (i j : Nat)
  | swap (i j : Nat)
  | clear (i : Nat)

namespace HashWorld

variable {κ ν : Type*} (keyOf : ν → κ)

def init : HashWorld κ ν := ⟨[], [], 0⟩

/-- A table changes. -/
def set (w : HashWorld κ ν) (i : Nat) (t : Table κ ν) : HashWorld κ ν := { w with tables := w.tables.set i t }

variable (w : HashWorld κ ν)

/-- An operation on one table. -/
def on (i : Nat) (f : Table κ ν → Option (Table κ ν)) : Option (HashWorld κ ν) :=
  (w.tables[i]?).bind fun t => (f t).map fun t => w.set i t

/-- An operation on two different tables. -/
def onTwo (i j : Nat) (f : Table κ ν → Table κ ν → Option (Table κ ν × Table κ ν)) :
    Option (HashWorld κ ν) :=
  if i = j then some w
  else
    (w.tables[i]?).bind fun t => (w.tables[j]?).bind fun src =>
      (f t src).map fun r => (w.set i r.1).set j r.2

/-- `EmplaceUnique` and `EmplaceMulti`. -/
def emplaceNode (t : Table κ ν) (n : Node ν) : Option (Table κ ν × Bool) :=
  if t.unique then t.reinsertUnique keyOf n else (t.reinsertMulti keyOf n).map fun t => (t, true)

/-- The node with an address. -/
def nodeAt (t : Table κ ν) (id : Nat) : Option (Node ν) := t.nodes.find? fun n => n.id == id

def next : HashOp κ ν → Option (HashWorld κ ν)
  | .create h unique lf buckets =>
    if buckets = 0 then some { w with tables := w.tables ++ [.empty h unique lf] }
    else
      (roundBuckets buckets).map fun n =>
        { w with tables := w.tables ++ [(empty h unique lf).allocateBuckets n] }
  | .emplace i v =>
    (w.tables[i]?).bind fun t => (emplaceNode keyOf t ⟨w.nextId, 0, v⟩).map fun r =>
      { w.set i r.1 with nextId := w.nextId + 1 }
  | .erase i id => w.on i fun t => (nodeAt t id).map fun z => t.unlink z
  | .eraseKey i key => w.on i fun t => some (t.eraseKey keyOf key).1
  | .extract i id =>
    (w.tables[i]?).bind fun t => (nodeAt t id).map fun z =>
      { w.set i (t.unlink z) with handles := w.handles ++ [z] }
  | .reinsert i j =>
    (w.tables[i]?).bind fun t => (w.handles[j]?).bind fun n => (emplaceNode keyOf t n).map fun r =>
      { w.set i r.1 with handles := if r.2 then w.handles.eraseIdx j else w.handles }
  | .merge i j => w.onTwo i j fun t src => if t.unique then t.mergeUnique keyOf src else t.mergeMulti keyOf src
  | .rehash i want => w.on i fun t => t.rehash want
  | .maxLoadFactor i lf => w.on i fun t => some { t with maxLf := lf }
  | .copyNew j lf =>
    (w.tables[j]?).bind fun other =>
      ((empty other.hasher other.unique lf).copyFrom keyOf other w.nextId).map fun t =>
        { w with tables := w.tables ++ [t], nextId := w.nextId + other.count }
  | .copy i j =>
    if i = j then some w
    else
      (w.tables[i]?).bind fun t => (w.tables[j]?).bind fun other =>
        if t.unique ≠ other.unique then none
        else
          ((empty other.hasher other.unique t.maxLf).copyFrom keyOf other w.nextId).map fun t' =>
            { w.set i t' with nextId := w.nextId + other.count }
  | .move i j => w.onTwo i j fun t other =>
      if t.unique ≠ other.unique then none else some (other, { other with buckets := [], count := 0 })
  | .moveElements i j =>
    if i = j then some w
    else
      (w.tables[i]?).bind fun t => (w.tables[j]?).bind fun other =>
        if t.unique ≠ other.unique then none
        else
          (emplaceAll keyOf { t.clear with hasher := other.hasher, maxLf := other.maxLf } w.nextId
            (other.visited.map (·.value))).map fun t' =>
            { (w.set i t').set j other.clear with nextId := w.nextId + other.count }
  | .swap i j => w.onTwo i j fun t other => if t.unique ≠ other.unique then none else some (other, t)
  | .clear i => w.on i fun t => some t.clear

/-- One operation. -/
def Step (e : HashOp κ ν) (w' : HashWorld κ ν) : Prop := w.next keyOf e = some w'

end HashWorld

/-! ## Multisets -/

/-- What a table is for: a multiset of elements. -/
structure Bag (κ ν : Type*) where
  hasher : Hasher κ
  unique : Bool
  elements : Multiset ν

/-- All multisets, and the elements that were extracted. -/
structure BagWorld (κ ν : Type*) where
  bags : List (Bag κ ν)
  handles : List ν

section Bags

variable {κ ν : Type*} (keyOf : ν → κ)

/-- A unique container does not take an element whose key it has. -/
def Bag.Takes (B : Bag κ ν) (v : ν) : Prop :=
  B.unique = true → ∀ m ∈ B.elements, ¬B.hasher.eq (keyOf m) (keyOf v) = true

/-- Some elements of `S` go to `B`: all to a multi container; to a unique one only such as it does not have, and what
stays has its key there afterwards. -/
structure Bag.Merges (B S : Bag κ ν) (moved rest : Multiset ν) : Prop where
  source : S.elements = moved + rest
  takes : ∀ v ∈ moved, B.Takes keyOf v
  stays : B.unique = true → ∀ v ∈ rest, ∃ m ∈ moved + B.elements, B.hasher.eq (keyOf m) (keyOf v) = true
  multi : B.unique = false → rest = 0

namespace BagWorld

/-- A container changes. -/
def set (b : BagWorld κ ν) (i : Nat) (B : Bag κ ν) : BagWorld κ ν := { b with bags := b.bags.set i B }

/-- What an operation does to the elements; `element i id` is the one that the node `id` of container `i` holds. -/
def Step (b : BagWorld κ ν) (element : Nat → Nat → Option ν) : HashOp κ ν → BagWorld κ ν → Prop
  | .create h unique _ _, b' => b' = { b with bags := b.bags ++ [⟨h, unique, 0⟩] }
  | .emplace i v, b' => ∃ B, b.bags[i]? = some B ∧
      (B.Takes keyOf v ∧ b' = b.set i { B with elements := v ::ₘ B.elements } ∨ ¬B.Takes keyOf v ∧ b' = b)
  | .erase i id, b' => ∃ B v rest, b.bags[i]? = some B ∧ element i id = some v ∧ B.elements = v ::ₘ rest ∧
      b' = b.set i { B with elements := rest }
  | .eraseKey i key, b' => ∃ B, b.bags[i]? = some B ∧
      b' = b.set i { B with elements := B.elements.filter fun v => B.hasher.eq (keyOf v) key = false }
  | .extract i id, b' => ∃ B v rest, b.bags[i]? = some B ∧ element i id = some v ∧ B.elements = v ::ₘ rest ∧
      b' = { b.set i { B with elements := rest } with handles := b.handles ++ [v] }
  | .reinsert i j, b' => ∃ B v, b.bags[i]? = some B ∧ b.handles[j]? = some v ∧
      (B.Takes keyOf v ∧
          b' = { b.set i { B with elements := v ::ₘ B.elements } with handles := b.handles.eraseIdx j } ∨
        ¬B.Takes keyOf v ∧ b' = b)
  | .merge i j, b' => i = j ∧ b' = b ∨ i ≠ j ∧ ∃ B S moved rest, b.bags[i]? = some B ∧ b.bags[j]? = some S ∧
      B.Merges keyOf S moved rest ∧
      b' = (b.set i { B with elements := moved + B.elements }).set j { S with elements := rest }
  | .rehash _ _, b' => b' = b
  | .maxLoadFactor _ _, b' => b' = b
  | .copyNew j _, b' => ∃ S, b.bags[j]? = some S ∧ b' = { b with bags := b.bags ++ [S] }
  | .copy i j, b' => i = j ∧ b' = b ∨ i ≠ j ∧ ∃ S, b.bags[j]? = some S ∧ b' = b.set i S
  | .move i j, b' => i = j ∧ b' = b ∨ i ≠ j ∧ ∃ S, b.bags[j]? = some S ∧ b' = (b.set i S).set j { S with elements := 0 }
  | .moveElements i j, b' =>
    i = j ∧ b' = b ∨ i ≠ j ∧ ∃ S, b.bags[j]? = some S ∧ b' = (b.set i S).set j { S with elements := 0 }
  | .swap i j, b' => i = j ∧ b' = b ∨ i ≠ j ∧ ∃ B S, b.bags[i]? = some B ∧ b.bags[j]? = some S ∧
      b' = (b.set i S).set j B
  | .clear i, b' => ∃ B, b.bags[i]? = some B ∧ b' = b.set i { B with elements := 0 }

end BagWorld

end Bags

/-- The multiset of a table. -/
def Table.bag {κ ν : Type*} (t : Table κ ν) : Bag κ ν := ⟨t.hasher, t.unique, t.values⟩

namespace HashWorld

variable {κ ν : Type*} {keyOf : ν → κ} {w : HashWorld κ ν}

/-- The multisets of the tables. -/
def bags (w : HashWorld κ ν) : BagWorld κ ν := ⟨w.tables.map bag, w.handles.map (·.value)⟩

/-- The element in a node of a table. -/
def element (w : HashWorld κ ν) (i id : Nat) : Option ν := (w.tables[i]?).bind fun t => (nodeAt t id).map (·.value)

variable (keyOf) in
/-- What an operation does to the multisets of the tables. -/
def Acts (w : HashWorld κ ν) (e : HashOp κ ν) (w' : HashWorld κ ν) : Prop := w.bags.Step keyOf w.element e w'.bags

/-! ## The invariant -/

/-- How many nodes of a table have the address. -/
def idCount (x : Nat) (t : Table κ ν) : Nat := t.nodes.countP fun n => n.id == x

/-- How many nodes have the address. -/
def owners (w : HashWorld κ ν) (x : Nat) : Nat :=
  total (idCount x) w.tables + w.handles.countP fun n => n.id == x

variable (keyOf) in
/-- Every table is kept, and every node is in one place. -/
structure Inv (w : HashWorld κ ν) : Prop where
  tables : ∀ t ∈ w.tables, t.Inv keyOf
  once : ∀ x, w.owners x ≤ 1
  fresh : ∀ x, w.nextId ≤ x → w.owners x = 0

theorem init_inv : (init : HashWorld κ ν).Inv keyOf := ⟨nofun, fun _ => Nat.zero_le _, fun _ _ => rfl⟩

theorem Inv.of_owners {w' : HashWorld κ ν} (h : w.Inv keyOf) (htables : ∀ t ∈ w'.tables, t.Inv keyOf)
    (hle : w.nextId ≤ w'.nextId)
    (howners : ∀ x, w'.owners x ≤ w.owners x + if w.nextId ≤ x ∧ x < w'.nextId then 1 else 0) : w'.Inv keyOf where
  tables := htables
  once := fun x => by
    have hx := howners x
    split at hx
    · have := h.fresh x (by omega)
      omega
    · have := h.once x
      omega
  fresh := fun x hx => by
    have hle' := howners x
    rw [if_neg (by omega), h.fresh x (by omega)] at hle'
    omega

theorem Inv.put (h : w.Inv keyOf) {i m : Nat} {t t' : Table κ ν} {hs : List (Node ν)} (hi : w.tables[i]? = some t)
    (ht : t'.Inv keyOf) (hle : w.nextId ≤ m)
    (hown : ∀ x, idCount x t' + hs.countP (fun n => n.id == x) ≤
      idCount x t + w.handles.countP (fun n => n.id == x) + if w.nextId ≤ x ∧ x < m then 1 else 0) :
    (⟨w.tables.set i t', hs, m⟩ : HashWorld κ ν).Inv keyOf := by
  refine h.of_owners (fun u hu => ?_) hle fun x => ?_
  · rcases mem_or_eq_of_mem_set hu with hu | rfl
    · exact h.tables u hu
    · exact ht
  · have hset := total_set (idCount x) hi t'
    have := hown x
    unfold owners
    simp only at this ⊢
    omega

theorem Inv.put_two (h : w.Inv keyOf) {i j m : Nat} {t t' u u' : Table κ ν} (hne : i ≠ j) (hi : w.tables[i]? = some t)
    (hj : w.tables[j]? = some u) (ht : t'.Inv keyOf) (hu : u'.Inv keyOf) (hle : w.nextId ≤ m)
    (hown : ∀ x, idCount x t' + idCount x u' ≤ idCount x t + idCount x u + if w.nextId ≤ x ∧ x < m then 1 else 0) :
    (⟨(w.tables.set i t').set j u', w.handles, m⟩ : HashWorld κ ν).Inv keyOf := by
  refine h.of_owners (fun v hv => ?_) hle fun x => ?_
  · rcases mem_or_eq_of_mem_set hv with hv | rfl
    · rcases mem_or_eq_of_mem_set hv with hv | rfl
      · exact h.tables v hv
      · exact ht
    · exact hu
  · have hset := total_set (idCount x) hi t'
    have hj' : (w.tables.set i t')[j]? = some u := by rwa [getElem?_set_ne hne]
    have hset' := total_set (idCount x) hj' u'
    have := hown x
    unfold owners
    simp only at this ⊢
    omega

theorem Inv.push (h : w.Inv keyOf) {m : Nat} {t : Table κ ν} (ht : t.Inv keyOf) (hle : w.nextId ≤ m)
    (hown : ∀ x, idCount x t ≤ if w.nextId ≤ x ∧ x < m then 1 else 0) :
    (⟨w.tables ++ [t], w.handles, m⟩ : HashWorld κ ν).Inv keyOf := by
  refine h.of_owners (fun v hv => ?_) hle fun x => ?_
  · rcases mem_append.mp hv with hv | hv
    · exact h.tables v hv
    · rw [mem_singleton.mp hv]
      exact ht
  · have := hown x
    unfold owners
    rw [total_append, total_cons, total_nil]
    simp only at this ⊢
    omega

/-! ## Addresses -/

variable {t : Table κ ν}

theorem idCount_perm {t' : Table κ ν} {l : List (Node ν)} (h : t'.nodes.Perm (l ++ t.nodes)) (x : Nat) :
    idCount x t' = l.countP (fun n => n.id == x) + idCount x t := by
  unfold idCount
  rw [h.countP_eq, countP_append]

theorem idCount_linked {t' : Table κ ν} {n : Node ν} (h : Table.Linked keyOf t t' n) (x : Nat) :
    idCount x t' = idCount x t + if n.id = x then 1 else 0 := by
  rw [idCount_perm (l := [t.rehashed keyOf n]) h.nodes, countP_cons, countP_nil]
  simp only [rehashed, beq_iff_eq]
  omega

theorem idCount_pos {n : Node ν} (hn : n ∈ t.nodes) : 0 < idCount n.id t :=
  countP_pos_iff.mpr ⟨n, hn, beq_self_eq_true _⟩

theorem idCount_le (h : t.Inv keyOf) {lo hi : Nat} (hids : ∀ n ∈ t.nodes, lo ≤ n.id ∧ n.id < hi) (x : Nat) :
    idCount x t ≤ if lo ≤ x ∧ x < hi then 1 else 0 := by
  have hone : idCount x t ≤ 1 := by
    have := nodup_iff_count_le_one.mp h.ids x
    unfold List.count at this
    rwa [countP_map] at this
  split
  · exact hone
  rename_i hx
  rw [Nat.le_zero]
  apply countP_eq_zero.mpr
  intro n hn he
  have hid : n.id = x := by simpa using he
  exact hx (hid ▸ hids n hn)

theorem Inv.fresh_node (h : w.Inv keyOf) {t : Table κ ν} (ht : t ∈ w.tables) {n : Node ν} (hn : n ∈ t.nodes) :
    n.id < w.nextId := by
  by_contra hge
  have hzero := h.fresh n.id (not_lt.mp hge)
  have hle := le_total (idCount n.id) ht
  have := idCount_pos hn
  unfold owners at hzero
  omega

theorem Inv.apart (h : w.Inv keyOf) {i j : Nat} {t u : Table κ ν} (hi : w.tables[i]? = some t)
    (hj : w.tables[j]? = some u) (hne : i ≠ j) : t.Apart u := by
  intro m hm n hn he
  have hle := add_le_total (idCount m.id) hi hj hne
  have hone := h.once m.id
  have hpos := idCount_pos hm
  have hpos' := idCount_pos hn
  rw [← he] at hpos'
  unfold owners at hone
  omega

theorem Inv.apart_handle (h : w.Inv keyOf) {t : Table κ ν} (ht : t ∈ w.tables) {n : Node ν} (hn : n ∈ w.handles) :
    ∀ m ∈ t.nodes, m.id ≠ n.id := by
  intro m hm he
  have hle := le_total (idCount m.id) ht
  have hone := h.once m.id
  have hpos := idCount_pos hm
  have hpos' : 0 < w.handles.countP fun k => k.id == m.id :=
    countP_pos_iff.mpr ⟨n, hn, by rw [he]; exact beq_self_eq_true _⟩
  unfold owners at hone
  omega

/-! ## What one operation does -/

section Steps

variable {t : Table κ ν} {n : Node ν}

variable {i : Nat} {t' : Table κ ν}

theorem mem_of_at (hi : w.tables[i]? = some t) : t ∈ w.tables := mem_of_getElem? hi

theorem bags_set (w : HashWorld κ ν) (i : Nat) (t : Table κ ν) : (w.set i t).bags = w.bags.set i t.bag := by
  unfold bags BagWorld.set HashWorld.set
  rw [map_set]

theorem bags_at (hi : w.tables[i]? = some t) : w.bags.bags[i]? = some t.bag := by
  show (w.tables.map bag)[i]? = _
  rw [getElem?_map, hi]
  rfl

theorem bags_set_self (hi : w.tables[i]? = some t) {t' : Table κ ν} (hbag : t'.bag = t.bag) :
    (w.set i t').bags = w.bags := by
  rw [bags_set, hbag]
  unfold BagWorld.set
  obtain ⟨hlt, hget⟩ := List.getElem?_eq_some_iff.mp (bags_at hi)
  rw [← hget, set_getElem_self hlt]

theorem bag_mem {v : ν} : v ∈ t.bag.elements ↔ ∃ m ∈ t.nodes, m.value = v := by
  unfold bag values
  rw [Multiset.mem_coe, List.mem_map]

theorem takes_iff :
    t.bag.Takes keyOf n.value ↔ (t.unique = true → ∀ m ∈ t.nodes, ¬t.hasKey keyOf (keyOf n.value) m = true) := by
  unfold Bag.Takes
  constructor
  · exact fun h hu m hm => h hu m.value (bag_mem.mpr ⟨m, hm, rfl⟩)
  · rintro h hu v hv
    obtain ⟨m, hm, rfl⟩ := bag_mem.mp hv
    exact h hu m hm

theorem bag_linked (h : Table.Linked keyOf t t' n) :
    t'.bag = { t.bag with elements := n.value ::ₘ t.bag.elements } := by
  have hvalues : (t'.values : Multiset ν) = n.value ::ₘ t.values := Multiset.coe_eq_coe.mpr (h.nodes.map Node.value)
  unfold bag
  rw [h.hasher, h.unique, hvalues]

theorem bag_unlink (h : t.Inv keyOf) (hn : n ∈ t.nodes) : t.bag.elements = n.value ::ₘ (t.unlink n).bag.elements :=
  Multiset.coe_eq_coe.mpr ((h.unlink hn).2.map Node.value)

theorem emplaceNode_spec (h : t.Inv keyOf) (hid : ∀ m ∈ t.nodes, m.id ≠ n.id) {t' : Table κ ν} {b : Bool}
    (hr : emplaceNode keyOf t n = some (t', b)) : b = true ∧ t.bag.Takes keyOf n.value ∧
    Table.Linked keyOf t t' n ∨ b = false ∧ ¬t.bag.Takes keyOf n.value ∧ t' = t := by
  unfold emplaceNode at hr
  split at hr
  · rename_i hu
    obtain ⟨hb, hstay, hlink⟩ := h.reinsertUnique hid hr
    cases b with
    | true => exact .inl ⟨rfl, takes_iff.mpr fun _ => hb.mp rfl, hlink rfl⟩
    | false => exact .inr ⟨rfl, fun ht => Bool.false_ne_true (hb.mpr (takes_iff.mp ht hu)), hstay rfl⟩
  rename_i hu
  obtain ⟨t₁, h₁, heq⟩ := map_eq_some_iff.mp hr
  cases heq
  exact .inl ⟨rfl, fun hu' => absurd hu' hu, h.reinsertMulti hid (fun hu' => absurd hu' hu) h₁⟩

theorem nodeAt_some {id : Nat} (h : nodeAt t id = some n) : n ∈ t.nodes := mem_of_find?_eq_some h

theorem element_at {id : Nat} (hi : w.tables[i]? = some t) (h : nodeAt t id = some n) :
    w.element i id = some n.value := by
  unfold element
  rw [hi, bind_some, h]
  rfl

theorem idCount_unlink (h : t.Inv keyOf) (hn : n ∈ t.nodes) (x : Nat) :
    idCount x t = idCount x (t.unlink n) + if n.id = x then 1 else 0 := by
  rw [idCount_perm (t := t.unlink n) (l := [n]) (h.unlink hn).2, countP_cons, countP_nil]
  simp only [beq_iff_eq]
  omega

theorem Inv.set (h : w.Inv keyOf) {i : Nat} {t' : Table κ ν} (hi : w.tables[i]? = some t) (ht : t'.Inv keyOf)
    (hown : ∀ x, idCount x t' ≤ idCount x t) : (w.set i t').Inv keyOf :=
  h.put hi ht le_rfl fun x => by
    have := hown x
    rw [if_neg (by omega)]
    omega

section

variable (h : w.Inv keyOf)

include h

theorem Inv.next_create {hs : Hasher κ} {u : Bool} {lf : LoadFactor} {buckets : Nat}
    {w' : HashWorld κ ν} (hn : w.next keyOf (.create hs u lf buckets) = some w') :
    w'.Inv keyOf ∧ w.Acts keyOf (.create hs u lf buckets) w' := by
  have hpush : ∀ t : Table κ ν, t.Inv keyOf → t.nodes = [] → t.hasher = hs → t.unique = u →
      (⟨w.tables ++ [t], w.handles, w.nextId⟩ : HashWorld κ ν).Inv keyOf ∧
        w.Acts keyOf (.create hs u lf buckets) ⟨w.tables ++ [t], w.handles, w.nextId⟩ := by
    intro t ht hnone hhasher hunique
    have hbag : t.bag = ⟨hs, u, 0⟩ := by
      unfold bag values
      rw [hnone, hhasher, hunique]
      rfl
    refine ⟨h.push ht le_rfl fun x => ?_, ?_⟩
    · unfold idCount
      rw [hnone]
      exact Nat.zero_le _
    · show _ = _
      unfold bags
      rw [map_append, map_cons, map_nil, hbag]
  unfold HashWorld.next at hn
  simp only at hn
  split at hn
  · cases hn
    exact hpush _ (empty_inv hs u lf) rfl rfl rfl
  · obtain ⟨k, hk, rfl⟩ := map_eq_some_iff.mp hn
    exact hpush _ (allocateBuckets_inv hs u lf (roundBuckets_sized hk).1) (nodes_allocateBuckets _ k) rfl rfl

theorem Inv.next_emplace {i : Nat} {v : ν} {w' : HashWorld κ ν}
    (hn : w.next keyOf (.emplace i v) = some w') : w'.Inv keyOf ∧ w.Acts keyOf (.emplace i v) w' := by
  obtain ⟨t, hi, hn⟩ := bind_eq_some_iff.mp hn
  obtain ⟨⟨t', b⟩, hr, rfl⟩ := map_eq_some_iff.mp hn
  have ht := h.tables t (mem_of_at hi)
  have hspec := emplaceNode_spec ht (fun m hm => (h.fresh_node (mem_of_at hi) hm).ne) hr
  rcases hspec with ⟨-, htakes, hlink⟩ | ⟨-, htakes, rfl⟩
  · refine ⟨h.put hi hlink.inv (Nat.le_succ _) fun x => ?_, t.bag, bags_at hi, .inl ⟨htakes, ?_⟩⟩
    · show idCount x t' + w.handles.countP _ ≤ _
      rw [idCount_linked hlink]
      simp only
      split <;> split <;> omega
    · rw [← bag_linked hlink, ← bags_set]
      rfl
  · refine ⟨h.put hi ht (Nat.le_succ _) fun x => Nat.le_add_right _ _, t'.bag, bags_at hi, .inr ⟨htakes, ?_⟩⟩
    exact bags_set_self hi rfl

theorem Inv.next_erase {i id : Nat} {w' : HashWorld κ ν} (hn : w.next keyOf (.erase i id) = some w') :
    w'.Inv keyOf ∧ w.Acts keyOf (.erase i id) w' := by
  obtain ⟨t, hi, hn⟩ := bind_eq_some_iff.mp hn
  obtain ⟨t', hr, rfl⟩ := map_eq_some_iff.mp hn
  obtain ⟨z, hz, rfl⟩ := map_eq_some_iff.mp hr
  have ht := h.tables t (mem_of_at hi)
  have hmem := nodeAt_some hz
  refine ⟨h.set hi (ht.unlink hmem).1 fun x => ?_, t.bag, z.value, _, bags_at hi, element_at hi hz, bag_unlink ht hmem,
    bags_set w i _⟩
  rw [idCount_unlink ht hmem]
  exact Nat.le_add_right _ _

theorem Inv.next_eraseKey {i : Nat} {key : κ} {w' : HashWorld κ ν}
    (hn : w.next keyOf (.eraseKey i key) = some w') : w'.Inv keyOf ∧ w.Acts keyOf (.eraseKey i key) w' := by
  obtain ⟨t, hi, hn⟩ := bind_eq_some_iff.mp hn
  obtain ⟨t', hr, rfl⟩ := map_eq_some_iff.mp hn
  cases hr
  have ht := h.tables t (mem_of_at hi)
  obtain ⟨hinv, hperm, -, hhasher, hunique⟩ := ht.eraseKey key
  refine ⟨h.set hi hinv fun x => ?_, t.bag, bags_at hi, ?_⟩
  · unfold idCount
    rw [hperm.countP_eq]
    exact Sublist.countP_le filter_sublist
  · rw [bags_set]
    have hvalues : ((t.eraseKey keyOf key).1.values : Multiset ν) =
        (t.values : Multiset ν).filter fun v => t.hasher.eq (keyOf v) key = false := by
      rw [Multiset.filter_coe, Multiset.coe_eq_coe]
      refine (hperm.map _).trans (Perm.of_eq ?_)
      unfold values hasKey
      rw [List.filter_map]
      refine congrArg _ (filter_congr fun n _ => ?_)
      simp only [Function.comp]
      cases t.hasher.eq (keyOf n.value) key <;> rfl
    refine congrArg _ ?_
    unfold bag
    rw [hhasher, hunique, hvalues]

theorem Inv.next_extract {i id : Nat} {w' : HashWorld κ ν} (hn : w.next keyOf (.extract i id) = some w') :
    w'.Inv keyOf ∧ w.Acts keyOf (.extract i id) w' := by
  obtain ⟨t, hi, hn⟩ := bind_eq_some_iff.mp hn
  obtain ⟨z, hz, rfl⟩ := map_eq_some_iff.mp hn
  have ht := h.tables t (mem_of_at hi)
  have hmem := nodeAt_some hz
  refine ⟨h.put hi (ht.unlink hmem).1 le_rfl fun x => ?_, t.bag, z.value, _, bags_at hi, element_at hi hz,
    bag_unlink ht hmem, ?_⟩
  · have := idCount_unlink ht hmem x
    rw [countP_append, countP_cons, countP_nil]
    simp only [beq_iff_eq]
    omega
  · have := bags_set w i (t.unlink z)
    unfold bags BagWorld.set HashWorld.set at this ⊢
    simp only [BagWorld.mk.injEq, and_true] at this ⊢
    exact ⟨this, by rw [map_append]; rfl⟩

theorem Inv.next_reinsert {i j : Nat} {w' : HashWorld κ ν} (hn : w.next keyOf (.reinsert i j) = some w') :
    w'.Inv keyOf ∧ w.Acts keyOf (.reinsert i j) w' := by
  obtain ⟨t, hi, hn⟩ := bind_eq_some_iff.mp hn
  obtain ⟨n, hj, hn⟩ := bind_eq_some_iff.mp hn
  obtain ⟨⟨t', b⟩, hr, rfl⟩ := map_eq_some_iff.mp hn
  have ht := h.tables t (mem_of_at hi)
  have hhandle : w.bags.handles[j]? = some n.value := by
    show (w.handles.map _)[j]? = _
    rw [getElem?_map, hj]
    rfl
  have hspec := emplaceNode_spec ht (h.apart_handle (mem_of_at hi) (mem_of_getElem? hj)) hr
  rcases hspec with ⟨rfl, htakes, hlink⟩ | ⟨rfl, htakes, rfl⟩
  · refine ⟨h.put hi hlink.inv le_rfl fun x => ?_, t.bag, n.value, bags_at hi, hhandle, .inl ⟨htakes, ?_⟩⟩
    · obtain ⟨hlt, hget⟩ := List.getElem?_eq_some_iff.mp hj
      have hperm := getElem_cons_eraseIdx_perm hlt
      have hcount := hperm.countP_eq fun k => k.id == x
      rw [countP_cons, hget] at hcount
      rw [idCount_linked hlink]
      simp only [beq_iff_eq, if_true] at hcount ⊢
      omega
    · have := bags_set w i t'
      rw [bag_linked hlink] at this
      unfold bags BagWorld.set HashWorld.set at this ⊢
      simp only [BagWorld.mk.injEq, and_true, if_true] at this ⊢
      exact ⟨this, (eraseIdx_map ..).symm⟩
  · refine ⟨h.set hi ht fun x => le_rfl, t'.bag, n.value, bags_at hi, hhandle, .inr ⟨htakes, ?_⟩⟩
    exact bags_set_self hi rfl

end

theorem bag_merged {src src' : Table κ ν} {moved : List (Node ν)} (h : Table.Merged keyOf t src t' src' moved) :
    t'.bag = { t.bag with elements := ((moved.map (·.value) : List ν) : Multiset ν) + t.bag.elements } ∧
      src.bag.elements = ((moved.map (·.value) : List ν) : Multiset ν) + src'.bag.elements ∧
      src'.bag = { src.bag with elements := src'.bag.elements } := by
  refine ⟨?_, ?_, ?_⟩
  · have hvalues : (t'.values : Multiset ν) = ((moved.map (·.value) : List ν) : Multiset ν) + t.values := by
      rw [Multiset.coe_add, Multiset.coe_eq_coe]
      refine (h.nodes.map Node.value).trans (Perm.of_eq ?_)
      rw [map_append, List.map_map]
      rfl
    unfold bag
    rw [h.hasher, h.unique, hvalues]
  · show ((src.values : List ν) : Multiset ν) = _ + ((src'.values : List ν) : Multiset ν)
    rw [Multiset.coe_add, Multiset.coe_eq_coe]
    refine (h.srcNodes.map Node.value).trans (Perm.of_eq ?_)
    rw [map_append]
    rfl
  · unfold bag
    rw [h.srcHasher, h.srcUnique]

theorem idCount_merged {src src' : Table κ ν} {moved : List (Node ν)} (h : Table.Merged keyOf t src t' src' moved)
    (x : Nat) : idCount x t' + idCount x src' = idCount x t + idCount x src := by
  have hids : (moved.map (t.rehashed keyOf)).countP (fun n => n.id == x) = moved.countP fun n => n.id == x := by
    rw [countP_map]
    rfl
  have htarget := idCount_perm h.nodes x
  have hsource := idCount_perm h.srcNodes x
  omega

theorem merge_spec (h : t.Inv keyOf) {src t' src' : Table κ ν} (hsrc : src.Inv keyOf) (happart : t.Apart src)
    (hr : (if t.unique then t.mergeUnique keyOf src else t.mergeMulti keyOf src) = some (t', src')) :
    ∃ moved, Table.Merged keyOf t src t' src' moved ∧
    t.bag.Merges keyOf src.bag (moved.map (·.value) : List ν) src'.bag.elements := by
  split at hr
  · rename_i hu
    obtain ⟨moved, hm, hnew, hstay⟩ := h.mergeUnique hsrc happart hr
    refine ⟨moved, hm, (bag_merged hm).2.1, fun v hv => ?_, fun _ v hv => ?_, fun hf => ?_⟩
    · obtain ⟨n, hn, rfl⟩ := List.mem_map.mp (Multiset.mem_coe.mp hv)
      exact takes_iff.mpr fun _ => hnew n hn
    · obtain ⟨n, hn, rfl⟩ := bag_mem.mp hv
      have hid := Table.Inv.ids hsrc
      have hin : n ∈ src.nodes := hm.srcNodes.symm.subset (mem_append_right _ hn)
      rcases hstay n hin with hmoved | ⟨m, hmem, hk⟩
      · -- the source does not have a node twice
        have hnodup := (hm.srcNodes.map (·.id)).nodup_iff.mp hid
        rw [map_append, nodup_append] at hnodup
        exact absurd rfl (hnodup.2.2 n.id (List.mem_map.mpr ⟨n, hmoved, rfl⟩) n.id (List.mem_map.mpr ⟨n, hn, rfl⟩))
      · refine ⟨m.value, ?_, hk⟩
        have : m.value ∈ t'.bag.elements := bag_mem.mpr ⟨m, hmem, rfl⟩
        rwa [(bag_merged hm).1] at this
    · exact Bool.noConfusion (hu.symm.trans hf)
  · rename_i hu
    have hm := h.mergeMulti (Bool.eq_false_iff.mpr hu) hsrc happart hr
    refine ⟨src.nodes, hm, (bag_merged hm).2.1, fun v hv hu' => absurd hu' hu, fun hu' => absurd hu' hu, fun _ => ?_⟩
    have hlen := hm.srcNodes.length_eq
    rw [length_append] at hlen
    have hnone : src'.nodes = [] := length_eq_zero_iff.mp (by omega)
    unfold bag values
    rw [hnone]
    rfl

theorem bags_set_two (w : HashWorld κ ν) (i j : Nat) (t u : Table κ ν) :
    ((w.set i t).set j u).bags = (w.bags.set i t.bag).set j u.bag := by rw [bags_set, bags_set]

theorem onTwo_some {j : Nat} {f : Table κ ν → Table κ ν → Option (Table κ ν × Table κ ν)} {w' : HashWorld κ ν}
    (h : w.onTwo i j f = some w') : i = j ∧ w' = w ∨ i ≠ j ∧ ∃ t src t' src', w.tables[i]? = some t ∧
      w.tables[j]? = some src ∧ f t src = some (t', src') ∧ w' = (w.set i t').set j src' := by
  unfold onTwo at h
  split at h
  · rename_i he
    cases h
    exact .inl ⟨he, rfl⟩
  rename_i hne
  obtain ⟨t, hi, h⟩ := bind_eq_some_iff.mp h
  obtain ⟨src, hj, h⟩ := bind_eq_some_iff.mp h
  obtain ⟨⟨t', src'⟩, hf, rfl⟩ := map_eq_some_iff.mp h
  exact .inr ⟨hne, t, src, t', src', hi, hj, hf, rfl⟩

theorem Inv.next_merge (h : w.Inv keyOf) {i j : Nat} {w' : HashWorld κ ν} (hn : w.next keyOf (.merge i j) = some w') :
    w'.Inv keyOf ∧ w.Acts keyOf (.merge i j) w' := by
  rcases onTwo_some hn with ⟨he, rfl⟩ | ⟨hne, t, src, t', src', hi, hj, hr, rfl⟩
  · exact ⟨h, .inl ⟨he, rfl⟩⟩
  obtain ⟨moved, hm, hmerges⟩ :=
    merge_spec (h.tables t (mem_of_at hi)) (h.tables src (mem_of_at hj)) (h.apart hi hj hne) hr
  obtain ⟨hbag, -, hsrc⟩ := bag_merged hm
  refine ⟨h.put_two hne hi hj hm.inv hm.srcInv le_rfl fun x => ?_,
    .inr ⟨hne, t.bag, src.bag, _, _, bags_at hi, bags_at hj, hmerges, ?_⟩⟩
  · rw [idCount_merged hm]
    exact Nat.le_add_right _ _
  · rw [bags_set_two, hbag, hsrc]

theorem Inv.next_rehash (h : w.Inv keyOf) {i want : Nat} {w' : HashWorld κ ν}
    (hn : w.next keyOf (.rehash i want) = some w') : w'.Inv keyOf ∧ w.Acts keyOf (.rehash i want) w' := by
  obtain ⟨t, hi, hn⟩ := bind_eq_some_iff.mp hn
  obtain ⟨t', hr, rfl⟩ := map_eq_some_iff.mp hn
  obtain ⟨hinv, hgrown, -⟩ := (h.tables t (mem_of_at hi)).rehash hr
  have hbag : t'.bag = t.bag := by
    have hvalues : (t'.values : Multiset ν) = t.values := Multiset.coe_eq_coe.mpr (hgrown.nodes.map Node.value)
    unfold bag
    rw [hgrown.hasher, hgrown.unique, hvalues]
  exact ⟨h.set hi hinv fun x => (hgrown.nodes.countP_eq _).le, bags_set_self hi hbag⟩

theorem Inv.next_maxLoadFactor (h : w.Inv keyOf) {i : Nat} {lf : LoadFactor} {w' : HashWorld κ ν}
    (hn : w.next keyOf (.maxLoadFactor i lf) = some w') : w'.Inv keyOf ∧ w.Acts keyOf (.maxLoadFactor i lf) w' := by
  obtain ⟨t, hi, hn⟩ := bind_eq_some_iff.mp hn
  obtain ⟨t', hr, rfl⟩ := map_eq_some_iff.mp hn
  cases hr
  have ht := h.tables t (mem_of_at hi)
  exact ⟨h.set hi ⟨ht.sized, ht.placed, ht.grouped, ht.distinct, ht.ids, ht.count⟩ fun x => le_rfl,
    bags_set_self hi rfl⟩

theorem idCount_clear (t : Table κ ν) (x : Nat) : idCount x t.clear = 0 := by
  unfold idCount
  rw [nodes_clear]
  rfl

theorem bag_clear (t : Table κ ν) : t.clear.bag = { t.bag with elements := 0 } := by
  unfold bag values
  rw [nodes_clear]
  rfl

theorem Inv.next_clear (h : w.Inv keyOf) {i : Nat} {w' : HashWorld κ ν} (hn : w.next keyOf (.clear i) = some w') :
    w'.Inv keyOf ∧ w.Acts keyOf (.clear i) w' := by
  obtain ⟨t, hi, hn⟩ := bind_eq_some_iff.mp hn
  obtain ⟨t', hr, rfl⟩ := map_eq_some_iff.mp hn
  cases hr
  refine ⟨h.set hi (h.tables t (mem_of_at hi)).clear fun x => ?_, t.bag, bags_at hi, ?_⟩
  · rw [idCount_clear]
    exact Nat.zero_le _
  · rw [bags_set, bag_clear]

theorem copied {other : Table κ ν} {id : Nat} (h : t'.Inv keyOf ∧ t'.values.Perm other.values ∧
    t'.hasher = other.hasher ∧ t'.unique = other.unique ∧ ∀ m ∈ t'.nodes, id ≤ m.id ∧ m.id < id + other.count) :
    t'.Inv keyOf ∧ t'.bag = other.bag ∧ ∀ x, idCount x t' ≤ if id ≤ x ∧ x < id + other.count then 1 else 0 := by
  obtain ⟨hinv, hperm, hhasher, hunique, hids⟩ := h
  refine ⟨hinv, ?_, idCount_le hinv hids⟩
  unfold bag
  rw [hhasher, hunique, Multiset.coe_eq_coe.mpr hperm]

theorem Inv.next_copyNew (h : w.Inv keyOf) {j : Nat} {lf : LoadFactor} {w' : HashWorld κ ν}
    (hn : w.next keyOf (.copyNew j lf) = some w') : w'.Inv keyOf ∧ w.Acts keyOf (.copyNew j lf) w' := by
  obtain ⟨other, hj, hn⟩ := bind_eq_some_iff.mp hn
  obtain ⟨t', hr, rfl⟩ := map_eq_some_iff.mp hn
  obtain ⟨hinv, hbag, hids⟩ := copied ((h.tables other (mem_of_at hj)).copyFrom hr)
  refine ⟨h.push hinv (Nat.le_add_right _ _) hids, other.bag, bags_at hj, ?_⟩
  unfold bags
  rw [map_append, map_cons, map_nil, hbag]

theorem Inv.next_copy (h : w.Inv keyOf) {i j : Nat} {w' : HashWorld κ ν} (hn : w.next keyOf (.copy i j) = some w') :
    w'.Inv keyOf ∧ w.Acts keyOf (.copy i j) w' := by
  unfold HashWorld.next at hn
  simp only at hn
  split at hn
  · rename_i he
    cases hn
    exact ⟨h, .inl ⟨he, rfl⟩⟩
  rename_i hne
  obtain ⟨t, hi, hn⟩ := bind_eq_some_iff.mp hn
  obtain ⟨other, hj, hn⟩ := bind_eq_some_iff.mp hn
  split at hn
  · cases hn
  obtain ⟨t', hr, rfl⟩ := map_eq_some_iff.mp hn
  obtain ⟨hinv, hbag, hids⟩ := copied ((h.tables other (mem_of_at hj)).copyFrom hr)
  refine ⟨h.put hi hinv (Nat.le_add_right _ _) fun x => ?_, .inr ⟨hne, other.bag, bags_at hj, ?_⟩⟩
  · have := hids x
    show idCount x t' + w.handles.countP _ ≤ _
    omega
  · rw [← hbag, ← bags_set]
    rfl

theorem Inv.next_move (h : w.Inv keyOf) {i j : Nat} {w' : HashWorld κ ν} (hn : w.next keyOf (.move i j) = some w') :
    w'.Inv keyOf ∧ w.Acts keyOf (.move i j) w' := by
  rcases onTwo_some hn with ⟨he, rfl⟩ | ⟨hne, t, src, t', src', hi, hj, hr, rfl⟩
  · exact ⟨h, .inl ⟨he, rfl⟩⟩
  split at hr
  · cases hr
  cases hr
  refine ⟨h.put_two hne hi hj (h.tables _ (mem_of_at hj)) (empty_inv _ _ _) le_rfl fun x => ?_,
    .inr ⟨hne, _, bags_at hj, bags_set_two ..⟩⟩
  show idCount x src + 0 ≤ _
  omega

theorem Inv.next_moveElements (h : w.Inv keyOf) {i j : Nat} {w' : HashWorld κ ν}
    (hn : w.next keyOf (.moveElements i j) = some w') : w'.Inv keyOf ∧ w.Acts keyOf (.moveElements i j) w' := by
  unfold HashWorld.next at hn
  simp only at hn
  split at hn
  · rename_i he
    cases hn
    exact ⟨h, .inl ⟨he, rfl⟩⟩
  rename_i hne
  obtain ⟨t, hi, hn⟩ := bind_eq_some_iff.mp hn
  obtain ⟨other, hj, hn⟩ := bind_eq_some_iff.mp hn
  split at hn
  · cases hn
  rename_i hu
  obtain ⟨t', hr, rfl⟩ := map_eq_some_iff.mp hn
  have hother := h.tables other (mem_of_at hj)
  obtain ⟨hinv, hbag, hids⟩ := copied (hother.emplaceVisited hr (h.tables t (mem_of_at hi)).clear.sized
    (nodes_clear t) rfl rfl (not_not.mp hu))
  refine ⟨h.put_two hne hi hj hinv hother.clear (Nat.le_add_right _ _) fun x => ?_,
    .inr ⟨hne, other.bag, bags_at hj, ?_⟩⟩
  · have := hids x
    rw [idCount_clear]
    omega
  · rw [← bag_clear, ← hbag, ← bags_set_two]
    rfl

theorem Inv.next_swap (h : w.Inv keyOf) {i j : Nat} {w' : HashWorld κ ν} (hn : w.next keyOf (.swap i j) = some w') :
    w'.Inv keyOf ∧ w.Acts keyOf (.swap i j) w' := by
  rcases onTwo_some hn with ⟨he, rfl⟩ | ⟨hne, t, src, t', src', hi, hj, hr, rfl⟩
  · exact ⟨h, .inl ⟨he, rfl⟩⟩
  split at hr
  · cases hr
  · cases hr
    refine ⟨h.put_two hne hi hj (h.tables _ (mem_of_at hj)) (h.tables _ (mem_of_at hi)) le_rfl fun x => by omega,
      .inr ⟨hne, _, _, bags_at hi, bags_at hj, bags_set_two ..⟩⟩

/-- **One operation** on the tables is that operation on the multisets. -/
theorem Inv.next (h : w.Inv keyOf) {e : HashOp κ ν} {w' : HashWorld κ ν} (hn : w.next keyOf e = some w') :
    w'.Inv keyOf ∧ w.Acts keyOf e w' := by
  cases e with
  | create hs unique lf buckets => exact h.next_create hn
  | emplace i v => exact h.next_emplace hn
  | erase i id => exact h.next_erase hn
  | eraseKey i key => exact h.next_eraseKey hn
  | extract i id => exact h.next_extract hn
  | reinsert i j => exact h.next_reinsert hn
  | merge i j => exact h.next_merge hn
  | rehash i want => exact h.next_rehash hn
  | maxLoadFactor i lf => exact h.next_maxLoadFactor hn
  | copyNew j lf => exact h.next_copyNew hn
  | copy i j => exact h.next_copy hn
  | move i j => exact h.next_move hn
  | moveElements i j => exact h.next_moveElements hn
  | swap i j => exact h.next_swap hn
  | clear i => exact h.next_clear hn

end Steps

end HashWorld

/-! ## Every run -/

section Runs

variable {κ ν : Type*} {keyOf : ν → κ} {t : Table κ ν}

variable (keyOf) in
/-- What a table is for: the layout of the chains, and what the lookups find in it. -/
structure Table.WellKept (t : Table κ ν) : Prop where
  placed : ∀ i c, t.buckets[i]? = some c → ∀ n ∈ c, t.indexOf n.hash = i ∧ n.hash = t.hasher.hash (keyOf n.value)
  count : t.count = t.nodes.length
  adjacent : ∀ c ∈ t.buckets, Grouped (t.Same keyOf) c
  distinct : t.unique = true → t.nodes.Pairwise fun a b => ¬t.Same keyOf a b
  visited : (∀ fuel ≥ t.count, t.walkWhile (fun _ => true) fuel t.first = (t.nodes, [])) ∧ (t.nodes.map (·.id)).Nodup
  find : ∀ key, (t.find keyOf key = [] ∧ ∀ n ∈ t.nodes, t.hasKey keyOf key n = false) ∨
    ∃ n rest, t.find keyOf key = n :: rest ∧ n ∈ t.nodes ∧ t.hasKey keyOf key n = true
  countKey : ∀ key, t.countKey keyOf key = t.nodes.countP (t.hasKey keyOf key)
  equalRange : ∀ key, ∀ fuel ≥ t.count, t.walkTo (t.equalRange keyOf key).2 fuel (t.equalRange keyOf key).1 =
    t.nodes.filter (t.hasKey keyOf key)
  eraseKey : ∀ key, (t.eraseKey keyOf key).1.nodes.Perm (t.nodes.filter fun n => !t.hasKey keyOf key n) ∧
    (t.eraseKey keyOf key).2 = t.nodes.countP (t.hasKey keyOf key)

theorem Table.Inv.wellKept (h : t.Inv keyOf) : t.WellKept keyOf where
  placed := h.placed
  count := h.count
  adjacent := h.grouped
  distinct := h.distinct
  visited := ⟨fun _ hfuel => h.walk_all hfuel, h.ids⟩
  find := fun key => by
    obtain ⟨l, ha, -, htake, hnone⟩ := h.find_spec key
    cases hf : t.find keyOf key with
    | nil => exact .inl ⟨rfl, hnone.mp hf⟩
    | cons n rest =>
      have hne : t.nodes ≠ [] := fun hnil => by
        rw [hf] at hnone
        exact cons_ne_nil n rest (hnone.mpr fun m hm => by rw [hnil] at hm; cases hm)
      obtain ⟨c, pre, hc, hsplit, -, hhead⟩ := h.find_split key hne
      rw [hf] at hsplit hhead
      exact .inr ⟨n, rest, rfl, mem_nodes.mpr ⟨_, c, hc, hsplit ▸ mem_append_right _ mem_cons_self⟩, hhead n rfl⟩
  countKey := h.countKey
  equalRange := fun key _ hfuel => h.equalRange key hfuel
  eraseKey := fun key => ⟨(h.eraseKey key).2.1, (h.eraseKey key).2.2.1⟩

theorem beq_equivalence : Equivalence fun a b : Nat => (a == b) = true :=
  ⟨beq_self_eq_true, fun h => beq_iff_eq.mpr (beq_iff_eq.mp h).symm,
    fun h h' => beq_iff_eq.mpr ((beq_iff_eq.mp h).trans (beq_iff_eq.mp h'))⟩

/-- Numbers with their remainder by eight as hash. -/
def mod8 : Hasher Nat := ⟨fun k => k % 8, fun a b => a == b, beq_equivalence, fun a b h => by rw [beq_iff_eq.mp h]⟩

/-- Numbers with one hash for all. -/
def zeroHash : Hasher Nat := { mod8 with hash := fun _ => 0, compat := fun _ _ _ => rfl }

/-- At most one node for each bucket. -/
def lfOne : LoadFactor := ⟨fun n b => decide (b < n), fun n => n + 1⟩

/-- A multi table with pairs of a key and a number merges into a unique one with another hash. -/
def merging : List (HashOp Nat (Nat × Nat)) :=
  [.create mod8 true lfOne 0, .create zeroHash false lfOne 3, .emplace 0 (9, 0), .emplace 1 (1, 1), .emplace 1 (9, 2),
    .emplace 1 (1, 3), .merge 0 1, .rehash 0 100, .extract 1 1, .reinsert 0 0]

end Runs

end BoxOS.Boxcxx
