import BoxOS.Lib.Runs
import BoxOS.Boxcxx.FlatHashOps

/-!
# Runs of flat hash tables

Any number of tables over one equality, each with a hash of its own. `MapStep` says what each operation does to finite
maps, and `Answers` what it gives back. In a run of tables in which no table needs more than 2^31 slots (`Fits`) every
step is that operation on the maps, and every table that the run reaches is `WellKept`.
-/

namespace BoxOS.Boxcxx.Flat

open Lib List Option

variable {κ μ : Type*} {E : KeyEq κ}

/-- The operations of the containers. -/
inductive FlatOp (E : KeyEq κ) (μ : Type*) where
  | create (h : HashFn E) (slots : Nat)
  | emplaceKey (i : Nat) (k : κ) (v : μ)
  | assignOrEmplace (i : Nat) (k : κ) (v : μ)
  | eraseKey (i : Nat) (k : κ)
  | eraseIter (i s : Nat)
  | eraseIf (i : Nat) (p : κ → μ → Bool)
  | rehash (i slots : Nat)
  | reserve (i byAlloc n : Nat)
  | copyNew (j : Nat)
  | copy (i j : Nat)
  | clear (i : Nat)

/-- An operation on one table. -/
def on (w : List (Table E μ)) (i : Nat) (f : Table E μ → Option (Table E μ)) : Option (List (Table E μ)) :=
  (w[i]?).bind fun t => (f t).map fun t => w.set i t

def next (w : List (Table E μ)) : FlatOp E μ → Option (List (Table E μ))
  | .create h slots =>
    if slots = 0 then some (w ++ [.empty μ h])
    else (roundSlots slots).map fun cap => w ++ [⟨h, allocate κ μ cap, 0⟩]
  | .emplaceKey i k v => on w i fun t => (t.emplaceKey k v).map Prod.fst
  | .assignOrEmplace i k v => on w i fun t => (t.assignOrEmplace k v).map Prod.fst
  | .eraseKey i k => on w i fun t => (t.eraseKey k).map Prod.fst
  | .eraseIter i s => on w i fun t => t.eraseIter s
  | .eraseIf i p => on w i fun t => (t.eraseIf p).map Prod.fst
  | .rehash i slots => on w i fun t => t.rehash slots
  | .reserve i byAlloc n => on w i fun t => t.reserve byAlloc n
  | .copyNew j => (w[j]?).bind fun other => other.copyFrom.map fun t => w ++ [t]
  | .copy i j => if i = j then some w else (w[j]?).bind fun other => on w i fun _ => other.copyFrom
  | .clear i => on w i fun t => some t.clear

/-- One operation. -/
def Step (w : List (Table E μ)) (e : FlatOp E μ) (w' : List (Table E μ)) : Prop := next w e = some w'

/-- The operation leaves every table with at most 2^31 slots. -/
def Fits (w : List (Table E μ)) : FlatOp E μ → Prop
  | .create _ slots => slots ≤ kMaxSlots
  | .emplaceKey i k _ => ∀ t ∈ w[i]?, t.Fits k
  | .assignOrEmplace i k _ => ∀ t ∈ w[i]?, t.Fits k
  | .rehash _ slots => slots ≤ kMaxSlots
  | _ => True

/-- The tables exist, and an iterator points to an element. -/
def Possible (w : List (Table E μ)) : FlatOp E μ → Prop
  | .create _ _ => True
  | .emplaceKey i _ _ => i < w.length
  | .assignOrEmplace i _ _ => i < w.length
  | .eraseKey i _ => i < w.length
  | .eraseIter i s => ∃ t ∈ w[i]?, (slotAt t.slots s).isSome = true
  | .eraseIf i _ => i < w.length
  | .rehash i _ => i < w.length
  | .reserve i _ _ => i < w.length
  | .copyNew j => j < w.length
  | .copy i j => i = j ∨ i < w.length ∧ j < w.length
  | .clear i => i < w.length

/-! ## Finite maps -/

/-- A finite map up to equality of keys: the key that is stored, and its value. -/
abbrev FMap (κ μ : Type*) := κ → Option (κ × μ)

namespace FMap

def empty (κ μ : Type*) : FMap κ μ := fun _ => none

/-- A new key comes in; a key that is there keeps its value. -/
def insert (E : KeyEq κ) (f : FMap κ μ) (k : κ) (v : μ) : FMap κ μ :=
  fun q => if E.eq k q then (f k).or (some (k, v)) else f q

/-- A key that is there gets the value. -/
def assign (E : KeyEq κ) (f : FMap κ μ) (k : κ) (v : μ) : FMap κ μ :=
  fun q => if E.eq k q then some (((f k).map Prod.fst).getD k, v) else f q

def erase (E : KeyEq κ) (f : FMap κ μ) (k : κ) : FMap κ μ := fun q => if E.eq k q then none else f q

def eraseIf (f : FMap κ μ) (p : κ → μ → Bool) : FMap κ μ := fun q => (f q).filter fun kv => !p kv.1 kv.2

end FMap

/-- What an operation does to the maps; `keyAt i s` is the key of the iterator at slot `s` of table `i`. -/
def MapStep (keyAt : Nat → Nat → Option κ) (m : List (FMap κ μ)) : FlatOp E μ → List (FMap κ μ) → Prop
  | .create _ _, m' => m' = m ++ [FMap.empty κ μ]
  | .emplaceKey i k v, m' => ∃ f, m[i]? = some f ∧ m' = m.set i (FMap.insert E f k v)
  | .assignOrEmplace i k v, m' => ∃ f, m[i]? = some f ∧ m' = m.set i (FMap.assign E f k v)
  | .eraseKey i k, m' => ∃ f, m[i]? = some f ∧ m' = m.set i (FMap.erase E f k)
  | .eraseIter i s, m' => ∃ f k, m[i]? = some f ∧ keyAt i s = some k ∧ m' = m.set i (FMap.erase E f k)
  | .eraseIf i p, m' => ∃ f, m[i]? = some f ∧ m' = m.set i (FMap.eraseIf f p)
  | .rehash _ _, m' => m' = m
  | .reserve _ _ _, m' => m' = m
  | .copyNew j, m' => ∃ f, m[j]? = some f ∧ m' = m ++ [f]
  | .copy i j, m' => i = j ∧ m' = m ∨ i ≠ j ∧ ∃ f, m[j]? = some f ∧ m' = m.set i f
  | .clear i, m' => ∃ f, m[i]? = some f ∧ m' = m.set i (FMap.empty κ μ)

/-! ## One operation -/

/-- Every table is kept. -/
def AllInv (w : List (Table E μ)) : Prop := ∀ t ∈ w, t.Inv

section Steps

variable {w : List (Table E μ)}

/-- The maps of the tables. -/
def maps (w : List (Table E μ)) : List (FMap κ μ) := w.map Table.map

/-- The key in a slot of a table. -/
def keyAt (w : List (Table E μ)) (i s : Nat) : Option κ := (w[i]?).bind fun t => (slotAt t.slots s).map (·.key)

/-- What the operation gives back: the slot that holds the key then and whether the key is new, or how many elements
went. -/
def Answers (w w' : List (Table E μ)) : FlatOp E μ → Prop
  | .emplaceKey i k v => ∃ t u s b, w[i]? = some t ∧ w' = w.set i u ∧ t.emplaceKey k v = some (u, s, b) ∧
      u.Holds s k ∧ (b = true ↔ t.map k = none)
  | .assignOrEmplace i k v => ∃ t u s b, w[i]? = some t ∧ w' = w.set i u ∧ t.assignOrEmplace k v = some (u, s, b) ∧
      u.Holds s k ∧ (b = true ↔ t.map k = none)
  | .eraseKey i k => ∃ t u, w[i]? = some t ∧ w' = w.set i u ∧ t.eraseKey k = some (u, if (t.map k).isSome then 1 else 0)
  | .eraseIf i p => ∃ t u, w[i]? = some t ∧ w' = w.set i u ∧
      t.eraseIf p = some (u, (entries t.slots).countP fun x => p x.key x.val)
  | _ => True

/-- The operation is that operation on the maps. -/
def Acts (w : List (Table E μ)) (e : FlatOp E μ) (w' : List (Table E μ)) : Prop :=
  MapStep (keyAt w) (maps w) e (maps w') ∧ Answers w w' e

/-- What the operation comes to. -/
def Comes (w : List (Table E μ)) (e : FlatOp E μ) : Prop := ∃ w', next w e = some w' ∧ AllInv w' ∧ Acts w e w'

theorem maps_at {i : Nat} {t : Table E μ} (hi : w[i]? = some t) : (maps w)[i]? = some t.map := by
  unfold maps
  rw [getElem?_map, hi]
  rfl

theorem maps_set (w : List (Table E μ)) (i : Nat) (t : Table E μ) : maps (w.set i t) = (maps w).set i t.map :=
  map_set ..

theorem AllInv.set (h : AllInv w) {i : Nat} {t : Table E μ} (ht : t.Inv) : AllInv (w.set i t) := by
  intro u hu
  rcases mem_or_eq_of_mem_set hu with hu | rfl
  · exact h u hu
  · exact ht

theorem AllInv.push (h : AllInv w) {t : Table E μ} (ht : t.Inv) : AllInv (w ++ [t]) := by
  intro u hu
  rcases mem_append.mp hu with hu | hu
  · exact h u hu
  · rw [mem_singleton.mp hu]
    exact ht

theorem AllInv.on (h : AllInv w) {i : Nat} {f : Table E μ → Option (Table E μ)} {t u : Table E μ} (hi : w[i]? = some t)
    (hf : f t = some u) (hu : u.Inv) : Flat.on w i f = some (w.set i u) ∧ AllInv (w.set i u) ∧
      maps (w.set i u) = (maps w).set i u.map := by
  refine ⟨?_, h.set hu, maps_set w i u⟩
  unfold Flat.on
  rw [hi, bind_some, hf]
  rfl

theorem AllInv.on_same (h : AllInv w) {i : Nat} {f : Table E μ → Option (Table E μ)} {t u : Table E μ}
    (hi : w[i]? = some t) (hf : f t = some u) (hu : u.Inv) (hmap : u.map = t.map) :
    ∃ w', Flat.on w i f = some w' ∧ AllInv w' ∧ maps w' = maps w := by
  obtain ⟨hn, hinv, hmaps⟩ := h.on hi hf hu
  refine ⟨_, hn, hinv, hmaps.trans ?_⟩
  obtain ⟨hlt, hget⟩ := List.getElem?_eq_some_iff.mp (maps_at hi)
  rw [hmap, ← hget, set_getElem_self hlt]

theorem at_of_lt {i : Nat} (hi : i < w.length) : ∃ t, w[i]? = some t ∧ t ∈ w :=
  ⟨w[i], getElem?_eq_getElem hi, getElem_mem hi⟩

theorem AllInv.comes_create (h : AllInv w) (hs : HashFn E) {slots : Nat} (hfits : slots ≤ kMaxSlots) :
    Comes w (.create hs slots) := by
  unfold Comes next
  have hpush : ∀ t : Table E μ, t.Inv → t.map = FMap.empty κ μ →
      AllInv (w ++ [t]) ∧ Acts w (.create hs slots) (w ++ [t]) := by
    intro t ht hmap
    refine ⟨h.push ht, ?_, trivial⟩
    show maps (w ++ [t]) = _
    unfold maps
    rw [map_append, map_cons, map_nil, hmap]
  by_cases hzero : slots = 0
  · simp only [if_pos hzero]
    exact ⟨_, rfl, hpush _ (Table.empty_inv hs) rfl⟩
  obtain ⟨cap, hr, hc, -⟩ := roundSlots_spec hfits
  obtain ⟨hgood, hnone⟩ := good_allocate (κ := κ) (μ := μ) hc
  simp only [if_neg hzero, hr, Option.map_some]
  refine ⟨_, rfl, hpush _ ((Table.empty_inv hs).of_subperm rfl (fun _ => hgood) ?_ ?_ (Nat.zero_le _)) ?_⟩
  · show (entries (allocate κ μ cap)).Subperm _
    rw [hnone]
    exact nil_subperm
  · show 0 = (entries (allocate κ μ cap)).length
    rw [hnone]
    rfl
  · unfold Table.map
    rw [hnone]
    rfl

/-- **Every operation** comes back, and does to the maps what that operation on maps does. -/
theorem AllInv.comes (h : AllInv w) {e : FlatOp E μ} (hposs : Possible w e) (hfits : Fits w e) : Comes w e := by
  cases e with
  | create hs slots => exact h.comes_create hs hfits
  | emplaceKey i k v =>
    obtain ⟨t, hi, ht⟩ := at_of_lt hposs
    obtain ⟨u, s, b, hr, hinv, hat, hnew, hmap⟩ := (h t ht).emplaceKey (hfits t hi) v
    obtain ⟨hn, hall, hmaps⟩ :=
      h.on (f := fun t => (t.emplaceKey k v).map Prod.fst) hi (by simp only [hr, Option.map_some]) hinv
    exact ⟨_, hn, hall, ⟨t.map, maps_at hi, by rw [hmaps, hmap]; rfl⟩, t, u, s, b, hi, rfl, hr, hat, hnew⟩
  | assignOrEmplace i k v =>
    obtain ⟨t, hi, ht⟩ := at_of_lt hposs
    obtain ⟨u, s, b, hr, hinv, hat, hnew, hmap⟩ := (h t ht).assignOrEmplace (hfits t hi) v
    obtain ⟨hn, hall, hmaps⟩ :=
      h.on (f := fun t => (t.assignOrEmplace k v).map Prod.fst) hi (by simp only [hr, Option.map_some]) hinv
    exact ⟨_, hn, hall, ⟨t.map, maps_at hi, by rw [hmaps, hmap]; rfl⟩, t, u, s, b, hi, rfl, hr, hat, hnew⟩
  | eraseKey i k =>
    obtain ⟨t, hi, ht⟩ := at_of_lt hposs
    obtain ⟨u, n, hr, hinv, hcount, hmap⟩ := (h t ht).eraseKey k
    obtain ⟨hn, hall, hmaps⟩ :=
      h.on (f := fun t => (t.eraseKey k).map Prod.fst) hi (by simp only [hr, Option.map_some]) hinv
    exact ⟨_, hn, hall, ⟨t.map, maps_at hi, by rw [hmaps, hmap]; rfl⟩, t, u, hi, rfl, hcount ▸ hr⟩
  | eraseIter i s =>
    obtain ⟨t, hi, hsome⟩ := hposs
    obtain ⟨x, hx⟩ := isSome_iff_exists.mp hsome
    have ht := mem_of_getElem? hi
    obtain ⟨u, hr, hinv, hmap⟩ := (h t ht).eraseAt_map hx
    obtain ⟨hn, hall, hmaps⟩ := h.on (f := fun t => t.eraseIter s) hi (by
      unfold Table.eraseIter
      rw [if_pos hsome]
      exact hr) hinv
    have hkey : keyAt w i s = some x.key := by
      unfold keyAt
      rw [hi, bind_some, hx]
      rfl
    exact ⟨_, hn, hall, ⟨t.map, x.key, maps_at hi, hkey, by rw [hmaps, hmap]; rfl⟩, trivial⟩
  | eraseIf i p =>
    obtain ⟨t, hi, ht⟩ := at_of_lt hposs
    obtain ⟨u, n, hr, hinv, hcount, hmap⟩ := (h t ht).eraseIf p
    obtain ⟨hn, hall, hmaps⟩ :=
      h.on (f := fun t => (t.eraseIf p).map Prod.fst) hi (by simp only [hr, Option.map_some]) hinv
    exact ⟨_, hn, hall, ⟨t.map, maps_at hi, by rw [hmaps, hmap]; rfl⟩, t, u, hi, rfl, hcount ▸ hr⟩
  | rehash i slots =>
    obtain ⟨t, hi, ht⟩ := at_of_lt hposs
    obtain ⟨u, hr, hinv, hmap⟩ := (h t ht).rehash hfits
    obtain ⟨w', hn, hall, hsame⟩ := h.on_same (f := fun t => t.rehash slots) hi hr hinv hmap
    exact ⟨w', hn, hall, hsame, trivial⟩
  | reserve i byAlloc n =>
    obtain ⟨t, hi, ht⟩ := at_of_lt hposs
    obtain ⟨u, hr, hinv, hmap⟩ := (h t ht).reserve byAlloc n
    obtain ⟨w', hn, hall, hsame⟩ := h.on_same (f := fun t => t.reserve byAlloc n) hi hr hinv hmap
    exact ⟨w', hn, hall, hsame, trivial⟩
  | copyNew j =>
    obtain ⟨t, hj, ht⟩ := at_of_lt hposs
    obtain ⟨u, hr, hinv, hmap⟩ := (h t ht).copyFrom
    refine ⟨w ++ [u], ?_, h.push hinv, ⟨t.map, maps_at hj, ?_⟩, trivial⟩
    · show (w[j]?).bind _ = _
      rw [hj, bind_some, hr]
      rfl
    · unfold maps
      rw [map_append, map_cons, map_nil, hmap]
  | copy i j =>
    by_cases hij : i = j
    · exact ⟨w, if_pos hij, h, .inl ⟨hij, rfl⟩, trivial⟩
    obtain ⟨hi, hj⟩ := hposs.resolve_left hij
    obtain ⟨t, hi, -⟩ := at_of_lt hi
    obtain ⟨other, hj, hother⟩ := at_of_lt hj
    obtain ⟨u, hr, hinv, hmap⟩ := (h other hother).copyFrom
    obtain ⟨hn, hall, hmaps⟩ := h.on (f := fun _ => other.copyFrom) hi hr hinv
    refine ⟨w.set i u, ?_, hall, .inr ⟨hij, other.map, maps_at hj, by rw [hmaps, hmap]⟩, trivial⟩
    show (if i = j then _ else _) = _
    rw [if_neg hij, hj]
    exact hn
  | clear i =>
    obtain ⟨t, hi, ht⟩ := at_of_lt hposs
    obtain ⟨hinv, hmap⟩ := (h t ht).clear
    obtain ⟨hn, hall, hmaps⟩ := h.on (f := fun t => some t.clear) hi rfl hinv
    exact ⟨_, hn, hall, ⟨t.map, maps_at hi, by rw [hmaps, hmap]; rfl⟩, trivial⟩

theorem lt_of_on {i : Nat} {f : Table E μ → Option (Table E μ)} {w' : List (Table E μ)} (h : on w i f = some w') :
    i < w.length := by
  obtain ⟨t, hi, -⟩ := bind_eq_some_iff.mp h
  exact (List.getElem?_eq_some_iff.mp hi).1

theorem possible_of_next {e : FlatOp E μ} {w' : List (Table E μ)} (h : next w e = some w') : Possible w e := by
  cases e with
  | create hs slots => trivial
  | emplaceKey | assignOrEmplace | eraseKey | eraseIf | rehash | reserve | clear => exact lt_of_on h
  | eraseIter i s =>
    obtain ⟨t, hi, hn⟩ := bind_eq_some_iff.mp h
    obtain ⟨u, hu, -⟩ := map_eq_some_iff.mp hn
    refine ⟨t, hi, ?_⟩
    have hu : t.eraseIter s = some u := hu
    unfold Table.eraseIter at hu
    split at hu
    · assumption
    · cases hu
  | copyNew j =>
    obtain ⟨t, hj, -⟩ := bind_eq_some_iff.mp h
    exact (List.getElem?_eq_some_iff.mp hj).1
  | copy i j =>
    by_cases hij : i = j
    · exact .inl hij
    · have hn : (w[j]?).bind _ = some w' := (if_neg hij).symm.trans h
      obtain ⟨t, hj, hn⟩ := bind_eq_some_iff.mp hn
      exact .inr ⟨lt_of_on hn, (List.getElem?_eq_some_iff.mp hj).1⟩

end Steps

/-! ## Every run -/

/-- What a table is for: its layout, and what a search finds. -/
structure Table.WellKept (t : Table E μ) : Prop where
  size : t.size = (entries t.slots).length
  load : 8 * t.size ≤ 7 * t.cap
  robinHood : ∀ s < t.cap, ∀ x, slotAt t.slots s = some x → 0 < distanceOf t.cap s x.ctl →
    ∃ y, slotAt t.slots (prevSlot t.cap s) = some y ∧
      distanceOf t.cap s x.ctl - 1 ≤ distanceOf t.cap (prevSlot t.cap s) y.ctl
  distinct : Distinct E (entries t.slots)
  find : ∀ k, (∃ s x, t.findSlot k = some (some s) ∧ slotAt t.slots s = some x ∧ E.eq x.key k = true ∧
      t.map k = some (x.key, x.val)) ∨ t.findSlot k = some none ∧ t.map k = none

theorem Table.Inv.wellKept {t : Table E μ} (h : t.Inv) : t.WellKept where
  size := h.size
  load := by
    have hload := h.load
    unfold limitOf at hload
    by_cases hcap : t.cap = 0
    · omega
    · have hdvd : 8 ∣ t.cap := (h.good (slots_ne hcap)).cap.dvd
      omega
  robinHood := fun s hs x hx hpos => by
    have hgood := h.good (slots_ne (by omega))
    have hc : Cap t.cap := hgood.cap
    rw [hc.distanceOf] at hpos ⊢
    have hi := hc.ideal_lt x.ctl
    have hne : ideal t.cap x ≠ s := fun he => by
      rw [show idealOf t.cap x.ctl = s from he, RobinHood.gap_self hs] at hpos
      exact lt_irrefl 0 hpos
    obtain ⟨y, hy, hge⟩ := hgood.ordered s hs x hx id id hne
    rw [hc.prevSlot]
    refine ⟨y, hy, ?_⟩
    rw [hc.distanceOf]
    have hstep := RobinHood.gap_succ hi (RobinHood.pred_lt hs) (by rw [RobinHood.succ_pred hs]; exact hne)
    rw [RobinHood.succ_pred hs] at hstep
    have hge : RobinHood.gap t.cap (idealOf t.cap x.ctl) (RobinHood.pred t.cap s) ≤
      RobinHood.gap t.cap (idealOf t.cap y.ctl) (RobinHood.pred t.cap s) := hge
    omega
  distinct := h.distinct
  find := h.findSlot

instance [DecidableEq κ] [DecidableEq μ] (t : Table E μ) (k : κ) : Decidable (t.Fits k) :=
  inferInstanceAs (Decidable (_ → _ → _))

instance [DecidableEq κ] [DecidableEq μ] (w : List (Table E μ)) : (e : FlatOp E μ) → Decidable (Fits w e)
  | .create _ slots => inferInstanceAs (Decidable (slots ≤ kMaxSlots))
  | .emplaceKey i k _ | .assignOrEmplace i k _ => inferInstanceAs (Decidable (∀ t ∈ w[i]?, t.Fits k))
  | .rehash _ slots => inferInstanceAs (Decidable (slots ≤ kMaxSlots))
  | .eraseKey _ _ | .eraseIter _ _ | .eraseIf _ _ | .reserve _ _ _ | .copyNew _ | .copy _ _ | .clear _ =>
    inferInstanceAs (Decidable True)

/-- Numbers. -/
def natEq : KeyEq Nat := ⟨fun a b => a == b, ⟨beq_self_eq_true, fun h => beq_iff_eq.mpr (beq_iff_eq.mp h).symm,
  fun h h' => beq_iff_eq.mpr ((beq_iff_eq.mp h).trans (beq_iff_eq.mp h'))⟩⟩

/-- A number is its hash. -/
def natHash : HashFn natEq := ⟨fun k => k, fun _ _ h => beq_iff_eq.mp h⟩

/-- Elements go around the end of the array, and come back when others are removed. -/
def wrapping : List (FlatOp natEq Nat) :=
  [.create natHash 8, .emplaceKey 0 7 70, .emplaceKey 0 15 150, .emplaceKey 0 0 1, .emplaceKey 0 23 230,
    .assignOrEmplace 0 15 151, .emplaceKey 0 7 71, .copyNew 0, .eraseIter 0 7, .eraseIf 1 fun k _ => k == 15,
    .rehash 1 16]

end BoxOS.Boxcxx.Flat
