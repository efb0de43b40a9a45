import BoxOS.Boxcxx.FlatHashInv

/-!
# The operations of a flat hash table

`Table.Inv`: the slots are good, the cached hash of a slot is that of its key, no two keys are equal, and at most seven
slots of eight are taken. Every operation has one lemma that says that it comes back, keeps the invariant and does to
`Table.map` what the operation of a map does.
-/

namespace BoxOS.Boxcxx.Flat

open Lib.RobinHood List Option

/-! ## How many slots -/

section Caps

variable {n cap : Nat}

theorem doubling_spec (enough : Nat → Bool) (h : enough (2 ^ 31) = true) :
    ∃ cap, doubling enough = some cap ∧ Cap cap ∧ enough cap = true := by
  unfold doubling
  cases hf : (List.range' 3 61).find? fun k => enough (2 ^ k) with
  | none =>
    have := find?_eq_none.mp hf 31 (by simp)
    exact absurd h this
  | some k =>
    refine ⟨2 ^ k, rfl, ⟨k, ?_, ?_, rfl⟩, by simpa using find?_some hf⟩
    · have := mem_of_find?_eq_some hf
      rw [mem_range'_1] at this
      exact this.1
    · by_contra hgt
      have hsplit := hf
      rw [show (61 : Nat) = 29 + 32 from rfl, ← range'_append_1, find?_append] at hsplit
      have hfirst : ((List.range' 3 29).find? fun k => enough (2 ^ k)).isSome = true :=
        find?_isSome.mpr ⟨31, by simp, h⟩
      obtain ⟨k', hk'⟩ := isSome_iff_exists.mp hfirst
      rw [hk'] at hsplit
      have hmem := mem_of_find?_eq_some hk'
      rw [mem_range'_1] at hmem
      cases hsplit
      omega

theorem roundSlots_spec (h : n ≤ kMaxSlots) : ∃ cap, roundSlots n = some cap ∧ Cap cap ∧ n ≤ cap := by
  obtain ⟨cap, hr, hc, he⟩ := doubling_spec (fun c => decide (n ≤ c)) (decide_eq_true h)
  exact ⟨cap, hr, hc, of_decide_eq_true he⟩

theorem slotsForSize_spec (h : n ≤ limitOf kMaxSlots) :
    ∃ cap, slotsForSize n = some cap ∧ Cap cap ∧ n ≤ limitOf cap := by
  obtain ⟨cap, hr, hc, he⟩ := doubling_spec (fun c => decide (n ≤ limitOf c)) (decide_eq_true h)
  exact ⟨cap, hr, hc, of_decide_eq_true he⟩

theorem Cap.le_max (h : Cap n) : n ≤ kMaxSlots := by
  obtain ⟨k, -, hk, rfl⟩ := h
  exact Nat.pow_le_pow_right (by omega) hk

theorem limitOf_mono {m : Nat} (h : n ≤ m) : limitOf n ≤ limitOf m := by
  unfold limitOf
  omega

theorem Cap.limit_lt (h : Cap n) : limitOf n < n := by
  have := h.le
  unfold limitOf
  omega

theorem Cap.dvd (h : Cap n) : 8 ∣ n := by
  obtain ⟨k, hk, -, rfl⟩ := h
  exact Nat.pow_dvd_pow 2 hk

theorem Cap.double (h : Cap n) (hle : n * 2 ≤ kMaxSlots) : Cap (n * 2) := by
  obtain ⟨k, hk, -, rfl⟩ := h
  refine ⟨k + 1, by omega, ?_, (Nat.pow_succ 2 k).symm⟩
  by_contra hgt
  have hpow : 2 ^ 32 ≤ 2 ^ (k + 1) := Nat.pow_le_pow_right (by omega) (by omega)
  rw [← Nat.pow_succ] at hle
  have := hpow.trans hle
  revert this
  decide

end Caps

namespace Table

variable {κ μ : Type*} {E : KeyEq κ} {t : Table E μ} {k : κ} {v : μ}

/-- The map of a table: the element with a key. -/
def map (t : Table E μ) : κ → Option (κ × μ) := lookup E (entries t.slots)

/-- What every table keeps. -/
structure Inv (t : Table E μ) : Prop where
  good : t.slots ≠ [] → Good t.slots
  ctl : ∀ x ∈ entries t.slots, x.ctl = ctlOf (t.hasher.hash x.key)
  distinct : Distinct E (entries t.slots)
  size : t.size = (entries t.slots).length
  load : t.size ≤ limitOf t.cap

theorem empty_inv (h : HashFn E) : (empty μ h).Inv where
  good := fun hne => absurd rfl hne
  ctl := nofun
  distinct := .nil
  size := rfl
  load := Nat.zero_le _

theorem slots_ne (h : t.cap ≠ 0) : t.slots ≠ [] := fun he => h (by unfold cap; rw [he]; rfl)

theorem Inv.free (h : t.Inv) (hne : t.slots ≠ []) : ∃ z < t.slots.length, slotAt t.slots z = none := by
  apply exists_free
  have hload := h.load
  have hlt := (h.good hne).cap.limit_lt
  rw [← h.size]
  exact hload.trans_lt hlt

theorem Inv.of_subperm (h : t.Inv) {u : Table E μ} (hh : u.hasher = t.hasher) (hgood : u.slots ≠ [] → Good u.slots)
    (hsub : (entries u.slots).Subperm (entries t.slots)) (hsize : u.size = (entries u.slots).length)
    (hload : u.size ≤ limitOf u.cap) : u.Inv where
  good := hgood
  ctl := fun x hx => hh ▸ h.ctl x (hsub.subset hx)
  distinct := by
    obtain ⟨l, hl, hs⟩ := hsub
    exact Distinct.perm (h.distinct.sublist hs) hl
  size := hsize
  load := hload

theorem Inv.unique (h : t.Inv) {p q : Nat} {x y : Slot κ μ} (hx : slotAt t.slots p = some x)
    (hy : slotAt t.slots q = some y) (hk : E.eq x.key y.key = true) : p = q := by
  by_contra hne
  have hcons := h.distinct.perm (entries_of_some hx)
  have hin : y ∈ entries (t.slots.set p none) := by
    rw [mem_entries]
    refine ⟨q, ?_⟩
    rw [slotAt_set (slotAt_some hx).1, Function.update_of_ne (Ne.symm hne)]
    exact hy
  exact (pairwise_cons.mp hcons).1 y hin hk

/-- **`FindSlot`** comes back with the slot of the key, if there is one. -/
theorem Inv.findSlot (h : t.Inv) (k : κ) : (∃ p x, t.findSlot k = some (some p) ∧ slotAt t.slots p = some x ∧
    E.eq x.key k = true ∧ t.map k = some (x.key, x.val)) ∨ t.findSlot k = some none ∧ t.map k = none := by
  unfold Table.findSlot
  split
  · rename_i hzero
    refine .inr ⟨rfl, ?_⟩
    have hnil : t.slots = [] := length_eq_zero_iff.mp hzero
    unfold map
    rw [hnil]
    rfl
  rename_i hcap
  have hne := slots_ne hcap
  have hgood := h.good hne
  obtain ⟨z, hz, hfree⟩ := h.free hne
  have hfound : ∀ {p x}, slotAt t.slots p = some x → E.eq x.key k = true → t.map k = some (x.key, x.val) :=
    fun hx hk => h.distinct.lookup (mem_entries.mpr ⟨_, hx⟩) hk
  have hstart : t.hasher.hash k &&& (t.cap - 1) < t.slots.length := by
    rw [show t.cap = t.slots.length from rfl, hgood.cap.and_mask]
    exact Nat.mod_lt _ (by omega)
  cases hm : t.map k with
  | none =>
    obtain ⟨r, hr, hres⟩ := findLoop_some E hgood.cap (ctlOf (t.hasher.hash k)) k (d := 0) hstart hz hfree (gap_lt hz)
    cases r with
    | none => exact .inr ⟨hr, rfl⟩
    | some p =>
      obtain ⟨x, hx, hk⟩ := hres p rfl
      rw [hfound hx hk] at hm
      cases hm
  | some kv =>
    unfold map lookup at hm
    obtain ⟨x, hfind, rfl⟩ := map_eq_some_iff.mp hm
    have hk : E.eq x.key k = true := by simpa using find?_some hfind
    obtain ⟨p, hx⟩ := mem_entries.mp (mem_of_find?_eq_some hfind)
    have hctl : x.ctl = ctlOf (t.hasher.hash k) := by
      rw [h.ctl x (mem_of_find?_eq_some hfind), t.hasher.compat _ _ hk]
    have hideal : t.hasher.hash k &&& (t.cap - 1) = ideal t.slots.length x := by
      unfold ideal
      rw [hctl]
      exact (hgood.cap.idealOf_ctlOf _).symm
    have hi : ideal t.slots.length x < t.slots.length := hgood.cap.ideal_lt _
    have hhit := hgood.findLoop_hit E hx hk
      (fun q y hy hyk => h.unique hy hx (E.equiv.trans hyk (E.equiv.symm hk))) (s := ideal t.slots.length x) hi
      (by rw [gap_self hi]; exact Nat.zero_le _) hz hfree (gap_lt hz)
    rw [gap_self hi, hctl, ← hideal] at hhit
    exact .inl ⟨p, x, hhit, hx, hk, rfl⟩

/-! ## Other slots -/

theorem Inv.rehashTo (h : t.Inv) {cap : Nat} (hc : Cap cap) (hroom : t.size ≤ limitOf cap) :
    ∃ u, t.rehashTo cap = some u ∧ u.Inv ∧ u.map = t.map ∧ u.hasher = t.hasher ∧ u.cap = cap ∧ u.size = t.size := by
  obtain ⟨hgood, hnone⟩ := good_allocate (κ := κ) (μ := μ) hc
  have hlen : (allocate κ μ cap).length = cap := length_replicate
  obtain ⟨l, hr, hl, hlgood, hperm⟩ := hgood.placeAll (entries t.slots) (by
    rw [hnone, hlen, ← h.size, length_nil, Nat.zero_add]
    exact hroom.trans_lt hc.limit_lt)
  rw [hnone, append_nil] at hperm
  have hcap : l.length = cap := hl.trans hlen
  refine ⟨⟨t.hasher, l, (entries t.slots).length⟩, ?_, ?_, ?_, rfl, hcap, h.size.symm⟩
  · unfold Table.rehashTo
    rw [hr]
    rfl
  · refine h.of_subperm rfl (fun _ => hlgood) hperm.subperm hperm.length_eq.symm ?_
    show (entries t.slots).length ≤ limitOf l.length
    rw [← h.size, hcap]
    exact hroom
  · exact (h.distinct.lookup_perm hperm.symm).symm

theorem Inv.size_le (h : t.Inv) : t.size ≤ limitOf kMaxSlots := by
  by_cases hne : t.slots = []
  · have hload := h.load
    unfold cap at hload
    rw [hne] at hload
    exact hload.trans (limitOf_mono (Nat.zero_le _))
  · exact h.load.trans (limitOf_mono (h.good hne).cap.le_max)

theorem Inv.rehash (h : t.Inv) {slots : Nat} (hmax : slots ≤ kMaxSlots) :
    ∃ u, t.rehash slots = some u ∧ u.Inv ∧ u.map = t.map := by
  obtain ⟨need, hneed, hneedc, hneedle⟩ := slotsForSize_spec h.size_le
  have hwant : (if slots < need then need else slots) ≤ kMaxSlots := by
    split
    · exact hneedc.le_max
    · exact hmax
  obtain ⟨want, hr, hc, hle⟩ := roundSlots_spec hwant
  unfold Table.rehash
  rw [hneed, bind_some, hr, bind_some]
  split
  · exact ⟨t, rfl, h, rfl⟩
  have hlarge : need ≤ want := by
    refine le_trans ?_ hle
    split <;> omega
  obtain ⟨u, hu, hinv, hmap, -⟩ := h.rehashTo hc (hneedle.trans (limitOf_mono hlarge))
  exact ⟨u, hu, hinv, hmap⟩

theorem Inv.reserve (h : t.Inv) (byAlloc n : Nat) : ∃ u, t.reserve byAlloc n = some u ∧ u.Inv ∧ u.map = t.map := by
  unfold Table.reserve
  split
  · exact ⟨t, rfl, h, rfl⟩
  rename_i hsmall
  have hle : n ≤ limitOf kMaxSlots := (not_lt.mp hsmall).trans (Nat.min_le_left _ _)
  obtain ⟨want, hr, hc, -⟩ := slotsForSize_spec hle
  rw [hr, bind_some]
  split
  · rename_i hgrow
    obtain ⟨u, hu, hinv, hmap, -⟩ := h.rehashTo hc (h.load.trans (limitOf_mono hgrow.le))
    exact ⟨u, hu, hinv, hmap⟩
  · exact ⟨t, rfl, h, rfl⟩

theorem Inv.copyFrom (h : t.Inv) : ∃ u, t.copyFrom = some u ∧ u.Inv ∧ u.map = t.map := by
  unfold Table.copyFrom
  split
  · rename_i hzero
    refine ⟨_, rfl, empty_inv _, ?_⟩
    have hnil : entries t.slots = [] := length_eq_zero_iff.mp (h.size.symm.trans hzero)
    unfold map
    rw [hnil]
    rfl
  obtain ⟨cap, hr, hc, hle⟩ := slotsForSize_spec h.size_le
  obtain ⟨u, hu, hinv, hmap, -⟩ := h.rehashTo hc hle
  rw [hr, bind_some]
  exact ⟨u, hu, hinv, hmap⟩

theorem Inv.clear (h : t.Inv) : t.clear.Inv ∧ t.clear.map = fun _ => none := by
  have hslots : t.clear.slots = allocate κ μ t.cap := map_const' ..
  have hlen : t.clear.slots.length = t.slots.length := length_map ..
  have hnone : entries t.clear.slots = [] := by
    rw [hslots]
    unfold entries allocate
    rw [filterMap_eq_nil_iff]
    exact fun v hv => eq_of_mem_replicate hv
  refine ⟨h.of_subperm rfl (fun hne => ?_) ?_ ?_ (Nat.zero_le _), ?_⟩
  · rw [hslots]
    exact (good_allocate (h.good fun he => hne (length_eq_zero_iff.mp (by rw [hlen, he]; rfl))).cap).1
  · rw [hnone]
    exact nil_subperm
  · rw [hnone]
    rfl
  · unfold map
    rw [hnone]
    rfl

/-! ## Insertion -/

/-- Whether an insertion needs more slots than there may be. -/
def Fits (t : Table E μ) (k : κ) : Prop :=
  t.map k = none → t.size + 1 > limitOf t.cap → t.cap * 2 ≤ kMaxSlots

theorem Inv.placeNew (h : t.Inv) (hnew : t.map k = none) (hfits : t.Fits k) (v : μ) :
    ∃ u s, t.placeNew k v = some (u, s) ∧ u.Inv ∧ slotAt u.slots s = some ⟨ctlOf (t.hasher.hash k), k, v⟩ ∧
      u.map = fun q => if E.eq k q then some (k, v) else t.map q := by
  -- the table that has grown if it had to
  have hgrown : ∃ g,
      (if t.size + 1 > limitOf t.cap then t.rehashTo (if t.cap = 0 then 8 else t.cap * 2) else some t) = some g ∧
      g.Inv ∧ g.map = t.map ∧ g.hasher = t.hasher ∧ g.size + 1 ≤ limitOf g.cap := by
    split
    · rename_i hfull
      have hcap : Cap (if t.cap = 0 then 8 else t.cap * 2) ∧
          t.size + 1 ≤ limitOf (if t.cap = 0 then 8 else t.cap * 2) := by
        have hload := h.load
        split
        · rename_i hzero
          rw [hzero] at hload
          exact ⟨⟨3, le_rfl, by omega, rfl⟩, by unfold limitOf at hload ⊢; omega⟩
        rename_i hpos
        have hc := (h.good (slots_ne hpos)).cap
        refine ⟨hc.double (hfits hnew hfull), ?_⟩
        have hle : 8 ≤ t.cap := hc.le
        have hdvd : 8 ∣ t.cap := hc.dvd
        unfold limitOf at hload ⊢
        omega
      obtain ⟨g, hg, hinv, hmap, hhash, hgcap, hgsize⟩ := h.rehashTo hcap.1 ((Nat.le_succ _).trans hcap.2)
      exact ⟨g, hg, hinv, hmap, hhash, by rw [hgcap, hgsize]; exact hcap.2⟩
    · exact ⟨t, rfl, h, rfl, rfl, by omega⟩
  obtain ⟨g, hg, hinv, hmap, hhash, hroom⟩ := hgrown
  have hne : g.slots ≠ [] := fun he => by
    unfold cap at hroom
    rw [he] at hroom
    exact absurd hroom (by simp [limitOf])
  have hgood := hinv.good hne
  have hlimit := hgood.cap.limit_lt
  have hroom' : g.size + 1 ≤ limitOf g.slots.length := hroom
  obtain ⟨l, s, hr, hlen, hlgood, hperm, hat⟩ := hgood.placeWithCtl ⟨ctlOf (g.hasher.hash k), k, v⟩ (by
    rw [← hinv.size]
    omega)
  have habsent : ∀ x ∈ entries g.slots, ¬E.eq x.key k = true := lookup_none.mp ((congrFun hmap k).trans hnew)
  have hdistinct : Distinct E (⟨ctlOf (g.hasher.hash k), k, v⟩ :: entries g.slots : List (Slot κ μ)) :=
    pairwise_cons.mpr ⟨fun x hx hk => habsent x hx (E.equiv.symm hk), hinv.distinct⟩
  refine ⟨⟨g.hasher, l, g.size + 1⟩, s, ?_,
    ⟨fun _ => hlgood, fun x hx => ?_, hdistinct.perm hperm.symm, ?_, ?_⟩, ?_, ?_⟩
  · unfold Table.placeNew
    rw [hg, bind_some, hr]
    rfl
  · rcases mem_cons.mp (hperm.subset hx) with rfl | hx
    · rfl
    · exact hinv.ctl x hx
  · rw [hperm.length_eq, length_cons, ← hinv.size]
  · show g.size + 1 ≤ limitOf l.length
    rw [hlen]
    exact hroom
  · rw [← hhash]
    exact hat
  · funext q
    have hmap' : lookup E (entries l) q = if E.eq k q then some (k, v) else lookup E (entries g.slots) q := by
      rw [← hdistinct.lookup_perm hperm.symm, lookup_cons]
    rw [← hmap]
    exact hmap'

/-- The slot holds the key. -/
def Holds (t : Table E μ) (s : Nat) (k : κ) : Prop := ∃ x, slotAt t.slots s = some x ∧ E.eq x.key k = true

theorem Inv.emplaceKey (h : t.Inv) (hfits : t.Fits k) (v : μ) :
    ∃ u s b, t.emplaceKey k v = some (u, s, b) ∧ u.Inv ∧ u.Holds s k ∧ (b = true ↔ t.map k = none) ∧
      u.map = fun q => if E.eq k q then (t.map k).or (some (k, v)) else t.map q := by
  unfold Table.emplaceKey
  rcases h.findSlot k with ⟨p, x, hr, hx, hk, hm⟩ | ⟨hr, hm⟩
  · refine ⟨t, p, false, by rw [hr]; rfl, h, ⟨x, hx, hk⟩, by rw [hm]; simp, ?_⟩
    funext q
    split
    · rename_i hq
      rw [hm, some_or, ← hm]
      exact lookup_congr hq
    · rfl
  obtain ⟨u, s, hp, hinv, hat, hmap⟩ := h.placeNew hm hfits v
  refine ⟨u, s, true, by rw [hr, bind_some, hp]; rfl, hinv, ⟨_, hat, E.equiv.refl k⟩, by simp [hm], ?_⟩
  rw [hmap, hm]
  rfl

theorem Inv.assignOrEmplace (h : t.Inv) (hfits : t.Fits k) (v : μ) :
    ∃ u s b, t.assignOrEmplace k v = some (u, s, b) ∧ u.Inv ∧ u.Holds s k ∧ (b = true ↔ t.map k = none) ∧
      u.map = fun q => if E.eq k q then some (((t.map k).map Prod.fst).getD k, v) else t.map q := by
  unfold Table.assignOrEmplace
  rcases h.findSlot k with ⟨p, x, hr, hx, hk, hm⟩ | ⟨hr, hm⟩
  · obtain ⟨hlt, hp⟩ := slotAt_some hx
    have hset : (t.slots.modify p fun y => y.map fun y => { y with val := v }) =
        t.slots.set p (some { x with val := v }) := by
      rw [modify_eq_set_getElem?, hp]
      rfl
    have hperm := entries_of_some hx
    have hperm' := entries_set hlt (some { x with val := v })
    have hlen : (t.slots.set p (some { x with val := v })).length = t.slots.length := length_set ..
    have hdistinct : Distinct E ({ x with val := v } :: entries (t.slots.set p none)) := by
      have hcons := pairwise_cons.mp (h.distinct.perm hperm)
      exact pairwise_cons.mpr hcons
    have hold := h.distinct.lookup_perm hperm
    refine ⟨⟨t.hasher, t.slots.set p (some { x with val := v }), t.size⟩, p, false, ?_, ⟨fun _ => ?_, ?_, ?_, ?_, ?_⟩,
      ⟨{ x with val := v }, ?_, hk⟩, by rw [hm]; simp, ?_⟩
    · simp only [hr, bind_some, hset]
    · have hgood := h.good fun he => by rw [he] at hlt; cases hlt
      refine ⟨hlen.symm ▸ hgood.cap, ?_⟩
      rw [hlen]
      apply hgood.ordered.congr
      intro q
      rw [slotAt_set hlt]
      by_cases hqp : q = p
      · rw [hqp, Function.update_self, hx]
        rfl
      · rw [Function.update_of_ne hqp]
    · intro y hy
      rcases mem_cons.mp (hperm'.subset hy) with rfl | hy
      · exact h.ctl x (mem_entries.mpr ⟨p, hx⟩)
      · exact h.ctl y (hperm.symm.subset (mem_cons_of_mem x hy))
    · exact hdistinct.perm hperm'.symm
    · rw [h.size, hperm.length_eq, hperm'.length_eq]
      rfl
    · show t.size ≤ limitOf (t.slots.set p (some { x with val := v })).length
      rw [hlen]
      exact h.load
    · show slotAt (t.slots.set p _) p = _
      rw [slotAt_set hlt, Function.update_self]
    · funext q
      have hnew : lookup E (entries (t.slots.set p (some { x with val := v }))) q =
          if E.eq x.key q then some (x.key, v) else lookup E (entries (t.slots.set p none)) q := by
        rw [← hdistinct.lookup_perm hperm'.symm, lookup_cons]
      have hold :
          t.map q = if E.eq x.key q then some (x.key, x.val) else lookup E (entries (t.slots.set p none)) q := by
        unfold map
        rw [hold, lookup_cons]
      refine hnew.trans ?_
      rw [hm, hold]
      by_cases hq : E.eq k q = true
      · rw [if_pos hq, if_pos (E.equiv.trans hk hq)]
        rfl
      · have hxq : ¬E.eq x.key q = true := fun hxq => hq (E.equiv.trans (E.equiv.symm hk) hxq)
        rw [if_neg hq, if_neg hxq, if_neg hxq]
  · obtain ⟨u, s, hp, hinv, hat, hmap⟩ := h.placeNew hm hfits v
    refine ⟨u, s, true, by rw [hr, bind_some, hp]; rfl, hinv, ⟨_, hat, E.equiv.refl k⟩, by simp [hm], ?_⟩
    rw [hmap, hm]
    rfl

/-! ## Removal -/

theorem Inv.eraseAt (h : t.Inv) {s z : Nat} {x : Slot κ μ} (hx : slotAt t.slots s = some x) (hz : z < t.slots.length)
    (hfree : slotAt t.slots z = none) : ∃ u, t.eraseAt s = some u ∧ u.Inv ∧ u.slots.length = t.slots.length ∧
      (entries t.slots).Perm (x :: entries u.slots) ∧ u.hasher = t.hasher ∧
      ∀ q < t.slots.length, gap t.slots.length z q < gap t.slots.length z s → slotAt u.slots q = slotAt t.slots q := by
  have hgood := h.good fun he => by rw [he] at hz; cases hz
  obtain ⟨l, hr, hlen, hlgood, hperm, hframe⟩ := hgood.eraseAt hx hz hfree
  have hcount := hperm.length_eq
  rw [length_cons] at hcount
  have hsize := h.size
  refine ⟨⟨t.hasher, l, t.size - 1⟩, ?_, ?_, hlen, hperm, rfl, hframe⟩
  · unfold Table.eraseAt
    rw [show t.cap = t.slots.length from rfl, hr]
    rfl
  · refine h.of_subperm rfl (fun _ => hlgood) ?_ ?_ ?_
    · exact (sublist_cons_self x _).subperm.trans hperm.symm.subperm
    · show t.size - 1 = (entries l).length
      omega
    · show t.size - 1 ≤ limitOf l.length
      rw [hlen]
      exact (Nat.sub_le _ _).trans h.load

theorem Inv.eraseAt_map (h : t.Inv) {s : Nat} {x : Slot κ μ} (hx : slotAt t.slots s = some x) :
    ∃ u, t.eraseAt s = some u ∧ u.Inv ∧ u.map = fun q => if E.eq x.key q then none else t.map q := by
  obtain ⟨z, hz, hfree⟩ := h.free fun he => by
    have := (slotAt_some hx).1
    rw [he] at this
    cases this
  obtain ⟨u, hu, hinv, -, hperm, -⟩ := h.eraseAt hx hz hfree
  exact ⟨u, hu, hinv, h.distinct.lookup_erase hperm⟩

theorem Inv.eraseKey (h : t.Inv) (k : κ) : ∃ u n, t.eraseKey k = some (u, n) ∧ u.Inv ∧
    (n = if (t.map k).isSome then 1 else 0) ∧ u.map = fun q => if E.eq k q then none else t.map q := by
  unfold Table.eraseKey
  rcases h.findSlot k with ⟨p, x, hr, hx, hk, hm⟩ | ⟨hr, hm⟩
  · obtain ⟨u, hu, hinv, hmap⟩ := h.eraseAt_map hx
    refine ⟨u, 1, by simp only [hr, bind_some, hu, Option.map_some], hinv, by rw [hm]; rfl, ?_⟩
    rw [hmap]
    funext q
    have hsame : E.eq x.key q = E.eq k q :=
      Bool.eq_iff_iff.mpr ⟨fun hq => E.equiv.trans (E.equiv.symm hk) hq, fun hq => E.equiv.trans hk hq⟩
    rw [hsame]
  refine ⟨t, 0, by rw [hr]; rfl, h, by rw [hm]; rfl, ?_⟩
  funext q
  split
  · rename_i hq
    exact (lookup_congr hq).trans hm
  · rfl

/-- The loop of `EraseIf`: the slots that it has passed hold no element with the property, and the first of them is
empty. -/
theorem Inv.eraseIfLoop_spec (h : t.Inv) (p : κ → μ → Bool) {origin : Nat} (fuel n removed : Nat)
    (ho : origin < t.slots.length) (hfree : slotAt t.slots origin = none)
    (hpassed : ∀ q < t.slots.length, gap t.slots.length origin q < n → ∀ x, slotAt t.slots q = some x →
    p x.key x.val = false) (hfuel : (t.slots.length - n) + (entries t.slots).length < fuel) :
    ∃ u r, eraseIfLoop p origin fuel t n removed = some (u, r) ∧ u.Inv ∧
    (entries u.slots).Perm ((entries t.slots).filter fun x => !p x.key x.val) ∧
    r = removed + (entries t.slots).countP fun x => p x.key x.val := by
  induction fuel generalizing t n removed with
  | zero => omega
  | succ fuel ih =>
    have hgood := h.good fun he => by rw [he] at ho; cases ho
    unfold eraseIfLoop
    rw [show t.cap = t.slots.length from rfl, hgood.cap.and_mask]
    split
    · rename_i hn
      have hs : (origin + n) % t.slots.length < t.slots.length := Nat.mod_lt _ (by omega)
      have hgap := gap_add ho hn
      dsimp only
      -- one slot further
      have hskip : (∀ x, slotAt t.slots ((origin + n) % t.slots.length) = some x → p x.key x.val = false) →
          ∃ u r, eraseIfLoop p origin fuel t (n + 1) removed = some (u, r) ∧ u.Inv ∧
            (entries u.slots).Perm ((entries t.slots).filter fun x => !p x.key x.val) ∧
            r = removed + (entries t.slots).countP fun x => p x.key x.val := by
        intro hkeep
        refine ih h (n + 1) removed ho hfree (fun q hq hlt x hx => ?_) (by omega)
        by_cases hqn : gap t.slots.length origin q = n
        · rw [gap_inj ho hq hs (hqn.trans hgap.symm)] at hx
          exact hkeep x hx
        · exact hpassed q hq (by omega) x hx
      cases hx : slotAt t.slots ((origin + n) % t.slots.length) with
      | none => exact hskip fun x h => by rw [hx] at h; cases h
      | some x =>
        cases hp : p x.key x.val with
        | false =>
          simp only [hp, Bool.not_false, if_true]
          refine hskip fun y hy => ?_
          rw [hx] at hy
          cases hy
          exact hp
        | true =>
          simp only [hp, Bool.not_true, Bool.false_eq_true, if_false]
          have hso : (origin + n) % t.slots.length ≠ origin := fun he => by rw [he, hfree] at hx; cases hx
          have hpos : n ≠ 0 := fun h0 => hso ((gap_eq_zero ho hs).mp (hgap.trans h0))
          obtain ⟨u, hu, hinv, hlen, hperm, -, hframe⟩ := h.eraseAt hx ho hfree
          have hcount := hperm.length_eq
          rw [length_cons] at hcount
          have hpassed' : ∀ q < u.slots.length, gap u.slots.length origin q < n → ∀ y, slotAt u.slots q = some y →
              p y.key y.val = false := by
            intro q hq hlt y hy
            rw [hlen] at hq hlt
            rw [hframe q hq (by omega)] at hy
            exact hpassed q hq hlt y hy
          have hfree' : slotAt u.slots origin = none := by
            rw [hframe origin ho (by rw [gap_self ho]; omega)]
            exact hfree
          have hfilter : (entries u.slots).filter (fun y => !p y.key y.val) =
              (x :: entries u.slots).filter fun y => !p y.key y.val := by
            rw [filter_cons_of_neg (by simp [hp])]
          have hcountP : (entries t.slots).countP (fun y => p y.key y.val) =
              (entries u.slots).countP (fun y => p y.key y.val) + 1 := by
            rw [hperm.countP_eq, countP_cons, hp]
            rfl
          rw [hu, bind_some]
          have hnext : ∀ m, n ≤ m → (∀ q < u.slots.length, gap u.slots.length origin q < m → ∀ y,
              slotAt u.slots q = some y → p y.key y.val = false) →
              ∃ w r, eraseIfLoop p origin fuel u m (removed + 1) = some (w, r) ∧ w.Inv ∧
                (entries w.slots).Perm ((entries t.slots).filter fun y => !p y.key y.val) ∧
                r = removed + (entries t.slots).countP fun y => p y.key y.val := by
            intro m hm hp'
            obtain ⟨w, r, hw, hwinv, hwperm, hr⟩ := ih hinv m (removed + 1) (by omega) hfree' hp'
              (by rw [hlen]; omega)
            refine ⟨w, r, hw, hwinv, hwperm.trans ?_, by rw [hr, hcountP]; omega⟩
            rw [hfilter]
            exact (hperm.filter _).symm
          cases hrest : slotAt u.slots ((origin + n) % t.slots.length) with
          | some y => exact hnext n le_rfl hpassed'
          | none =>
            refine hnext (n + 1) (Nat.le_succ n) fun q hq hlt y hy => ?_
            by_cases hqn : gap u.slots.length origin q = n
            · rw [hlen] at hq hqn
              rw [gap_inj ho hq hs (hqn.trans hgap.symm), hrest] at hy
              cases hy
            · exact hpassed' q hq (by omega) y hy
    · rename_i hn
      -- every slot has been passed
      have hall : ∀ x ∈ entries t.slots, p x.key x.val = false := by
        intro x hx
        obtain ⟨q, hq⟩ := mem_entries.mp hx
        have hlt := (slotAt_some hq).1
        have := gap_lt (i := origin) hlt
        exact hpassed q hlt (by omega) x hq
      refine ⟨t, removed, rfl, h, ?_, ?_⟩
      · rw [filter_eq_self.mpr fun x hx => by rw [hall x hx]; rfl]
      · rw [countP_eq_zero.mpr fun x hx => by rw [hall x hx]; exact Bool.false_ne_true]
        rfl

theorem Inv.eraseIf (h : t.Inv) (p : κ → μ → Bool) :
    ∃ u r, t.eraseIf p = some (u, r) ∧ u.Inv ∧ r = (entries t.slots).countP (fun x => p x.key x.val) ∧
    u.map = fun q => (t.map q).filter fun kv => !p kv.1 kv.2 := by
  unfold Table.eraseIf
  have hmap : ∀ u : Table E μ, (entries u.slots).Perm ((entries t.slots).filter fun x => !p x.key x.val) →
      u.map = fun q => (t.map q).filter fun kv => !p kv.1 kv.2 := by
    intro u hperm
    have hdistinct : Distinct E ((entries t.slots).filter fun x => !p x.key x.val) := h.distinct.sublist filter_sublist
    exact (hdistinct.lookup_perm hperm.symm).symm.trans (h.distinct.lookup_filter p)
  split
  · rename_i hzero
    have hnil : entries t.slots = [] := by
      rcases hzero with hcap | hsize
      · rw [length_eq_zero_iff.mp hcap]
        rfl
      · exact length_eq_zero_iff.mp (h.size.symm.trans hsize)
    refine ⟨t, 0, rfl, h, by rw [hnil]; rfl, hmap t ?_⟩
    rw [hnil]
    exact .refl _
  · rename_i hsome
    have hne : t.slots ≠ [] := slots_ne fun h0 => hsome (.inl h0)
    obtain ⟨z, hz, hfree⟩ := h.free hne
    have hex : ∃ v ∈ t.slots, v.isNone = true := by
      refine ⟨none, ?_, rfl⟩
      unfold slotAt at hfree
      rw [getD_eq_getElem?_getD, getElem?_eq_getElem hz] at hfree
      have hfree : t.slots[z] = none := hfree
      exact hfree ▸ getElem_mem hz
    have hlt : t.slots.findIdx (·.isNone) < t.slots.length := findIdx_lt_length.mpr hex
    have hnone : slotAt t.slots (t.slots.findIdx (·.isNone)) = none := by
      have hget := findIdx_getElem (w := hlt)
      unfold slotAt
      rw [getD_eq_getElem?_getD, getElem?_eq_getElem hlt]
      exact isNone_iff_eq_none.mp hget
    simp only
    rw [if_neg (fun he : t.slots.findIdx (·.isNone) = t.cap => absurd he hlt.ne)]
    have hload := h.load
    have hsize := h.size
    have hlim : limitOf t.cap ≤ t.slots.length := Nat.sub_le _ _
    obtain ⟨u, r, hu, hinv, hperm, hr⟩ := h.eraseIfLoop_spec p (2 * t.cap + 1) 0 0 hlt hnone
      (fun q _ hq => absurd hq (Nat.not_lt_zero _)) (by rw [show t.cap = t.slots.length from rfl]; omega)
    exact ⟨u, r, hu, hinv, hr.trans (Nat.zero_add _), hmap u hperm⟩

/-! ## Comparison -/

theorem Inv.keyedEqualLoop (h : t.Inv) (veq : μ → μ → Bool) (xs : List (Slot κ μ)) : ∃ b,
    keyedEqualLoop veq t xs = some b ∧ (b = true ↔ ∀ x ∈ xs, ∃ kv, t.map x.key = some kv ∧ veq x.val kv.2 = true) := by
  induction xs with
  | nil => exact ⟨true, rfl, nofun, fun _ => rfl⟩
  | cons x xs ih =>
    obtain ⟨b, hb, hiff⟩ := ih
    unfold Table.keyedEqualLoop
    rcases h.findSlot x.key with ⟨o, y, hr, hy, -, hm⟩ | ⟨hr, hm⟩
    · simp only [hr, bind_some, hy, any_some]
      cases hv : veq x.val y.val with
      | true =>
        refine ⟨b, hb, hiff.trans ⟨fun hall z hz => ?_, fun hall z hz => hall z (mem_cons_of_mem x hz)⟩⟩
        rcases mem_cons.mp hz with rfl | hz
        · exact ⟨_, hm, hv⟩
        · exact hall z hz
      | false =>
        refine ⟨false, rfl, nofun, fun hall => ?_⟩
        obtain ⟨kv, hkv, hveq⟩ := hall x mem_cons_self
        rw [hm] at hkv
        cases hkv
        exact absurd hveq (by rw [hv]; exact Bool.false_ne_true)
    · simp only [hr, bind_some]
      refine ⟨false, rfl, nofun, fun hall => ?_⟩
      obtain ⟨kv, hkv, -⟩ := hall x mem_cons_self
      rw [hm] at hkv
      cases hkv

theorem map_some {kv : κ × μ} (h : t.map k = some kv) :
    ∃ x ∈ entries t.slots, E.eq x.key k = true ∧ kv = (x.key, x.val) := by
  unfold map lookup at h
  obtain ⟨x, hfind, rfl⟩ := map_eq_some_iff.mp h
  exact ⟨x, mem_of_find?_eq_some hfind, by simpa using find?_some hfind, rfl⟩

/-- **`KeyedEqual`** is equality of the maps, with `veq` for the values. -/
theorem Inv.keyedEqual (h : t.Inv) {u : Table E μ} (hu : u.Inv) (veq : μ → μ → Bool) : ∃ b,
    t.keyedEqual u veq = some b ∧ (b = true ↔ ∀ k, Option.Rel (fun a c => veq a.2 c.2 = true) (t.map k) (u.map k)) := by
  have hmatch : (∀ x ∈ entries t.slots, ∃ kv, u.map x.key = some kv ∧ veq x.val kv.2 = true) →
      ∀ x ∈ entries t.slots, ∃ y ∈ entries u.slots, E.eq y.key x.key = true := by
    intro hall x hx
    obtain ⟨kv, hkv, -⟩ := hall x hx
    obtain ⟨y, hy, hk, -⟩ := map_some hkv
    exact ⟨y, hy, hk⟩
  have hfrom : (∀ k, Option.Rel (fun a c => veq a.2 c.2 = true) (t.map k) (u.map k)) →
      ∀ x ∈ entries t.slots, ∃ kv, u.map x.key = some kv ∧ veq x.val kv.2 = true := by
    intro hrel x hx
    have := hrel x.key
    rw [show t.map x.key = some (x.key, x.val) from h.distinct.lookup hx (E.equiv.refl x.key)] at this
    cases hm : u.map x.key with
    | none =>
      rw [hm] at this
      cases this
    | some kv =>
      rw [hm] at this
      cases this with
      | some hv => exact ⟨kv, rfl, hv⟩
  unfold Table.keyedEqual
  split
  · rename_i hsize
    refine ⟨false, rfl, nofun, fun hrel => absurd ?_ hsize⟩
    obtain ⟨hle, -⟩ := h.distinct.match_all (hmatch (hfrom hrel))
    have hback : ∀ y ∈ entries u.slots, ∃ x ∈ entries t.slots, E.eq x.key y.key = true := by
      intro y hy
      have := hrel y.key
      rw [show u.map y.key = some (y.key, y.val) from hu.distinct.lookup hy (E.equiv.refl y.key)] at this
      cases hm : t.map y.key with
      | none =>
        rw [hm] at this
        cases this
      | some kv =>
        obtain ⟨x, hx, hk, -⟩ := map_some hm
        exact ⟨x, hx, hk⟩
    obtain ⟨hge, -⟩ := hu.distinct.match_all hback
    rw [h.size, hu.size]
    omega
  · rename_i hsize
    obtain ⟨b, hb, hiff⟩ := hu.keyedEqualLoop veq (entries t.slots)
    refine ⟨b, hb, hiff.trans ⟨fun hall k => ?_, hfrom⟩⟩
    cases hm : t.map k with
    | some kv =>
      obtain ⟨x, hx, hk, rfl⟩ := map_some hm
      obtain ⟨kv', hkv', hv⟩ := hall x hx
      rw [show u.map k = some kv' from (lookup_congr hk).trans hkv']
      exact .some hv
    | none =>
      cases hmu : u.map k with
      | none => exact .none
      | some kv =>
        -- as many elements, so none of the other table is left over
        obtain ⟨y, hy, hyk, -⟩ := map_some hmu
        have hlen : (entries u.slots).length ≤ (entries t.slots).length := by
          rw [← h.size, ← hu.size]
          exact (not_not.mp hsize).ge
        obtain ⟨x, hx, hyx⟩ := (h.distinct.match_all (hmatch hall)).2 hlen y hy
        exact absurd (E.equiv.trans (E.equiv.symm hyx) hyk) (lookup_none.mp hm x hx)

end Table

end BoxOS.Boxcxx.Flat
