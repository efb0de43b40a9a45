import BoxOS.Memory.GuardInv

/-!
# Region ids and the lookup by page

`MemRegionRegistryCreate`, `MemRegionRegistryDestroy` and `MemRegionRegistryFromPhys`. The regions that have been made
and not destroyed stand beside the registry, the newest first; `Found` says that the registry has them, and finds the
newest one that covers an address. Each page has one id in `id_by_page`, so a region that is destroyed leaves its pages
unknown, also those of the regions around it (`nested_leaves_page_unknown`).
-/

namespace BoxOS.Memory

open Lib List Option MemTagState

/-- An address lies in the region; `base_phys` 0 says that it has no physical range. -/
def MemRegion.covers (r : MemRegion) (p : Nat) : Bool :=
  decide (r.basePhys ≠ 0) && decide (r.basePhys ≤ p) && decide (p < r.basePhys + r.pages * pmmPageSize)

structure RegionWorld where
  s : MemTagState
  made : List (Nat × MemRegion)

inductive RegionCall where
  | create (basePhys pages : Nat) (kernel : Bool) (heapSlots : Nat)
  | destroy (id : Nat)

namespace RegionWorld

def next (w : RegionWorld) : RegionCall → RegionWorld
  | .create basePhys pages kernel heapSlots =>
    match w.s.registryCreate basePhys pages kernel heapSlots with
    | none => w
    | some (id, s) => ⟨s, (id, ⟨true, kernel, basePhys, pages, [], 0, []⟩) :: w.made⟩
  | .destroy id => ⟨w.s.registryDestroy id, w.made.filter fun e => e.1 ≠ id⟩

def Step (w : RegionWorld) (c : RegionCall) (w' : RegionWorld) : Prop := w.next c = w'

/-- `MemRegionRegistryInit`. -/
def start (pageCount : Nat) : RegionWorld := ⟨.empty pageCount, []⟩

/-- A new region is made of whole pages that `id_by_page` covers, and a region that is destroyed is not the newest one
at an address where another one lies too. -/
def Clean (w : RegionWorld) : RegionCall → Prop
  | .create basePhys pages _ _ => pages ≠ 0 → basePhys ≠ 0 →
      basePhys % pmmPageSize = 0 ∧ basePhys / pmmPageSize + pages ≤ w.s.pageCount
  | .destroy id => ∀ p, w.s.fromPhys p = some id → ∀ e ∈ w.made, e.2.covers p = true → e.1 = id

/-- The registry has the regions made and not destroyed, unchanged, each in a slot of its own; the other slots are free.
-/
structure Kept (w : RegionWorld) : Prop where
  active : ∀ id r, (id, r) ∈ w.made ↔ w.s.region id = some r
  slots : (w.s.freeStack ++ w.made.map (·.1)).Perm (range w.s.slots.length)

/-- What is found at an address is the newest region that covers it. -/
structure Found (w : RegionWorld) : Prop extends Kept w where
  newest : ∀ p, w.s.fromPhys p = (w.made.find? (·.2.covers p)).map (·.1)

structure Held (w : RegionWorld) : Prop extends Kept w where
  cap : w.s.slots.length ≤ w.s.slotCap
  count : w.s.pageCount < 2 ^ 64
  whole : ∀ e ∈ w.made, e.2.basePhys ≠ 0 → e.2.basePhys % pmmPageSize = 0 ∧
    e.2.basePhys / pmmPageSize + e.2.pages ≤ w.s.pageCount
  /-- the entry of a page, for each address in it -/
  entry : ∀ p, w.s.idByPage (p / pmmPageSize) = (w.made.find? (·.2.covers p)).map (·.1)

variable {w w' : RegionWorld} {c : RegionCall} {cs : List RegionCall} {s s' : MemTagState} {id pages : Nat}
  {r : MemRegion}

/-! ## Single operations -/

theorem covers_eq (hcount : s.pageCount < 2 ^ 64)
    (hwhole : r.basePhys ≠ 0 → r.basePhys % pmmPageSize = 0 ∧ r.basePhys / pmmPageSize + r.pages ≤ s.pageCount)
    (p : Nat) : r.covers p = (decide (r.basePhys ≠ 0) && s.pageRange r.basePhys r.pages (p / pmmPageSize)) := by
  unfold MemRegion.covers pageRange pmmPageSize at *
  by_cases h0 : r.basePhys = 0
  · simp [h0]
  obtain ⟨halign, hle⟩ := hwhole h0
  rw [Bool.eq_iff_iff]
  simp only [Bool.and_eq_true, decide_eq_true_eq, Nat.mod_eq_of_lt (show r.basePhys / 4096 + r.pages < 2 ^ 64 by omega)]
  omega

theorem takeSlot_slots {heapSlots : Nat} {l : List Nat} (h : s.takeSlot heapSlots = some (id, s'))
    (hperm : (s.freeStack ++ l).Perm (range s.slots.length)) (hcap : s.slots.length ≤ s.slotCap) :
    (s'.freeStack ++ id :: l).Perm (range s'.slots.length) ∧ s'.slots.length ≤ s'.slotCap ∧ s'.idByPage = s.idByPage ∧
    s'.pageCount = s.pageCount := by
  unfold takeSlot at h
  split at h
  · rename_i top rest hfree
    cases h
    rw [hfree] at hperm
    exact ⟨perm_middle.trans hperm, hcap, rfl, rfl⟩
  rename_i hfree
  split at h
  · cases h
  rename_i cap hensure
  cases h
  rw [hfree] at hperm ⊢
  refine ⟨?_, ?_, rfl, rfl⟩
  · rw [length_append, length_singleton, range_succ]
    exact (hperm.cons _).trans (perm_append_singleton _ _).symm
  · unfold ensureSlotCapacity at hensure
    simp only [length_append, length_singleton]
    split at hensure
    · cases hensure
      assumption
    split at hensure
    · cases hensure
    · simp only [some.injEq] at hensure
      split at hensure <;> split at hensure <;> omega

theorem Held.find_lt (h : Held w) {p : Nat} {e : Nat × MemRegion} (hfind : w.made.find? (·.2.covers p) = some e) :
    p / pmmPageSize < w.s.pageCount ∧ w.s.region e.1 = some e.2 := by
  have hmem := mem_of_find?_eq_some hfind
  have hcovers := find?_some hfind
  refine ⟨?_, (h.active _ _).mp hmem⟩
  rw [covers_eq h.count (h.whole e hmem)] at hcovers
  simp only [pageRange, Bool.and_eq_true, decide_eq_true_eq] at hcovers
  omega

theorem Held.found (h : Held w) : Found w := by
  refine ⟨h.toKept, fun p => ?_⟩
  unfold fromPhys
  rw [h.entry]
  cases hfind : w.made.find? (·.2.covers p) with
  | none => simp
  | some e =>
    obtain ⟨hlt, hregion⟩ := h.find_lt hfind
    simp [not_le.mpr hlt, hregion]

theorem start_held {pageCount : Nat} (h : pageCount < 2 ^ 64) : Held (start pageCount) where
  active _ _ := ⟨nofun, nofun⟩
  slots := .refl _
  cap := Nat.zero_le _
  count := h
  whole _ he := nomatch he
  entry _ := rfl

/-! ## Calls -/

theorem Held.add (h : Held w) {u : MemTagState}
    (hperm : (u.freeStack ++ id :: w.made.map (·.1)).Perm (range u.slots.length)) (hcap : u.slots.length ≤ u.slotCap)
    (hcount : u.pageCount = w.s.pageCount)
    (hwhole : r.basePhys ≠ 0 → r.basePhys % pmmPageSize = 0 ∧ r.basePhys / pmmPageSize + r.pages ≤ w.s.pageCount)
    (hregion : ∀ j, u.region j = if j = id then some r else w.s.region j) (hentry : ∀ p,
    u.idByPage (p / pmmPageSize) = if r.covers p = true then some id else w.s.idByPage (p / pmmPageSize)) :
    Held ⟨u, (id, r) :: w.made⟩ := by
  refine ⟨⟨fun j r' => ?_, hperm⟩, hcap, hcount ▸ h.count, fun e he => ?_, fun p => ?_⟩
  · -- an id that is taken is no one's
    have hfresh : ∀ r, (id, r) ∉ w.made := fun r hmem =>
      (nodup_cons.mp (nodup_append.mp (hperm.nodup_iff.mpr nodup_range)).2.1).1 (mem_map_of_mem hmem)
    rw [hregion, mem_cons, Prod.mk.injEq]
    by_cases hj : j = id
    · subst hj
      simp [hfresh, eq_comm]
    · simp [hj, h.active]
  · rw [hcount]
    rcases mem_cons.mp he with rfl | he
    · exact hwhole
    · exact h.whole e he
  · rw [hentry, find?_cons, h.entry]
    cases r.covers p <;> rfl

theorem Held.create (h : Held w) {basePhys : Nat} {kernel : Bool} {heapSlots : Nat}
    (hclean : w.Clean (.create basePhys pages kernel heapSlots)) :
    Held (w.next (.create basePhys pages kernel heapSlots)) := by
  by_cases hpages : pages = 0
  · simp only [next, registryCreate, if_pos hpages]
    exact h
  cases htake : w.s.takeSlot heapSlots with
  | none =>
    simp only [next, registryCreate, if_neg hpages, htake]
    exact h
  | some taken =>
    obtain ⟨id, s⟩ := taken
    obtain ⟨hperm, hcap, hpage, hcount⟩ := takeSlot_slots htake h.slots h.cap
    have hlt : id < s.slots.length := mem_range.mp (hperm.mem_iff.mp (by simp))
    have hregion := region_setSlot hlt ⟨true, kernel, basePhys, pages, [], 0, []⟩
    have hcovers := covers_eq (r := ⟨true, kernel, basePhys, pages, [], 0, []⟩) h.count (hclean hpages)
    simp only [next, registryCreate, if_neg hpages, htake]
    refine h.add ?_ ?_ ?_ (hclean hpages) (fun j => ?_) fun p => ?_
    · split <;> simpa [idByPageFill, setSlot] using hperm
    · split <;> simpa [idByPageFill, setSlot] using hcap
    · split <;> exact hcount
    · rw [← (takeSlot_frame htake).2]
      split <;> exact hregion j
    · rw [hcovers, ← hpage]
      split
      · rename_i h0
        simp [idByPageFill, pageRange, setSlot, hcount, h0]
      · rename_i h0
        simp [setSlot, h0]

theorem find?_filter_of_first {α : Type*} {l : List α} {p q : α → Bool}
    (h : ∀ a, l.find? q = some a → p a = false → ∀ b ∈ l, q b = true → p b = false) :
    (l.filter p).find? q = (l.find? q).filter p := by
  rw [find?_filter]
  cases hf : l.find? q with
  | none =>
    rw [find?_eq_none] at hf
    exact find?_eq_none.mpr fun b hb => by simp [hf b hb]
  | some a =>
    cases hp : p a with
    | true =>
      obtain ⟨hq, as, bs, rfl, hnone⟩ := find?_eq_some_iff_append.mp hf
      simp only [filter_some, hp, if_true]
      exact find?_eq_some_iff_append.mpr ⟨by simp [hp, hq], as, bs, rfl, fun b hb => by simp [hnone b hb]⟩
    | false =>
      simp only [filter_some, hp, if_false, Bool.false_eq_true, find?_eq_none]
      intro b hb
      cases hq : q b with
      | false => simp
      | true => simp [h a hf hp b hb hq]

theorem registryDestroy_eq (hr : s.region id = some r) (hroom : s.freeStack.length < s.slotCap) :
    s.registryDestroy id = { s with
      slots := s.slots.set id .cleared, freeStack := id :: s.freeStack
      idByPage := fun p => if (decide (r.basePhys ≠ 0) && s.pageRange r.basePhys r.pages p) &&
        decide (s.idByPage p = some id) then none else s.idByPage p } := by
  unfold registryDestroy
  rw [hr]
  by_cases h0 : r.basePhys = 0
  · simp [h0, setSlot, hroom]
  · simp only [ne_eq, h0, not_false_eq_true, if_true, decide_true, Bool.true_and]
    exact if_pos hroom

theorem Held.destroy (h : Held w) (hclean : w.Clean (.destroy id)) : Held (w.next (.destroy id)) := by
  have hmem : ∀ {r}, (id, r) ∈ w.made ↔ w.s.region id = some r := h.active _ _
  unfold next
  dsimp only
  cases hr : w.s.region id with
  | none =>
    have hkeep : (w.made.filter fun e => e.1 ≠ id) = w.made := filter_eq_self.mpr fun e he => by
      refine decide_eq_true fun heq => ?_
      subst heq
      cases hr.symm.trans (hmem.mp he)
    rw [hkeep, registryDestroy, hr]
    exact h
  | some r =>
    have hids := (nodup_append.mp (h.slots.nodup_iff.mpr nodup_range)).2.1
    have hlen := h.slots.length_eq
    have hpos := length_pos_of_mem (hmem.mpr hr)
    have hcap := h.cap
    simp only [length_append, length_map, length_range] at hlen
    have hregion := region_registryDestroy w.s id
    rw [registryDestroy_eq hr (by omega)] at hregion ⊢
    refine ⟨⟨fun j r' => ?_, ?_⟩, ?_, h.count, fun e he => h.whole e (mem_filter.mp he).1, fun p => ?_⟩
    · rw [hregion, mem_filter]
      by_cases hj : j = id
      · simp [hj]
      · simp [hj, h.active]
    · have hmap : (w.made.filter fun e => e.1 ≠ id).map (·.1) = (w.made.map (·.1)).erase id := by
        rw [hids.erase_eq_filter, List.filter_map]
        exact congrArg (map _) (filter_congr fun e _ => by rw [Bool.eq_iff_iff]; simp)
      simp only [length_set, hmap]
      exact perm_middle.symm.trans (((perm_cons_erase (mem_map_of_mem (hmem.mpr hr))).symm.append_left _).trans h.slots)
    · rwa [length_set]
    -- what the page has is the newest region, and where that one goes there is no other
    have hnewest := h.found.newest p
    have hgone := find?_filter_of_first (l := w.made) (p := fun e => decide (e.1 ≠ id)) (q := (·.2.covers p))
      fun e hfind he e' he' hcovers => by
        have hid : e.1 = id := by simpa using he
        rw [hfind, map_some, hid] at hnewest
        simpa using hclean p hnewest e' he' hcovers
    rw [hgone]
    simp only [h.entry]
    cases hfind : w.made.find? (·.2.covers p) with
    | none => simp
    | some e =>
      by_cases he : e.1 = id
      · have hcovers := find?_some hfind
        obtain rfl : r = e.2 := some.inj (hr.symm.trans (he ▸ (h.find_lt hfind).2))
        rw [covers_eq h.count (h.whole e (mem_of_find?_eq_some hfind))] at hcovers
        rw [hcovers, filter_some]
        simp [he]
      · rw [filter_some]
        simp [he]

theorem Held.step (h : Held w) (hclean : w.Clean c) (hstep : w.Step c w') : Held w' := by
  subst hstep
  cases c with
  | create basePhys pages kernel heapSlots => exact h.create hclean
  | destroy id => exact h.destroy hclean

/-- In every run of clean calls the registry has the regions that have been made, unchanged, and finds the newest one at
each address. -/
theorem region_found {pageCount : Nat} (hcount : pageCount < 2 ^ 64) (run : Run Step Clean (start pageCount) cs w) :
    Found w :=
  (run.invariant (fun _ _ _ hclean hstep h => h.step hclean hstep) (start_held hcount)).found

/-- A region that goes, and another one in its slot. -/
theorem region_found_two : ∃ w, Found w ∧ w.s.fromPhys 0x9abc = some 0 := by
  have run : Run Step Clean (start 64) [.create 0x4000 4 false 0, .destroy 0, .create 0x9000 2 true 0]
      ((((start 64).next (.create 0x4000 4 false 0)).next (.destroy 0)).next (.create 0x9000 2 true 0)) := by
    refine .cons (fun _ _ => by decide) rfl
      (.cons (fun p _ e he _ => ?_) rfl (.cons (fun _ _ => by decide) rfl (.nil _)))
    obtain rfl := mem_singleton.mp he
    rfl
  exact ⟨_, region_found (by decide) run, rfl⟩

/-- The region inside goes, and with it the page of the one around it. -/
theorem nested_leaves_page_unknown :
    ∃ w, Run Step (fun _ _ => True) (start 64) [.create 0x4000 4 false 0, .create 0x5000 1 false 0, .destroy 1] w ∧
    w.s.fromPhys 0x5000 = none ∧ ¬Found w := by
  refine ⟨_, .cons trivial rfl (.cons trivial rfl (.cons trivial rfl (.nil _))), rfl, fun h => ?_⟩
  cases h.newest 0x5000

end RegionWorld

end BoxOS.Memory
