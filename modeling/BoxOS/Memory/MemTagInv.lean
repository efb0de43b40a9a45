import BoxOS.Memory.MemTag
import BoxOS.Memory.TagIndexInv

/-!
# Lists, bits and counts of memory tags agree

- `find_spec`: the binary search in a sorted list of tags finds the tag or its place; so adding and removing keep the
  list sorted (`addTag_spec`, `removeTag_spec`);
- `Coherent`: the bitmaps hold what the lists of the active regions hold, and freed ids are inactive;
- `Good P t`: the state is coherent and, where `P` holds, the count of `t` is the number of regions that carry it. One
  lemma for each step of the operations says when it is kept.
-/

namespace BoxOS.Memory

open MemTagBitmapIndex List Option MemRegion

/-! ## The list of a region -/

/-- What a search of a sorted list finds: the tag between smaller and greater ones, or the gap where it belongs. -/
def FindSpec (ids : List UInt16) (t : UInt16) (res : Nat × Bool) : Prop :=
  ∃ a b, a.length = res.1 ∧ (∀ x ∈ a, x < t) ∧ (∀ x ∈ b, t < x) ∧
    ids = if res.2 then a ++ t :: b else a ++ b

theorem sorted_split {ids : List UInt16} (h : ids.Pairwise (· < ·)) {i : Nat} (hi : i < ids.length) :
    (∀ x ∈ ids.take i, x < ids[i]) ∧ (∀ x ∈ ids.drop (i + 1), ids[i] < x) := by
  have hsplit : ids = ids.take i ++ ids[i] :: ids.drop (i + 1) := by simp
  rw [hsplit] at h
  obtain ⟨-, hright, hcross⟩ := pairwise_append.mp h
  refine ⟨fun x hx => hcross x hx ids[i] mem_cons_self, fun x hx => ?_⟩
  exact (pairwise_cons.mp hright).1 x hx

theorem tagSearch_spec {ids : List UInt16} (h : ids.Pairwise (· < ·)) (t : UInt16) (fuel lo hi : Nat)
    (hlo : ∀ x ∈ ids.take lo, x < t) (hhi : ∀ x ∈ ids.drop hi, t < x) (hle : lo ≤ hi) (hlen : hi ≤ ids.length)
    (hfuel : hi - lo < fuel) : FindSpec ids t (tagSearch ids t fuel lo hi) := by
  induction fuel generalizing lo hi with
  | zero => omega
  | succ fuel ih =>
    simp only [tagSearch]
    split
    · rename_i hlt
      have hmid : (lo + hi) / 2 < ids.length := by omega
      have hget : ids.getD ((lo + hi) / 2) 0 = ids[(lo + hi) / 2] := by
        rw [getD_eq_getElem?_getD, getElem?_eq_getElem hmid, getD_some]
      obtain ⟨hbefore, hafter⟩ := sorted_split h hmid
      rw [hget]
      split
      · rename_i hless
        apply ih _ _ _ hhi (by omega) hlen (by omega)
        intro x hx
        rw [take_succ_eq_append_getElem hmid, mem_append, mem_singleton] at hx
        rcases hx with hx | rfl
        · exact UInt16.lt_trans (hbefore x hx) hless
        · exact hless
      rename_i hnless
      split
      · rename_i hgt
        apply ih _ _ hlo _ (by omega) (by omega) (by omega)
        intro x hx
        rw [drop_eq_getElem_cons hmid, mem_cons] at hx
        rcases hx with rfl | hx
        · exact hgt
        · exact UInt16.lt_trans hgt (hafter x hx)
      rename_i hngt
      have heq : ids[(lo + hi) / 2] = t := UInt16.le_antisymm (UInt16.not_lt.mp hngt) (UInt16.not_lt.mp hnless)
      refine ⟨ids.take ((lo + hi) / 2), ids.drop ((lo + hi) / 2 + 1), ?_, ?_, ?_, ?_⟩
      · rw [length_take]
        omega
      · exact heq ▸ hbefore
      · exact heq ▸ hafter
      · rw [if_pos rfl, ← heq]
        simp
    · have heq : lo = hi := by omega
      refine ⟨ids.take lo, ids.drop lo, ?_, hlo, heq ▸ hhi, ?_⟩
      · rw [length_take]
        omega
      · simp

variable {r : MemRegion}

theorem find_spec (h : r.tagIds.Pairwise (· < ·)) (t : UInt16) : FindSpec r.tagIds t (r.find t) := by
  apply tagSearch_spec h
  · simp
  · simp
  · omega
  · exact le_rfl
  · omega

theorem find_iff (h : r.tagIds.Pairwise (· < ·)) (t : UInt16) : (r.find t).2 = true ↔ t ∈ r.tagIds := by
  obtain ⟨a, b, -, ha, hb, hids⟩ := find_spec h t
  rw [hids]
  cases hf : (r.find t).2 with
  | true => simp
  | false =>
    have hna : t ∉ a := fun hm => UInt16.lt_irrefl _ (ha t hm)
    have hnb : t ∉ b := fun hm => UInt16.lt_irrefl _ (hb t hm)
    simp [hna, hnb]

theorem addTag_spec {r' : MemRegion} (h : r.tagIds.Pairwise (· < ·)) {t : UInt16} (hadd : r.addTag t = some r') :
    r'.tagIds.Pairwise (· < ·) ∧ (∀ x, x ∈ r'.tagIds ↔ x = t ∨ x ∈ r.tagIds) ∧ r'.active = r.active ∧
      r'.attaches = r.attaches := by
  unfold addTag at hadd
  split at hadd
  · rename_i hfound
    cases hadd
    have hmem := (find_iff h t).mp hfound
    refine ⟨h, fun x => ⟨.inr, ?_⟩, rfl, rfl⟩
    rintro (rfl | hx)
    · exact hmem
    · exact hx
  rename_i hnot
  split at hadd
  · cases hadd
  cases hadd
  obtain ⟨a, b, hlen, ha, hb, hids⟩ := find_spec h t
  rw [if_neg hnot] at hids
  have htake : r.tagIds.take (r.find t).1 = a := by rw [hids, ← hlen, take_left]
  have hdrop : r.tagIds.drop (r.find t).1 = b := by rw [hids, ← hlen, drop_left]
  simp only [htake, hdrop]
  rw [hids] at h
  obtain ⟨hpa, hpb, hcross⟩ := pairwise_append.mp h
  refine ⟨pairwise_append.mpr ⟨hpa, pairwise_cons.mpr ⟨hb, hpb⟩, ?_⟩, fun x => ?_, trivial, trivial⟩
  · intro x hx y hy
    rcases mem_cons.mp hy with rfl | hy
    · exact ha x hx
    · exact hcross x hx y hy
  · rw [hids]
    simp only [mem_append, mem_cons]
    tauto

theorem removeTag_spec (h : r.tagIds.Pairwise (· < ·)) (t : UInt16) :
    (r.removeTag t).tagIds.Pairwise (· < ·) ∧ (∀ x, x ∈ (r.removeTag t).tagIds ↔ x ≠ t ∧ x ∈ r.tagIds) ∧
      (r.removeTag t).active = r.active ∧ (r.removeTag t).attaches = r.attaches := by
  unfold removeTag
  split
  · rename_i hfound
    obtain ⟨a, b, hlen, ha, hb, hids⟩ := find_spec h t
    rw [if_pos hfound] at hids
    have htake : r.tagIds.take (r.find t).1 = a := by rw [hids, ← hlen, take_left]
    have hdrop : r.tagIds.drop ((r.find t).1 + 1) = b := by
      rw [hids, ← hlen, drop_append, drop_eq_nil_of_le (by omega)]
      simp
    simp only [htake, hdrop]
    rw [hids] at h
    obtain ⟨hpa, hpb, hcross⟩ := pairwise_append.mp h
    refine ⟨pairwise_append.mpr ⟨hpa, (pairwise_cons.mp hpb).2, fun x hx y hy => ?_⟩, fun x => ?_, trivial, trivial⟩
    · exact hcross x hx y (mem_cons_of_mem _ hy)
    · have hna : x = t → x ∉ a := fun he hm => UInt16.lt_irrefl t (he ▸ ha x hm)
      have hnb : x = t → x ∉ b := fun he hm => UInt16.lt_irrefl t (he ▸ hb x hm)
      rw [hids]
      simp only [mem_append, mem_cons]
      tauto
  · rename_i hnot
    have hmem : t ∉ r.tagIds := fun hm => hnot ((find_iff h t).mpr hm)
    refine ⟨h, fun x => ⟨fun hx => ⟨fun he => hmem (he ▸ hx), hx⟩, fun hx => hx.2⟩, rfl, rfl⟩

namespace MemTagState

variable {s s' : MemTagState}

/-! ## Coherence -/

/-- The tags of the active regions. -/
def carries (s : MemTagState) : RegionTags := fun t id =>
  match s.region id with
  | none => false
  | some r => decide (t ∈ r.tagIds)

/-- The region is active and has the tag in its list. -/
def HasTag (t : UInt16) (r : MemRegion) : Bool := r.active && decide (t ∈ r.tagIds)

/-- How many active regions carry the tag. -/
def carriers (s : MemTagState) (t : UInt16) : Nat := s.slots.countP (HasTag t)

/-- The bitmaps hold what the lists of the active regions hold. The free ids are those of inactive slots, each once. -/
structure Coherent (s : MemTagState) : Prop where
  sorted : ∀ id r, s.region id = some r → r.tagIds.Pairwise (· < ·)
  valid : ∀ id r, s.region id = some r → ∀ t ∈ r.tagIds, t.toNat < s.tags.length
  index : IndexInv s.index s.carries
  grown : Grown s.index
  slots : s.slots.length ≤ s.slotCap
  cap : s.slotCap ≤ 2 ^ 20
  free : s.freeStack.Nodup
  inactive : ∀ id ∈ s.freeStack, id < s.slots.length ∧ s.region id = none
  tags : s.tags.length ≤ 0xFFFF

variable {id : Nat} {r : MemRegion}

theorem region_lt (h : s.region id = some r) : id < s.slots.length := by
  unfold region at h
  obtain ⟨hget, -⟩ := filter_eq_some_iff.mp h
  exact (List.getElem?_eq_some_iff.mp hget).1

theorem region_eq (h : s.region id = some r) : s.slots[id]? = some r ∧ r.active = true :=
  filter_eq_some_iff.mp h

theorem carries_eq (h : s.region id = some r) (t : UInt16) : s.carries t id = decide (t ∈ r.tagIds) := by
  unfold carries
  rw [h]

theorem carries_none (h : s.region id = none) (t : UInt16) : s.carries t id = false := by
  unfold carries
  rw [h]

theorem region_setSlot (hid : id < s.slots.length) (r : MemRegion) (j : Nat) :
    (s.setSlot id r).region j = if j = id then (some r).filter (·.active) else s.region j := by
  unfold region setSlot
  rw [getElem?_set]
  by_cases h : j = id
  · rw [if_pos h, if_pos h.symm, if_pos hid]
  · rw [if_neg h, if_neg (Ne.symm h)]

theorem carriers_setSlot {old : MemRegion} (hold : s.slots[id]? = some old) (r : MemRegion) (t : UInt16) :
    (s.setSlot id r).carriers t + (if HasTag t old then 1 else 0) = s.carriers t + if HasTag t r then 1 else 0 := by
  obtain ⟨hid, hget⟩ := List.getElem?_eq_some_iff.mp hold
  unfold carriers setSlot
  simp only [countP_set hid, hget]
  have hpos : HasTag t old = true → 0 < s.slots.countP (HasTag t) := fun h =>
    countP_pos_iff.mpr ⟨old, hget ▸ getElem_mem hid, h⟩
  by_cases ho : HasTag t old = true
  · have := hpos ho
    simp only [ho, if_true]
    omega
  · simp only [ho, Bool.false_eq_true, if_false]
    omega

theorem carriers_le (s : MemTagState) (t : UInt16) : s.carriers t ≤ s.slots.length := countP_le_length

/-- The state is coherent and, where `P` holds, the count of `t` is the number of regions that carry it. -/
structure Good (P : Prop) (t : UInt16) (s : MemTagState) : Prop where
  coherent : s.Coherent
  count : P → s.refCount t = s.carriers t

variable {P : Prop} {t u : UInt16}

/-! ## Registering a tag -/

theorem lookupStr_lt {name : String} (h : s.lookupStr name = some u) (hs : s.Coherent) : u.toNat < s.tags.length := by
  obtain ⟨i, hi, rfl⟩ := map_eq_some_iff.mp h
  obtain ⟨hlt, -⟩ := findIdx?_eq_some_iff_getElem.mp hi
  have := hs.tags
  rw [UInt16.toNat_ofNat_of_lt' (by simp [UInt16.size]; omega)]
  exact hlt

theorem ne_invalid (h : u.toNat < s.tags.length) (hs : s.Coherent) : u ≠ invalidTagId := by
  rintro rfl
  have := hs.tags
  have : invalidTagId.toNat = 0xFFFF := rfl
  omega

theorem internStr_spec (hs : s.Coherent) (name : String) :
    (∃ es, (s.internStr name).2 = { s with tags := s.tags ++ es } ∧ ∀ e ∈ es, e.regionCount = 0 ∧ e.guard = false) ∧
      (s.internStr name).2.tags.length ≤ 0xFFFF ∧
      ∀ u, (s.internStr name).1 = some u → u.toNat < (s.internStr name).2.tags.length := by
  unfold internStr
  have htags := hs.tags
  split
  · rename_i u hu
    refine ⟨⟨[], by simp, by simp⟩, hs.tags, fun u' hu' => ?_⟩
    cases hu'
    exact lookupStr_lt hu hs
  split
  · exact ⟨⟨[], by simp, by simp⟩, hs.tags, nofun⟩
  rename_i hroom
  unfold maxTagId at hroom
  refine ⟨⟨[⟨name, 0, false⟩], rfl, by simp⟩, ?_, fun u' hu' => ?_⟩
  · simp only [length_append, length_singleton]
    omega
  · cases hu'
    simp only [length_append, length_singleton]
    rw [UInt16.toNat_ofNat_of_lt' (by simp [UInt16.size]; omega)]
    omega

theorem Good.moreTags (h : Good P t s) {es : List MemTagRegistryEntry}
    (hes : ∀ e ∈ es, e.regionCount = 0 ∧ e.guard = false) (hlen : (s.tags ++ es).length ≤ 0xFFFF) :
    Good P t { s with tags := s.tags ++ es } := by
  have hc := h.coherent
  refine ⟨⟨hc.sorted, fun id r hr u hu => ?_, hc.index, hc.grown, hc.slots, hc.cap, hc.free, hc.inactive, hlen⟩,
    fun hp => ?_⟩
  · have := hc.valid id r hr u hu
    simp only [length_append]
    omega
  · rw [show ({ s with tags := s.tags ++ es } : MemTagState).carriers t = s.carriers t from rfl, ← h.count hp]
    simp only [refCount, getElem?_append]
    split
    · rfl
    rename_i hge
    rw [getElem?_eq_none (not_lt.mp hge)]
    cases he : es[t.toNat - s.tags.length]? with
    | none => rfl
    | some e => exact (hes e (mem_of_getElem? he)).1

theorem Good.internStr (h : Good P t s) (name : String) : Good P t (s.internStr name).2 := by
  obtain ⟨⟨es, heq, hes⟩, hlen, -⟩ := internStr_spec h.coherent name
  rw [heq] at hlen ⊢
  exact h.moreTags hes hlen

theorem region_internStr (hs : s.Coherent) (name : String) (id : Nat) :
    (s.internStr name).2.region id = s.region id := by
  obtain ⟨⟨es, heq, -⟩, -, -⟩ := internStr_spec hs name
  rw [heq]
  rfl

/-! ## Taking and giving up a tag -/

/-- One region's list is replaced, its bit and its count with it. -/
structure Replaced (s : MemTagState) (id : Nat) (r r' : MemRegion) (idx : MemTagBitmapIndex) (s' : MemTagState) :
    Prop where
  region : s.region id = some r
  active : r'.active = true
  sorted : r'.tagIds.Pairwise (· < ·)
  valid : ∀ t ∈ r'.tagIds, t.toNat < s.tags.length
  index : IndexInv idx (s.setSlot id r').carries
  grown : Grown idx
  eq : ∃ es, s' = { s.setSlot id r' with tags := es, index := idx } ∧ es.length = s.tags.length

theorem Replaced.coherent {r' : MemRegion} {idx : MemTagBitmapIndex} (hs : s.Coherent)
    (h : Replaced s id r r' idx s') : s'.Coherent := by
  obtain ⟨es, rfl, hlen⟩ := h.eq
  have hid := region_lt h.region
  have hreg : ∀ j, ({ s.setSlot id r' with tags := es, index := idx } : MemTagState).region j =
      if j = id then some r' else s.region j := by
    intro j
    refine (region_setSlot hid r' j).trans ?_
    rw [filter_some, if_pos h.active]
  refine ⟨fun j q hq => ?_, fun j q hq t ht => ?_, h.index, h.grown, ?_, hs.cap, hs.free, fun j hj => ?_,
    hlen ▸ hs.tags⟩
  · rw [hreg] at hq
    split at hq
    · cases hq
      exact h.sorted
    · exact hs.sorted j q hq
  · rw [hreg] at hq
    simp only [hlen]
    split at hq
    · cases hq
      exact h.valid t ht
    · exact hs.valid j q hq t ht
  · simp only [setSlot, length_set]
    exact hs.slots
  · obtain ⟨hlt, hnone⟩ := hs.inactive j hj
    have hne : j ≠ id := by
      rintro rfl
      rw [h.region] at hnone
      cases hnone
    rw [hreg, if_neg hne]
    exact ⟨by simpa [setSlot] using hlt, hnone⟩

theorem carries_setSlot {r' : MemRegion} (hr : s.region id = some r) (ha : r'.active = true) (u : UInt16)
    (j : Nat) : (s.setSlot id r').carries u j = if j = id then decide (u ∈ r'.tagIds) else s.carries u j := by
  unfold carries
  rw [region_setSlot (region_lt hr), filter_some, if_pos ha]
  by_cases h : j = id
  · simp [h]
  · simp [h]

theorem refCount_modify (s : MemTagState) (u t : UInt16) (f : MemTagRegistryEntry → MemTagRegistryEntry) :
    ({ s with tags := s.tags.modify u.toNat f } : MemTagState).refCount t =
      if t = u then ((s.tags[u.toNat]?.map f).map (·.regionCount)).getD 0 else s.refCount t := by
  unfold refCount
  by_cases h : t = u
  · rw [if_pos h, h]
    simp
  · rw [if_neg h]
    have hne : u.toNat ≠ t.toNat := fun he => h (UInt16.toNat_inj.mp he.symm)
    simp [hne]

theorem addCounted_spec (hs : s.Coherent) {id : Nat} (hu : u.toNat < s.tags.length) (h : s.addCounted id u = some s') :
    ∃ r r' idx, Replaced s id r r' idx s' ∧ (∀ x, x ∈ r'.tagIds ↔ x = u ∨ x ∈ r.tagIds) ∧ r'.attaches = r.attaches ∧
    s' = ({ s.setSlot id r' with index := idx } : MemTagState).refInc u := by
  obtain ⟨s1, hadd, rfl⟩ := map_eq_some_iff.mp h
  unfold registryAddTag at hadd
  rw [if_neg (ne_invalid hu hs)] at hadd
  split at hadd
  · cases hadd
  rename_i r hr
  obtain ⟨r', hr', rfl⟩ := map_eq_some_iff.mp hadd
  obtain ⟨hsorted, hmem, hactive, hatt⟩ := addTag_spec (hs.sorted id r hr) hr'
  have hact : r'.active = true := hactive.trans (region_eq hr).2
  have hid : id < 2 ^ 31 := by
    have := region_lt hr
    have := hs.slots
    have := hs.cap
    omega
  obtain ⟨hok, hgrown⟩ := memTagBitmapSet_grown hs.grown u hid
  have hcarries : (s.setSlot id r').carries = s.carries.set u id := by
    funext v j
    rw [carries_setSlot hr hact, RegionTags.set]
    by_cases hj : j = id
    · rw [if_pos hj, hj, carries_eq hr]
      simp only [hmem]
      by_cases hv : v = u <;> simp [hv]
    · simp [hj]
  have hindex : IndexInv (s.index.memTagBitmapSet u id {}).2 (s.setSlot id r').carries := by
    rw [hcarries]
    rcases memTagBitmapSet_spec hs.index u id {} with ⟨-, hi, -⟩ | ⟨hfail, -⟩
    · exact hi
    · rw [hok] at hfail
      cases hfail
  refine ⟨r, r', (s.index.memTagBitmapSet u id {}).2, ⟨hr, hact, hsorted, fun v hv => ?_, hindex, hgrown, _, rfl, ?_⟩,
    hmem, hatt, rfl⟩
  · rcases (hmem v).mp hv with rfl | hv
    · exact hu
    · exact hs.valid id r hr v hv
  · simp only [bitmapSet, setSlot, length_modify]

theorem removeCounted_spec (hs : s.Coherent) {id : Nat} (h : s.removeCounted id u = some s') :
    ∃ r idx, Replaced s id r (r.removeTag u) idx s' ∧
    s' = ({ s.setSlot id (r.removeTag u) with index := idx } : MemTagState).refDec u := by
  obtain ⟨s1, hrem, rfl⟩ := map_eq_some_iff.mp h
  unfold registryRemoveTag at hrem
  split at hrem
  · cases hrem
  obtain ⟨r, hr, rfl⟩ := map_eq_some_iff.mp hrem
  obtain ⟨hsorted, hmem, hactive, -⟩ := removeTag_spec (hs.sorted id r hr) u
  have hact : (r.removeTag u).active = true := hactive.trans (region_eq hr).2
  have hcarries : (s.setSlot id (r.removeTag u)).carries = s.carries.clear u id := by
    funext v j
    rw [carries_setSlot hr hact, RegionTags.clear]
    by_cases hj : j = id
    · rw [if_pos hj, hj, carries_eq hr]
      simp only [hmem]
      by_cases hv : v = u <;> simp [hv]
    · simp [hj]
  have hindex : IndexInv (s.index.memTagBitmapClear u id) (s.setSlot id (r.removeTag u)).carries := by
    rw [hcarries]
    exact (memTagBitmapClear_spec hs.index u id).1
  refine ⟨r, s.index.memTagBitmapClear u id,
    ⟨hr, hact, hsorted, fun v hv => hs.valid id r hr v ((hmem v).mp hv).2, hindex,
      memTagBitmapClear_grown hs.grown u id, _, rfl, ?_⟩, rfl⟩
  simp only [bitmapClear, setSlot, length_modify]

theorem hasTag_active (h : r.active = true) (t : UInt16) : HasTag t r = decide (t ∈ r.tagIds) := by
  rw [HasTag, h, Bool.true_and]

/-- A tag that the region did not carry is taken and counted. -/
theorem Good.addCounted (h : Good P t s) {id : Nat} (hu : u.toNat < s.tags.length) (hadd : s.addCounted id u = some s')
    (hnew : P → u = t → s.carries t id = false) : Good P t s' := by
  obtain ⟨r, r', idx, hrep, hmem, -, heq⟩ := addCounted_spec h.coherent hu hadd
  refine ⟨hrep.coherent h.coherent, fun hp => ?_⟩
  have hcount := h.count hp
  obtain ⟨hget, hact⟩ := region_eq hrep.region
  have hcar := carriers_setSlot hget r' t
  rw [hasTag_active hact, hasTag_active hrep.active] at hcar
  have hs' : s'.carriers t = (s.setSlot id r').carriers t := by
    rw [heq]
    rfl
  have href : s'.refCount t = if t = u then
      (((s.tags[u.toNat]?.map fun e => { e with regionCount := (e.regionCount + 1) % 2 ^ 32 }).map
        (·.regionCount)).getD 0) else s.refCount t := by
    rw [heq]
    exact refCount_modify { s.setSlot id r' with index := idx } u t _
  rw [hs', href]
  by_cases htu : t = u
  · have hnot : t ∉ r.tagIds := by
      have := hnew hp htu.symm
      rw [carries_eq hrep.region] at this
      simpa using this
    have hin : t ∈ r'.tagIds := (hmem t).mpr (.inl htu)
    simp only [hnot, hin, decide_true, decide_false, Bool.false_eq_true, if_true, if_false] at hcar
    rw [if_pos htu, getElem?_eq_getElem hu]
    have hold : s.refCount t = (s.tags[u.toNat]).regionCount := by
      rw [htu, refCount, getElem?_eq_getElem hu]
      rfl
    have hle := carriers_le s t
    have := h.coherent.slots
    have := h.coherent.cap
    simp only [Option.map_some, getD_some]
    rw [← hold, Nat.mod_eq_of_lt (by omega)]
    omega
  · have hiff : (t ∈ r'.tagIds) ↔ t ∈ r.tagIds := by
      rw [hmem]
      simp [htu]
    simp only [hiff] at hcar
    rw [if_neg htu]
    omega

/-- A tag that the region carried is given up; a count is zero already where no region carries the tag. -/
theorem Good.removeCounted (h : Good P t s) {id : Nat} (hrem : s.removeCounted id u = some s')
    (hold : P → u = t → s.carries t id = true ∨ s.carriers t = 0) : Good P t s' := by
  obtain ⟨r, idx, hrep, heq⟩ := removeCounted_spec h.coherent hrem
  refine ⟨hrep.coherent h.coherent, fun hp => ?_⟩
  have hcount := h.count hp
  obtain ⟨hget, hact⟩ := region_eq hrep.region
  have hmem := (removeTag_spec (h.coherent.sorted id r hrep.region) u).2.1
  generalize r.removeTag u = r' at hrep heq hmem
  have hcar := carriers_setSlot hget r' t
  rw [hasTag_active hact, hasTag_active hrep.active] at hcar
  have hs' : s'.carriers t = (s.setSlot id r').carriers t := by
    rw [heq]
    rfl
  have href : s'.refCount t = if t = u then
      (((s.tags[u.toNat]?.map fun e => { e with regionCount := e.regionCount - 1 }).map
        (·.regionCount)).getD 0) else s.refCount t := by
    rw [heq]
    exact refCount_modify { s.setSlot id r' with index := idx } u t _
  rw [hs', href]
  by_cases htu : t = u
  · have hnot : t ∉ r'.tagIds := fun hin => ((hmem t).mp hin).1 htu
    have hsub : (((s.tags[u.toNat]?.map fun e => { e with regionCount := e.regionCount - 1 }).map
        (·.regionCount)).getD 0) = s.refCount t - 1 := by
      rw [htu, refCount]
      cases s.tags[u.toNat]? <;> rfl
    rw [if_pos htu, hsub, hcount]
    simp only [hnot, decide_false, Bool.false_eq_true, if_false] at hcar
    rcases hold hp htu.symm with hyes | hzero
    · rw [carries_eq hrep.region] at hyes
      simp only [hyes, if_true] at hcar
      omega
    · omega
  · have hiff : (t ∈ r'.tagIds) ↔ t ∈ r.tagIds := by
      rw [hmem]
      simp [htu]
    simp only [hiff] at hcar
    rw [if_neg htu]
    omega

theorem region_addCounted (hs : s.Coherent) {id : Nat} (hu : u.toNat < s.tags.length)
    (h : s.addCounted id u = some s') : ∃ r r', s.region id = some r ∧ (∀ x, x ∈ r'.tagIds ↔ x = u ∨ x ∈ r.tagIds) ∧
    ∀ j, s'.region j = if j = id then some r' else s.region j := by
  obtain ⟨r, r', idx, hrep, hmem, -, heq⟩ := addCounted_spec hs hu h
  refine ⟨r, r', hrep.region, hmem, fun j => ?_⟩
  rw [heq]
  refine (region_setSlot (region_lt hrep.region) r' j).trans ?_
  rw [filter_some, if_pos hrep.active]

theorem region_removeCounted (hs : s.Coherent) {id : Nat} (h : s.removeCounted id u = some s') :
    ∃ r, s.region id = some r ∧ ∀ j, s'.region j = if j = id then some (r.removeTag u) else s.region j := by
  obtain ⟨r, idx, hrep, heq⟩ := removeCounted_spec hs h
  refine ⟨r, hrep.region, fun j => ?_⟩
  rw [heq]
  refine (region_setSlot (region_lt hrep.region) _ j).trans ?_
  rw [filter_some, if_pos hrep.active]

/-! ## Slots -/

theorem Good.setEmpty (h : Good P t s) {id : Nat} {old new : MemRegion} (hold : s.slots[id]? = some old)
    (hno : ∀ u, HasTag u old = false) (hnew : new.tagIds = []) {free : List Nat} {pages : Nat → Option Nat}
    (hnodup : free.Nodup) (hfree : ∀ j ∈ free, j < s.slots.length ∧ (s.setSlot id new).region j = none) :
    Good P t { s.setSlot id new with freeStack := free, idByPage := pages } := by
  have hid : id < s.slots.length := (List.getElem?_eq_some_iff.mp hold).1
  have hc := h.coherent
  have hreg := region_setSlot hid new
  have hnone : ∀ u, HasTag u new = false := fun u => by simp [HasTag, hnew]
  have hcarries : (s.setSlot id new).carries = s.carries := by
    funext u j
    unfold carries
    rw [hreg]
    by_cases hj : j = id
    · rw [if_pos hj]
      have hold' : (match s.region j with | none => false | some r => decide (u ∈ r.tagIds)) = false := by
        unfold region
        rw [hj, hold]
        cases ha : old.active with
        | true =>
          have := hno u
          simp only [HasTag, ha, Bool.true_and] at this
          rw [filter_some, if_pos ha]
          exact this
        | false => rw [filter_some, if_neg (by simp [ha])]
      rw [hold']
      cases hb : new.active with
      | true =>
        rw [filter_some, if_pos hb]
        simp [hnew]
      | false => rw [filter_some, if_neg (by simp [hb])]
    · rw [if_neg hj]
  have hsub : ∀ j r, (s.setSlot id new).region j = some r → r.tagIds = [] ∨ s.region j = some r := by
    intro j r hr
    rw [hreg] at hr
    split at hr
    · obtain ⟨he, -⟩ := filter_eq_some_iff.mp hr
      cases he
      exact .inl hnew
    · exact .inr hr
  refine ⟨⟨fun j r hr => ?_, fun j r hr u hu => ?_, ?_, hc.grown, ?_, hc.cap, hnodup, fun j hj => ?_, hc.tags⟩,
    fun hp => ?_⟩
  · rcases hsub j r hr with he | hr
    · simp [he]
    · exact hc.sorted j r hr
  · rcases hsub j r hr with he | hr
    · rw [he] at hu
      cases hu
    · exact hc.valid j r hr u hu
  · have hindex := hc.index
    rw [← hcarries] at hindex
    exact hindex
  · simpa [setSlot] using hc.slots
  · obtain ⟨hlt, hreg⟩ := hfree j hj
    exact ⟨by simpa [setSlot] using hlt, hreg⟩
  · have hcar := carriers_setSlot hold new t
    simp only [hno, hnone, Bool.false_eq_true, if_false, Nat.add_zero] at hcar
    exact (h.count hp).trans hcar.symm

theorem region_append_cleared (s : MemTagState) (cap j : Nat) :
    ({ s with slots := s.slots ++ [cleared], slotCap := cap } : MemTagState).region j = s.region j := by
  unfold region
  simp only [getElem?_append]
  split
  · rfl
  rename_i hge
  rw [getElem?_eq_none (not_lt.mp hge)]
  cases hj : [cleared][j - s.slots.length]? with
  | none => rfl
  | some r =>
    have : r = cleared := by simpa using mem_of_getElem? hj
    rw [this]
    rfl

/-- A slot is taken: it is inactive, and not free any more. -/
theorem takeSlot_spec (h : Good P t s) {heapSlots id : Nat} (htake : s.takeSlot heapSlots = some (id, s')) :
    Good P t s' ∧ s'.region id = none ∧ id < s'.slots.length ∧ id ∉ s'.freeStack ∧ s'.tags = s.tags := by
  have hc := h.coherent
  unfold takeSlot at htake
  split at htake
  · rename_i top rest hfree
    cases htake
    obtain ⟨hlt, hnone⟩ := hc.inactive id (hfree ▸ mem_cons_self)
    have hnodup := hc.free
    rw [hfree] at hnodup
    obtain ⟨hnot, hrest⟩ := nodup_cons.mp hnodup
    refine ⟨⟨⟨hc.sorted, hc.valid, hc.index, hc.grown, hc.slots, hc.cap, hrest, fun j hj => ?_, hc.tags⟩, h.count⟩,
      hnone, hlt, hnot, rfl⟩
    exact hc.inactive j (hfree ▸ mem_cons_of_mem _ hj)
  · rename_i hfree
    split at htake
    · cases htake
    rename_i cap hcap
    cases htake
    have hreg := region_append_cleared s cap
    have hcarries : ({ s with slots := s.slots ++ [cleared], slotCap := cap } : MemTagState).carries =
        s.carries := by
      funext u j
      unfold carries
      rw [hreg]
    have hcapOk : s.slots.length < cap ∧ cap ≤ 2 ^ 20 := by
      have hceil : slotCeiling heapSlots ≤ 2 ^ 20 := min_le_right _ _
      unfold ensureSlotCapacity at hcap
      split at hcap
      · cases hcap
        exact ⟨by assumption, hc.cap⟩
      split at hcap
      · cases hcap
      · simp only [some.injEq] at hcap
        split at hcap <;> split at hcap <;> omega
    have hnone : s.region s.slots.length = none := by
      unfold region
      rw [getElem?_eq_none le_rfl]
      rfl
    refine ⟨⟨⟨fun j r hr => hc.sorted j r (hreg j ▸ hr), fun j r hr => hc.valid j r (hreg j ▸ hr), hcarries ▸ hc.index,
      hc.grown, ?_, hcapOk.2, ?_, fun j hj => ?_, hc.tags⟩, fun hp => ?_⟩, (hreg _).trans hnone, ?_, ?_, rfl⟩
    · simp only [length_append, length_singleton]
      exact hcapOk.1
    · simp [hfree]
    · simp [hfree] at hj
    · have hcount := h.count hp
      simp only [carriers, countP_append] at hcount ⊢
      have hzero : List.countP (HasTag t) [cleared] = 0 := by simp [HasTag, cleared]
      rw [hzero]
      exact hcount
    · simp
    · simp [hfree]

/-- A new region is active and has no tags. -/
theorem registryCreate_spec (h : Good P t s) {basePhys pages : Nat} {kernel : Bool} {heapSlots id : Nat}
    (hcreate : s.registryCreate basePhys pages kernel heapSlots = some (id, s')) :
    Good P t s' ∧ s'.region id = some ⟨true, kernel, basePhys, pages, [], 0, []⟩ ∧ s'.tags = s.tags := by
  unfold registryCreate at hcreate
  split at hcreate
  · cases hcreate
  split at hcreate
  · cases hcreate
  rename_i id' s1 htake
  cases hcreate
  obtain ⟨hg, hnone, hlt, hnot, htags⟩ := takeSlot_spec h htake
  obtain ⟨old, hold⟩ : ∃ old, s1.slots[id]? = some old := ⟨_, getElem?_eq_getElem hlt⟩
  have hinactive : old.active = false := by
    unfold region at hnone
    rw [hold, filter_some] at hnone
    by_contra hact
    rw [if_pos (by simpa using hact)] at hnone
    cases hnone
  have hfree : ∀ j ∈ s1.freeStack, j < s1.slots.length ∧
      (s1.setSlot id ⟨true, kernel, basePhys, pages, [], 0, []⟩).region j = none := by
    intro j hj
    obtain ⟨hj1, hj2⟩ := hg.coherent.inactive j hj
    refine ⟨hj1, ?_⟩
    rw [region_setSlot hlt, if_neg fun he : j = id => hnot (he ▸ hj)]
    exact hj2
  have hset : ∀ pages', Good P t { s1.setSlot id ⟨true, kernel, basePhys, pages, [], 0, []⟩ with
      freeStack := s1.freeStack, idByPage := pages' } := fun pages' =>
    hg.setEmpty hold (fun u => by simp [HasTag, hinactive]) rfl hg.coherent.free hfree
  have hregion : (s1.setSlot id ⟨true, kernel, basePhys, pages, [], 0, []⟩).region id =
      some ⟨true, kernel, basePhys, pages, [], 0, []⟩ := by
    rw [region_setSlot hlt, if_pos rfl]
    rfl
  split
  · exact ⟨hset _, hregion, htags⟩
  · exact ⟨hset _, hregion, htags⟩

theorem Good.registryDestroy (h : Good P t s) {id : Nat} (hempty : ∀ r, s.region id = some r → r.tagIds = []) :
    Good P t (s.registryDestroy id) := by
  unfold MemTagState.registryDestroy
  split
  · exact h
  rename_i r hr
  obtain ⟨hget, hact⟩ := region_eq hr
  have hlt := region_lt hr
  have hno : ∀ u, HasTag u r = false := fun u => by simp [HasTag, hempty r hr]
  have hnot : id ∉ s.freeStack := by
    intro hm
    have := (h.coherent.inactive id hm).2
    rw [hr] at this
    cases this
  have hnone : ∀ j, j = id ∨ s.region j = none → (s.setSlot id .cleared).region j = none := by
    intro j hj
    rw [region_setSlot hlt]
    split
    · rfl
    · rename_i hne
      exact hj.resolve_left hne
  have hkeep : ∀ pages', Good P t { s.setSlot id .cleared with freeStack := s.freeStack, idByPage := pages' } :=
    fun pages' => h.setEmpty hget hno rfl h.coherent.free fun j hj =>
      ⟨(h.coherent.inactive j hj).1, hnone j (.inr (h.coherent.inactive j hj).2)⟩
  have hpush : ∀ pages',
      Good P t { s.setSlot id .cleared with freeStack := id :: s.freeStack, idByPage := pages' } := by
    intro pages'
    apply h.setEmpty hget hno rfl (nodup_cons.mpr ⟨hnot, h.coherent.free⟩)
    intro j hj
    rcases mem_cons.mp hj with rfl | hj
    · exact ⟨hlt, hnone j (.inl rfl)⟩
    · exact ⟨(h.coherent.inactive j hj).1, hnone j (.inr (h.coherent.inactive j hj).2)⟩
  simp only
  split <;> split
  · exact hpush _
  · exact hkeep _
  · exact hpush _
  · exact hkeep _

end MemTagState

end BoxOS.Memory
