import BoxOS.Memory.GuardSweep
import BoxOS.Memory.MemTagRun

/-!
# The registries between sweeps

- `Ready` is kept by every call on the registries: making and destroying regions, taking and giving up tags, marking
  guards and changing attachments, each under its own condition;
- which guard tags a mask must hold after such a call (`holds_added`, `holds_removed`, `holds_marked`,
  `holds_unmarked`), or after a change of the mask (`holds_maskSet`, `holds_maskClear`).
-/

namespace BoxOS.Memory

open MemTagBitmapIndex List Option

namespace MemTagState

variable {s s' : MemTagState} {t u : UInt16} {id : Nat}

/-- Something holds of every active region. -/
def EachRegion (s : MemTagState) (P : Nat → MemRegion → Prop) : Prop := ∀ id, ∀ r ∈ s.region id, P id r

instance (s : MemTagState) (P : Nat → MemRegion → Prop) [∀ id, DecidablePred (P id)] : Decidable (s.EachRegion P) :=
  decidable_of_iff (∀ id < s.slots.length, ∀ r ∈ s.region id, P id r)
    ⟨fun h id r hr => h id (region_lt hr) r hr, fun h id _ => h id⟩

/-- A check of some tags goes through these and not through all tags there are. -/
scoped instance (priority := high) decidableListed (l : List UInt16) (P : UInt16 → Prop) [DecidablePred P] :
    Decidable (∀ t ∈ l, P t) := List.decidableBAll P l

@[inherit_doc decidableListed]
scoped instance (priority := high) decidableFound (o : Option UInt16) (P : UInt16 → Prop) [DecidablePred P] :
    Decidable (∀ t ∈ o, P t) := Option.decidableForallMem o

instance (s : MemTagState) (mask : TagMask) (r : MemRegion) : Decidable (s.HoldsGuards mask r) :=
  inferInstanceAs (Decidable (∀ g ∈ _, _))

instance (r : MemRegion) (g : UInt16) : Decidable (Seen r g) := inferInstanceAs (Decidable (_ < _))

/-! ## Flags -/

theorem isGuard_congr (h : s'.tags.map (·.guard) = s.tags.map (·.guard)) (g : UInt16) : s'.isGuard g = s.isGuard g := by
  unfold isGuard
  rw [← getElem?_map, ← getElem?_map, h]

theorem guards_modify (es : List MemTagRegistryEntry) (i : Nat) (f : MemTagRegistryEntry → MemTagRegistryEntry)
    (hf : ∀ e, (f e).guard = e.guard) : (es.modify i f).map (·.guard) = es.map (·.guard) := by
  apply ext_getElem?
  intro j
  simp only [getElem?_map, getElem?_modify]
  cases es[j]? with
  | none => rfl
  | some e =>
    split
    · exact congrArg some (hf e)
    · rfl

theorem guards_refInc (s : MemTagState) (u : UInt16) : (s.refInc u).tags.map (·.guard) = s.tags.map (·.guard) :=
  guards_modify _ _ _ fun _ => rfl

theorem guards_refDec (s : MemTagState) (u : UInt16) : (s.refDec u).tags.map (·.guard) = s.tags.map (·.guard) :=
  guards_modify _ _ _ fun _ => rfl

theorem isGuard_internStr (hs : s.Coherent) (name : String) (g : UInt16) :
    (s.internStr name).2.isGuard g = s.isGuard g := by
  obtain ⟨⟨es, heq, hes⟩, -, -⟩ := internStr_spec hs name
  rw [heq]
  unfold isGuard
  simp only [getElem?_append]
  split
  · rfl
  rename_i hge
  rw [getElem?_eq_none (not_lt.mp hge)]
  cases he : es[g.toNat - s.tags.length]? with
  | none => rfl
  | some e => exact (hes e (mem_of_getElem? he)).2

theorem isGuard_markGuard (ht : t.toNat < s.tags.length) (guard : Bool) (g : UInt16) :
    (s.markGuard t guard).isGuard g = if g = t then guard else s.isGuard g := by
  unfold isGuard markGuard
  simp only [getElem?_modify]
  by_cases h : g = t
  · rw [if_pos h, h, getElem?_eq_getElem ht]
    simp
  · rw [if_neg h]
    have hne : t.toNat ≠ g.toNat := fun he => h (UInt16.toNat_inj.mp he.symm)
    simp [hne]

theorem Coherent.setTags (h : s.Coherent) {es : List MemTagRegistryEntry} (hlen : es.length = s.tags.length) :
    ({ s with tags := es } : MemTagState).Coherent :=
  ⟨h.sorted, fun id r hr t ht => hlen.symm ▸ h.valid id r hr t ht, h.index, h.grown, h.slots, h.cap, h.free, h.inactive,
    hlen.symm ▸ h.tags⟩

theorem Coherent.good (h : s.Coherent) (t : UInt16) : Good False t s := ⟨h, fun hf => hf.elim⟩

theorem Ready.internStr (h : Ready s) (name : String) : Ready (s.internStr name).2 := by
  have hc := ((h.coherent.good 0).internStr name).coherent
  have hguard := isGuard_internStr h.coherent name
  obtain ⟨⟨es, heq, -⟩, -, -⟩ := internStr_spec h.coherent name
  rw [heq] at hc hguard ⊢
  exact ⟨hc, h.cache, h.limits, h.keys, fun id r hr g hg hgd => h.seen id r hr g hg ((hguard g).symm.trans hgd)⟩

theorem Ready.markGuard (h : Ready s) (ht : t.toNat < s.tags.length) {guard : Bool}
    (hseen : guard = true → ∀ id r, s.region id = some r → t ∈ r.tagIds → Seen r t) : Ready (s.markGuard t guard) := by
  refine ⟨h.coherent.setTags (length_modify ..), h.cache, h.limits, h.keys, fun id r hr g hg hgd => ?_⟩
  rw [isGuard_markGuard ht] at hgd
  split at hgd
  · rename_i hgt
    subst hgt
    exact hseen hgd id r hr hg
  · exact h.seen id r hr g hg hgd

/-! ## Taking and giving up a tag -/

theorem sorted_nodup {l : List UInt16} (h : l.Pairwise (· < ·)) : l.Nodup :=
  h.imp fun {a b} (hlt : a < b) (he : a = b) => UInt16.lt_irrefl b (he ▸ hlt)

theorem addCounted_index (h : s.addCounted id u = some s') : s'.index = (s.index.memTagBitmapSet u id {}).2 := by
  obtain ⟨s1, hadd, rfl⟩ := map_eq_some_iff.mp h
  unfold registryAddTag at hadd
  split at hadd
  · cases hadd
  split at hadd
  · cases hadd
  · obtain ⟨r, -, rfl⟩ := map_eq_some_iff.mp hadd
    rfl

theorem removeCounted_index (h : s.removeCounted id u = some s') : s'.index = s.index.memTagBitmapClear u id := by
  obtain ⟨s1, hrem, rfl⟩ := map_eq_some_iff.mp h
  unfold registryRemoveTag at hrem
  split at hrem
  · cases hrem
  · obtain ⟨r, -, rfl⟩ := map_eq_some_iff.mp hrem
    rfl

/-- What a region looks like after a tag was added: the tag is there, and the attachments are the same. -/
structure TagAdded (s : MemTagState) (id : Nat) (u : UInt16) (s' : MemTagState) (r r' : MemRegion) : Prop where
  before : s.region id = some r
  after : ∀ j, s'.region j = if j = id then some r' else s.region j
  perm : r'.tagIds.Perm (if u ∈ r.tagIds then r.tagIds else u :: r.tagIds)
  attaches : r'.attaches = r.attaches
  guards : ∀ g, s'.isGuard g = s.isGuard g

theorem addCounted_added (hs : s.Coherent) (hu : u.toNat < s.tags.length) (h : s.addCounted id u = some s') :
    s'.Coherent ∧ ∃ r r', TagAdded s id u s' r r' := by
  obtain ⟨r, r', idx, hrep, hmem, hatt, heq⟩ := addCounted_spec hs hu h
  have hnodup := sorted_nodup (hs.sorted id r hrep.region)
  refine ⟨hrep.coherent hs, r, r', hrep.region, fun j => ?_, ?_, hatt, fun g => ?_⟩
  · rw [heq]
    refine (region_setSlot (region_lt hrep.region) r' j).trans ?_
    rw [filter_some, if_pos hrep.active]
  · split
    · rename_i hin
      refine (perm_ext_iff_of_nodup (sorted_nodup hrep.sorted) hnodup).mpr fun x => ?_
      rw [hmem]
      exact ⟨fun hx => hx.elim (fun he => he ▸ hin) fun hx => hx, .inr⟩
    · rename_i hnot
      refine (perm_ext_iff_of_nodup (sorted_nodup hrep.sorted) (nodup_cons.mpr ⟨hnot, hnodup⟩)).mpr fun x => ?_
      rw [hmem, mem_cons]
  · rw [heq]
    exact isGuard_congr (guards_refInc _ u) g

/-- A tag is taken; guard tags must stay among the tags that are looked at. -/
theorem Ready.addCounted (h : Ready s) (hu : u.toNat < s.tags.length) (hgen : s.index.generation + 1 < 2 ^ 64)
    (hadd : s.addCounted id u = some s') (hseen : ∀ r, s.region id = some r → u ∉ r.tagIds → ∀ g ∈ u :: r.tagIds,
    s.isGuard g = true → (u :: r.tagIds).countP (fun x => decide (x < g)) < guardsPerRegion) : Ready s' := by
  obtain ⟨hc, r, r', hadded⟩ := addCounted_added h.coherent hu hadd
  have hindex := addCounted_index hadd
  have hid : id < 2 ^ 31 := by
    have := region_lt hadded.before
    have := h.coherent.slots
    have := h.coherent.cap
    omega
  have hbump : Bumped s.index s'.index := by
    rw [hindex]
    rcases memTagBitmapSet_spec h.coherent.index u id {} with ⟨-, -, hb⟩ | ⟨hfail, -⟩
    · exact hb
    · rw [(memTagBitmapSet_grown h.coherent.grown u hid).1] at hfail
      cases hfail
  refine ⟨hc, h.cache.bumped hbump hgen, hbump.cache ▸ h.limits, fun j q hq => ?_, fun j q hq g hg hgd => ?_⟩
  · rw [hadded.after] at hq
    split at hq
    · cases hq
      exact hadded.attaches ▸ h.keys id r hadded.before
    · exact h.keys j q hq
  · rw [hadded.after] at hq
    rw [hadded.guards] at hgd
    split at hq
    · cases hq
      have hperm := hadded.perm
      unfold Seen
      split at hperm
      · rw [hperm.countP_eq]
        exact h.seen id r hadded.before g (hperm.mem_iff.mp hg) hgd
      · rename_i hnot
        rw [hperm.countP_eq]
        exact hseen r hadded.before hnot g (hperm.mem_iff.mp hg) hgd
    · exact h.seen j q hq g hg hgd

/-- What a region looks like after a tag was removed. -/
structure TagRemoved (s : MemTagState) (id : Nat) (u : UInt16) (s' : MemTagState) (r : MemRegion) : Prop where
  before : s.region id = some r
  after : ∀ j, s'.region j = if j = id then some (r.removeTag u) else s.region j
  mem : ∀ x, x ∈ (r.removeTag u).tagIds ↔ x ≠ u ∧ x ∈ r.tagIds
  attaches : (r.removeTag u).attaches = r.attaches
  guards : ∀ g, s'.isGuard g = s.isGuard g

theorem removeTag_sublist (r : MemRegion) (u : UInt16) : (r.removeTag u).tagIds.Sublist r.tagIds := by
  unfold MemRegion.removeTag
  split
  · have hsub := (Sublist.refl (r.tagIds.take (r.find u).1)).append
      (drop_sublist_drop_left r.tagIds (Nat.le_succ (r.find u).1))
    rwa [take_append_drop] at hsub
  · exact .refl _

theorem removeCounted_removed (hs : s.Coherent) (h : s.removeCounted id u = some s') :
    s'.Coherent ∧ ∃ r, TagRemoved s id u s' r := by
  obtain ⟨r, idx, hrep, heq⟩ := removeCounted_spec hs h
  obtain ⟨-, hmem, -, hatt⟩ := removeTag_spec (hs.sorted id r hrep.region) u
  refine ⟨hrep.coherent hs, r, hrep.region, fun j => ?_, hmem, hatt, fun g => ?_⟩
  · rw [heq]
    refine (region_setSlot (region_lt hrep.region) _ j).trans ?_
    rw [filter_some, if_pos hrep.active]
  · rw [heq]
    exact isGuard_congr (guards_refDec _ u) g

theorem TagRemoved.carries {r : MemRegion} (h : TagRemoved s id u s' r) : s'.carries = s.carries.clear u id := by
  funext v j
  rw [RegionTags.clear]
  by_cases hj : j = id
  · have hafter := h.after j
    rw [if_pos hj] at hafter
    rw [carries_eq hafter, hj, carries_eq h.before]
    simp only [h.mem]
    by_cases hv : v = u <;> simp [hv]
  have hafter := h.after j
  rw [if_neg hj] at hafter
  unfold MemTagState.carries
  rw [hafter]
  simp [hj]

/-- A tag is given up. -/
theorem Ready.removeCounted (h : Ready s) (hgen : s.index.generation + 1 < 2 ^ 64)
    (hrem : s.removeCounted id u = some s') : Ready s' ∧ s'.index.generation ≤ s.index.generation + 1 := by
  obtain ⟨hc, r, hremoved⟩ := removeCounted_removed h.coherent hrem
  have hindex := removeCounted_index hrem
  have hcache : CacheInv s'.index s'.carries ∧ s'.index.cache = s.index.cache ∧
      s'.index.generation ≤ s.index.generation + 1 := by
    rw [hindex, hremoved.carries]
    rcases (memTagBitmapClear_spec h.coherent.index u id).2 with hb | ⟨he, hclear⟩
    · refine ⟨h.cache.bumped hb hgen, hb.cache, ?_⟩
      rw [hb.generation, Nat.mod_eq_of_lt hgen]
    · rw [he, hclear]
      exact ⟨h.cache, rfl, Nat.le_succ _⟩
  refine ⟨⟨hc, hcache.1, hcache.2.1 ▸ h.limits, fun j q hq => ?_, fun j q hq g hg hgd => ?_⟩, hcache.2.2⟩
  · rw [hremoved.after] at hq
    split at hq
    · cases hq
      exact hremoved.attaches ▸ h.keys id r hremoved.before
    · exact h.keys j q hq
  · rw [hremoved.after] at hq
    rw [hremoved.guards] at hgd
    split at hq
    · cases hq
      have hsub := removeTag_sublist r u
      exact hsub.countP_le.trans_lt (h.seen id r hremoved.before g (hsub.subset hg) hgd)
    · exact h.seen j q hq g hg hgd

/-! ## Making and destroying a region -/

theorem takeSlot_frame {heapSlots : Nat} (h : s.takeSlot heapSlots = some (id, s')) :
    s'.index = s.index ∧ ∀ j, s'.region j = s.region j := by
  unfold takeSlot at h
  split at h
  · cases h
    exact ⟨rfl, fun _ => rfl⟩
  split at h
  · cases h
  · cases h
    exact ⟨rfl, region_append_cleared s _⟩

theorem registryCreate_frame (h : s.Coherent) {basePhys pages : Nat} {kernel : Bool} {heapSlots : Nat}
    (hcreate : s.registryCreate basePhys pages kernel heapSlots = some (id, s')) :
    s'.index = s.index ∧ s.region id = none ∧ ∀ j, j ≠ id → s'.region j = s.region j := by
  unfold registryCreate at hcreate
  split at hcreate
  · cases hcreate
  split at hcreate
  · cases hcreate
  rename_i id' s1 htake
  cases hcreate
  obtain ⟨hindex, hregion⟩ := takeSlot_frame htake
  obtain ⟨-, hnone, hlt, -⟩ := takeSlot_spec (h.good 0) htake
  refine ⟨?_, (hregion id).symm.trans hnone, fun j hj => ?_⟩
  · split <;> exact hindex
  · have hset := region_setSlot hlt ⟨true, kernel, basePhys, pages, [], 0, []⟩ j
    rw [if_neg hj, hregion] at hset
    split <;> exact hset

/-- Only a region without attachments is new, and no flag has changed. -/
structure OnlyNew (s s' : MemTagState) : Prop where
  regions : ∀ j r, s'.region j = some r → s.region j = some r ∨ r.attaches = []
  guards : ∀ g, s'.isGuard g = s.isGuard g

theorem Ready.registryCreate (h : Ready s) {basePhys pages : Nat} {kernel : Bool} {heapSlots : Nat}
    (hcreate : s.registryCreate basePhys pages kernel heapSlots = some (id, s')) : Ready s' ∧ OnlyNew s s' := by
  obtain ⟨hg, hfresh, htags⟩ := registryCreate_spec (h.coherent.good 0) hcreate
  obtain ⟨hindex, hnone, hframe⟩ := registryCreate_frame h.coherent hcreate
  have hguards : ∀ g, s'.isGuard g = s.isGuard g := isGuard_congr (by rw [htags])
  have hregions : ∀ j r, s'.region j = some r → s.region j = some r ∨ r.attaches = [] ∧ r.tagIds = [] := by
    intro j r hr
    by_cases hj : j = id
    · rw [hj, hfresh] at hr
      cases hr
      exact .inr ⟨rfl, rfl⟩
    · exact .inl ((hframe j hj).symm.trans hr)
  have hcarries : s'.carries = s.carries := by
    funext v j
    by_cases hj : j = id
    · rw [hj, carries_eq hfresh, carries_none hnone]
      simp
    · unfold MemTagState.carries
      rw [hframe j hj]
  refine ⟨⟨hg.coherent, ?_, hindex ▸ h.limits, fun j r hr => ?_, fun j r hr g hgm hgd => ?_⟩,
    fun j r hr => (hregions j r hr).imp_right And.left, hguards⟩
  · rw [hindex, hcarries]
    exact h.cache
  · rcases hregions j r hr with hr | ⟨hatt, -⟩
    · exact h.keys j r hr
    · simp [hatt]
  · rcases hregions j r hr with hr | ⟨-, hids⟩
    · exact h.seen j r hr g hgm ((hguards g).symm.trans hgd)
    · rw [hids] at hgm
      cases hgm

theorem Ready.memRegionCreate (h : Ready s) (physDomain : Nat → Nat) (basePhys pages : Nat) (kernel : Bool)
    (heapSlots : Nat) (hgen : s.index.generation + 1 < 2 ^ 64) :
    Ready (MemTagState.memRegionCreate physDomain s basePhys pages kernel heapSlots).2 ∧
    OnlyNew s (MemTagState.memRegionCreate physDomain s basePhys pages kernel heapSlots).2 := by
  unfold MemTagState.memRegionCreate
  split
  · exact ⟨h, fun j r hr => .inl hr, fun _ => rfl⟩
  rename_i id s1 hc
  obtain ⟨h1, hnew⟩ := h.registryCreate hc
  obtain ⟨-, hfresh, -⟩ := registryCreate_spec (h.coherent.good 0) hc
  have hindex := (registryCreate_frame h.coherent hc).1
  unfold applyDerivedTags
  split
  · exact ⟨h1, hnew⟩
  split
  · exact ⟨h1, hnew⟩
  have hi := h1.internStr (domainName (physDomain basePhys))
  have hregion := region_internStr h1.coherent (domainName (physDomain basePhys))
  have hguard := isGuard_internStr h1.coherent (domainName (physDomain basePhys))
  have hlt := (internStr_spec h1.coherent (domainName (physDomain basePhys))).2.2
  have hidx : (s1.internStr (domainName (physDomain basePhys))).2.index = s1.index := by
    obtain ⟨⟨es, heq, -⟩, -⟩ := internStr_spec h1.coherent (domainName (physDomain basePhys))
    rw [heq]
  split
  · rename_i s2 he
    rw [he] at hi hregion hguard
    exact ⟨hi, fun j r hr => hnew.regions j r ((hregion j).symm.trans hr),
      fun g => (hguard g).trans (hnew.guards g)⟩
  rename_i u s2 he
  rw [he] at hi hregion hguard hlt hidx
  have hnew2 : OnlyNew s s2 := ⟨fun j r hr => hnew.regions j r ((hregion j).symm.trans hr),
    fun g => (hguard g).trans (hnew.guards g)⟩
  cases hadd : s2.addCounted id u with
  | none => exact ⟨hi, hnew2⟩
  | some s3 =>
    have hfresh2 := (hregion id).trans hfresh
    obtain ⟨-, r, r', hadded⟩ := addCounted_added hi.coherent (hlt u rfl) hadd
    have hbefore := hadded.before
    rw [hfresh2] at hbefore
    cases hbefore
    refine ⟨hi.addCounted (hlt u rfl) ?_ hadd fun q hq _ g hgm _ => ?_, fun j q hq => ?_,
      fun g => (hadded.guards g).trans (hnew2.guards g)⟩
    · rw [hidx, hindex]
      exact hgen
    · rw [hfresh2] at hq
      cases hq
      obtain rfl := mem_singleton.mp hgm
      simp [guardsPerRegion]
    · simp only [getD_some] at hq
      rw [hadded.after] at hq
      split at hq
      · cases hq
        exact .inr hadded.attaches
      · exact hnew2.regions j q hq

/-- The other regions are the same, and no flag has changed. -/
structure OthersSame (id : Nat) (s s' : MemTagState) : Prop where
  regions : ∀ j, j ≠ id → s'.region j = s.region j
  guards : ∀ g, s'.isGuard g = s.isGuard g

theorem Ready.destroyLoop (h : Ready s) (id fuel : Nat) (hgen : s.index.generation + fuel < 2 ^ 64) :
    Ready (MemTagState.destroyLoop id fuel s) ∧ OthersSame id s (MemTagState.destroyLoop id fuel s) := by
  induction fuel generalizing s with
  | zero => exact ⟨h, fun j hj => rfl, fun g => rfl⟩
  | succ fuel ih =>
    unfold MemTagState.destroyLoop
    split
    · exact ⟨h, fun j hj => rfl, fun g => rfl⟩
    split
    · exact ⟨h, fun j hj => rfl, fun g => rfl⟩
    rename_i s1 hrem
    obtain ⟨h1, hgen1⟩ := h.removeCounted (by omega) hrem
    obtain ⟨-, r, hremoved⟩ := removeCounted_removed h.coherent hrem
    obtain ⟨h2, hothers⟩ := ih h1 (by omega)
    refine ⟨h2, fun j hj => ?_, fun g => (hothers.guards g).trans (hremoved.guards g)⟩
    rw [hothers.regions j hj, hremoved.after, if_neg hj]

theorem region_registryDestroy (s : MemTagState) (id j : Nat) :
    (s.registryDestroy id).region j = if j = id then none else s.region j := by
  unfold registryDestroy
  cases hr : s.region id with
  | none =>
    by_cases hj : j = id
    · rw [if_pos hj, hj]
      exact hr
    · rw [if_neg hj]
  | some r =>
    have hset : (s.setSlot id .cleared).region j = if j = id then none else s.region j :=
      region_setSlot (region_lt hr) .cleared j
    simp only
    split <;> split <;> exact hset

theorem registryDestroy_fields (s : MemTagState) (id : Nat) :
    (s.registryDestroy id).index = s.index ∧ (s.registryDestroy id).tags = s.tags := by
  unfold registryDestroy
  split
  · exact ⟨rfl, rfl⟩
  · simp only
    split <;> split <;> exact ⟨rfl, rfl⟩

theorem Ready.memRegionDestroy (h : Ready s) (id : Nat) (hgen : s.index.generation + s.tagCount id < 2 ^ 64) :
    Ready (s.memRegionDestroy id) ∧ OthersSame id s (s.memRegionDestroy id) ∧
      (id ≠ invalidRegionId → (s.memRegionDestroy id).region id = none) := by
  unfold MemTagState.memRegionDestroy
  split
  · rename_i hinvalid
    exact ⟨h, ⟨fun j hj => rfl, fun g => rfl⟩, fun hne => absurd hinvalid hne⟩
  obtain ⟨hg, hempty⟩ := destroyLoop_spec (s.tagCount id) (h.coherent.good 0) le_rfl
  obtain ⟨h1, hothers⟩ := h.destroyLoop id (s.tagCount id) hgen
  have hc := (hg.registryDestroy hempty).coherent
  generalize MemTagState.destroyLoop id (s.tagCount id) s = s1 at *
  have hregion := region_registryDestroy s1 id
  obtain ⟨hindex, htags⟩ := registryDestroy_fields s1 id
  have hguards : ∀ g, (s1.registryDestroy id).isGuard g = s1.isGuard g := isGuard_congr (by rw [htags])
  have hsub : ∀ j r, (s1.registryDestroy id).region j = some r → s1.region j = some r := by
    intro j r hr
    rw [hregion] at hr
    split at hr
    · cases hr
    · exact hr
  have hcarries : (s1.registryDestroy id).carries = s1.carries := by
    funext v j
    by_cases hj : j = id
    · rw [carries_none ((hregion j).trans (if_pos hj))]
      cases hr : s1.region j with
      | none => rw [carries_none hr]
      | some r =>
        rw [carries_eq hr, hempty r (hj ▸ hr)]
        simp
    · unfold MemTagState.carries
      rw [hregion, if_neg hj]
  refine ⟨⟨hc, ?_, hindex ▸ h1.limits, fun j r hr => h1.keys j r (hsub j r hr),
    fun j r hr g hgm hgd => h1.seen j r (hsub j r hr) g hgm ((hguards g).symm.trans hgd)⟩,
    ⟨fun j hj => ?_, fun g => (hguards g).trans (hothers.guards g)⟩, fun _ => ?_⟩
  · rw [hindex, hcarries]
    exact h1.cache
  · rw [hregion, if_neg hj]
    exact hothers.regions j hj
  · rw [hregion, if_pos rfl]

/-! ## Attachments -/

theorem Ready.modifyAttaches (h : Ready s) (id : Nat) {f : List MemRegionAttach → List MemRegionAttach}
    (hf : ∀ as : List MemRegionAttach, (as.map (·.key)).Nodup → ((f as).map (·.key)).Nodup) :
    Ready (s.modifyAttaches id f) := by
  have hsame := modifyAttaches_sameTags s id f
  have hindex := modifyAttaches_index s id f
  refine ⟨hsame.coherent h.coherent (hindex ▸ h.coherent.index) (hindex ▸ h.coherent.grown), ?_, hindex ▸ h.limits,
    fun j r hr => ?_, fun j r' hr g hgm hgd => ?_⟩
  · rw [hindex, hsame.carries]
    exact h.cache
  · rw [region_modifyAttaches] at hr
    split at hr
    · obtain ⟨q, hq, rfl⟩ := map_eq_some_iff.mp hr
      exact hf _ (h.keys id q hq)
    · exact h.keys j r hr
  · obtain ⟨r, hr, hids⟩ := hsame.region hr
    unfold Seen
    rw [hids]
    exact h.seen j r hr g (hids ▸ hgm) ((hsame.isGuard g).symm.trans hgd)

/-! ## What a mask must hold -/

variable {mask : TagMask} {r r' : MemRegion}

/-- The mask holds every guard tag of the region but this one. -/
def HoldsOthers (s : MemTagState) (mask : TagMask) (r : MemRegion) (t : UInt16) : Prop :=
  ∀ g ∈ r.tagIds, s.isGuard g = true → g ≠ t → maskHas mask g = true

instance (s : MemTagState) (mask : TagMask) (r : MemRegion) (t : UInt16) : Decidable (s.HoldsOthers mask r t) :=
  inferInstanceAs (Decidable (∀ g ∈ _, _))

theorem holds_added (h : TagAdded s id u s' r r') :
    s'.HoldsGuards mask r' ↔ s.HoldsGuards mask r ∧ (s.isGuard u = true → maskHas mask u = true) := by
  have hmem : ∀ g, g ∈ r'.tagIds ↔ g = u ∨ g ∈ r.tagIds := by
    intro g
    have hperm := h.perm
    split at hperm
    · rename_i hin
      rw [hperm.mem_iff]
      exact ⟨.inr, fun hg => hg.elim (fun he => he ▸ hin) fun hg => hg⟩
    · rw [hperm.mem_iff, mem_cons]
  unfold HoldsGuards
  simp only [hmem, h.guards]
  constructor
  · intro hall
    exact ⟨fun g hg hgd => hall g (.inr hg) hgd, fun hgd => hall u (.inl rfl) hgd⟩
  · rintro ⟨hold, hu⟩ g (rfl | hg) hgd
    · exact hu hgd
    · exact hold g hg hgd

theorem holds_removed (h : TagRemoved s id u s' r) : s'.HoldsGuards mask (r.removeTag u) ↔ s.HoldsOthers mask r u := by
  unfold HoldsGuards HoldsOthers
  simp only [h.mem, h.guards]
  exact ⟨fun hall g hg hgd hne => hall g ⟨hne, hg⟩ hgd, fun hall g hg hgd => hall g hg.2 hgd hg.1⟩

theorem holds_marked (ht : t.toNat < s.tags.length) :
    (s.markGuard t true).HoldsGuards mask r ↔ s.HoldsGuards mask r ∧ (t ∈ r.tagIds → maskHas mask t = true) := by
  unfold HoldsGuards
  simp only [isGuard_markGuard ht]
  constructor
  · intro hall
    refine ⟨fun g hg hgd => hall g hg ?_, fun hin => hall t hin (if_pos rfl)⟩
    split
    · rfl
    · exact hgd
  · rintro ⟨hold, hin⟩ g hg hgd
    split at hgd
    · rename_i he
      exact he ▸ hin (he ▸ hg)
    · exact hold g hg hgd

theorem holds_unmarked (ht : t.toNat < s.tags.length) :
    (s.markGuard t false).HoldsGuards mask r ↔ s.HoldsOthers mask r t := by
  unfold HoldsGuards HoldsOthers
  simp only [isGuard_markGuard ht]
  constructor
  · intro hall g hg hgd hne
    exact hall g hg (by rw [if_neg hne]; exact hgd)
  · intro hall g hg hgd
    split at hgd
    · cases hgd
    · rename_i hne
      exact hall g hg hgd hne

theorem holds_maskSet (ht : t.toNat < maskBits) : s.HoldsGuards (maskSet mask t) r ↔ s.HoldsOthers mask r t := by
  have hother : ∀ g, g ≠ t → maskHas (maskSet mask t) g = maskHas mask g := fun g hne => by
    unfold maskHas maskSet
    rw [if_neg hne]
  constructor
  · intro hall g hg hgd hne
    exact (hother g hne).symm.trans (hall g hg hgd)
  · intro hall g hg hgd
    by_cases hgt : g = t
    · rw [hgt]
      simp [maskHas, maskSet, ht]
    · exact (hother g hgt).trans (hall g hg hgd hgt)

theorem holds_maskClear :
    s.HoldsGuards (maskClear mask t) r ↔ s.HoldsGuards mask r ∧ ¬(t ∈ r.tagIds ∧ s.isGuard t = true) := by
  have hother : ∀ g, g ≠ t → maskHas (maskClear mask t) g = maskHas mask g := fun g hne => by
    unfold maskHas maskClear
    rw [if_neg hne]
  have hself : maskHas (maskClear mask t) t = false := by simp [maskHas, maskClear]
  constructor
  · intro hall
    refine ⟨fun g hg hgd => ?_, fun ⟨hin, hgd⟩ => ?_⟩
    · have hg' := hall g hg hgd
      have hne : g ≠ t := by
        rintro rfl
        rw [hself] at hg'
        cases hg'
      exact (hother g hne).symm.trans hg'
    · have := hall t hin hgd
      rw [hself] at this
      cases this
  · rintro ⟨hall, hnot⟩ g hg hgd
    have hne : g ≠ t := by
      rintro rfl
      exact hnot ⟨hg, hgd⟩
    exact (hother g hne).trans (hall g hg hgd)

theorem holds_others (h : ¬(t ∈ r.tagIds ∧ s.isGuard t = true)) : s.HoldsOthers mask r t ↔ s.HoldsGuards mask r := by
  constructor
  · intro hall g hg hgd
    exact hall g hg hgd fun he => h (he ▸ ⟨hg, hgd⟩)
  · intro hall g hg hgd _
    exact hall g hg hgd

end MemTagState

end BoxOS.Memory
