import BoxOS.Lib.Runs
import BoxOS.Memory.MemTagInv

/-!
# Runs of the memory tags

Whatever is called, the bits of the index are the tags of the active regions and the lists stay sorted. The counts are
those of the regions as long as every call that counts also changes a list (`Careful`): `MemTagApply` counts a tag that
was there already, and `MemTagClear` a tag that was not (`apply_twice_counts_twice`), and the kernel's own regions get
their tags without a count at all.
-/

namespace BoxOS.Memory

open Lib MemTagBitmapIndex List Option

namespace MemTagState

variable {s s' : MemTagState} {P : Prop} {t u : UInt16}

/-! ## Names -/

/-- The names of the registered tags. -/
def names (s : MemTagState) : List String := s.tags.map (·.name)

theorem lookupStr_names (s : MemTagState) (name : String) :
    s.lookupStr name = (s.names.findIdx? (· == name)).map UInt16.ofNat := by
  unfold lookupStr names
  rw [findIdx?_map]
  rfl

theorem lookupStr_congr (h : s'.names = s.names) (name : String) : s'.lookupStr name = s.lookupStr name := by
  rw [lookupStr_names, lookupStr_names, h]

theorem names_modify (es : List MemTagRegistryEntry) (i : Nat) (f : MemTagRegistryEntry → MemTagRegistryEntry)
    (hf : ∀ e, (f e).name = e.name) : (es.modify i f).map (·.name) = es.map (·.name) := by
  apply ext_getElem?
  intro j
  simp only [getElem?_map, getElem?_modify]
  cases es[j]? with
  | none => rfl
  | some e =>
    split
    · exact congrArg some (hf e)
    · rfl

theorem names_addCounted (hs : s.Coherent) {id : Nat} (hu : u.toNat < s.tags.length) (h : s.addCounted id u = some s') :
    s'.names = s.names := by
  obtain ⟨r, r', idx, -, -, -, rfl⟩ := addCounted_spec hs hu h
  exact names_modify _ _ _ fun _ => rfl

theorem names_removeCounted (hs : s.Coherent) {id : Nat} (h : s.removeCounted id u = some s') : s'.names = s.names := by
  obtain ⟨r, idx, -, rfl⟩ := removeCounted_spec hs h
  exact names_modify _ _ _ fun _ => rfl

theorem name_of_lookup (hs : s.Coherent) {name : String} (h : s.lookupStr name = some u) :
    s.names[u.toNat]? = some name := by
  rw [lookupStr_names] at h
  obtain ⟨i, hi, rfl⟩ := map_eq_some_iff.mp h
  obtain ⟨hlt, hname, -⟩ := findIdx?_eq_some_iff_getElem.mp hi
  have hlen : s.names.length = s.tags.length := length_map _
  have := hs.tags
  rw [UInt16.toNat_ofNat_of_lt' (by simp [UInt16.size]; omega), getElem?_eq_getElem hlt]
  exact congrArg some (by simpa using hname)

theorem lookup_of_intern {name : String} (h : (s.internStr name).1 = some u) :
    (s.internStr name).2.lookupStr name = some u := by
  unfold internStr at h ⊢
  split
  · rename_i u' hu'
    rw [hu'] at h
    simp only at h
    rw [hu', h]
  rename_i hnone
  rw [hnone] at h
  split
  · rename_i hfull
    rw [if_pos hfull] at h
    cases h
  rename_i hroom
  rw [if_neg hroom] at h
  cases h
  have hmiss : s.tags.findIdx? (fun e => e.name == name) = none := map_eq_none_iff.mp hnone
  unfold lookupStr
  rw [findIdx?_append, hmiss]
  simp [findIdx?_cons]

theorem names_internStr (hs : s.Coherent) (name : String) : ∃ l, (s.internStr name).2.names = s.names ++ l := by
  obtain ⟨⟨es, heq, -⟩, -, -⟩ := internStr_spec hs name
  rw [heq]
  exact ⟨es.map (·.name), by simp [names]⟩

/-! ## Destroying a region -/

theorem removeTag_length {r : MemRegion} (h : r.tagIds.Pairwise (· < ·)) (ht : t ∈ r.tagIds) :
    (r.removeTag t).tagIds.length + 1 = r.tagIds.length := by
  obtain ⟨a, b, hlen, -, -, hids⟩ := find_spec h t
  have hfound := (find_iff h t).mpr ht
  rw [if_pos hfound] at hids
  unfold MemRegion.removeTag
  rw [if_pos hfound]
  simp only [length_append, length_take, length_drop]
  have hl := congrArg List.length hids
  simp only [length_append, length_cons] at hl
  omega

theorem removeCounted_eq {id : Nat} {r : MemRegion} (hr : s.region id = some r) (hu : u ≠ invalidTagId) :
    s.removeCounted id u = some ((((s.registryRemoveTag id u).getD s).bitmapClear u id).refDec u) := by
  unfold removeCounted registryRemoveTag
  rw [if_neg hu, hr]
  rfl

theorem destroyLoop_spec {id : Nat} (fuel : Nat) (h : Good P t s) (hfuel : s.tagCount id ≤ fuel) :
    Good P t (destroyLoop id fuel s) ∧ ∀ r, (destroyLoop id fuel s).region id = some r → r.tagIds = [] := by
  induction fuel generalizing s with
  | zero =>
    refine ⟨h, fun r hr => ?_⟩
    unfold tagCount at hfuel
    rw [show destroyLoop id 0 s = s from rfl] at hr
    rw [hr] at hfuel
    exact length_eq_zero_iff.mp (by simpa using hfuel)
  | succ fuel ih =>
    unfold destroyLoop
    cases hreg : s.region id with
    | none =>
      rw [show s.registryListTags id 1 = [] by simp [registryListTags, hreg]]
      exact ⟨h, fun r hr => by rw [hreg] at hr; cases hr⟩
    | some r =>
      have hlist : s.registryListTags id 1 = r.tagIds.take 1 := by simp [registryListTags, hreg]
      rw [hlist]
      cases hids : r.tagIds with
      | nil =>
        refine ⟨h, fun q hq => ?_⟩
        simp only [take_nil] at hq
        rw [hreg] at hq
        cases hq
        exact hids
      | cons v vs =>
        simp only [take_succ_cons, take_zero]
        have hmem : v ∈ r.tagIds := hids ▸ mem_cons_self
        have hvalid := h.coherent.valid id r hreg v hmem
        obtain ⟨s1, hs1⟩ : ∃ s1, s.removeCounted id v = some s1 :=
          ⟨_, removeCounted_eq hreg (ne_invalid hvalid h.coherent)⟩
        rw [hs1]
        have hg : Good P t s1 := h.removeCounted hs1 fun _ he => .inl (by rw [carries_eq hreg, ← he]; simpa using hmem)
        apply ih hg
        obtain ⟨r1, hr1, hall⟩ := region_removeCounted h.coherent hs1
        rw [hreg] at hr1
        cases hr1
        have hlen := removeTag_length (h.coherent.sorted id r hreg) hmem
        unfold tagCount at hfuel ⊢
        rw [hreg] at hfuel
        rw [hall, if_pos rfl]
        simp only at hfuel ⊢
        omega

theorem Good.memRegionDestroy (h : Good P t s) (id : Nat) : Good P t (s.memRegionDestroy id) := by
  unfold MemTagState.memRegionDestroy
  split
  · exact h
  · obtain ⟨hg, hempty⟩ := destroyLoop_spec (s.tagCount id) h le_rfl
    exact hg.registryDestroy hempty

theorem Good.freedLoop (h : Good P t s) (ps : List Nat) (prevId : Option Nat) :
    Good P t (MemTagState.freedLoop ps prevId s) := by
  induction ps generalizing s prevId with
  | nil => exact h
  | cons p ps ih =>
    unfold MemTagState.freedLoop
    split
    · exact ih h _
    split
    · exact ih h _
    split
    · exact ih h _
    rename_i r _
    cases r.kernel with
    | true => exact ih h _
    | false => exact ih (h.memRegionDestroy _) _

theorem Good.memTagPmmFreed (h : Good P t s) (basePhys pages : Nat) : Good P t (s.memTagPmmFreed basePhys pages) := by
  unfold MemTagState.memTagPmmFreed
  simp only
  split
  · exact h
  · split
    · exact h
    · exact h.freedLoop _ _

/-! ## Applying and clearing a tag -/

theorem Good.intern_add (h : Good P t s) {id : Nat} {name : String} (hu : (s.internStr name).1 = some u)
    (hadd : (s.internStr name).2.addCounted id u = some s') (hnew : P → u = t → s.carries t id = false) :
    Good P t s' := by
  apply (h.internStr name).addCounted ((internStr_spec h.coherent name).2.2 u hu) hadd
  intro hp he
  have := hnew hp he
  unfold carries at this ⊢
  rw [region_internStr h.coherent]
  exact this

theorem Good.memTagApply (h : Good P t s) (id : Nat) (name : String)
    (hnew : P → (s.internStr name).1 = some t → s.carries t id = false) : Good P t (s.memTagApply id name).2 := by
  unfold MemTagState.memTagApply
  split
  · exact h
  split
  · rename_i s1 hi
    have := h.internStr name
    rw [hi] at this
    exact this
  rename_i u s1 hi
  have hg := h.internStr name
  rw [hi] at hg
  split
  · exact hg
  · rename_i s2 hadd
    have hu : (s.internStr name).1 = some u := by rw [hi]
    exact h.intern_add hu (by rw [hi]; exact hadd) fun hp he => hnew hp (he ▸ hu)

theorem Good.memTagClear (h : Good P t s) (id : Nat) (name : String)
    (hold : P → s.lookupStr name = some t → (s.region id).isSome → s.carries t id = true ∨ s.carriers t = 0) :
    Good P t (s.memTagClear id name).2 := by
  unfold MemTagState.memTagClear
  split
  · exact h
  split
  · exact h
  rename_i u hu
  split
  · exact h
  rename_i s1 hrem
  refine h.removeCounted hrem fun hp he => hold hp (he ▸ hu) ?_
  obtain ⟨r, hr, -⟩ := region_removeCounted h.coherent hrem
  rw [hr]
  rfl

/-! ## Tags of new regions -/

/-- The name that a region gets by its address. -/
def Derives (physDomain : Nat → Nat) (basePhys : Nat) (name : String) : Prop :=
  basePhys ≠ 0 ∧ physDomain basePhys ≠ 0xFFFFFFFF ∧ name = domainName (physDomain basePhys)

theorem Good.applyDerivedTags (h : Good P t s) (physDomain : Nat → Nat) (id basePhys : Nat)
    (hnew : P → ∀ name, Derives physDomain basePhys name → (s.internStr name).1 = some t → s.carries t id = false) :
    Good P t (MemTagState.applyDerivedTags physDomain s id basePhys) := by
  unfold MemTagState.applyDerivedTags
  split
  · exact h
  rename_i hbase
  split
  · exact h
  rename_i hdom
  have hg := h.internStr (domainName (physDomain basePhys))
  split
  · rename_i s1 hi
    rw [hi] at hg
    exact hg
  rename_i u s1 hi
  rw [hi] at hg
  cases hadd : s1.addCounted id u with
  | none => exact hg
  | some s2 =>
    have hu : (s.internStr (domainName (physDomain basePhys))).1 = some u := by rw [hi]
    exact h.intern_add hu (by rw [hi]; exact hadd)
      fun hp he => hnew hp _ ⟨hbase, hdom, rfl⟩ (he ▸ hu)

theorem Good.memRegionCreate (h : Good P t s) (physDomain : Nat → Nat) (basePhys pages : Nat) (kernel : Bool)
    (heapSlots : Nat) : Good P t (MemTagState.memRegionCreate physDomain s basePhys pages kernel heapSlots).2 := by
  unfold MemTagState.memRegionCreate
  split
  · exact h
  · rename_i id s1 hc
    obtain ⟨hg, hreg, -⟩ := registryCreate_spec h hc
    exact hg.applyDerivedTags physDomain id basePhys fun _ name _ _ => by rw [carries_eq hreg]; simp

theorem internStr_congr (h : s'.tags = s.tags) (name : String) : (s'.internStr name).1 = (s.internStr name).1 := by
  unfold internStr lookupStr
  rw [h]
  split
  · rfl
  · split <;> rfl

theorem name_eq_of_intern (hs : s.Coherent) {name name' : String} (h : s.names[u.toNat]? = some name)
    (h' : (s.internStr name').1 = some u) (hs' : (s.internStr name').2.Coherent) : name = name' := by
  have hname := name_of_lookup hs' (lookup_of_intern h')
  obtain ⟨l, hl⟩ := names_internStr hs name'
  obtain ⟨hlt, -⟩ := List.getElem?_eq_some_iff.mp h
  rw [hl, getElem?_append_left hlt, h] at hname
  exact some.inj hname

/-- A region as it is made carries only the tag of its address. -/
theorem memRegionCreate_carries (h : Good P t s) {physDomain : Nat → Nat} {basePhys pages : Nat} {kernel : Bool}
    {heapSlots id : Nat} (hc : memRegionCreate physDomain s basePhys pages kernel heapSlots = (some id, s'))
    (hcar : s'.carries u id = true) :
    ∃ name, Derives physDomain basePhys name ∧ (s.internStr name).1 = some u ∧ s'.names[u.toNat]? = some name := by
  unfold memRegionCreate at hc
  split at hc
  · cases hc
  rename_i id1 s1 hreg
  simp only [Prod.mk.injEq, some.injEq] at hc
  obtain ⟨rfl, rfl⟩ := hc
  obtain ⟨hg, hfresh, htags⟩ := registryCreate_spec h hreg
  have hno : ∀ v, s1.carries v id1 = false := fun v => by rw [carries_eq hfresh]; simp
  have hint : ∀ name, (s1.internStr name).2.carries u id1 = false := by
    intro name
    have := hno u
    unfold carries at this ⊢
    rw [region_internStr hg.coherent]
    exact this
  unfold applyDerivedTags at hcar ⊢
  split at hcar
  · rw [hno] at hcar
    cases hcar
  rename_i hbase
  split at hcar
  · rw [hno] at hcar
    cases hcar
  rename_i hdom
  rw [if_neg hbase, if_neg hdom]
  split at hcar
  · rename_i s2 hi
    have := hint (domainName (physDomain basePhys))
    rw [hi] at this
    rw [this] at hcar
    cases hcar
  rename_i v s2 hi
  have hfst : (s1.internStr (domainName (physDomain basePhys))).1 = some v := by rw [hi]
  have hsnd : (s1.internStr (domainName (physDomain basePhys))).2 = s2 := by rw [hi]
  have hs2 : s2.Coherent := hsnd ▸ (hg.internStr _).coherent
  have hvlt : v.toNat < s2.tags.length := hsnd ▸ (internStr_spec hg.coherent _).2.2 v hfst
  have hnot : s2.carries u id1 = false := hsnd ▸ hint _
  cases hadd : s2.addCounted id1 v with
  | none =>
    rw [hadd] at hcar
    simp only [getD_none, hnot] at hcar
    cases hcar
  | some s3 =>
    rw [hadd] at hcar
    simp only [getD_some] at hcar
    obtain ⟨r, r', hr, hmem, hall⟩ := region_addCounted hs2 hvlt hadd
    have hr' : s3.region id1 = some r' := by rw [hall, if_pos rfl]
    rw [carries_eq hr', decide_eq_true_eq, hmem] at hcar
    have huv : u = v := by
      refine hcar.resolve_right fun hm => ?_
      rw [carries_eq hr] at hnot
      exact of_decide_eq_false hnot hm
    refine ⟨_, ⟨hbase, hdom, rfl⟩, ?_, ?_⟩
    · rw [huv, ← internStr_congr htags]
      exact hfst
    · simp only [getD_some]
      rw [names_addCounted hs2 hvlt hadd, huv]
      exact name_of_lookup hs2 (hsnd ▸ lookup_of_intern hfst)

theorem Good.memTagApplyByPhys (h : Good P t s) (physDomain : Nat → Nat) (basePhys pages : Nat) (name : String)
    (heapSlots : Nat)
    (hexact : P → ∀ id, s.exactRegion basePhys pages = some id → (s.internStr name).1 = some t → s.carries t id = false)
    (hnew : P → s.exactRegion basePhys pages = none → (s.internStr name).1 = some t →
    ¬Derives physDomain basePhys name) :
    Good P t (MemTagState.memTagApplyByPhys physDomain s basePhys pages name heapSlots).2 := by
  unfold MemTagState.memTagApplyByPhys
  split
  · exact h
  split
  · rename_i id hid
    exact h.memTagApply id name fun hp => hexact hp id hid
  rename_i hnone
  have hg := h.memRegionCreate physDomain basePhys pages false heapSlots
  split
  · rename_i s1 hc
    rw [hc] at hg
    exact hg
  rename_i id s1 hc
  rw [hc] at hg
  apply hg.memTagApply id name
  intro hp hi
  by_contra hcar
  obtain ⟨name', hder, hfst, hname⟩ := memRegionCreate_carries h hc (by simpa using hcar)
  have heq := name_eq_of_intern hg.coherent hname hi (hg.internStr name).coherent
  subst heq
  exact hnew hp hnone hfst hder

theorem registryAddTag_fresh {id : Nat} {kernel : Bool} {basePhys pages : Nat}
    (hr : s.region id = some ⟨true, kernel, basePhys, pages, [], 0, []⟩) (hu : u ≠ invalidTagId) :
    ∃ s1, s.registryAddTag id u = some s1 := by
  unfold registryAddTag
  rw [if_neg hu, hr]
  exact ⟨_, rfl⟩

theorem Good.memTagPmmAlloc (h : Good P t s) (physDomain : Nat → Nat) (phys pages : Nat) (name : String)
    (heapSlots : Nat) (hnew : P → (s.internStr name).1 = some t → ¬Derives physDomain phys name) :
    Good P t (MemTagState.memTagPmmAlloc physDomain s phys pages name heapSlots) := by
  unfold MemTagState.memTagPmmAlloc
  split
  · exact h
  rename_i id s1 hc
  obtain ⟨hg, hfresh, htags⟩ := registryCreate_spec h hc
  have hno : ∀ v, s1.carries v id = false := fun v => by rw [carries_eq hfresh]; simp
  have hgi := hg.internStr name
  have hnoi : ∀ v, (s1.internStr name).2.carries v id = false := by
    intro v
    have := hno v
    unfold carries at this ⊢
    rw [region_internStr hg.coherent]
    exact this
  split
  · rename_i s2 hi
    rw [hi] at hgi hnoi
    exact hgi.applyDerivedTags physDomain id phys fun _ _ _ _ => hnoi t
  rename_i v s2 hi
  have hfst : (s1.internStr name).1 = some v := by rw [hi]
  have hvlt : v.toNat < s2.tags.length := by
    have := (internStr_spec hg.coherent name).2.2 v hfst
    rwa [hi] at this
  rw [hi] at hgi hnoi
  have hfresh2 : s2.region id = some ⟨true, false, phys, pages, [], 0, []⟩ := by
    have := region_internStr hg.coherent name id
    rw [hi] at this
    exact this.trans hfresh
  obtain ⟨s3, hs3⟩ := registryAddTag_fresh hfresh2 (ne_invalid hvlt hgi.coherent)
  have hadd : s2.addCounted id v = some ((s3.bitmapSet v id).refInc v) := by
    unfold MemTagState.addCounted
    rw [hs3]
    rfl
  rw [hs3, getD_some]
  have hg4 := hgi.addCounted hvlt hadd fun _ _ => hnoi t
  apply hg4.applyDerivedTags physDomain id phys
  intro hp name' hder hi'
  by_contra hcar
  obtain ⟨r, r', hr, hmem, hall⟩ := region_addCounted hgi.coherent hvlt hadd
  have hr' := hall id
  rw [if_pos rfl] at hr'
  rw [carries_eq hr', Bool.not_eq_false, decide_eq_true_eq, hmem] at hcar
  have htv : t = v := by
    refine hcar.resolve_right fun hm => ?_
    have := hnoi t
    rw [carries_eq hr] at this
    exact of_decide_eq_false this hm
  have hname : ((s3.bitmapSet v id).refInc v).names[t.toNat]? = some name := by
    rw [names_addCounted hgi.coherent hvlt hadd, htv]
    have := lookup_of_intern hfst
    rw [hi] at this
    exact name_of_lookup hgi.coherent this
  have heq := name_eq_of_intern hg4.coherent hname hi' (hg4.internStr name').coherent
  subst heq
  exact hnew hp (by rw [← internStr_congr htags, hfst, htv]) hder

/-! ## Protection keys -/

theorem pkuName_injective : ∀ v < 16, ∀ w < 16, pkuName v = pkuName w → v = w := by decide +kernel

theorem pkuValue_lookup {v : Nat} (h : s.pkuValue u = some v) : v < 16 ∧ s.lookupStr (pkuName v) = some u := by
  refine ⟨mem_range.mp (mem_of_find?_eq_some h), ?_⟩
  simpa using find?_some h

theorem pkuValue_congr (h : s'.names = s.names) (u : UInt16) : s'.pkuValue u = s.pkuValue u := by
  unfold pkuValue
  simp only [lookupStr_congr h]

theorem pkuValue_of_lookup (hs : s.Coherent) {pkey : Nat} (hk : pkey < 16)
    (h : s.lookupStr (pkuName pkey) = some u) : s.pkuValue u = some pkey := by
  cases hv : s.pkuValue u with
  | none =>
    have := find?_eq_none.mp hv pkey (mem_range.mpr hk)
    simp [h] at this
  | some v =>
    obtain ⟨hlt, hlook⟩ := pkuValue_lookup hv
    have hname := name_of_lookup hs hlook
    rw [name_of_lookup hs h] at hname
    rw [pkuName_injective v hlt pkey hk (some.inj hname).symm]

/-- The loop of `MemTagApplyPkey` over tags that the region carries: only tags go, and it does not pass the tag of the
key by. -/
theorem pkeyLoop_spec {id : Nat} (pkey : Nat) (ts : List UInt16) (h : Good P t s) {r : MemRegion}
    (hr : s.region id = some r) (hnodup : ts.Nodup) (hsub : ∀ v ∈ ts, v ∈ r.tagIds) :
    Good P t (pkeyLoop id pkey ts s).2 ∧ (pkeyLoop id pkey ts s).2.names = s.names ∧
    (∀ v, (pkeyLoop id pkey ts s).2.carries v id = true → v ∈ r.tagIds) ∧
    ((pkeyLoop id pkey ts s).1 = false → ∀ v ∈ ts, s.pkuValue v ≠ some pkey) := by
  induction ts generalizing s r with
  | nil => exact ⟨h, rfl, fun v hv => by rw [pkeyLoop, carries_eq hr] at hv; simpa using hv, nofun⟩
  | cons u us ih =>
    obtain ⟨hnot, hus⟩ := nodup_cons.mp hnodup
    unfold pkeyLoop
    cases hval : s.pkuValue u with
    | none =>
      obtain ⟨h1, h2, h3, h4⟩ := ih h hr hus fun v hv => hsub v (mem_cons_of_mem _ hv)
      refine ⟨h1, h2, h3, fun hf v hv => ?_⟩
      rcases mem_cons.mp hv with rfl | hv
      · rw [hval]
        exact nofun
      · exact h4 hf v hv
    | some w =>
      simp only
      split
      · refine ⟨h, rfl, fun v hv => ?_, nofun⟩
        rw [carries_eq hr] at hv
        simpa using hv
      rename_i hne
      have hmem := hsub u mem_cons_self
      have hrem := removeCounted_eq hr (ne_invalid (h.coherent.valid id r hr u hmem) h.coherent)
      generalize (((s.registryRemoveTag id u).getD s).bitmapClear u id).refDec u = s1 at hrem
      have hg : Good P t s1 := h.removeCounted hrem fun _ he => .inl (by rw [carries_eq hr, ← he]; simpa using hmem)
      obtain ⟨r0, hr0, hall⟩ := region_removeCounted h.coherent hrem
      rw [hr] at hr0
      cases hr0
      have hr1 := hall id
      rw [if_pos rfl] at hr1
      have hmem1 := (removeTag_spec (h.coherent.sorted id r hr) u).2.1
      have hnames := names_removeCounted h.coherent hrem
      obtain ⟨h1, h2, h3, h4⟩ := ih hg hr1 hus fun v hv =>
        (hmem1 v).mpr ⟨fun he => hnot (he ▸ hv), hsub v (mem_cons_of_mem _ hv)⟩
      refine ⟨h1, h2.trans hnames, fun v hv => ((hmem1 v).mp (h3 v hv)).2, fun hf v hv => ?_⟩
      rcases mem_cons.mp hv with rfl | hv
      · rw [hval]
        exact fun he => hne (some.inj he)
      · rw [← pkuValue_congr hnames]
        exact h4 hf v hv

/-- `MemTagApplyPkey` looks at the first 32 tags of the region; the tag of the key must not stand after them. -/
theorem Good.memTagApplyPkey (h : Good P t s) (id pkey : Nat)
    (hlist : P → s.lookupStr (pkuName pkey) = some t → s.carries t id = true → t ∈ s.registryListTags id 32) :
    Good P t (s.memTagApplyPkey id pkey).2 := by
  unfold MemTagState.memTagApplyPkey
  split
  · exact h
  split
  · exact h
  rename_i hkey
  have hk : pkey < 16 := by omega
  cases hr : s.region id with
  | none =>
    have hnil : s.registryListTags id 32 = [] := by simp [registryListTags, hr]
    rw [hnil]
    simp only [pkeyLoop]
    split
    · exact h
    · exact h.memTagApply id _ fun _ _ => carries_none hr t
  | some r =>
    have htake : s.registryListTags id 32 = r.tagIds.take 32 := by simp [registryListTags, hr]
    have hsorted := h.coherent.sorted id r hr
    have hdistinct : r.tagIds.Nodup := hsorted.imp fun {a b} (hlt : a < b) (he : a = b) =>
      UInt16.lt_irrefl b (he ▸ hlt)
    have hnodup : (r.tagIds.take 32).Nodup := hdistinct.sublist (take_sublist _ _)
    obtain ⟨h1, h2, h3, h4⟩ := pkeyLoop_spec pkey (r.tagIds.take 32) h hr hnodup
      fun v hv => mem_of_mem_take hv
    rw [htake]
    split
    · rename_i s1 hloop
      rw [hloop] at h1
      exact h1
    rename_i s1 hloop
    rw [hloop] at h1 h2 h3 h4
    split
    · exact h1
    apply h1.memTagApply id
    intro hp hi
    by_contra hcar
    have hmem := h3 t (by simpa using hcar)
    -- the tag is on the region, so it was registered, and it is one of the first 32
    have hname : s1.names[t.toNat]? = some (pkuName pkey) := by
      have hlt : t.toNat < s1.names.length := by
        rw [h2, names, length_map]
        exact h.coherent.valid id r hr t hmem
      obtain ⟨name, hget⟩ : ∃ name, s1.names[t.toNat]? = some name := ⟨_, getElem?_eq_getElem hlt⟩
      rw [hget, name_eq_of_intern h1.coherent hget hi (h1.internStr _).coherent]
    have hlook : s.lookupStr (pkuName pkey) = some t := by
      rw [← lookupStr_congr h2]
      unfold MemTagState.internStr at hi
      cases hl : s1.lookupStr (pkuName pkey) with
      | some u =>
        rw [hl] at hi
        exact hi
      | none =>
        rw [lookupStr_names] at hl
        have := findIdx?_eq_none_iff.mp (map_eq_none_iff.mp hl) _ (mem_of_getElem? hname)
        simp at this
    have hin := hlist hp hlook (by rw [carries_eq hr]; simpa using hmem)
    rw [htake] at hin
    exact h4 rfl t hin (pkuValue_of_lookup h.coherent hk hlook)

/-! ## The start -/

theorem Coherent.of_refInc (h : (s.refInc u).Coherent) : s.Coherent :=
  have hlen : (s.refInc u).tags.length = s.tags.length := length_modify ..
  ⟨h.sorted, fun id r hr t ht => hlen ▸ h.valid id r hr t ht, h.index, h.grown, h.slots, h.cap, h.free, h.inactive,
    hlen ▸ h.tags⟩

theorem empty_coherent (pageCount : Nat) : (empty pageCount).Coherent := by
  have hnone : ∀ id, (empty pageCount).region id = none := fun id => rfl
  refine ⟨fun id r hr => ?_, fun id r hr => ?_, ?_, memTagBitmapInit_grown 1024, Nat.zero_le _,
    (by decide : 1024 ≤ 2 ^ 20), .nil, nofun, Nat.zero_le _⟩
  · rw [hnone] at hr
    cases hr
  · rw [hnone] at hr
    cases hr
  · exact memTagBitmapInit_inv 64 1024

/-- The registries while they are seeded: they are coherent, and nothing has been counted. -/
structure Seeded (s : MemTagState) : Prop where
  coherent : s.Coherent
  uncounted : ∀ e ∈ s.tags, e.regionCount = 0

theorem Seeded.internStr (h : Seeded s) (name : String) : Seeded (s.internStr name).2 := by
  refine ⟨((⟨h.coherent, fun hf => hf.elim⟩ : Good False 0 s).internStr name).coherent, ?_⟩
  obtain ⟨⟨es, heq, hes⟩, -, -⟩ := internStr_spec h.coherent name
  rw [heq]
  intro e he
  rcases mem_append.mp he with he | he
  · exact h.uncounted e he
  · exact (hes e he).1

theorem Seeded.seedRegionTag (h : Seeded s) (id : Nat) (name : String) : Seeded (s.seedRegionTag id name) := by
  have hi := h.internStr name
  unfold MemTagState.seedRegionTag
  split
  · rename_i s1 he
    rw [he] at hi
    exact hi
  rename_i u s1 he
  have hlt := (internStr_spec h.coherent name).2.2 u (by rw [he])
  rw [he] at hi hlt
  split
  · exact hi
  rename_i s2 hadd
  have hcounted : s1.addCounted id u = some ((s2.bitmapSet u id).refInc u) := by
    unfold addCounted
    rw [hadd]
    rfl
  obtain ⟨r, r', idx, hrep, -⟩ := addCounted_spec hi.coherent hlt hcounted
  refine ⟨(hrep.coherent hi.coherent).of_refInc, ?_⟩
  have htags : s2.tags = s1.tags := by
    unfold registryAddTag at hadd
    split at hadd
    · cases hadd
    split at hadd
    · cases hadd
    · obtain ⟨q, -, rfl⟩ := map_eq_some_iff.mp hadd
      rfl
  exact fun e he => hi.uncounted e (htags ▸ he)

theorem Seeded.seedRegion (h : Seeded s) (heapSlots : Nat) (seed : Seed) : Seeded (seedRegion heapSlots s seed) := by
  unfold MemTagState.seedRegion
  split
  · exact h
  rename_i id s1 hc
  obtain ⟨hg, -, htags⟩ := registryCreate_spec (⟨h.coherent, fun hf => hf.elim⟩ : Good False 0 s) hc
  have hs1 : Seeded s1 := ⟨hg.coherent, fun e he => h.uncounted e (htags ▸ he)⟩
  exact List.foldlRecOn seed.tags _ hs1 fun s hs name _ => hs.seedRegionTag id name

theorem memTagInit_seeded (pageCount heapSlots : Nat) (seeds : List Seed) :
    Seeded (memTagInit pageCount heapSlots seeds) := by
  have hreserved : Seeded (reservedNames.foldl (fun s name => (s.internStr name).2) (empty pageCount)) :=
    List.foldlRecOn reservedNames _ ⟨empty_coherent pageCount, nofun⟩ fun s hs name _ => hs.internStr name
  exact List.foldlRecOn seeds _ hreserved fun s hs seed _ => hs.seedRegion heapSlots seed

theorem Seeded.refCount (h : Seeded s) (t : UInt16) : s.refCount t = 0 := by
  unfold MemTagState.refCount
  cases he : s.tags[t.toNat]? with
  | none => rfl
  | some e => exact h.uncounted e (mem_of_getElem? he)

/-! ## Runs -/

/-- The calls on the memory tags. -/
inductive Op where
  | create (basePhys pages : Nat) (kernel : Bool) (heapSlots : Nat)
  | apply (id : Nat) (name : String)
  | clear (id : Nat) (name : String)
  | applyByPhys (basePhys pages : Nat) (name : String) (heapSlots : Nat)
  | applyPkey (id pkey : Nat)
  | pmmAlloc (phys pages : Nat) (name : String) (heapSlots : Nat)
  | pmmFreed (basePhys pages : Nat)
  | destroy (id : Nat)

variable (physDomain : Nat → Nat)

/-- One call. -/
def next (s : MemTagState) : Op → MemTagState
  | .create basePhys pages kernel heapSlots => (memRegionCreate physDomain s basePhys pages kernel heapSlots).2
  | .apply id name => (s.memTagApply id name).2
  | .clear id name => (s.memTagClear id name).2
  | .applyByPhys basePhys pages name heapSlots => (memTagApplyByPhys physDomain s basePhys pages name heapSlots).2
  | .applyPkey id pkey => (s.memTagApplyPkey id pkey).2
  | .pmmAlloc phys pages name heapSlots => memTagPmmAlloc physDomain s phys pages name heapSlots
  | .pmmFreed basePhys pages => s.memTagPmmFreed basePhys pages
  | .destroy id => s.memRegionDestroy id

def Step (s : MemTagState) (op : Op) (s' : MemTagState) : Prop := s' = s.next physDomain op

/-- The call does not count `t` without changing a list: it is applied where it is not yet, it is cleared where it is
(or nowhere at all), a region's tag is not the one that its address gives it, and the tag of a protection key is among
the first 32 tags of the region. -/
def Careful (t : UInt16) (s : MemTagState) : Op → Prop
  | .apply id name => (s.internStr name).1 = some t → s.carries t id = false
  | .clear id name =>
    s.lookupStr name = some t → (s.region id).isSome → s.carries t id = true ∨ s.carriers t = 0
  | .applyByPhys basePhys pages name _ =>
    (s.internStr name).1 = some t →
      match s.exactRegion basePhys pages with
      | some id => s.carries t id = false
      | none => ¬Derives physDomain basePhys name
  | .applyPkey id pkey =>
    s.lookupStr (pkuName pkey) = some t → s.carries t id = true → t ∈ s.registryListTags id 32
  | .pmmAlloc phys _ name _ => (s.internStr name).1 = some t → ¬Derives physDomain phys name
  | _ => True

theorem next_good (h : Good P t s) (op : Op) (hc : P → Careful physDomain t s op) :
    Good P t (s.next physDomain op) := by
  cases op with
  | create basePhys pages kernel heapSlots => exact h.memRegionCreate physDomain basePhys pages kernel heapSlots
  | apply id name => exact h.memTagApply id name hc
  | clear id name => exact h.memTagClear id name hc
  | applyByPhys basePhys pages name heapSlots =>
    apply h.memTagApplyByPhys physDomain basePhys pages name heapSlots
    · intro hp id hid hi
      have := hc hp hi
      rw [hid] at this
      exact this
    · intro hp hnone hi
      have := hc hp hi
      rw [hnone] at this
      exact this
  | applyPkey id pkey => exact h.memTagApplyPkey id pkey hc
  | pmmAlloc phys pages name heapSlots => exact h.memTagPmmAlloc physDomain phys pages name heapSlots hc
  | pmmFreed basePhys pages => exact h.memTagPmmFreed basePhys pages
  | destroy id => exact h.memRegionDestroy id

/-- A bit is set exactly for a tag in the list of an active region, and the lists are strictly increasing. -/
structure BitsAreTags (s : MemTagState) : Prop where
  bit : ∀ t id, s.index.memTagBitmapHas t id = true ↔ ∃ r, s.region id = some r ∧ t ∈ r.tagIds
  sorted : ∀ id r, s.region id = some r → r.tagIds.Pairwise (· < ·)
  recycled : ∀ id, s.region id = none → ∀ t, s.index.memTagBitmapHas t id = false

theorem Coherent.bitsAreTags (h : s.Coherent) : s.BitsAreTags := by
  have hhas : ∀ t id, s.index.memTagBitmapHas t id = s.carries t id := by
    intro t id
    unfold memTagBitmapHas
    cases hb : s.index.bitmapOf t with
    | none => exact (h.index.absent t hb id).symm
    | some bm =>
      have hok := h.index.bitmap t bm hb
      simp only
      split
      · exact hok.bit id
      rename_i hge
      by_contra hne
      have hcar : s.carries t id = true := by simpa using Ne.symm hne
      exact hge (hok.bound id hcar)
  refine ⟨fun t id => ?_, h.sorted, fun id hid t => by rw [hhas, carries_none hid]⟩
  rw [hhas]
  cases hr : s.region id with
  | none => simp [carries_none hr]
  | some r => simp [carries_eq hr]

/-- In every run the bits are the tags of the active regions; and the count of a tag that the kernel's own regions lack
is the number of regions that carry it, where the calls are careful with it. -/
theorem memtag_bookkeeping {pageCount heapSlots : Nat} {seeds : List Seed} {ops : List Op} {s : MemTagState}
    (run : Run (Step physDomain) (fun _ _ => True) (memTagInit pageCount heapSlots seeds) ops s) :
    s.BitsAreTags ∧ ∀ t, (memTagInit pageCount heapSlots seeds).carriers t = 0 →
    Run (Step physDomain) (Careful physDomain t) (memTagInit pageCount heapSlots seeds) ops s →
    s.refCount t = s.carriers t := by
  have hseeded := memTagInit_seeded pageCount heapSlots seeds
  constructor
  · have hgood : Good False 0 s := run.invariant (fun _ op _ _ hs h => hs ▸ next_good physDomain h op fun hf => hf.elim)
      ⟨hseeded.coherent, fun hf => hf.elim⟩
    exact hgood.coherent.bitsAreTags
  · intro t hzero hcareful
    have hgood : Good True t s := hcareful.invariant (fun _ op _ hc hs h => hs ▸ next_good physDomain h op fun _ => hc)
      ⟨hseeded.coherent, fun _ => by rw [hseeded.refCount, hzero]⟩
    exact hgood.count trivial

/-! ## The reserved tags -/

theorem reservedNames_nodup : reservedNames.Nodup := by
  simp [reservedNames]

theorem internStr_new {name : String} (hnew : ∀ e ∈ s.tags, e.name ≠ name) (hroom : s.tags.length ≤ maxTagId) :
    (s.internStr name).2 = { s with tags := s.tags ++ [⟨name, 0, false⟩] } := by
  have hmiss : s.lookupStr name = none := by
    rw [lookupStr, map_eq_none_iff, findIdx?_eq_none_iff]
    exact fun e he => beq_eq_false_iff_ne.mpr (hnew e he)
  rw [internStr, hmiss]
  exact congrArg Prod.snd (if_neg (Nat.not_lt.mpr hroom))

theorem intern_names {names : List String} (hnew : (s.names ++ names).Nodup)
    (hroom : s.tags.length + names.length ≤ maxTagId + 1) :
    names.foldl (fun s name => (s.internStr name).2) s = { s with tags := s.tags ++ names.map (⟨·, 0, false⟩) } := by
  induction names generalizing s with
  | nil => simp
  | cons name names ih =>
    rw [length_cons] at hroom
    rw [foldl_cons, internStr_new (fun e he heq => (nodup_append.mp hnew).2.2 _ (mem_map_of_mem he) _ mem_cons_self heq)
      (by omega), ih (by simpa [MemTagState.names] using hnew) (by simp; omega)]
    simp

/-- The reserved tags get the ids from 0 on, in their order. -/
theorem memTagInit_nil (pageCount heapSlots : Nat) : memTagInit pageCount heapSlots [] =
    { empty pageCount with tags := reservedNames.map (⟨·, 0, false⟩) } := by
  have hroom : (empty pageCount).tags.length + reservedNames.length ≤ maxTagId + 1 :=
    show 0 + reservedNames.length ≤ maxTagId + 1 by decide
  rw [memTagInit, foldl_nil, intern_names (by simpa [names, empty] using reservedNames_nodup) hroom]
  rfl

/-- A machine without a map of memory domains. -/
def noDomains : Nat → Nat := fun _ => 0xFFFFFFFF

/-- A region is made. -/
def oneRegion : MemTagState := (memTagInit 16 1024 []).next noDomains (.create 0x5000 1 false 1024)

/-- The region takes a tag. -/
def oneTag : MemTagState := oneRegion.next noDomains (.apply 0 "owner:net")

theorem memtag_bookkeeping_one :
    Run (Step noDomains) (Careful noDomains 84) (memTagInit 16 1024 [])
      [.create 0x5000 1 false 1024, .apply 0 "owner:net"] oneTag ∧
    oneTag.BitsAreTags ∧ oneTag.refCount 84 = oneTag.carriers 84 ∧ oneTag.carriers 84 = 1 := by
  have hvalues : (memTagInit 16 1024 []).carriers 84 = 0 ∧ oneRegion.carries 84 0 = false ∧ oneTag.carriers 84 = 1 := by
    rw [oneTag, oneRegion, memTagInit_nil]
    decide +kernel
  obtain ⟨hinit, hfree, hone⟩ := hvalues
  have hcareful : Run (Step noDomains) (Careful noDomains 84) (memTagInit 16 1024 [])
      [.create 0x5000 1 false 1024, .apply 0 "owner:net"] oneTag :=
    .cons trivial rfl (.cons (fun _ => hfree) rfl (.nil _))
  have run : Run (Step noDomains) (fun _ _ => True) (memTagInit 16 1024 [])
      [.create 0x5000 1 false 1024, .apply 0 "owner:net"] oneTag :=
    .cons trivial rfl (.cons trivial rfl (.nil _))
  obtain ⟨hbits, hcount⟩ := memtag_bookkeeping noDomains run
  exact ⟨hcareful, hbits, hcount 84 hinit hcareful, hone⟩

/-- Applied twice to one region, the tag is counted twice. -/
theorem apply_twice_counts_twice : ∃ s, Run (Step noDomains) (fun _ _ => True) (memTagInit 16 1024 [])
      [.create 0x5000 1 false 1024, .apply 0 "owner:net", .apply 0 "owner:net"] s ∧
    (memTagInit 16 1024 []).carriers 84 = 0 ∧ s.refCount 84 = 2 ∧ s.carriers 84 = 1 := by
  have run : Run (Step noDomains) (fun _ _ => True) (memTagInit 16 1024 [])
      [.create 0x5000 1 false 1024, .apply 0 "owner:net", .apply 0 "owner:net"]
      (oneTag.next noDomains (.apply 0 "owner:net")) :=
    .cons trivial rfl (.cons trivial rfl (.cons trivial rfl (.nil _)))
  refine ⟨_, run, ?_⟩
  rw [oneTag, oneRegion, memTagInit_nil]
  decide +kernel

end MemTagState

end BoxOS.Memory
