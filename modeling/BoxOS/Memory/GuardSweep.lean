import BoxOS.Lib.Loops
import BoxOS.Memory.Guard
import BoxOS.Memory.MemTagInv
import BoxOS.Memory.TagIndexRun

/-!
# What a sweep does

- `satisfies_iff`: `CabinSatisfiesRegion` tells whether the mask holds every guard tag of the region, provided that each
  guard tag is among the tags it looks at;
- `Adjusts`: a sweep for a cabin changes states of its attachments only, each to the state that it should have
  (`enforceForCabinTag_spec`), and it settles every attachment within its reach.
-/

namespace BoxOS.Memory

open MemTagBitmapIndex List Option

/-! ## Lists -/

theorem mem_take_of_countP {α : Type*} {R : α → α → Prop} [DecidableRel R] {l : List α} (h : l.Pairwise R) {x : α}
    (hx : x ∈ l) {n : Nat} (hn : l.countP (fun y => decide (R y x)) < n) : x ∈ l.take n := by
  obtain ⟨a, b, rfl⟩ := append_of_mem hx
  have hbefore : ∀ y ∈ a, R y x := fun y hy => (pairwise_append.mp h).2.2 y hy x mem_cons_self
  have hcount : a.countP (fun y => decide (R y x)) = a.length :=
    countP_eq_length.mpr fun y hy => decide_eq_true (hbefore y hy)
  rw [countP_append, hcount] at hn
  rw [take_append]
  apply mem_append_right
  rw [take_cons (by omega)]
  exact mem_cons_self

theorem eq_of_key {α β : Type*} {key : α → β} {l : List α} (h : (l.map key).Nodup) {a b : α} (ha : a ∈ l) (hb : b ∈ l)
    (hk : key a = key b) : a = b :=
  inj_on_of_nodup_map h ha hb hk

/-! ## Attachments of a region -/

theorem map_key_setFirst (ctx va : Nat) (st : AttachState) (as : List MemRegionAttach) :
    (setFirst ctx va st as).map (·.key) = as.map (·.key) := by
  induction as with
  | nil => rfl
  | cons a as ih =>
    unfold setFirst
    split
    · rfl
    · exact congrArg (a.key :: ·) ih

variable {as : List MemRegionAttach}

theorem mem_setFirst {ctx va : Nat} {st : AttachState} (h : (as.map (·.key)).Nodup) {a' : MemRegionAttach}
    (ha : a' ∈ setFirst ctx va st as) :
    ∃ a ∈ as, a.key = a'.key ∧ if a.key = (ctx, va) then a'.state = st else a' = a := by
  induction as with
  | nil => cases ha
  | cons a as ih =>
    obtain ⟨hnot, hrest⟩ := nodup_cons.mp h
    unfold setFirst at ha
    split at ha
    · rename_i hkey
      have hkey' : a.key = (ctx, va) := Prod.ext hkey.1 hkey.2
      rcases mem_cons.mp ha with rfl | ha
      · exact ⟨a, mem_cons_self, rfl, by rw [if_pos hkey']⟩
      · have hne : a'.key ≠ (ctx, va) := fun he =>
          hnot (List.mem_map.mpr ⟨a', ha, he.trans hkey'.symm⟩)
        exact ⟨a', mem_cons_of_mem _ ha, rfl, by rw [if_neg hne]⟩
    rename_i hkey
    rcases mem_cons.mp ha with rfl | ha
    · have hne : a'.key ≠ (ctx, va) := fun he => hkey ⟨congrArg Prod.fst he, congrArg Prod.snd he⟩
      exact ⟨a', mem_cons_self, rfl, by rw [if_neg hne]⟩
    · obtain ⟨b, hb, hbk, hif⟩ := ih hrest ha
      exact ⟨b, mem_cons_of_mem _ hb, hbk, hif⟩

theorem attachAt_keys {ctx va : Nat} (h : (as.map (·.key)).Nodup) : ((attachAt ctx va as).map (·.key)).Nodup := by
  unfold attachAt
  split
  · rw [map_key_setFirst]
    exact h
  rename_i hnone
  refine nodup_cons.mpr ⟨fun hin => hnone ?_, h⟩
  obtain ⟨a, ha, hk⟩ := List.mem_map.mp hin
  exact List.any_eq_true.mpr ⟨a, ha, decide_eq_true hk⟩

theorem mem_attachAt {ctx va : Nat} (h : (as.map (·.key)).Nodup) {a : MemRegionAttach}
    (ha : a ∈ attachAt ctx va as) : a ∈ as ∨ a.ctx = ctx ∧ a.state = .active := by
  unfold attachAt at ha
  split at ha
  · obtain ⟨b, hb, hk, hif⟩ := mem_setFirst h ha
    split at hif
    · rename_i hkey
      exact .inr ⟨congrArg Prod.fst (hk.symm.trans hkey), hif⟩
    · exact .inl (hif ▸ hb)
  · rcases mem_cons.mp ha with rfl | ha
    · exact .inr ⟨rfl, rfl⟩
    · exact .inl ha

namespace MemTagState

variable {s s' s'' : MemTagState} {masks : Nat → TagMask} {mask : TagMask} {ctx id : Nat} {t u : UInt16}

/-! ## States with the same tags -/

/-- Regions, tags and slots are the same; attachments and the index may differ. -/
structure SameTags (s s' : MemTagState) : Prop where
  tags : s'.tags = s.tags
  slots : s'.slots.length = s.slots.length
  cap : s'.slotCap = s.slotCap
  free : s'.freeStack = s.freeStack
  lists : ∀ j, (s'.region j).map (·.tagIds) = (s.region j).map (·.tagIds)

theorem SameTags.refl (s : MemTagState) : SameTags s s := ⟨rfl, rfl, rfl, rfl, fun _ => rfl⟩

theorem SameTags.trans (h : SameTags s s') (h' : SameTags s' s'') : SameTags s s'' :=
  ⟨h'.tags.trans h.tags, h'.slots.trans h.slots, h'.cap.trans h.cap, h'.free.trans h.free,
    fun j => (h'.lists j).trans (h.lists j)⟩

theorem carries_lists (h : ∀ j, (s'.region j).map (·.tagIds) = (s.region j).map (·.tagIds)) :
    s'.carries = s.carries := by
  funext u j
  have hj := h j
  unfold carries
  cases hr : s.region j with
  | none =>
    rw [hr] at hj
    rw [map_eq_none_iff.mp hj]
  | some r =>
    rw [hr] at hj
    obtain ⟨r', hr', he⟩ := map_eq_some_iff.mp hj
    rw [hr']
    simp only [he]

theorem SameTags.carries (h : SameTags s s') : s'.carries = s.carries := carries_lists h.lists

theorem SameTags.region (h : SameTags s s') {r' : MemRegion} (hr : s'.region id = some r') :
    ∃ r, s.region id = some r ∧ r'.tagIds = r.tagIds := by
  have hj := h.lists id
  rw [hr] at hj
  obtain ⟨r, hr, he⟩ := map_eq_some_iff.mp hj.symm
  exact ⟨r, hr, he.symm⟩

theorem SameTags.symm (h : SameTags s s') : SameTags s' s :=
  ⟨h.tags.symm, h.slots.symm, h.cap.symm, h.free.symm, fun j => (h.lists j).symm⟩

theorem SameTags.isGuard (h : SameTags s s') (u : UInt16) : s'.isGuard u = s.isGuard u := by
  unfold MemTagState.isGuard
  rw [h.tags]

theorem SameTags.listTags (h : SameTags s s') (id max : Nat) :
    s'.registryListTags id max = s.registryListTags id max := by
  unfold registryListTags
  cases hr : s'.region id with
  | none =>
    have hj := h.lists id
    rw [hr] at hj
    rw [map_eq_none_iff.mp hj.symm]
  | some r' =>
    obtain ⟨r, hr, he⟩ := h.region hr
    rw [hr]
    simp only [he]

theorem SameTags.satisfies (h : SameTags s s') (mask : TagMask) (id : Nat) :
    s'.cabinSatisfiesRegion mask id = s.cabinSatisfiesRegion mask id := by
  unfold cabinSatisfiesRegion guardsOnRegion
  rw [h.listTags, funext h.isGuard]

theorem SameTags.coherent (h : SameTags s s') (hs : s.Coherent) (hindex : IndexInv s'.index s.carries)
    (hgrown : Grown s'.index) : s'.Coherent := by
  refine ⟨fun j r hr => ?_, fun j r hr u hu => ?_, h.carries ▸ hindex, hgrown, ?_, ?_, ?_, fun j hj => ?_, ?_⟩
  · obtain ⟨q, hq, he⟩ := h.region hr
    exact he ▸ hs.sorted j q hq
  · obtain ⟨q, hq, he⟩ := h.region hr
    rw [h.tags]
    exact hs.valid j q hq u (he ▸ hu)
  · rw [h.slots, h.cap]
    exact hs.slots
  · exact h.cap ▸ hs.cap
  · exact h.free ▸ hs.free
  · rw [h.free] at hj
    obtain ⟨hlt, hnone⟩ := hs.inactive j hj
    refine ⟨h.slots ▸ hlt, ?_⟩
    have hl := h.lists j
    rw [hnone] at hl
    exact map_eq_none_iff.mp hl
  · exact h.tags ▸ hs.tags

/-! ## Changing the attachments of a region -/

theorem region_modifyAttaches (s : MemTagState) (id : Nat) (f : List MemRegionAttach → List MemRegionAttach) (j : Nat) :
    (s.modifyAttaches id f).region j =
      if j = id then (s.region id).map fun r => { r with attaches := f r.attaches } else s.region j := by
  unfold modifyAttaches
  cases hr : s.region id with
  | none =>
    by_cases hj : j = id
    · rw [if_pos hj, hj]
      exact hr
    · rw [if_neg hj]
  | some r =>
    refine (region_setSlot (region_lt hr) _ j).trans ?_
    rw [filter_some, if_pos (region_eq hr).2]
    rfl

theorem modifyAttaches_index (s : MemTagState) (id : Nat) (f : List MemRegionAttach → List MemRegionAttach) :
    (s.modifyAttaches id f).index = s.index := by
  unfold modifyAttaches
  split <;> rfl

theorem modifyAttaches_sameTags (s : MemTagState) (id : Nat) (f : List MemRegionAttach → List MemRegionAttach) :
    SameTags s (s.modifyAttaches id f) := by
  refine ⟨?_, ?_, ?_, ?_, fun j => ?_⟩
  · unfold modifyAttaches
    split <;> rfl
  · unfold modifyAttaches setSlot
    split
    · rfl
    · exact length_set
  · unfold modifyAttaches
    split <;> rfl
  · unfold modifyAttaches
    split <;> rfl
  · rw [region_modifyAttaches]
    by_cases hj : j = id
    · rw [if_pos hj, hj, Option.map_map]
      rfl
    · rw [if_neg hj]

/-! ## Guards of a region -/

/-- The mask holds every guard tag of the region. -/
def HoldsGuards (s : MemTagState) (mask : TagMask) (r : MemRegion) : Prop :=
  ∀ g ∈ r.tagIds, s.isGuard g = true → maskHas mask g = true

/-- The guard tag has few enough tags before it on the region to be looked at. -/
def Seen (r : MemRegion) (g : UInt16) : Prop := r.tagIds.countP (fun x => decide (x < g)) < guardsPerRegion

theorem mem_guardsOnRegion {r : MemRegion} (hr : s.region id = some r) (hsorted : r.tagIds.Pairwise (· < ·))
    (hseen : ∀ g ∈ r.tagIds, s.isGuard g = true → Seen r g) (g : UInt16) :
    g ∈ s.guardsOnRegion id guardsPerRegion ↔ g ∈ r.tagIds ∧ s.isGuard g = true := by
  have hlist : s.registryListTags id guardsPerRegion = r.tagIds.take guardsPerRegion := by
    unfold registryListTags
    rw [hr]
  have hshort : ((r.tagIds.take guardsPerRegion).filter s.isGuard).length ≤ guardsPerRegion :=
    (length_filter_le _ _).trans (length_take_le _ _)
  unfold guardsOnRegion
  rw [hlist, take_of_length_le hshort, mem_filter]
  constructor
  · rintro ⟨hmem, hg⟩
    exact ⟨mem_of_mem_take hmem, hg⟩
  · rintro ⟨hmem, hg⟩
    exact ⟨mem_take_of_countP hsorted hmem (hseen g hmem hg), hg⟩

theorem satisfies_iff {r : MemRegion} (hr : s.region id = some r) (hsorted : r.tagIds.Pairwise (· < ·))
    (hseen : ∀ g ∈ r.tagIds, s.isGuard g = true → Seen r g) :
    s.cabinSatisfiesRegion mask id = true ↔ s.HoldsGuards mask r := by
  unfold cabinSatisfiesRegion
  rw [List.all_eq_true]
  simp only [mem_guardsOnRegion hr hsorted hseen, and_imp]
  exact Iff.rfl

/-! ## One attachment -/

/-- The state that the attachments of a cabin with this mask to the region should have. -/
def target (s : MemTagState) (mask : TagMask) (id : Nat) : AttachState :=
  if s.cabinSatisfiesRegion mask id then .active else .revoked

theorem SameTags.target (h : SameTags s s') (mask : TagMask) (id : Nat) : s'.target mask id = s.target mask id := by
  unfold MemTagState.target
  rw [h.satisfies]

/-- Attachments change only to the state that they should have. -/
structure Adjusts (masks : Nat → TagMask) (s s' : MemTagState) : Prop where
  same : SameTags s s'
  region : ∀ {id r'}, s'.region id = some r' → ∃ r, s.region id = some r ∧ r'.tagIds = r.tagIds ∧
    r'.attaches.map (·.key) = r.attaches.map (·.key) ∧
    ∀ a' ∈ r'.attaches, ∃ a ∈ r.attaches, a.key = a'.key ∧ (a' = a ∨ a'.state = s.target (masks a'.ctx) id)

theorem Adjusts.of_regions (hsame : SameTags s s') (h : ∀ j, s'.region j = s.region j) : Adjusts masks s s' :=
  ⟨hsame, fun hr => ⟨_, (h _).symm.trans hr, rfl, rfl, fun a' ha => ⟨a', ha, rfl, .inl rfl⟩⟩⟩

theorem Adjusts.refl (masks : Nat → TagMask) (s : MemTagState) : Adjusts masks s s := .of_regions (.refl s) fun _ => rfl

theorem key_ctx {a b : MemRegionAttach} (h : a.key = b.key) : a.ctx = b.ctx := congrArg Prod.fst h

theorem Adjusts.trans (h : Adjusts masks s s') (h' : Adjusts masks s' s'') : Adjusts masks s s'' := by
  refine ⟨h.same.trans h'.same, fun hr => ?_⟩
  obtain ⟨r', hr', htags', hkeys', hall'⟩ := h'.region hr
  obtain ⟨r, hr, htags, hkeys, hall⟩ := h.region hr'
  refine ⟨r, hr, htags'.trans htags, hkeys'.trans hkeys, fun a'' ha'' => ?_⟩
  obtain ⟨a', ha', hk', hcase'⟩ := hall' a'' ha''
  obtain ⟨a, ha, hk, hcase⟩ := hall a' ha'
  refine ⟨a, ha, hk.trans hk', ?_⟩
  rcases hcase' with rfl | hst
  · exact hcase
  · exact .inr (hst.trans (h.same.target _ _))

/-- No two attachments of a region are at the same place. -/
def KeysNodup (s : MemTagState) : Prop := ∀ j r, s.region j = some r → (r.attaches.map (·.key)).Nodup

theorem Adjusts.keys (h : Adjusts masks s s') (hs : s.KeysNodup) : s'.KeysNodup := by
  intro j r hr
  obtain ⟨q, hq, -, hkeys, -⟩ := h.region hr
  exact hkeys ▸ hs j q hq

/-- The attachments at the place have the state that they should have. -/
def Settled (masks : Nat → TagMask) (s : MemTagState) (place : Nat × Nat × Nat) : Prop :=
  ∀ r, s.region place.1 = some r → ∀ a ∈ r.attaches, a.key = place.2 → a.state = s.target (masks a.ctx) place.1

theorem Adjusts.settled (h : Adjusts masks s s') {place : Nat × Nat × Nat} (hs : s.Settled masks place) :
    s'.Settled masks place := by
  intro r' hr a' ha hk
  rw [h.same.target]
  obtain ⟨r, hrs, -, -, hall⟩ := h.region hr
  obtain ⟨a, ha', hka, rfl | hst⟩ := hall a' ha
  · exact hs r hrs a' ha' hk
  · exact hst

/-- An attachment of the cabin gets the state that it should have. -/
theorem setAttachState_adjusts (hkeys : s.KeysNodup) {va : Nat} {st : AttachState}
    (hst : st = s.target (masks ctx) id) :
    Adjusts masks s (s.setAttachState id ctx va st) ∧ (s.setAttachState id ctx va st).Settled masks (id, ctx, va) := by
  have hmem : ∀ r, s.region id = some r → ∀ a' ∈ setFirst ctx va st r.attaches, ∃ a ∈ r.attaches,
      a.key = a'.key ∧ if a.key = (ctx, va) then a'.state = st else a' = a := fun r hr a' ha' =>
    mem_setFirst (hkeys id r hr) ha'
  have hctx : ∀ {a : MemRegionAttach}, a.key = (ctx, va) → a.ctx = ctx := fun h => congrArg Prod.fst h
  have hsame := modifyAttaches_sameTags s id (setFirst ctx va st)
  refine ⟨⟨hsame, fun {j r'} hr => ?_⟩, fun r' hr a' ha' hk => ?_⟩
  · unfold setAttachState at hr
    rw [region_modifyAttaches] at hr
    split at hr
    · rename_i hj
      obtain ⟨r, hrs, rfl⟩ := map_eq_some_iff.mp hr
      refine ⟨r, hj ▸ hrs, rfl, map_key_setFirst _ _ _ _, fun a' ha' => ?_⟩
      obtain ⟨a, ha, hk, hif⟩ := hmem r hrs a' ha'
      refine ⟨a, ha, hk, ?_⟩
      split at hif
      · rename_i hkey
        rw [hj, hctx (hk.symm.trans hkey)]
        exact .inr (hif.trans hst)
      · exact .inl hif
    · exact ⟨r', hr, rfl, rfl, fun a' ha' => ⟨a', ha', rfl, .inl rfl⟩⟩
  · unfold setAttachState at hr
    rw [region_modifyAttaches, if_pos rfl] at hr
    obtain ⟨r, hrs, rfl⟩ := map_eq_some_iff.mp hr
    obtain ⟨a, -, hka, hif⟩ := hmem r hrs a' ha'
    rw [if_pos (hka.trans hk)] at hif
    rw [setAttachState, hsame.target, hctx hk]
    exact hif.trans hst

/-! ## The sweep of a region -/

/-- A sweep in this direction can give the attachment the state that it should have. -/
def Correctable (s : MemTagState) (mask : TagMask) (revoke : Bool) (id : Nat) (a : MemRegionAttach) : Prop :=
  a.state = s.target mask id ∨ a.state = if revoke then .active else .revoked

theorem SameTags.correctable (h : SameTags s s') {revoke : Bool} {a : MemRegionAttach}
    (hc : s.Correctable mask revoke id a) : s'.Correctable mask revoke id a := by
  unfold Correctable
  rw [h.target]
  exact hc

/-- The copy of an attachment of the cabin is right, or can be corrected and is what stands at its place; what else
stands there is settled. -/
structure Fresh (masks : Nat → TagMask) (ctx id : Nat) (revoke : Bool) (s : MemTagState) (att : MemRegionAttach) :
    Prop where
  cabin : att.ctx = ctx
  correctable : s.Correctable (masks ctx) revoke id att
  current : ∀ r, s.region id = some r → ∀ a ∈ r.attaches, a.key = att.key → a = att ∨ a.state = s.target (masks ctx) id

theorem Fresh.adjusts {revoke : Bool} {att : MemRegionAttach} (hadj : Adjusts masks s s')
    (h : Fresh masks ctx id revoke s att) : Fresh masks ctx id revoke s' att := by
  refine ⟨h.cabin, hadj.same.correctable h.correctable, fun r' hr' a' ha' hk => ?_⟩
  rw [hadj.same.target]
  obtain ⟨r, hr, -, -, hall⟩ := hadj.region hr'
  obtain ⟨a, ha, hka, rfl | hst⟩ := hall a' ha'
  · exact h.current r hr a' ha hk
  · rw [key_ctx hk, h.cabin] at hst
    exact .inr hst

theorem enforceAttach_spec (hkeys : s.KeysNodup) (revoke : Bool) (att : MemRegionAttach) :
    Adjusts masks s (enforceAttach (masks ctx) ctx id revoke s att) ∧ (Fresh masks ctx id revoke s att →
    (enforceAttach (masks ctx) ctx id revoke s att).Settled masks (id, att.key)) := by
  -- it is left alone because it has the right state
  have hkeep : att.state = s.target (masks ctx) id → Fresh masks ctx id revoke s att →
      s.Settled masks (id, att.key) := by
    intro hst h r hr a ha hk
    rw [key_ctx hk, h.cabin]
    rcases h.current r hr a ha hk with rfl | hdone
    · exact hst
    · exact hdone
  -- or it is set to it
  have hset : ∀ st, att.ctx = ctx → st = s.target (masks ctx) id →
      Adjusts masks s (s.setAttachState id att.ctx att.vaBase st) ∧
        (s.setAttachState id att.ctx att.vaBase st).Settled masks (id, att.key) := by
    rintro st rfl hst
    exact setAttachState_adjusts hkeys hst
  unfold enforceAttach
  split
  · rename_i hne
    exact ⟨.refl masks s, fun h => absurd h.cabin hne⟩
  rename_i hctx
  have hctx : att.ctx = ctx := not_not.mp hctx
  cases revoke with
  | true =>
    simp only [if_true]
    split
    · rename_i hst
      exact ⟨.refl masks s, fun h => hkeep (h.correctable.resolve_right hst) h⟩
    rename_i hst
    cases hsat : s.cabinSatisfiesRegion (masks ctx) id with
    | true =>
      have ht : s.target (masks ctx) id = .active := by rw [target, hsat, if_pos rfl]
      exact ⟨.refl masks s, hkeep ((not_not.mp hst).trans ht.symm)⟩
    | false =>
      have ht : s.target (masks ctx) id = .revoked := by rw [target, hsat, if_neg Bool.false_ne_true]
      obtain ⟨h1, h2⟩ := hset .revoked hctx ht.symm
      exact ⟨h1, fun _ => h2⟩
  | false =>
    simp only [Bool.false_eq_true, if_false]
    split
    · rename_i hst
      exact ⟨.refl masks s, fun h => hkeep (h.correctable.resolve_right hst) h⟩
    rename_i hst
    cases hsat : s.cabinSatisfiesRegion (masks ctx) id with
    | true =>
      have ht : s.target (masks ctx) id = .active := by rw [target, hsat, if_pos rfl]
      obtain ⟨h1, h2⟩ := hset .active hctx ht.symm
      exact ⟨h1, fun _ => h2⟩
    | false =>
      have ht : s.target (masks ctx) id = .revoked := by rw [target, hsat, if_neg Bool.false_ne_true]
      exact ⟨.refl masks s, hkeep ((not_not.mp hst).trans ht.symm)⟩

/-- At the place stands one of the first attachments of the region, one of the cabin's, and all of these can be
corrected. -/
structure Swept (masks : Nat → TagMask) (ctx : Nat) (revoke : Bool) (s : MemTagState) (id : Nat) (k : Nat × Nat) :
    Prop where
  region : ∃ r, s.region id = some r ∧ k ∈ (r.attaches.take enforceAttachesPerRegion).map (·.key) ∧
    ∀ a ∈ r.attaches, a.ctx = ctx → s.Correctable (masks ctx) revoke id a
  cabin : k.1 = ctx

theorem Swept.adjusts {revoke : Bool} {k : Nat × Nat} (hadj : Adjusts masks s s') (h : Swept masks ctx revoke s id k) :
    Swept masks ctx revoke s' id k := by
  obtain ⟨⟨r, hr, hk, hcor⟩, hctx⟩ := h
  obtain ⟨r', hr', -⟩ := hadj.same.symm.region hr
  obtain ⟨q, hq, -, hkeys, hall⟩ := hadj.region hr'
  rw [hr] at hq
  cases hq
  refine ⟨⟨r', hr', ?_, fun a' ha' hactx => ?_⟩, hctx⟩
  · rwa [map_take, hkeys, ← map_take]
  · apply hadj.same.correctable
    obtain ⟨a, ha, hka, rfl | hst⟩ := hall a' ha'
    · exact hcor a' ha hactx
    · exact .inl (hactx ▸ hst)

/-- The sweep of a region settles the cabin's attachments among the first ones. -/
theorem enforceRegion_spec (masks : Nat → TagMask) (ctx : Nat) (revoke : Bool) (id : Nat) (hkeys : s.KeysNodup) :
    Adjusts masks s (enforceRegion (masks ctx) ctx revoke s id) ∧
      ∀ k, Swept masks ctx revoke s id k → (enforceRegion (masks ctx) ctx revoke s id).Settled masks (id, k) := by
  obtain ⟨-, hadj, hset⟩ := Lib.foldl_settles (G := KeysNodup) (A := Adjusts masks)
    (C := fun s att k => k = att.key ∧ Fresh masks ctx id revoke s att) (D := fun s k => s.Settled masks (id, k))
    (f := enforceAttach (masks ctx) ctx id revoke) (Adjusts.refl masks) Adjusts.trans
    (fun h att => ⟨(enforceAttach_spec h revoke att).1.keys h, (enforceAttach_spec h revoke att).1⟩)
    (fun h att k hc => hc.1 ▸ (enforceAttach_spec h revoke att).2 hc.2)
    (fun hadj att k hc => ⟨hc.1, hc.2.adjusts hadj⟩) (fun hadj k hd => hadj.settled hd)
    (s.snapshotAttachs id enforceAttachesPerRegion) hkeys
  refine ⟨hadj, fun k h => ?_⟩
  obtain ⟨⟨r, hr, hk, hcor⟩, hctx⟩ := h
  obtain ⟨att, hatt, rfl⟩ := List.mem_map.mp hk
  have hsnap : s.snapshotAttachs id enforceAttachesPerRegion = r.attaches.take enforceAttachesPerRegion := by
    unfold snapshotAttachs
    rw [hr]
  have hmem := mem_of_mem_take hatt
  refine hset att (hsnap ▸ hatt) att.key ⟨rfl, hctx, hcor att hmem hctx, fun q hq a ha hka => .inl ?_⟩
  rw [hr] at hq
  cases hq
  exact eq_of_key (hkeys id r hr) ha hmem hka

theorem enforceRegion_foldl (masks : Nat → TagMask) (ctx : Nat) (revoke : Bool) (ids : List Nat) (hkeys : s.KeysNodup) :
    Adjusts masks s (ids.foldl (enforceRegion (masks ctx) ctx revoke) s) ∧ ∀ id ∈ ids, ∀ k,
    Swept masks ctx revoke s id k → (ids.foldl (enforceRegion (masks ctx) ctx revoke) s).Settled masks (id, k) := by
  obtain ⟨-, hadj, hset⟩ := Lib.foldl_settles (G := KeysNodup) (A := Adjusts masks)
    (C := fun s id place => place.1 = id ∧ Swept masks ctx revoke s id place.2)
    (D := fun s place => s.Settled masks place)
    (f := enforceRegion (masks ctx) ctx revoke) (Adjusts.refl masks) Adjusts.trans
    (fun h id => ⟨(enforceRegion_spec masks ctx revoke id h).1.keys h, (enforceRegion_spec masks ctx revoke id h).1⟩)
    (fun h id place hc => hc.1 ▸ (enforceRegion_spec masks ctx revoke id h).2 place.2 hc.2)
    (fun hadj id place hc => ⟨hc.1, hc.2.adjusts hadj⟩) (fun hadj place hd => hadj.settled hd) ids hkeys
  exact ⟨hadj, fun id hid k h => hset id hid (id, k) ⟨rfl, h⟩⟩

/-! ## The query of a sweep -/

theorem enforceRegion_index (mask : TagMask) (ctx : Nat) (revoke : Bool) (s : MemTagState) (id : Nat) :
    (enforceRegion mask ctx revoke s id).index = s.index := by
  refine Lib.foldl_keeps (·.index) (fun s att => ?_) _ s
  unfold enforceAttach setAttachState
  split
  · rfl
  split
  · split
    · rfl
    · split
      · rfl
      · exact modifyAttaches_index s _ _
  split
  · rfl
  · split
    · rfl
    · exact modifyAttaches_index s _ _

/-- A query changes the cache only; what it stores has its own limit. -/
theorem queryCore_fields (idx : MemTagBitmapIndex) (q : MemTagQuery) (max : Nat) (al : Allocs) :
    ∃ es n, (idx.queryCore q max al).2 = { idx with cache := es, cacheCounter := n } ∧
      ∀ e ∈ es, e.used = true → e.limit = max ∨ ∃ e0 ∈ idx.cache, e0.used = true ∧ e.limit = e0.limit := by
  have hold : ∀ e ∈ idx.cache, e.used = true → e.limit = max ∨ ∃ e0 ∈ idx.cache, e0.used = true ∧ e.limit = e0.limit :=
    fun e he hused => .inr ⟨e, he, hused, rfl⟩
  have hset : ∀ i (new : QueryCacheEntry),
      (new.used = true → new.limit = max ∨ ∃ e0 ∈ idx.cache, e0.used = true ∧ new.limit = e0.limit) →
      ∀ e ∈ idx.cache.set i new, e.used = true →
      e.limit = max ∨ ∃ e0 ∈ idx.cache, e0.used = true ∧ e.limit = e0.limit := by
    intro i new hnew e he hused
    rcases mem_or_eq_of_mem_set he with he | rfl
    · exact hold e he hused
    · exact hnew hused
  have hcleared : QueryCacheEntry.cleared.used = true → QueryCacheEntry.cleared.limit = max ∨
      ∃ e0 ∈ idx.cache, e0.used = true ∧ QueryCacheEntry.cleared.limit = e0.limit := fun hused => by cases hused
  unfold queryCore
  split
  · exact ⟨_, _, rfl, hold⟩
  split
  · rename_i i hi
    obtain ⟨hmem, hhit⟩ := lookup_spec hi
    exact ⟨_, _, rfl, hset i _ fun _ => .inr ⟨_, hmem, (hits_spec hhit).1, rfl⟩⟩
  unfold queryMiss
  split
  · exact ⟨_, _, rfl, hold⟩
  unfold cacheStore
  simp only
  split
  · exact ⟨_, _, rfl, hset _ _ hcleared⟩
  · split
    · exact ⟨_, _, rfl, hset _ _ hcleared⟩
    · exact ⟨_, _, rfl, hset _ _ fun _ => .inl rfl⟩

/-- The registries as every call leaves them: what the cache holds is current or stale, each entry was stored with the
limit of a sweep, and every guard tag is among the tags of its regions that are looked at. -/
structure Ready (s : MemTagState) : Prop where
  coherent : s.Coherent
  cache : CacheInv s.index s.carries
  limits : ∀ e ∈ s.index.cache, e.used = true → e.limit = enforceRegionsPerCall
  keys : s.KeysNodup
  seen : ∀ id r, s.region id = some r → ∀ g ∈ r.tagIds, s.isGuard g = true → Seen r g

/-- The region is among the first ones with the tag that a query returns. -/
def Listed (s : MemTagState) (t : UInt16) (id : Nat) : Prop :=
  s.carries t id = true ∧ (List.range id).countP (s.carries t) < enforceRegionsPerCall

instance (s : MemTagState) (t : UInt16) (id : Nat) : Decidable (s.Listed t id) := inferInstanceAs (Decidable (_ ∧ _))

theorem Adjusts.listed (h : Adjusts masks s s') (hl : s.Listed t id) : s'.Listed t id := by
  unfold Listed at hl ⊢
  rw [h.same.carries]
  exact hl

theorem Ready.query (h : Ready s) (t : UInt16) (al : Allocs) {reply : Reply} {index : MemTagBitmapIndex}
    (hq : s.index.queryCore (.and [t]) enforceRegionsPerCall al = (reply, index)) : IndexInv index s.carries ∧
    CacheInv index s.carries ∧ (al.workspace = true → ∀ id, s.Listed t id → id ∈ reply.out.take reply.count) := by
  have hmatch : ∀ r, Matches s.carries (.and [t]) r = s.carries t r := fun r => by
    simp [Matches, MemTagQuery.required, MemTagQuery.any, MemTagQuery.excluded]
  by_cases hempty : s.index.lookup (.and [t]) = none ∧ al.workspace = false
  · -- nothing is cached and the workspace cannot be allocated
    have hmiss : s.index.queryCore (.and [t]) enforceRegionsPerCall al = (⟨0, []⟩, s.index) := by
      unfold queryCore queryMiss
      rw [if_neg (by decide), hempty.1]
      rw [if_pos (.inr hempty.2)]
    obtain ⟨-, rfl⟩ := Prod.mk.inj (hmiss.symm.trans hq)
    refine ⟨h.coherent.index, h.cache, fun hw => ?_⟩
    rw [hempty.2] at hw
    cases hw
  · have hmeets : TagIndexState.Meets ⟨s.index, s.carries⟩ (.query (.and [t]) enforceRegionsPerCall al) := by
      refine ⟨by simp [MemTagQuery.tagCount, MemTagQuery.required, MemTagQuery.any, MemTagQuery.excluded], fun _ => ?_⟩
      have hmixed : MemTagQuery.queryType (.and [t]) ≠ 2 := show ¬(0 : UInt8) = 2 by decide
      cases hl : s.index.lookup (.and [t]) with
      | none =>
        have hw : al.workspace = true := by
          cases hw : al.workspace with
          | true => rfl
          | false => exact absurd ⟨hl, hw⟩ hempty
        exact ⟨hw, fun hm => absurd hm hmixed, fun hno => hno.elim⟩
      | some i =>
        obtain ⟨hmem, hhit⟩ := lookup_spec hl
        exact ⟨fun hm => absurd hm hmixed, .inl (h.limits _ hmem (hits_spec hhit).1)⟩
    obtain ⟨⟨-, hcount, all, hsorted, hall, hout⟩, hinv⟩ :=
      TagIndexState.query_spec (s := ⟨s.index, s.carries⟩) ⟨h.coherent.index, h.cache⟩ hmeets
    unfold TagIndexState.next at hinv
    simp only [hq] at hcount hout hinv
    refine ⟨hinv.index, hinv.cache, fun _ id hid => ?_⟩
    rw [hcount, take_length, hout]
    apply mem_take_of_countP hsorted ((hall id).mpr ((hmatch id).trans hid.1))
    refine lt_of_le_of_lt ?_ hid.2
    rw [countP_eq_length_filter, countP_eq_length_filter]
    apply Subperm.length_le
    apply subperm_of_subset ((hsorted.imp fun {a b} (hlt : a < b) => Nat.ne_of_lt hlt).filter _)
    intro j hj
    obtain ⟨hj, hlt⟩ := mem_filter.mp hj
    exact mem_filter.mpr ⟨mem_range.mpr (of_decide_eq_true hlt), (hmatch j).symm.trans ((hall j).mp hj)⟩

theorem enforceForCabinTag_spec (h : Ready s) (masks : Nat → TagMask) (ctx : Nat) (t : UInt16) (revoke : Bool)
    (al : Allocs) : Ready (s.enforceForCabinTag (masks ctx) ctx t revoke al) ∧
    Adjusts masks s (s.enforceForCabinTag (masks ctx) ctx t revoke al) ∧ (al.workspace = true → ∀ id k, s.Listed t id →
    Swept masks ctx revoke s id k → (s.enforceForCabinTag (masks ctx) ctx t revoke al).Settled masks (id, k)) := by
  unfold enforceForCabinTag
  obtain ⟨es, n, hfields, hlimits⟩ := queryCore_fields s.index (.and [t]) enforceRegionsPerCall al
  obtain ⟨reply, index, hq⟩ : ∃ reply index,
      s.index.queryCore (.and [t]) enforceRegionsPerCall al = (reply, index) := ⟨_, _, rfl⟩
  rw [hq] at hfields ⊢
  simp only at hfields ⊢
  obtain ⟨hindex, hcache, hlisted⟩ := h.query t al hq
  have hsame : SameTags s { s with index := index } := ⟨rfl, rfl, rfl, rfl, fun _ => rfl⟩
  have hfirst : Adjusts masks s { s with index := index } := .of_regions hsame fun _ => rfl
  obtain ⟨hadj, hset⟩ := enforceRegion_foldl masks ctx revoke (reply.out.take reply.count)
    (hfirst.keys h.keys)
  have hidx := Lib.foldl_keeps (·.index) (enforceRegion_index (masks ctx) ctx revoke)
    (reply.out.take reply.count) { s with index := index }
  generalize (reply.out.take reply.count).foldl (enforceRegion (masks ctx) ctx revoke) { s with index := index } = s'
    at *
  have hall := hfirst.trans hadj
  refine ⟨⟨hall.same.coherent h.coherent (hidx ▸ hindex) ?_, ?_, ?_, hall.keys h.keys, fun id r' hr g hg hguard => ?_⟩,
    hall, fun hw id k hid hk => hset id (hlisted hw id hid) k (hk.adjusts hfirst)⟩
  · rw [hidx, hfields]
    exact ⟨h.coherent.grown.array, h.coherent.grown.bits⟩
  · rw [hidx, hall.same.carries]
    exact hcache
  · rw [hidx, hfields]
    intro e he hused
    rcases hlimits e he hused with hmax | ⟨e0, he0, hused0, hlim⟩
    · exact hmax
    · exact hlim.trans (h.limits e0 he0 hused0)
  · obtain ⟨r, hr, hids⟩ := hall.same.region hr
    unfold Seen
    rw [hids]
    exact h.seen id r hr g (hids ▸ hg) ((hall.same.isGuard g).symm.trans hguard)

end MemTagState

end BoxOS.Memory
