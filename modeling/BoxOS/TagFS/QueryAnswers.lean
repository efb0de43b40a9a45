import BoxOS.TagFS.QueryFiles

/-!
# What a query by text answers

`Correct` is what a query should return: the first files, in increasing order, that satisfy every query string and are
not hidden by a well-known tag that the query does not name. `queryFiles_eq` says what it does return, from the files
that `Matched` what is left of the strings; `query_files_correct_iff` compares the two.

The two differ when a string is passed over (`Overlooked`), when a well-known tag has an id of 64 or more and so no
mask, and when hidden files take places among the first `maxResults` matches.
-/

namespace BoxOS.TagFS

open Lib List

/-! ## The registry of a mounted volume -/

/-- The registry finds exactly the tags of the list, each under its position, and groups them by key. -/
structure TagRegistry.Finds (reg : TagRegistry) (tags : List TagPair) : Prop where
  nodup : tags.Nodup
  length_le : tags.length ≤ maxTagId + 1
  lookup : ∀ key value t, tagRegistryLookup reg key value = some t ↔ ∃ i, tags[i]? = some (key, value) ∧ t = idAt i
  group : ∀ key, (tagRegistryKeyGroup reg key).map (·.tagIds) =
    if groupIds tags key = [] then none else some (groupIds tags key)

variable {tags : List TagPair}

variable {reg : TagRegistry}

theorem TagRegistry.Inv.finds (h : reg.Inv tags) : reg.Finds tags :=
  ⟨h.nodup, h.length_le, fun _ _ _ => lookup_eq_some_iff h, h.group⟩

/-- The masks are those of the ids in the registry. -/
structure WellKnownTags.Ok (wk : WellKnownTags) (reg : TagRegistry) : Prop where
  trashed : wk.trashed = wellKnownMask (tagRegistryLookup reg trashedKey none)
  hidden : wk.hidden = wellKnownMask (tagRegistryLookup reg hiddenKey none)

/-! ## The strings of a query -/

/-- The id is one of the tags or in one of the groups. -/
def Mentions (tagIds : List TagId) (groups : List QueryGroup) (t : TagId) : Prop :=
  t ∈ tagIds ∨ ∃ g ∈ groups, t ∈ g.getD []

/-- What the strings `qs` add to what the index is asked for; strings that are passed over add nothing. -/
structure Collects (tags : List TagPair) (c : Carries) (qs : List CStr) (tagIds tagIds' : List TagId)
    (groups groups' : List QueryGroup) : Prop where
  iff : ∀ f, Matches c tagIds' groups' f = true ↔ Matches c tagIds groups f = true ∧
    ∀ q ∈ qs, (readTerm q).Dropped tags ∨ (readTerm q).Holds tags c f
  given : Given tagIds' groups' ↔ Given tagIds groups ∨ ∃ q ∈ qs, ¬ (readTerm q).Dropped tags
  names : ∀ i key, tags[i]? = some (key, none) → (Mentions tagIds' groups' (idAt i) ↔
    Mentions tagIds groups (idAt i) ∨ ∃ q ∈ qs, (readTerm q).Names key)

section Collect

variable {reg : TagRegistry} {tags : List TagPair} (h : reg.Finds tags) (c : Carries)

include h

variable {p : TagPair}

theorem TagRegistry.Finds.index {i j : Nat} (hi : tags[i]? = some p) (hj : tags[j]? = some p) : i = j :=
  (getElem?_inj (List.getElem?_eq_some_iff.mp hi).1 h.nodup).mp (hi.trans hj.symm)

variable {q : CStr}

theorem TagRegistry.Finds.idAt_eq {i j : Nat} {q : TagPair} (hi : tags[i]? = some p) (hj : tags[j]? = some q)
    (hij : idAt i = idAt j) : i = j := by
  have hlen := h.length_le
  have hi' := (List.getElem?_eq_some_iff.mp hi).1
  have hj' := (List.getElem?_eq_some_iff.mp hj).1
  simp only [maxTagId] at hlen
  exact idAt_inj (by omega) (by omega) hij

theorem holds_tag_iff {i : Nat} (hi : tags[i]? = some p) (f : Nat) :
    (QueryTerm.tag p).Holds tags c f ↔ c (idAt i) f = true := by
  constructor
  · rintro ⟨j, hj, hc⟩
    rwa [h.index hi hj]
  · exact fun hc => ⟨i, hi, hc⟩

omit h in
theorem holds_any_iff (key : CStr) (f : Nat) :
    (QueryTerm.any key).Holds tags c f ↔ (groupIds tags key).any (c · f) = true := by
  rw [any_eq_true]
  constructor
  · rintro ⟨i, p, hi, hk, hc⟩
    exact ⟨idAt i, mem_groupIds.mpr ⟨i, p, hi, hk, rfl⟩, hc⟩
  · rintro ⟨t, ht, hc⟩
    obtain ⟨i, p, hi, hk, rfl⟩ := mem_groupIds.mp ht
    exact ⟨i, p, hi, hk, hc⟩

omit h in
theorem dropped_any_iff (key : CStr) : (QueryTerm.any key).Dropped tags ↔ groupIds tags key = [] := by
  rw [eq_nil_iff_forall_not_mem]
  constructor
  · intro hdrop t ht
    obtain ⟨i, p, hi, hk, -⟩ := mem_groupIds.mp ht
    exact hdrop p (mem_of_getElem? hi) hk
  · intro hnil p hp hk
    obtain ⟨i, hi⟩ := mem_iff_getElem?.mp hp
    exact hnil (idAt i) (mem_groupIds.mpr ⟨i, p, hi, hk, rfl⟩)

omit h in
theorem Collects.cons {qs : List CStr} {tagIds tagIds₁ tagIds' : List TagId} {groups groups₁ groups' : List QueryGroup}
    (hone : Collects tags c [q] tagIds tagIds₁ groups groups₁)
    (hrest : Collects tags c qs tagIds₁ tagIds' groups₁ groups') :
    Collects tags c (q :: qs) tagIds tagIds' groups groups' where
  iff f := by
    simp only [hrest.iff, hone.iff, mem_cons, not_mem_nil, or_false, forall_eq_or_imp, forall_eq, and_assoc]
  given := by
    simp only [hrest.given, hone.given, mem_cons, not_mem_nil, or_false, exists_eq_or_imp, exists_eq_left,
      or_assoc]
  names i key hi := by
    simp only [hrest.names i key hi, hone.names i key hi, mem_cons, not_mem_nil, or_false, exists_eq_or_imp,
      exists_eq_left, or_assoc]

omit h in
theorem Collects.dropped {key : CStr} (hterm : readTerm q = .any key) (hdrop : groupIds tags key = [])
    (tagIds : List TagId) (groups : List QueryGroup) : Collects tags c [q] tagIds tagIds groups groups := by
  have hd := (dropped_any_iff key).mpr hdrop
  refine ⟨?_, ?_, ?_⟩
  · simp [hterm, hd]
  · simp [hterm, hd]
  · intro i k hi
    have hno : ¬ (QueryTerm.any key).Names k := fun hk => hd (k, none) (mem_of_getElem? hi) hk.symm
    simp [hterm, hno]

theorem Collects.group {key : CStr} (hterm : readTerm q = .any key) (hne : groupIds tags key ≠ []) (tagIds : List TagId)
    (groups : List QueryGroup) : Collects tags c [q] tagIds tagIds groups (groups ++ [some (groupIds tags key)]) := by
  have hd : ¬ (QueryTerm.any key).Dropped tags := fun hd => hne ((dropped_any_iff key).mp hd)
  refine ⟨?_, ?_, ?_⟩
  · intro f
    have hempty : (groupIds tags key).isEmpty = false := by simpa using hne
    simp only [Matches, all_append, all_cons, all_nil, Option.getD_some, hempty, Bool.false_or,
      Bool.and_true, Bool.and_eq_true, forall_mem_singleton, hterm, hd, false_or, holds_any_iff]
    tauto
  · simp [Given, hterm, hd, hne]
  · intro i k hi
    have hmem : idAt i ∈ groupIds tags key ↔ key = k := by
      constructor
      · intro hm
        obtain ⟨j, p, hj, hk, hij⟩ := mem_groupIds.mp hm
        obtain rfl := h.idAt_eq hi hj hij
        rw [hi] at hj
        obtain rfl := Option.some.inj hj
        exact hk.symm
      · rintro rfl
        exact mem_groupIds.mpr ⟨i, _, hi, rfl, rfl⟩
    simp only [Mentions, mem_append, mem_singleton, or_and_right, exists_or, exists_eq_left, Option.getD_some,
      hmem, hterm, QueryTerm.Names, or_assoc]

theorem Collects.tag (hterm : readTerm q = .tag p) {i : Nat} (hi : tags[i]? = some p) (tagIds : List TagId)
    (groups : List QueryGroup) : Collects tags c [q] tagIds (tagIds ++ [idAt i]) groups groups := by
  have hd : ¬ (QueryTerm.tag p).Dropped tags := fun hd => hd
  refine ⟨?_, ?_, ?_⟩
  · intro f
    simp only [Matches, all_append, all_cons, all_nil, Bool.and_true, Bool.and_eq_true,
      forall_mem_singleton, hterm, hd, false_or, holds_tag_iff h c hi]
    tauto
  · simp [Given, hterm, hd]
  · intro j k hj
    have hmem : idAt j = idAt i ↔ p = (k, none) := by
      constructor
      · intro hij
        obtain rfl := h.idAt_eq hj hi hij
        exact Option.some.inj (hi.symm.trans hj)
      · rintro rfl
        rw [h.index hi hj]
    simp only [Mentions, mem_append, mem_singleton, hmem, exists_eq_left, hterm, QueryTerm.Names]
    exact or_right_comm

/-- A query stops with nothing at a tag that is not registered; otherwise it collects. -/
theorem collect_spec (qs : List CStr) (tagIds : List TagId) (groups : List QueryGroup) :
    match collectQuery reg (qs.map some) tagIds groups with
    | none => ∃ q ∈ qs, ∃ p, readTerm q = .tag p ∧ p ∉ tags
    | some (tagIds', groups') => Collects tags c qs tagIds tagIds' groups groups' := by
  induction qs generalizing tagIds groups with
  | nil => exact ⟨fun f => by simp, by simp, fun i key _ => by simp⟩
  | cons q qs ih =>
    -- what the string adds, and then the rest of the strings
    have hnext : ∀ tagIds₁ groups₁, Collects tags c [q] tagIds tagIds₁ groups groups₁ →
        match collectQuery reg (qs.map some) tagIds₁ groups₁ with
        | none => ∃ q' ∈ q :: qs, ∃ p, readTerm q' = .tag p ∧ p ∉ tags
        | some (tagIds', groups') => Collects tags c (q :: qs) tagIds tagIds' groups groups' := by
      intro tagIds₁ groups₁ hone
      have hrest := ih tagIds₁ groups₁
      cases hcol : collectQuery reg (qs.map some) tagIds₁ groups₁ with
      | none =>
        rw [hcol] at hrest
        obtain ⟨q', hq', hp⟩ := hrest
        exact ⟨q', mem_cons_of_mem q hq', hp⟩
      | some r =>
        rw [hcol] at hrest
        exact Collects.cons c hone hrest
    have hgroup := h.group (tagfsParseTag q 256 256).1
    rw [map_cons, collectQuery]
    simp only []
    by_cases he : (tagfsParseTag q 256 256).2.1 = ellipsis
    · have hterm : readTerm q = .any (tagfsParseTag q 256 256).1 := by rw [readTerm, termOf, if_pos he]
      rw [if_pos he]
      cases hg : tagRegistryKeyGroup reg (tagfsParseTag q 256 256).1 with
      | none =>
        refine hnext tagIds groups (Collects.dropped c hterm ?_ tagIds groups)
        by_contra hne
        rw [hg, if_neg hne] at hgroup
        cases hgroup
      | some grp =>
        have hne : groupIds tags (tagfsParseTag q 256 256).1 ≠ [] := by
          intro hnil
          rw [hg, if_pos hnil] at hgroup
          cases hgroup
        rw [hg, if_neg hne] at hgroup
        simp only []
        rw [show grp.tagIds = groupIds tags (tagfsParseTag q 256 256).1 from Option.some.inj hgroup]
        exact hnext _ _ (Collects.group h c hterm hne tagIds groups)
    · have hterm : readTerm q = .tag ((tagfsParseTag q 256 256).1,
          if (tagfsParseTag q 256 256).2.1 = [] then none else some (tagfsParseTag q 256 256).2) := by
        rw [readTerm, termOf, if_neg he]
      rw [if_neg he]
      cases hl : tagRegistryLookup reg (tagfsParseTag q 256 256).1
          (if (tagfsParseTag q 256 256).2.1 = [] then none else some (tagfsParseTag q 256 256).2) with
      | none =>
        refine ⟨q, mem_cons_self, _, hterm, ?_⟩
        intro hmem
        obtain ⟨i, hi⟩ := mem_iff_getElem?.mp hmem
        rw [(h.lookup _ _ (idAt i)).mpr ⟨i, hi, rfl⟩] at hl
        cases hl
      | some t =>
        obtain ⟨i, hi, rfl⟩ := (h.lookup _ _ t).mp hl
        exact hnext _ _ (Collects.tag h c hterm hi tagIds groups)

end Collect

/-! ## What is returned -/

/-- A mounted volume with `tags` in its registry and an index that represents `c`. The strings of the registry came in
through buffers of 256 bytes. -/
structure QueryVolume.Coherent (v : QueryVolume) (tags : List TagPair) (c : Carries) : Prop where
  registry : v.registry.Finds tags
  texts : ∀ p ∈ tags, p.1.strlen ≤ 255 ∧ ∀ value ∈ p.2, value.strlen ≤ 255
  index : v.index.Inv c
  cache : v.index.CacheOk c
  wellKnown : v.wellKnown.Ok v.registry

/-- The files that match what is left of the query strings. -/
def Matched (tags : List TagPair) (c : Carries) (qs : List CStr) (f : Nat) : Prop :=
  f ≥ 1 ∧ (∃ q ∈ qs, ¬ (readTerm q).Dropped tags) ∧ ∀ q ∈ qs, (readTerm q).Dropped tags ∨ (readTerm q).Holds tags c f

/-- The file carries a well-known tag with an id below `bound` that the query does not name. -/
def HiddenBelow (bound : Nat) (tags : List TagPair) (c : Carries) (qs : List CStr) (f : Nat) : Prop :=
  ∃ key, (key = trashedKey ∨ key = hiddenKey) ∧ ∃ i < bound, tags[i]? = some (key, none) ∧ c (idAt i) f = true ∧
    ∀ q ∈ qs, ¬ (fullTerm q).Names key

/-- The file carries a well-known tag that the query does not name. -/
def Hidden (tags : List TagPair) (c : Carries) (qs : List CStr) (f : Nat) : Prop :=
  HiddenBelow tags.length tags c qs f

theorem hidden_of_hiddenBelow {bound : Nat} {c : Carries} {qs : List CStr} {f : Nat}
    (h : HiddenBelow bound tags c qs f) : Hidden tags c qs f := by
  obtain ⟨key, hkey, i, -, hi, hc, hn⟩ := h
  exact ⟨key, hkey, i, (List.getElem?_eq_some_iff.mp hi).1, hi, hc, hn⟩

theorem ctz_two_pow {width k : Nat} (hk : k < width) : ctz width (2 ^ k) = k := by
  have hlt : 2 ^ k < 2 ^ width := Nat.pow_lt_pow_right (by decide) hk
  obtain ⟨-, hset, -⟩ := ctz_spec (Nat.two_pow_pos k).ne' hlt
  rw [Nat.testBit_two_pow, decide_eq_true_eq] at hset
  exact hset.symm

/-- The id that is kept of a well-known tag: its own if it is below 64, and none otherwise. -/
theorem wellKnownId_eq_some_iff (h : reg.Finds tags) {key : CStr} {t : TagId} :
    wellKnownId (wellKnownMask (tagRegistryLookup reg key none)) = some t ↔
    ∃ i < 64, tags[i]? = some (key, none) ∧ t = idAt i := by
  cases hl : tagRegistryLookup reg key none with
  | none =>
    refine iff_of_false (by rintro ⟨⟩) ?_
    rintro ⟨i, -, hi, -⟩
    rw [(h.lookup key none (idAt i)).mpr ⟨i, hi, rfl⟩] at hl
    cases hl
  | some t' =>
    obtain ⟨i, hi, rfl⟩ := (h.lookup key none t').mp hl
    have hnat : (idAt i).toNat = i := by
      have := h.length_le
      have := (List.getElem?_eq_some_iff.mp hi).1
      simp only [maxTagId] at *
      exact idAt_toNat (by omega)
    simp only [wellKnownMask, hnat]
    by_cases hlt : i < 64
    · rw [if_pos hlt, wellKnownId, if_pos (Nat.two_pow_pos i).ne', ctz_two_pow hlt]
      constructor
      · intro heq
        exact ⟨i, hlt, hi, (Option.some.inj heq).symm⟩
      · rintro ⟨j, -, hj, rfl⟩
        rw [h.index hi hj]
    rw [if_neg hlt]
    refine iff_of_false (by rintro ⟨⟩) ?_
    rintro ⟨j, hj, hget, -⟩
    rw [h.index hi hget] at hlt
    exact hlt hj

theorem queryHas_iff {tagIds : List TagId} {groups : List QueryGroup} {t : TagId} :
    queryHas tagIds groups (some t) = true ↔ Mentions tagIds groups t := by
  simp [queryHas, Mentions]

section Returned

variable {v : QueryVolume} {tags : List TagPair} {c : Carries} (h : v.Coherent tags c)

include h

variable {qs : List CStr}

/-- One of the two well-known tags hides the file. -/
theorem skip_iff {tagIds : List TagId} {groups : List QueryGroup} (hcol : Collects tags c qs [] tagIds [] groups)
    {key : CStr} (hkey : key.strlen < 255) (mask : Nat)
    (hmask : mask = wellKnownMask (tagRegistryLookup v.registry key none)) (f : Nat) :
    (∃ t, c t f = true ∧ (!queryHas tagIds groups (wellKnownId mask) && (wellKnownId mask).isSome) = true ∧
      some t = wellKnownId mask) ↔
      ∃ i < 64, tags[i]? = some (key, none) ∧ c (idAt i) f = true ∧ ∀ q ∈ qs, ¬ (fullTerm q).Names key :=
    by
  have hnames : ∀ i, tags[i]? = some (key, none) →
      (Mentions tagIds groups (idAt i) ↔ ∃ q ∈ qs, (fullTerm q).Names key) := by
    intro i hi
    rw [hcol.names i key hi]
    simp only [names_readTerm hkey]
    simp [Mentions]
  rw [hmask]
  constructor
  · rintro ⟨t, hc, hskip, ht⟩
    obtain ⟨i, hlt, hi, rfl⟩ := (wellKnownId_eq_some_iff h.registry).mp ht.symm
    refine ⟨i, hlt, hi, hc, ?_⟩
    intro q hq hn
    rw [← ht, Bool.and_eq_true, Bool.not_eq_true', ← Bool.not_eq_true, queryHas_iff, hnames i hi] at hskip
    exact hskip.1 ⟨q, hq, hn⟩
  · rintro ⟨i, hlt, hi, hc, hn⟩
    have hid := (wellKnownId_eq_some_iff h.registry).mpr ⟨i, hlt, hi, rfl⟩
    refine ⟨idAt i, hc, ?_, hid.symm⟩
    rw [hid, Bool.and_eq_true, Bool.not_eq_true', ← Bool.not_eq_true, queryHas_iff, hnames i hi]
    refine ⟨?_, rfl⟩
    rintro ⟨q, hq, hn'⟩
    exact hn q hq hn'

/-- A file is left out when a well-known tag below 64 hides it. -/
theorem fileHasSystemBehaviorTag_iff {tagIds : List TagId} {groups : List QueryGroup}
    (hcol : Collects tags c qs [] tagIds [] groups) {idx : TagBitmapIndex} (hidx : idx.Inv c) (f : Nat) :
    fileHasSystemBehaviorTag idx v.wellKnown f
      (!queryHas tagIds groups (wellKnownId v.wellKnown.trashed) && (wellKnownId v.wellKnown.trashed).isSome)
      (!queryHas tagIds groups (wellKnownId v.wellKnown.hidden) && (wellKnownId v.wellKnown.hidden).isSome) = true ↔
      HiddenBelow 64 tags c qs f := by
  have htrashed := skip_iff h hcol (show trashedKey.strlen < 255 by decide) _ h.wellKnown.trashed f
  have hhidden := skip_iff h hcol (show hiddenKey.strlen < 255 by decide) _ h.wellKnown.hidden f
  have hsplit : HiddenBelow 64 tags c qs f ↔
      (∃ i < 64, tags[i]? = some (trashedKey, none) ∧ c (idAt i) f = true ∧ ∀ q ∈ qs, ¬ (fullTerm q).Names trashedKey) ∨
        ∃ i < 64, tags[i]? = some (hiddenKey, none) ∧ c (idAt i) f = true ∧
        ∀ q ∈ qs, ¬ (fullTerm q).Names hiddenKey := by
    simp only [HiddenBelow, or_and_right, exists_or, exists_eq_left]
  rw [hsplit, ← htrashed, ← hhidden]
  generalize (!queryHas tagIds groups (wellKnownId v.wellKnown.trashed) && (wellKnownId v.wellKnown.trashed).isSome) =
    skipTrashed
  generalize (!queryHas tagIds groups (wellKnownId v.wellKnown.hidden) && (wellKnownId v.wellKnown.hidden).isSome) =
    skipHidden
  have hmem := (hidx.tags f).mem
  unfold fileHasSystemBehaviorTag
  by_cases hskip : skipTrashed = false ∧ skipHidden = false
  · rw [if_pos hskip]
    simp [hskip.1, hskip.2]
  rw [if_neg hskip, tagBitmapTagsForFile, take_length, any_eq_true]
  simp only [hmem, Bool.or_eq_true, Bool.and_eq_true, decide_eq_true_eq]
  constructor
  · rintro ⟨t, hc, ⟨hs, ht⟩ | ⟨hs, ht⟩⟩
    · exact Or.inl ⟨t, hc, hs, ht⟩
    · exact Or.inr ⟨t, hc, hs, ht⟩
  · rintro (⟨t, hc, hs, ht⟩ | ⟨t, hc, hs, ht⟩)
    · exact ⟨t, hc, Or.inl ⟨hs, ht⟩⟩
    · exact ⟨t, hc, Or.inr ⟨hs, ht⟩⟩

/-- What a query returns: of the first `maxResults` files that match what is left of its strings, those that no
well-known tag below 64 hides. -/
theorem queryFiles_eq (hqs : qs ≠ []) {maxResults : Nat} (hmax : 1 ≤ maxResults) :
    ∃ matched : List Nat, matched.Pairwise (· < ·) ∧ (∀ f, f ∈ matched ↔ Matched tags c qs f) ∧
      ∃ hide : Nat → Bool, (∀ f, hide f = true ↔ HiddenBelow 64 tags c qs f) ∧
        (tagfsQueryFiles v (qs.map some) maxResults).1 = (matched.take maxResults).filter (fun f => !hide f) := by
  classical
  have hcond : ¬ (qs.map some = [] ∨ maxResults = 0) := by
    rintro (hc | hc)
    · exact hqs (map_eq_nil_iff.mp hc)
    · omega
  have hspec := collect_spec h.registry c qs [] []
  rw [tagfsQueryFiles, if_neg hcond]
  cases hcol : collectQuery v.registry (qs.map some) [] [] with
  | none =>
    rw [hcol] at hspec
    obtain ⟨q, hq, p, hterm, hp⟩ := hspec
    refine ⟨[], List.Pairwise.nil, ?_, fun f => decide (HiddenBelow 64 tags c qs f),
      fun f => decide_eq_true_iff, by simp⟩
    intro f
    refine iff_of_false not_mem_nil ?_
    rintro ⟨-, -, hall⟩
    have hno := hall q hq
    rw [hterm] at hno
    obtain ⟨i, hi, -⟩ := hno.resolve_left fun hd => hd
    exact hp (mem_of_getElem? hi)
  | some r =>
    obtain ⟨tagIds, groups⟩ := r
    rw [hcol] at hspec
    obtain ⟨all, hsorted, hall, htake⟩ := query_answers h.index h.cache tagIds groups maxResults
    refine ⟨all, hsorted, ?_, _,
      fun f => fileHasSystemBehaviorTag_iff h hspec (query_inv h.index tagIds groups maxResults) f, ?_⟩
    · intro f
      have hempty : ¬ Given [] [] := by simp [Given]
      have hnil : Matches c [] [] f = true := rfl
      rw [hall, hspec.given, hspec.iff]
      simp only [hempty, false_or, hnil, true_and, Matched]
      tauto
    · simp only []
      rw [htake]

end Returned

/-! ## When that is right -/

/-- `out` is the first `maxResults`, in increasing order, of the files that satisfy every query string and are not
hidden. -/
def Correct (tags : List TagPair) (c : Carries) (qs : List CStr) (maxResults : Nat) (out : List Nat) : Prop :=
  ∃ all : List Nat, all.Pairwise (· < ·) ∧
    (∀ f, f ∈ all ↔ f ≥ 1 ∧ (∀ q ∈ qs, (fullTerm q).Holds tags c f) ∧ ¬ Hidden tags c qs f) ∧
    out = all.take maxResults

/-- No file satisfies the string, but the query does not notice: its key is unknown, or it is cut to fit. -/
def Overlooked (tags : List TagPair) (q : CStr) : Prop := ¬ Fits q ∨ (fullTerm q).Dropped tags

/-- The condition on a volume and a query under which the query returns what it should, in terms of the files that match
what is left of its strings. -/
structure QueryMeets (tags : List TagPair) (c : Carries) (qs : List CStr) (maxResults : Nat) (matched : List Nat) :
    Prop where
  overlooked : (∃ q ∈ qs, Overlooked tags q) → ∀ f ∈ matched.take maxResults, HiddenBelow 64 tags c qs f
  masked : (∀ q ∈ qs, ¬ Overlooked tags q) →
    ∀ f ∈ matched.take maxResults, Hidden tags c qs f → HiddenBelow 64 tags c qs f
  places : (∀ q ∈ qs, ¬ Overlooked tags q) → (∀ f ∈ matched.take maxResults, ¬ Hidden tags c qs f) ∨
    ∀ f ∈ matched.drop maxResults, Hidden tags c qs f

theorem sorted_ext {l l' : List Nat} (hl : l.Pairwise (· < ·)) (hl' : l'.Pairwise (· < ·))
    (hmem : ∀ a, a ∈ l ↔ a ∈ l') : l = l' := by
  apply Perm.eq_of_pairwise' hl hl'
  rw [perm_ext_iff_of_nodup (hl.imp ne_of_lt) (hl'.imp ne_of_lt)]
  exact hmem

/-- Cutting before filtering with `p` gives what cutting after filtering with the stricter `q` gives when the two agree
on the part that is kept, and that part loses nothing or nothing is left for its place. -/
theorem filter_take_eq_iff {α : Type} (l : List α) (n : Nat) (p q : α → Bool) (hqp : ∀ a ∈ l, q a = true → p a = true) :
    (l.take n).filter p = (l.filter q).take n ↔
    (∀ a ∈ l.take n, p a = true → q a = true) ∧ ((∀ a ∈ l.take n, q a = true) ∨ ∀ a ∈ l.drop n, q a = false) := by
  have hsplit : l.filter q = (l.take n).filter q ++ (l.drop n).filter q := by
    rw [← filter_append, take_append_drop]
  have hsame : (∀ a ∈ l.take n, p a = true → q a = true) → (l.take n).filter p = (l.take n).filter q := by
    intro hpq
    apply filter_congr
    intro a ha
    exact Bool.eq_iff_iff.mpr ⟨hpq a ha, hqp a (mem_of_mem_take ha)⟩
  have hlen : (l.take n).length ≤ n := length_take_le n l
  constructor
  · intro heq
    have hpq : ∀ a ∈ l.take n, p a = true → q a = true := by
      intro a ha hp
      have hmem : a ∈ (l.filter q).take n := heq ▸ mem_filter.mpr ⟨ha, hp⟩
      exact (mem_filter.mp (mem_of_mem_take hmem)).2
    refine ⟨hpq, ?_⟩
    by_cases hall : ∀ a ∈ l.take n, q a = true
    · exact Or.inl hall
    right
    rw [hsame hpq, hsplit] at heq
    have hlt : ((l.take n).filter q).length < (l.take n).length := by
      push Not at hall
      obtain ⟨a, ha, hqa⟩ := hall
      exact length_filter_lt_length_iff_exists.mpr ⟨a, ha, hqa⟩
    have hnil : (l.drop n).filter q = [] := by
      have hl := congrArg List.length heq
      rw [length_take, length_append] at hl
      exact length_eq_zero_iff.mp (by omega)
    intro a ha
    have := filter_eq_nil_iff.mp hnil a ha
    simpa using this
  · rintro ⟨hpq, hcase⟩
    rw [hsame hpq, hsplit]
    rcases hcase with hall | hnone
    · rw [filter_eq_self.mpr hall]
      by_cases hn : n ≤ l.length
      · have : (l.take n).length = n := by rw [length_take, min_eq_left hn]
        rw [take_append_of_le_length (by omega), take_of_length_le (le_of_eq this)]
      · rw [drop_of_length_le (by omega), filter_nil, append_nil, take_of_length_le hlen]
    · have hnil : (l.drop n).filter q = [] := filter_eq_nil_iff.mpr fun a ha => by simp [hnone a ha]
      rw [hnil, append_nil, take_of_length_le ((length_filter_le _ _).trans hlen)]

theorem not_holds_of_overlooked {c : Carries}
    (htexts : ∀ p ∈ tags, p.1.strlen ≤ 255 ∧ ∀ value ∈ p.2, value.strlen ≤ 255) {q : CStr} (h : Overlooked tags q)
    (f : Nat) : ¬ (fullTerm q).Holds tags c f := by
  rcases h with hlong | hdrop
  · rw [fullTerm, termOf]
    by_cases he : (partsOf q).2.1 = ellipsis
    · rw [if_pos he]
      rintro ⟨i, p, hi, hk, -⟩
      refine hlong ⟨hk ▸ (htexts p (mem_of_getElem? hi)).1, ?_⟩
      rw [CStr.strlen, he]
      decide
    rw [if_neg he]
    rintro ⟨i, hi, -⟩
    have hp := htexts _ (mem_of_getElem? hi)
    refine hlong ⟨hp.1, ?_⟩
    by_cases hn : (partsOf q).2.1 = []
    · rw [CStr.strlen, hn]
      decide
    · exact hp.2 _ (by rw [if_neg hn]; rfl)
  · cases hterm : fullTerm q with
    | tag p =>
      rw [hterm] at hdrop
      exact hdrop.elim
    | any key =>
      rw [hterm] at hdrop
      rintro ⟨i, p, hi, hk, -⟩
      exact hdrop p (mem_of_getElem? hi) hk

/-- A query by text returns what it should exactly when the volume and the query meet the condition. -/
theorem query_files_correct_iff {v : QueryVolume} {tags : List TagPair} {c : Carries} (h : v.Coherent tags c)
    {qs : List CStr} (hqs : qs ≠ []) {maxResults : Nat} (hmax : 1 ≤ maxResults) :
    ∃ matched : List Nat, matched.Pairwise (· < ·) ∧ (∀ f, f ∈ matched ↔ Matched tags c qs f) ∧
      (Correct tags c qs maxResults (tagfsQueryFiles v (qs.map some) maxResults).1 ↔
        QueryMeets tags c qs maxResults matched) := by
  classical
  obtain ⟨matched, hsorted, hmatched, hide, hhide, hout⟩ := queryFiles_eq h hqs hmax
  refine ⟨matched, hsorted, hmatched, ?_⟩
  rw [hout]
  by_cases hover : ∃ q ∈ qs, Overlooked tags q
  · -- nothing should be returned
    have hnone : Correct tags c qs maxResults ((matched.take maxResults).filter fun f => !hide f) ↔
        (matched.take maxResults).filter (fun f => !hide f) = [] := by
      obtain ⟨q, hq, hqo⟩ := hover
      have hempty : ∀ f, ¬ (f ≥ 1 ∧ (∀ q ∈ qs, (fullTerm q).Holds tags c f) ∧ ¬ Hidden tags c qs f) := fun f hf =>
        not_holds_of_overlooked h.texts hqo f (hf.2.1 q hq)
      constructor
      · rintro ⟨all, -, hall, heq⟩
        have : all = [] := eq_nil_iff_forall_not_mem.mpr fun f hf => hempty f ((hall f).mp hf)
        rw [heq, this, take_nil]
      · intro heq
        exact ⟨[], List.Pairwise.nil, fun f => iff_of_false not_mem_nil (hempty f), by rw [heq, take_nil]⟩
    rw [hnone, filter_eq_nil_iff]
    constructor
    · intro hall
      refine ⟨fun _ f hf => (hhide f).mp (by simpa using hall f hf), fun hno => ?_, fun hno => ?_⟩
      · exact absurd hover (by push Not; exact hno)
      · exact absurd hover (by push Not; exact hno)
    · intro hmeets f hf
      simpa using (hhide f).mpr (hmeets.overlooked hover f hf)
  · -- the strings are read as they are meant: the two filters are compared on the matches
    have hno : ∀ q ∈ qs, ¬ Overlooked tags q := by
      push Not at hover
      exact hover
    have hread : ∀ q ∈ qs, readTerm q = fullTerm q ∧ ¬ (fullTerm q).Dropped tags := by
      intro q hq
      have hq' := not_or.mp (hno q hq)
      exact ⟨readTerm_of_fits (not_not.mp hq'.1), hq'.2⟩
    have hiff : ∀ f, Matched tags c qs f ↔ f ≥ 1 ∧ ∀ q ∈ qs, (fullTerm q).Holds tags c f := by
      intro f
      constructor
      · rintro ⟨hge, -, hall⟩
        refine ⟨hge, fun q hq => ?_⟩
        have := hall q hq
        rw [(hread q hq).1] at this
        exact this.resolve_left (hread q hq).2
      · rintro ⟨hge, hall⟩
        refine ⟨hge, ?_, fun q hq => Or.inr (by rw [(hread q hq).1]; exact hall q hq)⟩
        obtain ⟨q, hq⟩ := exists_mem_of_ne_nil qs hqs
        exact ⟨q, hq, by rw [(hread q hq).1]; exact (hread q hq).2⟩
    have hcorrect : Correct tags c qs maxResults ((matched.take maxResults).filter fun f => !hide f) ↔
        (matched.take maxResults).filter (fun f => !hide f) =
          (matched.filter fun f => !decide (Hidden tags c qs f)).take maxResults := by
      have hall : ∀ f, f ∈ matched.filter (fun f => !decide (Hidden tags c qs f)) ↔
          f ≥ 1 ∧ (∀ q ∈ qs, (fullTerm q).Holds tags c f) ∧ ¬ Hidden tags c qs f := by
        intro f
        rw [mem_filter, hmatched, hiff, and_assoc]
        simp
      constructor
      · rintro ⟨all, hs, hmem, heq⟩
        rw [heq, sorted_ext hs (hsorted.filter _) fun f => (hmem f).trans (hall f).symm]
      · exact fun heq => ⟨_, hsorted.filter _, hall, heq⟩
    rw [hcorrect, filter_take_eq_iff]
    · simp only [Bool.not_eq_true', Bool.not_eq_false', decide_eq_false_iff_not, decide_eq_true_eq]
      constructor
      · rintro ⟨hmask, hplaces⟩
        refine ⟨fun ho => absurd ho hover, fun _ f hf hhid => ?_, fun _ => hplaces⟩
        by_contra hcon
        exact hmask f hf (by rw [← Bool.not_eq_true, hhide]; exact hcon) hhid
      · intro hmeets
        refine ⟨fun f hf hshow hhid => ?_, hmeets.places hno⟩
        rw [← Bool.not_eq_true, hhide] at hshow
        exact hshow (hmeets.masked hno f hf hhid)
    · intro f _ hshown
      simp only [Bool.not_eq_true', decide_eq_false_iff_not] at hshown ⊢
      rw [← Bool.not_eq_true, hhide]
      exact fun hb => hshown (hidden_of_hiddenBelow hb)

/-! ## Two files, one of them trashed -/

/-- `"x"`. -/
def plainKey : CStr := CStr.ofBuffer [120]

def plainTags : List TagPair := [(trashedKey, none), (hiddenKey, none), (plainKey, none)]

/-- Files 1 and 2 carry `x`, and file 1 is trashed. -/
def plainOps : List IndexOp := [.set 0 1, .set 2 1, .set 2 2]

def plainCarries : Carries := carriesAfter Carries.none plainOps

theorem plain_coherent : ∃ idx, (tagBitmapCreate 64 64).bind (runOps · plainOps) = some idx ∧
    QueryVolume.Coherent ⟨registryOf plainTags, idx, ⟨1, 2⟩⟩ plainTags plainCarries := by
  obtain ⟨idx₀, hcreate⟩ : ∃ idx₀, tagBitmapCreate 64 64 = some idx₀ := ⟨_, rfl⟩
  have hmeets : MeetsAll idx₀ plainOps := by
    obtain rfl := Option.some.inj hcreate
    decide +kernel
  obtain ⟨idx, hrun, hinv, hcache⟩ :=
    run_spec plainOps (create_inv hcreate) (create_cacheOk hcreate Carries.none) (by decide) hmeets
  refine ⟨idx, by rw [hcreate, Option.bind_some, hrun], ?_⟩
  have hwk : WellKnownTags.Ok ⟨1, 2⟩ (registryOf plainTags) := ⟨by decide +kernel, by decide +kernel⟩
  exact ⟨(registryOf_inv (by decide) (by decide)).finds, by decide, hinv, hcache, hwk⟩

theorem query_files_correct_iff_plain :
    ∃ idx, QueryVolume.Coherent ⟨registryOf plainTags, idx, ⟨1, 2⟩⟩ plainTags plainCarries ∧
      ∃ matched : List Nat, matched.Pairwise (· < ·) ∧
        (∀ f, f ∈ matched ↔ Matched plainTags plainCarries [plainKey] f) ∧
        (Correct plainTags plainCarries [plainKey] 2
          (tagfsQueryFiles ⟨registryOf plainTags, idx, ⟨1, 2⟩⟩ ([plainKey].map some) 2).1 ↔
          QueryMeets plainTags plainCarries [plainKey] 2 matched) := by
  obtain ⟨idx, -, hcoherent⟩ := plain_coherent
  exact ⟨idx, hcoherent, query_files_correct_iff hcoherent (by decide) (by decide)⟩

/-- Asked for one file with `x`, a query returns none, because the trashed file took the place of file 2. -/
theorem trashed_file_takes_place :
    ∃ idx, QueryVolume.Coherent ⟨registryOf plainTags, idx, ⟨1, 2⟩⟩ plainTags plainCarries ∧
      (tagfsQueryFiles ⟨registryOf plainTags, idx, ⟨1, 2⟩⟩ [some plainKey] 1).1 = [] ∧
      ¬ Correct plainTags plainCarries [plainKey] 1
        (tagfsQueryFiles ⟨registryOf plainTags, idx, ⟨1, 2⟩⟩ [some plainKey] 1).1 := by
  obtain ⟨idx, hrun, hcoherent⟩ := plain_coherent
  have hresult : (((tagBitmapCreate 64 64).bind (runOps · plainOps)).map fun idx =>
      (tagfsQueryFiles ⟨registryOf plainTags, idx, ⟨1, 2⟩⟩ [some plainKey] 1).1) = some [] := by decide +kernel
  rw [hrun, Option.map_some] at hresult
  have hnil := Option.some.inj hresult
  refine ⟨idx, hcoherent, hnil, ?_⟩
  rintro ⟨all, -, hall, heq⟩
  have hshown : ¬ Hidden plainTags plainCarries [plainKey] 2 := by
    rintro ⟨key, hkey, i, hlt, hi, hc, -⟩
    have hi3 : i < 3 := hlt
    interval_cases i
    · exact absurd hc (by decide)
    · exact absurd hc (by decide)
    · have : (plainKey, none) = (key, none) := Option.some.inj hi
      rw [← (Prod.mk.inj this).1] at hkey
      revert hkey
      decide
  have hmem : 2 ∈ all := by
    refine (hall 2).mpr ⟨by decide, ?_, hshown⟩
    intro q hq
    rw [mem_singleton] at hq
    subst hq
    have hterm : fullTerm plainKey = .tag (plainKey, none) := by decide
    rw [hterm]
    exact ⟨2, rfl, by decide⟩
  rw [hnil] at heq
  cases all with
  | nil => exact not_mem_nil hmem
  | cons a all => exact nomatch heq

end BoxOS.TagFS
