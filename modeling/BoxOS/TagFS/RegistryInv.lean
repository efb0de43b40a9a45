import BoxOS.Lib.Slots
import BoxOS.TagFS.Registry

/-!
# The tag registry represents a list of tags

- `registryOf` builds the registry of a list of tags, one after the other; `TagRegistry.Inv` says what it holds;
- `lookup_eq_some_iff`, `lookup_eq_none_iff`: the hash table finds exactly the tags of the list, under their positions;
- `runRegistry_spec`: a run of interns and lookups.
-/

namespace BoxOS.TagFS

open Lib List

/-- A tag: its key, and its value if it has one. -/
abbrev TagPair := CStr × Option CStr

/-- The id of the tag at position `i`. -/
abbrev idAt (i : Nat) : TagId := UInt16.ofNat i

theorem idAt_toNat {i : Nat} (h : i < 2 ^ 16) : (idAt i).toNat = i := by
  exact UInt16.toNat_ofNat_of_lt' h

theorem idAt_inj {i j : Nat} (hi : i < 2 ^ 16) (hj : j < 2 ^ 16) (h : idAt i = idAt j) : i = j := by
  rw [← idAt_toNat hi, ← idAt_toNat hj, h]

/-- The entry of the tag `p` at position `i`. -/
def entryFor (i : Nat) (p : TagPair) : TagRegistryEntry :=
  ⟨p.1, p.2, if p.2.isSome then flagHasValue else 0, idAt i⟩

/-- A tag inserted under an id that is free. -/
def addTag (reg : TagRegistry) (id : Nat) (p : TagPair) : TagRegistry :=
  insertEntry { reg with byId := ensureByIdCapacity 16 reg.byId id } id p.1 p.2

/-- The registry of a list of tags: each under its position. -/
def registryOf (tags : List TagPair) : TagRegistry :=
  tags.zipIdx.foldl (fun reg x => addTag reg x.2 x.1) tagRegistryInit

theorem registryOf_concat (tags : List TagPair) (p : TagPair) :
    registryOf (tags ++ [p]) = addTag (registryOf tags) tags.length p := by
  simp [registryOf, zipIdx_append]

/-- The ids of the tags with a key, in increasing order. -/
def groupIds (tags : List TagPair) (key : CStr) : List TagId :=
  (tags.zipIdx.filter (fun x => x.1.1 = key)).map (fun x => idAt x.2)

theorem groupIds_concat (tags : List TagPair) (p : TagPair) (key : CStr) :
    groupIds (tags ++ [p]) key = groupIds tags key ++ if p.1 = key then [idAt tags.length] else [] := by
  by_cases h : p.1 = key <;> simp [groupIds, zipIdx_append, h]

theorem mem_groupIds {tags : List TagPair} {key : CStr} {t : TagId} :
    t ∈ groupIds tags key ↔ ∃ i p, tags[i]? = some p ∧ p.1 = key ∧ t = idAt i := by
  simp only [groupIds, mem_map, mem_filter, decide_eq_true_eq]
  constructor
  · rintro ⟨⟨p, i⟩, ⟨hmem, hk⟩, rfl⟩
    exact ⟨i, p, mk_mem_zipIdx_iff_getElem?.mp hmem, hk, rfl⟩
  · rintro ⟨i, p, hget, hk, rfl⟩
    exact ⟨(p, i), ⟨mk_mem_zipIdx_iff_getElem?.mpr hget, hk⟩, rfl⟩

theorem groupIds_nodup {tags : List TagPair} (h : tags.length ≤ 2 ^ 16) (key : CStr) : (groupIds tags key).Nodup := by
  have hidx : ((tags.zipIdx.filter (fun x => x.1.1 = key)).map Prod.snd).Nodup := by
    refine Nodup.sublist (filter_sublist.map Prod.snd) ?_
    rw [zipIdx_map_snd]
    exact nodup_range'
  have hlt : ∀ i ∈ (tags.zipIdx.filter (fun x => x.1.1 = key)).map Prod.snd, i < 2 ^ 16 := by
    intro i hi
    obtain ⟨⟨p, j⟩, hmem, rfl⟩ := mem_map.mp hi
    have hget := mk_mem_zipIdx_iff_getElem?.mp (mem_of_mem_filter hmem)
    obtain ⟨hj, -⟩ := List.getElem?_eq_some_iff.mp hget
    exact hj.trans_le h
  have hmap : groupIds tags key = ((tags.zipIdx.filter (fun x => x.1.1 = key)).map Prod.snd).map idAt := by
    rw [groupIds, map_map]
    rfl
  rw [hmap]
  exact hidx.map_on fun i hi j hj hij => idAt_inj (hlt i hi) (hlt j hj) hij

/-! ## The invariant -/

/-- The registry holds the tags of the list, each under its position. -/
structure TagRegistry.Inv (reg : TagRegistry) (tags : List TagPair) : Prop where
  nodup : tags.Nodup
  length_le : tags.length ≤ maxTagId + 1
  buckets_length : reg.buckets.length = regBuckets
  keyBuckets_length : reg.keyBuckets.length = keyBucketCount
  byId_length : 0 < reg.byId.length
  entry : ∀ i, reg.byId.getD i none = tags[i]?.map (entryFor i)
  bucket : ∀ b t, t ∈ reg.buckets.getD b [] ↔
    ∃ i p, tags[i]? = some p ∧ registryHash p.1 p.2 regBuckets = b ∧ t = idAt i
  total : reg.totalTags = tags.length
  next : reg.nextId = tags.length
  group : ∀ key, (tagRegistryKeyGroup reg key).map (·.tagIds) =
    if groupIds tags key = [] then none else some (groupIds tags key)

theorem ensureByIdCapacity_spec (fuel : Nat) {byId : List (Option TagRegistryEntry)} {id : Nat}
    (hpos : 0 < byId.length) (h : id < byId.length * 2 ^ fuel) :
    id < (ensureByIdCapacity fuel byId id).length ∧
      ∀ i, (ensureByIdCapacity fuel byId id).getD i none = byId.getD i none := by
  induction fuel generalizing byId with
  | zero =>
    rw [pow_zero, mul_one] at h
    exact ⟨h, fun _ => rfl⟩
  | succ fuel ih =>
    rw [ensureByIdCapacity]
    by_cases hid : id ≥ byId.length
    · rw [if_pos hid]
      have hlen : (byId ++ replicate byId.length none).length = byId.length * 2 := by simp; omega
      obtain ⟨hlt, hget⟩ := @ih (byId ++ replicate byId.length none) (by omega)
        (by rw [hlen, mul_assoc, ← pow_succ']; exact h)
      exact ⟨hlt, fun i => by rw [hget, getD_append_blank]⟩
    · rw [if_neg hid]
      exact ⟨by omega, fun _ => rfl⟩

theorem init_inv : tagRegistryInit.Inv [] where
  nodup := nodup_nil
  length_le := Nat.zero_le _
  buckets_length := by simp [tagRegistryInit]
  keyBuckets_length := by simp [tagRegistryInit]
  byId_length := by simp [tagRegistryInit]
  entry i := by simp only [tagRegistryInit, Lib.getD_replicate]; rfl
  bucket b t := by simp only [tagRegistryInit, Lib.getD_replicate]; simp
  total := rfl
  next := rfl
  group key := by simp only [tagRegistryKeyGroup, tagRegistryInit, Lib.getD_replicate]; rfl

/-! ## Lookup -/

section Lookup

variable {reg : TagRegistry} {tags : List TagPair} (h : reg.Inv tags)

include h

theorem index_lt {i : Nat} {p : TagPair} (hget : tags[i]? = some p) : i < 2 ^ 16 := by
  obtain ⟨hi, -⟩ := List.getElem?_eq_some_iff.mp hget
  have := h.length_le
  simp only [maxTagId] at this
  omega

theorem entryOf_idAt {i : Nat} {p : TagPair} (hget : tags[i]? = some p) :
    reg.entryOf (idAt i) = some (entryFor i p) := by
  rw [TagRegistry.entryOf, idAt_toNat (index_lt h hget), h.entry, hget]
  rfl

theorem lookup_match {i : Nat} {p : TagPair} (hget : tags[i]? = some p) (key : CStr) (value : Option CStr) :
    nodeMatches reg key value (idAt i) = decide (p = (key, value)) := by
  rw [nodeMatches, entryOf_idAt h hget]
  simp [entryFor, Prod.ext_iff]

theorem lookup_eq_some_iff {key : CStr} {value : Option CStr} {t : TagId} :
    lookupUnlocked reg key value = some t ↔ ∃ i, tags[i]? = some (key, value) ∧ t = idAt i := by
  constructor
  · intro hfind
    have hmem := mem_of_find?_eq_some hfind
    have hmatch := find?_some hfind
    obtain ⟨i, p, hget, -, rfl⟩ := (h.bucket _ _).mp hmem
    rw [lookup_match h hget, decide_eq_true_eq] at hmatch
    exact ⟨i, hmatch ▸ hget, rfl⟩
  · rintro ⟨i, hget, rfl⟩
    have hmem : idAt i ∈ reg.buckets.getD (registryHash key value reg.buckets.length) [] :=
      (h.bucket _ _).mpr ⟨i, (key, value), hget, by rw [h.buckets_length], rfl⟩
    cases hfind : lookupUnlocked reg key value with
    | none =>
      have := find?_eq_none.mp hfind (idAt i) hmem
      rw [lookup_match h hget] at this
      simp at this
    | some t =>
      -- the tags are distinct, so the node found is the node of `i`
      have hmatch := find?_some hfind
      obtain ⟨j, p, hget', -, rfl⟩ := (h.bucket _ _).mp (mem_of_find?_eq_some hfind)
      rw [lookup_match h hget', decide_eq_true_eq] at hmatch
      subst hmatch
      obtain ⟨hi, hgi⟩ := List.getElem?_eq_some_iff.mp hget
      obtain ⟨hj, hgj⟩ := List.getElem?_eq_some_iff.mp hget'
      have : i = j := h.nodup.getElem_inj_iff.mp (hgi.trans hgj.symm)
      rw [this]

theorem lookup_eq_none_iff {key : CStr} {value : Option CStr} :
    lookupUnlocked reg key value = none ↔ (key, value) ∉ tags := by
  rw [Option.eq_none_iff_forall_ne_some, mem_iff_getElem?]
  constructor
  · rintro hnone ⟨i, hget⟩
    exact hnone (idAt i) ((lookup_eq_some_iff h).mpr ⟨i, hget, rfl⟩)
  · intro hnot t hsome
    obtain ⟨i, hget, -⟩ := (lookup_eq_some_iff h).mp hsome
    exact hnot ⟨i, hget⟩

end Lookup

/-! ## Insertion -/

theorem addInChain_some {key : CStr} {t : TagId} {chain chain' : List TagKeyGroup}
    (h : addInChain key t chain = some chain') (k : CStr) : chain'.find? (fun g => g.key = k) = if k = key then
    (chain.find? (fun g => g.key = key)).map (addToKeyGroup · t) else chain.find? (fun g => g.key = k) := by
  induction chain generalizing chain' with
  | nil => cases h
  | cons g gs ih =>
    rw [addInChain] at h
    by_cases hg : g.key = key
    · rw [if_pos hg] at h
      obtain rfl := Option.some.inj h
      have hkey : (addToKeyGroup g t).key = g.key := rfl
      by_cases hk : k = key
      · simp [hk, hg, hkey]
      · simp [hkey, hg, Ne.symm hk, hk]
    rw [if_neg hg] at h
    obtain ⟨gs', hgs, rfl⟩ := Option.map_eq_some_iff.mp h
    by_cases hk : k = key
    · subst hk
      simpa [find?_cons, hg] using ih hgs
    · by_cases hgk : g.key = k
      · simp [hgk, hk]
      · simpa [find?_cons, hgk, hk] using ih hgs

theorem addInChain_none {key : CStr} {t : TagId} {chain : List TagKeyGroup} (h : addInChain key t chain = none) :
    chain.find? (fun g => g.key = key) = none := by
  induction chain with
  | nil => rfl
  | cons g gs ih =>
    rw [addInChain] at h
    by_cases hg : g.key = key
    · rw [if_pos hg] at h
      cases h
    · rw [if_neg hg, Option.map_eq_none_iff] at h
      simpa [find?_cons, hg] using ih h

theorem addInChain_isSome {key : CStr} {t : TagId} {chain chain' : List TagKeyGroup}
    (h : addInChain key t chain = some chain') : (chain.find? (fun g => g.key = key)).isSome = true := by
  induction chain generalizing chain' with
  | nil => cases h
  | cons g gs ih =>
    rw [addInChain] at h
    by_cases hg : g.key = key
    · simp [hg]
    · rw [if_neg hg] at h
      obtain ⟨gs', hgs, rfl⟩ := Option.map_eq_some_iff.mp h
      simpa [find?_cons, hg] using ih hgs

/-- The groups after one id was added to the group of a key. -/
theorem addToKeyBuckets_group {kbs : List (List TagKeyGroup)} (hlen : 0 < kbs.length) (key : CStr) (t : TagId)
    (k : CStr) :
    (((addToKeyBuckets kbs key t).getD (keyHash k (addToKeyBuckets kbs key t).length) []).find?
        (fun g => g.key = k)).map (·.tagIds) =
      if k = key then
        some ((((kbs.getD (keyHash key kbs.length) []).find? (fun g => g.key = key)).map (·.tagIds)).getD [] ++ [t])
      else ((kbs.getD (keyHash k kbs.length) []).find? (fun g => g.key = k)).map (·.tagIds) := by
  have hb : keyHash key kbs.length < kbs.length := Nat.mod_lt _ hlen
  simp only [addToKeyBuckets, length_set, getD_set _ _ _ _ _ hb]
  cases hchain : addInChain key t (kbs.getD (keyHash key kbs.length) []) with
  | some chain' =>
    simp only [Option.getD_some]
    by_cases hk : k = key
    · subst hk
      obtain ⟨g, hg⟩ := Option.isSome_iff_exists.mp (addInChain_isSome hchain)
      rw [if_pos rfl, addInChain_some hchain, if_pos rfl, if_pos rfl, hg]
      rfl
    rw [if_neg hk]
    split
    · rename_i hsame
      rw [addInChain_some hchain, if_neg hk, hsame]
    · rfl
  | none =>
    have hkey : (addToKeyGroup ⟨key, [], 8⟩ t).key = key := rfl
    by_cases hk : k = key
    · subst hk
      rw [if_pos rfl, if_pos rfl, addInChain_none hchain]
      simp [hkey]
      rfl
    rw [if_neg hk]
    split
    · rename_i hsame
      simp [hkey, Ne.symm hk, hsame]
    · rfl

theorem getElem?_concat {α : Type} (l : List α) (a : α) (i : Nat) :
    (l ++ [a])[i]? = if i = l.length then some a else l[i]? := by
  rw [getElem?_append]
  by_cases h1 : i < l.length
  · rw [if_pos h1, if_neg (by omega)]
  by_cases h2 : i = l.length
  · subst h2
    simp
  · rw [if_neg h1, if_neg h2, getElem?_eq_none (by simp; omega), getElem?_eq_none (by omega)]

/-- A new tag under the next id. -/
theorem addTag_inv {reg : TagRegistry} {tags : List TagPair} (h : reg.Inv tags) {p : TagPair} (hp : p ∉ tags)
    (hroom : tags.length ≤ maxTagId) : (addTag reg tags.length p).Inv (tags ++ [p]) := by
  have hn16 : tags.length < 2 ^ 16 := by
    simp only [maxTagId] at hroom
    omega
  have hcap : tags.length < reg.byId.length * 2 ^ 16 :=
    hn16.trans_le (Nat.le_mul_of_pos_left _ h.byId_length)
  obtain ⟨hlt, hget⟩ := ensureByIdCapacity_spec 16 h.byId_length hcap
  have hbl := h.buckets_length
  have hb : registryHash p.1 p.2 reg.buckets.length < reg.buckets.length := by
    apply Nat.mod_lt
    rw [hbl]
    decide
  refine ⟨?_, ?_, ?_, ?_, ?_, ?_, ?_, ?_, ?_, ?_⟩
  · rw [nodup_append]
    refine ⟨h.nodup, nodup_singleton p, ?_⟩
    intro a ha b hb' hab
    rw [mem_singleton] at hb'
    exact hp (hb' ▸ hab ▸ ha)
  · rw [length_append, length_singleton]
    omega
  · simp [addTag, insertEntry, hbl]
  · simp [addTag, insertEntry, addToKeyBuckets, h.keyBuckets_length]
  · simp only [addTag, insertEntry, length_set]
    omega
  · intro i
    simp only [addTag, insertEntry, getD_set _ _ _ _ _ hlt, hget, h.entry, getElem?_concat]
    by_cases hi : i = tags.length
    · subst hi
      rw [if_pos rfl, if_pos rfl]
      rfl
    · rw [if_neg hi, if_neg hi]
  · intro b t
    simp only [addTag, insertEntry, getD_set _ _ _ _ _ hb]
    have hnew : (∃ i q, (tags ++ [p])[i]? = some q ∧ registryHash q.1 q.2 regBuckets = b ∧ t = idAt i) ↔
        (registryHash p.1 p.2 regBuckets = b ∧ t = idAt tags.length) ∨
          ∃ i q, tags[i]? = some q ∧ registryHash q.1 q.2 regBuckets = b ∧ t = idAt i := by
      constructor
      · rintro ⟨i, q, hq, hhash, ht⟩
        rw [getElem?_concat] at hq
        split at hq
        · rename_i hi
          obtain rfl := Option.some.inj hq
          exact Or.inl ⟨hhash, hi ▸ ht⟩
        · exact Or.inr ⟨i, q, hq, hhash, ht⟩
      · rintro (⟨hhash, ht⟩ | ⟨i, q, hq, hhash, ht⟩)
        · exact ⟨tags.length, p, by simp, hhash, ht⟩
        · obtain ⟨hi, -⟩ := List.getElem?_eq_some_iff.mp hq
          exact ⟨i, q, by rw [getElem?_concat, if_neg (by omega), hq], hhash, ht⟩
    rw [hnew, ← h.bucket, hbl]
    by_cases hbb : b = registryHash p.1 p.2 regBuckets
    · subst hbb
      simp
    · rw [if_neg hbb]
      simp [Ne.symm hbb]
  · simp [addTag, insertEntry, h.total]
  · simp [addTag, insertEntry, h.next]
  · intro key
    have hkl : 0 < reg.keyBuckets.length := by
      rw [h.keyBuckets_length]
      decide
    have hgroup := addToKeyBuckets_group hkl p.1 (idAt tags.length) key
    simp only [tagRegistryKeyGroup, addTag, insertEntry]
    rw [hgroup, groupIds_concat]
    have hold := h.group
    simp only [tagRegistryKeyGroup] at hold
    by_cases hk : key = p.1
    · subst hk
      rw [if_pos rfl, if_pos rfl, hold]
      split
      · rename_i hnil
        simp [hnil]
      · simp
    · rw [if_neg hk, if_neg (Ne.symm hk), append_nil]
      exact hold key

theorem registryOf_inv {tags : List TagPair} (hnd : tags.Nodup) (hlen : tags.length ≤ maxTagId + 1) :
    (registryOf tags).Inv tags := by
  induction tags using List.reverseRecOn with
  | nil => exact init_inv
  | append_singleton tags p ih =>
    rw [length_append, length_singleton] at hlen
    obtain ⟨hnd', -, hdisj⟩ := nodup_append.mp hnd
    rw [registryOf_concat]
    exact addTag_inv (ih hnd' (by omega)) (fun hp => hdisj p hp p mem_cons_self rfl) (by omega)

/-! ## Interning -/

theorem intern_old {tags : List TagPair} (h : (registryOf tags).Inv tags) {p : TagPair} {i : Nat}
    (hget : tags[i]? = some p) : tagRegistryIntern (registryOf tags) p.1 p.2 = (registryOf tags, some (idAt i)) := by
  have hl : lookupUnlocked (registryOf tags) p.1 p.2 = some (idAt i) := (lookup_eq_some_iff h).mpr ⟨i, hget, rfl⟩
  simp only [tagRegistryIntern, internUnlocked, hl]

theorem intern_new {tags : List TagPair} (h : (registryOf tags).Inv tags) {p : TagPair} (hp : p ∉ tags)
    (hroom : tags.length ≤ maxTagId) :
    tagRegistryIntern (registryOf tags) p.1 p.2 = (registryOf (tags ++ [p]), some (idAt tags.length)) := by
  have hl : lookupUnlocked (registryOf tags) p.1 p.2 = none := (lookup_eq_none_iff h).mpr hp
  rw [registryOf_concat]
  simp only [tagRegistryIntern, internUnlocked, hl, h.next, if_neg (not_lt.mpr hroom), addTag]

theorem internWithId_new {tags : List TagPair} (h : (registryOf tags).Inv tags) {p : TagPair} (hp : p ∉ tags)
    (hroom : tags.length ≤ maxTagId) :
    internWithId (registryOf tags) tags.length p.1 p.2 = (registryOf (tags ++ [p]), some (idAt tags.length)) := by
  have hl : lookupUnlocked (registryOf tags) p.1 p.2 = none := (lookup_eq_none_iff h).mpr hp
  have hn16 : tags.length < 2 ^ 16 := by
    simp only [maxTagId] at hroom
    omega
  have hcap : tags.length < (registryOf tags).byId.length * 2 ^ 16 :=
    hn16.trans_le (Nat.le_mul_of_pos_left _ h.byId_length)
  obtain ⟨-, hget⟩ := ensureByIdCapacity_spec 16 h.byId_length hcap
  have hfree : (ensureByIdCapacity 16 (registryOf tags).byId tags.length).getD tags.length none = none := by
    rw [hget, h.entry, getElem?_eq_none (le_refl _)]
    rfl
  rw [registryOf_concat]
  simp only [internWithId, hl, if_neg (not_lt.mpr hroom), hfree, addTag]
  rfl

/-! ## Runs -/

/-- One call of the registry. -/
inductive RegistryOp where
  | intern (p : TagPair)
  | lookup (p : TagPair)
deriving DecidableEq

def RegistryOp.apply : RegistryOp → TagRegistry → TagRegistry × Option TagId
  | .intern p, reg => tagRegistryIntern reg p.1 p.2
  | .lookup p, reg => (reg, tagRegistryLookup reg p.1 p.2)

/-- A run: the registry after it and what each call returned. -/
def runRegistry : TagRegistry → List RegistryOp → TagRegistry × List (Option TagId)
  | reg, [] => (reg, [])
  | reg, op :: ops =>
    let (reg, result) := op.apply reg
    let (reg, results) := runRegistry reg ops
    (reg, result :: results)

/-- The tags after one more call. -/
def RegistryOp.tags : RegistryOp → List TagPair → List TagPair
  | .intern p, tags => if p ∈ tags then tags else tags ++ [p]
  | .lookup _, tags => tags

/-- The distinct tags of a run, in the order in which they were first interned. -/
def tagsAfter : List TagPair → List RegistryOp → List TagPair
  | tags, [] => tags
  | tags, op :: ops => tagsAfter (op.tags tags) ops

theorem tags_grows (op : RegistryOp) (tags : List TagPair) : tags <+: op.tags tags := by
  cases op with
  | intern p =>
    simp only [RegistryOp.tags]
    split
    · exact prefix_refl _
    · exact prefix_append _ _
  | lookup p => exact prefix_refl _

theorem tagsAfter_grows (tags : List TagPair) (ops : List RegistryOp) : tags <+: tagsAfter tags ops := by
  induction ops generalizing tags with
  | nil => exact prefix_refl _
  | cons op ops ih => exact (tags_grows op tags).trans (ih _)

theorem mem_tagsAfter {tags : List TagPair} {ops : List RegistryOp} {p : TagPair} :
    p ∈ tagsAfter tags ops ↔ p ∈ tags ∨ RegistryOp.intern p ∈ ops := by
  induction ops generalizing tags with
  | nil => simp [tagsAfter]
  | cons op ops ih =>
    rw [tagsAfter, ih]
    cases op with
    | intern q =>
      by_cases hq : q ∈ tags
      · simp only [RegistryOp.tags, if_pos hq, mem_cons, RegistryOp.intern.injEq]
        constructor
        · rintro (h | h)
          · exact Or.inl h
          · exact Or.inr (Or.inr h)
        · rintro (h | rfl | h)
          · exact Or.inl h
          · exact Or.inl hq
          · exact Or.inr h
      · simp [RegistryOp.tags, hq, or_assoc]
    | lookup q => simp [RegistryOp.tags]

/-- One call: the registry of the new list of tags, and the id that the final list gives to an interned tag. -/
theorem apply_spec {tags : List TagPair} (h : (registryOf tags).Inv tags) (op : RegistryOp)
    (hlen : (op.tags tags).length ≤ maxTagId + 1) : (op.apply (registryOf tags)).1 = registryOf (op.tags tags) ∧
    (registryOf (op.tags tags)).Inv (op.tags tags) ∧ ∀ p, op = .intern p →
    ∃ i, (op.tags tags)[i]? = some p ∧ (op.apply (registryOf tags)).2 = some (idAt i) := by
  cases op with
  | lookup p => exact ⟨rfl, h, fun q hq => nomatch hq⟩
  | intern p =>
    by_cases hp : p ∈ tags
    · obtain ⟨i, hget⟩ := mem_iff_getElem?.mp hp
      simp only [RegistryOp.tags, if_pos hp, RegistryOp.apply, intern_old h hget]
      refine ⟨trivial, h, ?_⟩
      intro q hq
      obtain rfl := RegistryOp.intern.inj hq
      exact ⟨i, hget, rfl⟩
    simp only [RegistryOp.tags, if_neg hp] at hlen ⊢
    rw [length_append, length_singleton] at hlen
    have hroom : tags.length ≤ maxTagId := by omega
    simp only [RegistryOp.apply, intern_new h hp hroom]
    refine ⟨trivial, ?_, ?_⟩
    · rw [registryOf_concat]
      exact addTag_inv h hp hroom
    · intro q hq
      obtain rfl := RegistryOp.intern.inj hq
      exact ⟨tags.length, by simp, rfl⟩

/-- A run of interns and lookups: the registry of its tags, and every intern returned the id of its tag. -/
theorem runRegistry_spec (ops : List RegistryOp) {tags : List TagPair} (h : (registryOf tags).Inv tags)
    (hlen : (tagsAfter tags ops).length ≤ maxTagId + 1) :
    (runRegistry (registryOf tags) ops).1 = registryOf (tagsAfter tags ops) ∧
    (registryOf (tagsAfter tags ops)).Inv (tagsAfter tags ops) ∧ ∀ (a : Nat) p, ops[a]? = some (.intern p) →
    ∃ i, (tagsAfter tags ops)[i]? = some p ∧ (runRegistry (registryOf tags) ops).2[a]? = some (some (idAt i)) := by
  induction ops generalizing tags with
  | nil => exact ⟨rfl, h, fun a p hget => by simp at hget⟩
  | cons op ops ih =>
    have hpre := tagsAfter_grows (op.tags tags) ops
    have hle := hpre.length_le
    rw [tagsAfter] at hlen
    obtain ⟨hreg, hinv, hid⟩ := apply_spec h op (hle.trans hlen)
    obtain ⟨hreg', hinv', hids⟩ := ih hinv hlen
    rw [← hreg] at hreg' hids
    refine ⟨hreg', hinv', ?_⟩
    intro a p hget
    cases a with
    | zero =>
      rw [getElem?_cons_zero, Option.some.injEq] at hget
      obtain ⟨i, hi, hres⟩ := hid p hget
      obtain ⟨hlt, -⟩ := List.getElem?_eq_some_iff.mp hi
      obtain ⟨rest, hrest⟩ := hpre
      refine ⟨i, by rw [tagsAfter, ← hrest, getElem?_append_left hlt, hi], ?_⟩
      simp only [runRegistry, getElem?_cons_zero, hres]
    | succ a =>
      rw [getElem?_cons_succ] at hget
      obtain ⟨i, hi, hres⟩ := hids a p hget
      exact ⟨i, hi, by simpa only [runRegistry, getElem?_cons_succ] using hres⟩

end BoxOS.TagFS
