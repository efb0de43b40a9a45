import BoxOS.TagFS.RegistryInv
import BoxOS.TagFS.TagBitmapRun

/-!
# Queries by text

`tagfs_query_files`: query strings are parsed into tags and key groups, the index is queried for them, and files that
carry a well-known tag (`trashed`, `hidden`) which the query does not name are left out of what it returned. The
well-known tags are kept as 64-bit masks since the mount.

`QueryTerm` is the meaning of a query string (`fullTerm`); `readTerm` is what is left of it in buffers of 256 bytes.
-/

namespace BoxOS.TagFS

open Lib List CStr

/-- `':'`. -/
def colon : UInt8 := 58

/-- `"..."`. -/
def ellipsis : List UInt8 := [46, 46, 46]

/-- `"trashed"`. -/
def trashedKey : CStr := ofBuffer [116, 114, 97, 115, 104, 101, 100]

/-- `"hidden"`. -/
def hiddenKey : CStr := ofBuffer [104, 105, 100, 100, 101, 110]

/-- `tagfs_parse_tag` into buffers of the given sizes: the key and the value. -/
def tagfsParseTag (tagString : CStr) (keySize valueSize : Nat) : CStr × CStr :=
  if colon ∈ tagString.1 then
    (ofBuffer ((tagString.1.takeWhile (· ≠ colon)).take (keySize - 1)),
      ofBuffer (((tagString.1.dropWhile (· ≠ colon)).drop 1).take (valueSize - 1)))
  else (ofBuffer (tagString.1.take (keySize - 1)), ofBuffer [])

/-! ## Well-known tags -/

structure WellKnownTags where
  trashed : Nat
  hidden : Nat
deriving DecidableEq, Repr

/-- The mask that `register_well_known` keeps of an id. -/
def wellKnownMask : Option TagId → Nat
  | some t => if t.toNat < 64 then 2 ^ t.toNat else 0
  | none => 0

/-- The id in a mask; `none` is `TAGFS_INVALID_TAG_ID`. -/
def wellKnownId (mask : Nat) : Option TagId := if mask ≠ 0 then some (UInt16.ofNat (ctz 64 mask)) else none

/-! ## Queries -/

/-- What a query reads: the registry, the index and the well-known tags. -/
structure QueryVolume where
  registry : TagRegistry
  index : TagBitmapIndex
  wellKnown : WellKnownTags

def fileHasSystemBehaviorTag (idx : TagBitmapIndex) (wk : WellKnownTags) (f : Nat) (skipTrashed skipHidden : Bool) :
    Bool :=
  if skipTrashed = false ∧ skipHidden = false then false
  else
    (tagBitmapTagsForFile idx f (idx.tagsOf f).ids.length).any fun t =>
      (skipTrashed && decide (some t = wellKnownId wk.trashed)) ||
      (skipHidden && decide (some t = wellKnownId wk.hidden))

/-- The loop of `tagfs_query_files_inside` over the query strings: the tags and the groups to ask for. -/
def collectQuery (reg : TagRegistry) :
    List (Option CStr) → List TagId → List QueryGroup → Option (List TagId × List QueryGroup)
  | [], tagIds, groups => some (tagIds, groups)
  | none :: rest, tagIds, groups => collectQuery reg rest tagIds groups
  | some qs :: rest, tagIds, groups =>
    let (key, value) := tagfsParseTag qs 256 256
    if value.1 = ellipsis then
      match tagRegistryKeyGroup reg key with
      | some grp => collectQuery reg rest tagIds (groups ++ [some grp.tagIds])
      | none => collectQuery reg rest tagIds groups
    else
      match tagRegistryLookup reg key (if value.1 = [] then none else some value) with
      | some tid => collectQuery reg rest (tagIds ++ [tid]) groups
      | none => none

/-- The query names the tag, or a group with the tag. -/
def queryHas (tagIds : List TagId) (groups : List QueryGroup) (t : Option TagId) : Bool :=
  tagIds.any (fun t' => some t' = t) || groups.any (fun g => (g.getD []).any fun t' => some t' = t)

/-- `tagfs_query_files`: the files, and the index with its cache. -/
def tagfsQueryFiles (v : QueryVolume) (queryStrings : List (Option CStr)) (maxResults : Nat) :
    List Nat × TagBitmapIndex :=
  if queryStrings = [] ∨ maxResults = 0 then ([], v.index)
  else
    match collectQuery v.registry queryStrings [] [] with
    | none => ([], v.index)
    | some (tagIds, groups) =>
      let (result, index) := tagBitmapQuery v.index tagIds groups maxResults
      let trashedId := wellKnownId v.wellKnown.trashed
      let hiddenId := wellKnownId v.wellKnown.hidden
      let skipTrashed := !queryHas tagIds groups trashedId && trashedId.isSome
      let skipHidden := !queryHas tagIds groups hiddenId && hiddenId.isSome
      -- the filter runs over what the index returned, which has been cut to `maxResults` already
      (result.filter fun f => !fileHasSystemBehaviorTag index v.wellKnown f skipTrashed skipHidden, index)

/-! ## The meaning of a query string -/

/-- A query string asks for a tag, or for any tag with a key. -/
inductive QueryTerm where
  | tag (p : TagPair)
  | any (key : CStr)
deriving DecidableEq

/-- The file carries the tag that is asked for. -/
def QueryTerm.Holds (tags : List TagPair) (c : Carries) (f : Nat) : QueryTerm → Prop
  | .tag p => ∃ i, tags[i]? = some p ∧ c (idAt i) f = true
  | .any key => ∃ i p, tags[i]? = some p ∧ p.1 = key ∧ c (idAt i) f = true

/-- The term names the tag with this key and no value. -/
def QueryTerm.Names (key : CStr) : QueryTerm → Prop
  | .tag p => p = (key, none)
  | .any k => k = key

/-- The term asks for a key that no tag has; such a term is passed over. -/
def QueryTerm.Dropped (tags : List TagPair) : QueryTerm → Prop
  | .tag _ => False
  | .any key => ∀ p ∈ tags, p.1 ≠ key

/-- The term of a key and a value. -/
def termOf (parts : CStr × CStr) : QueryTerm :=
  if parts.2.1 = ellipsis then .any parts.1 else .tag (parts.1, if parts.2.1 = [] then none else some parts.2)

variable (q : CStr)

/-- The key and the value of a query string, of any length. -/
def partsOf : CStr × CStr :=
  (ofBuffer (q.1.takeWhile (· ≠ colon)), ofBuffer ((q.1.dropWhile (· ≠ colon)).drop 1))

/-- What a query string means. -/
def fullTerm : QueryTerm := termOf (partsOf q)

/-- What is left of a query string in the buffers. -/
def readTerm : QueryTerm := termOf (tagfsParseTag q 256 256)

/-- The string fits into the buffers. -/
def Fits : Prop := (partsOf q).1.strlen ≤ 255 ∧ (partsOf q).2.strlen ≤ 255

instance (q : CStr) : Decidable (Fits q) := inferInstanceAs (Decidable (_ ∧ _))

theorem cstr_ext_iff {s s' : CStr} : s = s' ↔ s.1 = s'.1 := Subtype.ext_iff

theorem ofBuffer_of_zero_notMem {l : List UInt8} (h : (0 : UInt8) ∉ l) : (ofBuffer l).1 = l := by
  apply takeWhile_eq_self_iff.mpr
  intro b hb
  have : b ≠ 0 := fun h0 => h (h0 ▸ hb)
  simpa using this

theorem partsOf_bytes :
    (partsOf q).1.1 = q.1.takeWhile (· ≠ colon) ∧ (partsOf q).2.1 = (q.1.dropWhile (· ≠ colon)).drop 1 := by
  refine ⟨ofBuffer_of_zero_notMem ?_, ofBuffer_of_zero_notMem ?_⟩
  · exact fun h => q.2 (takeWhile_subset _ h)
  · exact fun h => q.2 (dropWhile_subset _ (mem_of_mem_drop h))

theorem parse_bytes : (tagfsParseTag q 256 256).1.1 = (partsOf q).1.1.take 255 ∧
    (tagfsParseTag q 256 256).2.1 = (partsOf q).2.1.take 255 := by
  obtain ⟨hkey, hvalue⟩ := partsOf_bytes q
  have hkz : (0 : UInt8) ∉ q.1.takeWhile (· ≠ colon) := fun h => q.2 (takeWhile_subset _ h)
  have hvz : (0 : UInt8) ∉ (q.1.dropWhile (· ≠ colon)).drop 1 := fun h =>
    q.2 (dropWhile_subset _ (mem_of_mem_drop h))
  rw [hkey, hvalue]
  unfold tagfsParseTag
  by_cases hc : colon ∈ q.1
  · rw [if_pos hc]
    exact ⟨ofBuffer_of_zero_notMem fun h => hkz (mem_of_mem_take h),
      ofBuffer_of_zero_notMem fun h => hvz (mem_of_mem_take h)⟩
  rw [if_neg hc]
  have hall : ∀ b ∈ q.1, decide (b ≠ colon) = true := fun b hb => decide_eq_true fun h => hc (h ▸ hb)
  have htake : q.1.takeWhile (· ≠ colon) = q.1 := takeWhile_eq_self_iff.mpr hall
  have hdrop : q.1.dropWhile (· ≠ colon) = [] := dropWhile_eq_nil_iff.mpr hall
  rw [htake, hdrop]
  exact ⟨ofBuffer_of_zero_notMem fun h => q.2 (mem_of_mem_take h), rfl⟩

theorem readTerm_of_fits {q : CStr} (h : Fits q) : readTerm q = fullTerm q := by
  obtain ⟨hkey, hvalue⟩ := parse_bytes q
  rw [take_of_length_le h.1] at hkey
  rw [take_of_length_le h.2] at hvalue
  have : tagfsParseTag q 256 256 = partsOf q := Prod.ext (Subtype.ext hkey) (Subtype.ext hvalue)
  rw [readTerm, fullTerm, this]

theorem names_termOf {parts : CStr × CStr} {key : CStr} :
    (termOf parts).Names key ↔ parts.1 = key ∧ (parts.2.1 = ellipsis ∨ parts.2.1 = []) := by
  unfold termOf
  by_cases he : parts.2.1 = ellipsis
  · rw [if_pos he]
    simp [QueryTerm.Names, he]
  rw [if_neg he]
  by_cases hn : parts.2.1 = []
  · simp [QueryTerm.Names, hn]
  · simp [QueryTerm.Names, hn, he]

theorem take_eq_iff_of_length_lt {α : Type} {l m : List α} {n : Nat} (h : m.length < n) : l.take n = m ↔ l = m := by
  constructor
  · intro heq
    have hlen := congrArg List.length heq
    rw [length_take] at hlen
    rw [← heq, take_of_length_le (by omega)]
  · rintro rfl
    exact take_of_length_le (by omega)

theorem names_readTerm {q key : CStr} (hkey : key.strlen < 255) : (readTerm q).Names key ↔ (fullTerm q).Names key := by
  obtain ⟨hk, hv⟩ := parse_bytes q
  have hfirst : (tagfsParseTag q 256 256).1 = key ↔ (partsOf q).1 = key := by
    rw [cstr_ext_iff, hk, take_eq_iff_of_length_lt hkey, ← cstr_ext_iff]
  have hell : (tagfsParseTag q 256 256).2.1 = ellipsis ↔ (partsOf q).2.1 = ellipsis := by
    rw [hv, take_eq_iff_of_length_lt (by decide)]
  have hnil : (tagfsParseTag q 256 256).2.1 = [] ↔ (partsOf q).2.1 = [] := by
    rw [hv, take_eq_iff_of_length_lt (by decide)]
  rw [readTerm, fullTerm, names_termOf, names_termOf, hfirst, hell, hnil]

end BoxOS.TagFS
