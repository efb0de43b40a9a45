import BoxOS.TagFS.VolumeInv

/-!
# The tags of a volume

The tags of a file stand in its metadata, in the bitmaps of the tags and in the list of the file. `Volume.Tagged` says
that the index has exactly the tags that the metadata of the files lists; every operation keeps it, also when metadata
could not be read or written (`volumeRun_good`).
-/

open Function (update_of_ne update_self)

namespace BoxOS.TagFS

open Lib List Volume

/-! ## Registry ids -/

/-- Every id of the registry is one that it may hand out. -/
def TagRegistry.ValidIds (reg : TagRegistry) : Prop := ∀ chain ∈ reg.buckets, ∀ t ∈ chain, t.toNat ≤ maxTagId

theorem lookup_valid {reg : TagRegistry} (h : reg.ValidIds) {key : CStr} {value : Option CStr} {t : TagId}
    (hl : lookupUnlocked reg key value = some t) : t.toNat ≤ maxTagId := by
  have hmem := mem_of_find?_eq_some hl
  rw [getD_eq_getElem?_getD] at hmem
  cases hb : reg.buckets[registryHash key value reg.buckets.length]? with
  | none =>
    rw [hb] at hmem
    exact absurd hmem not_mem_nil
  | some chain =>
    rw [hb] at hmem
    exact h chain (mem_of_getElem? hb) t hmem

theorem intern_valid {reg : TagRegistry} (h : reg.ValidIds) (key : CStr) (value : Option CStr) :
    (tagRegistryIntern reg key value).1.ValidIds ∧ ∀ t, (tagRegistryIntern reg key value).2 = some t →
    t.toNat ≤ maxTagId := by
  unfold tagRegistryIntern internUnlocked
  cases hl : lookupUnlocked reg key value with
  | some t =>
    refine ⟨h, fun t' ht' => ?_⟩
    obtain rfl := Option.some.inj ht'
    exact lookup_valid h hl
  | none =>
    simp only []
    split
    · exact ⟨h, fun t ht => (nomatch ht)⟩
    rename_i hmax
    have hid : (UInt16.ofNat reg.nextId).toNat ≤ maxTagId := by
      rw [UInt16.toNat_ofNat']
      exact (Nat.mod_le _ _).trans (by omega)
    refine ⟨fun chain hchain t ht => ?_, fun t ht => ?_⟩
    · simp only [insertEntry] at hchain
      rcases mem_or_eq_of_mem_set hchain with hold | rfl
      · exact h chain hold t ht
      rcases mem_cons.mp ht with rfl | ht
      · exact hid
      rw [getD_eq_getElem?_getD] at ht
      cases hb : reg.buckets[registryHash key value reg.buckets.length]? with
      | none =>
        rw [hb] at ht
        exact absurd ht not_mem_nil
      | some chain =>
        rw [hb] at ht
        exact h chain (mem_of_getElem? hb) t ht
    · obtain rfl := Option.some.inj ht
      exact hid

/-! ## File ids of the index -/

/-- The capacity for files has grown by doubling, and 32 bits hold it. -/
def TagBitmapIndex.Doubled (idx : TagBitmapIndex) : Prop := ∃ k ≤ 31, idx.fileToTags.length = 2 ^ k

variable {idx : TagBitmapIndex}

theorem set_doubled {idx' : TagBitmapIndex} {t : TagId} {f : Nat} (h : idx.Doubled)
    (hset : tagBitmapSet idx t f = some idx') : f < 2 ^ 31 ∧ idx'.Doubled := by
  obtain ⟨k, hk, hlen⟩ := h
  unfold tagBitmapSet ensureBitmapCapacity ensureFileCapacity at hset
  simp only [bind, Option.bind_eq_some_iff, Option.pure_def, Option.some.injEq] at hset
  obtain ⟨idx₁, ⟨bms, -, rfl⟩, idx₂, ⟨slots, hslots, rfl⟩, rfl⟩ := hset
  obtain ⟨hlt, j, hj, hpow⟩ := ensureCapacity_two_pow hk hlen hslots
  have hle : (2 : Nat) ^ j ≤ 2 ^ 31 := Nat.pow_le_pow_right (by decide) hj
  exact ⟨by omega, j, hj, by simpa [TagBitmapIndex.bump] using hpow⟩

theorem clear_doubled (h : idx.Doubled) (t : TagId) (f : Nat) : (tagBitmapClear idx t f).Doubled := by
  unfold tagBitmapClear
  split
  · exact h
  · obtain ⟨k, hk, hlen⟩ := h
    exact ⟨k, hk, by simpa [TagBitmapIndex.bump] using hlen⟩

theorem removeFile_doubled (h : idx.Doubled) (f : Nat) : (tagBitmapRemoveFile idx f).Doubled := by
  unfold tagBitmapRemoveFile
  split
  · exact h
  · obtain ⟨k, hk, hlen⟩ := h
    exact ⟨k, hk, by simpa [TagBitmapIndex.bump] using hlen⟩

/-! ## The index and the metadata -/

/-- The index has the tags that the metadata of the files lists. -/
structure Volume.Tagged (v : Volume) (live : LiveRecords) (c : Carries) : Prop where
  registry : v.registry.ValidIds
  index : v.index.Inv c
  doubled : v.index.Doubled
  carries : ∀ t f, c t f = true ↔ ∃ m, v.files live f = some m ∧ t ∈ m.tagIds
  nodup : ∀ f m, v.files live f = some m → m.tagIds.Nodup
  valid : ∀ f m, v.files live f = some m → ∀ t ∈ m.tagIds, t.toNat ≤ maxTagId

section Tagged

variable {v v' : Volume} {live live' : LiveRecords} {c c' : Carries} {f : Nat}

theorem hasRoom {idx : TagBitmapIndex} (h : idx.Inv c) (hvalid : ∀ t, c t f = true → t.toNat ≤ maxTagId) (t : TagId) :
    (idx.tagsOf f).HasRoom t := by
  have htags := h.tags f
  refine .inl ?_
  have hnd : ((idx.tagsOf f).ids.map UInt16.toNat).Nodup := htags.nodup.map fun _ _ heq => UInt16.toNat_inj.mp heq
  have hlt : ∀ n ∈ (idx.tagsOf f).ids.map UInt16.toNat, n < maxTagId + 1 := by
    intro n hn
    obtain ⟨t', ht', rfl⟩ := mem_map.mp hn
    exact Nat.lt_succ_of_le (hvalid t' ((htags.mem t').mp ht'))
  have hlen := length_le_of_nodup_lt hnd hlt
  rw [length_map] at hlen
  exact hlen.trans_lt (by decide)

theorem Volume.Tagged.valid_carries (h : v.Tagged live c) {t : TagId} (hc : c t f = true) : t.toNat ≤ maxTagId := by
  obtain ⟨m, hm, ht⟩ := (h.carries t f).mp hc
  exact h.valid f m hm t ht

theorem Volume.Tagged.update (h : v.Tagged live c) {o : Option TagFSMetadata} (hreg : v'.registry.ValidIds)
    (hidx : v'.index.Inv c') (hdoubled : v'.index.Doubled)
    (hfiles : v'.files live' = Function.update (v.files live) f o)
    (hc : ∀ t g, c' t g = true ↔ if g = f then ∃ m, o = some m ∧ t ∈ m.tagIds else c t g = true)
    (htags : ∀ m, o = some m → m.tagIds.Nodup ∧ ∀ t ∈ m.tagIds, t.toNat ≤ maxTagId) : v'.Tagged live' c' := by
  have hcases : ∀ g m, v'.files live' g = some m → (g = f ∧ o = some m) ∨ v.files live g = some m := by
    intro g m hm
    rw [hfiles] at hm
    by_cases hg : g = f
    · rw [hg, update_self] at hm
      exact .inl ⟨hg, hm⟩
    · rw [update_of_ne hg] at hm
      exact .inr hm
  refine ⟨hreg, hidx, hdoubled, fun t g => ?_, fun g m hm => ?_, fun g m hm => ?_⟩
  · rw [hc, hfiles]
    by_cases hg : g = f
    · rw [if_pos hg, hg, update_self]
    · rw [if_neg hg, update_of_ne hg]
      exact h.carries t g
  · rcases hcases g m hm with ⟨-, ho⟩ | hm
    · exact (htags m ho).1
    · exact h.nodup g m hm
  · rcases hcases g m hm with ⟨-, ho⟩ | hm
    · exact (htags m ho).2
    · exact h.valid g m hm

theorem Volume.Tagged.congr (h : v.Tagged live c) (hreg : v'.registry.ValidIds) (hidx : v'.index = v.index)
    (hfiles : v'.files live' = v.files live) : v'.Tagged live' c :=
  ⟨hreg, hidx ▸ h.index, hidx ▸ h.doubled, by rw [hfiles]; exact h.carries, by rw [hfiles]; exact h.nodup,
    by rw [hfiles]; exact h.valid⟩

end Tagged

/-! ## Operations -/

/-- The volume is in order, and so are its tags. -/
def Volume.Good (v : Volume) : Prop := ∃ first live owner c, v.Inv first live owner ∧ v.Tagged live c

section Operations

variable {v v' : Volume} {f : Nat}

variable {c : Carries}

theorem index_set {idx idx' : TagBitmapIndex} {t : TagId} (h : idx.Inv c) (hd : idx.Doubled)
    (hvalid : ∀ t, c t f = true → t.toNat ≤ maxTagId) (hset : tagBitmapSet idx t f = some idx') :
    idx'.Inv (c.set t f) ∧ idx'.Doubled := by
  obtain ⟨hlt, hd'⟩ := set_doubled hd hset
  exact ⟨set_inv h hlt (hasRoom h hvalid t) hset, hd'⟩

theorem Carries.set_iff {t t' : TagId} {g : Nat} : c.set t f t' g = true ↔ c t' g = true ∨ (t' = t ∧ g = f) := by
  simp [Carries.set]

theorem Carries.clear_iff {t t' : TagId} {g : Nat} : c.clear t f t' g = true ↔ c t' g = true ∧ ¬ (t' = t ∧ g = f) := by
  rw [Carries.clear, Bool.and_eq_true, Bool.not_eq_true', ← Bool.not_eq_true, Bool.and_eq_true, decide_eq_true_eq,
    decide_eq_true_eq]

/-- The tags of a new file are put into the index. -/
theorem setTags_spec (ts : List TagId) {idx idx' : TagBitmapIndex} {c : Carries} (h : idx.Inv c) (hd : idx.Doubled)
    (hvalid : ∀ t, c t f = true → t.toNat ≤ maxTagId) (hts : ∀ t ∈ ts, t.toNat ≤ maxTagId)
    (hset : setTags f ts idx = some idx') :
    ∃ c', idx'.Inv c' ∧ idx'.Doubled ∧ ∀ t g, c' t g = true ↔ c t g = true ∨ (g = f ∧ t ∈ ts) := by
  induction ts generalizing idx c with
  | nil =>
    obtain rfl := Option.some.inj hset
    exact ⟨c, h, hd, fun t g => by simp⟩
  | cons t ts ih =>
    have ht := hts t mem_cons_self
    have hne : t ≠ invalidTagId := by
      rintro rfl
      exact absurd ht (by decide)
    rw [setTags, if_neg hne] at hset
    obtain ⟨idx₁, hset₁, hrest⟩ := Option.bind_eq_some_iff.mp hset
    obtain ⟨h₁, hd₁⟩ := index_set h hd hvalid hset₁
    have hvalid₁ : ∀ t', c.set t f t' f = true → t'.toNat ≤ maxTagId := by
      intro t' ht'
      rcases Carries.set_iff.mp ht' with hc | ⟨rfl, -⟩
      · exact hvalid t' hc
      · exact ht
    obtain ⟨c', h', hd', hiff⟩ := ih h₁ hd₁ hvalid₁ (fun t' ht' => hts t' (mem_cons_of_mem _ ht')) hrest
    refine ⟨c', h', hd', fun t' g => ?_⟩
    rw [hiff, Carries.set_iff, mem_cons]
    tauto

theorem finalTags_spec (autoTag : Option TagId) (tagIds : List TagId) :
    (finalTags autoTag tagIds).Nodup ∧ ∀ t, t ∈ finalTags autoTag tagIds ↔ autoTag = some t ∨ t ∈ tagIds := by
  have hfold : ∀ (ts tags : List TagId), tags.Nodup →
      (ts.foldl (fun tags t => if t ∈ tags then tags else tags ++ [t]) tags).Nodup ∧
        ∀ t, t ∈ ts.foldl (fun tags t => if t ∈ tags then tags else tags ++ [t]) tags ↔ t ∈ tags ∨ t ∈ ts := by
    intro ts
    induction ts with
    | nil => exact fun tags hnd => ⟨hnd, fun t => by simp⟩
    | cons x ts ih =>
      intro tags hnd
      rw [foldl_cons]
      by_cases hx : x ∈ tags
      · rw [if_pos hx]
        obtain ⟨hnd', hiff⟩ := ih tags hnd
        refine ⟨hnd', fun t => ?_⟩
        rw [hiff, mem_cons]
        constructor
        · tauto
        · rintro (ht | rfl | ht)
          · exact .inl ht
          · exact .inl hx
          · exact .inr ht
      · rw [if_neg hx]
        obtain ⟨hnd', hiff⟩ := ih (tags ++ [x]) (nodup_append.mpr ⟨hnd, nodup_singleton x, fun a ha b hb => by
          rw [mem_singleton.mp hb]
          exact fun heq => hx (heq ▸ ha)⟩)
        refine ⟨hnd', fun t => ?_⟩
        rw [hiff, mem_append, mem_singleton, mem_cons, or_assoc]
  obtain ⟨hnd, hiff⟩ := hfold tagIds autoTag.toList (by cases autoTag <;> simp)
  exact ⟨hnd, fun t => by rw [finalTags, hiff, Option.mem_toList]⟩

theorem nameTagIntern_spec (h : v.registry.ValidIds) (filename : CStr) :
    ∃ reg, (v.nameTagIntern filename).1 = { v with registry := reg } ∧ reg.ValidIds ∧
      ∀ t, (v.nameTagIntern filename).2 = some t → t.toNat ≤ maxTagId := by
  unfold nameTagIntern
  split
  · exact ⟨v.registry, rfl, h, fun t ht => (nomatch ht)⟩
  · obtain ⟨hreg, ht⟩ := intern_valid h (nameStem filename) none
    exact ⟨_, rfl, hreg, ht⟩

/-- `tagfs_create_file` writes no record, or one of an empty file with the tags. -/
theorem createFile_cases {first : Nat} {owner : Nat → Option Nat} (hinv : v.Inv first live owner) {filename : CStr}
    {tagIds : List TagId} {r : Option UInt32} (hid : v.nextFileId ≠ 0)
    (hcreate : v.createFile filename tagIds = some (v', r)) :
    v'.registry = (v.nameTagIntern filename).1.registry ∧
    (v'.Inv first live owner ∧ v'.index = v.index ∧ v'.files live = v.files live ∨
      ∃ live' m, v'.Inv first live' owner ∧
        v'.files live' = Function.update (v.files live) v.nextFileId.toNat (some m) ∧
        m.tagIds = finalTags (v.nameTagIntern filename).2 tagIds ∧
        setTags v.nextFileId.toNat m.tagIds v.index = some v'.index) := by
  have hname : ∃ reg, (v.nameTagIntern filename).1 = { v with registry := reg } := by
    unfold nameTagIntern
    split
    · exact ⟨v.registry, rfl⟩
    · exact ⟨_, rfl⟩
  obtain ⟨reg, hreg⟩ := hname
  unfold createFile at hcreate
  generalize v.nameTagIntern filename = x at hreg hcreate ⊢
  obtain ⟨v₁, autoTag⟩ := x
  obtain rfl : v₁ = { v with registry := reg } := hreg
  simp only at hcreate
  split at hcreate
  · cases hcreate
    exact ⟨rfl, .inl ⟨hinv.congr rfl rfl rfl, rfl, rfl⟩⟩
  generalize hm : (⟨v.nextFileId, fileActive, 0, 0, 0, finalTags autoTag tagIds, [], filename⟩ : TagFSMetadata) = m
    at hcreate
  have hmid : m.fileId = v.nextFileId := by rw [← hm]
  have hmtags : m.tagIds = finalTags autoTag tagIds := by rw [← hm]
  have hown : Owns owner m.fileId.toNat m.extents := by
    rw [← hm]
    exact ⟨nodup_nil, fun b hb => (nomatch hb)⟩
  rw [← hmtags] at hcreate
  rw [← hmid] at hid hcreate ⊢
  cases hw : metaPoolWrite v.pool m with
  | mk pool place =>
    rw [hw] at hcreate
    cases place with
    | none =>
      cases hcreate
      exact ⟨rfl, .inl ⟨(hinv.writeNone hid hw).congr rfl rfl rfl, rfl, rfl⟩⟩
    | some place =>
      obtain ⟨idx, hset, heq⟩ := Option.map_eq_some_iff.mp hcreate
      obtain ⟨rfl, rfl⟩ := Prod.mk.inj heq
      obtain ⟨h₁, hfiles₁, -, hoff⟩ := hinv.writeSome hid hw
      obtain ⟨h₂, hfiles₂⟩ := h₁.setEntry hown (update_self ..) hoff
      exact ⟨rfl,
        .inr ⟨_, m, h₂.congr rfl rfl rfl, hfiles₂.trans (congrArg (Function.update · _ _) hfiles₁), hmtags, hset⟩⟩

/-- The id is one that no file has. -/
theorem createFile_good (h : v.Good) {filename : CStr} {tagIds : List TagId} {r : Option UInt32}
    (htags : ∀ t ∈ tagIds, t.toNat ≤ maxTagId) (hid : v.nextFileId ≠ 0)
    (hfree : fileTableLookup v.table v.nextFileId.toNat = none)
    (hcreate : v.createFile filename tagIds = some (v', r)) : v'.Good := by
  obtain ⟨first, live, owner, c, hinv, htag⟩ := h
  obtain ⟨reg, hreg, hvalid, hauto⟩ := nameTagIntern_spec htag.registry filename
  obtain ⟨hreg', hor⟩ := createFile_cases hinv hid hcreate
  have hvalid' : v'.registry.ValidIds := by
    rw [hreg', hreg]
    exact hvalid
  rcases hor with ⟨hinv', hidx, hfiles⟩ | ⟨live', m, hinv', hfiles, hmtags, hset⟩
  · exact ⟨first, live, owner, c, hinv', htag.congr hvalid' hidx hfiles⟩
  obtain ⟨hnd, hmem⟩ := finalTags_spec (v.nameTagIntern filename).2 tagIds
  have hfinal : ∀ t ∈ finalTags (v.nameTagIntern filename).2 tagIds, t.toNat ≤ maxTagId := fun t ht =>
    ((hmem t).mp ht).elim (hauto t) (htags t)
  rw [← hmtags] at hnd hfinal
  obtain ⟨c', hidx, hd, hc⟩ := setTags_spec _ htag.index htag.doubled (fun t => htag.valid_carries) hfinal hset
  -- the new file had no tags before
  have hnone : ∀ t, c t v.nextFileId.toNat ≠ true := by
    intro t ht
    obtain ⟨m', hm', -⟩ := (htag.carries t _).mp ht
    rw [files, hfree] at hm'
    cases hm'
  refine ⟨first, live', owner, c', hinv', htag.update hvalid' hidx hd hfiles (fun t g => ?_) ?_⟩
  · rw [hc]
    by_cases hg : g = v.nextFileId.toNat
    · rw [if_pos hg, hg]
      simp [hnone t]
    · rw [if_neg hg]
      simp [hg]
  · intro m' hm'
    obtain rfl := Option.some.inj hm'
    exact ⟨hnd, hfinal⟩

theorem deleteFile_good (h : v.Good) (f : Nat) : (v.deleteFile f).1.Good := by
  obtain ⟨first, live, owner, c, hinv, htag⟩ := h
  cases hf : fileTableLookup v.table f with
  | none =>
    simp only [deleteFile, hf]
    exact ⟨first, live, owner, c, hinv, htag⟩
  | some e =>
    obtain ⟨live', hinv', hfiles⟩ := deleteFile_spec hinv hf
    have hindex : (v.deleteFile f).1.index = tagBitmapRemoveFile v.index f := by
      simp only [deleteFile, hf]
      rfl
    have hreg : (v.deleteFile f).1.registry = v.registry := by
      simp only [deleteFile, hf]
      rfl
    refine ⟨first, live', _, c.remove f, hinv',
      htag.update (hreg ▸ htag.registry) (hindex ▸ removeFile_inv htag.index f)
      (hindex ▸ removeFile_doubled htag.doubled f) hfiles (fun t g => ?_) fun m hm => by cases hm⟩
    by_cases hg : g = f
    · simp [Carries.remove, hg]
    · simp [Carries.remove, hg]

theorem replaceRecord_same (v : Volume) (f : Nat) (e : FileTableEntry) (m : TagFSMetadata) :
    (v.replaceRecord f e m).1.index = v.index ∧ (v.replaceRecord f e m).1.registry = v.registry := by
  unfold replaceRecord
  split <;> exact ⟨rfl, rfl⟩

/-- The metadata `m` of file `f` has been read, and the volume is in order. -/
structure HasRead (v : Volume) (f : Nat) (e : FileTableEntry) (m : TagFSMetadata) (first : Nat) (live : LiveRecords)
    (owner : Nat → Option Nat) (c : Carries) : Prop where
  inv : v.Inv first live owner
  tagged : v.Tagged live c
  lookup : fileTableLookup v.table f = some e
  file : v.files live f = some m
  id : m.fileId.toNat = f
  id_ne : m.fileId ≠ 0

theorem read_cases (h : v.Good) (f : Nat) : fileTableLookup v.table f = none ∨ ∃ e, fileTableLookup v.table f = some e ∧
    ((∃ v₁, v.readMeta e = (none, v₁) ∧ v₁.Good) ∨ ∃ v₁ m first live owner c, v.readMeta e = (some m, v₁) ∧
    v₁.registry = v.registry ∧ HasRead v₁ f e m first live owner c) := by
  obtain ⟨first, live, owner, c, hinv, htag⟩ := h
  cases hf : fileTableLookup v.table f with
  | none => exact .inl rfl
  | some e =>
    refine .inr ⟨e, rfl, ?_⟩
    obtain ⟨⟨io, hio⟩, hinv', hmeta⟩ := readMeta_spec hinv hf
    generalize v.readMeta e = x at hio hinv' hmeta
    obtain ⟨o, v₁⟩ := x
    obtain rfl : v₁ = { v with pool := { v.pool with io := io } } := hio
    have htag' : Volume.Tagged { v with pool := { v.pool with io := io } } live c := htag.congr htag.registry rfl rfl
    cases o with
    | none => exact .inl ⟨_, rfl, first, live, owner, c, hinv', htag'⟩
    | some m =>
      obtain ⟨hm, hid, hne⟩ := hmeta m rfl
      exact .inr ⟨_, m, first, live, owner, c, rfl, rfl, hinv', htag', hf, hm, hid, hne⟩

section Read

variable {e : FileTableEntry} {m : TagFSMetadata} {first : Nat} {live : LiveRecords} {owner : Nat → Option Nat}
  {c : Carries}

section

variable (h : HasRead v f e m first live owner c)

include h

theorem HasRead.good : v.Good :=
  ⟨first, live, owner, c, h.inv, h.tagged⟩

theorem HasRead.carries_iff (t : TagId) : c t f = true ↔ t ∈ m.tagIds := by
  rw [h.tagged.carries]
  simp [h.file]

/-- New tags for a file: the record is written and the index follows, or nothing changes. -/
theorem HasRead.replaceTags (m' : TagFSMetadata) (hsame : m'.fileId = m.fileId) (hext : m'.extents = m.extents)
    (hnd : m'.tagIds.Nodup) (hvalid : ∀ t ∈ m'.tagIds, t.toNat ≤ maxTagId) :
    (∃ v₂, v.replaceRecord f e m' = (v₂, false) ∧ v₂.Good) ∨ ∃ v₂, v.replaceRecord f e m' = (v₂, true) ∧
    v₂.index = v.index ∧ ∀ (idx : TagBitmapIndex) (c' : Carries), idx.Inv c' → idx.Doubled →
    (∀ t g, c' t g = true ↔ if g = f then t ∈ m'.tagIds else c t g = true) → ({ v₂ with index := idx }).Good := by
  obtain ⟨hfail, hdone⟩ := replaceRecord_spec h.inv h.lookup (by rw [hsame, h.id]) (by rw [hsame]; exact h.id_ne) (by
    rw [hext]
    exact h.inv.owns f m h.file)
  obtain ⟨hindex, hreg⟩ := replaceRecord_same v f e m'
  generalize v.replaceRecord f e m' = y at hfail hdone hindex hreg
  obtain ⟨v₂, ok⟩ := y
  cases ok with
  | false =>
    obtain ⟨hinv', hfiles⟩ := hfail rfl
    exact .inl ⟨v₂, rfl, first, live, owner, c, hinv', h.tagged.congr (hreg ▸ h.tagged.registry) hindex hfiles⟩
  | true =>
    obtain ⟨live', hinv', hfiles⟩ := hdone rfl
    refine .inr ⟨v₂, rfl, hindex, fun idx c' hidx hd hc => ⟨first, live', owner, c', hinv'.congr rfl rfl rfl,
      h.tagged.update (hreg ▸ h.tagged.registry) hidx hd hfiles (fun t g => ?_) fun m'' hm'' => ?_⟩⟩
    · rw [hc]
      split
      · simp
      · rfl
    · obtain rfl := Option.some.inj hm''
      exact ⟨hnd, hvalid⟩

end

end Read

theorem addTag_good (h : v.Good) {t : TagId} {r : Bool} (ht : t.toNat ≤ maxTagId) (hadd : v.addTag f t = some (v', r)) :
    v'.Good := by
  unfold Volume.addTag at hadd
  rcases read_cases h f with hf | ⟨e, hf, ⟨v₁, hr, hgood⟩ | ⟨v₁, m, first, live, owner, c, hr, -, hread⟩⟩
  · rw [hf] at hadd
    obtain ⟨rfl, -⟩ := Prod.mk.inj (Option.some.inj hadd)
    exact h
  · simp only [hf, hr] at hadd
    obtain ⟨rfl, -⟩ := Prod.mk.inj (Option.some.inj hadd)
    exact hgood
  simp only [hf, hr] at hadd
  split at hadd
  · obtain ⟨rfl, -⟩ := Prod.mk.inj (Option.some.inj hadd)
    exact hread.good
  rename_i hnew
  have hnd : (m.tagIds ++ [t]).Nodup :=
    nodup_append_comm.mp (nodup_cons.mpr ⟨hnew, hread.tagged.nodup f m hread.file⟩)
  have hvalid : ∀ t' ∈ m.tagIds ++ [t], t'.toNat ≤ maxTagId := by
    intro t' ht'
    rcases mem_append.mp ht' with hold | hlast
    · exact hread.tagged.valid f m hread.file t' hold
    · exact mem_singleton.mp hlast ▸ ht
  rcases hread.replaceTags { m with tagIds := m.tagIds ++ [t] } rfl rfl hnd hvalid with
    ⟨v₂, hw, hgood⟩ | ⟨v₂, hw, hindex, hgood⟩
  · rw [hw] at hadd
    obtain ⟨rfl, -⟩ := Prod.mk.inj (Option.some.inj hadd)
    exact hgood
  rw [hw] at hadd
  obtain ⟨idx, hset, heq⟩ := Option.map_eq_some_iff.mp hadd
  obtain ⟨rfl, -⟩ := Prod.mk.inj heq
  rw [hindex] at hset
  obtain ⟨hidx, hd⟩ := index_set hread.tagged.index hread.tagged.doubled (fun t => hread.tagged.valid_carries) hset
  refine hgood idx _ hidx hd fun t' g => ?_
  rw [Carries.set_iff]
  by_cases hg : g = f
  · rw [if_pos hg, hg, hread.carries_iff]
    simp
  · rw [if_neg hg]
    simp [hg]

theorem removeTag_good (h : v.Good) (f : Nat) (t : TagId) : (v.removeTag f t).1.Good := by
  unfold removeTag
  rcases read_cases h f with hf | ⟨e, hf, ⟨v₁, hr, hgood⟩ | ⟨v₁, m, first, live, owner, c, hr, -, hread⟩⟩
  · rw [hf]
    exact h
  · simp only [hf, hr]
    exact hgood
  simp only [hf, hr]
  cases hi : m.tagIds.idxOf? t with
  | none => exact hread.good
  | some i =>
    simp only []
    have hperm := swapRemove_perm hi
    have hnd := hread.tagged.nodup f m hread.file
    have hmem : ∀ t', t' ∈ (m.tagIds.set i (m.tagIds.getLastD 0)).dropLast ↔ t' ≠ t ∧ t' ∈ m.tagIds := fun t' => by
      rw [hperm.mem_iff, hnd.mem_erase_iff]
    have hvalid : ∀ t' ∈ (m.tagIds.set i (m.tagIds.getLastD 0)).dropLast, t'.toNat ≤ maxTagId := fun t' ht' =>
      hread.tagged.valid f m hread.file t' ((hmem t').mp ht').2
    rcases hread.replaceTags { m with tagIds := (m.tagIds.set i (m.tagIds.getLastD 0)).dropLast } rfl rfl
      (hperm.symm.nodup (hnd.erase t)) hvalid with ⟨v₂, hw, hgood⟩ | ⟨v₂, hw, hindex, hgood⟩
    · rw [hw]
      exact hgood
    rw [hw]
    refine hgood _ _ (hindex ▸ clear_inv hread.tagged.index t f)
      (hindex ▸ clear_doubled hread.tagged.doubled t f) fun t' g => ?_
    rw [Carries.clear_iff]
    by_cases hg : g = f
    · rw [if_pos hg, hg, hread.carries_iff, hmem]
      simp [and_comm]
    · rw [if_neg hg]
      simp [hg]

theorem removeKey_good (key : CStr) (f : Nat) (ts : List TagId) (h : v.Good) : (removeKey key f ts v).1.Good := by
  induction ts generalizing v with
  | nil => exact h
  | cons t ts ih =>
    rw [removeKey]
    split
    · exact ih (removeTag_good h f t)
    · exact ih h

theorem addTagString_good (h : v.Good) {key : CStr} {value : Option CStr} {r : Bool}
    (hadd : v.addTagString f key value = some (v', r)) : v'.Good := by
  obtain ⟨first, live, owner, c, hinv, htag⟩ := h
  obtain ⟨hreg, hvalid⟩ := intern_valid htag.registry key value
  unfold addTagString at hadd
  generalize tagRegistryIntern v.registry key value = x at hreg hvalid hadd
  obtain ⟨reg, o⟩ := x
  have hgood : Volume.Good { v with registry := reg } :=
    ⟨first, live, owner, c, hinv.congr rfl rfl rfl, htag.congr hreg rfl rfl⟩
  cases o with
  | none =>
    obtain ⟨rfl, -⟩ := Prod.mk.inj (Option.some.inj hadd)
    exact hgood
  | some t => exact addTag_good hgood (hvalid t rfl) hadd

/-- What a rename does to the tags is what it tells the index. -/
theorem renameTags_spec {oldTag newTag : Option TagId} {tagIds tags : List TagId} {removed added : Bool}
    (hnd : tagIds.Nodup) (hr : renameTags oldTag newTag tagIds = (tags, removed, added)) : tags.Nodup ∧
    (∀ t, t ∈ tags ↔ (t ∈ tagIds ∧ ¬ (removed = true ∧ oldTag = some t)) ∨ (added = true ∧ newTag = some t)) ∧
    (removed = true → oldTag.isSome) ∧ (added = true → newTag.isSome) := by
  unfold renameTags at hr
  split at hr
  · obtain ⟨rfl, hr'⟩ := Prod.mk.inj hr
    obtain ⟨rfl, rfl⟩ := Prod.mk.inj hr'
    exact ⟨hnd, by simp, by simp, by simp⟩
  have hleft : (eraseTag oldTag tagIds).Nodup ∧ ∀ t, t ∈ eraseTag oldTag tagIds ↔
      t ∈ tagIds ∧ ¬ (oldTag.any (· ∈ tagIds) = true ∧ oldTag = some t) := by
    cases oldTag with
    | none => exact ⟨hnd, by simp [eraseTag]⟩
    | some o =>
      refine ⟨hnd.erase o, fun t => ?_⟩
      rw [eraseTag, hnd.mem_erase_iff]
      by_cases ht : t = o
      · subst ht
        simp
      · simp [ht, Ne.symm ht]
  obtain ⟨hleftnd, hmem⟩ := hleft
  have hsome : oldTag.any (· ∈ tagIds) = true → oldTag.isSome := by cases oldTag <;> simp
  generalize eraseTag oldTag tagIds = left at hr hleftnd hmem
  cases newTag with
  | none =>
    obtain ⟨rfl, hr'⟩ := Prod.mk.inj hr
    obtain ⟨rfl, rfl⟩ := Prod.mk.inj hr'
    exact ⟨hleftnd, fun t => by simp [hmem], hsome, by simp⟩
  | some n =>
    simp only at hr
    split at hr
    · obtain ⟨rfl, hr'⟩ := Prod.mk.inj hr
      obtain ⟨rfl, rfl⟩ := Prod.mk.inj hr'
      exact ⟨hleftnd, fun t => by simp [hmem], hsome, by simp⟩
    rename_i hnew
    obtain ⟨rfl, hr'⟩ := Prod.mk.inj hr
    obtain ⟨rfl, rfl⟩ := Prod.mk.inj hr'
    refine ⟨nodup_cons.mpr ⟨hnew, hleftnd⟩, fun t => ?_, hsome, by simp⟩
    rw [mem_cons, hmem, or_comm, eq_comm (a := t)]
    simp only [true_and, Option.some.injEq]

theorem renameFile_good (h : v.Good) {name : CStr} {r : Bool} (hrename : v.renameFile f name = some (v', r)) :
    v'.Good := by
  obtain ⟨first₀, live₀, owner₀, c₀, hinv₀, htag₀⟩ := h
  obtain ⟨reg, hreg, hvalid, hnewTag⟩ := nameTagIntern_spec htag₀.registry name
  unfold renameFile at hrename
  generalize v.nameTagIntern name = x at hreg hnewTag hrename
  obtain ⟨v₀, newTag⟩ := x
  have hreg₀ : v₀ = { v with registry := reg } := hreg
  have hgood₀ : v₀.Good := by
    rw [hreg₀]
    exact ⟨first₀, live₀, owner₀, c₀, hinv₀.congr rfl rfl rfl, htag₀.congr hvalid rfl rfl⟩
  simp only at hrename
  rcases read_cases hgood₀ f with hf | ⟨e, hf, ⟨v₁, hread, hgood⟩ | ⟨v₁, m, first, live, owner, c, hr, -, hread⟩⟩
  · rw [hf] at hrename
    obtain ⟨rfl, -⟩ := Prod.mk.inj (Option.some.inj hrename)
    exact hgood₀
  · simp only [hf, hread] at hrename
    obtain ⟨rfl, -⟩ := Prod.mk.inj (Option.some.inj hrename)
    exact hgood
  simp only [hf, hr] at hrename
  generalize hold : v₁.nameTagLookup m.filename = oldTag at hrename
  cases hrt : renameTags oldTag newTag m.tagIds with
  | mk tags flags =>
    obtain ⟨removed, added⟩ := flags
    obtain ⟨hnd, hmem, hremoved, hadded⟩ := renameTags_spec (hread.tagged.nodup f m hread.file) hrt
    have htags : ∀ t ∈ tags, t.toNat ≤ maxTagId := by
      intro t ht
      rcases (hmem t).mp ht with ⟨hin, -⟩ | ⟨-, hn⟩
      · exact hread.tagged.valid f m hread.file t hin
      · exact hnewTag t hn
    simp only [hrt] at hrename
    rcases hread.replaceTags { m with filename := name, tagIds := tags } rfl rfl hnd htags with
      ⟨v₂, hw, hgood⟩ | ⟨v₂, hw, hindex, hgood⟩
    · rw [hw] at hrename
      obtain ⟨rfl, -⟩ := Prod.mk.inj (Option.some.inj hrename)
      exact hgood
    rw [hw] at hrename
    simp only [hindex] at hrename
    obtain ⟨idx, hset, heq⟩ := Option.map_eq_some_iff.mp hrename
    obtain ⟨rfl, -⟩ := Prod.mk.inj heq
    -- the index without the tag of the old name
    have hcleared : ∃ c₁ : Carries,
        (if removed then tagBitmapClear v₁.index (oldTag.getD invalidTagId) f else v₁.index).Inv c₁ ∧
        (if removed then tagBitmapClear v₁.index (oldTag.getD invalidTagId) f else v₁.index).Doubled ∧
        ∀ t g, c₁ t g = true ↔ c t g = true ∧ ¬ (g = f ∧ removed = true ∧ oldTag = some t) := by
      cases removed with
      | false => exact ⟨c, hread.tagged.index, hread.tagged.doubled, by simp⟩
      | true =>
        obtain ⟨o, ho⟩ := Option.isSome_iff_exists.mp (hremoved rfl)
        refine ⟨_, clear_inv hread.tagged.index _ f, clear_doubled hread.tagged.doubled _ f, fun t g => ?_⟩
        rw [Carries.clear_iff, ho]
        simp only [Option.getD_some, Option.some.injEq, true_and]
        rw [and_comm (a := g = f), eq_comm (a := o)]
    obtain ⟨c₁, hidx₁, hd₁, hc₁⟩ := hcleared
    generalize (if removed then tagBitmapClear v₁.index (oldTag.getD invalidTagId) f else v₁.index) = idx₁
      at hidx₁ hd₁ hset
    cases added with
    | false =>
      obtain rfl := Option.some.inj hset
      refine hgood _ c₁ hidx₁ hd₁ fun t g => ?_
      rw [hc₁]
      by_cases hg : g = f
      · rw [if_pos hg, hg, hread.carries_iff]
        simp [hmem]
      · rw [if_neg hg]
        simp [hg]
    | true =>
      obtain ⟨n, hn⟩ := Option.isSome_iff_exists.mp (hadded rfl)
      simp only [hn, Option.getD_some, if_true] at hset
      have hvalid₁ : ∀ t, c₁ t f = true →
        t.toNat ≤ maxTagId := fun t ht => hread.tagged.valid_carries ((hc₁ t f).mp ht).1
      obtain ⟨hidx, hd⟩ := index_set hidx₁ hd₁ hvalid₁ hset
      refine hgood idx _ hidx hd fun t g => ?_
      rw [Carries.set_iff, hc₁]
      by_cases hg : g = f
      · rw [if_pos hg, hg, hread.carries_iff]
        simp [hmem, hn, eq_comm]
      · rw [if_neg hg]
        simp [hg]

theorem chainWrite_good (h : v.Good) (block : Option Nat) (content : Block) : (v.chainWrite block content).Good := by
  obtain ⟨first, live, owner, c, hinv, htag⟩ := h
  have hsame : (v.chainWrite block content).registry = v.registry ∧ (v.chainWrite block content).index = v.index ∧
      (v.chainWrite block content).table = v.table := by
    unfold chainWrite
    split
    · split <;> exact ⟨rfl, rfl, rfl⟩
    · split <;> exact ⟨rfl, rfl, rfl⟩
  obtain ⟨hreg, hidx, htable⟩ := hsame
  refine ⟨first, live, owner, c, hinv.chainWrite block content, htag.congr (hreg ▸ htag.registry) hidx ?_⟩
  funext g
  simp only [files, htable]

end Operations

/-! ## Mount -/

section Mount

variable {v v' : Volume} {first : Nat} {live : LiveRecords} {owner : Nat → Option Nat}

/-- The tag lists of the metadata are such as the operations write them. -/
structure Volume.TagListsOk (v : Volume) (live : LiveRecords) : Prop where
  nodup : ∀ f m, v.files live f = some m → m.tagIds.Nodup
  valid : ∀ f m, v.files live f = some m → ∀ t ∈ m.tagIds, t.toNat ≤ maxTagId

/-- The index has the tags of the files below `fid`. -/
structure Mounting (v : Volume) (fid : Nat) (first : Nat) (live : LiveRecords) (owner : Nat → Option Nat)
    (c : Carries) : Prop where
  inv : v.Inv first live owner
  registry : v.registry.ValidIds
  lists : v.TagListsOk live
  index : v.index.Inv c
  doubled : v.index.Doubled
  carries : ∀ t f, c t f = true ↔ f < fid ∧ ∃ m, v.files live f = some m ∧ t ∈ m.tagIds

theorem indexTags_eq {f : Nat} {ts : List TagId} (h : ∀ t ∈ ts, t.toNat ≤ maxTagId) (idx : TagBitmapIndex) :
    indexTags f ts idx = setTags f ts idx := by
  induction ts generalizing idx with
  | nil => rfl
  | cons t ts ih =>
    have hne : t ≠ invalidTagId := by
      rintro rfl
      exact absurd (h _ mem_cons_self) (by decide)
    rw [indexTags, setTags, if_neg hne]
    exact congrArg _ (funext fun idx' => ih (fun t' ht' => h t' (mem_cons_of_mem _ ht')) idx')

theorem Mounting.drop {fid : Nat} {c : Carries} (h : Mounting v fid first live owner c) :
    Mounting { v with table := (fileTableDelete v.table fid).1 } (fid + 1) first live owner c := by
  obtain ⟨hinv, hfiles⟩ := h.inv.clearEntry fid
  have hsome : ∀ g m, files { v with table := (fileTableDelete v.table fid).1 } live g = some m →
      g ≠ fid ∧ v.files live g = some m := by
    intro g m hm
    rw [hfiles] at hm
    by_cases hg : g = fid
    · rw [hg, update_self] at hm
      cases hm
    · rw [update_of_ne hg] at hm
      exact ⟨hg, hm⟩
  refine ⟨hinv, h.registry,
    ⟨fun g m hm => h.lists.nodup g m (hsome g m hm).2, fun g m hm => h.lists.valid g m (hsome g m hm).2⟩,
    h.index, h.doubled, fun t g => ?_⟩
  rw [h.carries]
  constructor
  · rintro ⟨hlt, m, hm, ht⟩
    refine ⟨by omega, m, ?_, ht⟩
    rw [hfiles, update_of_ne (by omega)]
    exact hm
  · rintro ⟨hlt, m, hm, ht⟩
    obtain ⟨hg, hm⟩ := hsome g m hm
    exact ⟨by omega, m, hm, ht⟩

theorem Mounting.file {fid : Nat} {c : Carries} (h : Mounting v fid first live owner c)
    (hmount : v.mountFile fid = some v') :
    (∀ g e, fileTableLookup v'.table g = some e → fileTableLookup v.table g = some e) ∧
    ∃ c', Mounting v' (fid + 1) first live owner c' := by
  unfold mountFile at hmount
  cases hf : fileTableLookup v.table fid with
  | none =>
    rw [hf] at hmount
    obtain rfl := Option.some.inj hmount
    refine ⟨fun _ _ he => he, c, h.inv, h.registry, h.lists, h.index, h.doubled, fun t f => ?_⟩
    rw [h.carries]
    constructor
    · rintro ⟨hlt, hm⟩
      exact ⟨by omega, hm⟩
    · rintro ⟨hlt, m, hm, ht⟩
      refine ⟨?_, m, hm, ht⟩
      by_contra hge
      obtain rfl : f = fid := by omega
      rw [files, hf] at hm
      cases hm
  | some e =>
    simp only [hf] at hmount
    obtain ⟨⟨io, hio⟩, hinv, hmeta⟩ := readMeta_spec h.inv hf
    generalize v.readMeta e = x at hio hinv hmeta hmount
    obtain ⟨o, v₁⟩ := x
    obtain rfl : v₁ = { v with pool := { v.pool with io := io } } := hio
    have hdrop : ∀ g e, fileTableLookup (fileTableDelete v.table fid).1 g = some e →
        fileTableLookup v.table g = some e := by
      intro g e he
      rw [lookup_delete] at he
      split at he
      · cases he
      · exact he
    have h₁ : Mounting { v with pool := { v.pool with io := io } } fid first live owner c :=
      ⟨hinv, h.registry, ⟨h.lists.nodup, h.lists.valid⟩, h.index, h.doubled, h.carries⟩
    cases o with
    | none =>
      obtain rfl := Option.some.inj hmount
      exact ⟨hdrop, c, h₁.drop⟩
    | some m =>
      simp only at hmount
      split at hmount
      · obtain rfl := Option.some.inj hmount
        exact ⟨hdrop, c, h₁.drop⟩
      obtain ⟨idx, hset, rfl⟩ := Option.map_eq_some_iff.mp hmount
      obtain ⟨hm, -, -⟩ := hmeta m rfl
      have hvalid := h.lists.valid fid m hm
      rw [indexTags_eq hvalid] at hset
      have hnone : ∀ t, c t fid ≠ true := fun t ht => absurd ((h.carries t fid).mp ht).1 (Nat.lt_irrefl fid)
      obtain ⟨c', hidx, hd, hc⟩ := setTags_spec _ h.index h.doubled (fun t ht => absurd ht (hnone t)) hvalid hset
      refine ⟨fun _ _ he => he, c', h₁.inv.congr rfl rfl rfl, h.registry, ⟨h.lists.nodup, h.lists.valid⟩, hidx, hd,
        fun t f => ?_⟩
      rw [hc, h.carries]
      constructor
      · rintro (⟨hlt, hm'⟩ | ⟨rfl, ht⟩)
        · exact ⟨by omega, hm'⟩
        · exact ⟨by omega, m, hm, ht⟩
      · rintro ⟨hlt, m', hm', ht⟩
        by_cases heq : f = fid
        · subst heq
          obtain rfl := Option.some.inj (hm.symm.trans hm')
          exact .inr ⟨rfl, ht⟩
        · exact .inl ⟨by omega, m', hm', ht⟩

theorem mountLoop_spec (n : Nat) {fid : Nat} {c : Carries} (h : Mounting v fid first live owner c)
    (hmount : mountLoop n fid v = some v') :
    (∀ g e, fileTableLookup v'.table g = some e → fileTableLookup v.table g = some e) ∧
    ∃ c', Mounting v' (fid + n) first live owner c' := by
  induction n generalizing v fid c with
  | zero =>
    obtain rfl := Option.some.inj hmount
    exact ⟨fun _ _ he => he, c, h⟩
  | succ n ih =>
    obtain ⟨v₁, hfile, hrest⟩ := Option.bind_eq_some_iff.mp hmount
    obtain ⟨hless₁, c₁, h₁⟩ := h.file hfile
    obtain ⟨hless, c', h'⟩ := ih h₁ hrest
    exact ⟨fun g e he => hless₁ g e (hless g e he), c', by rwa [Nat.add_assoc, Nat.add_comm 1] at h'⟩

end Mount

end BoxOS.TagFS
