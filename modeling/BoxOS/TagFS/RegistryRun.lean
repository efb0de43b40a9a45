import BoxOS.TagFS.RegistryDiskInv

/-!
# Runs of the tag registry over its chain

Interns, lookups and flushes in any order. `flush_writes` gives what a flush of the registry of some tags writes,
`flush_load` that loading the chain into a fresh registry rebuilds the registry that was flushed, and
`registry_persistent` puts the two directions together for every run.
-/

namespace BoxOS.TagFS

open Lib List Option

/-- The blocks that a flush of some tags fills. -/
def registryPages (tags : List TagPair) : List (List TagRegistryEntry) := packFrom [] (entriesFrom 0 tags)

variable {tags : List TagPair}

theorem entriesFrom_fit (hvalid : ∀ p ∈ tags, ValidTag p) (n : Nat) :
    ∀ e ∈ entriesFrom n tags, e.recordSize ≤ registryDataSize := by
  intro e he
  obtain ⟨⟨p, i⟩, hmem, rfl⟩ := List.mem_map.mp he
  have hget := mk_mem_zipIdx_iff_le_and_getElem?_sub.mp hmem
  exact recordSize_entryFor_le (hvalid p (mem_of_getElem? hget.2)) i

theorem registryPages_fit (hvalid : ∀ p ∈ tags, ValidTag p) :
    ∀ page ∈ registryPages tags, recordsSize page ≤ registryDataSize :=
  packFrom_fits (by simp [recordsSize]) (entriesFrom_fit hvalid 0)

theorem flush_writes (h : (registryOf tags).Inv tags) (hvalid : ∀ p ∈ tags, ValidTag p) {cs : ChainState}
    {firstBlock : Nat} (hcs : ChainAt cs firstBlock) :
    Flushes registryCodec (cs.start firstBlock) 0 ((registryPages tags).map pageOf)
      (tagRegistryFlush (registryOf tags) cs firstBlock) := by
  obtain ⟨hok, hhead, -⟩ := hcs.start
  have hget : (cs.start firstBlock).chain.getD 0 0 = firstBlock := by
    rw [getD_eq_getElem?_getD, hhead]
    rfl
  have hspec :=
    registryFlushLoop_spec (entriesFrom 0 tags) [] hok hhead (by simp [recordsSize]) (entriesFrom_fit hvalid 0)
  rw [pageOf_nil, show recordsSize [] = 0 from rfl] at hspec
  simp only [tagRegistryFlush, entries_registryOf h, hget]
  exact hspec

theorem load_chain {cs : ChainState} {firstBlock : Nat} (hcs : ChainAt cs firstBlock)
    (hhead : cs.chain[0]? = some firstBlock) {d : Medium} {pages : List (List TagRegistryEntry)} (hne : pages ≠ [])
    (hpages : PagesAt registryCodec.enc d (cs.chain.take pages.length) (pages.map pageOf)) {tags : List TagPair}
    (hflat : pages.flatten = entriesFrom 0 tags) (htags : tags.Nodup) (hmax : tags.length ≤ maxTagId + 1)
    (hvalid : ∀ p ∈ tags, ValidTag p) (hfit : ∀ page ∈ pages, recordsSize page ≤ registryDataSize) :
    tagRegistryLoad cs.space.totalBlocks d tagRegistryInit firstBlock =
    some (registryOf tags, cs.chain.take pages.length) := by
  have hrun0 : cs.space.totalBlocks ≠ 0 := by
    have := hcs.first.1
    omega
  have hpages' := hpages
  rw [← length_map (f := pageOf)] at hpages'
  have hwalk := walk_pages hcs hhead (by simpa using hne) hpages'
  rw [length_map] at hwalk
  have hload := load_pages [] tags hpages hflat htags hmax hvalid hfit
  rw [tagRegistryLoad, if_neg hrun0, registryLoadLoop_eq, hwalk]
  simp only [Option.map_some, nil_append] at hload ⊢
  rw [show tagRegistryInit = registryOf [] from rfl, hload]

theorem registryPages_ne_nil (tags : List TagPair) : registryPages tags ≠ [] := packFrom_ne_nil [] (entriesFrom 0 tags)

theorem registryPages_flatten (tags : List TagPair) : (registryPages tags).flatten = entriesFrom 0 tags := by
  rw [registryPages, packFrom_flatten, nil_append]

theorem flush_load (htags : tags.Nodup) (hmax : tags.length ≤ maxTagId + 1) (hvalid : ∀ p ∈ tags, ValidTag p)
    {cs : ChainState} {firstBlock : Nat} (hcs : ChainAt cs firstBlock) (d : Medium)
    (hok : (tagRegistryFlush (registryOf tags) cs firstBlock).ok = true) :
    ∃ chain,
      tagRegistryLoad cs.space.totalBlocks (applyWrites d (tagRegistryFlush (registryOf tags) cs firstBlock).writes)
        tagRegistryInit firstBlock =
        some (registryOf tags, chain) := by
  have hflush := flush_writes (registryOf_inv htags hmax) hvalid hcs
  obtain ⟨hcs', hhead, htotal⟩ := flush_chainAt hcs hflush
  have hpages := flush_pagesAt hflush hok d
  rw [length_map] at hpages
  have hload := load_chain hcs' hhead (registryPages_ne_nil tags) hpages (registryPages_flatten tags) htags hmax hvalid
    (registryPages_fit hvalid)
  rw [htotal] at hload
  exact ⟨_, hload⟩

/-! ## Runs -/

/-- A registry, its chain and the medium. -/
structure RegistryVolume where
  reg : TagRegistry
  cs : ChainState
  medium : Medium

/-- A call of the registry, or a flush of it. -/
inductive RegistryVolumeOp where
  | call (op : RegistryOp)
  | flush
deriving DecidableEq

def RegistryVolumeOp.apply (firstBlock : Nat) : RegistryVolumeOp → RegistryVolume → RegistryVolume
  | .call op, v => { v with reg := (op.apply v.reg).1 }
  | .flush, v =>
    let r := tagRegistryFlush v.reg v.cs firstBlock
    { v with cs := r.state, medium := applyWrites v.medium r.writes }

def runRegistryVolume (firstBlock : Nat) : RegistryVolume → List RegistryVolumeOp → RegistryVolume
  | v, [] => v
  | v, op :: ops => runRegistryVolume firstBlock (op.apply firstBlock v) ops

/-- The calls of a run, without its flushes. -/
def callsOf (ops : List RegistryVolumeOp) : List RegistryOp :=
  ops.filterMap fun
    | .call op => some op
    | .flush => none

/-- Along a run the registry follows the calls, and the chain stays one that starts at the first block. -/
theorem runRegistryVolume_spec {firstBlock total : Nat} (ops : List RegistryVolumeOp) {v : RegistryVolume}
    {tags : List TagPair} (hreg : v.reg = registryOf tags) (hinv : (registryOf tags).Inv tags)
    (hcs : ChainAt v.cs firstBlock) (htotal : v.cs.space.totalBlocks = total)
    (hvalid : ∀ p ∈ tagsAfter tags (callsOf ops), ValidTag p)
    (hmax : (tagsAfter tags (callsOf ops)).length ≤ maxTagId + 1) :
    (runRegistryVolume firstBlock v ops).reg = registryOf (tagsAfter tags (callsOf ops)) ∧
    ChainAt (runRegistryVolume firstBlock v ops).cs firstBlock ∧
    (runRegistryVolume firstBlock v ops).cs.space.totalBlocks = total := by
  induction ops generalizing v tags with
  | nil => exact ⟨hreg, hcs, htotal⟩
  | cons op ops ih =>
    cases op with
    | call op =>
      have hle := (tagsAfter_grows (op.tags tags) (callsOf ops)).length_le
      obtain ⟨happly, hinv', -⟩ := apply_spec hinv op (hle.trans hmax)
      exact ih (by rw [← happly, ← hreg]; rfl) hinv' hcs htotal hvalid hmax
    | flush =>
      have hpre := tagsAfter_grows tags (callsOf ops)
      have hflush := flush_writes hinv (fun p hp => hvalid p (hpre.subset hp)) hcs
      rw [← hreg] at hflush
      obtain ⟨hcs', -, htotal'⟩ := flush_chainAt hcs hflush
      exact ih hreg hinv hcs' (htotal'.trans htotal) hvalid hmax

theorem lookup_isSome_iff (h : (registryOf tags).Inv tags) (p : TagPair) :
    (tagRegistryLookup (registryOf tags) p.1 p.2).isSome = true ↔ p ∈ tags := by
  rw [tagRegistryLookup, ← not_iff_not, not_isSome_iff_eq_none]
  exact lookup_eq_none_iff h

theorem lookup_inj (h : (registryOf tags).Inv tags) {p q : TagPair} {t : TagId}
    (hp : tagRegistryLookup (registryOf tags) p.1 p.2 = some t)
    (hq : tagRegistryLookup (registryOf tags) q.1 q.2 = some t) : p = q := by
  obtain ⟨i, hi, rfl⟩ := (lookup_eq_some_iff h).mp hp
  obtain ⟨j, hj, hij⟩ := (lookup_eq_some_iff h).mp hq
  obtain rfl := idAt_inj (index_lt h hi) (index_lt h hj) hij
  exact some.inj (hi.symm.trans hj)

/-- The group of a key lists the ids of the tags with that key, each once. -/
theorem keyGroup_spec (h : (registryOf tags).Inv tags) (key : CStr) :
    match tagRegistryKeyGroup (registryOf tags) key with
    | none => ∀ value, tagRegistryLookup (registryOf tags) key value = none
    | some group => group.tagIds.Nodup ∧
        ∀ t, t ∈ group.tagIds ↔ ∃ value, tagRegistryLookup (registryOf tags) key value = some t := by
  have hmem : ∀ t, t ∈ groupIds tags key ↔ ∃ value, tagRegistryLookup (registryOf tags) key value = some t := by
    intro t
    rw [mem_groupIds]
    constructor
    · rintro ⟨i, p, hget, rfl, rfl⟩
      exact ⟨p.2, (lookup_eq_some_iff h).mpr ⟨i, hget, rfl⟩⟩
    · rintro ⟨value, hl⟩
      obtain ⟨i, hget, rfl⟩ := (lookup_eq_some_iff h).mp hl
      exact ⟨i, (key, value), hget, rfl, rfl⟩
  have hgroup := h.group key
  cases hg : tagRegistryKeyGroup (registryOf tags) key with
  | none =>
    rw [hg] at hgroup
    by_cases hnil : groupIds tags key = []
    · intro value
      rw [eq_none_iff_forall_ne_some]
      intro t ht
      have := (hmem t).mpr ⟨value, ht⟩
      rw [hnil] at this
      exact not_mem_nil this
    · rw [if_neg hnil] at hgroup
      cases hgroup
  | some group =>
    rw [hg] at hgroup
    by_cases hnil : groupIds tags key = []
    · rw [if_pos hnil] at hgroup
      cases hgroup
    rw [if_neg hnil] at hgroup
    have hids : group.tagIds = groupIds tags key := some.inj hgroup
    have hlen : tags.length ≤ 2 ^ 16 := h.length_le.trans (by decide)
    simp only [hids]
    exact ⟨groupIds_nodup hlen key, hmem⟩

/-- The registry is a bijection between the interned tags and their ids, and a flush followed by a load of the chain
into a fresh registry rebuilds it; a flush fails only on a full volume. -/
theorem registry_persistent {space : Space} (hspace : space.Inv) (hbound : space.totalBlocks < 2 ^ 32)
    (hzero : space.Holds 0) {firstBlock : Nat} (hfirst : space.Holds firstBlock) (medium : Medium)
    (ops : List RegistryVolumeOp) (hvalid : ∀ p, RegistryOp.intern p ∈ callsOf ops → ValidTag p)
    (hmax : (tagsAfter [] (callsOf ops)).length ≤ maxTagId + 1) :
    let v := runRegistryVolume firstBlock ⟨tagRegistryInit, ⟨[], space⟩, medium⟩ ops
    let results := (runRegistry tagRegistryInit (callsOf ops)).2
    let r := tagRegistryFlush v.reg v.cs firstBlock
    (∀ (a : Nat) p, (callsOf ops)[a]? = some (.intern p) →
        ∃ t, results[a]? = some (some t) ∧ tagRegistryLookup v.reg p.1 p.2 = some t) ∧
      (∀ (p q : TagPair) t, tagRegistryLookup v.reg p.1 p.2 = some t →
        tagRegistryLookup v.reg q.1 q.2 = some t → p = q) ∧
      (∀ p : TagPair, (tagRegistryLookup v.reg p.1 p.2).isSome = true ↔ RegistryOp.intern p ∈ callsOf ops) ∧
      (∀ key, match tagRegistryKeyGroup v.reg key with
        | none => ∀ value, tagRegistryLookup v.reg key value = none
        | some group => group.tagIds.Nodup ∧
            ∀ t, t ∈ group.tagIds ↔ ∃ value, tagRegistryLookup v.reg key value = some t) ∧
      (r.ok = true →
      ∃ chain, tagRegistryLoad space.totalBlocks (applyWrites v.medium r.writes) tagRegistryInit firstBlock =
        some (v.reg, chain)) ∧
      (r.ok = false → ∀ b, ¬ r.state.space.IsFree b) := by
  have hcs : ChainAt ⟨[], space⟩ firstBlock :=
    ⟨⟨hspace, hzero, nodup_nil, fun b hb => (not_mem_nil hb).elim, not_mem_nil⟩, hfirst, Or.inl rfl, hbound⟩
  have hvalid' : ∀ p ∈ tagsAfter [] (callsOf ops), ValidTag p := fun p hp =>
    hvalid p ((mem_tagsAfter.mp hp).resolve_left not_mem_nil)
  have hinit : (registryOf []).Inv [] := init_inv
  obtain ⟨-, hinv, hids⟩ := runRegistry_spec (callsOf ops) hinit hmax
  have hstart : (⟨tagRegistryInit, ⟨[], space⟩, medium⟩ : RegistryVolume).reg = registryOf [] := rfl
  obtain ⟨hreg, hcs', htotal⟩ := runRegistryVolume_spec ops hstart hinit hcs rfl hvalid' hmax
  intro v results r
  have hv : v.reg = registryOf (tagsAfter [] (callsOf ops)) := hreg
  have hr : r = tagRegistryFlush (registryOf (tagsAfter [] (callsOf ops))) v.cs firstBlock := by rw [← hv]
  rw [hv, hr]
  refine ⟨?_, fun p q t => lookup_inj hinv, ?_, keyGroup_spec hinv, ?_, ?_⟩
  · intro a p hget
    obtain ⟨i, hi, hres⟩ := hids a p hget
    exact ⟨idAt i, hres, (lookup_eq_some_iff hinv).mpr ⟨i, hi, rfl⟩⟩
  · intro p
    rw [lookup_isSome_iff hinv, mem_tagsAfter]
    simp
  · intro hok
    have := flush_load hinv.nodup hinv.length_le hvalid' hcs' v.medium hok
    rwa [htotal] at this
  · exact (flush_writes hinv hvalid' hcs').full

/-- A volume of eight blocks with the first three taken. -/
def smallSpace : Space := ⟨[0x07], 8, [⟨3, 5⟩], 1, 5⟩

theorem smallSpace_inv : smallSpace.Inv := by
  have hmount : mountSpace 8 (fun _ => 0x07) = some smallSpace := by decide
  exact (mountSpace_inv (by decide) hmount).1

/-- Two tags with one key, flushed in between and at the end. -/
def twoTags : List RegistryVolumeOp :=
  [.call (.intern (CStr.ofBuffer [97], none)), .flush,
    .call (.intern (CStr.ofBuffer [97], some (CStr.ofBuffer [98])))]

theorem registry_persistent_two :
    let v := runRegistryVolume 0 ⟨tagRegistryInit, ⟨[], smallSpace⟩, fun _ => []⟩ twoTags
    tagRegistryLookup v.reg (CStr.ofBuffer [97]) none = some 0 ∧
      ∃ chain, tagRegistryLoad 8 (applyWrites v.medium (tagRegistryFlush v.reg v.cs 0).writes) tagRegistryInit 0 =
        some (v.reg, chain) := by
  have hvalid : ∀ p, RegistryOp.intern p ∈ callsOf twoTags → ValidTag p := by
    intro p hp
    have hcalls : callsOf twoTags = [.intern (CStr.ofBuffer [97], none),
      .intern (CStr.ofBuffer [97], some (CStr.ofBuffer [98]))] := rfl
    rw [hcalls, mem_cons, mem_singleton] at hp
    rcases hp with hp | hp
    · obtain rfl := RegistryOp.intern.inj hp
      exact ⟨by decide, fun value hv => (nomatch hv)⟩
    obtain rfl := RegistryOp.intern.inj hp
    refine ⟨by decide, fun value hv => ?_⟩
    obtain rfl := some.inj hv
    decide
  have hmain := registry_persistent smallSpace_inv (by decide) (by decide) (show smallSpace.Holds 0 by decide)
    (fun _ => []) twoTags hvalid (by decide)
  obtain ⟨hids, -, -, -, hload, -⟩ := hmain
  refine ⟨?_, hload (by decide +kernel)⟩
  obtain ⟨t, ht, hlookup⟩ := hids 0 (CStr.ofBuffer [97], none) rfl
  have ht0 : t = 0 := by
    have : (runRegistry tagRegistryInit (callsOf twoTags)).2[0]? = some (some 0) := by decide +kernel
    exact some.inj (some.inj (ht.symm.trans this))
  rw [← ht0]
  exact hlookup

end BoxOS.TagFS
