import BoxOS.TagFS.FileTable
import BoxOS.TagFS.RegistryRun

/-!
# Flushes that are cut off

A flush that stops after some of its block writes, over a chain that was flushed before. Both flushes write a block
together with the link to the next one, before they write the next one. So a flush that takes no further block can stop
anywhere, while one that appends a block leaves a link into whatever that block held.

- `RegistryKept`, `TableKept`: the volume still mounts, with what the last flush had;
- this holds after every prefix of the writes when the flush is `Quiet` (`registry_cut_quiet`, `table_cut_quiet`), and
  otherwise only if a stale block happens to carry the magic of the chain.
-/

namespace BoxOS.TagFS

open Lib List

/-- The chain and the medium some time after a successful flush `r` to `d₀`: other blocks may have been taken, freed and
written since. -/
structure SinceFlush (r : FlushResult) (d₀ : Medium) (firstBlock : Nat) (cs : ChainState) (d : Medium) : Prop where
  ok : r.ok = true
  chainAt : ChainAt cs firstBlock
  chain : cs.chain = r.state.chain
  kept : ∀ b ∈ cs.chain, d b = applyWrites d₀ r.writes b

/-- No block that an interrupted flush could link to without writing it carries the magic of the chain. -/
def NoStaleMagic (F : ChainFormat Block) (cs : ChainState) (used : Nat) (d : Medium) : Prop :=
  ∀ b, cs.space.IsFree b ∨ b ∈ cs.chain.drop used → F.good (d b) = false

section

variable {P : Type} {F : ChainFormat Block} {codec : PageCodec P F} {cs₀ cs : ChainState} {pages : List P}
  {r : FlushResult} {d₀ d : Medium} {firstBlock : Nat}

theorem SinceFlush.pagesAt (hsince : SinceFlush r d₀ firstBlock cs d) (hr : Flushes codec cs₀ 0 pages r) :
    PagesAt codec.enc d (cs.chain.take pages.length) pages ∧ pages.length ≤ cs.chain.length := by
  have hlong := hr.long hsince.ok
  rw [Nat.zero_add] at hlong
  refine ⟨?_, hsince.chain ▸ hlong⟩
  rw [hsince.chain]
  refine (flush_pagesAt hr hsince.ok d₀).congr ?_
  intro b hb
  exact hsince.kept b (hsince.chain ▸ mem_of_mem_take hb)

theorem SinceFlush.start (hsince : SinceFlush r d₀ firstBlock cs d) (hr : Flushes codec cs₀ 0 pages r)
    (hne : pages ≠ []) : cs.start firstBlock = cs ∧ cs.chain[0]? = some firstBlock := by
  have hlong := (hsince.pagesAt hr).2
  have hpos := length_pos_of_ne_nil hne
  have hchain : cs.chain ≠ [] := ne_nil_of_length_pos (by omega)
  refine ⟨if_neg (by omega), ?_⟩
  rw [← head?_eq_getElem?]
  exact hsince.chainAt.head.resolve_left hchain

end

/-! ## The registry -/

/-- The registry loads, and finds every tag of `reg` under its id. -/
def RegistryKept (run firstBlock : Nat) (reg : TagRegistry) (d : Medium) : Prop :=
  ∃ reg' chain, tagRegistryLoad run d tagRegistryInit firstBlock = some (reg', chain) ∧
    ∀ key value t, tagRegistryLookup reg key value = some t → tagRegistryLookup reg' key value = some t

theorem packFrom_append (cur es fs : List TagRegistryEntry) :
    ∃ front last, packFrom cur es = front ++ [last] ∧ packFrom cur (es ++ fs) = front ++ packFrom last fs := by
  induction es generalizing cur with
  | nil => exact ⟨[], cur, rfl, rfl⟩
  | cons e es ih =>
    rw [cons_append, packFrom, packFrom]
    by_cases hfull : recordsSize cur + e.recordSize > registryDataSize
    · obtain ⟨front, last, hold, hnew⟩ := ih [e]
      rw [if_pos hfull, if_pos hfull, hold, hnew]
      exact ⟨cur :: front, last, rfl, rfl⟩
    · rw [if_neg hfull, if_neg hfull]
      exact ih (cur ++ [e])

theorem registryPages_append {tags tags' : List TagPair} (h : tags <+: tags') :
    ∃ front last rest, registryPages tags = front ++ [last] ∧ registryPages tags' = front ++ rest ∧ rest ≠ [] := by
  obtain ⟨more, rfl⟩ := h
  obtain ⟨front, last, hold, hnew⟩ := packFrom_append [] (entriesFrom 0 tags) (entriesFrom (0 + tags.length) more)
  refine ⟨front, last, packFrom last (entriesFrom (0 + tags.length) more), hold, ?_, packFrom_ne_nil _ _⟩
  rw [registryPages, entriesFrom_append, hnew]

theorem mixed_pages {α : Type} {front rest : List α} {last : α} {j : Nat}
    (hj : (front ++ rest).length ≠ (front ++ [last]).length → j < (front ++ [last]).length) :
    (front ++ rest).take j ++ (front ++ [last]).drop j = front ++ [last] ∨
    (front ++ rest).take j ++ (front ++ [last]).drop j = front ++ rest ∧
    (front ++ rest).length = (front ++ [last]).length := by
  by_cases hle : j ≤ front.length
  · left
    rw [take_append_of_le_length hle, drop_append_of_le_length hle, ← append_assoc,
      take_append_drop]
  right
  have hlen : (front ++ rest).length = (front ++ [last]).length := by
    by_contra hc
    have := hj hc
    rw [length_append, length_singleton] at this
    omega
  refine ⟨?_, hlen⟩
  rw [take_of_length_le, drop_of_length_le, append_nil]
  · rw [length_append, length_singleton]
    omega
  · rw [hlen, length_append, length_singleton]
    omega

theorem lookup_of_more {tags tags' : List TagPair} (h : (registryOf tags).Inv tags) (h' : (registryOf tags').Inv tags')
    (hpre : tags <+: tags') {key : CStr} {value : Option CStr} {t : TagId}
    (hl : tagRegistryLookup (registryOf tags) key value = some t) :
    tagRegistryLookup (registryOf tags') key value = some t := by
  obtain ⟨i, hi, rfl⟩ := (lookup_eq_some_iff h).mp hl
  refine (lookup_eq_some_iff h').mpr ⟨i, ?_, rfl⟩
  obtain ⟨more, rfl⟩ := hpre
  rw [getElem?_append_left (List.getElem?_eq_some_iff.mp hi).1, hi]

section RegistryCut

variable {tags tags' : List TagPair} (hpre : tags <+: tags') (hnd : tags'.Nodup) (hmax : tags'.length ≤ maxTagId + 1)
  (hvalid : ∀ p ∈ tags', ValidTag p) {cs₀ cs : ChainState} {firstBlock : Nat} (hcs₀ : ChainAt cs₀ firstBlock)
  {d₀ d : Medium} (hsince : SinceFlush (tagRegistryFlush (registryOf tags) cs₀ firstBlock) d₀ firstBlock cs d)

include hpre hnd hmax hvalid hcs₀ hsince

/-- A quiet flush of the registry can be cut off anywhere. -/
theorem registry_cut_quiet (hquiet : Quiet cs (registryPages tags) (registryPages tags')) (k : Nat) :
    RegistryKept cs.space.totalBlocks firstBlock (registryOf tags)
      (applyWrites d ((tagRegistryFlush (registryOf tags') cs firstBlock).writes.take k)) := by
  have hvalid₀ : ∀ p ∈ tags, ValidTag p := fun p hp => hvalid p (hpre.subset hp)
  have hinv' := registryOf_inv hnd hmax
  have hinv := registryOf_inv (hnd.sublist hpre.sublist) (hpre.length_le.trans hmax)
  have hflush₀ := flush_writes hinv hvalid₀ hcs₀
  have hne : (registryPages tags).map pageOf ≠ [] := by simpa using registryPages_ne_nil tags
  obtain ⟨hstart, hhead⟩ := hsince.start hflush₀ hne
  obtain ⟨hpages, hlong⟩ := hsince.pagesAt hflush₀
  have hflush := flush_writes hinv' hvalid hsince.chainAt
  rw [hstart] at hflush
  obtain ⟨front, last, rest, hold, hnew, hrest⟩ := registryPages_append hpre
  have hmore : ((registryPages tags).map pageOf).length ≤ ((registryPages tags').map pageOf).length := by
    have := length_pos_of_ne_nil hrest
    rw [length_map, length_map, hold, hnew, length_append, length_append, length_singleton]
    omega
  have hquiet' : Quiet cs ((registryPages tags).map pageOf) ((registryPages tags').map pageOf) := by
    simpa only [Quiet, length_map] using hquiet
  obtain ⟨j, hmix, hj⟩ := cut_same hpages hsince.chainAt.ok hlong hne hmore hflush hquiet' k
  rw [length_map, length_map] at hj
  rw [length_map, ← map_take, ← map_drop, ← map_append] at hmix
  rw [hold, hnew] at hj
  rcases mixed_pages hj with hm | ⟨hm, hlen⟩
  · rw [hold, hnew, hm, ← hold] at hmix
    exact ⟨_, _, load_chain hsince.chainAt hhead (registryPages_ne_nil tags) hmix (registryPages_flatten tags)
      hinv.nodup hinv.length_le hvalid₀ (registryPages_fit hvalid₀), fun key value t ht => ht⟩
  rw [hold, hnew, hm, ← hlen, ← hnew] at hmix
  exact ⟨_, _, load_chain hsince.chainAt hhead (registryPages_ne_nil tags') hmix (registryPages_flatten tags')
    hinv'.nodup hinv'.length_le hvalid (registryPages_fit hvalid),
    fun key value t ht => lookup_of_more hinv hinv' hpre ht⟩

/-- A flush of the registry that is not quiet can be cut off so that nothing loads any more. -/
theorem registry_cut_append (hquiet : ¬ Quiet cs (registryPages tags) (registryPages tags'))
    (hstale : NoStaleMagic (chainFormat registryMagic) cs (registryPages tags).length d) :
    tagRegistryLoad cs.space.totalBlocks
      (applyWrites d ((tagRegistryFlush (registryOf tags') cs firstBlock).writes.take (registryPages tags).length))
      tagRegistryInit firstBlock = none := by
  have hvalid₀ : ∀ p ∈ tags, ValidTag p := fun p hp => hvalid p (hpre.subset hp)
  have hinv' := registryOf_inv hnd hmax
  have hinv := registryOf_inv (hnd.sublist hpre.sublist) (hpre.length_le.trans hmax)
  have hflush₀ := flush_writes hinv hvalid₀ hcs₀
  have hne : (registryPages tags).map pageOf ≠ [] := by simpa using registryPages_ne_nil tags
  obtain ⟨hstart, hhead⟩ := hsince.start hflush₀ hne
  obtain ⟨-, hlong⟩ := hsince.pagesAt hflush₀
  have hflush := flush_writes hinv' hvalid hsince.chainAt
  rw [hstart] at hflush
  obtain ⟨front, last, rest, hold, hnew, hrest⟩ := registryPages_append hpre
  have hmore : ((registryPages tags).map pageOf).length < ((registryPages tags').map pageOf).length := by
    have hpos := length_pos_of_ne_nil hrest
    have hneq : (registryPages tags').length ≠ (registryPages tags).length := fun h => hquiet (Or.inl h)
    rw [hold, hnew, length_append, length_append, length_singleton] at hneq
    rw [length_map, length_map, hold, hnew, length_append, length_append, length_singleton]
    omega
  have hquiet' : ¬ Quiet cs ((registryPages tags).map pageOf) ((registryPages tags').map pageOf) := by
    simpa only [Quiet, length_map] using hquiet
  have hwalk := cut_append hsince.chainAt.bound hhead hlong hmore hflush hquiet'
    (by simpa only [NoStaleMagic, length_map] using hstale) cs.space.totalBlocks cs.space.totalBlocks
  rw [length_map] at hwalk
  rw [tagRegistryLoad, registryLoadLoop_eq, hwalk]
  split <;> rfl

end RegistryCut

/-! ## The file table -/

/-- The table is read, and has every file of both tables, as in one of them. -/
def TableKept (run firstBlock : Nat) (t t' : FileTable) (d : Medium) : Prop :=
  ∃ loaded chain, fileTableInit run d firstBlock = some (loaded, chain) ∧
    ∀ f e e', fileTableLookup t f = some e → fileTableLookup t' f = some e' →
      fileTableLookup loaded f = some e ∨ fileTableLookup loaded f = some e'

theorem fileTableLookup_eq_some_iff {t : FileTable} {f : Nat} {e : FileTableEntry} :
    fileTableLookup t f = some e ↔ t.entries[f]? = some e ∧ e.metaBlock ≠ 0 := by
  simp only [fileTableLookup]
  by_cases hf : f < t.entries.length
  · rw [getD_eq_getElem?_getD, getElem?_eq_getElem hf, Option.getD_some]
    by_cases hz : (t.entries[f]).metaBlock = 0
    · rw [if_pos (Or.inr hz)]
      refine iff_of_false (nofun) ?_
      rintro ⟨he, hne⟩
      exact hne (Option.some.inj he ▸ hz)
    rw [if_neg (not_or.mpr ⟨not_le.mpr hf, hz⟩)]
    constructor
    · intro he
      exact ⟨he, Option.some.inj he ▸ hz⟩
    · exact fun he => he.1
  · rw [if_pos (Or.inl (by omega)), getElem?_eq_none (by omega)]
    simp

section TableCut

variable {t t' : FileTable} (hdirty : t.dirty = true) (hne : t.entries ≠ [])
  (hmore : t.entries.length ≤ t'.entries.length) (hdirty' : t'.dirty = true) {cs₀ cs : ChainState} {firstBlock : Nat}
  (hcs₀ : ChainAt cs₀ firstBlock) (hhead₀ : cs₀.chain[0]? = some firstBlock) {d₀ d : Medium}
  (hsince : SinceFlush (fileTableFlush t cs₀) d₀ firstBlock cs d)

include hdirty hne hmore hdirty' hcs₀ hhead₀ hsince

theorem table_flushes : Flushes tableCodec cs₀ 0 (tablePages t.entries) (fileTableFlush t cs₀) ∧
    Flushes tableCodec cs 0 (tablePages t'.entries) (fileTableFlush t' cs) ∧ cs.chain[0]? = some firstBlock ∧
    (tablePages t.entries).length ≤ (tablePages t'.entries).length := by
  have hflush₀ := fileTableFlush_spec hdirty hne hcs₀.ok hhead₀
  obtain ⟨-, hhead⟩ := hsince.start hflush₀ (tablePages_ne_nil hne)
  have hne' : t'.entries ≠ [] := by
    have := length_pos_of_ne_nil hne
    exact ne_nil_of_length_pos (by omega)
  refine ⟨hflush₀, fileTableFlush_spec hdirty' hne' hsince.chainAt.ok hhead, hhead, ?_⟩
  rw [length_tablePages, length_tablePages]
  exact Nat.div_le_div_right (by omega)

/-- A quiet flush of the file table can be cut off anywhere. -/
theorem table_cut_quiet (hquiet : Quiet cs (tablePages t.entries) (tablePages t'.entries)) (k : Nat) :
    TableKept cs.space.totalBlocks firstBlock t t' (applyWrites d ((fileTableFlush t' cs).writes.take k)) := by
  obtain ⟨hflush₀, hflush, hhead, hle⟩ := table_flushes hdirty hne hmore hdirty' hcs₀ hhead₀ hsince
  obtain ⟨hpages, hlong⟩ := hsince.pagesAt hflush₀
  obtain ⟨j, hmix, -⟩ := cut_same hpages hsince.chainAt.ok hlong (tablePages_ne_nil hne) hle hflush hquiet k
  have hlen :
      ((tablePages t'.entries).take j ++ (tablePages t.entries).drop j).length = (tablePages t.entries).length := by
    have := hmix.length
    rw [length_take, min_eq_left hlong] at this
    exact this.symm
  have hsmall : ∀ page ∈ (tablePages t'.entries).take j ++ (tablePages t.entries).drop j,
      page.length ≤ tablePerBlock := by
    intro page hp
    rcases mem_append.mp hp with hp | hp
    · exact length_le_of_mem_tablePages (mem_of_mem_take hp)
    · exact length_le_of_mem_tablePages (mem_of_mem_drop hp)
  have hne'' : (tablePages t'.entries).take j ++ (tablePages t.entries).drop j ≠ [] := by
    apply ne_nil_of_length_pos
    rw [hlen]
    exact length_pos_of_ne_nil (tablePages_ne_nil hne)
  rw [← hlen] at hmix
  refine ⟨_, _, init_pages hsince.chainAt hhead hne'' hmix hsmall, ?_⟩
  intro f e e' he he'
  obtain ⟨hget, hpos⟩ := fileTableLookup_eq_some_iff.mp he
  obtain ⟨hget', hpos'⟩ := fileTableLookup_eq_some_iff.mp he'
  obtain ⟨page, hpage, hentry⟩ := tablePages_getElem? (List.getElem?_eq_some_iff.mp hget).1
  obtain ⟨page', hpage', hentry'⟩ := tablePages_getElem? (List.getElem?_eq_some_iff.mp hget').1
  have hin := (List.getElem?_eq_some_iff.mp hpage).1
  -- the block of the entry has been rewritten, or not yet
  by_cases hj : f / tablePerBlock < j
  · right
    refine fileTableLookup_eq_some_iff.mpr ⟨tableOf_getElem? hsmall ?_ (hentry'.trans hget'), hpos'⟩
    rw [getElem?_append_left (by rw [length_take]; omega), getElem?_take_of_lt hj, hpage']
  left
  refine fileTableLookup_eq_some_iff.mpr ⟨tableOf_getElem? hsmall ?_ (hentry.trans hget), hpos⟩
  have htake : ((tablePages t'.entries).take j).length = j := by rw [length_take, min_eq_left (by omega)]
  rw [getElem?_append_right (by omega), htake, getElem?_drop, show j + (f / tablePerBlock - j) =
    f / tablePerBlock by omega, hpage]

theorem table_cut_append (hquiet : ¬ Quiet cs (tablePages t.entries) (tablePages t'.entries))
    (hstale : NoStaleMagic (chainFormat fileTableMagic) cs (tablePages t.entries).length d) :
    fileTableInit cs.space.totalBlocks
      (applyWrites d ((fileTableFlush t' cs).writes.take (tablePages t.entries).length)) firstBlock = none := by
  obtain ⟨hflush₀, hflush, hhead, hle⟩ := table_flushes hdirty hne hmore hdirty' hcs₀ hhead₀ hsince
  obtain ⟨-, hlong⟩ := hsince.pagesAt hflush₀
  have hlt : (tablePages t.entries).length < (tablePages t'.entries).length :=
    lt_of_le_of_ne hle fun h => hquiet (Or.inl h.symm)
  have hwalk := cut_append hsince.chainAt.bound hhead hlong hlt hflush hquiet hstale cs.space.totalBlocks
    cs.space.totalBlocks
  rw [fileTableInit, fileTableInitLoop_eq, hwalk]
  split <;> rfl

omit hmore hdirty' in
theorem table_cut_clean (hclean : t'.dirty = false) (k : Nat) :
    TableKept cs.space.totalBlocks firstBlock t t' (applyWrites d ((fileTableFlush t' cs).writes.take k)) := by
  have hquiet : Quiet cs (tablePages t.entries) (tablePages t.entries) := Or.inl rfl
  obtain ⟨loaded, chain, hinit, hkeep⟩ :=
    table_cut_quiet hdirty hne (le_refl _) hdirty hcs₀ hhead₀ hsince hquiet 0
  have hwrites : (fileTableFlush t' cs).writes.take k = (fileTableFlush t cs).writes.take 0 := by
    rw [fileTableFlush, if_pos hclean, take_zero, take_nil]
  rw [hwrites]
  exact ⟨loaded, chain, hinit, fun f e e' he _ => Or.inl (or_self_iff.mp (hkeep f e e he he))⟩

end TableCut

/-! ## Both flushes -/

/-- A medium on which nothing has been written. -/
def blankMedium : Medium := fun _ => replicate 4096 0

/-- A chain of one block on a volume of eight. -/
def oneBlock : ChainState := ⟨[1], smallSpace⟩

theorem oneBlock_chainAt : ChainAt oneBlock 1 :=
  ⟨⟨smallSpace_inv, by decide, by decide, by decide, by decide⟩, by decide, Or.inr rfl, by decide⟩

/-- The file table of a fresh volume, with one file in it. -/
def oneFile : FileTable := ⟨(replicate 510 noEntry).set 1 ⟨2, 16⟩, true⟩

theorem oneFile_flush : (fileTableFlush oneFile oneBlock).ok = true ∧
    (fileTableFlush oneFile oneBlock).state = oneBlock ∧
    (fileTableFlush oneFile oneBlock).writes.map Prod.fst = [1] := by decide +kernel

theorem oneFile_since (d₀ : Medium) :
    SinceFlush (fileTableFlush oneFile oneBlock) d₀ 1 oneBlock
      (applyWrites d₀ (fileTableFlush oneFile oneBlock).writes) :=
  ⟨oneFile_flush.1, oneBlock_chainAt, by rw [oneFile_flush.2.1], fun _ _ => rfl⟩

theorem oneFile_ne_nil : oneFile.entries ≠ [] := by decide

theorem oneTag_flush : (tagRegistryFlush (registryOf [(CStr.ofBuffer [97], none)]) ⟨[], smallSpace⟩ 0).ok = true ∧
    (tagRegistryFlush (registryOf [(CStr.ofBuffer [97], none)]) ⟨[], smallSpace⟩ 0).state = ⟨[0], smallSpace⟩ := by
  decide +kernel

end BoxOS.TagFS
