import BoxOS.TagFS.TagCoherence

/-!
# Runs on a mounted volume

A volume is mounted, which builds the tag index from the metadata, and then files are created, deleted, renamed and
tagged in any order, with any of the block reads and writes failing. `tag_index_coherent`: the index and the metadata
say the same about every file and every tag.

`tagfs_init` looks for files below `next_file_id` only; `unsynced_file_not_indexed` is a file table that has been
flushed without the ledger.
-/

namespace BoxOS.TagFS

open Lib

inductive VolumeOp where
  | create (filename : CStr) (tagIds : List TagId)
  | delete (f : Nat)
  | rename (f : Nat) (newFilename : CStr)
  | addTag (f : Nat) (t : TagId)
  | removeTag (f : Nat) (t : TagId)
  | addTagString (f : Nat) (key : CStr) (value : Option CStr)
  | removeTagString (f : Nat) (key : CStr)
  | chainWrite (block : Option Nat) (content : Block)

def VolumeOp.apply : VolumeOp → Volume → Option Volume
  | .create filename tagIds, v => (v.createFile filename tagIds).map (·.1)
  | .delete f, v => some (v.deleteFile f).1
  | .rename f newFilename, v => (v.renameFile f newFilename).map (·.1)
  | .addTag f t, v => (v.addTag f t).map (·.1)
  | .removeTag f t, v => some (v.removeTag f t).1
  | .addTagString f key value, v => (v.addTagString f key value).map (·.1)
  | .removeTagString f key, v => some (v.removeTagString f key).1
  | .chainWrite block content, v => some (v.chainWrite block content)

def volumeRun : List VolumeOp → Volume → Option Volume
  | [], v => some v
  | op :: ops, v => (op.apply v).bind (volumeRun ops)

/-- Tag ids are such as the registry hands out. -/
def VolumeOp.RegistryIds : VolumeOp → Prop
  | .create _ tagIds => ∀ t ∈ tagIds, t.toNat ≤ maxTagId
  | .addTag _ t => t.toNat ≤ maxTagId
  | _ => True

/-- A new file gets an id that no file has. -/
def VolumeOp.FreshId (v : Volume) : VolumeOp → Prop
  | .create _ _ => v.nextFileId ≠ 0 ∧ fileTableLookup v.table v.nextFileId.toNat = none
  | _ => True

instance (op : VolumeOp) : Decidable op.RegistryIds := by
  cases op <;> unfold VolumeOp.RegistryIds <;> first | exact List.decidableBAll _ _ | infer_instance

instance (v : Volume) (op : VolumeOp) : Decidable (op.FreshId v) := by
  cases op <;> unfold VolumeOp.FreshId <;> infer_instance

def FreshIds : List VolumeOp → Volume → Prop
  | [], _ => True
  | op :: ops, v => op.FreshId v ∧ match op.apply v with
    | some v' => FreshIds ops v'
    | none => True

instance decidableFreshIds : (ops : List VolumeOp) → (v : Volume) → Decidable (FreshIds ops v)
  | [], _ => isTrue trivial
  | op :: ops, v =>
    match h : op.apply v with
    | some v' =>
      have := decidableFreshIds ops v'
      decidable_of_iff (op.FreshId v ∧ FreshIds ops v') (by rw [FreshIds, h])
    | none => decidable_of_iff (op.FreshId v) (by rw [FreshIds, h]; exact (and_iff_left trivial).symm)

theorem volumeStep_good {v v' : Volume} {op : VolumeOp} (h : v.Good) (hids : op.RegistryIds) (hfresh : op.FreshId v)
    (hstep : op.apply v = some v') : v'.Good := by
  cases op with
  | create filename tagIds =>
    obtain ⟨⟨v₁, r⟩, hcreate, rfl⟩ := Option.map_eq_some_iff.mp hstep
    exact createFile_good h hids hfresh.1 hfresh.2 hcreate
  | delete f =>
    obtain rfl := Option.some.inj hstep
    exact deleteFile_good h f
  | rename f newFilename =>
    obtain ⟨⟨v₁, r⟩, hrename, rfl⟩ := Option.map_eq_some_iff.mp hstep
    exact renameFile_good h hrename
  | addTag f t =>
    obtain ⟨⟨v₁, r⟩, hadd, rfl⟩ := Option.map_eq_some_iff.mp hstep
    exact addTag_good h hids hadd
  | removeTag f t =>
    obtain rfl := Option.some.inj hstep
    exact removeTag_good h f t
  | addTagString f key value =>
    obtain ⟨⟨v₁, r⟩, hadd, rfl⟩ := Option.map_eq_some_iff.mp hstep
    exact addTagString_good h hadd
  | removeTagString f key =>
    obtain rfl := Option.some.inj hstep
    exact removeKey_good key f _ h
  | chainWrite block content =>
    obtain rfl := Option.some.inj hstep
    exact chainWrite_good h block content

theorem volumeRun_good (ops : List VolumeOp) {v v' : Volume} (h : v.Good) (hids : ∀ op ∈ ops, op.RegistryIds)
    (hfresh : FreshIds ops v) (hrun : volumeRun ops v = some v') : v'.Good := by
  induction ops generalizing v with
  | nil =>
    obtain rfl := Option.some.inj hrun
    exact h
  | cons op ops ih =>
    obtain ⟨v₁, hstep, hrest⟩ := Option.bind_eq_some_iff.mp hrun
    rw [FreshIds, hstep] at hfresh
    exact ih (volumeStep_good h (hids op List.mem_cons_self) hfresh.1 hstep)
      (fun op' hop' => hids op' (List.mem_cons_of_mem _ hop')) hfresh.2 hrest

/-! ## Coherence -/

/-- What `meta_pool_read` finds when the disk answers. -/
def MetaPool.recordAt (p : MetaPool) (place : Nat × Nat) : Option TagFSMetadata :=
  unpackRecord p.space.totalBlocks ((p.content place.1).encode.drop place.2)

/-- The bit of a file in the bitmap of a tag, the tag in the list of the file and the tag in the stored metadata of the
file: all or none. -/
structure TagCoherent (v : Volume) : Prop where
  bit : ∀ f t, v.hasTag f t = true ↔ t ∈ (v.index.tagsOf f).ids
  stored : ∀ f t, t ∈ (v.index.tagsOf f).ids ↔
    ∃ e m, fileTableLookup v.table f = some e ∧ v.pool.recordAt e.place = some m ∧ t ∈ m.tagIds
  nodup : ∀ f, (v.index.tagsOf f).ids.Nodup
  count : ∀ t bm, v.index.bitmapOf t = some bm → bm.fileCount = (fileSet bm.bits).card

theorem recordAt_live {p : MetaPool} {first : Nat} {live : LiveRecords} {place : Nat × Nat} {m : TagFSMetadata}
    (h : p.Inv first live) (hm : live place = some m) : p.recordAt place = some m := by
  obtain ⟨q, hq, hrec, -⟩ := h.record (show live (place.1, place.2) = some m from hm)
  rw [MetaPool.recordAt, hq]
  exact hrec.unpack

theorem hasTag_eq {v : Volume} {c : Carries} (h : v.index.Inv c) (f : Nat) (t : TagId) : v.hasTag f t = c t f := by
  unfold Volume.hasTag
  cases hb : v.index.bitmapOf t with
  | none => exact (h.absent t hb f).symm
  | some bm =>
    have hok := h.bitmap t bm hb
    simp only [hok.bytes]
    rw [testBit8_eq, ← hok.bit f]
    by_cases hin : f / 8 < bm.bits.length
    · rw [decide_eq_true hin, Bool.true_and]
    · rw [decide_eq_false hin, Bool.false_and, bitAt_of_length_le (by omega)]

theorem Volume.Good.coherent {v : Volume} (h : v.Good) : TagCoherent v := by
  obtain ⟨first, live, owner, c, hinv, htag⟩ := h
  have hmem : ∀ f t, t ∈ (v.index.tagsOf f).ids ↔ c t f = true := fun f t => (htag.index.tags f).mem t
  refine ⟨fun f t => ?_, fun f t => ?_, fun f => (htag.index.tags f).nodup,
    fun t bm hb => (htag.index.bitmap t bm hb).count⟩
  · rw [hmem, hasTag_eq htag.index]
  · rw [hmem, htag.carries]
    constructor
    · rintro ⟨m, hm, ht⟩
      obtain ⟨e, hf, hlive⟩ := files_eq_some hm
      exact ⟨e, m, hf, recordAt_live hinv.pool hlive, ht⟩
    · rintro ⟨e, m, hf, hm, ht⟩
      obtain ⟨m', hlive, -⟩ := hinv.entry f e hf
      obtain rfl := Option.some.inj ((recordAt_live hinv.pool hlive).symm.trans hm)
      exact ⟨m', files_of_lookup hf hlive, ht⟩

/-- Every id that has a file is below `next_file_id`. -/
def Volume.IdsBelow (v : Volume) : Prop := ∀ f e, fileTableLookup v.table f = some e → 1 ≤ f ∧ f < v.nextFileId.toNat

theorem mountIndex_good {v v' : Volume} {first : Nat} {live : LiveRecords} {owner : Nat → Option Nat}
    (hinv : v.Inv first live owner) (hreg : v.registry.ValidIds) (hlists : v.TagListsOk live) (hbelow : v.IdsBelow)
    (hmount : v.mountIndex = some v') : v'.Good := by
  obtain ⟨idx, hcreate, hloop⟩ := Option.bind_eq_some_iff.mp hmount
  have hstart : Mounting { v with index := idx } 1 first live owner Carries.none := by
    refine ⟨hinv.congr rfl rfl rfl, hreg, ⟨hlists.nodup, hlists.valid⟩, create_inv hcreate, ?_, fun t f => ?_⟩
    · unfold tagBitmapCreate at hcreate
      split at hcreate
      · cases hcreate
      · obtain rfl := Option.some.inj hcreate
        exact ⟨8, by decide, by rw [List.length_replicate]; rfl⟩
    · constructor
      · exact nofun
      · rintro ⟨hlt, m, hm, -⟩
        obtain ⟨e, hf, -⟩ := files_eq_some hm
        have := (hbelow f e hf).1
        omega
  obtain ⟨hless, c, h⟩ := mountLoop_spec _ hstart hloop
  refine ⟨first, live, owner, c, h.inv, h.registry, h.index, h.doubled, fun t f => ?_, h.lists.nodup, h.lists.valid⟩
  rw [h.carries]
  constructor
  · exact fun ⟨_, hm⟩ => hm
  · rintro ⟨m, hm, ht⟩
    obtain ⟨e, hf, -⟩ := files_eq_some hm
    have := hbelow f e (hless f e hf)
    exact ⟨by omega, m, hm, ht⟩

/-- Index and metadata agree after every run on a mounted volume whose files have ids below `next_file_id`, if every new
file gets an id that no file has. -/
theorem tag_index_coherent {v₀ v v' : Volume} {first : Nat} {live : LiveRecords} {owner : Nat → Option Nat}
    (ops : List VolumeOp) (hinv : v₀.Inv first live owner) (hreg : v₀.registry.ValidIds) (hlists : v₀.TagListsOk live)
    (hbelow : v₀.IdsBelow) (hmount : v₀.mountIndex = some v) (hids : ∀ op ∈ ops, op.RegistryIds)
    (hfresh : FreshIds ops v) (hrun : volumeRun ops v = some v') : TagCoherent v' :=
  (volumeRun_good ops (mountIndex_good hinv hreg hlists hbelow hmount) hids hfresh hrun).coherent

/-! ## An empty volume -/

/-- The pool of a volume of eight blocks that has just been formatted: the pool starts in block 2. -/
def freshPool : MetaPool :=
  ⟨freshBlock, 2, false, [⟨2, 0⟩], [], eightBlocks, noDedup, 0, fun _ => freshBlock.encode, []⟩

def freshVolume : Volume where
  registry := tagRegistryInit
  index := ⟨[], 0, [], 0, []⟩
  table := ⟨List.replicate tablePerBlock noEntry, false⟩
  pool := freshPool
  chains := [0, 1]
  nextFileId := 1
  totalFiles := 0

theorem freshPool_mounted : metaPoolInit eightBlocks noDedup 0 (fun _ => freshBlock.encode) [] 2 = some freshPool := by
  have hgood : (chainFormat mpoolMagic).good freshBlock.encode = true := by decide +kernel
  have hnext : (chainFormat mpoolMagic).next freshBlock.encode = 0 := by decide +kernel
  have hkept : countKeptRecords freshBlock = 0 := by decide +kernel
  rw [metaPoolInit, if_neg (by decide)]
  simp only [eightBlocks, metaPoolInitLoop, hgood, hnext, decode_encode freshBlock_ok, hkept]
  rfl

theorem freshPool_inv : freshPool.Inv 2 fun _ => none := by
  obtain ⟨hs, htot⟩ := mountSpace_inv (by decide) eightBlocks_mounted
  refine poolInit_inv hs (by rw [htot]; decide) (by decide) freshPool_mounted fun b hb => ?_
  obtain rfl : b = 2 := by simpa [freshPool, MetaPool.blocks] using hb
  rw [decode_encode freshBlock_ok]
  exact ⟨by decide, List.length_replicate, Nat.zero_le _, rfl⟩

theorem lookup_freshVolume (f : Nat) : fileTableLookup freshVolume.table f = none := by
  rw [fileTableLookup_eq]
  simp only [freshVolume, getD_replicate]
  rfl

theorem freshVolume_inv : freshVolume.Inv 2 (fun _ => none) fun _ => none := by
  refine ⟨freshPool_inv, by decide, fun f e hf => ?_, fun f m hm => ?_, fun b f hb => (by cases hb), rfl, by decide⟩
  · cases (lookup_freshVolume f).symm.trans hf
  · rw [Volume.files, lookup_freshVolume] at hm
    cases hm

theorem freshVolume_lists : freshVolume.TagListsOk fun _ => none := by
  have hnone : ∀ f, freshVolume.files (fun _ => none) f = none := fun f => by rw [Volume.files, lookup_freshVolume]; rfl
  exact ⟨fun f m hm => (by cases (hnone f).symm.trans hm), fun f m hm => by cases (hnone f).symm.trans hm⟩

theorem freshVolume_registry : freshVolume.registry.ValidIds := by
  intro chain hchain t ht
  rw [List.eq_of_mem_replicate hchain] at ht
  cases ht

/-- A file `a.b` is created, tagged, renamed and untagged, and a second one is created and deleted. -/
def taggedRun : List VolumeOp :=
  [.create (CStr.ofBuffer [97, 46, 98]) [], .addTagString 1 (CStr.ofBuffer [99]) none, .rename 1 (CStr.ofBuffer [100]),
    .create (CStr.ofBuffer [99]) [0], .removeTagString 1 (CStr.ofBuffer [99]), .delete 2]

theorem taggedRun_ids : ∀ op ∈ taggedRun, op.RegistryIds := by
  intro op hop
  simp only [taggedRun, List.mem_cons, List.not_mem_nil, or_false] at hop
  rcases hop with rfl | rfl | rfl | rfl | rfl | rfl
  · exact fun t ht => (nomatch ht)
  · trivial
  · trivial
  · intro t ht
    obtain rfl := List.mem_singleton.mp ht
    exact Nat.zero_le _
  · trivial
  · trivial

theorem tag_index_coherent_small : ∃ v v', freshVolume.mountIndex = some v ∧ volumeRun taggedRun v = some v' ∧
    v'.hasTag 1 2 = true ∧ TagCoherent v' := by
  obtain ⟨v, hmount⟩ := Option.isSome_iff_exists.mp (show freshVolume.mountIndex.isSome from by decide +kernel)
  have hfacts : freshVolume.mountIndex.all (fun v => (volumeRun taggedRun v).isSome && decide (FreshIds taggedRun v) &&
      (volumeRun taggedRun v).all fun v' => v'.hasTag 1 2) = true := by
    decide +kernel
  rw [hmount, Option.all_some, Bool.and_eq_true, Bool.and_eq_true] at hfacts
  obtain ⟨⟨hsome, hfresh⟩, htag⟩ := hfacts
  obtain ⟨v', hrun⟩ := Option.isSome_iff_exists.mp hsome
  rw [hrun, Option.all_some] at htag
  refine ⟨v, v', hmount, hrun, htag,
    tag_index_coherent taggedRun freshVolume_inv freshVolume_registry freshVolume_lists ?_
    hmount taggedRun_ids (of_decide_eq_true hfresh) hrun⟩
  intro f e hf
  exact nomatch (lookup_freshVolume f).symm.trans hf

/-- The tags that the stored metadata of a file lists. -/
def Volume.storedTags (v : Volume) (f : Nat) : List TagId :=
  match fileTableLookup v.table f with
  | none => []
  | some e => ((v.pool.recordAt e.place).map (·.tagIds)).getD []

/-- A volume on which a file has been created, as it is found when the ledger was not written any more. -/
def unsyncedVolume : Option Volume :=
  (freshVolume.mountIndex.bind (volumeRun [.create (CStr.ofBuffer [97]) []])).map fun v => { v with nextFileId := 1 }

/-- The file is in the table, but nobody has looked for its tags. -/
theorem unsynced_file_not_indexed : ∃ v₀ v, unsyncedVolume = some v₀ ∧ v₀.mountIndex = some v ∧ ¬ TagCoherent v := by
  obtain ⟨v₀, hv₀⟩ := Option.isSome_iff_exists.mp (show unsyncedVolume.isSome from by decide +kernel)
  have hfacts : unsyncedVolume.all (fun v₀ => v₀.mountIndex.isSome && v₀.mountIndex.all fun v =>
      decide ((v.index.tagsOf 1).ids = [] ∧ v.storedTags 1 = [0])) = true := by
    decide +kernel
  rw [hv₀, Option.all_some, Bool.and_eq_true] at hfacts
  obtain ⟨v, hmount⟩ := Option.isSome_iff_exists.mp hfacts.1
  have hv := hfacts.2
  rw [hmount, Option.all_some, decide_eq_true_eq] at hv
  refine ⟨v₀, v, hv₀, hmount, fun h => ?_⟩
  have hstored := h.stored 1 0
  rw [hv.1] at hstored
  refine List.not_mem_nil (hstored.mpr ?_)
  have htags := hv.2
  unfold Volume.storedTags at htags
  cases hf : fileTableLookup v.table 1 with
  | none =>
    rw [hf] at htags
    exact nomatch htags
  | some e =>
    simp only [hf] at htags
    cases hm : v.pool.recordAt e.place with
    | none =>
      rw [hm] at htags
      exact nomatch htags
    | some m =>
      rw [hm] at htags
      have htags' : m.tagIds = [0] := htags
      exact ⟨e, m, rfl, hm, by rw [htags']; exact List.mem_singleton_self 0⟩

end BoxOS.TagFS
