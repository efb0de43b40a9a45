import BoxOS.TagFS.FailedWrite

/-!
# Writes of one file and the blocks of the others

Files are created, opened, written, cut, deleted and closed, through any number of handles. **`writes_isolated`**: a
write through a handle whose file has neither been cut nor deleted since it was opened changes no block of another file,
of the metadata pool or of the other chains.

A handle keeps its extents when its file is deleted. Its next write goes to blocks that may have been given to somebody
else (`deleted_file_writes_other`).
-/

open Function (update update_of_ne update_self)

namespace BoxOS.TagFS

open Lib List Option

/-- `tagfs_truncate_file_inside`, with the handle it opens for the lock; no snapshot is active. -/
def Volume.tagfsTruncateFile (v : Volume) (memory : Bool) (f : Nat) (newSize : UInt64) : Volume × Int :=
  if f = 0 then (v, -errInvalidArgument)
  else
    match v.openFile f true with
    | (none, v) => (v, -errFileNotFound)
    | (some _, v) => v.tagfsTruncateLocked memory f newSize

/-- The volume and the open handles; `stale` are those whose file has been cut or deleted since. -/
structure OpenWorld where
  vol : Volume
  handles : Nat → Option FileHandle
  stale : Nat → Bool

inductive FileCall where
  | create (filename : CStr) (tagIds : List TagId)
  | openHandle (i f : Nat) (canWrite : Bool)
  | write (i : Nat) (offset : UInt64) (src : List UInt8)
  | truncate (memory : Bool) (f : Nat) (newSize : UInt64)
  | delete (f : Nat)
  | close (i : Nat)

/-- The handles on the file do not have its blocks any more. -/
def OpenWorld.staleOf (w : OpenWorld) (f : Nat) : Nat → Bool := fun i =>
  w.stale i || (w.handles i).any fun h => h.fileId = f

/-- One call, whether it succeeds or fails. -/
def OpenWorld.next (hash : Block → DedupHash) (w : OpenWorld) : FileCall → Option OpenWorld
  | .create filename tagIds => (w.vol.createFile filename tagIds).map fun r => { w with vol := r.1 }
  | .openHandle i f canWrite =>
    match w.vol.openFile f canWrite with
    | (none, v) => some { w with vol := v }
    | (some h, v) => some ⟨v, update w.handles i (some h), update w.stale i false⟩
  | .write i offset src => (w.handles i).map fun h =>
    let r := tagfsWrite hash w.vol .none (h.seek offset) src
    { w with vol := r.1, handles := update w.handles i (some r.2.2.1) }
  | .truncate memory f newSize =>
    let r := w.vol.tagfsTruncateFile memory f newSize
    some { w with vol := r.1, stale := if r.2 = 0 then w.staleOf f else w.stale }
  | .delete f =>
    let r := w.vol.deleteFile f
    some { w with vol := r.1, stale := if r.2 then w.staleOf f else w.stale }
  | .close i => some { w with handles := update w.handles i none }

/-- The file ids have not come round to zero, and a write is through a handle whose file has not been cut or deleted and
does not begin `0xFFFF` blocks behind its blocks. -/
def OpenWorld.Meets (w : OpenWorld) : FileCall → Prop
  | .create _ _ => w.vol.nextFileId ≠ 0
  | .write i offset _ => ∀ h ∈ w.handles i,
    w.stale i = false ∧ offset.toNat / tagfsBlockSize < (fileBlocks h.extents).length + 0xFFFF
  | _ => True

/-- The block belongs to another file, to the metadata pool or to one of the other chains. -/
def Volume.Foreign (v : Volume) (f b : Nat) : Prop :=
  (∃ g m, g ≠ f ∧ v.recorded g = some m ∧ b ∈ fileBlocks m.extents) ∨ b ∈ v.pool.blocks ∨ b ∈ v.chains

/-- A write through the handle: its data go to no block of somebody else, and in the end the metadata and the blocks of
the other files are as they were. -/
structure Isolated (hash : Block → DedupHash) (v : Volume) (h : FileHandle) (src : List UInt8) : Prop where
  data : ∀ b, v.Foreign h.fileId b →
    (writeLoop hash src src.length ⟨v, .none, h, 0, false⟩).vol.pool.medium b = v.pool.medium b
  records : ∀ g, g ≠ h.fileId → (tagfsWrite hash v .none h src).1.recorded g = v.recorded g
  blocks : ∀ g m, g ≠ h.fileId → v.recorded g = some m → ∀ b ∈ fileBlocks m.extents,
    (tagfsWrite hash v .none h src).1.pool.medium b = v.pool.medium b
  chains : ∀ b ∈ v.chains, (tagfsWrite hash v .none h src).1.pool.medium b = v.pool.medium b

/-- The next call, if it is a write, is isolated. -/
def OpenWorld.Isolated (hash : Block → DedupHash) (w : OpenWorld) : FileCall → Prop
  | .write i offset src => ∀ h ∈ w.handles i, TagFS.Isolated hash w.vol (h.seek offset) src
  | _ => True

/-! ## Operations without data -/

section volume

variable {v v' : Volume} {first : Nat} {live : LiveRecords} {owner : Nat → Option Nat} {f : Nat}

theorem createFile_inv (h : v.Inv first live owner) {filename : CStr} {tagIds : List TagId} {r : Option UInt32}
    (hid : v.nextFileId ≠ 0) (hcreate : v.createFile filename tagIds = some (v', r)) :
    ∃ live', v'.Inv first live' owner := by
  obtain ⟨-, ⟨hinv, -⟩ | ⟨live', -, hinv, -⟩⟩ := createFile_cases h hid hcreate
  · exact ⟨live, hinv⟩
  · exact ⟨live', hinv⟩

/-- Blocks of file `f` have lost their owner; `gone` says whether there may be any. -/
def Loses (owner owner' : Nat → Option Nat) (f : Nat) (gone : Prop) : Prop :=
  ∃ bs, owner' = disown owner bs ∧ (∀ b ∈ bs, owner b = some f) ∧ (¬ gone → bs = [])

theorem Loses.refl (owner : Nat → Option Nat) (f : Nat) (gone : Prop) : Loses owner owner f gone :=
  ⟨[], (disown_nil owner).symm, fun _ hb => (nomatch hb), fun _ => rfl⟩

section

variable (h : v.Inv first live owner)

include h

theorem deleteFile_loses (f : Nat) :
    ∃ live' owner', (v.deleteFile f).1.Inv first live' owner' ∧ Loses owner owner' f ((v.deleteFile f).2 = true) := by
  cases hf : fileTableLookup v.table f with
  | none =>
    simp only [Volume.deleteFile, hf]
    exact ⟨live, owner, h, .refl ..⟩
  | some e =>
    obtain ⟨live', hinv', -⟩ := deleteFile_spec h hf
    have hdone : (v.deleteFile f).2 = true := by simp only [Volume.deleteFile, hf]
    refine ⟨live', _, hinv', _, rfl, fun b hb => ?_, fun hno => absurd hdone hno⟩
    cases hm : (v.readMeta e).1 with
    | none =>
      rw [hm] at hb
      cases hb
    | some m =>
      rw [hm] at hb
      exact (h.owns f m ((readMeta_spec h hf).2.2 m hm).1).owned b hb

theorem truncateLocked_loses (memory : Bool) (f : Nat) (newSize : UInt64) :
    ∃ live' owner', (v.tagfsTruncateLocked memory f newSize).1.Inv first live' owner' ∧
      Loses owner owner' f ((v.tagfsTruncateLocked memory f newSize).2 = 0) := by
  unfold Volume.tagfsTruncateLocked
  cases hf : fileTableLookup v.table f with
  | none => exact ⟨live, owner, h, .refl ..⟩
  | some e =>
    obtain ⟨⟨io, hio⟩, h₁, hmeta⟩ := readMeta_spec h hf
    simp only []
    cases hr : v.readMeta e with
    | mk o v₁ =>
      rw [hr] at hio h₁ hmeta
      obtain rfl : v₁ = v.answers io := hio
      cases o with
      | none => exact ⟨live, owner, h₁, .refl ..⟩
      | some m =>
        obtain ⟨hfile, hid, hne⟩ := hmeta m rfl
        simp only []
        split
        · exact ⟨live, owner, h₁, .refl ..⟩
        split
        · exact ⟨live, owner, h₁, .refl ..⟩
        split
        · exact ⟨live, owner, h₁, .refl ..⟩
        obtain ⟨hblocks, hextents⟩ := h₁.extents_count hfile
        obtain ⟨hnew, hdrop, -, -⟩ := @keepLoop_cut ((newSize + 4096 - 1) / 4096).toUInt32 m.extents [] 0 0 rfl
          (by simpa using hextents) (Nat.zero_le _) (by simpa using hblocks) (h₁.extents_pos hfile)
        rw [nil_append, nil_append, UInt32.toNat_zero, Nat.sub_zero] at hnew
        rw [UInt32.toNat_zero, Nat.sub_zero] at hdrop
        rw [hnew, hdrop]
        cases hreplace : (v.answers io).replaceRecord f e { m with
            size := newSize
            extents := (cutExtents m.extents ((newSize + 4096 - 1) / 4096).toUInt32.toNat).1 } with
        | mk v₂ done =>
          obtain ⟨-, hfail, hdone⟩ := cutRecord_inv h₁ hf hfile hid hne _ newSize hreplace
          cases done with
          | false => exact ⟨live, owner, hfail rfl, .refl ..⟩
          | true =>
            obtain ⟨live', -, hinv, -⟩ := hdone rfl
            simp only [freeRuns_extents]
            exact ⟨live', _, hinv, _, rfl, fun b hb => (h₁.cutOwned hfile _).dropped.owned b hb,
              fun hno => absurd trivial hno⟩

theorem openFile_inv {c : Bool} {o : Option FileHandle} (hopen : v.openFile f c = (o, v')) :
    v'.Inv first live owner ∧ ∀ g ∈ o, Owns owner g.fileId g.extents := by
  cases hf : fileTableLookup v.table f with
  | none =>
    rw [Volume.openFile, hf] at hopen
    obtain ⟨rfl, rfl⟩ := Prod.mk.inj hopen
    exact ⟨h, fun g hg => by cases hg⟩
  | some e =>
    obtain ⟨-, h₁, hmeta⟩ := readMeta_spec h hf
    rw [openFile_eq hf] at hopen
    obtain ⟨rfl, rfl⟩ := Prod.mk.inj hopen
    refine ⟨h₁, fun g hg => ?_⟩
    obtain rfl := some.inj hg
    cases hm : (v.readMeta e).1 with
    | none => exact ⟨nodup_nil, fun b hb => by cases hb⟩
    | some m => exact h.owns f m (hmeta m hm).1

theorem truncateFile_loses (memory : Bool) (f : Nat) (newSize : UInt64) :
    ∃ live' owner', (v.tagfsTruncateFile memory f newSize).1.Inv first live' owner' ∧
      Loses owner owner' f ((v.tagfsTruncateFile memory f newSize).2 = 0) := by
  unfold Volume.tagfsTruncateFile
  split
  · exact ⟨live, owner, h, .refl ..⟩
  cases hopen : v.openFile f true with
  | mk o v₁ =>
    obtain ⟨h₁, -⟩ := openFile_inv h hopen
    cases o with
    | none => exact ⟨live, owner, h₁, .refl ..⟩
    | some _ => exact truncateLocked_loses h₁ memory f newSize

end

end volume

/-! ## Writes -/

section writes

variable {hash : Block → DedupHash} {src : List UInt8} {v : Volume} {h : FileHandle} {first : Nat} {live : LiveRecords}
  {owner : Nat → Option Nat}

/-- The owners after a write: those of free blocks, at most, are new. -/
def Gains (v : Volume) (owner owner' : Nat → Option Nat) : Prop := ∀ b, v.pool.space.Holds b → owner' b = owner b

theorem Gains.owns {owner' : Nat → Option Nat} (hinv : v.Inv first live owner) (hg : Gains v owner owner') {g : Nat}
    {es : List FileExtent} (hown : Owns owner g es) : Owns owner' g es :=
  ⟨hown.nodup, fun b hb => (hg b (hinv.held b g (hown.owned b hb)).1).trans (hown.owned b hb)⟩

/-- A write through a handle that has blocks of its file only. -/
theorem write_isolated (hinv : v.Inv first live owner) (hown : Owns owner h.fileId h.extents) (hlt : h.offset < 2 ^ 64)
    (hnear : h.offset / tagfsBlockSize < (fileBlocks h.extents).length + 0xFFFF) : Isolated hash v h src ∧
    ∃ live' owner', (tagfsWrite hash v .none h src).1.Inv first live' owner' ∧ Gains v owner owner' ∧
    Owns owner' (tagfsWrite hash v .none h src).2.2.1.fileId (tagfsWrite hash v .none h src).2.2.1.extents := by
  have hstart : (⟨v, .none, h, 0, false⟩ : WriteState).Near := ⟨hlt, hnear⟩
  obtain ⟨added, -, wr, -⟩ := @writeLoop_wrote hash src v h first live owner hown src.length _ []
    (WrittenSoFar.start hinv hown rfl) hstart
  generalize hst : writeLoop hash src src.length ⟨v, .none, h, 0, false⟩ = st at wr
  obtain ⟨space, dedup, medium, io, hvol⟩ := wr.vol
  have hpool : st.vol.pool.blocks = v.pool.blocks := by
    rw [hvol]
    rfl
  have hfiles : st.vol.recorded = v.recorded := by
    rw [wr.inv.recorded_eq, hinv.recorded_eq]
    exact files_of_table (by rw [hvol])
  -- somebody else's block is neither one of the handle's nor free
  have hforeign : ∀ b, v.Foreign h.fileId b → b ∉ st.blocks ∧ v.pool.space.Holds b := by
    have hout : ∀ b, v.pool.space.Holds b → b ∉ fileBlocks h.extents → b ∉ st.blocks := fun b hb hno hmem => by
      rw [wr.blocks_eq, mem_append] at hmem
      exact hmem.elim hno fun hnew => wr.fresh b hnew hb
    rintro b (⟨g, m, hne, hm, hb⟩ | hb | hb)
    · rw [hinv.recorded_eq] at hm
      have hg := (hinv.owns g m hm).owned b hb
      refine ⟨hout b (hinv.held b g hg).1 fun hmem => hne ?_, (hinv.held b g hg).1⟩
      exact some.inj (hg.symm.trans (hown.owned b hmem))
    · exact ⟨hout b (hinv.pool.holds b hb) fun hmem => (hinv.held b _ (hown.owned b hmem)).2.1 hb, hinv.pool.holds b hb⟩
    · exact ⟨hout b (hinv.chains b hb).1 fun hmem => (hinv.held b _ (hown.owned b hmem)).2.2 hb, (hinv.chains b hb).1⟩
  have hdata : ∀ b, v.Foreign h.fileId b → st.vol.pool.medium b = v.pool.medium b := fun b hb =>
    wr.medium b (hforeign b hb).1
  have hfile : ∀ g m, g ≠ h.fileId → v.recorded g = some m → ∀ b ∈ fileBlocks m.extents,
      v.Foreign h.fileId b ∧ b ∉ st.vol.pool.blocks := fun g m hne hm b hb => by
    refine ⟨.inl ⟨g, m, hne, hm, hb⟩, ?_⟩
    rw [hinv.recorded_eq] at hm
    rw [hpool]
    exact (hinv.held b g ((hinv.owns g m hm).owned b hb)).2.1
  have hchain : ∀ b ∈ v.chains, v.Foreign h.fileId b ∧ b ∉ st.vol.pool.blocks := fun b hb =>
    ⟨.inr (.inr hb), by rw [hpool]; exact (hinv.chains b hb).2⟩
  have hgains : Gains v owner (ownAll owner (fileBlocks added) h.fileId) := fun b hb =>
    ownAll_of_notMem fun hnew => wr.fresh b hnew hb
  have howns : ∀ n, Owns (ownAll owner (fileBlocks added) h.fileId) (st.handle.advance n).fileId
      (st.handle.advance n).extents := by
    intro n
    have hid : (st.handle.advance n).fileId = h.fileId := by simp only [FileHandle.advance, wr.handle]
    rw [hid]
    exact ⟨wr.nodup, wr.owned hown⟩
  by_cases hgo : src ≠ [] ∧ h.canWrite = true
  · rcases tagfsWrite_cases hst hgo.1 hgo.2 with ⟨-, hcall⟩ | ⟨-, v', ok, hpub, hcall⟩
    · rw [hcall]
      refine ⟨⟨fun b hb => by rw [hst]; exact hdata b hb, fun g _ => ?_, fun g m hne hm b hb => ?_, fun b hb => ?_⟩,
        live, _, wr.inv, hgains, howns _⟩
      · rw [hcall, hfiles]
      · rw [hcall]
        exact hdata b (hfile g m hne hm b hb).1
      · rw [hcall]
        exact hdata b (hchain b hb).1
    · obtain ⟨hkeeps, hfail, hdone⟩ := publish_spec wr.inv (howns st.written)
      rw [hpub] at hkeeps hfail hdone
      have hkept : ∀ b, v.Foreign h.fileId b ∧ b ∉ st.vol.pool.blocks → v'.pool.medium b = v.pool.medium b :=
        fun b hb => (hkeeps.medium b (wr.keeps b (hforeign b hb.1).2) hb.2).trans (hdata b hb.1)
      have hid : (st.handle.advance st.written).fileId = h.fileId := by simp only [FileHandle.advance, wr.handle]
      obtain ⟨live', hinv', hrec⟩ : ∃ live', v'.Inv first live' (ownAll owner (fileBlocks added) h.fileId) ∧
          ∀ g, g ≠ h.fileId → v'.recorded g = v.recorded g := by
        cases ok with
        | false =>
          refine ⟨live, (hfail rfl).1, fun g _ => ?_⟩
          rw [(hfail rfl).1.recorded_eq, (hfail rfl).2, ← wr.inv.recorded_eq, hfiles]
        | true =>
          obtain ⟨live', hinv', m, -, hnew⟩ := hdone rfl
          refine ⟨live', hinv', fun g hne => ?_⟩
          rw [hinv'.recorded_eq, hnew, hid, update_of_ne hne, ← wr.inv.recorded_eq, hfiles]
      rw [hcall]
      refine ⟨⟨fun b hb => by rw [hst]; exact hdata b hb, fun g hne => ?_, fun g m hne hm b hb => ?_, fun b hb => ?_⟩,
        live', _, hinv', hgains, howns _⟩
      · rw [hcall]
        exact hrec g hne
      · rw [hcall]
        exact hkept b (hfile g m hne hm b hb)
      · rw [hcall]
        exact hkept b (hchain b hb)
  · have hcall : tagfsWrite hash v .none h src = (v, .none, h, none) := by
      unfold tagfsWrite
      rw [if_pos (by rcases Classical.not_and_iff_not_or_not.mp hgo with h | h <;> simp_all)]
    rw [hcall]
    refine ⟨⟨fun b hb => by rw [hst]; exact hdata b hb, fun g _ => ?_, fun g m _ _ b _ => ?_, fun b _ => ?_⟩,
      live, owner, hinv, fun _ _ => rfl, hown⟩ <;> rw [hcall]

end writes

/-! ## Runs -/

/-- The blocks of a handle that is not stale are its file's. -/
structure OpenWorld.Good (w : OpenWorld) (first : Nat) (live : LiveRecords) (owner : Nat → Option Nat) : Prop where
  vol : w.vol.Inv first live owner
  handles : ∀ i h, w.handles i = some h → w.stale i = false → Owns owner h.fileId h.extents

section steps

variable {hash : Block → DedupHash} {w w' : OpenWorld} {first : Nat} {live : LiveRecords} {owner : Nat → Option Nat}

theorem OpenWorld.Good.loses (g : w.Good first live owner) {v : Volume} {live' : LiveRecords}
    {owner' : Nat → Option Nat} {f : Nat} {gone : Prop} [Decidable gone] (hinv : v.Inv first live' owner')
    (hl : Loses owner owner' f gone) :
    ({ w with vol := v, stale := if gone then w.staleOf f else w.stale } : OpenWorld).Good first live' owner' := by
  obtain ⟨bs, rfl, hbs, hnone⟩ := hl
  refine ⟨hinv, fun i h hh hfresh => ?_⟩
  have hfresh : (if gone then w.staleOf f else w.stale) i = false := hfresh
  by_cases hgone : gone
  · rw [if_pos hgone, OpenWorld.staleOf, Bool.or_eq_false_iff] at hfresh
    have hown := g.handles i h hh hfresh.1
    have hne : h.fileId ≠ f := by simpa [show w.handles i = some h from hh] using hfresh.2
    refine ⟨hown.nodup, fun b hb => disown_eq_some.mpr ⟨fun hmem => hne ?_, hown.owned b hb⟩⟩
    exact some.inj ((hown.owned b hb).symm.trans (hbs b hmem))
  · rw [if_neg hgone] at hfresh
    rw [hnone hgone, disown_nil]
    exact g.handles i h hh hfresh

theorem openStep_good (g : w.Good first live owner) {call : FileCall} (hmeets : w.Meets call)
    (hnext : w.next hash call = some w') : ∃ live' owner', w'.Good first live' owner' := by
  cases call with
  | create filename tagIds =>
    obtain ⟨⟨v, r⟩, hcreate, rfl⟩ := map_eq_some_iff.mp hnext
    obtain ⟨live', hinv⟩ := createFile_inv g.vol hmeets hcreate
    exact ⟨live', owner, hinv, g.handles⟩
  | openHandle i f canWrite =>
    unfold OpenWorld.next at hnext
    cases hopen : w.vol.openFile f canWrite with
    | mk o v =>
      obtain ⟨hinv, howns⟩ := openFile_inv g.vol hopen
      simp only [hopen] at hnext
      cases o with
      | none =>
        obtain rfl := some.inj hnext
        exact ⟨live, owner, hinv, g.handles⟩
      | some h =>
        obtain rfl := some.inj hnext
        refine ⟨live, owner, hinv, fun j h' hh hfresh => ?_⟩
        by_cases hj : j = i
        · simp only [hj, update_self] at hh
          exact some.inj hh ▸ howns h rfl
        · simp only [update_of_ne hj] at hh hfresh
          exact g.handles j h' hh hfresh
  | write i offset src =>
    obtain ⟨h, hh, rfl⟩ := map_eq_some_iff.mp hnext
    obtain ⟨hfresh, hnear⟩ := hmeets h hh
    obtain ⟨-, live', owner', hinv, hgains, howns⟩ :=
      @write_isolated hash src w.vol (h.seek offset) first live owner g.vol
        (g.handles i h hh hfresh) offset.toNat_lt hnear
    refine ⟨live', owner', hinv, fun j h' hh' hfresh' => ?_⟩
    by_cases hj : j = i
    · simp only [hj, update_self] at hh'
      exact some.inj hh' ▸ howns
    · simp only [update_of_ne hj] at hh'
      exact hgains.owns g.vol (g.handles j h' hh' hfresh')
  | truncate memory f newSize =>
    obtain rfl := some.inj hnext
    obtain ⟨live', owner', hinv, hl⟩ := truncateFile_loses g.vol memory f newSize
    exact ⟨live', owner', g.loses hinv hl⟩
  | delete f =>
    obtain rfl := some.inj hnext
    obtain ⟨live', owner', hinv, hl⟩ := deleteFile_loses g.vol f
    exact ⟨live', owner', g.loses hinv hl⟩
  | close i =>
    obtain rfl := some.inj hnext
    refine ⟨live, owner, g.vol, fun j h' hh hfresh => ?_⟩
    by_cases hj : j = i
    · simp only [hj, update_self] at hh
      cases hh
    · simp only [update_of_ne hj] at hh
      exact g.handles j h' hh hfresh

end steps

/-- The step relation of `OpenWorld.next`. -/
def OpenWorld.Step (hash : Block → DedupHash) (w : OpenWorld) (call : FileCall) (w' : OpenWorld) : Prop :=
  w.next hash call = some w'

/-- **Every order of calls through any handles**: where every call meets the condition, a write leaves the blocks of the
other files, of the metadata pool and of the other chains alone. -/
theorem writes_isolated {hash : Block → DedupHash} {v : Volume} {first : Nat} {live : LiveRecords}
    {owner : Nat → Option Nat} (hinv : v.Inv first live owner) {calls : List FileCall} {w : OpenWorld}
    (run : Run (OpenWorld.Step hash) (fun w => w.Meets) ⟨v, fun _ => none, fun _ => false⟩ calls w) (call : FileCall)
    (hmeets : w.Meets call) : w.Isolated hash call := by
  obtain ⟨live', owner', g⟩ : ∃ live owner, w.Good first live owner :=
    @Run.invariant _ _ _ _ _ _ _ (fun w => ∃ live owner, w.Good first live owner) run
      (fun _ _ _ hmeets hstep ⟨_, _, g⟩ => openStep_good g hmeets hstep)
      ⟨live, owner, hinv, fun _ _ hno => (nomatch hno)⟩
  cases call with
  | write i offset src =>
    intro h hh
    obtain ⟨hfresh, hnear⟩ := hmeets h hh
    exact (@write_isolated hash src w.vol (h.seek offset) first live' owner' g.vol
      (g.handles i h hh hfresh) offset.toNat_lt hnear).1
  | create | openHandle | truncate | delete | close => trivial

/-! ## A deleted file -/

instance OpenWorld.decidableMeets (w : OpenWorld) : (call : FileCall) → Decidable (w.Meets call)
  | .create _ _ => inferInstanceAs (Decidable (_ ≠ _))
  | .write _ _ _ => inferInstanceAs (Decidable (∀ h ∈ _, _ ∧ _))
  | .openHandle _ _ _ | .truncate _ _ _ | .delete _ | .close _ => isTrue trivial

/-- File 1 of `oneFileVolume`, in the blocks 3 and 4; the next file gets the id 2. -/
def isolatedVolume : Volume := { oneFileVolume noDedup [⟨3, 2⟩] 6000 with nextFileId := 2 }

theorem isolatedVolume_inv : ∃ live owner, isolatedVolume.Inv 2 live owner := by
  obtain ⟨live, owner, h, -⟩ := oneFileVolume_inv noDedup [⟨3, 2⟩] 6000 (by decide) (by decide)
    (fun b hb => (nomatch hb)) (by decide +kernel)
  exact ⟨live, owner, h.congr rfl rfl rfl⟩

/-- A second file, and a write of it between two writes of the first. -/
theorem writes_isolated_small : ∃ calls w,
    Run (OpenWorld.Step (fun b => b)) (fun w => w.Meets) ⟨isolatedVolume, fun _ => none, fun _ => false⟩ calls w ∧
    w.vol.recorded 2 ≠ none ∧ w.Isolated (fun b => b) (.write 0 0 [7]) := by
  obtain ⟨live, owner, hinv⟩ := isolatedVolume_inv
  obtain ⟨w, run, hrec, hmeets⟩ : ∃ w, Run (OpenWorld.Step (fun b => b)) (fun w => w.Meets)
      ⟨isolatedVolume, fun _ => none, fun _ => false⟩
      [.create (CStr.ofBuffer [98]) [], .openHandle 0 1 true, .openHandle 1 2 true, .write 0 0 [1, 2],
      .write 1 0 [3]] w ∧
      w.vol.recorded 2 ≠ none ∧ w.Meets (.write 0 0 [7]) := run_reaches (fun h => h) (by decide +kernel)
  exact ⟨_, w, run, hrec, writes_isolated hinv run (.write 0 0 [7]) hmeets⟩

/-- File 1 is deleted under its handle, and file 2 gets its block: the next write through the handle changes it. -/
theorem deleted_file_writes_other : ∃ v first live owner calls w, Volume.Inv v first live owner ∧
    Run (OpenWorld.Step (fun b => b)) (fun _ _ => True) ⟨v, fun _ => none, fun _ => false⟩ calls w ∧
    ¬ w.Isolated (fun b => b) (.write 0 0 [7]) := by
  obtain ⟨live, owner, hinv⟩ := isolatedVolume_inv
  obtain ⟨w, run, h, hh, m, hm, hid, hb, hne⟩ : ∃ w, Run (OpenWorld.Step (fun b => b)) (fun _ _ => True)
      ⟨isolatedVolume, fun _ => none, fun _ => false⟩
      [.create (CStr.ofBuffer [98]) [], .openHandle 0 1 true, .delete 1, .openHandle 1 2 true, .write 1 0 [3]] w ∧
      ∃ h ∈ w.handles 0, ∃ m ∈ w.vol.recorded 2, h.fileId = 1 ∧ 3 ∈ fileBlocks m.extents ∧
        (tagfsWrite (fun b => b) w.vol .none (h.seek 0) [7]).1.pool.medium 3 ≠ w.vol.pool.medium 3 :=
    run_reaches (fun h => h) (by decide +kernel)
  refine ⟨_, 2, live, owner, _, w, hinv, run, fun hiso => hne ?_⟩
  exact (hiso h hh).blocks 2 m (by rw [FileHandle.seek, hid]; decide) hm 3 hb

end BoxOS.TagFS
