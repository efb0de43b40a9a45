import BoxOS.Memory.GuardRun

/-!
# Decisions about access

`MemRegionAccessAllowed` and `MemRegionFirstMissingGuard` against the calls of `MemCabinGrant` and `MemCabinRevoke` so
far. Both look at the first 64 tags of the region (`access_allowed_iff`).
-/

namespace BoxOS.Memory

open Lib List Option

namespace GuardState

/-- `none` stands for `MEMTAG_INVALID_TAG_ID`. -/
def memRegionFirstMissingGuard (tbl : ProcTable) (s : GuardState) (pid id : Nat) : Option UInt16 :=
  if id = invalidRegionId then none
  else
    let mask := ((tbl.find pid).bind (·.cabin)).map s.mask
    (s.mem.guardsOnRegion id guardsPerRegion).find? fun g => !(mask.any (maskHas · g))

/-- Whether a tag is granted to a cabin, after one more call. `MemCabinGrant` refuses tags from 1024 on. -/
def granted (tbl : ProcTable) (ctx : Nat) (t : UInt16) (before : Bool) : Op → Bool
  | .grant pid u _ =>
    before || (decide (u = t ∧ t.toNat < maskBits) && decide ((tbl.find pid).bind (·.cabin) = some ctx))
  | .revoke pid u _ => before && !(decide (u = t) && decide ((tbl.find pid).bind (·.cabin) = some ctx))
  | _ => before

/-- The process exists and holds the tag: it has been granted to its cabin and not revoked since. -/
def Holds (tbl : ProcTable) (ops : List Op) (pid : Nat) (t : UInt16) : Prop :=
  ∃ ctx, (tbl.find pid).bind (·.cabin) = some ctx ∧ ops.foldl (granted tbl ctx t) false = true

variable {physDomain : Nat → Nat} {tbl : ProcTable} {s : GuardState} {t u : UInt16} {ctx : Nat}

theorem mask_sweep (t : UInt16) (guardOn : Bool) (al : Nat → Allocs) (s : GuardState) :
    (s.memTagSweepGuard tbl t guardOn al).mask = s.mask := by
  unfold memTagSweepGuard
  induction tbl.snapshotPids sweepPidsPerCall generalizing s with
  | nil => rfl
  | cons pid pids ih =>
    refine (ih _).trans ?_
    unfold sweepPid
    split <;> rfl

theorem maskHas_maskSet {mask : TagMask} (hu : u.toNat < maskBits) :
    maskHas (maskSet mask u) t = (maskHas mask t || decide (u = t)) := by
  by_cases h : t = u
  · subst h
    simp [maskHas, maskSet, hu]
  · simp [maskHas, maskSet, h, Ne.symm h]

theorem maskHas_maskClear {mask : TagMask} : maskHas (maskClear mask u) t = (maskHas mask t && !decide (u = t)) := by
  by_cases h : t = u
  · simp [maskHas, maskClear, h]
  · simp [maskHas, maskClear, h, Ne.symm h]

theorem maskHas_setMask (c : Nat) (mask : TagMask) :
    maskHas ((s.setMask c mask).mask ctx) t = if ctx = c then maskHas mask t else maskHas (s.mask ctx) t := by
  unfold setMask
  split <;> simp [*]

/-- The two tests of the tag in front of both calls are one. -/
theorem ite_high {α : Type*} (u : UInt16) (a b : α) :
    (if u = invalidTagId then a else if u.toNat ≥ maskBits then a else b) = if u.toNat < maskBits then b else a := by
  by_cases hu : u = invalidTagId
  · rw [if_pos hu, if_neg (by rw [hu]; decide)]
  · simp only [if_neg hu, ge_iff_le, ← Nat.not_lt, ite_not]

/-- A call leaves in the masks what has been granted. -/
theorem maskHas_next (op : Op) :
    maskHas ((s.next physDomain tbl op).mask ctx) t = granted tbl ctx t (maskHas (s.mask ctx) t) op := by
  have hlow : maskHas (s.mask ctx) t = true → t.toNat < maskBits := fun h => by
    unfold maskHas at h
    grind
  cases op with
  | setGuard name guard al =>
    simp only [next, memTagSetGuard, granted]
    split
    · rfl
    · split
      · rfl
      · rw [mask_sweep]
  | grant pid u al =>
    simp only [next, memCabinGrant, granted, ite_high]
    split
    · rename_i hu
      cases (tbl.find pid).bind (·.cabin) with
      | none => simp
      | some c =>
        simp only [apply_ite mask, enforce, ite_self, apply_ite (maskHas · t), ite_apply, maskHas_setMask,
          maskHas_maskSet hu]
        grind
    · grind
  | revoke pid u al =>
    simp only [next, memCabinRevoke, granted, ite_high]
    split
    · cases (tbl.find pid).bind (·.cabin) with
      | none => simp
      | some c =>
        simp only [apply_ite mask, enforce, ite_self, apply_ite (maskHas · t), ite_apply, maskHas_setMask,
          maskHas_maskClear]
        grind
    · grind
  | _ => rfl

theorem maskHas_run (ops : List Op) (hnone : ∀ t, maskHas (s.mask ctx) t = false) :
    maskHas ((ops.foldl (next physDomain tbl) s).mask ctx) t = ops.foldl (granted tbl ctx t) false := by
  rw [← hnone t]
  clear hnone
  induction ops generalizing s with
  | nil => rfl
  | cons op ops ih => rw [foldl_cons, ih, maskHas_next, foldl_cons]

/-- The tags of a region. -/
def tagsOf (s : GuardState) (id : Nat) : List UInt16 := ((s.mem.region id).map (·.tagIds)).getD []

/-- The policy: the process exists and holds every guard tag of the region, or the region has none. -/
def Policy (tbl : ProcTable) (ops : List Op) (s : GuardState) (pid id : Nat) : Prop :=
  ((tbl.find pid).isSome ∧ ∀ g ∈ s.tagsOf id, s.mem.isGuard g = true → Holds tbl ops pid g) ∨
    ∀ g ∈ s.tagsOf id, s.mem.isGuard g = false

/-- A guard tag that the process does not hold. -/
def Missing (tbl : ProcTable) (ops : List Op) (s : GuardState) (pid : Nat) (g : UInt16) : Prop :=
  s.mem.isGuard g = true ∧ ¬ Holds tbl ops pid g

theorem policy_iff {ops : List Op} {pid id : Nat} :
    s.Policy tbl ops pid id ↔ ¬ ∃ g ∈ s.tagsOf id, s.Missing tbl ops pid g := by
  constructor
  · rintro (⟨-, hall⟩ | hnone) ⟨g, hg, hguard, hno⟩
    · exact hno (hall g hg hguard)
    · rw [hnone g hg] at hguard
      cases hguard
  · intro hno
    have hall : ∀ g ∈ s.tagsOf id, s.mem.isGuard g = true → Holds tbl ops pid g := fun g hg hguard => by
      by_contra hmiss
      exact hno ⟨g, hg, hguard, hmiss⟩
    by_cases hnone : ∀ g ∈ s.tagsOf id, s.mem.isGuard g = false
    · exact .inr hnone
    · push Not at hnone
      obtain ⟨g, hg, hguard⟩ := hnone
      obtain ⟨ctx, hctx, -⟩ := hall g hg (by simpa using hguard)
      exact .inl ⟨by cases hf : tbl.find pid <;> simp_all, hall⟩

theorem guardsOnRegion_eq (s : GuardState) (id : Nat) :
    s.mem.guardsOnRegion id guardsPerRegion = ((s.tagsOf id).take guardsPerRegion).filter s.mem.isGuard := by
  have hlist : s.mem.registryListTags id guardsPerRegion = (s.tagsOf id).take guardsPerRegion := by
    unfold MemTagState.registryListTags tagsOf
    cases s.mem.region id <;> simp
  rw [MemTagState.guardsOnRegion, hlist]
  exact take_of_length_le ((length_filter_le _ _).trans (length_take_le _ _))

/-- Access is refused exactly when there is a guard to name. -/
theorem accessAllowed_eq_isNone (pid : Nat) {id : Nat} (hid : id ≠ invalidRegionId) :
    s.memRegionAccessAllowed tbl pid id = (s.memRegionFirstMissingGuard tbl pid id).isNone := by
  unfold memRegionAccessAllowed memRegionFirstMissingGuard
  rw [if_neg hid, if_neg hid]
  cases hg : s.mem.guardsOnRegion id guardsPerRegion with
  | nil => rfl
  | cons g gs =>
    cases tbl.find pid with
    | none => simp
    | some p =>
      cases hc : p.cabin with
      | none => simp [hc]
      | some ctx =>
        rw [Bool.eq_iff_iff]
        simp [hc]

/-- What is named is the first missing guard tag among the first 64 tags. -/
theorem mem_firstMissing {m : MemTagState} {ops : List Op} {pid id : Nat} {g : UInt16} (hid : id ≠ invalidRegionId)
    (hs : s = ops.foldl (next physDomain tbl) ⟨m, fun _ _ => false⟩) :
    (s.memRegionFirstMissingGuard tbl pid id = some g → g ∈ s.tagsOf id ∧ s.Missing tbl ops pid g) ∧
    (s.memRegionFirstMissingGuard tbl pid id = none ↔
    ¬ ∃ g ∈ (s.tagsOf id).take guardsPerRegion, s.Missing tbl ops pid g) := by
  have hholds : ∀ g, Holds tbl ops pid g ↔ (((tbl.find pid).bind (·.cabin)).map s.mask).any (maskHas · g) = true := by
    intro g
    unfold Holds
    cases (tbl.find pid).bind (·.cabin) with
    | none => simp
    | some ctx =>
      have hrun := @maskHas_run physDomain tbl ⟨m, fun _ _ => false⟩ g ctx ops (by simp [maskHas])
      simp [hs, hrun]
  unfold memRegionFirstMissingGuard
  rw [if_neg hid, guardsOnRegion_eq]
  refine ⟨fun hfind => ?_, ?_⟩
  · obtain ⟨hmem, hguard⟩ := mem_filter.mp (mem_of_find?_eq_some hfind)
    have hno := find?_some hfind
    exact ⟨mem_of_mem_take hmem, hguard, by rw [hholds]; simpa using hno⟩
  · rw [find?_eq_none]
    simp only [Missing, hholds, mem_filter]
    push Not
    simp

end GuardState

open GuardState

/-- After any calls, from masks that hold nothing: access is allowed as the policy says, and otherwise a guard tag that
is missing is named, exactly if one of the first 64 tags of the region is such a tag, or none behind them is. -/
theorem access_allowed_iff (physDomain : Nat → Nat) (tbl : ProcTable) (m : MemTagState) (ops : List Op) (pid id : Nat)
    (hid : id ≠ invalidRegionId) {s : GuardState} (hs : s = ops.foldl (next physDomain tbl) ⟨m, fun _ _ => false⟩) :
    ((s.memRegionAccessAllowed tbl pid id = true ↔ s.Policy tbl ops pid id) ∧
      ((∃ g ∈ s.tagsOf id, s.memRegionFirstMissingGuard tbl pid id = some g ∧ s.Missing tbl ops pid g) ↔
        s.memRegionAccessAllowed tbl pid id = false)) ↔
    (∃ g ∈ (s.tagsOf id).take guardsPerRegion, s.Missing tbl ops pid g) ∨
      ¬ ∃ g ∈ (s.tagsOf id).drop guardsPerRegion, s.Missing tbl ops pid g := by
  have hfirst := fun g => @mem_firstMissing physDomain tbl s m ops pid id g hid hs
  have hnamed : (∃ g ∈ s.tagsOf id, s.memRegionFirstMissingGuard tbl pid id = some g ∧ s.Missing tbl ops pid g) ↔
      s.memRegionAccessAllowed tbl pid id = false := by
    rw [accessAllowed_eq_isNone pid hid]
    cases hf : s.memRegionFirstMissingGuard tbl pid id with
    | none => simp
    | some g => simpa using (hfirst g).1 hf
  have hsplit : (∃ g ∈ s.tagsOf id, s.Missing tbl ops pid g) ↔ (∃ g ∈ (s.tagsOf id).take guardsPerRegion,
      s.Missing tbl ops pid g) ∨ ∃ g ∈ (s.tagsOf id).drop guardsPerRegion, s.Missing tbl ops pid g := by
    conv_lhs => rw [← take_append_drop guardsPerRegion (s.tagsOf id)]
    simp only [mem_append, or_and_right, exists_or]
  simp only [hnamed, and_true]
  rw [accessAllowed_eq_isNone pid hid, isNone_iff_eq_none, (hfirst 0).2, policy_iff, hsplit]
  by_cases hin : ∃ g ∈ (s.tagsOf id).take guardsPerRegion,
    s.Missing tbl ops pid g <;> simp only [hin, true_or, false_or, not_true, not_false_iff, true_iff]

/-- The reserved tags, of which the first 65 are put on a region; the last of these becomes a guard. -/
def manyTags : List Op :=
  .create 0x5000 1 false 1024 {} :: (MemTagState.reservedNames.take 65).map (.apply 0 · {}) ++
    [.setGuard "tme:keyid:1" true fun _ => {}]

/-- What calls make of the start. -/
def after (ops : List Op) : GuardState := ops.foldl (next MemTagState.noDomains oneProc) ⟨noTags.mem, fun _ _ => false⟩

/-- With one tag, which is a guard, the policy decides. -/
theorem access_allowed_one :
    (after guardedRun).memRegionAccessAllowed oneProc 1 0 = true ↔
      (after guardedRun).Policy oneProc guardedRun 1 0 := by
  refine ((access_allowed_iff MemTagState.noDomains oneProc noTags.mem guardedRun 1 0 (by decide) rfl).mpr (.inr ?_)).1
  have hshort : ((after guardedRun).tagsOf 0).drop guardsPerRegion = [] := by
    rw [after, noTags_eq]
    decide +kernel
  rintro ⟨g, hg, -⟩
  exact absurd hg (hshort ▸ not_mem_nil)

/-- The guard is the 65th tag: access is allowed to a process that does not hold it. -/
theorem access_past_last_guard : (after manyTags).memRegionAccessAllowed oneProc 1 0 = true ∧
    ¬ (after manyTags).Policy oneProc manyTags 1 0 := by
  have hfacts : (after manyTags).memRegionAccessAllowed oneProc 1 0 = true ∧ 64 ∈ (after manyTags).tagsOf 0 ∧
      (after manyTags).mem.isGuard 64 = true := by
    rw [after, noTags_eq]
    decide +kernel
  obtain ⟨hallowed, hmem, hguard⟩ := hfacts
  refine ⟨hallowed, fun hpolicy => policy_iff.mp hpolicy ⟨64, hmem, hguard, ?_⟩⟩
  rintro ⟨ctx, hctx, hheld⟩
  have hnone : ∀ ctx, manyTags.foldl (granted oneProc ctx 64) false = false := fun ctx => rfl
  rw [hnone ctx] at hheld
  cases hheld

end BoxOS.Memory
