import BoxOS.Manifest.TableInv

/-!
# Handles are safe references

`manifest_handles_safe` is about every run whose steps are `Orderly`: an owner gives its reference back once, and when
the handles of a dead owner are collected it still holds all of them. A cleanup that fills a batch collects again, and
drops a second reference of what other references keep alive; an owner that has already given its handle back is cleaned
up all the same (`cleanup_takes_reference_of_execution`).
-/

open Function (update_of_ne update_self)

namespace BoxOS.Manifest

open TableState Option

variable {s t : TableState} {h i id pid : Nat} {e : TableEvent}

/-- The slot of a handle has generations left. -/
def GenerationLeft (s : TableState) (h : Nat) : Prop := (s.slots (handleSlot h)).generation + 1 < 2 ^ 32

/-- A cleanup finds every manifest of its owner still held by it. -/
def CleanupOrderly (s : TableState) (pid : Nat) : Cleanup → Prop
  | .collect => ∀ i id, s.At i id → (s.objects id).ownerPid = pid → s.Held id
  | .release (h :: _) _ => GenerationLeft s h
  | _ => True

/-- The owner gives its reference back once, and a cleanup is orderly. -/
def Orderly (s : TableState) : TableEvent → Prop
  | .resolve h => ∀ id, s.lookup h = some id → s.refsOf id + 1 < 2 ^ 32
  | .releasePin h _ => GenerationLeft s h
  | .releaseOwner _ h => GenerationLeft s h ∧ ∀ id, s.lookup h = some id → s.Held id
  | .cleanup pid => CleanupOrderly s pid (s.cleanup pid)
  | _ => True

/-! ## Steps -/

/-- What a section under the lock does. -/
inductive Section (s : TableState) : TableEvent → TableState → Prop
  | compile {pid : Nat} (kmallocOk : Bool) : s.cleanup pid = .idle →
      Section s (.compile pid kmallocOk) (s.manifestCompile pid kmallocOk)
  | resolve {h : Nat} : h < 2 ^ 64 → Section s (.resolve h) (s.manifestResolve h)
  | releasePin {h id : Nat} : (h, id) ∈ s.pins →
      Section s (.releasePin h id) { s.manifestRelease h with pins := s.pins.erase (h, id) }
  | releaseOwner {pid h : Nat} : s.cleanup pid = .idle →
      ((List.range s.nextObject).any fun id => decide (s.handleOf id = h ∧ (s.objects id).ownerPid = pid)) = true →
      Section s (.releaseOwner pid h) (s.releaseOwned h .released)
  | die (pid : Nat) : Section s (.die pid) (s.setCleanup pid .collect)
  | collect {pid : Nat} : s.cleanup pid = .collect →
      Section s (.cleanup pid) (s.setCleanup pid (.release (s.collectBatch pid) (s.collectBatch pid).length))
  | batchEnds {pid collected : Nat} : s.cleanup pid = .release [] collected →
      Section s (.cleanup pid) (s.setCleanup pid (if collected = batchSize then .collect else .idle))
  | batchRest {pid collected h : Nat} {rest : List Nat} {t : TableState} :
      s.cleanup pid = .release (h :: rest) collected → s.cleanupStep pid = some t → Section s (.cleanup pid) t

theorem next_cases (hs : s.next e = some t) : Section s e t := by
  cases e with
  | cleanup pid =>
    change s.cleanupStep pid = some t at hs
    cases hc : s.cleanup pid with
    | release batch collected =>
      cases batch with
      | cons h rest => exact .batchRest hc hs
      | nil =>
        unfold cleanupStep at hs
        rw [hc] at hs
        exact some.inj hs ▸ .batchEnds hc
    | idle =>
      unfold cleanupStep at hs
      rw [hc] at hs
      cases hs
    | collect =>
      unfold cleanupStep at hs
      rw [hc] at hs
      exact some.inj hs ▸ .collect hc
  | _ =>
    unfold TableState.next at hs
    dsimp only at hs
    split at hs
    · first
      | split at hs
        · exact some.inj hs ▸ .releaseOwner ‹_› ‹_›
        · cases hs
      | exact some.inj hs ▸ (by constructor <;> assumption)
    · cases hs

theorem emptyTable_slots : SlotsOk emptyTable :=
  ⟨⟨[], trivial, List.nodup_nil, fun i => ⟨nofun, fun hi => absurd hi.1 (Nat.not_lt_zero i)⟩⟩,
    Nat.zero_le _, fun i hi => absurd hi (Nat.not_lt_zero i), fun i _ hi => absurd hi.1 (Nat.not_lt_zero i),
    fun id hid => absurd hid (Nat.not_lt_zero id), nofun, List.nodup_nil,
    fun id hid => absurd hid (Nat.not_lt_zero id)⟩

theorem manifestSubsystemInit_inv : TableInv manifestSubsystemInit := by
  obtain ⟨hs, capacity, firstFree, slots, hrest⟩ := tableGrow_ok emptyTable_slots rfl
    (show emptyTable.tableGrow tableInitialCap true = some manifestSubsystemInit from rfl)
  refine ⟨hs, ?_, fun p => ?_⟩
  · rw [hrest]
    exact ⟨fun id hid => absurd hid (Nat.not_lt_zero id), fun id hid => absurd hid (Nat.not_lt_zero id),
      fun id => Nat.two_pow_pos 32, nofun, fun id _ => ⟨rfl, rfl⟩, nofun, fun id => rfl⟩
  · rw [hrest]
    trivial

theorem releaseOwner_owner (hs : SlotsOk s) (hl : s.lookup h = some id)
    (hany :
      ((List.range s.nextObject).any fun id => decide (s.handleOf id = h ∧ (s.objects id).ownerPid = pid)) = true) :
    s.handleOf id = h ∧ (s.objects id).ownerPid = pid := by
  obtain ⟨j, hj, hh⟩ := List.any_eq_true.mp hany
  obtain ⟨hh, howner⟩ := of_decide_eq_true hh
  have hjl := List.mem_range.mp hj
  obtain ⟨hlt, hgone, hhandle⟩ := (lookup_iff hs (hh ▸ hs.word j hjl)).mp hl
  by_cases hjg : j ∈ s.destroyed
  · -- the slot has gone on to a later generation
    obtain ⟨-, -, hgen⟩ := hs.gone j hjg
    obtain ⟨i, hi⟩ := hs.live id hlt hgone
    have hcap := hs.cap
    have hi' := hi.1
    unfold tableMaxCap at hcap
    rw [hh, ← hhandle, (hs.inTable i id hi).2.2, handleSlot_makeHandle (by omega),
      handleGen_makeHandle (by omega) (hs.gens i hi')] at hgen
    exact absurd hgen (Nat.lt_irrefl _)
  · have he := handleOf_inj hs hlt hgone hjl hjg (hhandle.trans hh.symm)
    rw [he]
    exact ⟨hh, howner⟩

theorem TableInv.step (ho : Orderly s e) (hs : s.next e = some t) (hi : TableInv s) : TableInv t := by
  cases next_cases hs with
  | compile kmallocOk hidle => exact hi.compiled kmallocOk hidle
  | resolve hh => exact hi.resolved hh ho
  | releasePin hp => exact hi.unpinned hp ho
  | @releaseOwner pid h hidle hany =>
    cases hl : s.lookup h with
    | none =>
      unfold releaseOwned
      rw [hl]
      exact hi
    | some id =>
      obtain ⟨rfl, howner⟩ := releaseOwner_owner hi.slots hl hany
      exact hi.ownerReleased (ho.2 id hl) (howner.symm ▸ hidle) ho.1
  | die pid => exact hi.setCleanup trivial
  | @collect pid hc =>
    change CleanupOrderly s pid (s.cleanup pid) at ho
    rw [hc] at ho
    exact hi.setCleanup (collectBatch_ok hi.slots hi.refs ho)
  | batchEnds hc =>
    refine hi.setCleanup ?_
    split
    · trivial
    · trivial
  | @batchRest pid _ _ _ _ hc hstep =>
    change CleanupOrderly s pid (s.cleanup pid) at ho
    rw [hc] at ho
    obtain ⟨id, u, hu, hinv, -⟩ := hi.cleaned hc ho
    obtain rfl := some.inj (hu.symm.trans hstep)
    exact hinv

/-! ## What is destroyed stays so -/

/-- Destroyed manifests stay destroyed, and handles what they are. -/
structure Grows (s t : TableState) : Prop where
  destroyed : ∀ id ∈ s.destroyed, id ∈ t.destroyed
  next : s.nextObject ≤ t.nextObject
  handles : ∀ id, id < s.nextObject → t.handleOf id = s.handleOf id

theorem Grows.refl (s : TableState) : Grows s s := ⟨fun _ h => h, le_rfl, fun _ _ => rfl⟩

theorem Grows.trans {u : TableState} (h : Grows s t) (h' : Grows t u) : Grows s u :=
  ⟨fun id hid => h'.destroyed id (h.destroyed id hid), h.next.trans h'.next, fun id hid =>
    (h'.handles id (hid.trans_le h.next)).trans (h.handles id hid)⟩

theorem manifestRelease_grows (s : TableState) (h : Nat) : Grows s (s.manifestRelease h) := by
  cases hl : s.lookup h with
  | none =>
    unfold manifestRelease
    rw [hl]
    exact Grows.refl s
  | some id =>
    obtain ⟨firstFree, slots, hrest⟩ := manifestRelease_rest hl
    rw [hrest]
    refine ⟨fun j hj => ?_, le_rfl, fun _ _ => rfl⟩
    split
    · exact List.mem_cons_of_mem _ hj
    · exact hj

theorem releaseOwned_grows (s : TableState) (h : Nat) (ref : OwnerRef) : Grows s (s.releaseOwned h ref) := by
  have hg := manifestRelease_grows s h
  unfold releaseOwned
  split
  · exact Grows.refl s
  · exact ⟨hg.destroyed, hg.next, hg.handles⟩

theorem manifestCompile_grows (hs : SlotsOk s) (pid : Nat) (kmallocOk : Bool) :
    Grows s (s.manifestCompile pid kmallocOk) := by
  rcases manifestCompile_eq s pid kmallocOk with he | ⟨u, slot, hu, hslot, he⟩
  · rw [he]
    exact Grows.refl s
  rw [he]
  obtain ⟨-, capacity, firstFree, slots, rfl⟩ := growIfFull_ok hs hu
  refine ⟨fun _ hid => hid, Nat.le_succ _, fun id hid => ?_⟩
  exact update_of_ne (Nat.ne_of_lt hid) ..

theorem next_grows (hi : SlotsOk s) (hs : s.next e = some t) : Grows s t := by
  cases next_cases hs with
  | @compile pid kmallocOk _ => exact manifestCompile_grows hi pid kmallocOk
  | resolve =>
    unfold manifestResolve
    split
    · exact Grows.refl s
    · exact ⟨fun _ h => h, le_rfl, fun _ _ => rfl⟩
  | @releasePin h id _ =>
    have hg := manifestRelease_grows s h
    exact ⟨hg.destroyed, hg.next, hg.handles⟩
  | @releaseOwner _ h => exact releaseOwned_grows s h .released
  | die | collect | batchEnds => exact ⟨fun _ h => h, le_rfl, fun _ _ => rfl⟩
  | @batchRest _ _ h _ _ hc hstep =>
    have hg := releaseOwned_grows s h .cleaned
    unfold cleanupStep at hstep
    rw [hc] at hstep
    dsimp only at hstep
    split at hstep
    · obtain rfl := some.inj hstep
      exact ⟨hg.destroyed, hg.next, hg.handles⟩
    · obtain rfl := some.inj hstep
      exact ⟨hg.destroyed, hg.next, hg.handles⟩

/-! ## A cleanup ends -/

namespace TableState

/-- The manifests an owner holds. -/
def heldBy (s : TableState) (pid : Nat) : Finset Nat :=
  (Finset.range s.nextObject).filter fun id => s.ownerRef id = .held ∧ (s.objects id).ownerPid = pid

/-- The sections a cleanup has before it. -/
def stepsLeft (s : TableState) (pid : Nat) : Nat :=
  match s.cleanup pid with
  | .idle => 0
  | .collect => 3 * (s.heldBy pid).card + 2
  | .release batch collected =>
    batch.length + 1 + if collected = batchSize then 3 * ((s.heldBy pid).card - batch.length) + 2 else 0

end TableState

theorem mem_heldBy (hr : RefsOk s) : id ∈ s.heldBy pid ↔ s.Held id ∧ (s.objects id).ownerPid = pid := by
  unfold heldBy
  rw [Finset.mem_filter, Finset.mem_range]
  exact ⟨fun hm => hm.2, fun hm => ⟨(Held.live hr hm.1).1, hm⟩⟩

theorem heldBy_eq (hr : RefsOk s) (hr' : RefsOk t)
    (he : ∀ j, t.Held j ∧ (t.objects j).ownerPid = pid ↔ s.Held j ∧ (s.objects j).ownerPid = pid) :
    t.heldBy pid = s.heldBy pid := by
  ext j
  rw [mem_heldBy hr, mem_heldBy hr', he]

theorem stepsLeft_same (hr : RefsOk s) (hr' : RefsOk t) (hc : t.cleanup pid = s.cleanup pid)
    (he : ∀ j, t.Held j ∧ (t.objects j).ownerPid = pid ↔ s.Held j ∧ (s.objects j).ownerPid = pid) :
    t.stepsLeft pid = s.stepsLeft pid := by
  unfold stepsLeft
  rw [hc, heldBy_eq hr hr' he]

theorem batch_length_le (hi : TableInv s) {batch : List Nat} {collected : Nat}
    (hc : CleanupOk s pid (.release batch collected)) : batch.length ≤ (s.heldBy pid).card := by
  obtain ⟨hnodup, hmem, -⟩ := hc
  have hsub : batch.toFinset ⊆ (s.heldBy pid).image s.handleOf := fun h hh => by
    obtain ⟨id, hhandle, hheld, howner⟩ := hmem h (List.mem_toFinset.mp hh)
    exact Finset.mem_image.mpr ⟨id, (mem_heldBy hi.refs).mpr ⟨hheld, howner⟩, hhandle⟩
  rw [← List.toFinset_card_of_nodup hnodup]
  exact (Finset.card_le_card hsub).trans Finset.card_image_le

/-- Every section of a cleanup brings it nearer to its end. -/
theorem stepsLeft_cleanup (hi : TableInv s) (ho : Orderly s (.cleanup pid)) (hs : s.next (.cleanup pid) = some t) :
    t.stepsLeft pid < s.stepsLeft pid := by
  change CleanupOrderly s pid (s.cleanup pid) at ho
  cases next_cases hs with
  | collect hc =>
    rw [hc] at ho
    have hle := batch_length_le hi (collectBatch_ok hi.slots hi.refs ho)
    have hc' : (s.setCleanup pid (.release (s.collectBatch pid) (s.collectBatch pid).length)).cleanup pid =
        .release (s.collectBatch pid) (s.collectBatch pid).length := update_self ..
    unfold stepsLeft
    rw [hc, hc']
    change (s.collectBatch pid).length + 1 + (if (s.collectBatch pid).length = batchSize then
      3 * ((s.heldBy pid).card - (s.collectBatch pid).length) + 2 else 0) < 3 * (s.heldBy pid).card + 2
    unfold batchSize
    split
    · omega
    · omega
  | @batchEnds _ collected hc =>
    have hc' : (s.setCleanup pid (if collected = batchSize then .collect else .idle)).cleanup pid =
        if collected = batchSize then .collect else .idle := update_self ..
    unfold stepsLeft
    rw [hc, hc']
    by_cases hfull : collected = batchSize
    · rw [if_pos hfull]
      dsimp only
      rw [if_pos hfull]
      change 3 * (s.heldBy pid).card + 2 < 0 + 1 + (3 * ((s.heldBy pid).card - 0) + 2)
      omega
    rw [if_neg hfull]
    dsimp only
    rw [if_neg hfull]
    exact Nat.one_pos
  | batchRest hc hstep =>
    rw [hc] at ho
    obtain ⟨id, u, hu, hinv, hheld, howner, -, hheld', howner', hnext, hcleanup⟩ := hi.cleaned hc ho
    obtain rfl := some.inj (hu.symm.trans hstep)
    have hset : u.heldBy pid = (s.heldBy pid).erase id := by
      ext j
      rw [mem_heldBy hinv.refs, Finset.mem_erase, mem_heldBy hi.refs, hheld' j, howner' j]
      tauto
    have hcard : (u.heldBy pid).card = (s.heldBy pid).card - 1 := by
      rw [hset]
      exact Finset.card_erase_of_mem ((mem_heldBy hi.refs).mpr ⟨hheld, howner⟩)
    unfold stepsLeft
    rw [hc, hcleanup, update_self]
    dsimp only
    rw [hcard, List.length_cons]
    split
    · omega
    · omega

theorem manifestCompile_others (hi : TableInv s) (kmallocOk : Bool) {p : Nat} (hp : p ≠ pid)
    (hinv : TableInv (s.manifestCompile p kmallocOk)) :
    (s.manifestCompile p kmallocOk).stepsLeft pid = s.stepsLeft pid := by
  rcases manifestCompile_eq s p kmallocOk with he | ⟨u, slot, hu, hslot, he⟩
  · rw [he]
  rw [he] at hinv ⊢
  obtain ⟨-, capacity, firstFree, slots, hrest⟩ := growIfFull_ok hi.slots hu
  have hnext : u.nextObject = s.nextObject := by rw [hrest]
  have hrefs : u.ownerRef = s.ownerRef := by rw [hrest]
  have hobj : u.objects = s.objects := by rw [hrest]
  refine stepsLeft_same hi.refs hinv.refs ?_ fun j => ?_
  · change u.cleanup pid = s.cleanup pid
    rw [hrest]
  · by_cases hj : j = u.nextObject
    · rw [hj]
      constructor
      · rintro ⟨-, ho⟩
        rw [show (compiledAt u slot p).objects u.nextObject = ⟨1, p⟩ from update_self ..] at ho
        exact absurd ho hp
      · rintro ⟨hheld, -⟩
        exact absurd (Held.live hi.refs hheld).1 (by rw [hnext]; exact Nat.lt_irrefl _)
    · unfold Held
      rw [show (compiledAt u slot p).ownerRef j = s.ownerRef j from (update_of_ne hj ..).trans (congrFun hrefs j),
        show (compiledAt u slot p).objects j = s.objects j from (update_of_ne hj ..).trans (congrFun hobj j)]

/-- No other section gives a cleanup more to do. -/
theorem stepsLeft_other (hi : TableInv s) (ho : Orderly s e) (hs : s.next e = some t) (hdie : e ≠ .die pid)
    (hclean : e ≠ .cleanup pid) : t.stepsLeft pid ≤ s.stepsLeft pid := by
  have hinv := hi.step ho hs
  have hother : ∀ {p}, e = .cleanup p → pid ≠ p := fun he hp => hclean (hp ▸ he)
  cases next_cases hs with
  | @compile p kmallocOk hidle =>
    by_cases hp : p = pid
    · have hc : (s.manifestCompile p kmallocOk).cleanup = s.cleanup := by
        rcases manifestCompile_eq s p kmallocOk with he | ⟨u, slot, hu, hslot, he⟩
        · rw [he]
        · obtain ⟨-, capacity, firstFree, slots, rfl⟩ := growIfFull_ok hi.slots hu
          rw [he]
          rfl
      unfold stepsLeft
      rw [hc, ← hp, hidle]
    · exact (manifestCompile_others hi kmallocOk hp hinv).le
  | @resolve h _ =>
    unfold manifestResolve at hinv ⊢
    cases hl : s.lookup h with
    | none => exact le_rfl
    | some id =>
      rw [hl] at hinv
      refine (stepsLeft_same hi.refs hinv.refs rfl fun j => ?_).le
      dsimp only [setRefCount, Held]
      by_cases hj : j = id
      · rw [hj, update_self]
      · rw [update_of_ne hj]
  | @releasePin h id _ =>
    cases hl : s.lookup h with
    | none =>
      have he : s.manifestRelease h = s := by
        unfold manifestRelease
        rw [hl]
      rw [he] at hinv ⊢
      exact (stepsLeft_same hi.refs hinv.refs rfl fun j => Iff.rfl).le
    | some id' =>
      obtain ⟨-, howner, href, -, -, hcleanup, -⟩ := manifestRelease_same hl
      refine (stepsLeft_same hi.refs hinv.refs (congrFun hcleanup pid) fun j => ?_).le
      unfold Held
      rw [howner, href]
  | @releaseOwner p h hidle hany =>
    cases hl : s.lookup h with
    | none =>
      unfold releaseOwned
      rw [hl]
    | some id =>
      obtain ⟨-, howner⟩ := releaseOwner_owner hi.slots hl hany
      obtain ⟨-, hpid, -, -, -, hcleanup, -⟩ := manifestRelease_same hl
      unfold releaseOwned at hinv ⊢
      rw [hl] at hinv ⊢
      by_cases hp : p = pid
      · unfold stepsLeft
        rw [hcleanup, ← hp, hidle]
      refine (stepsLeft_same hi.refs hinv.refs (congrFun hcleanup pid) fun j => ?_).le
      unfold Held
      dsimp only
      rw [hpid]
      by_cases hj : j = id
      · rw [hj]
        exact ⟨fun he => absurd (howner.symm.trans he.2) hp, fun he => absurd (howner.symm.trans he.2) hp⟩
      · rw [update_of_ne hj]
  | die p =>
    have hp : pid ≠ p := fun hp => hdie (by rw [hp])
    exact (stepsLeft_same hi.refs hinv.refs (update_of_ne hp ..) fun j => Iff.rfl).le
  | collect hc | batchEnds hc =>
    exact (stepsLeft_same hi.refs hinv.refs (update_of_ne (hother rfl) ..) fun j => Iff.rfl).le
  | @batchRest p _ _ _ _ hc hstep =>
    change CleanupOrderly s p (s.cleanup p) at ho
    have hp := hother rfl
    rw [hc] at ho
    obtain ⟨id, u, hu, -, -, howner, -, hheld', howner', -, hcleanup⟩ := hi.cleaned hc ho
    obtain rfl := some.inj (hu.symm.trans hstep)
    refine (stepsLeft_same hi.refs hinv.refs ?_ fun j => ?_).le
    · rw [hcleanup, update_of_ne hp]
    · rw [hheld' j, howner' j]
      by_cases hj : j = id
      · rw [hj]
        exact ⟨fun he => absurd (he.2.symm.trans howner) hp, fun he => absurd (he.2.symm.trans howner) hp⟩
      · exact ⟨fun he => ⟨he.1.1, he.2⟩, fun he => ⟨⟨he.1, hj⟩, he.2⟩⟩

/-! ## Every run -/

/-- An orderly run. -/
def TableRun : TableState → List TableEvent → TableState → Prop := Lib.Run (fun s e t => s.next e = some t) Orderly

variable {es : List TableEvent}

theorem TableInv.run (run : TableRun s es t) (hi : TableInv s) : TableInv t :=
  Lib.Run.invariant run (fun _ _ _ ho hs h => h.step ho hs) hi

theorem grows_of_run (run : TableRun s es t) (hi : TableInv s) : Grows s t := by
  unfold TableRun at run
  induction run with
  | nil s => exact Grows.refl s
  | cons ho hs _ ih => exact (next_grows hi.slots hs).trans (ih (hi.step ho hs))

theorem count_cleanup_le (run : TableRun s es t) (hi : TableInv s) (hdie : .die pid ∉ es) :
    es.count (.cleanup pid) ≤ s.stepsLeft pid := by
  unfold TableRun at run
  induction run with
  | nil s => exact Nat.zero_le _
  | @cons s t u e es ho hs _ ih =>
    rw [List.mem_cons, not_or] at hdie
    have hrest := ih (hi.step ho hs) hdie.2
    by_cases he : e = .cleanup pid
    · rw [he] at ho hs ⊢
      rw [List.count_cons_self]
      have := stepsLeft_cleanup hi ho hs
      omega
    · rw [List.count_cons_of_ne he]
      exact hrest.trans (stepsLeft_other hi ho hs (Ne.symm hdie.1) he)

/-- What the handles promise. -/
structure TableOk (s : TableState) : Prop where
  refs : ∀ i id, s.At i id → (s.objects id).refCount = s.refsOf id
  /-- a manifest is destroyed exactly when there is no reference left, and once -/
  destroyed : ∀ id, id < s.nextObject → (id ∈ s.destroyed ↔ s.refsOf id = 0)
  once : s.destroyed.Nodup
  /-- what a retain or an execution has resolved is there until it is released -/
  pinned : ∀ h id, (h, id) ∈ s.pins → s.lookup h = some id
  /-- a handle of a destroyed manifest never resolves again -/
  stale : ∀ id ∈ s.destroyed, ∀ es t, TableRun s es t → t.lookup (s.handleOf id) = none
  /-- the chain has every free slot once -/
  chain : ∃ chain, FreeChain (fun i => (s.slots i).nextFree) s.firstFree chain ∧ chain.Nodup ∧
    ∀ i, i ∈ chain ↔ i < s.capacity ∧ (s.slots i).manifest = none
  /-- where a cleanup ends, each manifest of its owner has lost the reference of the owner and no other to it -/
  cleaned : ∀ pid collected, s.cleanup pid = .release [] collected → collected ≠ batchSize →
    ∀ id, (s.objects id).ownerPid = pid →
      (s.ownerRef id = .released ∧ s.drops id = 0) ∨ (s.ownerRef id = .cleaned ∧ s.drops id = 1)
  /-- a cleanup goes on and ends -/
  goesOn : ∀ pid, s.cleanup pid ≠ .idle → ∃ t, s.next (.cleanup pid) = some t
  ends : ∀ pid es t, TableRun s es t → .die pid ∉ es → es.count (.cleanup pid) ≤ s.stepsLeft pid

theorem stale_lookup (hs : SlotsOk s) (hid : id ∈ s.destroyed) : s.lookup (s.handleOf id) = none := by
  obtain ⟨hlt, -, hgen⟩ := hs.gone id hid
  unfold lookup
  exact if_neg fun hl => Nat.lt_irrefl _ (hl.2 ▸ hgen)

theorem TableInv.tableOk (hi : TableInv s) : TableOk s where
  refs i id hat := by
    obtain ⟨hlt, hgone, -⟩ := hi.slots.inTable i id hat
    exact hi.refs.count id hlt hgone
  destroyed id hlt := by
    refine ⟨hi.refs.gone id, fun hzero => ?_⟩
    by_contra hgone
    exact Nat.ne_of_gt (hi.refs.pos id hlt hgone) hzero
  once := hi.slots.once
  pinned h id hp := by
    obtain ⟨hlt, hgone⟩ := pinned_live hi.refs hp
    have hhandle := hi.refs.pinned h id hp
    exact (lookup_iff hi.slots (hhandle ▸ hi.slots.word id hlt)).mpr ⟨hlt, hgone, hhandle.symm⟩
  stale id hid es t run := by
    have hgrows := grows_of_run run hi
    rw [← hgrows.handles id (hi.slots.gone id hid).1]
    exact stale_lookup (hi.run run).slots (hgrows.destroyed id hid)
  chain := hi.slots.chain
  cleaned pid collected hc hlast id howner := by
    have hclean := hi.cleanup pid
    rw [hc] at hclean
    have hdrops := hi.refs.drops id
    cases href : s.ownerRef id with
    | held => cases hclean.2.2 hlast id href howner
    | released =>
      rw [href] at hdrops
      exact .inl ⟨rfl, hdrops⟩
    | cleaned =>
      rw [href] at hdrops
      exact .inr ⟨rfl, hdrops⟩
  goesOn pid hc := by
    change ∃ t, s.cleanupStep pid = some t
    unfold cleanupStep
    split
    · rename_i hidle
      exact absurd hidle hc
    · exact ⟨_, rfl⟩
    · exact ⟨_, rfl⟩
    · dsimp only
      split
      · exact ⟨_, rfl⟩
      · exact ⟨_, rfl⟩
  ends pid es t run hdie := count_cleanup_le run hi hdie

/-- Manifest handles are safe references. -/
theorem manifest_handles_safe {es : List TableEvent} (run : TableRun manifestSubsystemInit es s) : TableOk s :=
  (manifestSubsystemInit_inv.run run).tableOk

/-- Computes whether a step is orderly. -/
def orderly (s : TableState) : TableEvent → Bool
  | .resolve h => (s.lookup h).all fun id => decide (s.refsOf id + 1 < 2 ^ 32)
  | .releasePin h _ => decide ((s.slots (handleSlot h)).generation + 1 < 2 ^ 32)
  | .releaseOwner _ h => decide ((s.slots (handleSlot h)).generation + 1 < 2 ^ 32) &&
    (s.lookup h).all fun id => decide (s.ownerRef id = .held)
  | .cleanup pid =>
    match s.cleanup pid with
    | .collect => (List.range s.capacity).all fun i =>
      (s.slots i).manifest.all fun id => decide ((s.objects id).ownerPid = pid → s.ownerRef id = .held)
    | .release (h :: _) _ => decide ((s.slots (handleSlot h)).generation + 1 < 2 ^ 32)
    | _ => true
  | _ => true

theorem orderly_sound (h : orderly s e = true) : Orderly s e := by
  cases e with
  | compile | die => trivial
  | resolve h' =>
    intro id hl
    change (s.lookup h').all (fun id => decide (s.refsOf id + 1 < 2 ^ 32)) = true at h
    rw [hl] at h
    exact of_decide_eq_true h
  | releasePin h' id => exact (of_decide_eq_true h : (s.slots (handleSlot h')).generation + 1 < 2 ^ 32)
  | releaseOwner pid h' =>
    obtain ⟨hgen, hheld⟩ := (Bool.and_eq_true _ _).mp h
    refine ⟨(of_decide_eq_true hgen : (s.slots (handleSlot h')).generation + 1 < 2 ^ 32), fun id hl => ?_⟩
    rw [hl] at hheld
    exact (of_decide_eq_true hheld : s.ownerRef id = .held)
  | cleanup pid =>
    change CleanupOrderly s pid (s.cleanup pid)
    unfold orderly at h
    dsimp only at h
    split at h
    · rename_i hc
      rw [hc]
      intro i id hat howner
      have hi := List.all_eq_true.mp h i (List.mem_range.mpr hat.1)
      rw [hat.2] at hi
      exact of_decide_eq_true hi howner
    · rename_i h' rest collected hc
      rw [hc]
      exact (of_decide_eq_true h : (s.slots (handleSlot h')).generation + 1 < 2 ^ 32)
    · rename_i hcollect hrelease
      cases hc : s.cleanup pid with
      | idle => trivial
      | collect => exact absurd hc hcollect
      | release batch collected =>
        cases batch with
        | nil => trivial
        | cons h' rest => exact absurd hc (hrelease h' rest collected)

/-- The first handle of the first slot. -/
def firstHandle : Nat := makeHandle 0 1

theorem manifest_handles_safe_one : ∃ s, TableOk s ∧ s.destroyed = [0] ∧ s.drops 0 = 1 := by
  obtain ⟨s, run, hend⟩ : ∃ s, Lib.Run (fun s e t => s.next e = some t) Orderly manifestSubsystemInit
      [.compile 1 true, .resolve firstHandle, .die 1, .cleanup 1, .cleanup 1, .cleanup 1, .releasePin firstHandle 0] s ∧
        s.destroyed = [0] ∧ s.drops 0 = 1 := Lib.exec_reaches orderly id orderly_sound (by decide +kernel)
  exact ⟨s, manifest_handles_safe run, hend⟩

/-- An owner gives its handle back while it is executed and dies: the cleanup takes the reference of the execution, and
the manifest is destroyed under it. -/
theorem cleanup_takes_reference_of_execution : ∃ (es : List TableEvent) (s : TableState),
    Lib.Run (fun s e t => s.next e = some t) (fun _ _ => True) manifestSubsystemInit es s ∧ (firstHandle, 0) ∈ s.pins ∧
    0 ∈ s.destroyed :=
  ⟨[.compile 1 true, .resolve firstHandle, .releaseOwner 1 firstHandle, .die 1, .cleanup 1, .cleanup 1],
    Lib.run_reaches id (by decide +kernel)⟩

end BoxOS.Manifest
