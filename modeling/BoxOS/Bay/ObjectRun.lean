import BoxOS.Lib.Runs
import BoxOS.Bay.ObjectLaws

/-!
# Runs of the bays

The counts of references, the mappings, the pages and the key ids agree with what the claims, the bays and the calls
hold in every run (`Counted`), as long as no count of references wraps. The quota of a cabin does so while a bay that
goes gives its place back to the cabin of its creator (`GivesBack`): `bay_drop_ref_locked` looks for a process with the
creator's pid.
-/

namespace BoxOS.Bay

open Lib List Stake

namespace BaySystem

variable {s : BaySystem}

/-! ## One event -/

theorem finish_pc (op : BayOp) (res : BayResult) : (op.finish res).pc ≠ .take := by
  unfold BayOp.finish
  cases op.todo with
  | nil | cons => exact fun h => BayPc.noConfusion h

theorem after_pc (op : BayOp) (next : After) : (op.after next).pc ≠ .take := by
  cases next with
  | fail | again => exact fun h => BayPc.noConfusion h

theorem found_pc (s : BayState) (op : BayOp) (p : Nat) : (BayOp.found s op p).2.pc ≠ .take := by
  unfold BayOp.found
  split <;> exact fun h => BayPc.noConfusion h

theorem dropRef_pc (s : BayState) (op : BayOp) (p : Nat) (res : BayResult) :
    (BayOp.dropRef s op p res).2.pc ≠ .take := by
  unfold BayOp.dropRef
  simp only
  split
  · exact fun h => BayPc.noConfusion h
  · exact finish_pc op res

theorem step_pc (tme : Tme) (s : BayState) (op : BayOp) (c : Choice) : (op.step tme s c).2.pc ≠ .take := by
  fun_cases BayOp.step tme s op c
  all_goals first
    | exact found_pc s op _
    | exact dropRef_pc s op _ _
    | exact after_pc op _
    | exact finish_pc _ _
    | exact fun h => BayPc.noConfusion h
    | skip
  · -- a lost race
    simp only
    split <;> exact fun h => BayPc.noConfusion h
  · -- the pages are freed
    simp only
    split
    · exact finish_pc op _
    · exact fun h => BayPc.noConfusion h
  · -- the call is done
    rename_i hpc
    simp only
    rw [hpc]
    exact fun h => BayPc.noConfusion h

theorem Inv.effect (h : s.Inv) (tme : Tme) {i : Nat} {op : BayOp} (hi : s.ops[i]? = some op) (c : Choice) :
    Effect s.shared op (op.step tme s.shared c).1 (op.step tme s.shared c).2 := by
  have hop := mem_of_getElem? hi
  refine BayOp.step_effect tme c (fun p hp => h.bays.lt ((h.bays.linked p).mp hp)) (fun p hp => ?_) (h.takes op hop)
  exact h.ref_linked hop hp

/-- No reference is taken to a bay that has 2^32 - 1 already. -/
def Fits (s : BaySystem) : BayEvent → Prop
  | .step i _ => ∀ op ∈ s.ops[i]?, ∀ p ∈ op.attaches s.shared, s.shared.bays.refsOf p + 1 < 2 ^ 32
  | _ => True

/-- Where an event keeps the books. -/
def Meets (s : BaySystem) (e : BayEvent) : Prop :=
  s.Fits e ∧
    match e with
    | .step i _ => ∀ op ∈ s.ops[i]?, op.GivesBack s.shared
    | _ => True

theorem held_call (s : BaySystem) {op : BayOp} (hop : op.stakes = []) (q : Stake → Bool) :
    (s.call op).held q = s.held q :=
  outstanding_append hop q s.shared.stakes s.ops

theorem Inv.call (h : s.Inv) {op : BayOp} (hop : op.stakes = []) (htodo : op.todo = []) : (s.call op).Inv where
  bays := h.bays.congr fun p => held_call s hop _
  maps := fun m => (h.maps m).trans (held_call s hop _).symm
  keys := fun k => (h.keys k).trans (by rw [held_call s hop]; rfl)
  one := fun k => (held_call s hop _).trans_le (h.one k)
  used := fun k hk => h.used k ((held_call s hop (isKey k)) ▸ hk)
  pages := fun p => (congrArg (_ + ·) (held_call s hop _)).trans (h.pages p)
  chunks := h.chunks.trans (held_call s hop _).symm
  quota := h.quota
  takes := fun o ho hpc => by
    rcases mem_append.mp ho with ho | ho
    · exact h.takes o ho hpc
    · rw [mem_singleton.mp ho]
      exact htodo

theorem Charged.call (h : s.Charged) {op : BayOp} (hop : op.stakes = []) : (s.call op).Charged :=
  fun k hk => (h k hk).trans (held_call s hop _).symm

theorem Inv.procs (h : s.Inv) {cabin : Nat → Cabin} {procs : Nat → Option Nat}
    (hcabin : ∀ k, (cabin k).tmeKeyidsHeld = (s.shared.cabin k).tmeKeyidsHeld) :
    Inv { s with shared := { s.shared with cabin := cabin, procs := procs } } where
  bays := h.bays
  maps := h.maps
  keys := h.keys
  one := h.one
  used := h.used
  pages := h.pages
  chunks := h.chunks
  quota := fun k => (hcabin k).trans_le (h.quota k)
  takes := h.takes

theorem Charged.procs (h : s.Charged) {cabin : Nat → Cabin} {procs : Nat → Option Nat}
    (hcabin : ∀ k, (cabin k).tmeKeyidsHeld = (s.shared.cabin k).tmeKeyidsHeld)
    (hgone : ∀ k, s.shared.Gone k → (cabin k).born = true ∧ (cabin k).strandCount = 0) :
    Charged { s with shared := { s.shared with cabin := cabin, procs := procs } } :=
  fun k hlive => (hcabin k).trans (h k fun hg => hlive (hgone k hg))

theorem update_held (f : Nat → Cabin) (j : Nat) (c : Cabin) (hc : c.tmeKeyidsHeld = (f j).tmeKeyidsHeld) (k : Nat) :
    (Function.update f j c k).tmeKeyidsHeld = (f k).tmeKeyidsHeld := by
  rw [Function.update_apply]
  split
  · rename_i hk
    rw [hk]
    exact hc
  · rfl

theorem Inv.next (h : s.Inv) (tme : Tme) {e : BayEvent} (hfit : s.Fits e) : (s.next tme e).Inv := by
  cases e with
  | «open» | release =>
    simp only [BaySystem.next]
    split
    · exact h
    · exact h.call rfl rfl
  | cleanup k => exact h.call rfl rfl
  | step i c =>
    simp only [BaySystem.next]
    cases hi : s.ops[i]? with
    | none => exact h
    | some op =>
      have heff := h.effect tme hi c
      refine ⟨h.bays_step hi heff (hfit op hi), h.maps_step hi heff, fun k => (h.key_step hi heff k).1,
        fun k => (h.key_step hi heff k).2.1, fun k => (h.key_step hi heff k).2.2, h.pages_step hi heff,
        h.chunks_step hi heff, h.quota_step heff, fun o ho hpc => ?_⟩
      rcases mem_or_eq_of_mem_set ho with ho | rfl
      · exact h.takes o ho hpc
      · exact absurd hpc (step_pc tme s.shared op c)
  | newCabin | strand | exit =>
    simp only [BaySystem.next]
    split
    · exact h
    · exact h.procs (update_held _ _ _ rfl)

theorem Charged.next (h : s.Charged) (hinv : s.Inv) (tme : Tme) {e : BayEvent} (hmeet : s.Meets e) :
    (s.next tme e).Charged := by
  cases e with
  | «open» | release =>
    simp only [BaySystem.next]
    split
    · exact h
    · exact h.call rfl
  | cleanup k => exact h.call rfl
  | step i c =>
    simp only [BaySystem.next]
    cases hi : s.ops[i]? with
    | none => exact h
    | some op => exact charged_step h hi (hinv.effect tme hi c) (hmeet.2 op hi)
  | newCabin pid k =>
    simp only [BaySystem.next]
    split
    · exact h
    rename_i hnot
    refine h.procs (update_held _ _ _ rfl) fun j hg => ?_
    have hne : j ≠ k := by
      rintro rfl
      exact hnot (.inr hg.1)
    rw [Function.update_of_ne hne]
    exact hg
  | strand pid k =>
    simp only [BaySystem.next]
    split
    · exact h
    rename_i hnot
    refine h.procs (update_held _ _ _ rfl) fun j hg => ?_
    have hne : j ≠ k := by
      rintro rfl
      exact hnot (.inr hg.2)
    rw [Function.update_of_ne hne]
    exact hg
  | exit pid =>
    simp only [BaySystem.next]
    split
    · exact h
    rename_i k hk
    refine h.procs (update_held _ _ _ rfl) fun j hg => ?_
    rw [Function.update_apply]
    split
    · rename_i hj
      subst hj
      exact ⟨hg.1, by simp only [hg.2]⟩
    · exact hg

/-! ## Runs -/

/-- The bays that have a key. -/
def hasKey (s : BaySystem) (k p : Nat) : Bool := decide (k ≠ 0 ∧ s.shared.keyOf p = k)

/-- The encrypted bays that a cabin created. -/
def encryptedBy (s : BaySystem) (k p : Nat) : Bool := decide (s.shared.keyOf p ≠ 0 ∧ s.shared.homeOf p = k)

/-- What the calls in progress hold of a stake. -/
def inProgress (s : BaySystem) (x : Stake) : Nat := total (fun op => op.stakes.count x) s.ops

/-- There is one bay for a tag, and its references are the claims and the calls in progress; its pages are freed once,
when it has none, and while it is mapped it is linked; a key id is held once and freed once; no array of pages is lost;
and no cabin is over its quota. -/
structure Counted (s : BaySystem) : Prop where
  one : ∀ p ∈ s.shared.bays.linked, ∀ q ∈ s.shared.bays.linked, s.shared.bays.tagOf p = s.shared.bays.tagOf q → p = q
  refs : ∀ p, s.shared.bays.refsOf p = s.shared.claims.countP (fun c => decide (c.bay = p)) + s.inProgress (.ref p)
  linked : ∀ p, p ∈ s.shared.bays.linked ↔ 0 < s.shared.bays.refsOf p
  pages : ∀ p < s.shared.bays.entries.length,
    s.shared.freedOf p + (if p ∈ s.shared.bays.linked then 1 else 0) + s.inProgress (.pages p) = 1
  mapped : ∀ m ∈ s.shared.maps, m.bay ∈ s.shared.bays.linked ∧ s.shared.freedOf m.bay = 0
  keys : ∀ k, s.shared.keyAllocs k =
    s.shared.keyFrees k + (s.shared.bays.linked.countP (s.hasKey k) + s.inProgress (.key k))
  oneKey : ∀ k, s.shared.bays.linked.countP (s.hasKey k) + s.inProgress (.key k) ≤ 1
  chunks : s.shared.chunksOut = s.shared.bays.linked.length + total (fun op => op.stakes.countP isChunks) s.ops
  quota : ∀ k, (s.shared.cabin k).tmeKeyidsHeld ≤ tmeQuotaPerProc

theorem countP_bayStakes_key (s : BayState) (p k : Nat) :
    (s.bayStakes p).countP (isKey k) = if k ≠ 0 ∧ s.keyOf p = k then 1 else 0 := by
  unfold BayState.bayStakes keyed isKey
  split
  · rename_i hzero
    simp [hzero, eq_comm]
  rename_i hpos
  by_cases hk : s.keyOf p = k
  · subst hk
    simp [hpos]
  · simp [hk]

theorem countP_bayStakes_charge (s : BayState) (p k : Nat) :
    (s.bayStakes p).countP (isCharge k) = if s.keyOf p ≠ 0 ∧ s.homeOf p = k then 1 else 0 := by
  unfold BayState.bayStakes keyed isCharge
  split
  · rename_i hzero
    simp [hzero]
  · rename_i hpos
    simp [hpos, countP_cons]

theorem countP_bayStakes_pages (s : BayState) (p q : Nat) :
    (s.bayStakes p).countP (isPages q) = if p = q then 1 else 0 := by
  unfold BayState.bayStakes keyed isPages
  split <;> simp [countP_cons]

theorem countP_bayStakes_chunks (s : BayState) (p : Nat) : (s.bayStakes p).countP isChunks = 1 := by
  unfold BayState.bayStakes keyed
  split <;> simp [countP_cons, isChunks]

theorem countP_bayStakes_other (s : BayState) (p : Nat) {q : Stake → Bool} (hpages : q (.pages p) = false)
    (hkey : q (.key (s.keyOf p)) = false) (hcharge : q (.charge (s.homeOf p)) = false) :
    (s.bayStakes p).countP q = 0 := by
  unfold BayState.bayStakes keyed
  split <;> simp [hpages, hkey, hcharge]

theorem countP_claim_other (c : BayClaim) {q : Stake → Bool} (href : q (.ref c.bay) = false)
    (hmapped : q (.mapped c) = false) : c.stakes.countP q = 0 := by
  simp [BayClaim.stakes, href, hmapped]

theorem held_eq (s : BaySystem) (q : Stake → Bool) :
    s.held q = total (fun c => c.stakes.countP q) s.shared.claims + total (fun p =>
    (s.shared.bayStakes p).countP q) s.shared.bays.linked + total (fun op => op.stakes.countP q) s.ops := by
  unfold held outstanding
  rw [BayState.countP_stakes]

theorem held_ref (s : BaySystem) (p : Nat) :
    s.held (isRef p) = s.shared.claims.countP (fun c => decide (c.bay = p)) + s.inProgress (.ref p) := by
  rw [held_eq, total_eq_zero (l := s.shared.bays.linked) fun b _ => countP_bayStakes_other s.shared b rfl rfl rfl,
    total_eq_countP (q := fun c : BayClaim => decide (c.bay = p))]
  · rfl
  · intro c _
    simp [BayClaim.stakes, isRef, countP_cons]

theorem held_pages (h : s.Inv) (p : Nat) :
    s.held (isPages p) = (if p ∈ s.shared.bays.linked then 1 else 0) + s.inProgress (.pages p) := by
  rw [held_eq, total_eq_zero (l := s.shared.claims) fun c _ => countP_claim_other c rfl rfl,
    total_eq_countP (l := s.shared.bays.linked) (q := fun b => decide (b = p))
      fun b _ => (countP_bayStakes_pages s.shared b p).trans (by simp)]
  have hcount : s.shared.bays.linked.countP (fun b => decide (b = p)) = if p ∈ s.shared.bays.linked then 1 else 0 :=
    h.bays.nodup.count
  rw [hcount, Nat.zero_add]
  rfl

theorem held_key (s : BaySystem) (k : Nat) :
    s.held (isKey k) = s.shared.bays.linked.countP (s.hasKey k) + s.inProgress (.key k) := by
  rw [held_eq, total_eq_zero (l := s.shared.claims) fun c _ => countP_claim_other c rfl rfl,
    total_eq_countP (l := s.shared.bays.linked) (q := s.hasKey k)
      fun b _ => (countP_bayStakes_key s.shared b k).trans (by simp [hasKey]), Nat.zero_add]
  rfl

theorem held_charge (s : BaySystem) (k : Nat) :
    s.held (isCharge k) = s.shared.bays.linked.countP (s.encryptedBy k) + s.inProgress (.charge k) := by
  rw [held_eq, total_eq_zero (l := s.shared.claims) fun c _ => countP_claim_other c rfl rfl,
    total_eq_countP (l := s.shared.bays.linked) (q := s.encryptedBy k)
      fun b _ => (countP_bayStakes_charge s.shared b k).trans (by simp [encryptedBy]), Nat.zero_add]
  rfl

theorem held_chunks (s : BaySystem) :
    s.held isChunks = s.shared.bays.linked.length + total (fun op => op.stakes.countP isChunks) s.ops := by
  rw [held_eq, total_eq_zero (l := s.shared.claims) fun c _ => countP_claim_other c rfl rfl,
    total_eq_countP (l := s.shared.bays.linked) (q := fun _ => true)
      fun b _ => (countP_bayStakes_chunks s.shared b).trans (by simp), Nat.zero_add]
  simp

theorem claim_mapped_le (c m : BayClaim) : c.stakes.countP (isMapped m) ≤ c.stakes.countP (isRef m.bay) := by
  by_cases hc : c = m
  · subst hc
    simp [BayClaim.stakes, isMapped, isRef]
  · simp [BayClaim.stakes, isMapped, isRef, countP_cons, hc]

theorem op_mapped_le (op : BayOp) (m : BayClaim) :
    op.stakes.countP (isMapped m) ≤ op.stakes.countP (isRef m.bay) := by
  unfold BayOp.stakes
  rw [countP_append, countP_append, Lib.countP_flatMap, Lib.countP_flatMap]
  refine Nat.add_le_add ?_ (total_mono (fun c => claim_mapped_le c m) op.todo)
  have keyed_zero : ∀ k c, (keyed k c).countP (isMapped m) = 0 := by
    intro k c
    unfold keyed
    split <;> rfl
  cases op.pc with
  | link p va => exact claim_mapped_le ⟨op.cabin, p, va⟩ m
  | unmap c => exact claim_mapped_le c m
  | build key => exact (keyed_zero key op.cabin).trans_le (Nat.zero_le _)
  | insert key cs size => exact (keyed_zero key op.cabin).trans_le (Nat.zero_le _)
  | freeChunks p key pid home res => exact (keyed_zero key home).trans_le (Nat.zero_le _)
  | lookup | charge | allocKey | freeKey | uncharge | again | reserve | map | drop | freeBayKey | giveBack | unlink |
      take
  | done => exact Nat.zero_le _

theorem held_mapped_le (s : BaySystem) (m : BayClaim) : s.held (isMapped m) ≤ s.held (isRef m.bay) := by
  rw [held_eq, held_eq,
    total_eq_zero (l := s.shared.bays.linked) fun b _ =>
    countP_bayStakes_other s.shared b (q := isMapped m) rfl rfl rfl]
  have hclaims := total_mono (fun c => claim_mapped_le c m) s.shared.claims
  have hops := total_mono (fun op => op_mapped_le op m) s.ops
  omega

theorem Inv.counted (h : s.Inv) : s.Counted where
  one := fun p hp q hq htag => h.bays.unique hp hq htag
  refs := fun p => (h.bays.refs p).trans (held_ref s p)
  linked := fun p => by rw [h.bays.linked, h.bays.refs]
  pages := fun p hp => by
    have := h.pages p
    rw [held_pages h, if_pos hp] at this
    omega
  mapped := fun m hm => by
    have hpos : 0 < s.held (isRef m.bay) := by
      have := count_pos_iff.mpr hm
      rw [h.maps] at this
      exact this.trans_le (held_mapped_le s m)
    have hlinked := (h.bays.linked m.bay).mpr hpos
    have hpages := h.pages m.bay
    rw [held_pages h, if_pos hlinked, if_pos (h.bays.lt hpos)] at hpages
    exact ⟨hlinked, by omega⟩
  keys := fun k => (h.keys k).trans (by rw [held_key])
  oneKey := fun k => held_key s k ▸ h.one k
  chunks := h.chunks.trans (held_chunks s)
  quota := h.quota

end BaySystem

open BaySystem

/-- What is counted in any run in which no count of references wraps; and, when each place in a quota goes back to the
cabin that took it, a cabin has as many places as encrypted bays and calls in progress. -/
theorem bay_lifetime {tme : Tme} {es : List BayEvent} {s : BaySystem} (run : Run (Step tme) Fits init es s) :
    s.Counted ∧ (Run (Step tme) Meets init es s → ∀ k, ¬s.shared.Gone k →
      (s.shared.cabin k).tmeKeyidsHeld = s.shared.bays.linked.countP (s.encryptedBy k) + s.inProgress (.charge k)) := by
  constructor
  · exact (run.invariant (fun s e t hc hs h => hs ▸ h.next tme hc) init_inv).counted
  · intro run k hlive
    have hboth : s.Inv ∧ s.Charged := run.invariant (P := fun s => s.Inv ∧ s.Charged)
      (fun s e t hc hs h => hs ▸ ⟨h.1.next tme hc.1, h.2.next h.1 tme hc⟩) ⟨init_inv, fun _ _ => rfl⟩
    exact (hboth.2 k hlive).trans (held_charge s k)

instance (s : BaySystem) : (e : BayEvent) → Decidable (s.Fits e)
  | .step i _ => inferInstanceAs (Decidable (∀ op ∈ s.ops[i]?, ∀ p ∈ op.attaches s.shared, _ < _))
  | .open _ _ _ _ _ | .release _ _ | .cleanup _ | .newCabin _ _ | .strand _ _ | .exit _ =>
    inferInstanceAs (Decidable True)

instance (s : BaySystem) : (e : BayEvent) → Decidable (s.Meets e)
  | .step i _ => inferInstanceAs (Decidable (_ ∧ ∀ op ∈ s.ops[i]?, op.GivesBack s.shared))
  | .open _ _ _ _ _ | .release _ _ | .cleanup _ | .newCabin _ _ | .strand _ _ | .exit _ =>
    inferInstanceAs (Decidable (_ ∧ True))

/-- A processor with three key ids. -/
def threeKeys : Tme := ⟨true, 3⟩

/-- Sections of one call. -/
def sections (i n : Nat) : List BayEvent := replicate n (.step i {})

/-- Two strands of one cabin: the first creates an encrypted bay. -/
def creates : List BayEvent :=
  [.newCabin 1 0, .strand 2 0, .open 1 5 4096 true true] ++ sections 0 8

/-- The creator releases it. -/
def creatorReleases : List BayEvent := creates ++ [.release 1 cabinBayBase] ++ sections 1 6

/-- The creator goes, and the other strand releases it. -/
def otherReleases : List BayEvent := creates ++ [.exit 1, .release 2 cabinBayBase] ++ sections 1 6

/-- The run of a list of events. -/
def after (es : List BayEvent) (ok : BaySystem → BayEvent → Bool) : Option BaySystem :=
  exec (fun s e => some (s.next threeKeys e)) ok init es

theorem after_run {C : BaySystem → BayEvent → Prop} {ok : BaySystem → BayEvent → Bool}
    (hok : ∀ {s e}, ok s e = true → C s e) {es : List BayEvent} {s : BaySystem} (h : after es ok = some s) :
    Run (Step threeKeys) C init es s :=
  exec_run (fun {_ _ _} ht => (Option.some.inj ht).symm) hok h

/-- The count of the cabin is back at zero. -/
theorem bay_lifetime_one :
    ∃ s, Run (Step threeKeys) Meets init creatorReleases s ∧ s.Counted ∧ (s.shared.bays.linked = [] ∧
    (s.shared.cabin 0).tmeKeyidsHeld = s.shared.bays.linked.countP (s.encryptedBy 0) + s.inProgress (.charge 0)) := by
  have hcheck : ((after creatorReleases fun s e => decide (s.Meets e)).any fun s =>
      decide (s.shared.bays.linked = [] ∧ ¬s.shared.Gone 0)) = true := by decide +kernel
  obtain ⟨s, hs, hend⟩ := (Option.any_eq_true _ _).mp hcheck
  have hend := of_decide_eq_true hend
  have run : Run (Step threeKeys) Meets init creatorReleases s := after_run (fun {s e} h => of_decide_eq_true h) hs
  have hfit : Run (Step threeKeys) Fits init creatorReleases s := run.imp fun s e h => h.1
  exact ⟨s, run, (bay_lifetime hfit).1, hend.1, (bay_lifetime hfit).2 run 0 hend.2⟩

/-- The bay is gone and no call is in progress, but the place in the quota of the cabin is not given back. -/
theorem quota_not_given_back :
    ∃ s, Run (Step threeKeys) Fits init otherReleases s ∧ ¬s.shared.Gone 0 ∧ (s.shared.cabin 0).tmeKeyidsHeld = 1 ∧
    s.shared.bays.linked.countP (s.encryptedBy 0) + s.inProgress (.charge 0) = 0 := by
  have hcheck : ((after otherReleases fun s e => decide (s.Fits e)).any fun s =>
      decide (¬s.shared.Gone 0 ∧ (s.shared.cabin 0).tmeKeyidsHeld = 1 ∧
        s.shared.bays.linked.countP (s.encryptedBy 0) + s.inProgress (.charge 0) = 0)) = true := by decide +kernel
  obtain ⟨s, hs, hend⟩ := (Option.any_eq_true _ _).mp hcheck
  exact ⟨s, after_run (fun {s e} h => of_decide_eq_true h) hs, of_decide_eq_true hend⟩

end BoxOS.Bay
