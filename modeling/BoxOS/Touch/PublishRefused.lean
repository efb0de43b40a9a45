import BoxOS.Touch.Publish

/-!
# Refused publishes

A pair of tags and a tick of the delayed queue publish one tag after the other, each on the state its predecessor left:
these are the turns of a request. A turn is refused when the capability of its tag does not admit the source. A refused
turn of a `KERNEL_ONLY` tag does nothing. A refused turn of an `OWNERS` tag has already set the level and called the
watches when it is refused (`refused_publish_without_effect`).
-/

namespace BoxOS.Touch

open List

/-- One publish of a tag, with the state at its turn. -/
structure Turn (π σ ω : Type) where
  world : TouchWorld π σ ω
  tagId : Nat
  payload : Payload
  sourcePid : Nat
  flags : Nat

inductive PublishRequest where
  | pair (fullId bareId : Nat) (p : Payload) (sourcePid flags : Nat)
  | tick (now : Nat)

/-! ## A snapshot takes the first element of a list -/

theorem length_snapLoop {α : Type} (room : Nat → Bool) (cap : Nat) (snap l : List α) :
    snap.length ≤ (snapLoop room cap snap l).length := by
  induction l generalizing cap snap with
  | nil => exact le_rfl
  | cons x xs ih =>
    rw [snapLoop]
    have hone : snap.length ≤ (snap ++ [x]).length := by simp
    split
    · split
      · exact hone.trans (ih _ _)
      · exact le_rfl
    · exact hone.trans (ih _ _)

theorem snapLoop_eq_nil {α : Type} (room : Nat → Bool) {cap : Nat} (l : List α) (hcap : 0 < cap) :
    snapLoop room cap [] l = [] ↔ l = [] := by
  cases l with
  | nil => simp [snapLoop]
  | cons x xs =>
    rw [snapLoop, length_nil, if_neg (not_le.mpr hcap)]
    have hlen := length_snapLoop room cap [x] xs
    simp only [nil_append, reduceCtorEq, iff_false]
    intro hnil
    rw [hnil] at hlen
    exact absurd hlen (by simp)

/-! ## The parts of a publish -/

section

variable {π σ ω : Type} {env : PublishEnv π σ ω}

variable {w : TouchWorld π σ ω} {tagId : Nat}

theorem ownersOk_eq_false {sourcePid : Nat} (hsrc : sourcePid ≠ 0)
    (h : ¬ w.Wears sourcePid tagId) : ownersOk w .owners tagId sourcePid = false := by
  unfold ownersOk
  rw [if_pos ⟨rfl, hsrc⟩]
  cases hf : w.find sourcePid with
  | none => rfl
  | some sender => exact Bool.eq_false_iff.mpr fun htag => h ⟨sender, hf, htag⟩

theorem bucket_setLevel {b : TouchBucket σ ω} (p : Payload) (hb : w.bucket tagId = some b) :
    (setLevel w b tagId p).bucket tagId =
    some { b with levelState := if b.policy = .level then p.newState else b.levelState } := by
  unfold setLevel
  split <;> simp [TouchWorld.setBucket, hb]

theorem wears_setLevel (w : TouchWorld π σ ω) (tagId : Nat) (p : Payload) (b : TouchBucket σ ω) (pid t : Nat) :
    (setLevel w b tagId p).Wears pid t ↔ w.Wears pid t := by
  unfold setLevel
  split <;> rfl

theorem reactDepth_setLevel (w : TouchWorld π σ ω) (tagId : Nat) (p : Payload) (b : TouchBucket σ ω) :
    (setLevel w b tagId p).reactDepth = w.reactDepth := by
  unfold setLevel
  split <;> rfl

theorem touchWatchDeliver_calls (w : TouchWorld π σ ω) (b : TouchBucket σ ω) (tagId : Nat) (p : Payload)
    (sourcePid : Nat) : (touchWatchDeliver env w b tagId p sourcePid).2 = [] ↔
      b.watchHead = [] ∨ touchDepthEnter env (w.reactDepth + 1) = false := by
  unfold touchWatchDeliver
  by_cases henter : touchDepthEnter env (w.reactDepth + 1) = true
  · simp [henter, snapLoop_eq_nil]
  · simp [henter]

theorem touchWatchDeliver_quiet {b : TouchBucket σ ω} {p : Payload} {sourcePid : Nat}
    (h : (touchWatchDeliver env w b tagId p sourcePid).2 = []) :
    (touchWatchDeliver env w b tagId p sourcePid).1 = w := by
  unfold touchWatchDeliver at h ⊢
  by_cases henter : touchDepthEnter env (w.reactDepth + 1) = true
  · simp only [henter, if_true, map_eq_nil_iff] at h ⊢
    simp [h, callWatches]
  · simp [henter]

theorem deliverLoop_calls [DecidableEq σ] (tagId : Nat) (p : Payload) (sourcePid flags : Nat) (policy : TouchPolicy)
    (snap : List (σ × TouchMode)) (o : Outcome π σ ω) :
    o.calls <+: (deliverLoop env tagId p sourcePid flags policy snap o).calls := by
  induction snap generalizing o with
  | nil => exact prefix_rfl
  | cons e rest ih =>
    rw [deliverLoop]
    refine IsPrefix.trans ?_ (ih _)
    exact prefix_append ..

theorem serveSubs_calls [DecidableEq σ] (b : TouchBucket σ ω) (tagId : Nat) (p : Payload) (sourcePid flags : Nat)
    (r : TouchWorld π σ ω × List (Call σ ω)) : r.2 <+: (serveSubs env b tagId p sourcePid flags r).calls := by
  unfold serveSubs
  split
  · exact prefix_rfl
  dsimp only
  split
  · exact deliverLoop_calls tagId p sourcePid flags b.policy _ ⟨r.1, r.2, 0⟩
  · exact prefix_rfl

theorem serveSubs_refused [DecidableEq σ] {b : TouchBucket σ ω} {tagId : Nat} (p : Payload) {sourcePid : Nat}
    (flags : Nat) {r : TouchWorld π σ ω × List (Call σ ω)} (hcap : b.capability = .owners) (hsrc : sourcePid ≠ 0)
    (hwears : ¬ r.1.Wears sourcePid tagId) : serveSubs env b tagId p sourcePid flags r = ⟨r.1, r.2, 0⟩ := by
  unfold serveSubs
  split
  · rfl
  · rw [hcap, ownersOk_eq_false hsrc hwears]
    rfl

end

/-! ## The turns of a request -/

section

variable {π σ ω : Type} [DecidableEq σ] (env : PublishEnv π σ ω)

namespace Turn

def outcome (t : Turn π σ ω) : Outcome π σ ω :=
  touchPublishId env t.world t.tagId t.payload t.sourcePid t.flags

/-- The capability of the tag does not admit the source. -/
def Refused (t : Turn π σ ω) : Prop :=
  ∃ b, t.world.bucket t.tagId = some b ∧ t.sourcePid ≠ 0 ∧
    (b.capability = .kernelOnly ∨ b.capability = .owners ∧ ¬ t.world.Wears t.sourcePid t.tagId)

/-- Nobody was called, nothing was handed over, and the level and the latched payload of the tag are what they were. -/
structure NoEffect (t : Turn π σ ω) : Prop where
  calls : (t.outcome env).calls = []
  handed : (t.outcome env).handed = 0
  kept : ∀ b, t.world.bucket t.tagId = some b → ∃ b', (t.outcome env).world.bucket t.tagId = some b' ∧
    b'.levelState = b.levelState ∧ b'.latchedPayload = b.latchedPayload ∧ b'.latchedPlen = b.latchedPlen

/-- The tag is for the kernel only, or the publish neither changes its level nor reaches a watch of it. -/
def Spared (t : Turn π σ ω) : Prop :=
  ∃ b, t.world.bucket t.tagId = some b ∧ (b.capability = .kernelOnly ∨
    (b.policy = .level → t.payload.newState = b.levelState) ∧
    (b.policy = .level ∧ t.payload.newState = 0 ∨ b.watchCount = 0 ∨ b.watchHead = [] ∨
      touchDepthEnter env (t.world.reactDepth + 1) = false))

end Turn

variable (w : TouchWorld π σ ω)

def pairTurns (fullId bareId : Nat) (p : Payload) (sourcePid flags : Nat) : List (Turn π σ ω) :=
  let full := if fullId ≠ tagInvalid then [⟨w, fullId, p, sourcePid, flags⟩] else []
  let w' := if fullId ≠ tagInvalid then (touchPublishId env w fullId p sourcePid flags).world else w
  full ++ if bareId ≠ tagInvalid ∧ bareId ≠ fullId then [⟨w', bareId, p, sourcePid, flags⟩] else []

def fireTurns : List QueueNode → TouchWorld π σ ω → List (Turn π σ ω)
  | [], _ => []
  | .wake _ target owes seq :: rest, w => fireTurns rest (env.fireWake target owes seq w)
  | .publish _ tagId p sourcePid flags :: rest, w =>
    ⟨w, tagId, p, sourcePid, flags⟩ :: fireTurns rest (touchPublishId env w tagId p sourcePid flags).world

namespace PublishRequest

def perform (w : TouchWorld π σ ω) : PublishRequest → Outcome π σ ω
  | pair fullId bareId p sourcePid flags => touchPublishPair env w fullId bareId p sourcePid flags
  | tick now => touchQueueTick env w now

def turns (w : TouchWorld π σ ω) : PublishRequest → List (Turn π σ ω)
  | pair fullId bareId p sourcePid flags => pairTurns env w fullId bareId p sourcePid flags
  | tick now => fireTurns env (dueLoop now w.queue []) { w with queue := w.queue.filter fun n => now < n.fireTick }

end PublishRequest

/-- What the turns called and handed over, one after the other, is what the whole called and handed over. -/
def Composed (ts : List (Turn π σ ω)) (o : Outcome π σ ω) : Prop :=
  o.calls = ts.flatMap (fun t => (t.outcome env).calls) ∧ o.handed = (ts.map fun t => (t.outcome env).handed).sum

theorem composed_pair (fullId bareId : Nat) (p : Payload) (sourcePid flags : Nat) :
    Composed env (pairTurns env w fullId bareId p sourcePid flags)
      (touchPublishPair env w fullId bareId p sourcePid flags) := by
  unfold Composed pairTurns touchPublishPair
  by_cases hf : fullId ≠ tagInvalid <;> by_cases hb : bareId ≠ tagInvalid ∧ bareId ≠ fullId
  · simp only [if_pos hf, if_pos hb]
    simp [Turn.outcome]
  · simp only [if_pos hf, if_neg hb]
    simp [Turn.outcome]
  · simp only [if_neg hf, if_pos hb]
    simp [Turn.outcome]
  · simp only [if_neg hf, if_neg hb]
    simp

theorem fireLoop_composed (fire : List QueueNode) (o : Outcome π σ ω) :
    (fireLoop env fire o).calls = o.calls ++ (fireTurns env fire o.world).flatMap (fun t => (t.outcome env).calls) ∧
    (fireLoop env fire o).handed =
    o.handed + ((fireTurns env fire o.world).map fun t => (t.outcome env).handed).sum := by
  induction fire generalizing o with
  | nil => simp [fireLoop, fireTurns]
  | cons n rest ih =>
    cases n with
    | wake tick target owes seq => exact ih _
    | publish tick tagId p sourcePid flags =>
      obtain ⟨hcalls, hhanded⟩ := ih ⟨(touchPublishId env o.world tagId p sourcePid flags).world,
        o.calls ++ (touchPublishId env o.world tagId p sourcePid flags).calls,
        o.handed + (touchPublishId env o.world tagId p sourcePid flags).handed⟩
      refine ⟨hcalls.trans ?_, hhanded.trans ?_⟩
      · simp [fireTurns, Turn.outcome]
      · simp [fireTurns, Turn.outcome, Nat.add_assoc]

theorem composed_perform (req : PublishRequest) :
    Composed env (req.turns env w) (req.perform env w) := by
  cases req with
  | pair fullId bareId p sourcePid flags => exact composed_pair env w fullId bareId p sourcePid flags
  | tick now =>
    obtain ⟨hcalls, hhanded⟩ := fireLoop_composed env (dueLoop now w.queue [])
      ⟨{ w with queue := w.queue.filter fun n => now < n.fireTick }, [], 0⟩
    exact ⟨hcalls.trans (nil_append _), hhanded.trans (Nat.zero_add _)⟩

/-! ## One turn -/

variable {env}

/-- The publish comes to the watches of its tag. -/
def Turn.ReachesWatches (t : Turn π σ ω) (b : TouchBucket σ ω) : Prop :=
  ¬ (b.policy = .level ∧ t.payload.newState = 0) ∧ b.watchCount ≠ 0

/-- The watches of a tag that is not for the kernel only, called on the state with the new level. -/
def Turn.watched (env : PublishEnv π σ ω) (t : Turn π σ ω) (b : TouchBucket σ ω) :
    TouchWorld π σ ω × List (Call σ ω) :=
  touchWatchDeliver env (setLevel t.world b t.tagId t.payload) b t.tagId t.payload t.sourcePid

variable {t : Turn π σ ω} {b : TouchBucket σ ω}

section

variable (hb : t.world.bucket t.tagId = some b)

include hb

theorem calls_of_reaches (hcap : b.capability ≠ .kernelOnly) (hreach : t.ReachesWatches b) :
    (t.watched env b).2 <+: (t.outcome env).calls := by
  unfold Turn.outcome touchPublishId
  simp only [hb]
  rw [if_neg fun h => hcap h.1, if_neg hreach.1, if_neg fun h => hreach.2 h.2, if_pos hreach.2]
  exact serveSubs_calls ..

/-- A refused publish of an `OWNERS` tag that calls no watch sets the level and does nothing else. -/
theorem outcome_of_quiet (hcap : b.capability = .owners) (hsrc : t.sourcePid ≠ 0)
    (hwears : ¬ t.world.Wears t.sourcePid t.tagId) (hquiet : t.ReachesWatches b → (t.watched env b).2 = []) :
    t.outcome env = ⟨setLevel t.world b t.tagId t.payload, [], 0⟩ := by
  have hopen : ¬ (b.capability = .kernelOnly ∧ t.sourcePid ≠ 0) := by simp [hcap]
  have hwears' : ¬ (setLevel t.world b t.tagId t.payload).Wears t.sourcePid t.tagId := mt (wears_setLevel ..).mp hwears
  unfold Turn.outcome touchPublishId
  simp only [hb, if_neg hopen]
  by_cases hlow : b.policy = .level ∧ t.payload.newState = 0
  · rw [if_pos hlow]
  rw [if_neg hlow]
  by_cases hwatch : b.watchCount = 0
  · rw [if_neg (not_not.mpr hwatch), serveSubs_refused t.payload t.flags hcap hsrc hwears', ite_self]
  have hnone : (t.watched env b).2 = [] := hquiet ⟨hlow, hwatch⟩
  have hpair : t.watched env b = (setLevel t.world b t.tagId t.payload, []) :=
    Prod.ext (touchWatchDeliver_quiet hnone) hnone
  rw [if_neg fun h => hwatch h.2, if_pos hwatch]
  change serveSubs env b t.tagId t.payload t.sourcePid t.flags (t.watched env b) = _
  rw [hpair, serveSubs_refused t.payload t.flags hcap hsrc hwears']

theorem outcome_kernelOnly
    (hcap : b.capability = .kernelOnly) (hsrc : t.sourcePid ≠ 0) : t.outcome env = ⟨t.world, [], 0⟩ := by
  unfold Turn.outcome touchPublishId
  simp only [hb]
  exact if_pos ⟨hcap, hsrc⟩

end

/-- A refused turn is without effect exactly when it is spared. -/
theorem noEffect_iff_spared (h : t.Refused) : t.NoEffect env ↔ t.Spared env := by
  obtain ⟨b, hb, hsrc, hcap⟩ := h
  rcases hcap with hcap | ⟨hcap, hwears⟩
  · -- for the kernel only: nothing is done
    have hout : t.outcome env = _ := outcome_kernelOnly hb hcap hsrc
    refine ⟨fun _ => ⟨b, hb, .inl hcap⟩, fun _ => ⟨by rw [hout], by rw [hout], fun b' hb' => ?_⟩⟩
    rw [hout]
    exact ⟨b', hb', rfl, rfl, rfl⟩
  have hkernel : b.capability ≠ .kernelOnly := by simp [hcap]
  have hcalls : (t.watched env b).2 = [] ↔
      b.watchHead = [] ∨ touchDepthEnter env (t.world.reactDepth + 1) = false := by
    rw [← reactDepth_setLevel t.world t.tagId t.payload b]
    exact touchWatchDeliver_calls ..
  constructor
  · intro hno
    have hquiet : t.ReachesWatches b → (t.watched env b).2 = [] := fun hreach =>
      prefix_nil.mp (hno.calls ▸ calls_of_reaches hb hkernel hreach)
    refine ⟨b, hb, .inr ⟨fun hlevel => ?_, ?_⟩⟩
    · obtain ⟨b', hb', hsame, -⟩ := hno.kept b hb
      rw [outcome_of_quiet hb hcap hsrc hwears hquiet, bucket_setLevel _ hb] at hb'
      cases hb'
      simpa [hlevel] using hsame
    · by_cases hreach : t.ReachesWatches b
      · exact .inr (.inr (hcalls.mp (hquiet hreach)))
      · by_cases hlow : b.policy = .level ∧ t.payload.newState = 0
        · exact .inl hlow
        · exact .inr (.inl (not_not.mp fun hwatch => hreach ⟨hlow, hwatch⟩))
  · rintro ⟨b', hb', hspared⟩
    obtain rfl : b = b' := Option.some.inj (hb.symm.trans hb')
    obtain ⟨hlevel, hwatch⟩ := hspared.resolve_left hkernel
    have hquiet : t.ReachesWatches b → (t.watched env b).2 = [] := by
      rintro ⟨hlow, hcount⟩
      exact hcalls.mpr ((hwatch.resolve_left hlow).resolve_left hcount)
    have hout : t.outcome env = _ := outcome_of_quiet hb hcap hsrc hwears hquiet
    refine ⟨by rw [hout], by rw [hout], fun b' hb' => ?_⟩
    obtain rfl : b = b' := Option.some.inj (hb.symm.trans hb')
    rw [hout]
    refine ⟨_, bucket_setLevel _ hb, ?_, rfl, rfl⟩
    by_cases hpol : b.policy = .level
    · exact (if_pos hpol).trans (hlevel hpol)
    · exact if_neg hpol

/-- Every refused turn of a request is without effect if and only if every one is spared; and the turns are all there is
to a request. -/
theorem refused_publish_without_effect (env : PublishEnv π σ ω) (w : TouchWorld π σ ω) (req : PublishRequest) :
    ((∀ t ∈ req.turns env w, t.Refused → t.NoEffect env) ↔ ∀ t ∈ req.turns env w, t.Refused → t.Spared env) ∧
      Composed env (req.turns env w) (req.perform env w) := by
  refine ⟨⟨fun h t ht href => ?_, fun h t ht href => ?_⟩, composed_perform env w req⟩
  · exact (noEffect_iff_spared href).mp (h t ht href)
  · exact (noEffect_iff_spared href).mpr (h t ht href)

end

/-! ## A level set from outside

Process 7 does not wear the tag 2, whose level only its owners may set. It sends to the full tag 1, which nobody has
registered, and the bare tag 2: `SysTouchSend` checks the full tag only. -/

def strangerSend : PublishRequest := .pair 1 2 ⟨some [1], 1⟩ 7 2

def plainEnv : PublishEnv Unit Unit Unit :=
  ⟨fun _ _ _ _ w => w, fun _ _ _ _ _ _ w => w, fun _ _ _ w => w, 0, 0, 0, fun _ => true, true⟩

def ownedLevel : TouchBucket Unit Unit := ⟨.level, .owners, 0, none, 0, 0, [], 0, []⟩

/-- A bucket of a tag that nobody has registered. -/
def freshBucket : TouchBucket Unit Unit := ⟨.edge, .open_, 0, none, 0, 0, [], 0, []⟩

def stranger : Process := ⟨7, .working, false, 0, []⟩

def ownedWorld : TouchWorld Unit Unit Unit where
  bucket := fun tagId => if tagId = 2 then some ownedLevel else if tagId < 256 then some freshBucket else none
  sub := fun _ => ⟨(), 2, .rest, false, 0, [], 0, 0⟩
  process := fun _ => stranger
  find := fun pid => if pid = 7 then some () else none
  reactDepth := 0
  queue := []

theorem refused_publish_sets_level :
    sysTouchSend plainEnv ownedWorld (· == 2) stranger 1 2 ⟨some [1], 1⟩ none (fun _ => true) =
      (.ok, strangerSend.perform plainEnv ownedWorld) ∧
    ¬ ∀ t ∈ strangerSend.turns plainEnv ownedWorld, t.Refused → t.NoEffect plainEnv := by
  refine ⟨rfl, fun h => ?_⟩
  have hturn : (⟨ownedWorld, 2, ⟨some [1], 1⟩, 7, 2⟩ : Turn Unit Unit Unit) ∈
      strangerSend.turns plainEnv ownedWorld := mem_cons_of_mem _ (mem_singleton_self _)
  have hrefused : (⟨ownedWorld, 2, ⟨some [1], 1⟩, 7, 2⟩ : Turn Unit Unit Unit).Refused := by
    refine ⟨ownedLevel, rfl, by decide, .inr ⟨rfl, ?_⟩⟩
    rintro ⟨p, hp, htag⟩
    have hbare : processHasTagId stranger 2 = true := htag
    exact absurd hbare (by decide)
  obtain ⟨b', hb', hlevel, -⟩ := (h _ hturn hrefused).kept ownedLevel rfl
  have hset : ((touchPublishId plainEnv ownedWorld 2 ⟨some [1], 1⟩ 7 2).world.bucket 2).map TouchBucket.levelState =
      some 1 := by decide
  have hnew : (touchPublishId plainEnv ownedWorld 2 ⟨some [1], 1⟩ 7 2).world.bucket 2 = some b' := hb'
  rw [hnew] at hset
  rw [Option.map_some, hlevel] at hset
  exact absurd hset (by decide)

end BoxOS.Touch
