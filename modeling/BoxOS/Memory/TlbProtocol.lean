import BoxOS.Lib.Holdings
import BoxOS.Memory.Tlb

/-!
# The shootdown protocol

A generation is armed with its targets; each target is asked, claims the generation, flushes and acknowledges. `Round`
counts where each target is, and says that `pending_acks` is the number of targets that have not acknowledged. `Proto`
holds in every state of every run; `Ordered` is what it says about the history.
-/

open Function (update update_apply)

namespace BoxOS.Memory.Tlb

open Lib List Option

variable {n i j k : Nat} {pcid : Bool} {w w' : World}

/-! ## The history -/

/-- An acknowledgement comes once, from a target, after its flush; an operation returns when all targets have
acknowledged. -/
def Ordered : List Mark → Prop
  | [] => True
  | .armed gen targets :: rest => targets.Nodup ∧ (∀ ts, .armed gen ts ∉ rest) ∧ Ordered rest
  | .flushed _ _ :: rest => Ordered rest
  | .acked gen j :: rest =>
    .acked gen j ∉ rest ∧ .flushed gen j ∈ rest ∧ (∃ ts, .armed gen ts ∈ rest ∧ j ∈ ts) ∧ Ordered rest
  | .returned gen :: rest => (∃ ts, .armed gen ts ∈ rest ∧ ∀ j ∈ ts, .acked gen j ∈ rest) ∧ Ordered rest

/-- The generation of a mark. -/
def Mark.gen : Mark → Nat
  | .armed gen _ | .flushed gen _ | .acked gen _ | .returned gen => gen

/-! ## A round -/

/-- A call of the handler has claimed the generation and not acknowledged. -/
def Phase.holds : Phase → Bool
  | .claimed | .flushed | .evicted => true
  | _ => false

/-- The call of a core that holds its claim. -/
def holdsAt (j : Nat) (x : Nat × Phase) : Nat := if x.1 = j ∧ x.2.holds = true then 1 else 0

/-- Where a target is that has not acknowledged: not asked yet, asked, or in a call that claimed. -/
def openAt (w : World) (rest : List Nat) (j : Nat) : Nat :=
  rest.count j + (if (w.core j).req = w.shoot.gen then 1 else 0) + total (holdsAt j) w.handlers

/-- The operation that has armed the current generation, its targets, and those that it has not asked yet. -/
def Op.armed : Op → Option (Request × List Nat × List Nat)
  | .asking r targets rest => some (r, targets, rest)
  | .waiting r targets => some (r, targets, [])
  | _ => none

/-- The scan picks every core once. -/
def Op.TargetsOk (n : Nat) : Op → Prop
  | .scanning _ next targets => targets.Nodup ∧ (∀ j ∈ targets, j < next) ∧ next ≤ n
  | .flushing _ targets | .locking _ targets => targets.Nodup ∧ targets.length ≤ n
  | .asking _ targets _ | .waiting _ targets => targets.length ≤ n
  | _ => True

/-- The current generation. -/
structure Round (w : World) (r : Request) (targets rest : List Nat) : Prop where
  nodup : targets.Nodup
  each : ∀ j, openAt w rest j + w.history.count (.acked w.shoot.gen j) = targets.count j
  pending : w.shoot.pending = total (openAt w rest) targets
  armed : .armed w.shoot.gen targets ∈ w.history
  addr : w.shoot.addr = (armWith w.shoot r targets).addr
  count : w.shoot.count = (armWith w.shoot r targets).count

theorem Round.mem {r : Request} {ts rest : List Nat} (h : Round w r ts rest) (hopen : 0 < openAt w rest j) :
    j ∈ ts := by
  apply count_pos_iff.mp
  have := h.each j
  omega

/-- What holds between the steps of the protocol. -/
structure Proto (n : Nat) (w : World) : Prop where
  targets : ∀ i, (w.core i).op.TargetsOk n
  armedLock : ∀ i, (w.core i).op.armed.isSome = true → w.lock = some i
  busy : ∀ i, w.lock = some i → ∃ x, (w.core i).op.armed = some x ∧ Round w x.1 x.2.1 x.2.2
  free : w.lock = none → (∀ j, (w.core j).req = 0) ∧ (∀ x ∈ w.handlers, x.2.holds = false) ∧ w.shoot.active = false
  reqs : ∀ j, (w.core j).req = 0 ∨ (w.core j).req = w.shoot.gen
  active : w.shoot.active = true ∨ (∃ j, (j, .active) ∈ w.handlers) ∨ w.lock ≠ none → 0 < w.shoot.gen
  reads : ∀ j g, (j, .read g) ∈ w.handlers ∨ (j, .asked g) ∈ w.handlers → 0 < g
  flushed : ∀ j, (j, .flushed) ∈ w.handlers ∨ (j, .evicted) ∈ w.handlers → .flushed w.shoot.gen j ∈ w.history
  gens : ∀ m ∈ w.history, m.gen ≤ w.shoot.gen
  ordered : Ordered w.history

theorem proto_init (n : Nat) (tables : Nat → Tables) (loaded : Nat → Nat) (current : Nat → Option Nat) :
    Proto n (World.init tables loaded current) where
  targets := fun _ => trivial
  armedLock := fun _ h => (nomatch h)
  busy := fun _ h => (nomatch h)
  free := fun _ => ⟨fun _ => rfl, fun _ h => (nomatch h), rfl⟩
  reqs := fun _ => .inl rfl
  active := fun h => by
    rcases h with h | ⟨_, h⟩ | h
    · cases h
    · cases h
    · exact absurd rfl h
  reads := fun _ _ h => by rcases h with h | h <;> cases h
  flushed := fun _ h => by rcases h with h | h <;> cases h
  gens := fun _ h => (nomatch h)
  ordered := trivial

namespace Proto

theorem frame (h : Proto n w) (w' : World) (hs : w'.shoot = w.shoot) (hl : w'.lock = w.lock)
    (hh : w'.handlers = w.handlers) (hm : w'.history = w.history) (hreq : ∀ j, (w'.core j).req = (w.core j).req)
    (hop : ∀ i, (w'.core i).op.armed = (w.core i).op.armed ∧ (w'.core i).op.TargetsOk n) : Proto n w' where
  targets := fun i => (hop i).2
  armedLock := fun i ha => by
    rw [hl]
    rw [(hop i).1] at ha
    exact h.armedLock i ha
  busy := fun i hi => by
    rw [hl] at hi
    obtain ⟨x, hx, hr⟩ := h.busy i hi
    refine ⟨x, (hop i).1.trans hx, hr.nodup, fun j => ?_, ?_, ?_, ?_, ?_⟩
    · have := hr.each j
      unfold openAt at this ⊢
      rw [hreq, hs, hh, hm]
      exact this
    · rw [hs, hr.pending]
      apply total_congr
      intro j _
      unfold openAt
      rw [hreq, hs, hh]
    · rw [hs, hm]
      exact hr.armed
    · rw [hs]
      exact hr.addr
    · rw [hs]
      exact hr.count
  free := fun hf => by
    rw [hl] at hf
    obtain ⟨hr, hx, ha⟩ := h.free hf
    refine ⟨fun j => (hreq j).trans (hr j), ?_, ?_⟩
    · rw [hh]
      exact hx
    · rw [hs]
      exact ha
  reqs := fun j => by
    rw [hreq, hs]
    exact h.reqs j
  active := by
    rw [hs, hh, hl]
    exact h.active
  reads := by
    rw [hh]
    exact h.reads
  flushed := by
    rw [hh, hs, hm]
    exact h.flushed
  gens := by
    rw [hm, hs]
    exact h.gens
  ordered := by
    rw [hm]
    exact h.ordered

theorem setCore (h : Proto n w) {f : Core → Core} (hreq : (f (w.core j)).req = (w.core j).req)
    (hop : (f (w.core j)).op.armed = (w.core j).op.armed) (ht : (f (w.core j)).op.TargetsOk n) :
    Proto n (w.setCore j f) := by
  have hcore := w.core_setCore j f
  apply h.frame (w.setCore j f) rfl rfl rfl rfl
  · intro i
    rw [hcore]
    split
    · rename_i he
      rw [he, hreq]
    · rfl
  · intro i
    rw [hcore]
    split
    · rename_i he
      rw [he]
      exact ⟨hop, ht⟩
    · exact ⟨rfl, h.targets i⟩

section

variable (h : Proto n w)

include h

theorem setTables (T : Nat → Tables) (L : Nat → Bool) : Proto n { w with tables := T, ctxLock := L } :=
  h.frame _ rfl rfl rfl rfl (fun _ => rfl) fun i => ⟨rfl, h.targets i⟩

theorem restart (T : Nat → Tables) (L : Nat → Bool) {f : Core → Core} (hop : (w.core j).op.armed = none)
    (hnew : (f (w.core j)).op.armed = none) (hreq : (f (w.core j)).req = (w.core j).req)
    (ht : (f (w.core j)).op.TargetsOk n) : Proto n (({ w with tables := T, ctxLock := L } : World).setCore j f) :=
  (h.setTables T L).setCore hreq (hnew.trans hop.symm) ht

theorem armed_gens (ts : List Nat) : .armed (w.shoot.gen + 1) ts ∉ w.history := fun hin =>
  absurd (h.gens _ hin) (Nat.not_succ_le_self _)

theorem acked_gens (j : Nat) : w.history.count (.acked (w.shoot.gen + 1) j) = 0 :=
  count_eq_zero_of_not_mem fun hin => absurd (h.gens _ hin) (Nat.not_succ_le_self _)

/-- `g_shootdown_lock` is taken and the generation is armed. -/
theorem arm (hn : n < 256) {r : Request} {ts : List Nat} (hop : (w.core i).op = .locking r ts) (hl : w.lock = none) :
    Proto n (({ w with lock := some i, shoot := armWith w.shoot r ts }.setCore i (setOp (.asking r ts ts))).mark
    (.armed (w.shoot.gen + 1) ts)) := by
  obtain ⟨hreq, hfree, -⟩ := h.free hl
  have hts : ts.Nodup ∧ ts.length ≤ n := by
    have := h.targets i
    rw [hop] at this
    exact this
  obtain ⟨hts, hlen⟩ := hts
  have hcore : ∀ m, update w.core i (setOp (.asking r ts ts) (w.core i)) m =
      if m = i then setOp (.asking r ts ts) (w.core i) else w.core m := fun m => update_apply ..
  have hreq' : ∀ m, (update w.core i (setOp (.asking r ts ts) (w.core i)) m).req = 0 := fun m => by
    rw [hcore]
    split
    · exact hreq i
    · exact hreq m
  have hnone : ∀ j, total (holdsAt j) w.handlers = 0 := fun j => total_eq_zero fun x hx => if_neg fun hx' => by
    rw [hfree x hx] at hx'
    exact absurd hx'.2 (by simp)
  have hopen : ∀ j, openAt (({ w with lock := some i, shoot := armWith w.shoot r ts }.setCore i
      (setOp (.asking r ts ts))).mark (.armed (w.shoot.gen + 1) ts)) ts j = ts.count j := fun j => by
    show ts.count j + (if (update w.core i _ j).req = w.shoot.gen + 1 then 1 else 0) + total (holdsAt j) w.handlers = _
    rw [hnone, if_neg (by rw [hreq']; omega), Nat.add_zero]
  refine ⟨fun m => ?_, fun m hm => ?_, fun m hm => ?_, (nomatch ·), fun m => .inl (hreq' m), fun _ => Nat.succ_pos _,
    h.reads, fun j hj => ?_, fun m hm => ?_, ⟨hts, fun ts' => h.armed_gens ts', h.ordered⟩⟩
  · show (update w.core i _ m).op.TargetsOk n
    rw [hcore]
    split
    · exact hlen
    · exact h.targets m
  · have hm : (update w.core i (setOp (.asking r ts ts) (w.core i)) m).op.armed.isSome = true := hm
    rw [hcore] at hm
    split at hm
    · rename_i he
      rw [he]
      rfl
    · have := h.armedLock m hm
      rw [hl] at this
      cases this
  · cases hm
    refine ⟨(r, ts, ts), ?_, hts, fun j => ?_, ?_, mem_cons_self, rfl, rfl⟩
    · show (update w.core i _ i).op.armed = _
      rw [hcore, if_pos rfl]
      rfl
    · rw [hopen]
      show ts.count j + (Mark.armed (w.shoot.gen + 1) ts :: w.history).count (.acked (w.shoot.gen + 1) j) = ts.count j
      rw [count_cons_of_ne (by simp), h.acked_gens, Nat.add_zero]
    · show ts.length % 256 = total _ ts
      rw [Nat.mod_eq_of_lt (by omega), total_congr fun j hj => (hopen j).trans (count_eq_one_of_mem hts hj)]
      simp [total]
  · have hj : (j, Phase.flushed) ∈ w.handlers ∨ (j, Phase.evicted) ∈ w.handlers := hj
    rcases hj with hj | hj <;> exact absurd (hfree _ hj) (by simp [Phase.holds])
  · rcases mem_cons.mp hm with rfl | hm
    · exact le_rfl
    · exact Nat.le_succ_of_le (h.gens m hm)

theorem ask {r : Request} {ts rest : List Nat} (hop : (w.core i).op = .asking r ts (j :: rest)) :
    Proto n ((w.setCore j fun c => { c with req := w.shoot.gen }).setCore i (setOp (.asking r ts rest))) := by
  have harm : (w.core i).op.armed = some (r, ts, j :: rest) := by
    rw [hop]
    rfl
  have hl := h.armedLock i (by rw [harm]; rfl)
  obtain ⟨x, hx, hround⟩ := h.busy i hl
  rw [harm] at hx
  cases hx
  have hgen : 0 < w.shoot.gen := h.active (.inr (.inr (by rw [hl]; simp)))
  -- the target was not asked before
  have hnot : (w.core j).req ≠ w.shoot.gen := fun he => by
    have heach := hround.each j
    have hone := nodup_iff_count_le_one.mp hround.nodup j
    unfold openAt at heach
    rw [if_pos he, count_cons_self] at heach
    omega
  generalize hw : (w.setCore j fun c => { c with req := w.shoot.gen }).setCore i (setOp (.asking r ts rest)) = w'
  have hreq : ∀ m, (w'.core m).req = if m = j then w.shoot.gen else (w.core m).req := fun m => by
    subst hw
    rw [World.core_setCore]
    by_cases hi : m = i
    · rw [if_pos hi]
      rw [World.core_setCore]
      split <;> rfl
    · rw [if_neg hi, World.core_setCore]
      split <;> rfl
  have hops : ∀ m, (w'.core m).op = if m = i then .asking r ts rest else (w.core m).op := fun m => by
    subst hw
    rw [World.core_setCore]
    by_cases hi : m = i
    · rw [if_pos hi, if_pos hi]
      rfl
    · rw [if_neg hi, if_neg hi, World.core_setCore]
      split <;> rfl
  have hframe : w'.shoot = w.shoot ∧ w'.lock = w.lock ∧ w'.handlers = w.handlers ∧ w'.history = w.history := by
    subst hw
    exact ⟨rfl, rfl, rfl, rfl⟩
  obtain ⟨hs, hlk, hh, hm⟩ := hframe
  have hopen : ∀ m, openAt w' rest m = openAt w (j :: rest) m := fun m => by
    unfold openAt
    rw [hreq, hs, hh]
    by_cases he : m = j
    · rw [if_pos he, if_pos rfl, he, if_neg hnot, count_cons_self]
    · rw [if_neg he, count_cons_of_ne (Ne.symm he)]
  refine ⟨fun m => ?_, fun m ha => ?_, fun m hi => ?_, fun hf => ?_, fun m => ?_, ?_, ?_, ?_, ?_, ?_⟩
  · rw [hops]
    split
    · have hlen := h.targets i
      rw [hop] at hlen
      exact hlen
    · exact h.targets m
  · rw [hops] at ha
    rw [hlk]
    split at ha
    · rename_i he
      rw [he, hl]
    · exact h.armedLock m ha
  · rw [hlk, hl] at hi
    cases hi
    refine ⟨(r, ts, rest), ?_, hround.nodup, fun m => ?_, ?_, ?_, ?_, ?_⟩
    · rw [hops, if_pos rfl]
      rfl
    · rw [hopen, hs, hm]
      exact hround.each m
    · rw [hs, hround.pending]
      exact total_congr fun m _ => (hopen m).symm
    · rw [hs, hm]
      exact hround.armed
    · rw [hs]
      exact hround.addr
    · rw [hs]
      exact hround.count
  · rw [hlk, hl] at hf
    cases hf
  · rw [hreq, hs]
    split
    · exact .inr rfl
    · exact h.reqs m
  · rw [hs]
    exact fun _ => hgen
  · rw [hh]
    exact h.reads
  · rw [hh, hs, hm]
    exact h.flushed
  · rw [hm, hs]
    exact h.gens
  · rw [hm]
    exact h.ordered

/-- The last acknowledgement is seen and `g_shootdown_lock` is released. -/
theorem finish {r : Request} {ts : List Nat} (hop : (w.core i).op = .waiting r ts) (hp : w.shoot.pending = 0) :
    Proto n (({ w with lock := none, shoot := { w.shoot with active := false } }.setCore i (setOp .idle)).mark
    (.returned w.shoot.gen)) := by
  have harm : (w.core i).op.armed = some (r, ts, []) := by
    rw [hop]
    rfl
  have hl := h.armedLock i (by rw [harm]; rfl)
  obtain ⟨x, hx, hround⟩ := h.busy i hl
  rw [harm] at hx
  cases hx
  have hgen : 0 < w.shoot.gen := h.active (.inr (.inr (by rw [hl]; simp)))
  -- no target is open
  have hopen : ∀ j, openAt w [] j = 0 := fun j => by
    by_cases hj : j ∈ ts
    · have hle := le_total (openAt w []) hj
      have hpend := hround.pending
      rw [hp] at hpend
      simp only at hpend
      omega
    have heach := hround.each j
    rw [count_eq_zero_of_not_mem hj] at heach
    simp only at heach
    omega
  have hreq : ∀ j, (w.core j).req = 0 := fun j => by
    have ho := hopen j
    unfold openAt at ho
    rcases h.reqs j with hz | he
    · exact hz
    · rw [if_pos he] at ho
      omega
  have hcore : ∀ m, update w.core i (setOp .idle (w.core i)) m =
      if m = i then setOp .idle (w.core i) else w.core m := fun m => update_apply ..
  have hreq' : ∀ m, (update w.core i (setOp .idle (w.core i)) m).req = 0 := fun m => by
    rw [hcore]
    split
    · exact hreq i
    · exact hreq m
  refine ⟨fun m => ?_, fun m hm => ?_, fun m hm => (nomatch hm), fun _ => ⟨hreq', fun x hx => ?_, rfl⟩,
    fun m => .inl (hreq' m), fun _ => hgen, h.reads, fun j hj => mem_cons_of_mem _ (h.flushed j hj), fun m hm => ?_,
    ⟨ts, hround.armed, fun j hj => ?_⟩, h.ordered⟩
  · show (update w.core i _ m).op.TargetsOk n
    rw [hcore]
    split
    · trivial
    · exact h.targets m
  · have hm : (update w.core i (setOp .idle (w.core i)) m).op.armed.isSome = true := hm
    rw [hcore] at hm
    split at hm
    · cases hm
    rename_i hne
    have := h.armedLock m hm
    rw [hl] at this
    exact absurd (some.inj this).symm hne
  · have hx : x ∈ w.handlers := hx
    cases hholds : x.2.holds with
    | false => rfl
    | true =>
      have ho := hopen x.1
      have hle := le_total (holdsAt x.1) hx
      have hone : holdsAt x.1 x = 1 := if_pos ⟨rfl, hholds⟩
      unfold openAt at ho
      omega
  · rcases mem_cons.mp hm with rfl | hm
    · exact le_rfl
    · exact h.gens m hm
  · have heach : openAt w [] j + w.history.count (.acked w.shoot.gen j) = ts.count j := hround.each j
    rw [hopen, Nat.zero_add, count_eq_one_of_mem hround.nodup hj] at heach
    exact count_pos_iff.mp (lt_of_lt_of_eq Nat.one_pos heach.symm)

theorem setHandlers (H : List (Nat × Phase)) (htotal : ∀ j, total (holdsAt j) H = total (holdsAt j) w.handlers)
    (hholds : ∀ x ∈ H, x.2.holds = true → x ∈ w.handlers) (hact : (∃ j, (j, .active) ∈ H) → 0 < w.shoot.gen)
    (hreads : ∀ j g, (j, .read g) ∈ H ∨ (j, .asked g) ∈ H → 0 < g) : Proto n { w with handlers := H } where
  targets := h.targets
  armedLock := h.armedLock
  busy := fun i hi => by
    obtain ⟨x, hx, hr⟩ := h.busy i hi
    have hopen : ∀ rest j, openAt { w with handlers := H } rest j = openAt w rest j := fun rest j => by
      unfold openAt
      rw [← htotal]
    refine ⟨x, hx, hr.nodup, fun j => ?_, ?_, hr.armed, hr.addr, hr.count⟩
    · rw [hopen]
      exact hr.each j
    · show w.shoot.pending = _
      rw [hr.pending]
      exact total_congr fun j _ => (hopen _ j).symm
  free := fun hf => by
    obtain ⟨hr, hx, ha⟩ := h.free hf
    refine ⟨hr, fun x hin => ?_, ha⟩
    cases hp : x.2.holds with
    | false => rfl
    | true => rw [← hp, hx x (hholds x hin hp)]
  reqs := h.reqs
  active := fun ha => by
    rcases ha with ha | ha | ha
    · exact h.active (.inl ha)
    · exact hact ha
    · exact h.active (.inr (.inr ha))
  reads := hreads
  flushed := fun j hj => h.flushed j <| by
    rcases hj with hj | hj
    · exact .inl (hholds _ hj rfl)
    · exact .inr (hholds _ hj rfl)
  gens := h.gens
  ordered := h.ordered

/-- A call without a claim goes on without one. -/
theorem setPhase {p p' : Phase} (hk : w.handlers[k]? = some (j, p)) (hp : p.holds = false) (hp' : p'.holds = false)
    (hact : p' = .active → 0 < w.shoot.gen) (hreads : ∀ g, p' = .read g ∨ p' = .asked g → 0 < g) :
    Proto n { w with handlers := w.handlers.set k (j, p') } := by
  have hzero : ∀ m q, Phase.holds q = false → holdsAt m (j, q) = 0 := fun m q hq => if_neg fun hx => by
    rw [hq] at hx
    exact absurd hx.2 (by simp)
  apply h.setHandlers
  · intro m
    have := total_set (holdsAt m) hk (j, p')
    rw [hzero m p hp, hzero m p' hp'] at this
    exact this
  · intro x hx hholds
    rcases mem_or_eq_of_mem_set hx with hx | rfl
    · exact hx
    · rw [hp'] at hholds
      cases hholds
  · rintro ⟨m, hm⟩
    rcases mem_or_eq_of_mem_set hm with hm | he
    · exact h.active (.inr (.inl ⟨m, hm⟩))
    · exact hact (Prod.mk.inj he).2.symm
  · intro m g hm
    rcases hm with hm | hm
    · rcases mem_or_eq_of_mem_set hm with hm | he
      · exact h.reads m g (.inl hm)
      · exact hreads g (.inl (Prod.mk.inj he).2.symm)
    · rcases mem_or_eq_of_mem_set hm with hm | he
      · exact h.reads m g (.inr hm)
      · exact hreads g (.inr (Prod.mk.inj he).2.symm)

theorem leave {p : Phase} (hk : w.handlers[k]? = some (j, p)) (hp : p.holds = false) :
    Proto n { w with handlers := w.handlers.eraseIdx k } := by
  apply h.setHandlers
  · intro m
    have := total_eraseIdx (holdsAt m) hk
    rw [show holdsAt m (j, p) = 0 from if_neg fun hx => by rw [hp] at hx; exact absurd hx.2 (by simp)] at this
    exact this
  · exact fun x hx _ => mem_of_mem_eraseIdx hx
  · exact fun ⟨m, hm⟩ => h.active (.inr (.inl ⟨m, mem_of_mem_eraseIdx hm⟩))
  · intro m g hm
    rcases hm with hm | hm
    · exact h.reads m g (.inl (mem_of_mem_eraseIdx hm))
    · exact h.reads m g (.inr (mem_of_mem_eraseIdx hm))

theorem call (j : Nat) : Proto n { w with handlers := w.handlers ++ [(j, .start)] } := by
  apply h.setHandlers
  · intro m
    simp [holdsAt, Phase.holds]
  · intro x hx hholds
    rcases mem_append.mp hx with hx | hx
    · exact hx
    · rw [mem_singleton.mp hx] at hholds
      cases hholds
  · rintro ⟨m, hm⟩
    exact h.active (.inr (.inl ⟨m, by simpa using hm⟩))
  · intro m g hm
    exact h.reads m g (by simpa using hm)

theorem of_round (w' : World) (hl : w.lock = some i) (hlock : w'.lock = w.lock) (hgen : w'.shoot.gen = w.shoot.gen)
    (hop : ∀ m, (w'.core m).op = (w.core m).op) (hround : ∀ r ts rest, Round w r ts rest → Round w' r ts rest)
    (hreqs : ∀ m, (w'.core m).req = 0 ∨ (w'.core m).req = w.shoot.gen) (hreads : ∀ m g, (m, .read g) ∈ w'.handlers ∨
    (m, .asked g) ∈ w'.handlers → (m, .read g) ∈ w.handlers ∨ (m, .asked g) ∈ w.handlers)
    (hflushed : ∀ m, (m, .flushed) ∈ w'.handlers ∨ (m, .evicted) ∈ w'.handlers → .flushed w.shoot.gen m ∈ w'.history)
    (hgens : ∀ m ∈ w'.history, m.gen ≤ w.shoot.gen) (hordered : Ordered w'.history) : Proto n w' where
  targets := fun m => by
    rw [hop]
    exact h.targets m
  armedLock := fun m hm => by
    rw [hop] at hm
    rw [hlock]
    exact h.armedLock m hm
  busy := fun m hm => by
    rw [hlock] at hm
    obtain ⟨x, hx, hr⟩ := h.busy m hm
    refine ⟨x, ?_, hround _ _ _ hr⟩
    rw [hop]
    exact hx
  free := fun hf => by
    rw [hlock, hl] at hf
    cases hf
  reqs := fun m => by
    rw [hgen]
    exact hreqs m
  active := fun _ => by
    rw [hgen]
    exact h.active (.inr (.inr (by rw [hl]; simp)))
  reads := fun m g hm => h.reads m g (hreads m g hm)
  flushed := by
    rw [hgen]
    exact hflushed
  gens := by
    rw [hgen]
    exact hgens
  ordered := hordered

theorem locked {p : Phase} (hk : w.handlers[k]? = some (j, p)) (hp : p.holds = true) : ∃ i, w.lock = some i := by
  cases hl : w.lock with
  | none =>
    have := (h.free hl).2.1 _ (mem_of_getElem? hk)
    rw [hp] at this
    cases this
  | some i => exact ⟨i, rfl⟩

theorem claim {g : Nat} (hk : w.handlers[k]? = some (j, .asked g)) (hreq : (w.core j).req = g) :
    Proto n ({ w with handlers := w.handlers.set k (j, .claimed) }.setCore j fun c => { c with req := 0 }) := by
  have hg : 0 < g := h.reads j g (.inr (mem_of_getElem? hk))
  have hgen : (w.core j).req = w.shoot.gen := (h.reqs j).resolve_left (by omega)
  have hl : ∃ i, w.lock = some i := by
    cases hl : w.lock with
    | none => exact absurd ((h.free hl).1 j) (by omega)
    | some i => exact ⟨i, rfl⟩
  obtain ⟨i, hl⟩ := hl
  generalize hw : ({ w with handlers := w.handlers.set k (j, .claimed) }.setCore j fun c => { c with req := 0 }) = w'
  have hreq' : ∀ m, (w'.core m).req = if m = j then 0 else (w.core m).req := fun m => by
    subst hw
    rw [World.core_setCore]
    split <;> rfl
  have hframe : w'.shoot = w.shoot ∧ w'.lock = w.lock ∧ w'.handlers = w.handlers.set k (j, .claimed) ∧
      w'.history = w.history := by
    subst hw
    exact ⟨rfl, rfl, rfl, rfl⟩
  obtain ⟨hs, hlk, hh, hm⟩ := hframe
  have hopen : ∀ rest m, openAt w' rest m = openAt w rest m := fun rest m => by
    have htotal := total_set (holdsAt m) hk (j, .claimed)
    have hzero : holdsAt m (j, .asked g) = 0 := if_neg fun hx => by cases hx.2
    unfold openAt
    rw [hreq', hs, hh]
    by_cases he : m = j
    · subst he
      have hone : holdsAt m (m, Phase.claimed) = 1 := if_pos ⟨rfl, rfl⟩
      rw [if_pos rfl, if_neg (by omega), if_pos hgen]
      omega
    · have hnone : holdsAt m (j, Phase.claimed) = 0 := if_neg fun hx => he hx.1.symm
      rw [if_neg he]
      omega
  apply h.of_round w' hl hlk (by rw [hs])
  · intro m
    subst hw
    rw [World.core_setCore]
    split <;> rfl
  · intro r ts rest hr
    refine ⟨hr.nodup, fun m => ?_, ?_, ?_, ?_, ?_⟩
    · rw [hopen, hs, hm]
      exact hr.each m
    · rw [hs, hr.pending]
      exact total_congr fun m _ => (hopen _ m).symm
    · rw [hs, hm]
      exact hr.armed
    · rw [hs]
      exact hr.addr
    · rw [hs]
      exact hr.count
  · intro m
    rw [hreq']
    split
    · exact .inl rfl
    · exact h.reqs m
  · intro m g hx
    rw [hh] at hx
    rcases hx with hx | hx
    · exact .inl ((mem_or_eq_of_mem_set hx).resolve_right (by simp))
    · exact .inr ((mem_or_eq_of_mem_set hx).resolve_right (by simp))
  · intro m hx
    rw [hh] at hx
    rw [hm]
    apply h.flushed m
    rcases hx with hx | hx
    · exact .inl ((mem_or_eq_of_mem_set hx).resolve_right (by simp))
    · exact .inr ((mem_or_eq_of_mem_set hx).resolve_right (by simp))
  · rw [hm]
    exact h.gens
  · rw [hm]
    exact h.ordered

/-- A call that holds its claim goes on with it: the flush, and the load of the kernel's tables. -/
theorem holdOn (w' : World) {p p' : Phase} (hk : w.handlers[k]? = some (j, p)) (hp : p.holds = true)
    (hp' : p'.holds = true) (hs : w'.shoot = w.shoot) (hlk : w'.lock = w.lock)
    (hh : w'.handlers = w.handlers.set k (j, p')) (hreq : ∀ m, (w'.core m).req = (w.core m).req)
    (hop : ∀ m, (w'.core m).op = (w.core m).op)
    (hcount : ∀ m, w'.history.count (.acked w.shoot.gen m) = w.history.count (.acked w.shoot.gen m))
    (hkept : ∀ m ∈ w.history, m ∈ w'.history) (hmark : p' ≠ .claimed → .flushed w.shoot.gen j ∈ w'.history)
    (hgens : ∀ m ∈ w'.history, m.gen ≤ w.shoot.gen) (hordered : Ordered w'.history) : Proto n w' := by
  obtain ⟨i, hl⟩ := h.locked hk hp
  have hopen : ∀ rest m, openAt w' rest m = openAt w rest m := fun rest m => by
    have htotal := total_set (holdsAt m) hk (j, p')
    have hsame : holdsAt m (j, p') = holdsAt m (j, p) := by
      unfold holdsAt
      rw [hp, hp']
    unfold openAt
    rw [hreq, hs, hh]
    omega
  apply h.of_round w' hl hlk (by rw [hs]) hop
  · intro r ts rest hr
    refine ⟨hr.nodup, fun m => ?_, ?_, ?_, ?_, ?_⟩
    · rw [hopen, hs, hcount]
      exact hr.each m
    · rw [hs, hr.pending]
      exact total_congr fun m _ => (hopen _ m).symm
    · rw [hs]
      exact hkept _ hr.armed
    · rw [hs]
      exact hr.addr
    · rw [hs]
      exact hr.count
  · intro m
    rw [hreq]
    exact h.reqs m
  · intro m g hx
    rw [hh] at hx
    rcases hx with hx | hx
    · refine .inl ((mem_or_eq_of_mem_set hx).resolve_right fun he => ?_)
      rw [← (Prod.mk.inj he).2] at hp'
      cases hp'
    · refine .inr ((mem_or_eq_of_mem_set hx).resolve_right fun he => ?_)
      rw [← (Prod.mk.inj he).2] at hp'
      cases hp'
  · intro m hx
    rw [hh] at hx
    rcases hx with hx | hx
    · rcases mem_or_eq_of_mem_set hx with hx | he
      · exact hkept _ (h.flushed m (.inl hx))
      · obtain ⟨rfl, rfl⟩ := Prod.mk.inj he
        exact hmark (by simp)
    rcases mem_or_eq_of_mem_set hx with hx | he
    · exact hkept _ (h.flushed m (.inr hx))
    · obtain ⟨rfl, rfl⟩ := Prod.mk.inj he
      exact hmark (by simp)
  · exact hgens
  · exact hordered

theorem pending_pos (hk : w.handlers[k]? = some (j, .evicted)) : 0 < w.shoot.pending := by
  obtain ⟨i, hl⟩ := h.locked hk rfl
  obtain ⟨x, -, hr⟩ := h.busy i hl
  have hone : holdsAt j (j, Phase.evicted) = 1 := if_pos ⟨rfl, rfl⟩
  have hle := le_total (holdsAt j) (mem_of_getElem? hk)
  have hopen : 0 < openAt w x.2.2 j := by
    unfold openAt
    omega
  have := le_total (openAt w x.2.2) (hr.mem hopen)
  rw [hr.pending]
  omega

/-- **A call acknowledges**: the counter loses one and does not wrap. -/
theorem ack (hk : w.handlers[k]? = some (j, .evicted)) :
    Proto n (({ w with
      handlers := w.handlers.eraseIdx k,
      shoot := { w.shoot with pending := fetchSub w.shoot.pending } } : World).mark (.acked w.shoot.gen j)) := by
  obtain ⟨i, hl⟩ := h.locked hk rfl
  obtain ⟨x, hx, hround⟩ := h.busy i hl
  have hpos := h.pending_pos hk
  unfold World.mark
  generalize hw : ({ w with
    handlers := w.handlers.eraseIdx k
    shoot := { w.shoot with pending := fetchSub w.shoot.pending }
    history := .acked w.shoot.gen j :: w.history } : World) = w'
  have hframe : w'.core = w.core ∧ w'.lock = w.lock ∧ w'.shoot.gen = w.shoot.gen ∧ w'.handlers = w.handlers.eraseIdx k ∧
      w'.history = .acked w.shoot.gen j :: w.history ∧ w'.shoot.pending = fetchSub w.shoot.pending ∧
      w'.shoot.addr = w.shoot.addr ∧ w'.shoot.count = w.shoot.count := by
    subst hw
    exact ⟨rfl, rfl, rfl, rfl, rfl, rfl, rfl, rfl⟩
  obtain ⟨hcore, hlk, hgen, hh, hm, hp, haddr, hcnt⟩ := hframe
  have hopen : ∀ rest m, openAt w' rest m + holdsAt m (j, .evicted) = openAt w rest m := fun rest m => by
    have htotal := total_eraseIdx (holdsAt m) hk
    unfold openAt
    rw [hcore, hgen, hh]
    omega
  have hone : holdsAt j (j, Phase.evicted) = 1 := if_pos ⟨rfl, rfl⟩
  have hother : ∀ m, m ≠ j → holdsAt m (j, Phase.evicted) = 0 := fun m hne => if_neg fun hx => hne hx.1.symm
  have hj : ∀ rest, 0 < openAt w rest j := fun rest => by
    have := hopen rest j
    omega
  have hdecr : w'.shoot.pending + 1 = w.shoot.pending := by
    rw [hp]
    exact fetchSub_succ hpos
  have hnew : .acked w.shoot.gen j ∉ w.history := fun hin => by
    have heach := hround.each j
    have hcount := count_pos_iff.mpr hin
    have := nodup_iff_count_le_one.mp hround.nodup j
    have := hj x.2.2
    omega
  apply h.of_round w' hl hlk hgen
  · intro m
    rw [hcore]
  · intro r ts rest hr
    refine ⟨hr.nodup, fun m => ?_, ?_, ?_, ?_, ?_⟩
    · have heach := hr.each m
      have ho := hopen rest m
      rw [hgen, hm]
      by_cases he : m = j
      · subst he
        rw [count_cons_self]
        omega
      · rw [count_cons_of_ne fun hx => he (by injection hx with _ hx; exact hx.symm)]
        have := hother m he
        omega
    · have hchange := total_change (openAt w rest) (openAt w' rest) hr.nodup (hr.mem (hj rest)) fun m hne => by
        have := hopen rest m
        have := hother m hne
        omega
      have ho := hopen rest j
      have hpend := hr.pending
      omega
    · rw [hgen, hm]
      exact mem_cons_of_mem _ hr.armed
    · rw [haddr]
      exact hr.addr
    · rw [hcnt]
      exact hr.count
  · intro m
    rw [hcore]
    exact h.reqs m
  · intro m g hx
    rw [hh] at hx
    exact hx.imp mem_of_mem_eraseIdx mem_of_mem_eraseIdx
  · intro m hx
    rw [hh] at hx
    rw [hm]
    exact mem_cons_of_mem _ (h.flushed m (hx.imp mem_of_mem_eraseIdx mem_of_mem_eraseIdx))
  · intro m hin
    rw [hm] at hin
    rcases mem_cons.mp hin with rfl | hin
    · exact le_rfl
    · exact h.gens m hin
  · rw [hm]
    exact ⟨hnew, h.flushed j (.inr (mem_of_getElem? hk)), ⟨x.2.1, hround.armed, hround.mem (hj x.2.2)⟩, h.ordered⟩

end

/-! ### Every step -/

theorem advance (h : Proto n w) (hn : n < 256) (ha : Tlb.advance n pcid w i = some w') : Proto n w' := by
  have htargets := h.targets i
  unfold Tlb.advance at ha
  cases hop : (w.core i).op with
  | idle =>
    rw [hop] at ha
    cases ha
  | protecting ctx base count done flags =>
    rw [hop] at ha
    have hscan : Op.TargetsOk n (.scanning ⟨ctx, base, count, count, false, none⟩ 0 []) :=
      ⟨nodup_nil, fun _ hj => (nomatch hj), Nat.zero_le _⟩
    dsimp only at ha
    split at ha
    · cases ha
      exact h.restart _ _ (by rw [hop]; rfl) rfl rfl hscan
    split at ha
    · cases ha
      exact h.restart _ _ (by rw [hop]; rfl) rfl rfl trivial
    · rename_i T _
      cases ha
      exact h.restart _ _ (by rw [hop]; rfl) rfl rfl trivial
  | splitting ctx base span page =>
    rw [hop] at ha
    cases ha
    exact h.restart _ _ (by rw [hop]; rfl) rfl rfl trivial
  | scanning r next targets =>
    rw [hop] at ha htargets
    obtain ⟨hnodup, hlt, hle⟩ := htargets
    dsimp only at ha
    split at ha
    · rename_i hnext
      split at ha
      · cases ha
        refine h.setCore rfl (by rw [hop]; rfl) ⟨?_, fun m hm => ?_, hnext⟩
        · exact nodup_append.mpr ⟨hnodup, nodup_singleton _, fun a ha b hb => by
            have := hlt a ha
            rw [mem_singleton.mp hb]
            omega⟩
        · rcases mem_append.mp hm with hm | hm
          · exact Nat.lt_succ_of_lt (hlt m hm)
          · rw [mem_singleton.mp hm]
            exact Nat.lt_succ_self _
      · cases ha
        exact h.setCore rfl (by rw [hop]; rfl) ⟨hnodup, fun m hm => Nat.lt_succ_of_lt (hlt m hm), hnext⟩
    · cases ha
      refine h.setCore rfl (by rw [hop]; rfl) ⟨hnodup, ?_⟩
      have hsub := (hnodup.subperm fun m hm => mem_range.mpr ((hlt m hm).trans_le hle) : targets.Subperm (List.range n))
      have := hsub.length_le
      rwa [length_range] at this
  | flushing r targets =>
    rw [hop] at ha htargets
    cases ha
    have hreq : (localFlush n pcid r (w.core i)).req = (w.core i).req := by
      unfold localFlush
      split <;> rfl
    refine h.setCore hreq ?_ ?_
    · rw [hop]
      split <;> rfl
    · show Op.TargetsOk n (if targets = [] then .idle else .locking r targets)
      split
      · trivial
      · exact htargets
  | locking r targets =>
    rw [hop] at ha
    dsimp only at ha
    split at ha
    · rename_i hl
      cases ha
      exact h.arm hn hop hl
    · cases ha
  | asking r targets rest =>
    rw [hop] at ha htargets
    cases rest with
    | nil =>
      cases ha
      exact h.setCore rfl (by rw [hop]; rfl) htargets
    | cons j rest =>
      cases ha
      exact h.ask hop
  | waiting r targets =>
    rw [hop] at ha
    dsimp only at ha
    split at ha
    · rename_i hp
      cases ha
      exact h.finish hop hp
    · cases ha

theorem handle (h : Proto n w) (hh : Tlb.handle pcid w k = some w') : Proto n w' := by
  unfold Tlb.handle at hh
  cases hk : w.handlers[k]? with
  | none =>
    rw [hk] at hh
    cases hh
  | some x =>
    obtain ⟨j, phase⟩ := x
    rw [hk] at hh
    cases phase with
    | start =>
      cases hh
      split
      · rename_i hact
        exact h.setPhase hk rfl rfl (fun _ => h.active (.inl hact)) fun g hg => by rcases hg with hg | hg <;> cases hg
      · exact h.leave hk rfl
    | active =>
      cases hh
      refine h.setPhase hk rfl rfl (nomatch ·) fun g hg => ?_
      rcases hg with hg | hg
      · cases hg
        exact h.active (.inr (.inl ⟨j, mem_of_getElem? hk⟩))
      · cases hg
    | read gen =>
      cases hh
      split
      · refine h.setPhase hk rfl rfl (nomatch ·) fun g hg => ?_
        rcases hg with hg | hg
        · cases hg
        · cases hg
          exact h.reads j gen (.inl (mem_of_getElem? hk))
      · exact h.leave hk rfl
    | asked gen =>
      cases hh
      split
      · rename_i hreq
        exact h.claim hk hreq
      · exact h.leave hk rfl
    | claimed =>
      cases hh
      have hcore := (w.goto k j .flushed).core_setCore j (handlerFlush w.shoot)
      apply h.holdOn
        (((w.goto k j .flushed).setCore j (handlerFlush w.shoot)).mark (.flushed w.shoot.gen j)) hk rfl rfl rfl rfl rfl
      · intro m
        show (((w.goto k j .flushed).setCore j (handlerFlush w.shoot)).core m).req = _
        rw [hcore]
        split
        · unfold handlerFlush
          split <;> rfl
        · rfl
      · intro m
        show (((w.goto k j .flushed).setCore j (handlerFlush w.shoot)).core m).op = _
        rw [hcore]
        split
        · unfold handlerFlush
          split <;> rfl
        · rfl
      · exact fun m => count_cons_of_ne (by simp)
      · exact fun m hm => mem_cons_of_mem _ hm
      · exact fun _ => mem_cons_self
      · intro m hm
        rcases mem_cons.mp hm with rfl | hm
        · exact le_rfl
        · exact h.gens m hm
      · exact h.ordered
    | flushed =>
      cases hh
      have hcore := (w.goto k j .evicted).core_setCore j (handlerEvict pcid w.shoot)
      apply h.holdOn ((w.goto k j .evicted).setCore j (handlerEvict pcid w.shoot)) hk rfl rfl rfl rfl rfl
      · intro m
        rw [hcore]
        split
        · unfold handlerEvict
          split <;> rfl
        · rfl
      · intro m
        rw [hcore]
        split
        · unfold handlerEvict
          split <;> rfl
        · rfl
      · exact fun _ => rfl
      · exact fun _ hm => hm
      · exact fun _ => h.flushed j (.inl (mem_of_getElem? hk))
      · exact h.gens
      · exact h.ordered
    | evicted =>
      cases hh
      exact h.ack hk

theorem step (h : Proto n w) (hn : n < 256) {e : Event} (hs : Step n pcid w e w') : Proto n w' := by
  have hscan : ∀ r, Op.TargetsOk n (.scanning r 0 []) := fun _ => ⟨nodup_nil, fun _ hj => (nomatch hj), Nat.zero_le _⟩
  unfold Step next at hs
  cases e with
  | fill j page =>
    dsimp only at hs
    split at hs
    · obtain ⟨l, -, hw⟩ := map_eq_some_iff.mp hs
      cases hw
      exact h.setCore rfl rfl (h.targets j)
    · cases hs
  | setCurrent j | loadCr3 j =>
    cases hs
    exact h.setCore rfl rfl (h.targets j)
  | mapPage | mapHuge =>
    dsimp only at hs
    split at hs
    · obtain ⟨T, -, hw⟩ := map_eq_some_iff.mp hs
      cases hw
      exact h.setTables _ _
    · cases hs
  | demote i ctx page =>
    dsimp only at hs
    split at hs
    · rename_i hb
      obtain ⟨r, -, hw⟩ := map_eq_some_iff.mp hs
      cases hw
      exact h.restart _ _ (by rw [hb.2.1]; rfl) rfl rfl trivial
    · cases hs
  | unmapPage | unmapHuge =>
    dsimp only at hs
    split at hs
    · rename_i hb
      obtain ⟨T, -, hw⟩ := map_eq_some_iff.mp hs
      cases hw
      exact h.restart _ _ (by rw [hb.2.1]; rfl) rfl rfl (hscan _)
    · cases hs
  | protect i ctx base count flags =>
    dsimp only at hs
    split at hs
    · rename_i hb
      cases hs
      exact h.restart _ _ (by rw [hb.2.1]; rfl) rfl rfl trivial
    · cases hs
  | flushAll i evict =>
    dsimp only at hs
    split at hs
    · rename_i hb
      cases hs
      refine h.setCore rfl ?_ (hscan _)
      rw [hb.2]
      rfl
    · cases hs
  | advance i => exact h.advance hn hs
  | call j =>
    cases hs
    exact h.call j
  | handle k => exact h.handle hs

end Proto

end BoxOS.Memory.Tlb
