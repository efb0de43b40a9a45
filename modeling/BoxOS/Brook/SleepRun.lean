import BoxOS.Brook.Sleep
import BoxOS.Lib.Runs

/-!
# Brook never sleeps through a wake-up

While an end is asleep, its bell bears the pid of the strand that sleeps, unless a strand sleeps on a handle that
another one opened. What follows is `Kept`: the bell's result is in the ring or on its way; or the bell is not rung, and
as far as the recheck has looked the wait condition is true only because of an operation of the other end that is still
to ring; or that operation is about to submit.
-/

namespace BoxOS.Brook.Sleep

open Lib List World

variable {cap : UInt32} {w w' : World} {q r : Role} {p : Nat} {ev : Event}

/-! ## The worlds after a change -/

namespace World

@[simp] theorem ends_setEnd (w : World) (q : Role) (f : End → End) (r : Role) :
    (w.setEnd q f).ends r = if r = q then f (w.ends r) else w.ends r := by
  unfold setEnd
  simp only [Function.update_apply]
  split
  · rename_i h
    rw [h]
  · rfl

@[simp] theorem ends_goto (w : World) (q : Role) (pc : Pc) (r : Role) :
    (w.goto q pc).ends r = if r = q then { w.ends r with pc := pc } else w.ends r :=
  w.ends_setEnd q _ r

/-- A bell's result is in the ring of a strand, or on its way. -/
def Coming (w : World) (p : Nat) : Prop := p ∈ w.flying ∨ ∃ s ∈ (w.inbox p).results, s.bell = true

end World

theorem mem_eraseIdx_of_ne {α : Type*} {l : List α} {x y : α} {k : Nat} (hx : x ∈ l) (hk : l[k]? = some y)
    (hne : x ≠ y) : x ∈ l.eraseIdx k := by
  obtain ⟨j, hj⟩ := mem_iff_getElem?.mp hx
  refine mem_eraseIdx_iff_getElem?.mpr ⟨j, fun he => hne ?_, hj⟩
  rw [he, hk] at hj
  exact (Option.some.inj hj).symm

/-! ## What a sleeper knows -/

/-- The part of the wait condition that the recheck has found false. -/
def Seen (cap : UInt32) (w : World) (r : Role) : Prop :=
  match (w.ends r).pc with
  | .recheckAlive _ | .recheckEver _ => w.CanMove cap r
  | .turnedIn _ => w.Ready cap r
  | _ => False

/-- The operation has made the wait condition true, and will ring a bell that bears this pid. -/
def Pc.WillRing : Pc → Nat → Prop
  | .ringLoad made, _ | .unmapped made, _ | .survivorLoad made, _ => made = true
  | .ringCas who made, p | .survivorCas who made, p => who = p ∧ made = true
  | _, _ => False

/-- The sleeper of an end is not forgotten: `seen` is what its recheck has found false, `o` where the other end is. -/
structure Kept (e : End) (seen coming : Prop) (o : Pc) : Prop where
  who : e.bell.who = e.strand
  strand : e.strand ≠ 0
  heard : coming ∨ e.bell.rung = false ∧ (seen → o.WillRing e.strand) ∨
    ∃ made, o = .submit e.strand made ∧ (seen → made = true)

/-- What holds between the steps. -/
structure Inv (cap : UInt32) (w : World) : Prop where
  attached : ∀ r, (w.ends r).pc.attached = true → (w.ends r).alive = .alive
  strand : ∀ r, (w.ends r).pc ≠ .gone → (w.ends r).strand ≠ 0
  kept : ∀ r, (w.ends r).pc.asleep = true →
    Kept (w.ends r) (Seen cap w r) (w.Coming (w.ends r).strand) (w.ends r.peer).pc

/-! ## Conditions -/

/-- A strand that sleeps has opened the handle; a bell gets lost only when the strand that it is for is not asleep; and
an open that fails after it has set the alive word makes the wait condition of no sleeper true. -/
def Clean (cap : UInt32) (w : World) : Event → Prop
  | .go r => (w.ends r).pc = .hang → (w.ends r).strand = (w.ends r).selfPid
  | .submit r ok => ok = false → ∀ who made, (w.ends r).pc = .submit who made → ¬w.Asleep who
  | .kill r => ∀ who made, (w.ends r).pc = .submit who made → ¬w.Asleep who
  | .lose k => ∀ who ∈ w.flying[k]?, ¬w.Asleep who
  | .link r ok => ok = false → (w.ends r.peer).pc.asleep = true →
    (w.ends r.peer).streaming = true ∨ w.CanMove cap r.peer
  | _ => True

/-! ## Steps -/

theorem Seen.imp (h : Seen cap w' r) (hpc : (w'.ends r).pc = (w.ends r).pc) (hmove : w'.CanMove cap r → w.CanMove cap r)
    (hdeserted : w'.Deserted r → w.Ready cap r) : Seen cap w r := by
  unfold Seen at h ⊢
  rw [hpc] at h
  split at h
  · exact hmove h
  · exact hmove h
  · exact h.elim (fun hm => .inl (hmove hm)) hdeserted
  · exact h

namespace Inv

/-- The end `q` goes on: what is left to show about it and about the other end. -/
theorem moved (h : Inv cap w) (q : Role) (w' : World)
    (hattached : (w'.ends q).pc.attached = true → (w'.ends q).alive = .alive)
    (hstrand : (w'.ends q).pc ≠ .gone → (w'.ends q).strand ≠ 0) (hown : (w'.ends q).pc.asleep = true →
    Kept (w'.ends q) (Seen cap w' q) (w'.Coming (w'.ends q).strand) (w.ends q.peer).pc)
    (hpc : (w'.ends q.peer).pc = (w.ends q.peer).pc) (hsame : (w'.ends q.peer).strand = (w.ends q.peer).strand)
    (halive : (w'.ends q.peer).alive = (w.ends q.peer).alive ∨ (w.ends q.peer).alive = .dead)
    (hpeer : (w.ends q.peer).pc.asleep = true →
    Kept (w'.ends q.peer) (Seen cap w' q.peer) (w'.Coming (w.ends q.peer).strand) (w'.ends q).pc) : Inv cap w' where
  attached := fun r ha => by
    rcases r.eq_or q with rfl | rfl
    · exact hattached ha
    rw [hpc] at ha
    rcases halive with hal | hal
    · exact hal.trans (h.attached _ ha)
    · rw [h.attached _ ha] at hal
      cases hal
  strand := fun r hr => by
    rcases r.eq_or q with rfl | rfl
    · exact hstrand hr
    · rw [hpc] at hr
      rw [hsame]
      exact h.strand _ hr
  kept := fun r hr => by
    rcases r.eq_or q with rfl | rfl
    · rw [hpc]
      exact hown hr
    · rw [hpc] at hr
      rw [Role.peer_peer, hsame]
      exact hpeer hr

theorem quiet (h : Inv cap w) (hasleep : (w.ends q.peer).pc.asleep = true) (w' : World) {o' : Pc}
    (hend : w'.ends q.peer = w.ends q.peer) (hmove : w'.CanMove cap q.peer → w.CanMove cap q.peer)
    (hdeserted : w'.Deserted q.peer → w.Ready cap q.peer) (hcoming : ∀ p, w.Coming p → w'.Coming p)
    (hsubmit : ∀ who made, (w.ends q).pc ≠ .submit who made)
    (hwill : ∀ p ≠ 0, (w.ends q.peer).bell = ⟨p, false⟩ → (w.ends q).pc.WillRing p → o'.WillRing p) :
    Kept (w'.ends q.peer) (Seen cap w' q.peer) (w'.Coming (w.ends q.peer).strand) o' := by
  have hk := h.kept _ hasleep
  rw [Role.peer_peer] at hk
  rw [hend]
  refine ⟨hk.who, hk.strand, ?_⟩
  rcases hk.heard with hc | ⟨hrung, hseen⟩ | ⟨made, ho, -⟩
  · exact .inl (hcoming _ hc)
  · have hbell : (w.ends q.peer).bell = ⟨(w.ends q.peer).strand, false⟩ := by rw [← hk.who, ← hrung]
    exact .inr (.inl ⟨hrung, fun hs => hwill _ hk.strand hbell (hseen (hs.imp (by rw [hend]) hmove hdeserted))⟩)
  · exact absurd ho (hsubmit _ _)

/-- An end that is not asleep afterwards goes on, with its alive word and its strand as they were. -/
theorem movedTo (h : Inv cap w) {o' : Pc} {b : Bell} (hq : w'.ends q = { w.ends q with pc := o' })
    (hpeer : w'.ends q.peer = { w.ends q.peer with bell := b })
    (hattached : o'.attached = true → (w.ends q).pc.attached = true) (hgone : (w.ends q).pc ≠ .gone)
    (hasleep : o'.asleep = false) (hkept : (w.ends q.peer).pc.asleep = true →
    Kept { w.ends q.peer with bell := b } (Seen cap w' q.peer) (w'.Coming (w.ends q.peer).strand) o') : Inv cap w' := by
  apply h.moved q
  · rw [hq]
    exact fun ha => h.attached q (hattached ha)
  · rw [hq]
    exact fun _ => h.strand q hgone
  · rw [hq]
    exact fun ha => nomatch hasleep.symm.trans ha
  · rw [hpeer]
  · rw [hpeer]
  · rw [hpeer]
    exact .inl rfl
  · rw [hq, hpeer]
    exact hkept

theorem deserted_before {o' : Pc} {b : Bell} (hq : w'.ends q = { w.ends q with pc := o' })
    (hpeer : w'.ends q.peer = { w.ends q.peer with bell := b }) (hd : w'.Deserted q.peer) : w.Ready cap q.peer := by
  unfold World.Deserted at hd
  rw [Role.peer_peer, hq, hpeer] at hd
  exact .inr (by unfold World.Deserted; rwa [Role.peer_peer])

theorem goto (h : Inv cap w) (q : Role) (o' : Pc) (hattached : o'.attached = true → (w.ends q).pc.attached = true)
    (hstay : o' ≠ .gone → (w.ends q).pc ≠ .gone) (hsubmit : ∀ who made, (w.ends q).pc ≠ .submit who made)
    (hwill : ∀ p ≠ 0, (w.ends q.peer).bell = ⟨p, false⟩ → (w.ends q).pc.WillRing p → o'.WillRing p)
    (hown : o'.asleep = true →
    Kept { w.ends q with pc := o' } (Seen cap (w.goto q o') q) (w.Coming (w.ends q).strand) (w.ends q.peer).pc) :
    Inv cap (w.goto q o') := by
  have hq : (w.goto q o').ends q = { w.ends q with pc := o' } := by simp
  have hpeer : (w.goto q o').ends q.peer = w.ends q.peer := by simp [q.ne_peer.symm]
  apply h.moved q
  · rw [hq]
    exact fun ha => h.attached q (hattached ha)
  · rw [hq]
    exact fun hg => h.strand q (hstay hg)
  · rw [hq]
    exact hown
  · rw [hpeer]
  · rw [hpeer]
  · rw [hpeer]
    exact .inl rfl
  · intro hasleep
    rw [hq]
    exact h.quiet hasleep _ hpeer id (deserted_before hq hpeer) (fun _ => id) hsubmit hwill

theorem sleepOn (h : Inv cap w) {o : Pc} (hpc : (w.ends q).pc = o) (hasleep : o.asleep = true) (o' : Pc)
    (hseen : o'.asleep = true → Seen cap (w.goto q o') q → Seen cap w q) : Inv cap (w.goto q o') := by
  have hk := h.kept q (by rw [hpc]; exact hasleep)
  apply h.goto q o'
  · rw [hpc]
    exact fun _ => by cases o <;> first | rfl | cases hasleep
  · rw [hpc]
    rintro - rfl
    cases hasleep
  · intro who made ho
    rw [← hpc, ho] at hasleep
    cases hasleep
  · intro p _ _ hp
    rw [hpc] at hp
    cases o <;> first | exact hp.elim | cases hasleep
  · intro ha
    refine ⟨hk.who, hk.strand, ?_⟩
    rcases hk.heard with hc | ⟨hrung, hs⟩ | ⟨made, ho, hs⟩
    · exact .inl hc
    · exact .inr (.inl ⟨hrung, fun hn => hs (hseen ha hn)⟩)
    · exact .inr (.inr ⟨made, ho, fun hn => hs (hseen ha hn)⟩)

theorem publish (h : Inv cap w) (hpc : (w.ends q).pc = .publish) :
    Inv cap ((w.move q).goto q (.ringLoad !decide (w.Ready cap q.peer))) := by
  generalize hw : (w.move q).goto q (.ringLoad !decide (w.Ready cap q.peer)) = w'
  have hends : ∀ r,
    w'.ends r = if r = q then { w.ends r with pc := .ringLoad !decide (w.Ready cap q.peer) } else w.ends r :=
    fun r => by
      subst hw
      rw [ends_goto]
      cases q <;> rfl
  have hq := (hends q).trans (if_pos rfl)
  have hpeer := (hends q.peer).trans (if_neg q.ne_peer.symm)
  have hcoming : w'.Coming = w.Coming := by
    subst hw
    cases q <;> rfl
  have halive : (w.ends q).alive = .alive := h.attached q (by rw [hpc]; rfl)
  refine h.movedTo hq hpeer (fun _ => by rw [hpc]; rfl) (by rw [hpc]; nofun) rfl fun hasleep => ?_
  have hk := h.kept _ hasleep
  rw [Role.peer_peer, hpc] at hk
  rw [hcoming]
  refine ⟨hk.who, hk.strand, ?_⟩
  rcases hk.heard with hc | ⟨hrung, hseen⟩ | ⟨made, ho, -⟩
  · exact .inl hc
  · refine .inr (.inl ⟨hrung, fun hs => ?_⟩)
    -- what the recheck had found false was false: this end is attached, and had nothing to ring for
    show (!decide (w.Ready cap q.peer)) = true
    have hnot : ¬Seen cap w q.peer := fun hn => hseen hn
    have hdeserted : ¬w.Deserted q.peer := fun hd => by
      have := hd.2.1
      rw [Role.peer_peer, halive] at this
      cases this
    have hready : ¬w.Ready cap q.peer := by
      unfold Seen at hnot hs
      rw [hpeer] at hs
      split at hs
      · rename_i heq
        rw [heq] at hnot
        exact fun hr => hr.elim hnot hdeserted
      · rename_i heq
        rw [heq] at hnot
        exact fun hr => hr.elim hnot hdeserted
      · rename_i heq
        rw [heq] at hnot
        exact hnot
      · exact hs.elim
    simp [hready]
  · cases ho

theorem load (h : Inv cap w) {o : Pc} (hpc : (w.ends q).pc = o) {made : Bool}
    (ho : o = .ringLoad made ∨ o = .survivorLoad made) {o' : Pc} (hattached : o'.attached = true → o.attached = true)
    (hasleep : o'.asleep = false) (hwill : ∀ p ≠ 0, (w.ends q.peer).bell = ⟨p, false⟩ → made = true → o'.WillRing p) :
    Inv cap (w.goto q o') := by
  apply h.goto q o'
  · rw [hpc]
    exact hattached
  · rw [hpc]
    rcases ho with rfl | rfl <;> exact fun _ => nofun
  · rw [hpc]
    rcases ho with rfl | rfl <;> exact fun _ _ => nofun
  · intro p hp hbell hw
    rw [hpc] at hw
    apply hwill p hp hbell
    rcases ho with rfl | rfl <;> exact hw
  · intro ha
    rw [hasleep] at ha
    cases ha

theorem casFails (h : Inv cap w) {o : Pc} (hpc : (w.ends q).pc = o) {who : Nat} {made : Bool}
    (ho : o = .ringCas who made ∨ o = .survivorCas who made) (hbell : (w.ends q.peer).bell ≠ ⟨who, false⟩) {o' : Pc}
    (hattached : o'.attached = true → o.attached = true) (hasleep : o'.asleep = false) : Inv cap (w.goto q o') := by
  apply h.goto q o'
  · rw [hpc]
    exact hattached
  · rw [hpc]
    rcases ho with rfl | rfl <;> exact fun _ => nofun
  · rw [hpc]
    rcases ho with rfl | rfl <;> exact fun _ _ => nofun
  · intro p _ hb hw
    rw [hpc] at hw
    have hwho : who = p := by rcases ho with rfl | rfl <;> exact hw.1
    exact absurd (hwho ▸ hb) hbell
  · intro ha
    rw [hasleep] at ha
    cases ha

/-- The bell is rung: its result is about to be submitted, or on its way. -/
theorem ring (h : Inv cap w) {o : Pc} (hpc : (w.ends q).pc = o) {who : Nat} {made : Bool}
    (ho : o = .ringCas who made ∨ o = .survivorCas who made) (hbell : (w.ends q.peer).bell = ⟨who, false⟩) (w' : World)
    (o' : Pc) (hq : w'.ends q = { w.ends q with pc := o' }) (hpeer : w'.ends q.peer = ringBell (w.ends q.peer))
    (hmove : w'.CanMove cap q.peer → w.CanMove cap q.peer) (hattached : o'.attached = true → o.attached = true)
    (hasleep : o'.asleep = false) (hcoming : ∀ p, w.Coming p → w'.Coming p)
    (hrings : w'.Coming who ∨ o' = .submit who made) : Inv cap w' := by
  refine h.movedTo hq hpeer (by rw [hpc]; exact hattached) (by rw [hpc]; rcases ho with rfl | rfl <;> nofun) hasleep
    fun ha => ?_
  have hk := h.kept _ ha
  rw [Role.peer_peer, hpc] at hk
  have hwho : who = (w.ends q.peer).strand := by rw [← hk.who, hbell]
  refine ⟨hk.who, hk.strand, ?_⟩
  rcases hrings with hc | rfl
  · exact .inl (hwho ▸ hc)
  rcases hk.heard with hc | ⟨-, hseen⟩ | ⟨m, hm, -⟩
  · exact .inl (hcoming _ hc)
  · refine .inr (.inr ⟨made, by rw [hwho], fun hs => ?_⟩)
    have := hseen (hs.imp (by rw [hpeer]; rfl) hmove (deserted_before hq hpeer))
    rcases ho with rfl | rfl <;> exact this.2
  · rcases ho with rfl | rfl <;> cases hm

theorem undo (h : Inv cap w) {who : Nat} {made : Bool} (hpc : (w.ends q).pc = .undo who made)
    (hbell : (w.ends q.peer).bell = ⟨who, true⟩) :
    Inv cap ((w.setEnd q.peer fun o => { o with bell := ⟨who, false⟩ }).goto q .idle) := by
  have hq : ((w.setEnd q.peer fun o => { o with bell := ⟨who, false⟩ }).goto q .idle).ends q =
      { w.ends q with pc := .idle } := by
    simp [q.ne_peer]
  have hpeer : ((w.setEnd q.peer fun o => { o with bell := ⟨who, false⟩ }).goto q .idle).ends q.peer =
      { w.ends q.peer with bell := ⟨who, false⟩ } := by simp [q.ne_peer.symm]
  refine h.movedTo hq hpeer (fun _ => by rw [hpc]; rfl) (by rw [hpc]; nofun) rfl fun ha => ?_
  have hk := h.kept _ ha
  rw [Role.peer_peer, hpc] at hk
  refine ⟨by rw [← hk.who, hbell], hk.strand, ?_⟩
  rcases hk.heard with hc | ⟨hrung, -⟩ | ⟨_, ho, -⟩
  · exact .inl hc
  · rw [hbell] at hrung
    cases hrung
  · cases ho

theorem unmapped (h : Inv cap w) {made : Bool} (hpc : (w.ends q).pc = .unmapped made) :
    Inv cap (w.setEnd q fun e => { e with
      alive := if e.alive = .alive then .dead else e.alive,
      pc := .survivorLoad (made || !decide (w.Ready cap q.peer)) }) := by
  generalize hw : w.setEnd q _ = w'
  have hq : w'.ends q = { w.ends q with
      alive := if (w.ends q).alive = .alive then .dead else (w.ends q).alive
      pc := .survivorLoad (made || !decide (w.Ready cap q.peer)) } := by
    subst hw
    simp
  have hpeer : w'.ends q.peer = w.ends q.peer := by
    subst hw
    simp [q.ne_peer.symm]
  have hrest : w'.Coming = w.Coming ∧ w'.CanMove cap = w.CanMove cap := by
    subst hw
    exact ⟨rfl, funext fun r => by cases r <;> rfl⟩
  obtain ⟨hcoming, hmove⟩ := hrest
  apply h.moved q
  · rw [hq]
    exact nofun
  · rw [hq]
    exact fun _ => h.strand q (by rw [hpc]; nofun)
  · rw [hq]
    exact nofun
  · rw [hpeer]
  · rw [hpeer]
  · rw [hpeer]
    exact .inl rfl
  · intro ha
    have hk := h.kept _ ha
    rw [Role.peer_peer, hpc] at hk
    rw [hpeer, hcoming, hq]
    refine ⟨hk.who, hk.strand, ?_⟩
    rcases hk.heard with hc | ⟨hrung, hseen⟩ | ⟨m, hm, -⟩
    · exact .inl hc
    · refine .inr (.inl ⟨hrung, fun hs => ?_⟩)
      show (made || !decide (w.Ready cap q.peer)) = true
      by_cases hready : w.Ready cap q.peer
      · have hmade : made = true := by
          apply hseen
          unfold Seen at hs ⊢
          rw [hpeer, hmove] at hs
          split at hs
          · exact hs
          · exact hs
          · exact hready
          · exact hs
        simp [hmade]
      · simp [hready]
    · cases hm

/-- A step that leaves the other end and the indices alone, and says nothing to the other end. -/
theorem alone (h : Inv cap w) {o : Pc} (hpc : (w.ends q).pc = o) (f : End → End) {e : End} (he : f (w.ends q) = e)
    (hattached : e.pc.attached = true → e.alive = .alive) (hstrand : e.pc ≠ .gone → e.strand ≠ 0)
    (hown : e.pc.asleep = true → e.pc = .markResult ∧ e.bell = ⟨e.strand, false⟩)
    (hsubmit : ∀ who made, o ≠ .submit who made)
    (hdeserted : (w.ends q.peer).pc.asleep = true → (w.setEnd q f).Deserted q.peer → w.Ready cap q.peer)
    (hwill : ∀ p, ¬o.WillRing p) : Inv cap (w.setEnd q f) := by
  have hq : (w.setEnd q f).ends q = e := by simp [he]
  have hpeer : (w.setEnd q f).ends q.peer = w.ends q.peer := by simp [q.ne_peer.symm]
  apply h.moved q
  · rw [hq]
    exact hattached
  · rw [hq]
    exact hstrand
  · rw [hq]
    intro ha
    obtain ⟨hmark, hbell⟩ := hown ha
    refine ⟨by rw [hbell], hstrand (by rw [hmark]; nofun), .inr (.inl ⟨by rw [hbell], fun hs => ?_⟩)⟩
    -- the recheck is still to come
    unfold Seen at hs
    rw [hq, hmark] at hs
    exact hs.elim
  · rw [hpeer]
  · rw [hpeer]
  · rw [hpeer]
    exact .inl rfl
  · intro ha
    exact h.quiet ha _ hpeer (by cases q <;> exact id) (hdeserted ha) (fun _ => id) (hpc ▸ hsubmit)
      fun p _ _ hw => absurd (hpc ▸ hw) (hwill p)

theorem freeze (h : Inv cap w) (hpc : (w.ends q).pc = .freeze) (hdead : (w.ends q.peer).alive = .dead) :
    Inv cap ((w.setEnd q.peer fun o => { o with alive := .frozen }).goto q .idle) := by
  have hq :
      ((w.setEnd q.peer fun o => { o with alive := .frozen }).goto q .idle).ends q = { w.ends q with pc := .idle } := by
    simp [q.ne_peer]
  have hpeer : ((w.setEnd q.peer fun o => { o with alive := .frozen }).goto q .idle).ends q.peer =
      { w.ends q.peer with alive := .frozen } := by simp [q.ne_peer.symm]
  apply h.moved q
  · rw [hq]
    exact fun _ => h.attached q (by rw [hpc]; rfl)
  · rw [hq]
    exact fun _ => h.strand q (by rw [hpc]; nofun)
  · rw [hq]
    exact nofun
  · rw [hpeer]
  · rw [hpeer]
  · exact .inr hdead
  · intro ha
    have : (w.ends q.peer).alive = .alive := h.attached _ (by
      revert ha
      generalize (w.ends q.peer).pc = o
      cases o <;> simp [Pc.asleep, Pc.attached])
    rw [hdead] at this
    cases this

theorem plain (h : Inv cap w) {o : Pc} (hpc : (w.ends q).pc = o) (hattached : o.attached = true)
    (hsubmit : ∀ who made, o ≠ .submit who made) (hwill : ∀ p, ¬o.WillRing p) {o' : Pc} (hasleep : o'.asleep = false) :
    Inv cap (w.goto q o') := by
  apply h.goto q o'
  · rw [hpc]
    exact fun _ => hattached
  · rw [hpc]
    rintro - rfl
    cases hattached
  · rw [hpc]
    exact hsubmit
  · rw [hpc]
    exact fun p _ _ hw => absurd hw (hwill p)
  · rw [hasleep]
    exact nofun

theorem recheck (h : Inv cap w) {m : TurnInMark} (hpc : (w.ends q).pc = .recheck m) :
    Inv cap
      (w.goto q
        (if w.CanMove cap q then .takeDown else if (w.ends q).streaming then .turnedIn m else .recheckAlive m)) := by
  apply h.sleepOn hpc rfl
  split
  · exact nofun
  rename_i hmove
  have hmove' : ∀ o', ¬(w.goto q o').CanMove cap q := fun o' => by cases q <;> exact hmove
  split
  · rename_i hstream
    intro _ hs
    refine absurd hs ?_
    unfold Seen
    rw [ends_goto, if_pos rfl]
    rintro (hm | hd)
    · exact hmove' _ hm
    · have := hd.1
      rw [ends_goto, if_pos rfl] at this
      simp [hstream] at this
  · intro _ hs
    refine absurd hs ?_
    unfold Seen
    rw [ends_goto, if_pos rfl]
    exact hmove' _

theorem recheckEnd (h : Inv cap w) {o : Pc} (hpc : (w.ends q).pc = o) {m : TurnInMark}
    (ho : o = .recheckAlive m ∨ o = .recheckEver m)
    (hthere : (w.ends q.peer).alive ≠ .dead ∨ (w.ends q.peer).everAttached = false) :
    Inv cap (w.goto q (.turnedIn m)) := by
  apply h.sleepOn hpc (by rcases ho with rfl | rfl <;> rfl)
  intro _ hs
  unfold Seen at hs ⊢
  rw [ends_goto, if_pos rfl] at hs
  rw [hpc]
  have hmove : w.CanMove cap q := by
    rcases hs with hm | hd
    · cases q <;> exact hm
    obtain ⟨-, hdead, hever⟩ := hd
    rw [ends_goto, if_neg q.ne_peer.symm] at hdead hever
    rcases hthere with ht | ht
    · exact absurd hdead ht
    · rw [ht] at hever
      cases hever
  rcases ho with rfl | rfl <;> exact hmove

theorem aside (h : Inv cap w) {o : Pc} (hpc : (w.ends q).pc = o) (f : End → End) {e : End} (he : f (w.ends q) = e)
    (hattached : e.pc.attached = true → e.alive = .alive) (hstrand : e.pc ≠ .gone → e.strand ≠ 0)
    (hown : e.pc.asleep = true → e.pc = .markResult ∧ e.bell = ⟨e.strand, false⟩)
    (hsubmit : ∀ who made, o ≠ .submit who made) (halive : e.alive = (w.ends q).alive)
    (hever : e.everAttached = (w.ends q).everAttached) (hwill : ∀ p, ¬o.WillRing p) : Inv cap (w.setEnd q f) := by
  refine h.alone hpc f he hattached hstrand hown hsubmit (fun _ hd => .inr ?_) hwill
  simpa [World.Deserted, q.ne_peer.symm, he, halive, hever] using hd

/-- One access of an end. -/
theorem go (h : Inv cap w) (hclean : (w.ends q).pc = .hang → (w.ends q).strand = (w.ends q).selfPid)
    (hgo : Sleep.go cap w q = some w') : Inv cap w' := by
  unfold Sleep.go at hgo
  dsimp only at hgo
  generalize hpc : (w.ends q).pc = pc at hgo
  cases pc with
  | gone | linking | idle | wait | submit who made =>
    cases hgo
  | attaching =>
    cases hgo
    refine h.alone hpc _ rfl (fun _ => h.attached q (by rw [hpc]; rfl)) (fun _ => h.strand q (by rw [hpc]; nofun))
      nofun (fun _ _ => nofun) (fun _ hd => ?_) fun _ => id
    have := hd.2.1
    rw [Role.peer_peer] at this
    simp only [ends_setEnd, if_pos] at this
    rw [h.attached q (by rw [hpc]; rfl)] at this
    cases this
  | look =>
    cases hgo
    exact h.plain hpc rfl (fun _ _ => nofun) (fun _ => id) (by split <;> [rfl; (split <;> rfl)])
  | publish =>
    cases hgo
    exact h.publish hpc
  | ringLoad made =>
    cases hgo
    apply h.load hpc (.inl rfl) (fun _ => rfl) (by split <;> rfl)
    intro p hp hbell hmade
    rw [hbell]
    simp [hp, hmade, Pc.WillRing]
  | ringCas who made =>
    cases hgo
    split
    · rename_i hbell
      apply h.ring hpc (.inl rfl) hbell _ (.submit who made)
      · simp [q.ne_peer]
      · simp [q.ne_peer.symm]
      · cases q <;> exact id
      · exact fun _ => rfl
      · rfl
      · exact fun _ => id
      · exact .inr rfl
    · rename_i hbell
      exact h.casFails hpc (.inl rfl) hbell (fun _ => rfl) rfl
  | undo who made =>
    cases hgo
    split
    · rename_i hbell
      exact h.undo hpc hbell
    · exact h.plain hpc rfl (fun _ _ => nofun) (fun _ => id) rfl
  | checkAlive | checkEver =>
    cases hgo
    exact h.plain hpc rfl (fun _ _ => nofun) (fun _ => id) (by split <;> rfl)
  | freeze =>
    dsimp only at hgo
    split at hgo
    · rename_i hdead
      cases hgo
      exact h.freeze hpc hdead
    · cases hgo
      exact h.plain hpc rfl (fun _ _ => nofun) (fun _ => id) rfl
    · cases hgo
      exact h.plain hpc rfl (fun _ _ => nofun) (fun _ => id) rfl
  | hang =>
    cases hgo
    exact h.aside hpc _ rfl (fun _ => h.attached q (by rw [hpc]; rfl)) (fun _ => h.strand q (by rw [hpc]; nofun))
      (fun _ => ⟨rfl, by rw [hclean hpc]⟩) (fun _ _ => nofun) rfl rfl fun _ => id
  | markResult | markTouch =>
    cases hgo
    exact h.sleepOn hpc rfl _ fun _ hs => by
      unfold Seen at hs
      rw [ends_goto, if_pos rfl] at hs
      exact hs.elim
  | recheck m =>
    cases hgo
    exact h.recheck hpc
  | recheckAlive m =>
    cases hgo
    split
    · apply h.sleepOn hpc rfl
      intro _ hs
      unfold Seen at hs ⊢
      rw [ends_goto, if_pos rfl] at hs
      rw [hpc]
      cases q <;> exact hs
    · rename_i hdead
      exact h.recheckEnd hpc (.inl rfl) (.inl hdead)
  | recheckEver m =>
    cases hgo
    split
    · exact h.sleepOn hpc rfl _ nofun
    · rename_i hever
      exact h.recheckEnd hpc (.inr rfl) (.inr (by simpa using hever))
  | turnedIn m =>
    dsimp only at hgo
    split at hgo
    · cases hgo
      exact h.sleepOn hpc rfl _ nofun
    · cases hgo
  | takeDown =>
    cases hgo
    exact h.aside hpc _ rfl (fun _ => h.attached q (by rw [hpc]; rfl)) (fun _ => h.strand q (by rw [hpc]; nofun))
      nofun (fun _ _ => nofun) rfl rfl fun _ => id
  | unmapped made =>
    cases hgo
    exact h.unmapped hpc
  | survivorLoad made =>
    cases hgo
    apply h.load hpc (.inr rfl) (by split <;> exact nofun) (by split <;> rfl)
    intro p hp hbell hmade
    rw [hbell]
    simp [hp, hmade, Pc.WillRing]
  | survivorCas who made =>
    cases hgo
    split
    · rename_i hbell
      apply h.ring hpc (.inr rfl) hbell _ .gone
      · simp [q.ne_peer]
      · simp [q.ne_peer.symm]
      · cases q <;> exact id
      · exact nofun
      · rfl
      · exact fun p hp => hp.imp (mem_append_left _) id
      · exact .inl (.inl (mem_append_right _ (mem_singleton_self _)))
    · rename_i hbell
      exact h.casFails hpc (.inr rfl) hbell nofun rfl

theorem rings (h : Inv cap w) (w' : World) (hends : w'.ends = w.ends) (hhead : w'.head = w.head)
    (htail : w'.tail = w.tail) (hcoming : ∀ p, w.Asleep p → w.Coming p → w'.Coming p) : Inv cap w' where
  attached := by
    rw [hends]
    exact h.attached
  strand := by
    rw [hends]
    exact h.strand
  kept := fun r hr => by
    rw [hends] at hr ⊢
    have hk := h.kept r hr
    have hasleep : w.Asleep (w.ends r).strand := by
      cases r
      · exact .inl ⟨rfl, hr⟩
      · exact .inr ⟨rfl, hr⟩
    have hmove : w'.CanMove cap r → w.CanMove cap r := by
      cases r
      · exact fun hm => by
          unfold World.CanMove at hm ⊢
          rwa [hhead, htail] at hm
      · exact fun hm => by
          unfold World.CanMove at hm ⊢
          rwa [hhead, htail] at hm
    have hseen : Seen cap w' r → Seen cap w r := fun hs => hs.imp (by rw [hends]) hmove (by
      unfold World.Deserted
      rw [hends]
      exact .inr)
    refine ⟨hk.who, hk.strand, ?_⟩
    rcases hk.heard with hc | ⟨hrung, hs⟩ | ⟨made, ho, hs⟩
    · exact .inl (hcoming _ hasleep hc)
    · exact .inr (.inl ⟨hrung, fun hn => hs (hseen hn)⟩)
    · exact .inr (.inr ⟨made, ho, fun hn => hs (hseen hn)⟩)

theorem ofInbox (h : Inv cap w) (p : Nat) (f : Inbox → Inbox)
    (hf : w.Asleep p → (∃ s ∈ (w.inbox p).results, s.bell = true) → ∃ s ∈ (f (w.inbox p)).results, s.bell = true) :
    Inv cap (w.setInbox p f) := by
  apply h.rings (w.setInbox p f) rfl rfl rfl
  intro m hasleep hc
  refine hc.imp id fun hin => ?_
  unfold setInbox
  by_cases hm : m = p
  · subst hm
    simpa using hf hasleep hin
  · simpa [hm] using hin

theorem peer_asleep (ha : (w.ends q.peer).pc.asleep = true) : w.Asleep (w.ends q.peer).strand := by
  cases q
  · exact .inr ⟨rfl, ha⟩
  · exact .inl ⟨rfl, ha⟩

theorem submit (h : Inv cap w) {who : Nat} {made : Bool} (hpc : (w.ends q).pc = .submit who made) (ok : Bool)
    (hclean : ok = false → ¬w.Asleep who) :
    Inv cap (if ok then { w.goto q .idle with flying := w.flying ++ [who] } else w.goto q (.undo who made)) := by
  generalize hw : (if ok then { w.goto q .idle with flying := w.flying ++ [who] } else w.goto q (.undo who made)) = w'
  have hq : ∃ o', w'.ends q = { w.ends q with pc := o' } ∧ o'.attached = true ∧ o'.asleep = false := by
    subst hw
    split
    · exact ⟨.idle, by simp, rfl, rfl⟩
    · exact ⟨.undo who made, by simp, rfl, rfl⟩
  have hpeer : w'.ends q.peer = { w.ends q.peer with bell := (w.ends q.peer).bell } := by
    subst hw
    split <;> simp [q.ne_peer.symm]
  have hcoming : ∀ p, w.Coming p → w'.Coming p := fun p hp => by
    subst hw
    split
    · exact hp.imp (mem_append_left _) id
    · exact hp
  have hmove : w'.CanMove cap q.peer → w.CanMove cap q.peer := by
    subst hw
    split <;> cases q <;> exact id
  obtain ⟨o', hq, hattached, hasleep⟩ := hq
  refine h.movedTo hq hpeer (fun _ => by rw [hpc]; rfl) (by rw [hpc]; nofun) hasleep fun ha => ?_
  have hk := h.kept _ ha
  rw [Role.peer_peer, hpc] at hk
  refine ⟨hk.who, hk.strand, ?_⟩
  rcases hk.heard with hc | ⟨hrung, hseen⟩ | ⟨m, ho, -⟩
  · exact .inl (hcoming _ hc)
  · exact .inr (.inl ⟨hrung, fun hs => (hseen (hs.imp (by rw [hpeer]) hmove (deserted_before hq hpeer))).elim⟩)
  · cases ok with
    | true =>
      cases ho
      subst hw
      exact .inl (.inl (mem_append_right _ (mem_singleton_self _)))
    | false =>
      cases ho
      exact absurd (peer_asleep ha) (hclean rfl)

theorem kill (h : Inv cap w) (huser : (w.ends q).pc.inUser = true)
    (hclean : ∀ who made, (w.ends q).pc = .submit who made → ¬w.Asleep who) :
    Inv cap (w.goto q (.unmapped (w.ends q).pc.made)) := by
  have hgone : (w.ends q).pc ≠ .gone := fun hg => by
    rw [hg] at huser
    cases huser
  have hattached : (w.ends q).pc.attached = true := by
    revert huser
    generalize (w.ends q).pc = o
    cases o <;> simp [Pc.inUser, Pc.attached]
  have hq :
    (w.goto q (.unmapped (w.ends q).pc.made)).ends q = { w.ends q with pc := .unmapped (w.ends q).pc.made } := by simp
  have hpeer : (w.goto q (.unmapped (w.ends q).pc.made)).ends q.peer =
      { w.ends q.peer with bell := (w.ends q.peer).bell } := by simp [q.ne_peer.symm]
  refine h.movedTo hq hpeer (fun _ => hattached) hgone rfl fun ha => ?_
  have hk := h.kept _ ha
  rw [Role.peer_peer] at hk
  refine ⟨hk.who, hk.strand, ?_⟩
  rcases hk.heard with hc | ⟨hrung, hseen⟩ | ⟨m, ho, -⟩
  · exact .inl hc
  · refine .inr (.inl ⟨hrung, fun hs => ?_⟩)
    have hwill := hseen (hs.imp (by rw [hpeer]) (by cases q <;> exact id) (deserted_before hq hpeer))
    revert hwill
    generalize (w.ends q).pc = o
    cases o <;> simp +contextual [Pc.WillRing, Pc.made]
  · exact absurd (peer_asleep ha) (hclean _ _ ho)

theorem rollback (h : Inv cap w) (hpc : (w.ends q).pc = .linking)
    (hclean : (w.ends q.peer).pc.asleep = true → (w.ends q.peer).streaming = true ∨ w.CanMove cap q.peer) :
    Inv cap (w.setEnd q fun e => { e with alive := if e.alive = .alive then .dead else e.alive, pc := .gone }) := by
  refine h.alone hpc _ rfl nofun (fun hg => absurd rfl hg) nofun (fun _ _ => nofun)
    (fun ha hd => .inl ?_) fun _ => id
  rcases hclean ha with hstream | hmove
  · have := hd.1
    rw [ends_setEnd, if_neg q.ne_peer.symm, hstream] at this
    cases this
  · exact hmove

theorem step (h : Inv cap w) (hclean : Clean cap w ev) (hs : Step cap w ev w') : Inv cap w' := by
  unfold Step next at hs
  cases ev with
  | renew =>
    dsimp only at hs
    split at hs
    · cases hs
      exact { attached := nofun, strand := fun _ hg => absurd rfl hg, kept := nofun }
    · cases hs
  | attach r p streaming =>
    dsimp only at hs
    split at hs
    · rename_i hb
      cases hs
      refine h.alone hb.1 _ rfl (fun _ => rfl) (fun _ => hb.2.2) nofun (fun _ _ => nofun)
        (fun _ hd => ?_) fun _ => id
      have := hd.2.1
      rw [Role.peer_peer] at this
      simp only [ends_setEnd, if_pos] at this
      cases this
    · cases hs
  | link r ok =>
    dsimp only at hs
    split at hs
    · rename_i hpc
      cases ok with
      | true =>
        cases hs
        exact h.plain hpc rfl (fun _ _ => nofun) (fun _ => id) rfl
      | false =>
        cases hs
        exact h.rollback hpc (hclean rfl)
    · cases hs
  | call r p =>
    dsimp only at hs
    split at hs
    · rename_i hb
      cases hs
      exact h.aside hb.1 _ rfl (fun _ => h.attached r (by rw [hb.1]; rfl)) (fun _ => hb.2) nofun
        (fun _ _ => nofun) rfl rfl fun _ => id
    · cases hs
  | go r => exact h.go hclean hs
  | wait r how =>
    dsimp only at hs
    split at hs
    · rename_i hpc
      cases hs
      exact h.plain hpc rfl (fun _ _ => nofun) (fun _ => id) (by cases how <;> rfl)
    · cases hs
  | submit r ok =>
    dsimp only at hs
    split at hs
    · rename_i who made hpc
      cases hs
      exact h.submit hpc ok fun hok => hclean hok who made hpc
    · cases hs
  | release r =>
    dsimp only at hs
    split at hs
    · rename_i hpc
      cases hs
      exact h.aside hpc _ rfl (fun _ => h.attached r (by rw [hpc]; rfl)) (fun _ => h.strand r (by rw [hpc]; nofun))
        nofun (fun _ _ => nofun) rfl rfl fun _ => id
    · cases hs
  | kill r =>
    dsimp only at hs
    split at hs
    · rename_i huser
      cases hs
      exact h.kill huser hclean
    · cases hs
  | deliver k =>
    obtain ⟨who, hwho, hw⟩ := Option.map_eq_some_iff.mp hs
    cases hw
    refine h.rings { w.setInbox who fun i =>
      { i with resultTail := i.resultTail + 1, results := i.results ++ [⟨true, false⟩] } with
      flying := w.flying.eraseIdx k } rfl rfl rfl fun p _ hc => ?_
    unfold World.Coming setInbox
    by_cases hp : p = who
    · right
      exact ⟨⟨true, false⟩, by simp [hp], rfl⟩
    rcases hc with hf | hin
    · exact .inl (mem_eraseIdx_of_ne hf hwho hp)
    · right
      simpa [hp] using hin
  | lose k =>
    obtain ⟨who, hwho, hw⟩ := Option.map_eq_some_iff.mp hs
    cases hw
    refine h.rings { w with flying := w.flying.eraseIdx k } rfl rfl rfl fun p hasleep hc => ?_
    rcases hc with hf | hin
    · have hne : p ≠ who := fun he => hclean who hwho (he ▸ hasleep)
      exact .inl (mem_eraseIdx_of_ne hf hwho hne)
    · exact .inr hin
  | result p =>
    cases hs
    exact h.ofInbox p _ fun _ ⟨s, hs, hb⟩ => ⟨s, mem_append_left _ hs, hb⟩
  | touch p | publishTouch p =>
    cases hs
    exact h.ofInbox p _ fun _ hin => hin
  | publish p i =>
    cases hs
    refine h.ofInbox p _ fun _ ⟨s, hs, hb⟩ => ?_
    obtain ⟨j, hj⟩ := mem_iff_getElem?.mp hs
    refine ⟨if i = j then { s with published := true } else s, mem_iff_getElem?.mpr ⟨j, ?_⟩, by split <;> exact hb⟩
    rw [getElem?_modify, hj]
    rfl
  | consume p =>
    dsimp only at hs
    split at hs
    · cases hs
    rename_i hawake
    split at hs
    · cases hs
      exact h.ofInbox p _ fun hasleep => absurd hasleep hawake
    · cases hs
  | consumeTouch p =>
    dsimp only at hs
    split at hs
    · cases hs
    split at hs
    · cases hs
      exact h.ofInbox p _ fun _ hin => hin
    · cases hs

end Inv

/-! ## Every run -/

theorem inv_init (cap : UInt32) : Inv cap init where
  attached := nofun
  strand := fun _ hg => absurd rfl hg
  kept := nofun

/-- No strand is turned in while it could go on, unless the operation that made it so has not returned or its bell
comes. -/
def NoneForgotten (cap : UInt32) (w : World) : Prop :=
  ∀ r m, (w.ends r).pc = .turnedIn m → w.Ready cap r → w.Coming (w.ends r).strand ∨ (w.ends r.peer).pc.made = true

/-- **Brook never sleeps through a wake-up** in a run whose steps are clean. -/
theorem brook_wakes {es : List Event} (run : Run (Step cap) (Clean cap) init es w) : NoneForgotten cap w := by
  have h : Inv cap w := run.invariant (fun s e t hc hs h => Inv.step h hc hs) (inv_init cap)
  intro r m hpc hready
  have hk := h.kept r (by rw [hpc]; rfl)
  have hseen : Seen cap w r := by
    unfold Seen
    rw [hpc]
    exact hready
  rcases hk.heard with hc | ⟨-, hs⟩ | ⟨made, ho, hs⟩
  · exact .inl hc
  · refine .inr ?_
    have hwill := hs hseen
    revert hwill
    generalize (w.ends r.peer).pc = o
    cases o <;> simp +contextual [Pc.WillRing, Pc.made]
  · rw [ho]
    exact .inr (hs hseen)

instance decidableSubmit (w : World) : (o : Pc) → Decidable (∀ who made, o = .submit who made → ¬w.Asleep who)
  | .submit who made => decidable_of_iff (¬w.Asleep who) ⟨fun h _ _ he => by cases he; exact h, fun h => h who made rfl⟩
  | .gone | .attaching | .linking | .idle | .look | .publish | .ringLoad _ | .ringCas _ _ | .undo _ _ | .checkAlive
  | .checkEver | .freeze | .wait | .hang | .markResult | .markTouch _ | .recheck _ | .recheckAlive _ | .recheckEver _
  | .turnedIn _ | .takeDown | .unmapped _ | .survivorLoad _ | .survivorCas _ _ => .isTrue nofun

instance (cap : UInt32) (w : World) : (ev : Event) → Decidable (Clean cap w ev)
  | .go r => inferInstanceAs (Decidable ((w.ends r).pc = .hang → (w.ends r).strand = (w.ends r).selfPid))
  | .submit r ok =>
    inferInstanceAs (Decidable (ok = false → ∀ who made, (w.ends r).pc = .submit who made → ¬w.Asleep who))
  | .kill r => decidableSubmit w (w.ends r).pc
  | .lose k => inferInstanceAs (Decidable (∀ who ∈ w.flying[k]?, ¬w.Asleep who))
  | .link r ok => inferInstanceAs (Decidable (ok = false → (w.ends r.peer).pc.asleep = true →
      (w.ends r.peer).streaming = true ∨ w.CanMove cap r.peer))
  | .renew | .attach _ _ _ | .call _ _ | .wait _ _ | .release _ | .deliver _ | .result _ | .touch _ | .publish _ _
  | .publishTouch _ _ | .consume _ | .consumeTouch _ => inferInstanceAs (Decidable True)

/-- Strand 1 opens the writer's end, strand 2 the reader's. -/
def opened : List Event :=
  [.attach .writer 1 false, .go .writer, .link .writer true, .attach .reader 2 false, .go .reader, .link .reader true]

/-- A strand pops, finds nothing and sleeps. -/
def sleeps (p : Nat) : List Event :=
  .call .reader p :: replicate 2 (.go .reader) ++ .wait .reader .block :: replicate 5 (.go .reader)

/-- The writer pushes a frame and rings. -/
def pushes : List Event := .call .writer 1 :: replicate 4 (.go .writer) ++ [.submit .writer true]

/-- The strand that opened the reader's end sleeps, and its bell comes. -/
theorem brook_wakes_opener : ∃ w, Run (Step 2) (Clean 2) init (opened ++ sleeps 2 ++ pushes ++ [.deliver 0]) w ∧
    (w.ends .reader).pc = .turnedIn ⟨0, 0⟩ ∧ w.Ready 2 .reader ∧ w.flying = [] ∧ NoneForgotten 2 w := by
  obtain ⟨w, run, hpc, hready, hnone⟩ : ∃ w,
      Run (Step 2) (Clean 2) init (opened ++ sleeps 2 ++ pushes ++ [.deliver 0]) w ∧
      (w.ends .reader).pc = .turnedIn ⟨0, 0⟩ ∧ w.Ready 2 .reader ∧ w.flying = [] :=
    run_reaches (fun h => h) (by decide +kernel)
  exact ⟨w, run, hpc, hready, hnone, brook_wakes run⟩

/-- Another strand sleeps: it is the opener that gets the bell. -/
theorem brook_forgets : ∃ w, Run (Step 2) (fun _ _ => True) init (opened ++ sleeps 3 ++ pushes ++ [.deliver 0]) w ∧
    (w.ends .reader).strand = 3 ∧ (w.ends .writer).pc = .idle ∧ ¬NoneForgotten 2 w := by
  obtain ⟨w, run, hstrand, hidle, hpc, hready, hnone, hempty⟩ : ∃ w, Run (Step 2) (fun _ _ => True) init
      (opened ++ sleeps 3 ++ pushes ++ [.deliver 0]) w ∧ (w.ends .reader).strand = 3 ∧ (w.ends .writer).pc = .idle ∧
        (w.ends .reader).pc = .turnedIn ⟨0, 0⟩ ∧ w.Ready 2 .reader ∧ w.flying = [] ∧ (w.inbox 3).results = [] :=
    run_reaches (fun h => h) (by decide +kernel)
  refine ⟨w, run, hstrand, hidle, fun h => ?_⟩
  rcases h .reader _ hpc hready with (hf | ⟨s, hs, -⟩) | hmade
  · rw [hnone] at hf
    cases hf
  · rw [hstrand, hempty] at hs
    cases hs
  · rw [show Role.reader.peer = .writer from rfl, hidle] at hmade
    cases hmade

end BoxOS.Brook.Sleep
