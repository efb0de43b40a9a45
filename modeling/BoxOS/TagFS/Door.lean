import Mathlib.Data.Fintype.BigOperators
import Mathlib.Algebra.GroupWithZero.Nat

/-! # The volume door

Callers of the volume count themselves in and out (`tagfs_enter`, `tagfs_leave`) while one attending thread takes
the volume down and mounts it again (`tagfs_abandon`, `tagfs_init`). Every atomic access of the source is one step
of one thread, and a run is any interleaving of such steps. -/

namespace BoxOS.TagFS

open List

inductive VolumeDoor where
  | down
  | up
  | leaving
  deriving DecidableEq, Repr

/-- The globals of the protocol; `inside` is the `uint32_t` counter `g_inside`. -/
structure DoorShared where
  door : VolumeDoor := .down
  inside : UInt32 := 0
  abandonPending : Bool := false
  mountOwed : Bool := false
  attending : Bool := false
  initialized : Bool := false
  bootMountSettled : Bool := false
  deriving DecidableEq, Repr

/-- Where a thread stands in `tagfs_enter`: outside of it, before the load of the door, or before taking its count
back. -/
inductive Enter where
  | idle
  | checking
  | refused
  deriving DecidableEq, Repr

/-- Who called `tagfs_abandon`: `TagFSServiceIfPending` or `TagFSVolumeReturned`. -/
inductive Abandoner where
  | service
  | returned
  deriving DecidableEq, Repr

/-- Who holds the attendance: `tagfs_ask_for_the_mount_again`, `TagFSServiceIfPending` or `TagFSAttendArrival`. -/
inductive Attender where
  | ask
  | service
  | arrival
  deriving DecidableEq, Repr

/-- The points between `attending_take` returning true and `attending_done`, named by the access that comes next. -/
inductive Attended where
  | abandon (k : Abandoner)
  | exchangeDoor (k : Abandoner)
  | setPending (k : Abandoner)
  | loadInside (k : Abandoner)
  | clearTheGround (k : Abandoner)
  | doorDown (k : Abandoner)
  | clearPending (k : Abandoner)
  | arrival
  | volumeReturned
  | init
  | mount
  | doorUp
  | settled
  | owed
  | done
  deriving DecidableEq, Repr

/-- A thread's point in the service of the volume, named by the access that comes next. -/
inductive Attend where
  | away
  | askInitialized
  | askDue
  | askTries
  | askTake
  | servicePending
  | serviceInside
  | serviceTake
  | arrivalTake
  | attended (who : Attender) (r : Attended)
  deriving DecidableEq, Repr

open Attend

/-- One thread: the `tagfs_enter` calls that succeeded and have not left, the one under way, and its service. -/
structure DoorLocal where
  held : Nat := 0
  enter : Enter := .idle
  attend : Attend := .away
  deriving DecidableEq, Repr

open DoorLocal

/-- `tagfs_abandon` returned `ok` to its caller. -/
def abandonReturned (ok : Bool) : Abandoner → Attended
  | .service => if ok then .arrival else .done
  | .returned => if ok then .init else .done

/-- One access inside the attendance. The choice `c` stands for what the medium answers: whether the volume is back,
whether it mounts, whether its seat is still known. -/
def attendedStep (c : Bool) (g : DoorShared) : Attended → DoorShared × Attended
  | .abandon k => (g, if g.initialized then .exchangeDoor k else abandonReturned true k)
  | .exchangeDoor k => ({ g with door := .leaving }, if g.door = .up then .setPending k else .loadInside k)
  | .setPending k => ({ g with abandonPending := true }, .loadInside k)
  | .loadInside k => (g, if g.inside = 0 then .clearTheGround k else abandonReturned false k)
  | .clearTheGround k => ({ g with initialized := false }, .doorDown k)
  | .doorDown k => ({ g with door := .down }, .clearPending k)
  | .clearPending k => ({ g with abandonPending := false }, abandonReturned true k)
  | .arrival => (g, if g.initialized then .volumeReturned else .init)
  | .volumeReturned => (g, if c then .abandon .returned else .done)
  | .init => (g, if g.initialized then .owed else .mount)
  | .mount => if c then ({ g with initialized := true }, .doorUp) else (g, .owed)
  | .doorUp => ({ g with door := .up }, .settled)
  | .settled => ({ g with mountOwed := false }, .done)
  | .owed => ({ g with mountOwed := c || g.mountOwed }, .done)
  | .done => (g, .done)

variable (g : DoorShared)

/-- `attending_take`: the exchange, and where the thread goes when it was the first. -/
def attendingTake (who : Attender) (first : Attended) (missed : Attend) : DoorShared × Attend :=
  ({ g with attending := true }, if g.attending then missed else .attended who first)

/-- One access of a thread that serves the volume. At `askDue` and `askTries` the choice stands for the clock and for
the attempts left. -/
def attendStep (c : Bool) (g : DoorShared) : Attend → DoorShared × Attend
  | .away => (g, .away)
  | .askInitialized => if g.initialized then ({ g with mountOwed := false }, .servicePending) else (g, .askDue)
  | .askDue => (g, if c then .askTries else .servicePending)
  | .askTries => if c then (g, .askTake) else ({ g with mountOwed := false }, .servicePending)
  | .askTake => attendingTake g .ask .arrival .servicePending
  | .servicePending => (g, if g.abandonPending then .serviceInside else .away)
  | .serviceInside => (g, if g.inside = 0 then .serviceTake else .away)
  | .serviceTake => attendingTake g .service (.abandon .service) .away
  | .arrivalTake => attendingTake g .arrival .arrival .away
  | .attended .ask .done => ({ g with attending := false }, .servicePending)
  | .attended _ .done => ({ g with attending := false }, .away)
  | .attended who r => ((attendedStep c g r).1, .attended who (attendedStep c g r).2)

/-- One access of `tagfs_enter`: count in, look at the door, count out again when it is not up. -/
def enterStep (l : DoorLocal) : DoorShared × DoorLocal :=
  match l.enter with
  | .idle => ({ g with inside := g.inside + 1 }, { l with enter := .checking })
  | .checking =>
    (g, if g.door = .up then { l with enter := .idle, held := l.held + 1 } else { l with enter := .refused })
  | .refused => ({ g with inside := g.inside - 1 }, { l with enter := .idle })

/-- The moves of a thread. `enter` and `attend` go on with a call under way; `leave`, `service`, `attendArrival` and
`shutdown` begin one. -/
inductive DoorMove where
  | enter
  | leave
  | service
  | attendArrival
  | attend (c : Bool)
  | shutdown
  deriving DecidableEq, Repr

/-- One step of a thread; a move that is not possible where the thread stands does nothing. -/
def threadStep (l : DoorLocal) : DoorMove → DoorShared × DoorLocal
  | .enter => enterStep g l
  | .leave =>
    if l.enter = .idle ∧ 0 < l.held then ({ g with inside := g.inside - 1 }, { l with held := l.held - 1 }) else (g, l)
  | .service =>
    if l.attend = .away then (g, { l with attend := if g.mountOwed then .askInitialized else .servicePending })
    else (g, l)
  | .attendArrival =>
    if l.attend = .away then (g, { l with attend := if g.bootMountSettled then .arrivalTake else .away }) else (g, l)
  | .attend c => ((attendStep c g l.attend).1, { l with attend := (attendStep c g l.attend).2 })
  | .shutdown => if g.initialized then ({ g with door := .leaving }, l) else (g, l)

/-- `storage_deck_init`: the first `tagfs_init`, made without the attendance, and `TagFSBootMountSettled`. -/
inductive DoorBoot where
  | init
  | mount
  | doorUp
  | settle
  | done
  deriving DecidableEq, Repr

def bootStep (c : Bool) (g : DoorShared) : DoorBoot → DoorShared × DoorBoot
  | .init => (g, if g.initialized then .settle else .mount)
  | .mount => if c then ({ g with initialized := true }, .doorUp) else (g, .settle)
  | .doorUp => ({ g with door := .up }, .settle)
  | .settle => ({ g with bootMountSettled := true }, .done)
  | .done => (g, .done)

structure DoorState (T : Type) where
  shared : DoorShared := {}
  boot : DoorBoot := .init
  locals : T → DoorLocal := fun _ => {}

open DoorState

inductive DoorEvent (T : Type) where
  | thread (t : T) (m : DoorMove)
  | boot (c : Bool)

variable {T : Type}

def DoorState.step [DecidableEq T] (s : DoorState T) : DoorEvent T → DoorState T
  | .thread t m =>
    { s with
      shared := (threadStep s.shared (s.locals t) m).1
      locals := Function.update s.locals t (threadStep s.shared (s.locals t) m).2 }
  | .boot c => { s with shared := (bootStep c s.shared s.boot).1, boot := (bootStep c s.shared s.boot).2 }

/-- The state after the events `es` of a machine that has just started. -/
def DoorState.run [DecidableEq T] (es : List (DoorEvent T)) : DoorState T :=
  es.foldl step {}

/-! ## What the protocol promises -/

/-- The thread has taken the attendance and not given it back. -/
def DoorLocal.Attending (l : DoorLocal) : Prop :=
  ∃ who r, l.attend = .attended who r

/-- `tagfs_abandon` runs `tagfs_clear_the_ground`. -/
def DoorLocal.Clearing (l : DoorLocal) : Prop :=
  ∃ who k, l.attend = .attended who (.clearTheGround k)

/-- The increments of `g_inside` by this thread that it has not taken back. -/
def DoorLocal.counted (l : DoorLocal) : Nat :=
  l.held + if l.enter = .idle then 0 else 1

def DoorState.inFlight [Fintype T] (s : DoorState T) : Nat :=
  ∑ t, (s.locals t).counted

/-- The ground is cleared with nobody inside, the counter counts the callers, and one thread at most attends. -/
structure DoorState.Kept [Fintype T] (s : DoorState T) : Prop where
  cleared : ∀ t, (s.locals t).Clearing → ∀ u, (s.locals u).held = 0
  counts : s.shared.inside.toNat = s.inFlight
  alone : ∀ t u, (s.locals t).Attending → (s.locals u).Attending → t = u

/-! ## What one step of a thread does -/

/-- The points of `tagfs_abandon` between the exchange of the door and the store of `VOLUME_DOWN`. -/
def Attended.closing : Attended → Bool
  | .setPending _ => true
  | .loadInside _ => true
  | .clearTheGround _ => true
  | .doorDown _ => true
  | _ => false

def Attended.clearing : Attended → Bool
  | .clearTheGround _ => true
  | _ => false

/-- The points a thread can reach while nothing is pending, owed or settled. -/
def Attend.early : Attend → Bool
  | .away => true
  | .servicePending => true
  | _ => false

def Attend.attending : Attend → Bool
  | .attended _ _ => true
  | _ => false

def Attend.closing : Attend → Bool
  | .attended _ r => r.closing
  | _ => false

def Attend.clearing : Attend → Bool
  | .attended _ r => r.clearing
  | _ => false

variable {l : DoorLocal} {s : DoorState T}

theorem attending_iff : l.Attending ↔ l.attend.attending = true := by
  constructor
  · rintro ⟨who, r, h⟩
    rw [h]
    rfl
  · intro h
    cases hl : l.attend <;> rw [hl] at h
    case attended who r => exact ⟨who, r, hl⟩
    all_goals cases h

theorem clearing_iff : l.Clearing ↔ l.attend.clearing = true := by
  constructor
  · rintro ⟨who, k, h⟩
    rw [h]
    rfl
  · intro h
    cases hl : l.attend <;> rw [hl] at h
    case attended who r =>
      cases r
      case clearTheGround k => exact ⟨who, k, hl⟩
      all_goals cases h
    all_goals cases h

theorem Attend.attending_of_closing {a : Attend} (h : a.closing = true) : a.attending = true := by
  cases a <;> first | rfl | exact nomatch h

theorem Attend.closing_of_clearing {a : Attend} (h : a.clearing = true) : a.closing = true := by
  cases a
  case attended who r => cases r <;> first | rfl | exact nomatch h
  all_goals cases h

/-- What a step of a thread can do: every invariant of a run follows from these. -/
structure ThreadEffect (g : DoorShared) (l : DoorLocal) (g' : DoorShared) (l' : DoorLocal) : Prop where
  counted : g'.inside + .ofNat l.counted = g.inside + .ofNat l'.counted
  held : l'.held ≤ l.held ∨ g.door = .up
  settled : g'.bootMountSettled = g.bootMountSettled
  takes : l.attend.attending = false → l'.attend.attending = true → g.attending = false ∧ g'.attending = true
  keeps : l.attend.attending = l'.attend.attending → g'.attending = g.attending
  opens : g'.door = .up → g.door = .up ∨ l.attend.attending = true
  closes : l'.attend.closing = true → (l.attend.closing = true → g.door ≠ .up) → g'.door ≠ .up
  clears : l'.attend.clearing = true → l.attend.clearing = true ∨ l.attend.closing = true ∧ g.inside = 0
  early : l.attend.early = true → g.abandonPending = false → g.mountOwed = false → g.bootMountSettled = false →
    l'.attend.early = true ∧ g'.abandonPending = false ∧ g'.mountOwed = false

theorem ThreadEffect.nothing (l : DoorLocal) : ThreadEffect g l g l :=
  ⟨rfl, .inl le_rfl, rfl, fun h h' => by simp [h] at h', fun _ => rfl, .inl, fun h h' => h' h, .inl,
    fun h hp ho _ => ⟨h, hp, ho⟩⟩

theorem enterStep_effect (l : DoorLocal) : ThreadEffect g l (enterStep g l).1 (enterStep g l).2 := by
  have h0 := ThreadEffect.nothing g l
  unfold enterStep
  cases hl : l.enter
  case idle =>
    refine { h0 with counted := ?_ }
    simp only [counted, hl, if_true, reduceCtorEq, if_false, UInt32.ofNat_add]
    grind
  case checking =>
    by_cases hd : g.door = .up
    · simp only [hd, if_true]
      refine { h0 with counted := ?_, held := .inr hd }
      simp only [counted, hl, if_true, reduceCtorEq, if_false, Nat.add_zero]
    · simp only [hd, if_false]
      refine { h0 with counted := ?_ }
      simp only [counted, hl, reduceCtorEq, if_false]
  case refused =>
    refine { h0 with counted := ?_ }
    simp only [counted, hl, if_true, reduceCtorEq, if_false, UInt32.ofNat_add]
    grind

theorem leave_effect {g : DoorShared} (hheld : 0 < l.held) :
    ThreadEffect g l { g with inside := g.inside - 1 } { l with held := l.held - 1 } := by
  have h0 := ThreadEffect.nothing g l
  refine { h0 with counted := ?_, held := .inl (Nat.sub_le _ _) }
  obtain ⟨n, hn⟩ : ∃ n, l.held = n + 1 := ⟨l.held - 1, by omega⟩
  simp only [counted, hn, Nat.add_sub_cancel, UInt32.ofNat_add]
  grind

theorem attendedStep_marks (c : Bool) (g : DoorShared) (r : Attended) : (attendedStep c g r).1.inside = g.inside ∧
    (attendedStep c g r).1.bootMountSettled = g.bootMountSettled ∧ (attendedStep c g r).1.attending = g.attending ∧
    ((attendedStep c g r).2.closing = true → (r.closing = true → g.door ≠ .up) → (attendedStep c g r).1.door ≠ .up) ∧
    ((attendedStep c g r).2.clearing = true → r.closing = true ∧ g.inside = 0) := by
  cases r
  case abandon k | loadInside k =>
    cases k <;> simp only [attendedStep, abandonReturned] <;> split <;>
      simp [Attended.closing, Attended.clearing, *]
  case clearPending k => cases k <;> simp [attendedStep, abandonReturned, Attended.closing, Attended.clearing]
  all_goals
    simp only [attendedStep]
    (try split) <;> simp [Attended.closing, Attended.clearing]

theorem attendStep_attended_done (c : Bool) (g : DoorShared) (who : Attender) :
    (attendStep c g (.attended who .done)).1 = { g with attending := false } ∧
      (attendStep c g (.attended who .done)).2.attending = false ∧
      (attendStep c g (.attended who .done)).2.closing = false ∧
      (attendStep c g (.attended who .done)).2.clearing = false := by
  cases who <;> exact ⟨rfl, rfl, rfl, rfl⟩

theorem attendStep_attended {r : Attended} (c : Bool) (g : DoorShared) (who : Attender) (h : r ≠ .done) :
    attendStep c g (.attended who r) = ((attendedStep c g r).1, .attended who (attendedStep c g r).2) := by
  cases r
  case done => exact absurd rfl h
  all_goals cases who <;> rfl

theorem attendStep_effect (c : Bool) (g : DoorShared) (l : DoorLocal) :
    ThreadEffect g l (attendStep c g l.attend).1 { l with attend := (attendStep c g l.attend).2 } := by
  cases hl : l.attend
  case attended who r =>
    by_cases hr : r = .done
    · obtain ⟨hg, ha, hclose, hclear⟩ := attendStep_attended_done c g who
      rw [hr, hg]
      refine ⟨rfl, .inl le_rfl, rfl, ?_, ?_, .inl, ?_, ?_, ?_⟩ <;> intro h <;>
        simp_all [attending, early]
    obtain ⟨hin, hs, hatt, hclose, hclear⟩ := attendedStep_marks c g r
    rw [attendStep_attended c g who hr]
    refine ⟨congrArg (· + .ofNat l.counted) hin, .inl le_rfl, hs, ?_, fun _ => hatt, ?_, ?_, ?_, ?_⟩
    all_goals simp_all [attending, closing, clearing, early]
  case askInitialized | askDue | askTries | away | servicePending | serviceInside =>
    simp only [attendStep]
    (try split) <;> constructor <;>
      simp_all [attending, closing, clearing, early, counted]
  case askTake | serviceTake | arrivalTake =>
    simp only [attendStep, attendingTake]
    split <;> constructor <;>
      simp_all [attending, closing, clearing, early, counted, Attended.closing,
        Attended.clearing]

theorem threadStep_effect (l : DoorLocal) (m : DoorMove) :
    ThreadEffect g l (threadStep g l m).1 (threadStep g l m).2 := by
  have h0 := ThreadEffect.nothing g l
  cases m
  case enter => exact enterStep_effect g l
  case leave =>
    simp only [threadStep]
    split
    · exact leave_effect (by tauto)
    · exact h0
  case service =>
    simp only [threadStep]
    split
    · rename_i hl
      cases ho : g.mountOwed <;> constructor <;>
        simp_all [attending, closing, clearing, early, counted]
    · exact h0
  case attendArrival =>
    simp only [threadStep]
    split
    · rename_i hl
      cases ho : g.bootMountSettled <;> constructor <;>
        simp_all [attending, closing, clearing, early, counted]
    · exact h0
  case attend c => exact attendStep_effect c g l
  case shutdown =>
    simp only [threadStep]
    split
    · exact { h0 with
        opens := nofun
        closes := fun _ _ h => (nomatch h) }
    · exact h0

/-! ## Every run -/

variable [Fintype T]

/-- Before the boot mount is settled nothing is pending or owed, so nobody can take the attendance. -/
structure DoorState.Booting (s : DoorState T) : Prop where
  settled : s.shared.bootMountSettled = false
  pending : s.shared.abandonPending = false
  owed : s.shared.mountOwed = false
  early : ∀ t, (s.locals t).attend.early = true

structure DoorState.Inv (s : DoorState T) : Prop where
  counts : s.shared.inside = .ofNat s.inFlight
  taken : ∀ t, (s.locals t).attend.attending = true → s.shared.attending = true
  alone : ∀ t u, (s.locals t).attend.attending = true → (s.locals u).attend.attending = true → t = u
  closed : ∀ t, (s.locals t).attend.closing = true → s.shared.door ≠ .up
  cleared : ∀ t, (s.locals t).attend.clearing = true → ∀ u, (s.locals u).held = 0
  booting : s.boot ≠ .done → s.Booting

theorem DoorState.inv_start : ({} : DoorState T).Inv := by
  refine ⟨?_, fun _ h => (nomatch h), fun _ _ h => (nomatch h), fun _ h => (nomatch h), fun _ h => (nomatch h),
    fun _ => ⟨rfl, rfl, rfl, fun _ => rfl⟩⟩
  simp [inFlight, counted]

theorem DoorState.inFlight_update [DecidableEq T] (s : DoorState T) (t : T) (l : DoorLocal) (g : DoorShared) :
    inFlight { s with shared := g, locals := Function.update s.locals t l } + (s.locals t).counted =
      s.inFlight + l.counted := by
  have hrest : ∑ u ∈ Finset.univ.erase t, (Function.update s.locals t l u).counted =
      ∑ u ∈ Finset.univ.erase t, (s.locals u).counted := by
    refine Finset.sum_congr rfl fun u hu => ?_
    rw [Function.update_of_ne (Finset.ne_of_mem_erase hu)]
  simp only [inFlight]
  rw [← Finset.add_sum_erase Finset.univ _ (Finset.mem_univ t), hrest,
    ← Finset.add_sum_erase Finset.univ (fun u => (s.locals u).counted) (Finset.mem_univ t), Function.update_self]
  omega

theorem DoorState.Inv.nobody (h : s.Inv) (hlt : s.inFlight < 2 ^ 32)
    (h0 : s.shared.inside = 0) (u : T) : (s.locals u).held = 0 := by
  have hsum : s.inFlight = 0 := by
    have hn := congrArg UInt32.toNat (h.counts.symm.trans h0)
    rw [UInt32.toNat_ofNat_of_lt' hlt] at hn
    exact hn
  have hu := Finset.sum_eq_zero_iff.mp hsum u (Finset.mem_univ u)
  exact (Nat.add_eq_zero_iff.mp hu).1

variable [DecidableEq T]

theorem DoorState.step_thread (s : DoorState T) (t : T) (m : DoorMove) :
    ThreadEffect s.shared (s.locals t) (s.step (.thread t m)).shared ((s.step (.thread t m)).locals t) ∧
    (∀ u, u ≠ t → (s.step (.thread t m)).locals u = s.locals u) ∧
    (s.step (.thread t m)).inFlight + (s.locals t).counted =
      s.inFlight + ((s.step (.thread t m)).locals t).counted := by
  have hself : (s.step (.thread t m)).locals t = (threadStep s.shared (s.locals t) m).2 := Function.update_self ..
  refine ⟨?_, fun u hu => Function.update_of_ne hu .., ?_⟩
  · rw [hself]
    exact threadStep_effect s.shared (s.locals t) m
  · rw [hself]
    exact s.inFlight_update t _ _

theorem DoorState.Inv.thread (h : s.Inv) (hlt : s.inFlight < 2 ^ 32) (t : T) (m : DoorMove) :
    (s.step (.thread t m)).Inv := by
  obtain ⟨he, hother, hcount⟩ := s.step_thread t m
  have hboot : (s.step (.thread t m)).boot = s.boot := rfl
  generalize s.step (.thread t m) = s' at he hother hcount hboot
  -- another thread that attends keeps the attendance taken, and so this one does not get it
  have hfree : ∀ u, u ≠ t → (s.locals u).attend.attending = true →
      (s.locals t).attend.attending = false ∧ (s'.locals t).attend.attending = false := by
    intro u hu hatt
    have ht : (s.locals t).attend.attending = false := by
      by_contra hne
      exact hu (h.alone u t hatt (by simpa using hne))
    refine ⟨ht, ?_⟩
    by_contra hne
    have hfalse := (he.takes ht (by simpa using hne)).1
    rw [h.taken u hatt] at hfalse
    cases hfalse
  refine ⟨?_, ?_, ?_, ?_, ?_, ?_⟩
  · have hsum := congrArg UInt32.ofNat hcount
    rw [UInt32.ofNat_add, UInt32.ofNat_add, ← h.counts, ← he.counted] at hsum
    exact (UInt32.add_left_inj _).mp hsum.symm
  · intro u hu
    by_cases hut : u = t
    · rw [hut] at hu
      cases ht : (s.locals t).attend.attending
      · exact (he.takes ht hu).2
      · rw [he.keeps (ht.trans hu.symm)]
        exact h.taken t ht
    rw [hother u hut] at hu
    obtain ⟨ht, hl⟩ := hfree u hut hu
    rw [he.keeps (ht.trans hl.symm)]
    exact h.taken u hu
  · intro u v hu hv
    by_cases hut : u = t <;> by_cases hvt : v = t
    · rw [hut, hvt]
    · rw [hut] at hu
      rw [hother v hvt] at hv
      cases (hfree v hvt hv).2.symm.trans hu
    · rw [hvt] at hv
      rw [hother u hut] at hu
      cases (hfree u hut hu).2.symm.trans hv
    · rw [hother u hut] at hu
      rw [hother v hvt] at hv
      exact h.alone u v hu hv
  · intro u hu
    by_cases hut : u = t
    · rw [hut] at hu
      exact he.closes hu (h.closed t)
    rw [hother u hut] at hu
    intro hup
    -- only the attending thread puts the door up, and `u` attends
    rcases he.opens hup with hold | hatt
    · exact h.closed u hu hold
    · exact hut (h.alone u t (attending_of_closing hu) hatt)
  · intro u hu v
    have hnone : s.shared.door ≠ .up ∧ ∀ w, (s.locals w).held = 0 := by
      by_cases hut : u = t
      · rw [hut] at hu
        rcases he.clears hu with hclear | ⟨hclose, hzero⟩
        · exact ⟨h.closed t (closing_of_clearing hclear), h.cleared t hclear⟩
        · exact ⟨h.closed t hclose, h.nobody hlt hzero⟩
      · rw [hother u hut] at hu
        exact ⟨h.closed u (closing_of_clearing hu), h.cleared u hu⟩
    by_cases hvt : v = t
    · rw [hvt]
      rcases he.held with hle | hup
      · have hzero := hnone.2 t
        omega
      · exact absurd hup hnone.1
    · rw [hother v hvt]
      exact hnone.2 v
  · intro hb
    obtain ⟨hset, hpend, howed, hearly⟩ := h.booting (hboot ▸ hb)
    obtain ⟨hl, hp, ho⟩ := he.early (hearly t) hpend howed hset
    refine ⟨he.settled.trans hset, hp, ho, fun u => ?_⟩
    by_cases hut : u = t
    · rw [hut]
      exact hl
    · rw [hother u hut]
      exact hearly u

theorem bootStep_effect (c : Bool) (g : DoorShared) (b : DoorBoot) : (bootStep c g b).1.inside = g.inside ∧
    (bootStep c g b).1.abandonPending = g.abandonPending ∧ (bootStep c g b).1.mountOwed = g.mountOwed ∧
    (bootStep c g b).1.attending = g.attending ∧ (b = .done → (bootStep c g b).1 = g ∧ (bootStep c g b).2 = .done) ∧
    ((bootStep c g b).2 ≠ .done → (bootStep c g b).1.bootMountSettled = g.bootMountSettled) := by
  cases b <;> simp only [bootStep] <;> (try split) <;> simp

theorem DoorState.Inv.boot (h : s.Inv) (c : Bool) : (s.step (.boot c)).Inv := by
  obtain ⟨hin, hp, ho, hatt, hdone, hset⟩ := bootStep_effect c s.shared s.boot
  by_cases hb : s.boot = .done
  · have hs : s.step (.boot c) = s := by
      simp only [step, hdone hb]
      rw [← hb]
    rw [hs]
    exact h
  have hboot := h.booting hb
  have hnot : ∀ t, (s.locals t).attend.attending = false := by
    intro t
    have he := hboot.early t
    cases hl : (s.locals t).attend <;> rw [hl] at he <;> first | rfl | exact nomatch he
  refine ⟨hin.trans h.counts, fun t ht => ?_, h.alone, fun t ht => ?_, h.cleared, fun hb' => ?_⟩
  · cases (hnot t).symm.trans ht
  · cases (hnot t).symm.trans (attending_of_closing ht)
  · exact ⟨(hset hb').trans hboot.settled, hp.trans hboot.pending, ho.trans hboot.owed, hboot.early⟩

theorem DoorState.Inv.step (h : s.Inv) (hlt : s.inFlight < 2 ^ 32) (e : DoorEvent T) : (s.step e).Inv := by
  cases e
  case thread t m => exact h.thread hlt t m
  case boot c => exact h.boot c

omit [Fintype T] in
theorem DoorState.run_append (es : List (DoorEvent T)) (e : DoorEvent T) :
    run (es ++ [e]) = (run es).step e :=
  foldl_append

theorem DoorState.inv_run (es : List (DoorEvent T)) (hlt : ∀ pre ∈ es.inits, (run pre).inFlight < 2 ^ 32) :
    (run es).Inv := by
  induction es using List.reverseRecOn with
  | nil => exact inv_start
  | append_singleton es e ih =>
    rw [run_append]
    refine DoorState.Inv.step (ih fun pre hpre => ?_) ?_ e
    · exact hlt pre ((mem_inits ..).mpr (((mem_inits ..).mp hpre).trans (prefix_append es [e])))
    · exact hlt es ((mem_inits ..).mpr (prefix_append es [e]))

/-- While fewer than `2 ^ 32` calls are under way at any one time, every interleaving keeps the door's promises. -/
theorem door_kept (es : List (DoorEvent T)) (hlt : ∀ pre ∈ es.inits, (run pre).inFlight < 2 ^ 32) :
    (run es).Kept := by
  have h := inv_run es hlt
  refine ⟨fun t ht => ?_, ?_, fun t u ht hu => ?_⟩
  · exact h.cleared t (clearing_iff.mp ht)
  · rw [h.counts]
    exact UInt32.toNat_ofNat_of_lt' (hlt es ((mem_inits ..).mpr (prefix_refl es)))
  · exact h.alone t u (attending_iff.mp ht) (attending_iff.mp hu)

/-- The numerals of two callers. -/
local instance callerNumerals : NeZero 2 := ⟨by decide⟩

/-- Two callers, one of them twice inside, and a volume that comes back while they are: the abandon has to wait. -/
def doorEvents : List (DoorEvent (Fin 2)) :=
  [.boot true, .boot true, .boot true, .boot true, .thread 0 .enter, .thread 0 .enter, .thread 0 .enter,
    .thread 0 .enter, .thread 1 .attendArrival, .thread 1 (.attend true), .thread 1 (.attend true),
    .thread 1 (.attend true), .thread 1 (.attend true), .thread 1 (.attend true), .thread 1 (.attend true),
    .thread 0 .leave, .thread 0 .leave, .thread 1 (.attend true)]

theorem door_kept_doorEvents : (∀ pre ∈ doorEvents.inits, (run pre).inFlight < 2 ^ 32) ∧
    ((run doorEvents).locals 1).Clearing ∧ (run doorEvents).Kept :=
  have hlt : ∀ pre ∈ doorEvents.inits, (run pre).inFlight < 2 ^ 32 := by decide +kernel
  ⟨hlt, ⟨.arrival, .returned, by decide +kernel⟩, door_kept doorEvents hlt⟩

/-! ## The counter wraps -/

/-- `n` nested enters of the only thread. -/
def nestedEnters (n : Nat) : List (DoorEvent Unit) :=
  (replicate n [.thread () .enter, .thread () .enter]).flatten

/-- The state `n` nested enters of the only thread lead to. -/
def DoorState.entered (s : DoorState Unit) (n : Nat) : DoorState Unit :=
  { s with
    shared := { s.shared with inside := s.shared.inside + .ofNat n }
    locals := fun _ => { s.locals () with held := (s.locals ()).held + n } }

theorem DoorState.entered_one (s : DoorState Unit) (hup : s.shared.door = .up) (hidle : (s.locals ()).enter = .idle) :
    (s.step (.thread () .enter)).step (.thread () .enter) = s.entered 1 := by
  simp only [step, threadStep, enterStep, hidle, Function.update_self, hup, if_true, Function.update_idem]
  refine congrArg₂ (DoorState.mk · s.boot ·) ?_ ?_
  · simp only [hup]
    rfl
  · funext u
    simp only [hidle]
    rfl

theorem DoorState.entered_entered (s : DoorState Unit) (m n : Nat) : (s.entered m).entered n = s.entered (m + n) := by
  simp only [entered, UInt32.ofNat_add, UInt32.add_assoc, Nat.add_assoc]

theorem nestedEnters_foldl (n : Nat) (s : DoorState Unit) (hup : s.shared.door = .up)
    (hidle : (s.locals ()).enter = .idle) : (nestedEnters n).foldl step s = s.entered n := by
  induction n generalizing s with
  | zero => simp [nestedEnters, entered]
  | succ n ih =>
    rw [nestedEnters, replicate_succ, flatten_cons, foldl_append, foldl_cons, foldl_cons,
      foldl_nil, s.entered_one hup hidle, ← nestedEnters, ih (s.entered 1) hup hidle, s.entered_entered,
      Nat.add_comm]

/-- The boot mounts the volume and settles. -/
def bootEvents : List (DoorEvent Unit) :=
  [.boot true, .boot true, .boot true, .boot true]

/-- The medium comes back: `TagFSAttendArrival` up to the load of `g_inside` in `tagfs_abandon`. -/
def returnEvents : List (DoorEvent Unit) :=
  [.thread () .attendArrival, .thread () (.attend true), .thread () (.attend true), .thread () (.attend true),
    .thread () (.attend true), .thread () (.attend true), .thread () (.attend true), .thread () (.attend true)]

def wrapEvents : List (DoorEvent Unit) :=
  bootEvents ++ nestedEnters (2 ^ 32) ++ returnEvents

/-- With `2 ^ 32` enters under way the counter reads zero, and the ground is cleared under all of them. -/
theorem door_wraps : ((run wrapEvents).locals ()).Clearing ∧ ((run wrapEvents).locals ()).held = 2 ^ 32 ∧
    (run wrapEvents).shared.inside = 0 ∧ ¬ (run wrapEvents).Kept := by
  have hrun : run wrapEvents =
      returnEvents.foldl step ((run bootEvents).entered (2 ^ 32)) := by
    rw [run, wrapEvents, foldl_append, foldl_append,
      nestedEnters_foldl (2 ^ 32) (bootEvents.foldl step {}) rfl rfl]
    rfl
  have hclear : ((run wrapEvents).locals ()).Clearing := by
    rw [hrun]
    exact ⟨.arrival, .returned, by decide +kernel⟩
  have hheld : ((run wrapEvents).locals ()).held = 2 ^ 32 := by
    rw [hrun]
    decide +kernel
  have hinside : (run wrapEvents).shared.inside = 0 := by
    rw [hrun]
    decide +kernel
  refine ⟨hclear, hheld, hinside, fun hk => ?_⟩
  have hzero := hk.cleared () hclear ()
  rw [hheld] at hzero
  exact absurd hzero (by decide)

end BoxOS.TagFS
