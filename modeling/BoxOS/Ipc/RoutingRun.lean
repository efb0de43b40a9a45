import BoxOS.Ipc.Routing

/-!
# Results reach their readers in order

`ReaderInv` says of every route that what arrived on it is, in this order, what was returned, then what its stash keeps,
then what is in the ring. A result that is returned straight from the ring keeps the order if the stash of its route is
empty. Behind a look into the stash it is; in the last scan of `result_pop_any` the stash of IPC results may have been
filled by the scan before it (`newer_message_first`).
-/

open Function (update update_of_ne update_self)

namespace BoxOS.Ipc

open Lib List Option ReaderPc

variable {k : ReaderConfig} {t u : Reader}

/-- What a reader knows of the stashes where it is. -/
def ReaderPc.Ok (k : ReaderConfig) (t : Reader) : ReaderPc → Prop
  | .idle => True
  | .take c r => r ∈ c.asks ∧ r ≠ .nobody
  | .scan c want => ∀ r ∈ want, r ∈ c.asks ∧ (r ≠ .ipc → t.kept k r = [])

structure ReaderInv (k : ReaderConfig) (t : Reader) : Prop where
  stash : ∀ r s, t.stash r = some s → s.Holds k.cap (t.kept k r)
  placed : ∀ r, r ≠ .nobody →
    t.arrived.filter (fun e => routeOf e = r) = t.returned r ++ t.kept k r ++ t.ring.filter fun e => routeOf e = r
  /-- nothing is kept for nobody -/
  nobody : t.kept k .nobody = []
  asked : ∀ a ∈ t.answers, routeOf a.2 ∈ a.1.asks
  pc : t.pc.Ok k t

namespace Reader

theorem starts_inv (h : t.Starts k) : ReaderInv k t := by
  have hkept : ∀ r, t.kept k r = [] := by
    intro r
    unfold kept
    rcases h.stash r with hnone | hinit
    · rw [hnone]
    · rw [hinit]
      rfl
  refine ⟨fun r s hs => ?_, fun r hr => ?_, hkept .nobody, fun a ha => ?_, ?_⟩
  · rw [hkept]
    rcases h.stash r with hnone | hinit
    · cases hnone.symm.trans hs
    · obtain rfl : stashInit k.cap = s := some.inj (hinit.symm.trans hs)
      exact init_holds
  · rw [hkept, h.arrived, h.ring, returned, h.answers]
    rfl
  · rw [h.answers] at ha
    cases ha
  · rw [h.pc]
    trivial

/-! ## The parts of a step -/

theorem kept_setStash {s : Stash Result} {l : List Result} (hs : s.Holds k.cap l) (r r' : Route) :
    (t.setStash r (some s)).kept k r' = if r' = r then l else t.kept k r' := by
  unfold kept setStash
  by_cases hr : r' = r
  · subst hr
    simp [hs.contents]
  · simp [hr]

theorem routeOf_kept (h : ReaderInv k t) {r : Route} {e : Result} (hr : r ≠ .nobody) (he : e ∈ t.kept k r) :
    routeOf e = r := by
  have hin : e ∈ t.arrived.filter fun e => routeOf e = r := by
    rw [h.placed r hr]
    exact mem_append_left _ (mem_append_right _ he)
  simpa using (mem_filter.mp hin).2

theorem stashOf_holds (h : ReaderInv k t) {r : Route} {create malloc : Bool} {s : Stash Result}
    (hs : stashOf k create malloc (t.stash r) = some s) : s.Holds k.cap (t.kept k r) := by
  cases hstash : t.stash r with
  | some s' =>
    rw [hstash] at hs
    obtain rfl : s' = s := some.inj hs
    exact h.stash r s' hstash
  | none =>
    have hkept : t.kept k r = [] := by rw [kept, hstash]
    rw [hstash, stashOf] at hs
    split at hs
    · obtain rfl : stashInit k.cap = s := some.inj hs
      rw [hkept]
      exact init_holds
    · cases hs

theorem setStash_inv (h : ReaderInv k t) {r : Route} {s : Stash Result} (hs : s.Holds k.cap (t.kept k r))
    {pc : ReaderPc} (hpc : pc.Ok k t) : ReaderInv k { t.setStash r (some s) with pc := pc } ∧
    ∀ r', Reader.kept k { t.setStash r (some s) with pc := pc } r' = t.kept k r' := by
  have hkept : ∀ r', Reader.kept k { t.setStash r (some s) with pc := pc } r' = t.kept k r' := by
    intro r'
    refine (kept_setStash hs r r').trans ?_
    split
    · rename_i hr
      rw [hr]
    · rfl
  refine ⟨⟨fun r' s' hs' => ?_, fun r' hr' => ?_, ?_, h.asked, ?_⟩, hkept⟩
  · rw [hkept]
    change update t.stash r (some s) r' = some s' at hs'
    by_cases hr : r' = r
    · subst hr
      rw [update_self] at hs'
      exact some.inj hs' ▸ hs
    · rw [update_of_ne hr] at hs'
      exact h.stash r' s' hs'
  · rw [hkept]
    exact h.placed r' hr'
  · rw [hkept]
    exact h.nobody
  · cases pc with
    | idle => trivial
    | take c r' => exact hpc
    | scan c want => exact fun r' hr' => ⟨(hpc r' hr').1, fun hne => (hkept r').trans ((hpc r' hr').2 hne)⟩

theorem goto_inv (h : ReaderInv k t) {pc : ReaderPc} (hpc : pc.Ok k t) : ReaderInv k { t with pc := pc } where
  stash := h.stash
  placed := h.placed
  nobody := h.nobody
  asked := h.asked
  pc := by
    cases pc with
    | idle => trivial
    | take | scan => exact hpc

theorem scan_one_ok {c : PopCall} {r : Route} (hask : r ∈ c.asks) (hkept : t.kept k r = []) :
    (scan c [r]).Ok k t := by
  intro r' hr'
  rw [mem_singleton.mp hr']
  exact ⟨hask, fun _ => hkept⟩

theorem afterScan_ok {c : PopCall} {want : List Route} (hpc : (scan c want).Ok k t) :
    (afterScan c want).Ok k t := by
  unfold afterScan
  split
  · split
    · exact ⟨by decide, by decide⟩
    · split
      · rename_i hwant
        intro r hr
        rcases mem_pair.mp hr with rfl | rfl
        · exact ⟨by decide, fun hne => absurd rfl hne⟩
        · exact ⟨by decide, fun hne => (hpc .caller (by rw [hwant]; exact mem_singleton_self _)).2 hne⟩
      · trivial
  · trivial

theorem returned_answer (c : PopCall) (e : Result) (r : Route) :
    (t.answer c e).returned r = t.returned r ++ if routeOf e = r then [e] else [] := by
  unfold returned answer
  rw [map_append, filter_append]
  split
  · rename_i hr
    simp [hr]
  · rename_i hr
    simp [hr]

/-! ## One step -/

theorem takeStep_inv (hcap : 0 < k.cap) (hmax : k.cap ≤ 2 ^ 31) (h : ReaderInv k t) {c : PopCall} {r : Route}
    (hpc : t.pc = .take c r) (mem : StashMemory) : ReaderInv k (t.takeStep k c r mem) := by
  obtain ⟨hask, hr⟩ : r ∈ c.asks ∧ r ≠ .nobody := by
    have hok := h.pc
    rwa [hpc] at hok
  unfold takeStep
  split
  · rename_i hnone
    have hkept : t.kept k r = [] := by
      unfold kept
      cases hstash : t.stash r with
      | none => rfl
      | some s =>
        rw [hstash] at hnone
        cases hnone
    exact goto_inv h (scan_one_ok hask hkept)
  · rename_i s hs
    have hholds := stashOf_holds h hs
    obtain ⟨hhead, hrest⟩ := take_holds hcap hmax hholds
    split
    · rename_i s' e htake
      rw [htake] at hhead hrest
      obtain ⟨l, hl⟩ : ∃ l, t.kept k r = e :: l := head?_eq_some_iff.mp hhead.symm
      rw [hl, tail_cons] at hrest
      have hroute : routeOf e = r := routeOf_kept h hr (hl ▸ mem_cons_self)
      have hkept : ∀ r', ((t.setStash r (some s')).answer c e).kept k r' = if r' = r then l else t.kept k r' :=
        kept_setStash hrest r
      refine ⟨fun r' s'' hs'' => ?_, fun r' hr' => ?_, ?_, fun a ha => ?_, trivial⟩
      · rw [hkept]
        change update t.stash r (some s') r' = some s'' at hs''
        by_cases heq : r' = r
        · subst heq
          rw [update_self] at hs''
          rw [if_pos rfl, ← some.inj hs'']
          exact hrest
        · rw [update_of_ne heq] at hs''
          rw [if_neg heq]
          exact h.stash r' s'' hs''
      · rw [hkept, returned_answer, hroute]
        refine (h.placed r' hr').trans ?_
        by_cases heq : r' = r
        · subst heq
          rw [if_pos rfl, if_pos rfl, hl]
          simp [setStash, answer, returned]
        · rw [if_neg heq, if_neg (fun h => heq h.symm)]
          simp [setStash, answer, returned]
      · rw [hkept, if_neg (fun heq => hr heq.symm)]
        exact h.nobody
      · rcases mem_append.mp ha with ha | ha
        · exact h.asked a ha
        · rw [mem_singleton.mp ha]
          exact hroute ▸ hask
    · rename_i s' htake
      rw [htake] at hhead hrest
      have hkept : t.kept k r = [] := head?_eq_none_iff.mp hhead.symm
      rw [hkept, tail_nil, ← hkept] at hrest
      exact (setStash_inv h hrest (scan_one_ok hask hkept)).1

theorem answer_inv (h : ReaderInv k t) {c : PopCall} {e : Result} {rest : List Result} (hring : t.ring = e :: rest)
    (hask : routeOf e ∈ c.asks) (hkept : t.kept k (routeOf e) = []) :
    ReaderInv k (Reader.answer { t with ring := rest } c e) where
  stash := h.stash
  placed r hr := by
    have hplaced := h.placed r hr
    rw [hring, filter_cons] at hplaced
    rw [returned_answer]
    refine hplaced.trans ?_
    by_cases heq : routeOf e = r
    · subst heq
      simp only [answer, decide_true, if_true]
      change _ = t.returned (routeOf e) ++ [e] ++ t.kept k (routeOf e) ++ _
      rw [hkept]
      simp
    · simp only [answer, heq, decide_false, if_false]
      change _ = t.returned r ++ [] ++ t.kept k r ++ _
      simp
  nobody := h.nobody
  asked a ha := by
    rcases mem_append.mp ha with ha | ha
    · exact h.asked a ha
    · rw [mem_singleton.mp ha]
      exact hask
  pc := trivial

theorem drop_inv (h : ReaderInv k t) {e : Result} {rest : List Result} (hring : t.ring = e :: rest)
    (hroute : routeOf e = .nobody) : ReaderInv k { t with ring := rest } where
  stash := h.stash
  placed r hr := by
    have hplaced := h.placed r hr
    rw [hring, filter_cons, if_neg (by simpa [hroute] using hr.symm)] at hplaced
    exact hplaced
  nobody := h.nobody
  asked := h.asked
  pc := by
    have hok := h.pc
    cases hpc : t.pc with
    | idle => trivial
    | take c r => exact (hpc ▸ hok : (take c r).Ok k t)
    | scan c want => exact (hpc ▸ hok : (scan c want).Ok k t)

/-- A result that is for another reader goes from the ring to the end of its stash. -/
theorem put_inv (hmax : k.cap ≤ 2 ^ 31) (h : ReaderInv k t) {c : PopCall} {want : List Route}
    (hpc : t.pc = .scan c want) {e : Result} {rest : List Result} (hring : t.ring = e :: rest)
    (hwant : routeOf e ∉ want) (hroute : routeOf e ≠ .nobody) {s : Stash Result}
    (hs : s.Holds k.cap (t.kept k (routeOf e))) (hroom : s.HasRoom)
    (hshort : (t.kept k (routeOf e)).length + 1 < 2 ^ 32) :
    ReaderInv k { t.setStash (routeOf e) (some (stashPut s e)) with ring := rest } := by
  have hput := put_holds hmax hs hroom hshort e
  have hkept : ∀ r, Reader.kept k { t.setStash (routeOf e) (some (stashPut s e)) with ring := rest } r =
      if r = routeOf e then t.kept k (routeOf e) ++ [e] else t.kept k r := kept_setStash hput (routeOf e)
  refine ⟨fun r s' hs' => ?_, fun r hr => ?_, ?_, h.asked, ?_⟩
  · rw [hkept]
    change update t.stash (routeOf e) (some (stashPut s e)) r = some s' at hs'
    by_cases heq : r = routeOf e
    · rw [heq, update_self] at hs'
      rw [if_pos heq, ← some.inj hs']
      exact hput
    · rw [update_of_ne heq] at hs'
      rw [if_neg heq]
      exact h.stash r s' hs'
  · have hplaced := h.placed r hr
    rw [hring, filter_cons] at hplaced
    rw [hkept]
    refine hplaced.trans ?_
    by_cases heq : r = routeOf e
    · subst heq
      simp [setStash, returned]
    · rw [if_neg heq, if_neg (by simpa using fun h => heq h.symm)]
      rfl
  · rw [hkept, if_neg hroute.symm]
    exact h.nobody
  · have hok : (scan c want).Ok k t := hpc ▸ h.pc
    change ReaderPc.Ok k _ t.pc
    rw [hpc]
    intro r hr
    refine ⟨(hok r hr).1, fun hne => ?_⟩
    rw [hkept, if_neg (fun heq : r = routeOf e => hwant (heq ▸ hr))]
    exact (hok r hr).2 hne

theorem scanStep_inv (hcap : 0 < k.cap) (hmax : k.cap ≤ 2 ^ 31) (h : ReaderInv k t) {c : PopCall} {want : List Route}
    (hpc : t.pc = .scan c want) (mem : StashMemory) (hturn : t.InTurn k (.step mem)) :
    ReaderInv k (t.scanStep k c want mem) := by
  have hok : (scan c want).Ok k t := hpc ▸ h.pc
  unfold scanStep
  split
  · exact goto_inv h (afterScan_ok hok)
  rename_i e rest hring
  obtain ⟨hipc, hshort⟩ := hturn (want, e) (by rw [Reader.looks, hpc, hring]; rfl)
  split
  · rename_i hwant
    refine answer_inv h hring (hok _ hwant).1 ?_
    by_cases heq : routeOf e = .ipc
    · rw [heq] at hwant ⊢
      exact hipc heq hwant
    · exact (hok _ hwant).2 heq
  rename_i hwant
  split
  · rename_i hroute
    exact drop_inv h hring hroute
  rename_i hroute
  split
  · exact goto_inv h (afterScan_ok hok)
  rename_i s hs
  have hholds := stashOf_holds h hs
  split
  · rename_i s' hreserve
    have hsame : s' = s := by
      have hrefused := @reserve_refused _ s mem.chunk (by rw [hreserve])
      rwa [hreserve] at hrefused
    rw [hsame]
    exact (setStash_inv h hholds (afterScan_ok hok)).1
  rename_i s' hreserve
  obtain ⟨hs', hroom⟩ := @reserve_holds _ _ _ _ mem.chunk hcap hholds (by rw [hreserve])
  rw [hreserve] at hs' hroom
  exact put_inv hmax h hpc hring hwant hroute hs' hroom (hshort hwant)

theorem step_inv (hcap : 0 < k.cap) (hmax : k.cap ≤ 2 ^ 31) (h : ReaderInv k t) {e : ReaderEvent}
    (hturn : t.InTurn k e) (hstep : t.Step k e u) : ReaderInv k u := by
  cases e with
  | arrive e =>
    change (if t.ring.length < k.cap then some _ else none) = some u at hstep
    split at hstep
    · cases hstep
      refine ⟨h.stash, fun r hr => ?_, h.nobody, h.asked, ?_⟩
      · rw [filter_append, filter_append, h.placed r hr, append_assoc]
        rfl
      · have hok := h.pc
        cases hpc : t.pc with
        | idle => trivial
        | take c r => exact (hpc ▸ hok : (take c r).Ok k t)
        | scan c want => exact (hpc ▸ hok : (scan c want).Ok k t)
    · cases hstep
  | call c =>
    change (if t.pc = .idle then some { t with pc := c.begins } else none) = some u at hstep
    by_cases hidle : t.pc = .idle
    · rw [if_pos hidle] at hstep
      cases hstep
      refine goto_inv h ?_
      cases c <;> exact ⟨by decide, by decide⟩
    · rw [if_neg hidle] at hstep
      cases hstep
  | step mem =>
    unfold Step next at hstep
    cases hpc : t.pc with
    | idle =>
      rw [hpc] at hstep
      cases hstep
    | take c r =>
      rw [hpc] at hstep
      cases hstep
      exact takeStep_inv hcap hmax h hpc mem
    | scan c want =>
      rw [hpc] at hstep
      cases hstep
      exact scanStep_inv hcap hmax h hpc mem hturn

theorem refused_same (h : ReaderInv k t) {mem : StashMemory} (href : t.Refuses k mem) (hstep : t.Step k (.step mem) u) :
    u.ring = t.ring ∧ ∀ r, u.kept k r = t.kept k r := by
  obtain ⟨c, want, e, rest, hpc, hring, hwant, hroute, hno⟩ := href
  have hok : (scan c want).Ok k t := hpc ▸ h.pc
  simp only [Step, next, hpc, some.injEq, scanStep, hring, if_neg hwant, if_neg hroute] at hstep
  split at hstep
  · subst hstep
    exact ⟨hring.symm, fun r => rfl⟩
  rename_i s hs
  have hfail := hno s hs
  split at hstep
  · rename_i s' hreserve
    have hsame : s' = s := by
      have hrefused := @reserve_refused _ s mem.chunk hfail
      rwa [hreserve] at hrefused
    subst hstep hsame
    exact ⟨rfl, (setStash_inv h (stashOf_holds h hs) (afterScan_ok hok)).2⟩
  · rename_i s' hreserve
    rw [hreserve] at hfail
    cases hfail

theorem inv_routed (h : ReaderInv k t) : t.Routed k where
  placed := h.placed
  asked := h.asked
  refused _ _ := refused_same h

end Reader

/-- A message of process 1. -/
def message (n : UInt8) : Result := fun i => if i.val = 16 then 1 else if i.val = 4 then n else 0

/-- A completion of a storage operation. -/
def completion : Result := fun i => if i.val = 20 then 10 else 0

/-- The main strand. -/
def mainReader : ReaderConfig := ⟨32768, true⟩

def readerStart : Reader := ⟨[], fun _ => none, .idle, [], []⟩

def noRoom : StashMemory := ⟨true, none⟩

def withRoom : StashMemory := ⟨true, some fun _ => completion⟩

theorem readerStart_starts : readerStart.Starts mainReader :=
  ⟨rfl, fun _ => .inl rfl, rfl, rfl, rfl⟩

/-- A completion is behind a message that cannot be put away at first. -/
def ferryFirst : List ReaderEvent :=
  [.arrive (message 1), .arrive completion, .arrive (message 2), .call .ferry, .step withRoom, .step noRoom,
    .call .ferry, .step withRoom, .step withRoom, .step withRoom, .call .ipc, .step noRoom, .call .ipc, .step noRoom,
    .step noRoom]

def twoMessages : List ReaderEvent :=
  [.call .any, .step withRoom, .step withRoom, .arrive (message 1), .step withRoom, .step withRoom, .step withRoom,
    .arrive (message 2), .step withRoom]

end BoxOS.Ipc
