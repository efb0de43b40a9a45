import BoxOS.Bay.Object

/-!
# What the bays and the calls hold

A call holds stakes: a reference to a bay, a place where one is mapped, pages, a key id, a place in the quota of a
cabin. A claim and a linked bay hold stakes as well. `Effect` says once what a section can do to the shared state and
which stakes it gives up and takes (`step_effect`); the counters of the shared state agree with the stakes by cases on
it.
-/

namespace BoxOS.Bay

open Lib List BayState

/-! ## Stakes -/

/-- What can be held: a reference to a bay, a place where it is mapped, pages that are not a bay's yet, the pages of a
bay, a key id, and a place in the quota of a cabin. -/
inductive Stake where
  | ref (bay : Nat)
  | mapped (m : BayClaim)
  | fresh
  | pages (bay : Nat)
  | key (k : Nat)
  | charge (cabin : Nat)
  deriving DecidableEq

/-- What comes with a key id. -/
def keyed (key cabin : Nat) : List Stake := if key = 0 then [] else [.key key, .charge cabin]

def BayClaim.stakes (c : BayClaim) : List Stake := [.ref c.bay, .mapped c]

def BayPc.stakes (cabin : Nat) : BayPc → List Stake
  | .allocKey => [.charge cabin]
  | .build key => keyed key cabin
  | .insert key _ _ => .fresh :: keyed key cabin
  | .freeKey key _ => [.key key, .charge cabin]
  | .uncharge _ => [.charge cabin]
  | .reserve p => [.ref p]
  | .map p _ => [.ref p]
  | .link p va => [.ref p, .mapped ⟨cabin, p, va⟩]
  | .drop p _ => [.ref p]
  | .freeChunks p key _ home _ => .pages p :: keyed key home
  | .freeBayKey key _ home _ => [.key key, .charge home]
  | .giveBack _ home _ => [.charge home]
  | .unmap c => c.stakes
  | .lookup | .charge | .again | .unlink _ | .take | .done _ => []

def BayOp.stakes (op : BayOp) : List Stake := op.pc.stakes op.cabin ++ op.todo.flatMap BayClaim.stakes

/-- What a linked bay holds. -/
def BayState.bayStakes (s : BayState) (p : Nat) : List Stake := .pages p :: keyed (s.keyOf p) (s.homeOf p)

def BayState.stakes (s : BayState) : List Stake :=
  s.claims.flatMap BayClaim.stakes ++ s.bays.linked.flatMap s.bayStakes

theorem BayOp.stakes_finish (op : BayOp) (res : BayResult) :
    (op.finish res).stakes = op.todo.flatMap BayClaim.stakes := by
  unfold finish
  cases h : op.todo with
  | nil => simp [stakes, BayPc.stakes]
  | cons c cs => simp [stakes, BayPc.stakes]

theorem BayOp.stakes_goto (op : BayOp) (pc : BayPc) :
    (op.goto pc).stakes = pc.stakes op.cabin ++ op.todo.flatMap BayClaim.stakes := rfl

/-! ## The fields of a bay -/

namespace BayState

variable {s : BayState} {p : Nat}

theorem bayStakes_congr {s s' : BayState} (h : s'.keyOf p = s.keyOf p) (h' : s'.homeOf p = s.homeOf p) :
    s'.bayStakes p = s.bayStakes p := by
  unfold bayStakes
  rw [h, h']

theorem bayStakes_modify (s : BayState) (p : Nat) {f : Entry UInt16 BayData → Entry UInt16 BayData}
    (hkey : ∀ e, (f e).data.tmeKeyid = e.data.tmeKeyid) (hhome : ∀ e, (f e).data.createCabin = e.data.createCabin) :
    { s with bays := s.bays.modify p f }.bayStakes = s.bayStakes := by
  funext q
  apply bayStakes_congr
  · unfold keyOf data Registry.modify
    simp only [getElem?_modify]
    cases s.bays.entries[q]? with
    | none => rfl
    | some e => by_cases h : p = q <;> simp [h, hkey]
  · unfold homeOf data Registry.modify
    simp only [getElem?_modify]
    cases s.bays.entries[q]? with
    | none => rfl
    | some e => by_cases h : p = q <;> simp [h, hhome]

theorem bayStakes_insert (s : BayState) (t : UInt16) (d : BayData) (hp : p < s.bays.entries.length) :
    { s with bays := (s.bays.insert t d).addRef s.bays.entries.length }.bayStakes p = s.bayStakes p := by
  have hdata : { s with bays := (s.bays.insert t d).addRef s.bays.entries.length }.data p = s.data p := by
    unfold data Registry.addRef Registry.modify Registry.insert
    simp only [getElem?_modify]
    rw [getElem?_append_left hp]
    cases s.bays.entries[p]? with
    | none => rfl
    | some e => simp [(Nat.ne_of_lt hp).symm]
  apply bayStakes_congr
  · unfold keyOf
    rw [hdata]
  · unfold homeOf
    rw [hdata]

theorem bayStakes_new (s : BayState) (t : UInt16) (d : BayData) :
    { s with bays := (s.bays.insert t d).addRef s.bays.entries.length }.bayStakes s.bays.entries.length =
      .pages s.bays.entries.length :: keyed d.tmeKeyid d.createCabin := by
  have hdata :
      { s with bays := (s.bays.insert t d).addRef s.bays.entries.length }.data s.bays.entries.length = some d := by
    unfold data Registry.addRef Registry.modify Registry.insert
    simp [Entry.incr]
  unfold bayStakes keyOf homeOf
  rw [hdata]
  rfl

theorem countP_stakes (s : BayState) (q : Stake → Bool) :
    s.stakes.countP q =
      total (fun c => c.stakes.countP q) s.claims + total (fun p => (s.bayStakes p).countP q) s.bays.linked := by
  unfold stakes
  rw [countP_append, Lib.countP_flatMap, Lib.countP_flatMap]

theorem stakes_congr {s' : BayState} (hclaims : s'.claims = s.claims) (hlinked : s'.bays.linked = s.bays.linked)
    (hbays : ∀ p ∈ s.bays.linked, s'.bayStakes p = s.bayStakes p) : s'.stakes = s.stakes := by
  unfold stakes
  rw [hclaims, hlinked, flatMap_congr hbays]

theorem stakes_modify (s : BayState) (p : Nat) {f : Entry UInt16 BayData → Entry UInt16 BayData}
    (hkey : ∀ e, (f e).data.tmeKeyid = e.data.tmeKeyid) (hhome : ∀ e, (f e).data.createCabin = e.data.createCabin) :
    { s with bays := s.bays.modify p f }.stakes = s.stakes :=
  stakes_congr rfl rfl fun q _ => congrFun (bayStakes_modify s p hkey hhome) q

end BayState

/-! ## What a section does -/

/-- A section trades the stakes of the shared state and of its call. -/
def Moves (s : BayState) (op : BayOp) (s' : BayState) (op' : BayOp) (given taken : List Stake) : Prop :=
  Trade (s.stakes ++ op.stakes) (s'.stakes ++ op'.stakes) given taken

/-- What a section can do to the shared state, and the stakes it gives up and takes. -/
inductive Effect (s : BayState) (op : BayOp) : BayState → BayOp → Prop
  | same {op' : BayOp} : Moves s op s op' [] [] → Effect s op s op'
  | reserve {op' : BayOp} (va : Nat) :
    Moves s op (s.setCabin op.cabin { s.cabin op.cabin with bayVaNext := va }) op' [] [] →
    Effect s op (s.setCabin op.cabin { s.cabin op.cabin with bayVaNext := va }) op'
  | claims {op' : BayOp} (claims : List BayClaim) : Moves s op { s with claims := claims } op' [] [] →
    Effect s op { s with claims := claims } op'
  | attach {op' : BayOp} (p : Nat) : op.attaches s = some p → p ∈ s.bays.linked →
    Moves s op { s with bays := s.bays.addRef p } op' [] [.ref p] → Effect s op { s with bays := s.bays.addRef p } op'
  | charge {op' : BayOp} : (s.cabin op.cabin).tmeKeyidsHeld < tmeQuotaPerProc →
    Moves s op (s.setCabin op.cabin
      { s.cabin op.cabin with tmeKeyidsHeld := (s.cabin op.cabin).tmeKeyidsHeld + 1 }) op' [] [.charge op.cabin] →
    Effect s op (s.setCabin op.cabin
      { s.cabin op.cabin with tmeKeyidsHeld := (s.cabin op.cabin).tmeKeyidsHeld + 1 }) op'
  | takeKey {op' : BayOp} (k : Nat) : k ≠ 0 → s.keyUsed k = false →
    Moves s op (s.takeKey k) op' [] [.key k] → Effect s op (s.takeKey k) op'
  | build {op' : BayOp} : Moves s op { s with chunksOut := s.chunksOut + 1 } op' [] [.fresh] →
    Effect s op { s with chunksOut := s.chunksOut + 1 } op'
  | lose {op' : BayOp} : Moves s op { s with chunksOut := s.chunksOut - 1 } op' [.fresh] [] →
    Effect s op { s with chunksOut := s.chunksOut - 1 } op'
  | publish {op' : BayOp} (d : BayData) : s.bays.find op.tag = none → d.pagesFreed = 0 →
    Moves s op { s with bays := (s.bays.insert op.tag d).addRef s.bays.entries.length } op' [.fresh]
      [.ref s.bays.entries.length, .pages s.bays.entries.length] →
    Effect s op { s with bays := (s.bays.insert op.tag d).addRef s.bays.entries.length } op'
  | freeKey {op' : BayOp} (k : Nat) (rekeyed : Bool) : Moves s op (s.tmeKeyidFree k rekeyed) op' [.key k] [] →
    Effect s op (s.tmeKeyidFree k rekeyed) op'
  | uncharge {op' : BayOp} : Moves s op (s.uncharge op.cabin) op' [.charge op.cabin] [] →
    Effect s op (s.uncharge op.cabin) op'
  | giveBack {op' : BayOp} (pid home : Nat) (res : BayResult) : op.pc = .giveBack pid home res →
    Moves s op (s.giveBack pid) op' [.charge home] [] → Effect s op (s.giveBack pid) op'
  | map {op' : BayOp} (m : BayClaim) : Moves s op { s with maps := m :: s.maps } op' [] [.mapped m] →
    Effect s op { s with maps := m :: s.maps } op'
  | unmap {op' : BayOp} (m : BayClaim) : Moves s op { s with maps := s.maps.erase m } op' [.mapped m] [] →
    Effect s op { s with maps := s.maps.erase m } op'
  | drop {op' : BayOp} (p : Nat) : Moves s op { s with bays := s.bays.dropRef p } op' [.ref p] [] →
    Effect s op { s with bays := s.bays.dropRef p } op'
  | freeChunks {op' : BayOp} (p : Nat) :
    Moves s op { s with bays := s.bays.modify p bayFreeChunks, chunksOut := s.chunksOut - 1 } op' [.pages p] [] →
    Effect s op { s with bays := s.bays.modify p bayFreeChunks, chunksOut := s.chunksOut - 1 } op'

/-! ## Each section has its effect -/

section Trades

variable {s s' : BayState} {op op' : BayOp} {given taken : List Stake}

theorem Moves.own (hs : s'.stakes = s.stakes) (h : Trade op.stakes op'.stakes given taken) :
    Moves s op s' op' given taken := by
  intro q
  have := h q
  rw [hs, countP_append, countP_append]
  omega

theorem trade_goto {pc pc' : BayPc} (hpc : op.pc = pc)
    (h : Trade (pc.stakes op.cabin) (pc'.stakes op.cabin) given taken) :
    Trade op.stakes (op.goto pc').stakes given taken := by
  intro q
  have := h q
  rw [BayOp.stakes_goto, BayOp.stakes, hpc, countP_append, countP_append]
  omega

theorem trade_finish {pc : BayPc} {res : BayResult} (hpc : op.pc = pc) (h : Trade (pc.stakes op.cabin) [] given taken) :
    Trade op.stakes (op.finish res).stakes given taken := by
  intro q
  have := h q
  rw [BayOp.stakes_finish, BayOp.stakes, hpc, countP_append]
  rw [countP_nil] at this
  omega

theorem trade_refl (l : List Stake) : Trade l l [] [] := fun _ => rfl

theorem trade_give (l given : List Stake) : Trade (given ++ l) l given [] := by
  intro q
  rw [countP_append, countP_nil]
  omega

theorem trade_take (l taken : List Stake) : Trade l (taken ++ l) [] taken := by
  intro q
  rw [countP_append, countP_nil]
  omega

end Trades

theorem keyed_pos {k cabin : Nat} (h : k ≠ 0) : keyed k cabin = [.key k, .charge cabin] := if_neg h

namespace BayOp

variable {tme : Tme} {s : BayState} {op : BayOp} {c : Choice}

theorem found_effect {pc : BayPc} (hpc : op.pc = pc) (hnone : pc.stakes op.cabin = []) {p : Nat}
    (hat : op.encrypted = decide (s.keyOf p ≠ 0) → op.attaches s = some p) (hp : p ∈ s.bays.linked) :
    Effect s op (found s op p).1 (found s op p).2 := by
  unfold found
  split
  · rename_i henc
    apply Effect.attach p (hat henc) hp
    apply Moves.own (stakes_modify s p (f := .incr) (fun _ => rfl) fun _ => rfl)
    apply trade_goto hpc
    rw [hnone]
    exact trade_take [] [.ref p]
  apply Effect.same
  apply Moves.own rfl
  apply trade_goto hpc
  rw [hnone]
  exact trade_refl _

/-- Giving a reference up; after the last one the call has the pages and the key of the bay. -/
theorem dropRef_effect {p : Nat} {res : BayResult} (hpc : op.pc = .drop p res) (hp : p ∈ s.bays.linked) :
    Effect s op (dropRef s op p res).1 (dropRef s op p res).2 := by
  have hkeep := bayStakes_modify s p (f := .decr) (fun _ => rfl) fun _ => rfl
  unfold dropRef
  simp only
  apply Effect.drop p
  unfold Registry.dropRef
  split
  · rename_i hzero
    have hrefs : ((s.bays.modify p .decr).refsOf p = 0) = True := eq_true hzero
    intro q
    have herase := total_erase (fun p => (s.bayStakes p).countP q) hp
    have hbays : (fun r => (bayStakes
        { s with bays := { s.bays.modify p .decr with linked := s.bays.linked.erase p } } r).countP q) =
        fun r => (s.bayStakes r).countP q := funext fun r => congrArg (List.countP q) (congrFun hkeep r)
    have hdrop : (Registry.refsOf { s.bays.modify p .decr with linked := s.bays.linked.erase p } p = 0) = True := hrefs
    simp only [hdrop, if_true]
    rw [countP_append, countP_append, countP_stakes, countP_stakes, hbays, stakes_goto,
      stakes, hpc]
    simp only [countP_append, BayPc.stakes, bayStakes, countP_cons, countP_nil] at herase ⊢
    omega
  · rename_i hpos
    exact Moves.own (stakes_modify s p (f := .decr) (fun _ => rfl) fun _ => rfl)
      (trade_finish hpc (trade_give [] [.ref p]))

/-- The object becomes a bay, which has its key from now on. -/
theorem publish_effect {key cs size : Nat} (hpc : op.pc = .insert key cs size) (hf : s.bays.find op.tag = none)
    (hlt : ∀ p ∈ s.bays.linked, p < s.bays.entries.length) {d : BayData} (hkey : d.tmeKeyid = key)
    (hcabin : d.createCabin = op.cabin) (hfreed : d.pagesFreed = 0) :
    Effect s op { s with bays := (s.bays.insert op.tag d).addRef s.bays.entries.length }
      (op.goto (.reserve s.bays.entries.length)) := by
  apply Effect.publish d hf hfreed
  intro q
  have hold : total (fun p => (bayStakes
      { s with bays := (s.bays.insert op.tag d).addRef s.bays.entries.length } p).countP q) s.bays.linked =
      total (fun p => (s.bayStakes p).countP q) s.bays.linked :=
    total_congr fun p hp => congrArg (List.countP q) (bayStakes_insert s op.tag d (hlt p hp))
  have hnew := bayStakes_new s op.tag d
  rw [hkey, hcabin] at hnew
  rw [countP_append, countP_append, countP_stakes, countP_stakes, stakes_goto, stakes, hpc]
  have hlinked : (bays { s with bays := (s.bays.insert op.tag d).addRef s.bays.entries.length }).linked =
      s.bays.entries.length :: s.bays.linked := rfl
  rw [hlinked, total_cons, hold, hnew]
  simp only [countP_append, BayPc.stakes, countP_cons, countP_nil]
  omega

theorem unlink_effect {va : Nat} (hpc : op.pc = .unlink va) {q : BayClaim → Bool} {claim : BayClaim}
    (hf : s.claims.find? q = some claim) :
    Effect s op { s with claims := s.claims.eraseP q } (op.goto (.unmap claim)) := by
  apply Effect.claims
  intro x
  have := total_eraseP (fun c : BayClaim => c.stakes.countP x) hf
  rw [countP_append, countP_append, countP_stakes, countP_stakes, stakes_goto, stakes, hpc]
  have hsame : (bayStakes { s with claims := s.claims.eraseP q }) = s.bayStakes := rfl
  rw [hsame]
  simp only [countP_append, BayPc.stakes, countP_nil]
  omega

theorem take_effect (hpc : op.pc = .take) (htodo : op.todo = []) (q : BayClaim → Bool) :
    Effect s op { s with claims := s.claims.filter fun c => !q c }
      ({ op with todo := s.claims.filter q }.finish .ok) := by
  apply Effect.claims
  intro x
  have := total_filter (fun c : BayClaim => c.stakes.countP x) q s.claims
  rw [countP_append, countP_append, countP_stakes, countP_stakes, stakes_finish, stakes, hpc,
    htodo, Lib.countP_flatMap]
  have hsame : (bayStakes { s with claims := s.claims.filter fun c => !q c }) = s.bayStakes := rfl
  rw [hsame]
  simp only [countP_append, BayPc.stakes, flatMap_nil, countP_nil]
  omega

/-- What each section of a call does. -/
theorem step_effect (tme : Tme) (c : Choice) (hlt : ∀ p ∈ s.bays.linked, p < s.bays.entries.length)
    (hheld : ∀ p, .ref p ∈ op.stakes → p ∈ s.bays.linked) (htake : op.pc = .take → op.todo = []) :
    Effect s op (op.step tme s c).1 (op.step tme s c).2 := by
  have hsilent : ∀ {pc pc' : BayPc}, op.pc = pc → pc.stakes op.cabin = pc'.stakes op.cabin →
      Effect s op s (op.goto pc') := by
    intro pc pc' hpc hst
    apply Effect.same
    apply Moves.own rfl
    apply trade_goto hpc
    rw [hst]
    exact trade_refl _
  unfold step
  cases hpc : op.pc with
  | lookup =>
    simp only
    split
    · rename_i p hf
      exact found_effect hpc rfl (fun henc => by simp [attaches, hpc, hf, henc]) (Registry.find_some hf).1
    split
    · exact hsilent hpc rfl
    split
    · exact hsilent hpc rfl
    split
    · exact hsilent hpc rfl
    · split
      · exact hsilent hpc rfl
      · exact hsilent hpc rfl
  | charge =>
    simp only
    split
    · exact hsilent hpc rfl
    · rename_i hquota
      apply Effect.charge (Nat.lt_of_not_le hquota)
      exact Moves.own rfl (trade_goto hpc (trade_take [] [.charge op.cabin]))
  | allocKey =>
    simp only [tmeKeyidAlloc]
    cases hk : (List.range' 1 tme.maxKeyid).find? fun k => !s.keyUsed k with
    | none => exact hsilent hpc rfl
    | some k =>
      have hpos : k ≠ 0 := by
        have := mem_range'_1.mp (mem_of_find?_eq_some hk)
        omega
      have hfree : s.keyUsed k = false := by simpa using find?_some hk
      apply Effect.takeKey k hpos hfree
      apply Moves.own rfl
      apply trade_goto hpc
      rw [show (BayPc.build k).stakes op.cabin = keyed k op.cabin from rfl, keyed_pos hpos]
      exact trade_take [.charge op.cabin] [.key k]
  | build key =>
    simp only
    split
    · split
      · rename_i hzero
        exact hsilent hpc (by simp [BayPc.stakes, keyed, hzero])
      · rename_i hpos
        exact hsilent hpc (keyed_pos hpos)
    · apply Effect.build
      exact Moves.own rfl (trade_goto hpc (trade_take (keyed key op.cabin) [.fresh]))
  | insert key cs size =>
    simp only
    split
    · apply Effect.lose
      apply Moves.own rfl
      apply trade_goto hpc
      have hsame : (if key = 0 then BayPc.again else .freeKey key .again).stakes op.cabin = keyed key op.cabin := by
        unfold keyed
        split <;> rfl
      rw [hsame]
      exact trade_give (keyed key op.cabin) [.fresh]
    · rename_i hf
      exact publish_effect hpc hf hlt rfl rfl rfl
  | freeKey key next =>
    apply Effect.freeKey key c.rekeyed
    exact Moves.own rfl (trade_goto hpc (trade_give [.charge op.cabin] [.key key]))
  | uncharge next =>
    apply Effect.uncharge
    apply Moves.own rfl
    cases next with
    | fail | again => exact trade_goto hpc (trade_give [] [.charge op.cabin])
  | again =>
    simp only
    split
    · rename_i p hf
      exact found_effect hpc rfl (fun henc => by simp [attaches, hpc, hf, henc]) (Registry.find_some hf).1
    · exact hsilent hpc rfl
  | reserve p =>
    simp only [reserveUserVa]
    split
    · exact hsilent hpc rfl
    rename_i va s' hva
    split at hva
    · cases hva
    · cases hva
      apply Effect.reserve
      exact Moves.own rfl (trade_goto hpc (trade_refl _))
  | map p va =>
    simp only
    split
    · exact hsilent hpc rfl
    apply Effect.map
    apply Moves.own rfl
    apply trade_goto hpc
    intro q
    simp only [BayPc.stakes, countP_cons, countP_nil]
    omega
  | link p va =>
    apply Effect.claims
    intro q
    have hsame : (bayStakes { s with claims := ⟨op.cabin, p, va⟩ :: s.claims }) = s.bayStakes := rfl
    rw [countP_append, countP_append, countP_stakes, countP_stakes, stakes_finish, stakes, hpc,
      hsame, total_cons]
    simp only [countP_append, BayPc.stakes, BayClaim.stakes, countP_nil]
    omega
  | drop p res => exact dropRef_effect hpc (hheld p (by simp [stakes, hpc, BayPc.stakes]))
  | freeChunks p key pid home res =>
    simp only
    apply Effect.freeChunks p
    apply Moves.own (stakes_modify s p (f := bayFreeChunks) (fun _ => rfl) fun _ => rfl)
    split
    · rename_i hzero
      apply trade_finish hpc
      simp only [BayPc.stakes, keyed, hzero, if_true]
      exact trade_give [] [.pages p]
    rename_i hpos
    apply trade_goto hpc
    simp only [BayPc.stakes, keyed_pos hpos]
    exact trade_give [.key key, .charge home] [.pages p]
  | freeBayKey key pid home res =>
    apply Effect.freeKey key c.rekeyed
    exact Moves.own rfl (trade_goto hpc (trade_give [.charge home] [.key key]))
  | giveBack pid home res =>
    apply Effect.giveBack pid home res hpc
    refine Moves.own ?_ (trade_finish hpc (trade_give [] [.charge home]))
    unfold giveBack
    cases s.procs pid <;> rfl
  | unlink va =>
    simp only
    split
    · exact hsilent hpc rfl
    · rename_i claim hf
      exact unlink_effect hpc hf
  | take => exact take_effect hpc (htake hpc) _
  | unmap claim =>
    apply Effect.unmap claim
    apply Moves.own rfl
    apply trade_goto hpc
    intro q
    simp only [BayPc.stakes, BayClaim.stakes, countP_cons, countP_nil]
    omega
  | done res =>
    apply Effect.same
    exact Moves.own rfl (trade_refl _)

end BayOp

end BoxOS.Bay
