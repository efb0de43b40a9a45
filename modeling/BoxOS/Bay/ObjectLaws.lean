import BoxOS.Bay.ObjectInv

/-!
# The books of the bays

What the counters of the shared state say about the stakes (`BaySystem.Inv`, `BaySystem.Charged`), and that every
section keeps it: one lemma for each counter, by cases on the effect of the section.
-/

open Function (update_apply)

namespace BoxOS.Bay

open Lib List Stake BayState

/-! ## Kinds of stakes -/

def Stake.isRef (p : Nat) (x : Stake) : Bool := decide (x = .ref p)

def Stake.isMapped (m : BayClaim) (x : Stake) : Bool := decide (x = .mapped m)

def Stake.isPages (p : Nat) (x : Stake) : Bool := decide (x = .pages p)

def Stake.isKey (k : Nat) (x : Stake) : Bool := decide (x = .key k)

def Stake.isCharge (k : Nat) (x : Stake) : Bool := decide (x = .charge k)

/-- Pages that are allocated. -/
def Stake.isChunks : Stake → Bool
  | .fresh | .pages _ => true
  | _ => false

namespace BayState

/-- How often the pages of a bay were freed. -/
def freedOf (s : BayState) (p : Nat) : Nat := ((s.data p).map (·.pagesFreed)).getD 0

/-- A cabin whose last process is gone. -/
def Gone (s : BayState) (k : Nat) : Prop := (s.cabin k).born = true ∧ (s.cabin k).strandCount = 0

instance (s : BayState) (k : Nat) : Decidable (s.Gone k) := inferInstanceAs (Decidable (_ ∧ _))

end BayState

/-- A bay that goes gives its place in the quota back to the cabin of its creator, unless that is gone; then no other
cabin has places that it could take. -/
def BayOp.GivesBack (s : BayState) (op : BayOp) : Prop :=
  match op.pc with
  | .giveBack pid home _ =>
    s.procs pid = some home ∨ s.Gone home ∧ ∀ k ∈ s.procs pid, (s.cabin k).tmeKeyidsHeld = 0
  | _ => True

instance (s : BayState) (op : BayOp) : Decidable (op.GivesBack s) := by
  unfold BayOp.GivesBack
  cases op.pc <;> infer_instance

namespace BaySystem

variable {s : BaySystem}

/-- The stakes of a kind. -/
def held (s : BaySystem) (q : Stake → Bool) : Nat := outstanding q s.shared.stakes BayOp.stakes s.ops

/-- The counters of the shared state agree with the stakes. -/
structure Inv (s : BaySystem) : Prop where
  bays : s.shared.bays.Inv fun p => s.held (isRef p)
  maps : ∀ m, s.shared.maps.count m = s.held (isMapped m)
  keys : ∀ k, s.shared.keyAllocs k = s.shared.keyFrees k + s.held (isKey k)
  one : ∀ k, s.held (isKey k) ≤ 1
  used : ∀ k, 0 < s.held (isKey k) → s.shared.keyUsed k = true
  pages : ∀ p, s.shared.freedOf p + s.held (isPages p) = if p < s.shared.bays.entries.length then 1 else 0
  chunks : s.shared.chunksOut = s.held isChunks
  quota : ∀ k, (s.shared.cabin k).tmeKeyidsHeld ≤ tmeQuotaPerProc
  takes : ∀ op ∈ s.ops, op.pc = .take → op.todo = []

/-- The count of a cabin that is not gone agrees with the stakes. -/
def Charged (s : BaySystem) : Prop :=
  ∀ k, ¬s.shared.Gone k → (s.shared.cabin k).tmeKeyidsHeld = s.held (isCharge k)

theorem init_inv : init.Inv where
  bays := Registry.empty_inv.congr fun _ => rfl
  maps := fun _ => rfl
  keys := fun _ => rfl
  one := fun _ => Nat.zero_le _
  used := nofun
  pages := fun _ => rfl
  chunks := rfl
  quota := fun _ => Nat.zero_le _
  takes := nofun

theorem held_step {i : Nat} {op op' : BayOp} {s' : BayState} {given taken : List Stake} (hi : s.ops[i]? = some op)
    (h : Moves s.shared op s' op' given taken) (q : Stake → Bool) :
    (BaySystem.mk s' (s.ops.set i op')).held q + given.countP q = s.held q + taken.countP q :=
  outstanding_set hi h q

theorem Inv.ref_linked (h : s.Inv) {op : BayOp} (hop : op ∈ s.ops) {p : Nat} (hp : .ref p ∈ op.stakes) :
    p ∈ s.shared.bays.linked := by
  rw [h.bays.linked p]
  have hle := le_total (fun op => op.stakes.countP (isRef p)) hop
  have hpos : 0 < op.stakes.countP (isRef p) := countP_pos_iff.mpr ⟨_, hp, by simp [isRef]⟩
  unfold held outstanding
  omega

/-! ## One section -/

section Section

variable {i : Nat} {op op' : BayOp} {s' : BayState}

theorem held_quiet (hi : s.ops[i]? = some op) {given taken : List Stake} (hm : Moves s.shared op s' op' given taken)
    {q : Stake → Bool} (hgiven : given.countP q = 0) (htaken : taken.countP q = 0) :
    (BaySystem.mk s' (s.ops.set i op')).held q = s.held q := by
  have := held_step hi hm q
  omega

theorem held_taken (hi : s.ops[i]? = some op) {given taken : List Stake} (hm : Moves s.shared op s' op' given taken)
    {q : Stake → Bool} (hgiven : given.countP q = 0) :
    (BaySystem.mk s' (s.ops.set i op')).held q = s.held q + taken.countP q := by
  have := held_step hi hm q
  omega

theorem held_given (hi : s.ops[i]? = some op) {given taken : List Stake} (hm : Moves s.shared op s' op' given taken)
    {q : Stake → Bool} (htaken : taken.countP q = 0) :
    (BaySystem.mk s' (s.ops.set i op')).held q + given.countP q = s.held q := by
  have := held_step hi hm q
  omega

theorem countP_isRef (p q : Nat) : [ref p].countP (isRef q) = if q = p then 1 else 0 := by
  simp [isRef, countP_cons, eq_comm]

theorem Inv.bays_step (h : s.Inv) (hi : s.ops[i]? = some op) (heff : Effect s.shared op s' op')
    (hfit : ∀ p ∈ op.attaches s.shared, s.shared.bays.refsOf p + 1 < 2 ^ 32) :
    s'.bays.Inv fun p => (BaySystem.mk s' (s.ops.set i op')).held (isRef p) := by
  cases heff with
  | same hm | reserve _ hm | claims _ hm | charge _ hm | takeKey _ _ _ hm | build hm | lose hm | freeKey _ _ hm
  | uncharge hm | map _ hm | unmap _ hm =>
    exact h.bays.congr fun p => held_quiet hi hm rfl rfl
  | attach p hat hp hm =>
    refine h.bays.addRef ((h.bays.linked p).mp hp) (h.bays.refs p ▸ hfit p hat) fun q => ?_
    rw [held_taken hi hm rfl, countP_isRef]
  | publish d hf hd hm =>
    refine h.bays.create hf d fun q => ?_
    rw [held_taken hi hm rfl, ← countP_isRef]
    rfl
  | giveBack pid home res hpc hm =>
    have hsame : (s.shared.giveBack pid).bays = s.shared.bays := by
      unfold giveBack
      cases s.shared.procs pid <;> rfl
    rw [hsame]
    exact h.bays.congr fun p => held_quiet hi hm rfl rfl
  | drop p hm =>
    refine h.bays.dropRef fun q => ?_
    rw [← countP_isRef]
    exact held_given hi hm rfl
  | freeChunks p hm =>
    exact (h.bays.modify (f := bayFreeChunks) (fun _ => rfl) (fun _ => rfl) p).congr fun q => held_quiet hi hm rfl rfl

theorem giveBack_eq (s : BayState) (pid : Nat) :
    s.giveBack pid = s ∨ ∃ k, s.procs pid = some k ∧ s.giveBack pid = s.uncharge k := by
  unfold giveBack
  cases hk : s.procs pid with
  | none => exact .inl rfl
  | some k => exact .inr ⟨k, rfl, rfl⟩

theorem giveBack_frame (s : BayState) (pid : Nat) : (s.giveBack pid).maps = s.maps ∧ (s.giveBack pid).bays = s.bays ∧
    (s.giveBack pid).keyUsed = s.keyUsed ∧ (s.giveBack pid).keyAllocs = s.keyAllocs ∧
    (s.giveBack pid).keyFrees = s.keyFrees ∧ (s.giveBack pid).chunksOut = s.chunksOut := by
  rcases giveBack_eq s pid with h | ⟨k, -, h⟩ <;> rw [h]
  · exact ⟨rfl, rfl, rfl, rfl, rfl, rfl⟩
  · exact ⟨rfl, rfl, rfl, rfl, rfl, rfl⟩

theorem countP_isMapped (m m' : BayClaim) : [mapped m].countP (isMapped m') = if m = m' then 1 else 0 := by
  simp [isMapped, countP_cons]

theorem Inv.maps_step (h : s.Inv) (hi : s.ops[i]? = some op) (heff : Effect s.shared op s' op') (m : BayClaim) :
    s'.maps.count m = (BaySystem.mk s' (s.ops.set i op')).held (isMapped m) := by
  have quiet : ∀ {s' : BayState} {given taken : List Stake}, Moves s.shared op s' op' given taken →
      s'.maps = s.shared.maps → given.countP (isMapped m) = 0 → taken.countP (isMapped m) = 0 →
      s'.maps.count m = (BaySystem.mk s' (s.ops.set i op')).held (isMapped m) := by
    intro s' given taken hm hmaps hgiven htaken
    rw [hmaps, held_quiet hi hm hgiven htaken]
    exact h.maps m
  cases heff with
  | same hm | reserve _ hm | claims _ hm | attach _ _ _ hm | charge _ hm | takeKey _ _ _ hm | build hm | lose hm
  | publish _ _ _ hm | freeKey _ _ hm | uncharge hm | drop _ hm | freeChunks _ hm =>
    exact quiet hm rfl rfl rfl
  | giveBack pid home res hpc hm => exact quiet hm (giveBack_frame _ pid).1 rfl rfl
  | map m' hm =>
    have := held_taken hi hm (q := isMapped m) rfl
    rw [this, countP_isMapped, count_cons, h.maps m]
    simp
  | unmap m' hm =>
    have := held_given hi hm (q := isMapped m) rfl
    rw [countP_isMapped] at this
    have hmaps := h.maps m
    rw [count_erase]
    by_cases he : m' = m
    · subst he
      simp only [if_true, beq_self_eq_true] at this ⊢
      omega
    · simp only [he, if_false, beq_iff_eq] at this ⊢
      omega

theorem countP_isKey (k k' : Nat) : [key k].countP (isKey k') = if k' = k then 1 else 0 := by
  simp [isKey, countP_cons, eq_comm]

/-- What holds of a key id. -/
def KeyOk (s : BayState) (n k : Nat) : Prop :=
  s.keyAllocs k = s.keyFrees k + n ∧ n ≤ 1 ∧ (0 < n → s.keyUsed k = true)

theorem Inv.key_step (h : s.Inv) (hi : s.ops[i]? = some op) (heff : Effect s.shared op s' op') (k : Nat) :
    KeyOk s' ((BaySystem.mk s' (s.ops.set i op')).held (isKey k)) k := by
  have hk : KeyOk s.shared (s.held (isKey k)) k := ⟨h.keys k, h.one k, h.used k⟩
  have quiet : ∀ {s' : BayState} {given taken : List Stake}, Moves s.shared op s' op' given taken →
      s'.keyUsed = s.shared.keyUsed → s'.keyAllocs = s.shared.keyAllocs → s'.keyFrees = s.shared.keyFrees →
      given.countP (isKey k) = 0 → taken.countP (isKey k) = 0 →
      KeyOk s' ((BaySystem.mk s' (s.ops.set i op')).held (isKey k)) k := by
    intro s' given taken hm hused hallocs hfrees hgiven htaken
    unfold KeyOk
    rw [hused, hallocs, hfrees, held_quiet hi hm hgiven htaken]
    exact hk
  cases heff with
  | same hm | reserve _ hm | claims _ hm | attach _ _ _ hm | charge _ hm | build hm | lose hm | publish _ _ _ hm
  | uncharge hm | map _ hm | unmap _ hm | drop _ hm | freeChunks _ hm =>
    exact quiet hm rfl rfl rfl rfl rfl
  | takeKey j hj hused hm =>
    have hheld := held_taken hi hm (q := isKey k) rfl
    rw [countP_isKey] at hheld
    rw [hheld]
    unfold KeyOk takeKey
    simp only [update_apply]
    obtain ⟨hallocs, hone, hyes⟩ := hk
    by_cases he : k = j
    · subst he
      -- a key id that is not in use is held by nobody
      have hzero : s.held (isKey k) = 0 := by
        by_contra hne
        rw [hyes (Nat.pos_of_ne_zero hne)] at hused
        cases hused
      simp only [if_true, implies_true, and_true]
      omega
    · simp only [he, if_false, Nat.add_zero]
      exact ⟨hallocs, hone, hyes⟩
  | freeKey j r hm =>
    have hheld := held_given hi hm (q := isKey k) rfl
    rw [countP_isKey] at hheld
    obtain ⟨hallocs, hone, hyes⟩ := hk
    generalize (BaySystem.mk (s.shared.tmeKeyidFree j r) (s.ops.set i op')).held (isKey k) = n at hheld ⊢
    unfold KeyOk tmeKeyidFree
    simp only [update_apply]
    by_cases he : k = j
    · subst he
      simp only [if_true] at hheld ⊢
      exact ⟨by omega, by omega, fun hpos => by omega⟩
    simp only [he, if_false, Nat.add_zero] at hheld ⊢
    rw [hheld]
    refine ⟨hallocs, hone, fun hpos => ?_⟩
    cases r <;> simp [he, hyes hpos]
  | giveBack pid home res hpc hm =>
    obtain ⟨-, -, hused, hallocs, hfrees, -⟩ := giveBack_frame s.shared pid
    exact quiet hm hused hallocs hfrees rfl rfl

theorem countP_isPages (p p' : Nat) : [pages p].countP (isPages p') = if p' = p then 1 else 0 := by
  simp [isPages, countP_cons, eq_comm]

theorem freedOf_modify (s : BayState) (p q : Nat) {f : Entry UInt16 BayData → Entry UInt16 BayData}
    (hf : ∀ e, (f e).data.pagesFreed = e.data.pagesFreed) :
    { s with bays := s.bays.modify p f }.freedOf q = s.freedOf q := by
  unfold freedOf data Registry.modify
  simp only [getElem?_modify]
  cases s.bays.entries[q]? with
  | none => rfl
  | some e => by_cases h : p = q <;> simp [h, hf]

theorem freedOf_freeChunks (s : BayState) (n p q : Nat) :
    { s with bays := s.bays.modify p bayFreeChunks, chunksOut := n }.freedOf q =
      s.freedOf q + if q = p ∧ q < s.bays.entries.length then 1 else 0 := by
  unfold freedOf data Registry.modify
  simp only [getElem?_modify]
  by_cases hq : q < s.bays.entries.length
  · rw [getElem?_eq_getElem hq]
    by_cases h : p = q
    · simp [h, hq, bayFreeChunks]
    · simp [h, Ne.symm h]
  · rw [getElem?_eq_none (not_lt.mp hq)]
    simp [hq]

theorem length_dropRef (R : Registry UInt16 BayData) (p : Nat) : (R.dropRef p).entries.length = R.entries.length := by
  unfold Registry.dropRef Registry.modify
  split <;> simp

theorem freedOf_dropRef (s : BayState) (p q : Nat) : { s with bays := s.bays.dropRef p }.freedOf q = s.freedOf q := by
  have : (s.bays.dropRef p).entries = (s.bays.modify p .decr).entries := by
    unfold Registry.dropRef
    split <;> rfl
  rw [← freedOf_modify s p q (f := .decr) fun _ => rfl]
  unfold freedOf data
  simp only [this]

theorem freedOf_insert (s : BayState) (t : UInt16) {d : BayData} (hd : d.pagesFreed = 0) (p : Nat) :
    { s with bays := (s.bays.insert t d).addRef s.bays.entries.length }.freedOf p = s.freedOf p := by
  unfold freedOf data Registry.addRef Registry.modify Registry.insert
  simp only [getElem?_modify]
  rcases Nat.lt_trichotomy p s.bays.entries.length with hp | hp | hp
  · rw [getElem?_append_left hp, getElem?_eq_getElem hp]
    simp [(Nat.ne_of_lt hp).symm]
  · subst hp
    simp [Entry.incr, hd]
  · rw [getElem?_eq_none (l := s.bays.entries) (by omega), getElem?_eq_none (by simp; omega)]
    simp

theorem Inv.pages_step (h : s.Inv) (hi : s.ops[i]? = some op) (heff : Effect s.shared op s' op') (p : Nat) :
    s'.freedOf p + (BaySystem.mk s' (s.ops.set i op')).held (isPages p) = if p < s'.bays.entries.length then 1 else
    0 := by
  have quiet : ∀ {s' : BayState} {given taken : List Stake}, Moves s.shared op s' op' given taken →
      s'.freedOf p = s.shared.freedOf p → s'.bays.entries.length = s.shared.bays.entries.length →
      given.countP (isPages p) = 0 → taken.countP (isPages p) = 0 →
      s'.freedOf p + (BaySystem.mk s' (s.ops.set i op')).held (isPages p) =
        if p < s'.bays.entries.length then 1 else 0 := by
    intro s' given taken hm hfreed hlen hgiven htaken
    rw [hfreed, hlen, held_quiet hi hm hgiven htaken]
    exact h.pages p
  cases heff with
  | same hm | reserve _ hm | claims _ hm | charge _ hm | takeKey _ _ _ hm | build hm | lose hm | freeKey _ _ hm
  | uncharge hm | map _ hm | unmap _ hm =>
    exact quiet hm rfl rfl rfl rfl
  | attach b hat hb hm =>
    exact quiet hm (freedOf_modify _ b p (f := .incr) fun _ => rfl) (length_modify ..) rfl rfl
  | publish d hf hd hm =>
    have hpages := h.pages p
    have hlen : ((s.shared.bays.insert op.tag d).addRef s.shared.bays.entries.length).entries.length =
        s.shared.bays.entries.length + 1 := by
      simp [Registry.addRef, Registry.modify, Registry.insert]
    have hheld := held_taken hi hm (q := isPages p) rfl
    have htaken : [ref s.shared.bays.entries.length, .pages s.shared.bays.entries.length].countP
        (isPages p) = if p = s.shared.bays.entries.length then 1 else 0 := countP_isPages _ p
    rw [freedOf_insert s.shared op.tag hd, hlen, hheld, htaken]
    split_ifs at hpages ⊢ <;> omega
  | giveBack pid home res hpc hm =>
    obtain ⟨-, hbays, -⟩ := giveBack_frame s.shared pid
    refine quiet hm ?_ (by rw [hbays]) rfl rfl
    unfold freedOf data
    rw [hbays]
  | drop b hm => exact quiet hm (freedOf_dropRef _ b p) (length_dropRef _ b) rfl rfl
  | freeChunks b hm =>
    have hpages := h.pages p
    have hlen : (s.shared.bays.modify b bayFreeChunks).entries.length = s.shared.bays.entries.length :=
      length_modify ..
    have hheld := held_given hi hm (q := isPages p) rfl
    rw [countP_isPages] at hheld
    rw [freedOf_freeChunks, hlen]
    split_ifs at hpages hheld ⊢ <;> omega

theorem Inv.chunks_step (h : s.Inv) (hi : s.ops[i]? = some op) (heff : Effect s.shared op s' op') :
    s'.chunksOut = (BaySystem.mk s' (s.ops.set i op')).held isChunks := by
  have quiet : ∀ {s' : BayState} {given taken : List Stake}, Moves s.shared op s' op' given taken →
      s'.chunksOut = s.shared.chunksOut → given.countP isChunks = taken.countP isChunks →
      s'.chunksOut = (BaySystem.mk s' (s.ops.set i op')).held isChunks := by
    intro s' given taken hm hchunks hsame
    have := held_step hi hm isChunks
    rw [hchunks, h.chunks]
    omega
  have less : ∀ {s' : BayState} {x : Stake}, Moves s.shared op s' op' [x] [] → isChunks x = true →
      s'.chunksOut = s.shared.chunksOut - 1 →
      s'.chunksOut = (BaySystem.mk s' (s.ops.set i op')).held isChunks := by
    intro s' x hm hx hchunks
    have := held_given hi hm (q := isChunks) rfl
    rw [countP_singleton, if_pos hx] at this
    rw [hchunks, h.chunks]
    omega
  cases heff with
  | same hm | reserve _ hm | claims _ hm | attach _ _ _ hm | charge _ hm | takeKey _ _ _ hm | publish _ _ _ hm
  | freeKey _ _ hm | uncharge hm | map _ hm | unmap _ hm | drop _ hm =>
    exact quiet hm rfl rfl
  | build hm =>
    have := held_taken hi hm (q := isChunks) rfl
    rw [this, ← h.chunks]
    rfl
  | lose hm | freeChunks _ hm => exact less hm rfl rfl
  | giveBack pid home res hpc hm => exact quiet hm (giveBack_frame _ pid).2.2.2.2.2 rfl

theorem giveBack_quota {s : BayState} {n : Nat} (h : ∀ k, (s.cabin k).tmeKeyidsHeld ≤ n) (j k : Nat) :
    ((s.uncharge j).cabin k).tmeKeyidsHeld ≤ n := by
  have := h k
  unfold uncharge setCabin
  simp only [update_apply]
  split
  · rename_i hk
    subst hk
    exact (Nat.sub_le _ _).trans this
  · exact this

theorem Inv.quota_step (h : s.Inv) (heff : Effect s.shared op s' op') (k : Nat) :
    (s'.cabin k).tmeKeyidsHeld ≤ tmeQuotaPerProc := by
  have hk := h.quota k
  cases heff with
  | reserve va hm =>
    unfold setCabin
    simp only [update_apply]
    split
    · rename_i hop
      exact hop ▸ hk
    · exact hk
  | charge hq hm =>
    unfold setCabin
    simp only [update_apply]
    split
    · exact hq
    · exact hk
  | uncharge hm => exact giveBack_quota h.quota _ k
  | giveBack pid home res hpc hm =>
    rcases giveBack_eq s.shared pid with heq | ⟨j, -, heq⟩ <;> rw [heq]
    · exact hk
    · exact giveBack_quota h.quota j k
  | same | claims | attach | takeKey | build | lose | publish | freeKey | map | unmap | drop | freeChunks => exact hk

theorem countP_isCharge (c k : Nat) : [charge c].countP (isCharge k) = if k = c then 1 else 0 := by
  simp [isCharge, countP_cons, eq_comm]

theorem uncharge_charged (hc : s.Charged) (hi : s.ops[i]? = some op) {home : Nat}
    (hm : Moves s.shared op (s.shared.uncharge home) op' [.charge home] []) :
    (BaySystem.mk (s.shared.uncharge home) (s.ops.set i op')).Charged := by
  intro k hlive
  have hheld := held_given hi hm (q := isCharge k) rfl
  rw [countP_isCharge] at hheld
  have hgone : s.shared.Gone k ↔ (s.shared.uncharge home).Gone k := by
    unfold BayState.Gone uncharge setCabin
    simp only [update_apply]
    split
    · rename_i he
      rw [he]
    · rfl
  have hk := hc k fun hg => hlive (hgone.mp hg)
  generalize (BaySystem.mk (s.shared.uncharge home) (s.ops.set i op')).held (isCharge k) = n at hheld ⊢
  unfold uncharge setCabin
  simp only [update_apply]
  by_cases he : k = home
  · subst he
    simp only [if_true] at hheld ⊢
    omega
  · simp only [he, if_false, Nat.add_zero] at hheld ⊢
    omega

theorem gone_charged (hc : s.Charged) (hi : s.ops[i]? = some op) {home : Nat} (hgone : s.shared.Gone home)
    (hm : Moves s.shared op s' op' [.charge home] [])
    (hcabin : ∀ k, (s'.cabin k).tmeKeyidsHeld = (s.shared.cabin k).tmeKeyidsHeld ∧ (s'.Gone k ↔ s.shared.Gone k)) :
    (BaySystem.mk s' (s.ops.set i op')).Charged := by
  intro k hlive
  have hnot : ¬s.shared.Gone k := fun hg => hlive ((hcabin k).2.mpr hg)
  have hheld := held_given hi hm (q := isCharge k) rfl
  have hne : k ≠ home := fun he => hnot (he ▸ hgone)
  rw [countP_isCharge, if_neg hne] at hheld
  exact (hcabin k).1.trans ((hc k hnot).trans hheld.symm)

theorem charged_step (hc : s.Charged) (hi : s.ops[i]? = some op) (heff : Effect s.shared op s' op')
    (hback : op.GivesBack s.shared) : (BaySystem.mk s' (s.ops.set i op')).Charged := by
  have quiet : ∀ {s' : BayState} {given taken : List Stake}, Moves s.shared op s' op' given taken →
      s'.cabin = s.shared.cabin → (∀ k, given.countP (isCharge k) = 0) →
      (∀ k, taken.countP (isCharge k) = 0) → (BaySystem.mk s' (s.ops.set i op')).Charged := by
    intro s' given taken hm hcabin hgiven htaken k hlive
    have hgone : s.shared.Gone k ↔ s'.Gone k := by
      unfold BayState.Gone
      rw [hcabin]
    rw [held_quiet hi hm (hgiven k) (htaken k)]
    exact (congrArg (fun c => (c k).tmeKeyidsHeld) hcabin).trans (hc k fun hg => hlive (hgone.mp hg))
  cases heff with
  | same hm | claims _ hm | attach _ _ _ hm | takeKey _ _ _ hm | build hm | lose hm | publish _ _ _ hm
  | freeKey _ _ hm | map _ hm | unmap _ hm | drop _ hm | freeChunks _ hm =>
    exact quiet hm rfl (fun _ => rfl) fun _ => rfl
  | reserve va hm =>
    intro k hlive
    have hcab : (((s.shared.setCabin op.cabin { s.shared.cabin op.cabin with bayVaNext := va }).cabin k).tmeKeyidsHeld =
        (s.shared.cabin k).tmeKeyidsHeld) ∧
        ((s.shared.setCabin op.cabin { s.shared.cabin op.cabin with bayVaNext := va }).Gone k ↔ s.shared.Gone k) := by
      unfold BayState.Gone setCabin
      simp only [update_apply]
      split
      · rename_i he
        subst he
        exact ⟨rfl, Iff.rfl⟩
      · exact ⟨rfl, Iff.rfl⟩
    rw [held_quiet hi hm rfl rfl]
    exact hcab.1.trans (hc k fun hg => hlive (hcab.2.mpr hg))
  | charge hq hm =>
    intro k hlive
    have hheld := held_taken hi hm (q := isCharge k) rfl
    rw [countP_isCharge] at hheld
    have hgone : s.shared.Gone k → BayState.Gone (s.shared.setCabin op.cabin
        { s.shared.cabin op.cabin with tmeKeyidsHeld := (s.shared.cabin op.cabin).tmeKeyidsHeld + 1 }) k := by
      unfold BayState.Gone setCabin
      simp only [update_apply]
      split
      · rename_i he
        subst he
        exact id
      · exact id
    have hk := hc k fun hg => hlive (hgone hg)
    rw [hheld, ← hk]
    unfold setCabin
    simp only [update_apply]
    by_cases he : k = op.cabin
    · subst he
      simp only [if_true]
    · simp only [he, if_false, Nat.add_zero]
  | uncharge hm => exact uncharge_charged hc hi hm
  | giveBack pid home res hpc hm =>
    unfold BayOp.GivesBack at hback
    rw [hpc] at hback
    rcases hback with hproc | ⟨hgone, hnone⟩
    · have heq : s.shared.giveBack pid = s.shared.uncharge home := by
        unfold giveBack
        rw [hproc]
      rw [heq] at hm ⊢
      exact uncharge_charged hc hi hm
    refine gone_charged hc hi hgone hm fun k => ?_
    rcases giveBack_eq s.shared pid with heq | ⟨j, hj, heq⟩ <;> rw [heq]
    · exact ⟨rfl, Iff.rfl⟩
    have hzero := hnone j hj
    unfold BayState.Gone uncharge setCabin
    simp only [update_apply]
    split
    · rename_i he
      subst he
      exact ⟨by simp only; omega, Iff.rfl⟩
    · exact ⟨rfl, Iff.rfl⟩

end Section

end BaySystem

end BoxOS.Bay
