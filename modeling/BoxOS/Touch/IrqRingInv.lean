import BoxOS.Touch.IrqRing

/-!
# What the slots of the interrupt ring hold

While no producer is overtaken by a whole ring, a slot is written by one producer at a time: it holds the event of the
last position of its class that is done, or that of the round before with some stores of the next one over it.
-/

set_option linter.unusedSectionVars false

open Function (update update_of_ne update_self)

namespace BoxOS.Touch

open List Option IrqEvent

/-! ## Positions and slots -/

theorem irqSlot_eq (raw : Nat) : irqSlot raw = raw % 64 := by
  simp only [irqSlot, u32, irqRingSize]
  omega

theorem irqSlot_inj {a b c : Nat} (ha : a < c) (ha' : c ≤ a + irqRingSize) (hb : b < c) (hb' : c ≤ b + irqRingSize)
    (h : irqSlot a = irqSlot b) : a = b := by
  rw [irqSlot_eq, irqSlot_eq] at h
  unfold irqRingSize at ha' hb'
  omega

theorem irqSlot_sub {raw : Nat} (h : irqRingSize ≤ raw) : irqSlot (raw - irqRingSize) = irqSlot raw := by
  rw [irqSlot_eq, irqSlot_eq]
  unfold irqRingSize at h ⊢
  omega

theorem irqSlot_lt {i : Nat} (h : i < irqRingSize) : irqSlot i = i := by
  rw [irqSlot_eq]
  exact Nat.mod_eq_of_lt h

theorem exists_last {a c : Nat} (h : a < c) : ∃ m, irqSlot m = irqSlot a ∧ a ≤ m ∧ m < c ∧ c ≤ m + irqRingSize := by
  refine ⟨a + (c - 1 - a) / 64 * 64, ?_, by omega, by omega, ?_⟩
  · rw [irqSlot_eq, irqSlot_eq]
    omega
  · unfold irqRingSize
    omega

/-- The generation that the position before `raw` left in its slot. -/
def genBefore (raw : Nat) : Nat := if irqRingSize ≤ raw then raw - irqRingSize + 1 else 0

theorem genBefore_lt (raw : Nat) : genBefore raw < raw + 1 := by
  unfold genBefore irqRingSize
  split <;> omega

/-! ## The cells of an event -/

/-- Every store of the event is in the memory. -/
def IrqEvent.In (e : IrqEvent) (m : Nat → Nat) : Prop := ∀ c v, (c, v) ∈ e.stores → m c = v

theorem IrqEvent.store_lt (e : IrqEvent) {c v : Nat} (h : (c, v) ∈ e.stores) : c < irqCells := by
  have hfits := e.fits
  unfold irqCells irqPayloadMax at *
  simp only [stores, cons_append, nil_append, mem_cons, Prod.mk.injEq, List.mem_map] at h
  rcases h with h | h | h | h | h | h | ⟨⟨b, i⟩, hb, hc, -⟩
  · omega
  · omega
  · omega
  · omega
  · omega
  · omega
  · have := (mem_zipIdx hb).2.1
    omega

theorem IrqEvent.decode_of_in {e : IrqEvent} {m : Nat → Nat} (h : e.In m) : irqDecode m = e.toIrqFields := by
  have h0 : m 0 = e.fullId := h 0 _ (by simp [stores])
  have h1 : m 1 = e.bareId := h 1 _ (by simp [stores])
  have h2 : m 2 = e.flags := h 2 _ (by simp [stores])
  have h3 : m 3 = e.plen := h 3 _ (by simp [stores])
  have h4 : m 4 = e.cutFrom := h 4 _ (by simp [stores])
  have h5 : m 5 = e.sourcePid := h 5 _ (by simp [stores])
  have hpayload : (List.range (m 3)).map (fun i => m (6 + i)) = e.payload := by
    rw [h3, e.counted]
    refine ext_getElem (by simp) fun i hi hi' => ?_
    rw [getElem_map, getElem_range]
    refine h _ _ (mem_append_right _ (List.mem_map.mpr ⟨(e.payload[i], i), ?_, rfl⟩))
    exact mem_zipIdx_iff_getElem?.mpr (getElem?_eq_getElem hi')
  unfold irqDecode
  rw [hpayload, h0, h1, h2, h3, h4, h5]

theorem IrqEvent.stores_inj (e : IrqEvent) {i j c v w : Nat} (hi : e.stores[i]? = some (c, v))
    (hj : e.stores[j]? = some (c, w)) : i = j := by
  have hcell : ∀ k c v : Nat, e.stores[k]? = some (c, v) → c = k := by
    intro k c v hk
    by_cases hk6 : k < 6
    · unfold stores at hk
      rw [getElem?_append_left (by simpa using hk6)] at hk
      match k, hk6 with
      | 0, _ => simp at hk; exact hk.1.symm
      | 1, _ => simp at hk; exact hk.1.symm
      | 2, _ => simp at hk; exact hk.1.symm
      | 3, _ => simp at hk; exact hk.1.symm
      | 4, _ => simp at hk; exact hk.1.symm
      | 5, _ => simp at hk; exact hk.1.symm
    · unfold stores at hk
      rw [getElem?_append_right (by simpa using hk6), getElem?_map] at hk
      obtain ⟨⟨b, n⟩, hb, hbn⟩ := map_eq_some_iff.mp hk
      rw [getElem?_zipIdx] at hb
      obtain ⟨b', -, hb'⟩ := map_eq_some_iff.mp hb
      simp only [Prod.mk.injEq, length_cons, length_nil] at hbn hb'
      omega
  rw [← hcell i c v hi, hcell j c w hj]

/-! ## The invariant -/

section

variable {π : Type} [DecidableEq π]

/-- The position a producer has claimed and not finished. -/
def IrqPc.raw : IrqPc → Option Nat
  | .storeGen _ raw => some raw
  | .store _ raw _ => some raw
  | _ => none

namespace IrqState

variable (s : IrqState π)

/-- Some producer has claimed the position and not finished. -/
def Busy (raw : Nat) : Prop := ∃ p, (s.push p).raw = some raw

/-- The event of the position is in its slot. -/
def Image (raw : Nat) : Prop := ∀ e, s.published[raw]? = some e → e.In (s.data (irqSlot raw))

/-- The position is among the last round of positions, and claimed for `e`. -/
structure Held (s : IrqState π) (e : IrqEvent) (raw : Nat) : Prop where
  lt : raw < s.claimed
  last : s.claimed ≤ raw + irqRingSize
  event : s.published[raw]? = some e

/-- The slot of the position is as the round before left it. -/
structure Untouched (s : IrqState π) (raw : Nat) : Prop where
  gen : s.gen (irqSlot raw) = genBefore raw
  done : s.done (irqSlot raw) = genBefore raw
  image : irqRingSize ≤ raw → s.Image (raw - irqRingSize)

structure Settled (s : IrqState π) (raw : Nat) : Prop where
  gen : s.gen (irqSlot raw) = raw + 1
  done : s.done (irqSlot raw) = raw + 1
  image : s.Image raw

/-- What a producer relies on. -/
def PushOk : IrqPc → Prop
  | .idle => True
  | .claim _ => True
  | .storeGen e raw => s.Held e raw ∧ s.Untouched raw
  | .store e raw k => s.Held e raw ∧ s.gen (irqSlot raw) = raw + 1 ∧ s.done (irqSlot raw) = genBefore raw ∧
      ∀ j c v, j < k → e.stores[j]? = some (c, v) → s.data (irqSlot raw) c = v

/-- What the consumer relies on. -/
def ServeOk : Prop :=
  match s.serve with
  | .idle => True
  | .load => True
  | .checkGen => s.read < s.claimed
  | .checkDone => s.read < s.claimed ∧ s.read + 1 ≤ s.gen (irqSlot s.read)
  | .copy k => s.read < s.claimed ∧ (s.read + 1 < s.gen (irqSlot s.read) ∨
      s.Settled s.read ∧ ∀ c, c < k → s.copy c = s.data (irqSlot s.read) c)

/-- The delivered events are those of increasing positions, and every position read is delivered or lost. -/
def Booked : Prop :=
  ∃ at_ : List Nat, at_.Pairwise (· < ·) ∧ (∀ i ∈ at_, i < s.read) ∧
    s.delivered.map some = at_.map (fun i => s.published[i]?.map (·.toIrqFields)) ∧ at_.length + s.lost = s.read

end IrqState

structure IrqInv (s : IrqState π) : Prop where
  length : s.published.length = s.claimed
  le : s.read ≤ s.claimed
  pushes : ∀ p, s.PushOk (s.push p)
  alone : ∀ p q raw, (s.push p).raw = some raw → (s.push q).raw = some raw → p = q
  settled : ∀ raw, raw < s.claimed → s.claimed ≤ raw + irqRingSize → ¬s.Busy raw → s.Settled raw
  fresh : ∀ i, s.claimed ≤ i → i < irqRingSize → s.gen i = 0 ∧ s.done i = 0
  consumer : s.ServeOk
  booked : s.Booked

/-- No producer is overtaken by a whole ring, and the consumer is less than `2 ^ 31` positions behind. -/
def Punctual (s : IrqState π) (e : IrqStepEvent π) : Prop :=
  s.claimed < s.read + 2 ^ 31 ∧
    ∀ p ev, e = .push p → s.push p = .claim ev → irqRingSize ≤ s.claimed → ¬s.Busy (s.claimed - irqRingSize)

variable {s t : IrqState π} {p : π} {e : IrqEvent} {raw k : Nat}

theorem irqInit_inv (data : Nat → Nat → Nat) (copy : Nat → Nat) : IrqInv (irqInit data copy : IrqState π) where
  length := rfl
  le := Nat.le_refl 0
  pushes _ := trivial
  alone _ _ _ h := nomatch h
  settled _ h := absurd h (Nat.not_lt_zero _)
  fresh _ _ _ := ⟨rfl, rfl⟩
  consumer := trivial
  booked := ⟨[], List.Pairwise.nil, fun _ h => (nomatch h), rfl, rfl⟩

namespace IrqInv

theorem held (h : IrqInv s) (hp : (s.push p).raw = some raw) : raw < s.claimed ∧ s.claimed ≤ raw + irqRingSize := by
  have hok := h.pushes p
  cases hpc : s.push p with
  | idle =>
    rw [hpc] at hp
    cases hp
  | claim e =>
    rw [hpc] at hp
    cases hp
  | storeGen e r =>
    rw [hpc] at hp hok
    obtain rfl := some.inj hp
    exact ⟨hok.1.lt, hok.1.last⟩
  | store e r k =>
    rw [hpc] at hp hok
    obtain rfl := some.inj hp
    exact ⟨hok.1.lt, hok.1.last⟩

theorem slot_ne (h : IrqInv s) {q : π} {raw' : Nat} (hp : (s.push p).raw = some raw) (hq : (s.push q).raw = some raw')
    (hne : q ≠ p) : irqSlot raw' ≠ irqSlot raw := by
  intro hslot
  have h₁ := h.held hp
  have h₂ := h.held hq
  obtain rfl := irqSlot_inj h₂.1 h₂.2 h₁.1 h₁.2 hslot
  exact hne (h.alone q p raw' hq hp)

theorem slot_cases (h : IrqInv s) (hlt : raw < s.claimed) : ∃ m, irqSlot m = irqSlot raw ∧ raw ≤ m ∧ m < s.claimed ∧
    s.claimed ≤ m + irqRingSize ∧ (s.Settled m ∨ s.Untouched m ∧ s.Busy m ∨ s.gen (irqSlot m) = m + 1 ∧
    s.done (irqSlot m) = genBefore m ∧ s.Busy m) := by
  obtain ⟨m, hslot, hge, hlt', hlast⟩ := exists_last hlt
  refine ⟨m, hslot, hge, hlt', hlast, ?_⟩
  by_cases hb : s.Busy m
  · obtain ⟨p, hp⟩ := hb
    have hok := h.pushes p
    cases hpc : s.push p with
    | idle =>
      rw [hpc] at hp
      cases hp
    | claim e =>
      rw [hpc] at hp
      cases hp
    | storeGen e r =>
      rw [hpc] at hp hok
      obtain rfl := some.inj hp
      exact .inr (.inl ⟨hok.2, p, by rw [hpc]; rfl⟩)
    | store e r k =>
      rw [hpc] at hp hok
      obtain rfl := some.inj hp
      exact .inr (.inr ⟨hok.2.1, hok.2.2.1, p, by rw [hpc]; rfl⟩)
  · exact .inl (h.settled m hlt' hlast hb)

theorem gen_range (h : IrqInv s) (hlt : raw < s.claimed) : s.gen (irqSlot raw) ≤ s.claimed ∧
    (s.gen (irqSlot raw) = 0 ∧ raw < irqRingSize ∨ raw + 1 ≤ s.gen (irqSlot raw) + irqRingSize) ∧
    s.done (irqSlot raw) ≤ s.claimed ∧
    (s.done (irqSlot raw) = 0 ∧ raw < irqRingSize ∨ raw + 1 ≤ s.done (irqSlot raw) + irqRingSize) := by
  obtain ⟨m, hslot, hge, hlt', hlast, hcases⟩ := h.slot_cases hlt
  rw [hslot] at hcases
  have hbefore : genBefore m ≤ s.claimed ∧
      (genBefore m = 0 ∧ raw < irqRingSize ∨ raw + 1 ≤ genBefore m + irqRingSize) := by
    unfold genBefore
    split
    · exact ⟨by omega, .inr (by omega)⟩
    · exact ⟨Nat.zero_le _, .inl ⟨rfl, by omega⟩⟩
  rcases hcases with hs | ⟨hu, -⟩ | ⟨hg, hd, -⟩
  · have h₁ := hs.gen
    have h₂ := hs.done
    rw [hslot] at h₁ h₂
    rw [h₁, h₂]
    exact ⟨hlt', .inr (by omega), hlt', .inr (by omega)⟩
  · have h₁ := hu.gen
    have h₂ := hu.done
    rw [hslot] at h₁ h₂
    rw [h₁, h₂]
    exact ⟨hbefore.1, hbefore.2, hbefore.1, hbefore.2⟩
  · rw [hg, hd]
    exact ⟨hlt', .inr (by omega), hbefore.1, hbefore.2⟩

end IrqInv

/-! ## What a step leaves alone -/

/-- The slot of a position holds what it held. -/
structure SameSlot (s t : IrqState π) (raw : Nat) : Prop where
  gen : t.gen (irqSlot raw) = s.gen (irqSlot raw)
  done : t.done (irqSlot raw) = s.done (irqSlot raw)
  data : t.data (irqSlot raw) = s.data (irqSlot raw)

/-- The claims are as before, and perhaps more. -/
structure MoreClaims (s t : IrqState π) : Prop where
  le : s.claimed ≤ t.claimed
  published : ∀ i, i < s.claimed → t.published[i]? = s.published[i]?

theorem IrqState.Image.frame (h : s.Image raw) (hlt : raw < s.claimed) (hc : MoreClaims s t)
    (hdata : t.data (irqSlot raw) = s.data (irqSlot raw)) : t.Image raw := by
  intro e he
  rw [hdata]
  exact h e ((hc.published raw hlt).symm.trans he)

theorem IrqState.Settled.frame (h : s.Settled raw) (hlt : raw < s.claimed) (hc : MoreClaims s t)
    (hsame : SameSlot s t raw) : t.Settled raw :=
  ⟨hsame.gen.trans h.gen, hsame.done.trans h.done, h.image.frame hlt hc hsame.data⟩

theorem IrqState.PushOk.frame {pc : IrqPc} (hok : s.PushOk pc) (hc : MoreClaims s t)
    (hpc : ∀ raw, pc.raw = some raw → t.claimed ≤ raw + irqRingSize ∧ SameSlot s t raw) : t.PushOk pc := by
  cases pc with
  | idle => trivial
  | claim e => trivial
  | storeGen e raw =>
    obtain ⟨hheld, hun⟩ := hok
    obtain ⟨hlast, hsame⟩ := hpc raw rfl
    refine ⟨⟨hheld.lt.trans_le hc.le, hlast, (hc.published raw hheld.lt).trans hheld.event⟩,
      ⟨hsame.gen.trans hun.gen, hsame.done.trans hun.done, fun hge => ?_⟩⟩
    have hlt := hheld.lt
    refine (hun.image hge).frame (by omega) hc ?_
    rw [irqSlot_sub hge]
    exact hsame.data
  | store e raw k =>
    obtain ⟨hheld, hgen, hdone, hdata⟩ := hok
    obtain ⟨hlast, hsame⟩ := hpc raw rfl
    refine ⟨⟨hheld.lt.trans_le hc.le, hlast, (hc.published raw hheld.lt).trans hheld.event⟩,
      hsame.gen.trans hgen, hsame.done.trans hdone, fun j c v hj hs => ?_⟩
    rw [hsame.data]
    exact hdata j c v hj hs

theorem IrqState.ServeOk.frame (h : s.ServeOk) (hc : MoreClaims s t) (hserve : t.serve = s.serve)
    (hread : t.read = s.read) (hcopy : t.copy = s.copy) (hgen : s.gen (irqSlot s.read) ≤ t.gen (irqSlot s.read))
    (hset : s.Settled s.read → SameSlot s t s.read ∨ s.read + 1 < t.gen (irqSlot s.read)) : t.ServeOk := by
  have hle := hc.le
  unfold IrqState.ServeOk at h ⊢
  rw [hserve, hread]
  split at h
  · trivial
  · trivial
  · exact h.trans_le hle
  · exact ⟨h.1.trans_le hle, h.2.trans hgen⟩
  · refine ⟨h.1.trans_le hle, ?_⟩
    rcases h.2 with hnew | ⟨hs, hcopied⟩
    · exact .inl (hnew.trans_le hgen)
    rcases hset hs with hsame | hnew
    · refine .inr ⟨hs.frame h.1 hc hsame, fun c hk => ?_⟩
      rw [hcopy, hsame.data]
      exact hcopied c hk
    · exact .inl hnew

theorem IrqState.Booked.frame (h : s.Booked) (hle : s.read ≤ s.claimed) (hc : MoreClaims s t) (hread : t.read = s.read)
    (hdelivered : t.delivered = s.delivered) (hlost : t.lost = s.lost) : t.Booked := by
  obtain ⟨at_, hsorted, hlt, hmap, hlen⟩ := h
  refine ⟨at_, hsorted, fun i hi => by rw [hread]; exact hlt i hi, ?_, by rw [hlost, hread]; exact hlen⟩
  rw [hdelivered, hmap]
  refine map_congr_left fun i hi => ?_
  rw [hc.published i ((hlt i hi).trans_le hle)]

/-! ## Steps of a producer -/

namespace IrqInv

theorem publish (h : IrqInv s) (hp : s.push p = .idle) (e : IrqEvent) :
    IrqInv { s with push := update s.push p (.claim e) } := by
  have hraw : ∀ q, (update s.push p (.claim e) q).raw = (s.push q).raw := by
    intro q
    by_cases hq : q = p
    · rw [hq, update_self, hp]
      rfl
    · rw [update_of_ne hq]
  have hc : MoreClaims s { s with push := update s.push p (.claim e) } := ⟨le_rfl, fun _ _ => rfl⟩
  refine ⟨h.length, h.le, fun q => ?_, fun q q' raw hq hq' => ?_, fun raw hlt hlast hb => ?_, h.fresh, ?_, ?_⟩
  · by_cases hq : q = p
    · simp only [hq, update_self]
      trivial
    · simp only [update_of_ne hq]
      exact (h.pushes q).frame hc fun raw hr => ⟨(h.held hr).2, ⟨rfl, rfl, rfl⟩⟩
  · rw [hraw] at hq hq'
    exact h.alone q q' raw hq hq'
  · refine (h.settled raw hlt hlast fun hb' => hb ?_).frame hlt hc ⟨rfl, rfl, rfl⟩
    obtain ⟨q, hq⟩ := hb'
    exact ⟨q, (hraw q).trans hq⟩
  · exact h.consumer.frame hc rfl rfl rfl le_rfl fun _ => .inl ⟨rfl, rfl, rfl⟩
  · exact h.booked.frame h.le hc rfl rfl rfl

/-- A position is claimed. The producer of the position one ring before has finished. -/
theorem claim (h : IrqInv s) (hp : s.push p = .claim e)
    (hdone : irqRingSize ≤ s.claimed → ¬s.Busy (s.claimed - irqRingSize)) :
    IrqInv { s with
      push := update s.push p (.storeGen e s.claimed)
      claimed := s.claimed + 1
      published := s.published ++ [e] } := by
  obtain ⟨t, ht⟩ : ∃ t, t = ({ s with
      push := update s.push p (.storeGen e s.claimed)
      claimed := s.claimed + 1
      published := s.published ++ [e] } : IrqState π) := ⟨_, rfl⟩
  rw [← ht]
  have hclaimed : t.claimed = s.claimed + 1 := by rw [ht]
  have hself : t.push p = .storeGen e s.claimed := by rw [ht]; exact update_self ..
  have hother : ∀ q, q ≠ p → t.push q = s.push q := fun q hq => by rw [ht]; exact update_of_ne hq ..
  have hsame : ∀ raw, SameSlot s t raw := fun raw => by rw [ht]; exact ⟨rfl, rfl, rfl⟩
  have hc : MoreClaims s t := ⟨by omega, fun i hi => by
    rw [ht]
    exact getElem?_append_left (by rwa [h.length])⟩
  -- who is still busy is less than a ring behind the new claim
  have hlast : ∀ q raw, (s.push q).raw = some raw → t.claimed ≤ raw + irqRingSize := by
    intro q raw hq
    obtain ⟨hlt, hle⟩ := h.held hq
    have hne : s.claimed ≠ raw + irqRingSize := fun heq =>
      hdone (by omega) ⟨q, by rw [heq, Nat.add_sub_cancel]; exact hq⟩
    omega
  have hheld : t.Held e s.claimed := by
    refine ⟨by omega, by rw [hclaimed]; unfold irqRingSize; omega, ?_⟩
    rw [ht]
    change (s.published ++ [e])[s.claimed]? = some e
    rw [getElem?_append_right (by rw [h.length]), h.length, Nat.sub_self]
    rfl
  have hun : t.Untouched s.claimed := by
    by_cases hge : irqRingSize ≤ s.claimed
    · have hpos : 0 < irqRingSize := by decide
      have hset := h.settled (s.claimed - irqRingSize) (by omega) (by omega) (hdone hge)
      have hset' := hset.frame (by omega) hc (hsame _)
      have hbefore : genBefore s.claimed = s.claimed - irqRingSize + 1 := if_pos hge
      refine ⟨?_, ?_, fun _ => hset'.image⟩
      · rw [hbefore, ← irqSlot_sub hge]
        exact hset'.gen
      · rw [hbefore, ← irqSlot_sub hge]
        exact hset'.done
    · have hlt : s.claimed < irqRingSize := by omega
      obtain ⟨hg, hd⟩ := h.fresh s.claimed le_rfl hlt
      have hbefore : genBefore s.claimed = 0 := if_neg hge
      refine ⟨?_, ?_, fun hge' => absurd hge' hge⟩
      · rw [hbefore, (hsame _).gen, irqSlot_lt hlt]
        exact hg
      · rw [hbefore, (hsame _).done, irqSlot_lt hlt]
        exact hd
  refine ⟨?_, ?_, fun q => ?_, fun q q' raw hq hq' => ?_, fun raw hlt hle hb => ?_, fun i hi hi' => ?_, ?_, ?_⟩
  · rw [hclaimed, ht]
    simp [h.length]
  · have hread : t.read = s.read := by rw [ht]
    have := h.le
    omega
  · by_cases hq : q = p
    · rw [hq, hself]
      exact ⟨hheld, hun⟩
    · rw [hother q hq]
      exact (h.pushes q).frame hc fun raw hr => ⟨hlast q raw hr, hsame raw⟩
  · by_cases hqp : q = p
    · by_cases hqp' : q' = p
      · rw [hqp, hqp']
      · rw [hqp, hself] at hq
        rw [hother q' hqp'] at hq'
        have := (h.held hq').1
        have := some.inj hq
        omega
    · by_cases hqp' : q' = p
      · rw [hqp', hself] at hq'
        rw [hother q hqp] at hq
        have := (h.held hq).1
        have := some.inj hq'
        omega
      · rw [hother q hqp] at hq
        rw [hother q' hqp'] at hq'
        exact h.alone q q' raw hq hq'
  · have hne : raw ≠ s.claimed := by
      rintro rfl
      exact hb ⟨p, by rw [hself]; rfl⟩
    have hlt' : raw < s.claimed := by omega
    refine (h.settled raw hlt' (by omega) fun hb' => hb ?_).frame hlt' hc (hsame raw)
    obtain ⟨q, hq⟩ := hb'
    refine ⟨q, ?_⟩
    have hqp : q ≠ p := by
      rintro rfl
      rw [hp] at hq
      cases hq
    rw [hother q hqp]
    exact hq
  · rw [ht]
    exact h.fresh i (by omega) hi'
  · refine h.consumer.frame hc (by rw [ht]) (by rw [ht]) (by rw [ht]) ?_ fun _ => .inl (hsame _)
    rw [(hsame _).gen]
  · exact h.booked.frame h.le hc (by rw [ht]) (by rw [ht]) (by rw [ht])

theorem stored (h : IrqInv s) (hp : (s.push p).raw = some raw) (hother : ∀ q, q ≠ p → t.push q = s.push q)
    (hslots : ∀ r, irqSlot r ≠ irqSlot raw → SameSlot s t r) (hself : t.PushOk (t.push p))
    (hpc : (t.push p).raw = some raw ∨ (t.push p).raw = none ∧ t.Settled raw)
    (hgen : s.gen (irqSlot raw) ≤ t.gen (irqSlot raw))
    (hset : s.Settled s.read → irqSlot s.read = irqSlot raw → s.read + 1 < t.gen (irqSlot raw))
    (hclaimed : t.claimed = s.claimed) (hpublished : t.published = s.published) (hread : t.read = s.read)
    (hserve : t.serve = s.serve) (hcopy : t.copy = s.copy) (hdelivered : t.delivered = s.delivered)
    (hlost : t.lost = s.lost) : IrqInv t := by
  have hc : MoreClaims s t := ⟨by rw [hclaimed], fun i _ => by rw [hpublished]⟩
  obtain ⟨hlt, hlast⟩ := h.held hp
  refine ⟨by rw [hpublished, hclaimed, h.length], by rw [hread, hclaimed]; exact h.le, fun q => ?_,
    fun q q' r hq hq' => ?_, fun r hr hr' hb => ?_, fun i hi hi' => ?_, ?_, ?_⟩
  · by_cases hq : q = p
    · rw [hq]
      exact hself
    · rw [hother q hq]
      exact (h.pushes q).frame hc fun r hr =>
        ⟨by rw [hclaimed]; exact (h.held hr).2, hslots r (h.slot_ne hp hr hq)⟩
  · have hback : ∀ q, (t.push q).raw = some r → (s.push q).raw = some r := by
      intro q hq
      by_cases hqp : q = p
      · rw [hqp] at hq ⊢
        rcases hpc with hpc | ⟨hpc, -⟩
        · rw [hp, ← hpc, hq]
        · cases hpc.symm.trans hq
      · rwa [hother q hqp] at hq
    exact h.alone q q' r (hback q hq) (hback q' hq')
  · rw [hclaimed] at hr hr'
    by_cases hrr : r = raw
    · rcases hpc with hpc | ⟨-, hsettled⟩
      · exact absurd ⟨p, by rw [hpc, hrr]⟩ hb
      · rw [hrr]
        exact hsettled
    have hne : irqSlot r ≠ irqSlot raw := fun hslot => hrr (irqSlot_inj hr hr' hlt hlast hslot)
    refine (h.settled r hr hr' fun hb' => hb ?_).frame hr hc (hslots r hne)
    obtain ⟨q, hq⟩ := hb'
    refine ⟨q, ?_⟩
    have hqp : q ≠ p := by
      rintro rfl
      exact hrr (some.inj (hq.symm.trans hp))
    rw [hother q hqp]
    exact hq
  · rw [hclaimed] at hi
    have hne : irqSlot i ≠ irqSlot raw := by
      rw [irqSlot_lt hi', irqSlot_lt (by omega)]
      omega
    have hsame := hslots i hne
    have hfresh := h.fresh i hi hi'
    have h₁ := hsame.gen
    have h₂ := hsame.done
    rw [irqSlot_lt hi'] at h₁ h₂
    exact ⟨h₁.trans hfresh.1, h₂.trans hfresh.2⟩
  · refine h.consumer.frame hc hserve hread hcopy ?_ fun hs => ?_
    · by_cases hslot : irqSlot s.read = irqSlot raw
      · rw [hslot]
        exact hgen
      · rw [(hslots _ hslot).gen]
    · by_cases hslot : irqSlot s.read = irqSlot raw
      · right
        rw [hslot]
        exact hset hs hslot
      · exact .inl (hslots _ hslot)
  · exact h.booked.frame h.le hc hread hdelivered hlost

theorem storeGen (h : IrqInv s) (hp : s.push p = .storeGen e raw) :
    IrqInv { s with
      push := update s.push p (.store e raw 0)
      gen := update s.gen (irqSlot raw) (raw + 1) } := by
  have hok := h.pushes p
  rw [hp] at hok
  obtain ⟨hheld, hun⟩ := hok
  refine h.stored (by rw [hp]; rfl) (fun q hq => update_of_ne hq ..)
    (fun r hr => ⟨update_of_ne hr .., rfl, rfl⟩) ?_ (.inl ?_) ?_ ?_ rfl rfl rfl rfl rfl rfl rfl
  · simp only [update_self]
    exact ⟨⟨hheld.lt, hheld.last, hheld.event⟩, update_self .., hun.done,
      fun j c v hj => absurd hj (Nat.not_lt_zero j)⟩
  · simp only [update_self]
    rfl
  · simp only [update_self, hun.gen]
    exact Nat.le_of_lt (genBefore_lt raw)
  · intro hs hslot
    have hgen := hs.gen
    rw [hslot, hun.gen] at hgen
    simp only [update_self]
    have := genBefore_lt raw
    omega

theorem not_settled_of_store (h : IrqInv s) (hp : s.push p = .store e raw k) (hs : s.Settled s.read)
    (hslot : irqSlot s.read = irqSlot raw) : False := by
  have hok := h.pushes p
  rw [hp] at hok
  obtain ⟨-, hgen, hdone, -⟩ := hok
  have h₁ := hs.gen
  have h₂ := hs.done
  rw [hslot, hgen] at h₁
  rw [hslot, hdone] at h₂
  have := genBefore_lt raw
  omega

theorem storeCell (h : IrqInv s) (hp : s.push p = .store e raw k) {c v : Nat} (hk : e.stores[k]? = some (c, v)) :
    IrqInv { s with
      push := update s.push p (.store e raw (k + 1))
      data := update s.data (irqSlot raw) (update (s.data (irqSlot raw)) c v) } := by
  have hok := h.pushes p
  rw [hp] at hok
  obtain ⟨hheld, hgen, hdone, hdata⟩ := hok
  refine h.stored (by rw [hp]; rfl) (fun q hq => update_of_ne hq ..)
    (fun r hr => ⟨rfl, rfl, update_of_ne hr ..⟩) ?_ (.inl ?_) le_rfl
    (fun hs hslot => (h.not_settled_of_store hp hs hslot).elim) rfl rfl rfl rfl rfl rfl rfl
  · simp only [update_self]
    refine ⟨⟨hheld.lt, hheld.last, hheld.event⟩, hgen, hdone, fun j c' v' hj hs => ?_⟩
    simp only [update_self]
    by_cases hjk : j = k
    · rw [hjk, hk] at hs
      cases hs
      exact update_self ..
    have hcc : c' ≠ c := by
      rintro rfl
      exact hjk (e.stores_inj hs hk)
    rw [update_of_ne hcc]
    exact hdata j c' v' (by omega) hs
  · simp only [update_self]
    rfl

theorem storeDone (h : IrqInv s) (hp : s.push p = .store e raw k) (hk : e.stores[k]? = none) :
    IrqInv { s with
      push := update s.push p .idle
      done := update s.done (irqSlot raw) (raw + 1) } := by
  have hok := h.pushes p
  rw [hp] at hok
  obtain ⟨hheld, hgen, hdone, hdata⟩ := hok
  have hlen : e.stores.length ≤ k := List.getElem?_eq_none_iff.mp hk
  refine h.stored (by rw [hp]; rfl) (fun q hq => update_of_ne hq ..)
    (fun r hr => ⟨rfl, update_of_ne hr .., rfl⟩) ?_ (.inr ⟨?_, hgen, update_self .., ?_⟩) le_rfl
    (fun hs hslot => (h.not_settled_of_store hp hs hslot).elim) rfl rfl rfl rfl rfl rfl rfl
  · simp only [update_self]
    trivial
  · simp only [update_self]
    rfl
  · intro e' he' c v hmem
    obtain rfl := some.inj (hheld.event.symm.trans he')
    obtain ⟨j, hj, hget⟩ := getElem_of_mem hmem
    exact hdata j c v (by omega) (by rw [getElem?_eq_getElem hj, hget])

theorem pushStep (h : IrqInv s) (hpunctual : Punctual s (.push p)) : IrqInv (s.pushStep p) := by
  unfold IrqState.pushStep
  cases hp : s.push p with
  | idle => exact h
  | claim e => exact h.claim hp (hpunctual.2 p e rfl hp)
  | storeGen e raw => exact h.storeGen hp
  | store e raw k =>
    dsimp only
    split
    · rename_i c v hk
      exact h.storeCell hp hk
    · rename_i hk
      exact h.storeDone hp hk

/-! ## Steps of the consumer -/

theorem served (h : IrqInv s) (hclaimed : t.claimed = s.claimed) (hpublished : t.published = s.published)
    (hgen : t.gen = s.gen) (hdone : t.done = s.done) (hdata : t.data = s.data) (hpush : t.push = s.push)
    (hle : t.read ≤ s.claimed) (hserve : t.ServeOk) (hbooked : t.Booked) : IrqInv t := by
  have hc : MoreClaims s t := ⟨by rw [hclaimed], fun i _ => by rw [hpublished]⟩
  have hsame : ∀ r, SameSlot s t r := fun r => ⟨by rw [hgen], by rw [hdone], by rw [hdata]⟩
  refine ⟨by rw [hpublished, hclaimed, h.length], by rw [hclaimed]; exact hle, fun q => ?_, by rw [hpush]; exact
    h.alone, fun r hr hr' hb => ?_, by rw [hclaimed, hgen, hdone]; exact h.fresh, hserve, hbooked⟩
  · rw [hpush]
    exact (h.pushes q).frame hc fun r hr => ⟨by rw [hclaimed]; exact (h.held hr).2, hsame r⟩
  · rw [hclaimed] at hr hr'
    refine (h.settled r hr hr' fun hb' => hb ?_).frame hr hc (hsame r)
    unfold IrqState.Busy
    rw [hpush]
    exact hb'

theorem eq_of_u32 {a b c : Nat} (h : u32 a = u32 (b + 1)) (ha : a ≤ c) (hc : c < b + 2 ^ 31)
    (hb : a = 0 ∧ b < irqRingSize ∨ b + 1 ≤ a + irqRingSize) : a = b + 1 := by
  unfold u32 at h
  unfold irqRingSize at hb
  omega

theorem lose (h : IrqInv s) (hlt : s.read < s.claimed) : IrqInv s.lose := by
  refine h.served rfl rfl rfl rfl rfl rfl hlt trivial ?_
  obtain ⟨at_, hsorted, hat, hmap, hlen⟩ := h.booked
  refine ⟨at_, hsorted, fun i hi => Nat.lt_succ_of_lt (hat i hi), hmap, ?_⟩
  change at_.length + (s.lost + 1) = s.read + 1
  omega

theorem load (h : IrqInv s) (hpunctual : s.claimed < s.read + 2 ^ 31) (hserve : s.serve = .load) :
    IrqInv s.serveStep := by
  have hle := h.le
  have hlag : u32 (u32 s.claimed + 2 ^ 32 - u32 s.read) = s.claimed - s.read := by
    unfold u32
    omega
  simp only [IrqState.serveStep, hserve, hlag]
  split
  · exact h.served rfl rfl rfl rfl rfl rfl h.le trivial h.booked
  rename_i hne
  have hlt : s.read < s.claimed := by
    rcases Nat.lt_or_ge s.read s.claimed with hlt | hge
    · exact hlt
    · exact absurd (by rw [Nat.le_antisymm hle hge]) hne
  have hpos : 0 < irqRingSize := by decide
  split
  · rename_i hover
    refine h.served rfl rfl rfl rfl rfl rfl ?_ ?_ ?_
    · change s.read + (s.claimed - s.read - irqRingSize) ≤ s.claimed
      omega
    · change s.read + (s.claimed - s.read - irqRingSize) < s.claimed
      omega
    · obtain ⟨at_, hsorted, hat, hmap, hlen⟩ := h.booked
      refine ⟨at_, hsorted, fun i hi => (hat i hi).trans_le (Nat.le_add_right _ _), hmap, ?_⟩
      change at_.length + (s.lost + (s.claimed - s.read - irqRingSize)) = s.read + (s.claimed - s.read - irqRingSize)
      omega
  · exact h.served rfl rfl rfl rfl rfl rfl h.le hlt h.booked

theorem checkGen (h : IrqInv s) (hpunctual : s.claimed < s.read + 2 ^ 31) (hserve : s.serve = .checkGen) :
    IrqInv s.serveStep := by
  have hlt := h.consumer
  simp only [IrqState.ServeOk, hserve] at hlt
  obtain ⟨hgen, hgen', -, -⟩ := h.gen_range hlt
  simp only [IrqState.serveStep, hserve]
  split
  · rename_i heq
    have := eq_of_u32 heq hgen hpunctual hgen'
    exact h.served rfl rfl rfl rfl rfl rfl h.le ⟨hlt, Nat.le_of_eq this.symm⟩ h.booked
  · split
    · exact h.lose hlt
    · exact h.served rfl rfl rfl rfl rfl rfl h.le trivial h.booked

theorem settled_of_done (h : IrqInv s) (hlt : s.read < s.claimed) (hdone : s.done (irqSlot s.read) = s.read + 1) :
    s.read + 1 < s.gen (irqSlot s.read) ∨ s.Settled s.read := by
  obtain ⟨m, hslot, hge, -, -, hcases⟩ := h.slot_cases hlt
  rcases hcases with hs | ⟨hu, -⟩ | ⟨hg, hd, -⟩
  · have hm := hs.done
    rw [hslot, hdone] at hm
    have : m = s.read := by omega
    rw [this] at hs
    exact .inr hs
  · have hm := hu.done
    rw [hslot, hdone] at hm
    have hm' := hu.gen
    rw [hslot, ← hm] at hm'
    refine .inr ⟨hm', hdone, ?_⟩
    unfold genBefore at hm
    split at hm
    · rename_i hge'
      have hread : s.read = m - irqRingSize := by omega
      rw [hread]
      exact hu.image hge'
    · omega
  · rw [hslot, hdone] at hd
    rw [hslot] at hg
    have := genBefore_lt m
    exact .inl (by omega)

theorem checkDone (h : IrqInv s) (hpunctual : s.claimed < s.read + 2 ^ 31) (hserve : s.serve = .checkDone) :
    IrqInv s.serveStep := by
  have hc := h.consumer
  simp only [IrqState.ServeOk, hserve] at hc
  obtain ⟨-, -, hdone, hdone'⟩ := h.gen_range hc.1
  simp only [IrqState.serveStep, hserve]
  refine h.served rfl rfl rfl rfl rfl rfl h.le ?_ h.booked
  by_cases heq : u32 (s.done (irqSlot s.read)) = u32 (s.read + 1)
  · rw [if_pos heq]
    refine ⟨hc.1, ?_⟩
    rcases h.settled_of_done hc.1 (eq_of_u32 heq hdone hpunctual hdone') with hnew | hset
    · exact .inl hnew
    · exact .inr ⟨⟨hset.gen, hset.done, hset.image⟩, fun c hc' => absurd hc' (Nat.not_lt_zero c)⟩
  · rw [if_neg heq]
    trivial

theorem copyStep (h : IrqInv s) (hpunctual : s.claimed < s.read + 2 ^ 31) (hserve : s.serve = .copy k) :
    IrqInv s.serveStep := by
  have hc := h.consumer
  simp only [IrqState.ServeOk, hserve] at hc
  obtain ⟨hlt, hcopy⟩ := hc
  obtain ⟨hgen, hgen', -, -⟩ := h.gen_range hlt
  simp only [IrqState.serveStep, hserve]
  split
  · refine h.served rfl rfl rfl rfl rfl rfl h.le ⟨hlt, ?_⟩ h.booked
    rcases hcopy with hnew | ⟨hset, hcopied⟩
    · exact .inl hnew
    refine .inr ⟨⟨hset.gen, hset.done, hset.image⟩, fun c hck => ?_⟩
    simp only [Function.update_apply]
    split
    · rename_i hck'
      rw [hck']
    · exact hcopied c (by omega)
  · rename_i hk
    split
    · -- the generation is still that of the position: nobody has touched the slot since
      rename_i heq
      have hread := eq_of_u32 heq hgen hpunctual hgen'
      obtain ⟨hset, hcopied⟩ := hcopy.resolve_left (by omega)
      obtain ⟨e, he⟩ : ∃ e, s.published[s.read]? = some e :=
        ⟨_, getElem?_eq_getElem (by rw [h.length]; exact hlt)⟩
      have hdecode : irqDecode s.copy = e.toIrqFields := by
        refine decode_of_in fun c v hmem => ?_
        have hcells := e.store_lt hmem
        rw [hcopied c (by omega)]
        exact hset.image e he c v hmem
      refine h.served rfl rfl rfl rfl rfl rfl hlt trivial ?_
      obtain ⟨at_, hsorted, hat, hmap, hlen⟩ := h.booked
      refine ⟨at_ ++ [s.read], ?_, fun i hi => ?_, ?_, ?_⟩
      · rw [pairwise_append]
        refine ⟨hsorted, pairwise_singleton _ _, fun i hi j hj => ?_⟩
        rw [mem_singleton.mp hj]
        exact hat i hi
      · change i < s.read + 1
        rcases mem_append.mp hi with hi | hi
        · exact Nat.lt_succ_of_lt (hat i hi)
        · rw [mem_singleton.mp hi]
          exact Nat.lt_succ_self _
      · simp only [map_append, map_cons, map_nil, hmap, he, hdecode, Option.map_some]
      · rw [length_append, length_singleton]
        change at_.length + 1 + s.lost = s.read + 1
        omega
    · exact h.lose hlt

theorem serveStep (h : IrqInv s) (hpunctual : s.claimed < s.read + 2 ^ 31) : IrqInv s.serveStep := by
  cases hserve : s.serve with
  | idle =>
    simp only [IrqState.serveStep, hserve]
    exact h
  | load => exact h.load hpunctual hserve
  | checkGen => exact h.checkGen hpunctual hserve
  | checkDone => exact h.checkDone hpunctual hserve
  | copy k => exact h.copyStep hpunctual hserve

theorem step (h : IrqInv s) {ev : IrqStepEvent π} (hpunctual : Punctual s ev) (hs : IrqStep s ev t) : IrqInv t := by
  cases hs with
  | publish p fullId bareId payload sourcePid flags hp hvalid => exact h.publish hp _
  | push p => exact h.pushStep hpunctual
  | beginServe hserve => exact h.served rfl rfl rfl rfl rfl rfl h.le trivial h.booked
  | serve => exact h.serveStep hpunctual.1

end IrqInv

end

end BoxOS.Touch
