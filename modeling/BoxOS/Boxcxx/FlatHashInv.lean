import BoxOS.Lib.RobinHood
import BoxOS.Boxcxx.FlatHash

/-!
# The slots of a flat hash table

`Good`: the number of slots is a power of two and the slots are in Robin Hood order.

Every loop has one lemma. With them `Good.placeWithCtl` and `Good.eraseAt` say that an operation comes back, what it
does to `entries` as a permutation, and that the slots stay `Good`. `lookup` is the finite map of elements with
different keys (`Distinct`).
-/

open Function (update update_of_ne update_self)

namespace BoxOS.Boxcxx.Flat

open Lib.RobinHood List Option

/-! ## Numbers of slots -/

/-- A number of slots. -/
def Cap (n : Nat) : Prop := ∃ k, 3 ≤ k ∧ k ≤ 31 ∧ n = 2 ^ k

section Caps

variable {n s c : Nat}

theorem Cap.le (h : Cap n) : 8 ≤ n := by
  obtain ⟨k, hk, -, rfl⟩ := h
  exact Nat.pow_le_pow_right (n := 2) (by omega) hk

theorem Cap.and_mask (h : Cap n) (x : Nat) : x &&& (n - 1) = x % n := by
  obtain ⟨k, -, -, rfl⟩ := h
  exact Nat.and_two_pow_sub_one_eq_mod x k

theorem Cap.ideal_lt (h : Cap n) (c : Nat) : idealOf n c < n := by
  unfold idealOf
  rw [h.and_mask]
  exact Nat.mod_lt _ (by have := h.le; omega)

theorem Cap.nextSlot (h : Cap n) (s : Nat) : nextSlot n s = succ n s := h.and_mask _

theorem Cap.sub_mod (h : Cap n) {i : Nat} (hi : i ≤ n) (s : Nat) : (s + 2 ^ 64 - i) % n = (s + n - i) % n := by
  obtain ⟨k, -, hk, rfl⟩ := h
  have hpow : 2 ^ 64 = 2 ^ k * 2 ^ (64 - k) := by rw [← Nat.pow_add]; congr 1; omega
  have hpos : 1 ≤ 2 ^ (64 - k) := Nat.one_le_two_pow
  have hsplit : s + 2 ^ 64 - i = (s + 2 ^ k - i) + 2 ^ k * (2 ^ (64 - k) - 1) := by
    rw [hpow, Nat.mul_sub_one]
    have := Nat.le_mul_of_pos_right (2 ^ k) hpos
    omega
  rw [hsplit, Nat.add_mul_mod_self_left]

theorem Cap.prevSlot (h : Cap n) (s : Nat) : prevSlot n s = pred n s := by
  have := h.le
  exact (h.and_mask _).trans (h.sub_mod (by omega) s)

theorem Cap.distanceOf (h : Cap n) (s c : Nat) : distanceOf n s c = gap n (idealOf n c) s :=
  (h.and_mask _).trans (h.sub_mod (h.ideal_lt c).le s)

theorem Cap.idealOf_ctlOf (h : Cap n) (x : Nat) : idealOf n (ctlOf x) = x &&& (n - 1) := by
  obtain ⟨k, -, hk, rfl⟩ := h
  unfold idealOf ctlOf kTaken
  rw [Nat.and_or_distrib_right, Nat.and_two_pow_sub_one_eq_mod, Nat.and_two_pow_sub_one_eq_mod,
    Nat.and_two_pow_sub_one_eq_mod, Nat.mod_mod_of_dvd x (Nat.pow_dvd_pow 2 (by omega))]
  have htop : 0x80000000 % 2 ^ k = 0 := by
    rw [show 0x80000000 = 2 ^ 31 from rfl]
    exact Nat.mod_eq_zero_of_dvd (Nat.pow_dvd_pow 2 hk)
  rw [htop, Nat.or_zero]

end Caps

/-! ## Slots -/

section Slots

variable {κ μ : Type*} {l : Slots κ μ} {x : Slot κ μ} {n s z : Nat}

/-- `IdealOf(ctl_[s])`. -/
def ideal (n : Nat) (x : Slot κ μ) : Nat := idealOf n x.ctl

theorem Cap.housed (h : Cap n) (a : Nat → Option (Slot κ μ)) : Housed n (ideal n) a := fun _ x _ => h.ideal_lt x.ctl

variable {p : Nat}

theorem slotAt_set (hp : p < l.length) (v : Option (Slot κ μ)) : slotAt (l.set p v) = update (slotAt l) p v := by
  funext q
  unfold slotAt
  by_cases hq : q = p
  · subst hq
    rw [update_self, getD_eq_getElem?_getD, getElem?_set_self hp]
    rfl
  · rw [update_of_ne hq, getD_eq_getElem?_getD, getElem?_set_ne (Ne.symm hq),
      getD_eq_getElem?_getD]

theorem slotAt_some (h : slotAt l p = some x) : p < l.length ∧ l[p]? = some (some x) := by
  unfold slotAt at h
  rw [getD_eq_getElem?_getD] at h
  cases hp : l[p]? with
  | none =>
    rw [hp] at h
    cases h
  | some v =>
    rw [hp] at h
    cases h
    exact ⟨(List.getElem?_eq_some_iff.mp hp).1, rfl⟩

theorem mem_entries : x ∈ entries l ↔ ∃ p, slotAt l p = some x := by
  unfold entries
  rw [mem_filterMap]
  constructor
  · rintro ⟨v, hv, hx⟩
    obtain ⟨p, hp⟩ := mem_iff_getElem?.mp hv
    refine ⟨p, ?_⟩
    unfold slotAt
    rw [getD_eq_getElem?_getD, hp]
    exact hx
  · rintro ⟨p, hp⟩
    exact ⟨some x, mem_of_getElem? (slotAt_some hp).2, rfl⟩

theorem entries_set (hp : p < l.length) (v : Option (Slot κ μ)) :
    (entries (l.set p v)).Perm (v.toList ++ entries (l.set p none)) := by
  unfold entries
  induction l generalizing p with
  | nil => cases hp
  | cons u l ih =>
    cases p with
    | zero =>
      cases v with
      | none | some => exact .refl _
    | succ p =>
      have := ih (p := p) (by simpa using hp)
      cases u with
      | none => exact this
      | some y => exact (this.cons y).trans perm_middle.symm

theorem entries_of_some (h : slotAt l p = some x) : (entries l).Perm (x :: entries (l.set p none)) := by
  obtain ⟨hlt, hp⟩ := slotAt_some h
  have hset : l.set p (some x) = l := by
    rw [getElem?_eq_getElem hlt] at hp
    rw [← some.inj hp, set_getElem_self hlt]
  have := entries_set hlt (some x)
  rwa [hset] at this

theorem entries_of_none (h : slotAt l p = none) (hlt : p < l.length) : l.set p none = l := by
  unfold slotAt at h
  rw [getD_eq_getElem?_getD, getElem?_eq_getElem hlt] at h
  have h : l[p] = none := h
  rw [← h, set_getElem_self hlt]

theorem entries_move {q : Nat} (hne : q ≠ p) (hp : p < l.length) (hq : slotAt l q = some x) :
    (entries ((l.set p (some x)).set q none)).Perm (entries (l.set p none)) := by
  obtain ⟨hlt, -⟩ := slotAt_some hq
  have hto : (entries ((l.set p (some x)).set q none)).Perm (x :: entries ((l.set p none).set q none)) := by
    rw [set_comm _ _ (Ne.symm hne), set_comm _ _ (Ne.symm hne)]
    exact entries_set (by rwa [length_set]) (some x)
  have hq' : slotAt (l.set p none) q = some x := by
    rw [slotAt_set hp, update_of_ne hne]
    exact hq
  exact hto.trans (entries_of_some hq').symm

theorem exists_free (h : (entries l).length < l.length) : ∃ z < l.length, slotAt l z = none := by
  by_contra hno
  push Not at hno
  have hall : ∀ m : Slots κ μ, (∀ v ∈ m, v ≠ none) → (entries m).length = m.length := by
    intro m
    induction m with
    | nil => exact fun _ => rfl
    | cons v m ih =>
      intro hm
      cases v with
      | none => exact absurd rfl (hm none mem_cons_self)
      | some y =>
        have := ih fun u hu => hm u (mem_cons_of_mem _ hu)
        unfold entries at this ⊢
        rw [filterMap_cons_some (f := id) (b := y) rfl, length_cons, length_cons, this]
  have := hall l fun v hv hnone => by
    obtain ⟨p, hp⟩ := mem_iff_getElem?.mp hv
    refine hno p (List.getElem?_eq_some_iff.mp hp).1 ?_
    unfold slotAt
    rw [getD_eq_getElem?_getD, hp, hnone]
    rfl
  omega

/-- Slots in Robin Hood order. -/
structure Good (l : Slots κ μ) : Prop where
  cap : Cap l.length
  ordered : Ordered l.length (ideal l.length) (slotAt l)

/-! ## Loops -/

theorem freeLoop_spec (hc : Cap l.length) {fuel : Nat} (hs : s < l.length) (hz : z < l.length)
    (hfree : slotAt l z = none) (hfuel : gap l.length s z < fuel) : ∃ e < l.length, freeLoop l fuel s = some e ∧
    slotAt l e = none ∧ ∀ q < l.length, gap l.length s q < gap l.length s e → slotAt l q ≠ none := by
  induction fuel generalizing s with
  | zero => omega
  | succ fuel ih =>
    unfold freeLoop
    cases hx : slotAt l s with
    | none =>
      refine ⟨s, hs, rfl, hx, fun q hq hlt => ?_⟩
      rw [gap_self hs] at hlt
      omega
    | some x =>
      have hne : s ≠ z := fun he => by rw [he, hfree] at hx; cases hx
      have hgap := gap_succ_left hs hz hne
      obtain ⟨e, he, hr, hnone, htaken⟩ := ih (succ_lt hs) (by omega)
      rw [hc.nextSlot]
      refine ⟨e, he, hr, hnone, fun q hq hlt => ?_⟩
      by_cases hqs : s = q
      · subst hqs
        rw [hx]
        exact nofun
      have hse : s ≠ e := fun hse => by
        rw [hse] at hx
        rw [hnone] at hx
        cases hx
      have h1 := gap_succ_left hs hq hqs
      have h2 := gap_succ_left hs he hse
      exact htaken q hq (by omega)

/-- The slot for an element: it fits there, and what is there is less displaced. -/
theorem seekLoop_spec (hc : Cap l.length) (x : Slot κ μ) (fuel : Nat) {d : Nat} (hs : s < l.length) (hz : z < l.length)
    (hfree : slotAt l z = none) (hfuel : gap l.length s z < fuel) (hd : d = gap l.length (ideal l.length x) s)
    (hway : gap l.length (ideal l.length x) s + gap l.length s z = gap l.length (ideal l.length x) z)
    (hfits : FitsAt l.length (ideal l.length) (slotAt l) s x) : ∃ s' < l.length, seekLoop l fuel s d = some s' ∧
      FitsAt l.length (ideal l.length) (slotAt l) s' x ∧
      ∀ y, slotAt l s' = some y → gap l.length (ideal l.length y) s' < gap l.length (ideal l.length x) s' := by
  have hi : ideal l.length x < l.length := hc.ideal_lt _
  induction fuel generalizing s d with
  | zero => omega
  | succ fuel ih =>
    unfold seekLoop
    cases hy : slotAt l s with
    | none => exact ⟨s, hs, rfl, hfits, fun y h => by rw [hy] at h; cases h⟩
    | some y =>
      simp only [hc.distanceOf, hc.nextSlot]
      have hne : s ≠ z := fun he => by rw [he, hfree] at hy; cases hy
      split
      · rename_i hge
        have hgap := gap_succ_left hs hz hne
        have hturn : ideal l.length x ≠ succ l.length s := ne_succ_of_gap_lt hs hz (by omega)
        have hstep := gap_succ hi hs hturn
        refine ih (succ_lt hs) (by omega) (by omega) (by omega) fun _ => ⟨y, ?_, ?_⟩
        · rw [pred_succ hs]
          exact hy
        · rw [pred_succ hs, ← hd]
          exact hge
      · rename_i hlt
        refine ⟨s, hs, rfl, hfits, fun y' h => ?_⟩
        rw [hy] at h
        cases h
        rw [← hd]
        exact not_le.mp hlt

/-- `RotateRight` moves the hole from `d` to `s`. -/
theorem rotateLoop_spec (fuel : Nat) {d : Nat} (hc : Cap l.length) (hs : s < l.length) (hd : d < l.length) (hne : d ≠ s)
    (hfuel : gap l.length s d ≤ fuel) (hole : Hole l.length (ideal l.length) (slotAt l) d) (hz : z < l.length)
    (hfree : slotAt l z = none) (hzd : z ≠ d)
    (htaken : ∀ q < l.length, gap l.length s q < gap l.length s d → slotAt l q ≠ none) :
    ∃ l', rotateLoop s fuel l d (pred l.length d) = some l' ∧ l'.length = l.length ∧
    Hole l.length (ideal l.length) (slotAt l') s ∧ slotAt l' (succ l.length s) = slotAt l s ∧
    (entries (l'.set s none)).Perm (entries (l.set d none)) ∧ ∀ q < l.length, gap l.length s d < gap l.length s q →
    slotAt l' q = slotAt l q := by
  have hle := hc.le
  have hpos : gap l.length s d ≠ 0 := fun h0 => hne ((gap_eq_zero hs hd).mp h0)
  induction fuel generalizing l d with
  | zero => omega
  | succ fuel ih =>
    have hsrc := pred_lt hd
    have hsp : succ l.length (pred l.length d) = d := succ_pred hd
    have hgap : gap l.length s d = gap l.length s (pred l.length d) + 1 := by
      have := gap_succ hs hsrc (by rw [hsp]; exact Ne.symm hne)
      rwa [hsp] at this
    obtain ⟨y, hy⟩ := ne_none_iff_exists'.mp (htaken _ hsrc (by omega))
    have hlen : (l.set d (some y)).length = l.length := length_set ..
    have hview := slotAt_set hd (some y)
    have hsd : pred l.length d ≠ d := fun he => succ_ne (by omega) hsrc (hsp.trans he.symm)
    have hmove := entries_move hsd hd hy
    have hback := hole.back (by omega) (hc.housed _) hd hy hz hfree hzd
    rw [← hview] at hback
    have hzs : z ≠ pred l.length d := fun he => by rw [← he, hfree] at hy; cases hy
    unfold rotateLoop
    simp only [hy]
    split
    · rename_i he
      rw [he] at hmove hback hy hsp
      refine ⟨_, rfl, hlen, hback, ?_, hmove, fun q hq hlt => ?_⟩
      · rw [hview, hsp, update_self, hy]
      · rw [hview, update_of_ne fun hqd => by rw [hqd] at hlt; exact lt_irrefl _ hlt]
    rename_i hnot
    rw [hlen, hc.prevSlot]
    have hsub : ∀ q < l.length, q ≠ d → slotAt (l.set d (some y)) q = slotAt l q := fun q _ hqd => by
      rw [hview, update_of_ne hqd]
    obtain ⟨l', hr, hlen', hhole, hfirst, hperm, hframe⟩ := ih (l := l.set d (some y)) (d := pred l.length d)
      (hlen.symm ▸ hc) (by omega) (by omega) hnot (by rw [hlen]; omega) (by rw [hlen]; exact hback) (by omega)
      (by rw [hsub z hz hzd]; exact hfree) hzs
      (fun q hq hlt => by
        rw [hlen] at hq hlt
        have hqd : q ≠ d := fun he => by rw [he] at hlt; omega
        rw [hsub q hq hqd]
        exact htaken q hq (by omega))
      (by rw [hlen]; exact hle) (by rw [hlen]; exact fun h0 => hnot ((gap_eq_zero hs hsrc).mp h0))
    rw [hlen] at hr hlen' hhole hfirst hframe
    refine ⟨l', hr, hlen', hhole, ?_, hperm.trans hmove, fun q hq hlt => ?_⟩
    · rw [hfirst, hsub s hs (Ne.symm hne)]
    · rw [hframe q hq (by omega), hsub q hq fun hqd => by rw [hqd] at hlt; exact lt_irrefl _ hlt]

/-- `EraseAt` moves the hole up to the end of the displaced elements. -/
theorem eraseLoop_spec {fuel : Nat} (hc : Cap l.length) (hs : s < l.length)
    (hole : Hole l.length (ideal l.length) (slotAt l) s) (hz : z < l.length) (hfree : slotAt l z = none) (hzs : s ≠ z)
    (hfuel : gap l.length s z ≤ fuel) : ∃ l', eraseLoop fuel l s = some l' ∧ l'.length = l.length ∧
    Ordered l.length (ideal l.length) (slotAt l') ∧ (entries l').Perm (entries (l.set s none)) ∧
    ∀ q < l.length, gap l.length z q < gap l.length z s → slotAt l' q = slotAt l q := by
  have hle := hc.le
  induction fuel generalizing l s with
  | zero => exact absurd ((gap_eq_zero hs hz).mp (Nat.le_zero.mp hfuel)).symm hzs
  | succ fuel ih =>
    have hnone := slotAt_set hs (none : Option (Slot κ μ))
    have hclose : (∀ x, slotAt l (succ l.length s) = some x → ideal l.length x = succ l.length s) →
        ∃ l', some (l.set s none) = some l' ∧ l'.length = l.length ∧
          Ordered l.length (ideal l.length) (slotAt l') ∧ (entries l').Perm (entries (l.set s none)) ∧
          ∀ q < l.length, gap l.length z q < gap l.length z s → slotAt l' q = slotAt l q := by
      intro hend
      refine ⟨_, rfl, length_set .., ?_, .refl _, fun q _ hlt => ?_⟩
      · rw [hnone]
        exact hole.close_none hend
      · rw [hnone, update_of_ne fun hqs => by rw [hqs] at hlt; exact lt_irrefl _ hlt]
    unfold eraseLoop
    rw [hc.nextSlot]
    cases hx : slotAt l (succ l.length s) with
    | none => exact hclose fun x h => by rw [hx] at h; cases h
    | some x =>
      simp only [hc.distanceOf]
      have hnext := succ_lt hs
      have hi : ideal l.length x < l.length := hc.ideal_lt _
      split
      · rename_i hfar
        have hxh : ideal l.length x ≠ succ l.length s := fun he => hfar ((gap_eq_zero hi hnext).mpr he.symm)
        have hlen : (l.set s (some x)).length = l.length := length_set ..
        have hview := slotAt_set hs (some x)
        have hne : succ l.length s ≠ s := succ_ne (by omega) hs
        have hforward := hole.forward (by omega) (hc.housed _) hs hx hxh
        rw [← hview] at hforward
        have hznext : succ l.length s ≠ z := fun he => by rw [he, hfree] at hx; cases hx
        have hstep := gap_succ hz hs (Ne.symm hznext)
        have hgap := gap_succ_left hs hz hzs
        obtain ⟨l', hr, hlen', hord, hperm, hframe⟩ := ih (l := l.set s (some x)) (s := succ l.length s)
          (hlen.symm ▸ hc) (by omega) (by rw [hlen]; exact hforward) (by omega)
          (by rw [hview, update_of_ne (Ne.symm hzs)]; exact hfree) hznext (by rw [hlen]; omega)
          (by rw [hlen]; exact hle)
        rw [hlen] at hlen' hord hframe
        refine ⟨l', hr, hlen', hord, hperm.trans (entries_move hne hs hx), fun q hq hlt => ?_⟩
        rw [hframe q hq (by omega), hview, update_of_ne fun hqs => by rw [hqs] at hlt; exact lt_irrefl _ hlt]
      · rename_i hnear
        refine hclose fun y hy => ?_
        rw [hx] at hy
        cases hy
        exact ((gap_eq_zero hi hnext).mp (not_not.mp hnear)).symm

/-! ## Placing and removing an element -/

/-- `PlaceWithCtl`, where at least one slot stays empty. -/
theorem Good.placeWithCtl (h : Good l) (x : Slot κ μ) (hroom : (entries l).length + 1 < l.length) :
    ∃ l' s, placeWithCtl l x = some (l', s) ∧ l'.length = l.length ∧ Good l' ∧ (entries l').Perm (x :: entries l) ∧
    slotAt l' s = some x := by
  have hc := h.cap
  have hle := hc.le
  have hi : ideal l.length x < l.length := hc.ideal_lt _
  obtain ⟨z, hz, hfree⟩ := exists_free (l := l) (by omega)
  obtain ⟨s, hs, hseek, hfits, hless⟩ := seekLoop_spec hc x l.length (d := 0) hi hz hfree (gap_lt hz)
    (gap_self hi).symm (by rw [gap_self hi, Nat.zero_add]) fun hne => absurd rfl hne
  unfold Flat.placeWithCtl
  rw [show idealOf l.length x.ctl = ideal l.length x from rfl, hseek, bind_some]
  cases hy : slotAt l s with
  | none =>
    -- the slot is empty
    have hlen : (l.set s (some x)).length = l.length := length_set ..
    refine ⟨_, s, rfl, hlen, ⟨hlen.symm ▸ hc, ?_⟩, ?_, ?_⟩
    · rw [hlen, slotAt_set hs]
      refine (h.ordered.hole (hc.housed _) hs).close_some (by omega) hs hfits fun y hnext hne => ?_
      obtain ⟨y', hy', -⟩ := h.ordered _ (succ_lt hs) y hnext id id hne
      rw [pred_succ hs, hy] at hy'
      cases hy'
    · have := entries_set hs (some x)
      rwa [entries_of_none hy hs] at this
    · rw [slotAt_set hs, update_self]
  | some y =>
    obtain ⟨e, he, hr, hnone, htaken⟩ := freeLoop_spec hc hs hz hfree (gap_lt hz)
    have hes : e ≠ s := fun he => by rw [he, hy] at hnone; cases hnone
    have hless := hless y hy
    rw [if_neg nofun, hr, bind_some]
    -- the new element waits in the empty slot while the others move
    have hlen : (l.set e (some x)).length = l.length := length_set ..
    have hview := slotAt_set he (some x)
    obtain ⟨z', hz', hfree'⟩ := exists_free (l := l.set e (some x)) (by
      rw [(entries_set he (some x)).length_eq, entries_of_none hnone he, hlen, length_append]
      simp only [toList_some, length_singleton]
      omega)
    rw [hlen] at hz'
    have hze : z' ≠ e := fun h => by rw [h, hview, update_self] at hfree'; cases hfree'
    have hopen := (h.ordered.hole (hc.housed _) he).update (by omega) he (some x)
    rw [← hview] at hopen
    obtain ⟨l', hrot, hlen', hhole, hfirst, hperm, hframe⟩ := rotateLoop_spec (l := l.set e (some x)) l.length
      (hlen.symm ▸ hc) (by omega) (by omega) hes (by rw [hlen]; exact (gap_lt he).le) (by rw [hlen]; exact hopen)
      (by omega) hfree' hze (fun q hq hlt => by
        rw [hlen] at hq hlt
        rw [hview, update_of_ne fun hqe => by rw [hqe] at hlt; exact lt_irrefl _ hlt]
        exact htaken q hq hlt)
    rw [hlen] at hrot hlen' hhole hfirst hframe
    rw [hc.prevSlot, hrot]
    have hs' : s < l'.length := by omega
    have hset : (l'.set s (some x)).length = l.length := (length_set ..).trans hlen'
    refine ⟨_, s, rfl, hset, ⟨hset.symm ▸ hc, ?_⟩, ?_, ?_⟩
    · rw [hset, slotAt_set hs']
      refine hhole.close_some (by omega) hs ?_ fun y' hy' _ => ?_
      · -- the slot before is not among those that moved
        intro hhome
        obtain ⟨w, hw, hge⟩ := hfits hhome
        have hep : e ≠ pred l.length s := fun h => by rw [← h, hnone] at hw; cases hw
        have hlast := gap_pred_self hs
        have hne : gap l.length s e ≠ gap l.length s (pred l.length s) := fun h => hep (gap_inj hs he (pred_lt hs) h)
        have hlt := gap_lt (i := s) he
        refine ⟨w, ?_, hge⟩
        rw [hframe _ (pred_lt hs) (by omega), hview, update_of_ne (Ne.symm hep)]
        exact hw
      · rw [hfirst, hview, update_of_ne (Ne.symm hes), hy] at hy'
        cases hy'
        exact hless.le
    · refine (entries_set hs' (some x)).trans ?_
      refine List.Perm.cons x (hperm.trans ?_)
      rw [set_set, entries_of_none hnone he]
    · rw [slotAt_set hs', update_self]

theorem Good.eraseAt (h : Good l) {x : Slot κ μ} (hx : slotAt l s = some x) (hz : z < l.length)
    (hfree : slotAt l z = none) : ∃ l', eraseLoop l.length l s = some l' ∧ l'.length = l.length ∧ Good l' ∧
    (entries l).Perm (x :: entries l') ∧ ∀ q < l.length, gap l.length z q < gap l.length z s →
    slotAt l' q = slotAt l q := by
  obtain ⟨hs, -⟩ := slotAt_some hx
  have hzs : s ≠ z := fun he => by rw [he, hfree] at hx; cases hx
  obtain ⟨l', hr, hlen, hord, hperm, hframe⟩ :=
    eraseLoop_spec h.cap hs (h.ordered.hole (h.cap.housed _) hs) hz hfree hzs (gap_lt hz).le
  refine ⟨l', hr, hlen, ⟨hlen.symm ▸ h.cap, ?_⟩, (entries_of_some hx).trans (hperm.symm.cons x), hframe⟩
  rw [hlen]
  exact hord

theorem good_allocate {n : Nat} (hc : Cap n) : Good (allocate κ μ n) ∧ entries (allocate κ μ n) = [] := by
  have hlen : (allocate κ μ n).length = n := length_replicate
  have hnone : ∀ p, slotAt (allocate κ μ n) p = none := fun p => by
    unfold slotAt allocate
    rw [getD_eq_getElem?_getD, getElem?_replicate]
    split <;> rfl
  refine ⟨⟨hlen.symm ▸ hc, fun p _ x hx => ?_⟩, ?_⟩
  · rw [hnone] at hx
    cases hx
  · apply eq_nil_iff_forall_not_mem.mpr
    intro x hx
    obtain ⟨p, hp⟩ := mem_entries.mp hx
    rw [hnone] at hp
    cases hp

theorem Good.placeAll (h : Good l) (xs : List (Slot κ μ)) (hroom : (entries l).length + xs.length < l.length) :
    ∃ l', placeAll l xs = some l' ∧ l'.length = l.length ∧ Good l' ∧ (entries l').Perm (xs ++ entries l) := by
  unfold Flat.placeAll
  induction xs generalizing l with
  | nil => exact ⟨l, rfl, rfl, h, .refl _⟩
  | cons x xs ih =>
    rw [length_cons] at hroom
    obtain ⟨l₁, s, hr, hlen, hgood, hperm, -⟩ := h.placeWithCtl x (by omega)
    obtain ⟨l', hr', hlen', hgood', hperm'⟩ := ih hgood (by rw [hperm.length_eq, length_cons, hlen]; omega)
    refine ⟨l', ?_, hlen'.trans hlen, hgood', ?_⟩
    · rw [foldlM_cons, hr]
      exact hr'
    · exact (hperm'.trans (hperm.append_left xs)).trans perm_middle

/-! ## Finding a key -/

theorem findLoop_some (E : KeyEq κ) (hc : Cap l.length) (c : Nat) (k : κ) {fuel d : Nat} (hs : s < l.length)
    (hz : z < l.length) (hfree : slotAt l z = none) (hfuel : gap l.length s z < fuel) :
    ∃ r, findLoop E l c k fuel s d = some r ∧ ∀ p, r = some p → ∃ x, slotAt l p = some x ∧ E.eq x.key k = true := by
  induction fuel generalizing s d with
  | zero => omega
  | succ fuel ih =>
    unfold findLoop
    cases hx : slotAt l s with
    | none => exact ⟨none, rfl, nofun⟩
    | some x =>
      have hne : s ≠ z := fun he => by rw [he, hfree] at hx; cases hx
      have hgap := gap_succ_left hs hz hne
      simp only [hc.nextSlot]
      split
      · exact ⟨none, rfl, nofun⟩
      split
      · rename_i hit
        refine ⟨some s, rfl, fun p hp => ?_⟩
        cases hp
        exact ⟨x, hx, (Bool.and_eq_true _ _ ▸ hit).2⟩
      · exact ih (succ_lt hs) (by omega)

/-- The search does not pass the slot of the key. -/
theorem Good.findLoop_hit (h : Good l) (E : KeyEq κ) {k : κ} {x : Slot κ μ} {p : Nat} (hx : slotAt l p = some x)
    (hk : E.eq x.key k = true) (hone : ∀ q y, slotAt l q = some y → E.eq y.key k = true → q = p) {fuel : Nat}
    (hs : s < l.length) (hle : gap l.length (ideal l.length x) s ≤ gap l.length (ideal l.length x) p)
    (hz : z < l.length) (hfree : slotAt l z = none) (hfuel : gap l.length s z < fuel) :
    findLoop E l x.ctl k fuel s (gap l.length (ideal l.length x) s) = some (some p) := by
  obtain ⟨hp, -⟩ := slotAt_some hx
  have hi : ideal l.length x < l.length := h.cap.ideal_lt _
  induction fuel generalizing s with
  | zero => omega
  | succ fuel ih =>
    obtain ⟨y, hy, hge⟩ := h.ordered.reach (h.cap.housed _) hp hx hs hle
    have hne : s ≠ z := fun he => by rw [he, hfree] at hy; cases hy
    have hgap := gap_succ_left hs hz hne
    have hnot : ¬distanceOf l.length s y.ctl < gap l.length (ideal l.length x) s := by
      rw [h.cap.distanceOf]
      exact not_lt.mpr hge
    unfold findLoop
    simp only [hy, if_neg hnot, h.cap.nextSlot]
    split
    · rename_i hit
      rw [hone s y hy (Bool.and_eq_true _ _ ▸ hit).2]
    rename_i hmiss
    have hsp : s ≠ p := by
      rintro rfl
      rw [hx] at hy
      cases hy
      exact hmiss (by rw [hk, beq_self_eq_true]; rfl)
    have hlt : gap l.length (ideal l.length x) s < gap l.length (ideal l.length x) p :=
      lt_of_le_of_ne hle fun he => hsp (gap_inj hi hs hp he)
    have hstep := gap_succ hi hs (ne_succ_of_gap_lt hs hp hlt)
    rw [← hstep]
    exact ih (succ_lt hs) (by omega) (by omega)

end Slots

/-! ## Elements with different keys -/

section Keys

variable {κ μ : Type*} {E : KeyEq κ} {xs ys : List (Slot κ μ)} {x : Slot κ μ} {k : κ}

/-- No two elements have equal keys. -/
def Distinct (E : KeyEq κ) (xs : List (Slot κ μ)) : Prop := xs.Pairwise fun x y => ¬E.eq x.key y.key = true

/-- The element with a key. -/
def lookup (E : KeyEq κ) (xs : List (Slot κ μ)) (k : κ) : Option (κ × μ) :=
  (xs.find? fun x => E.eq x.key k).map fun x => (x.key, x.val)

theorem Distinct.perm (h : Distinct E xs) (hp : xs.Perm ys) : Distinct E ys :=
  (hp.pairwise_iff fun hxy hyx => hxy (E.equiv.symm hyx)).mp h

theorem lookup_cons : lookup E (x :: xs) k = if E.eq x.key k then some (x.key, x.val) else lookup E xs k := by
  unfold lookup
  rw [find?_cons]
  cases E.eq x.key k <;> rfl

theorem lookup_congr {q : κ} (h : E.eq k q = true) : lookup E xs q = lookup E xs k := by
  have hsame : (fun x : Slot κ μ => E.eq x.key q) = fun x => E.eq x.key k := by
    funext x
    exact Bool.eq_iff_iff.mpr ⟨fun hx => E.equiv.trans hx (E.equiv.symm h), fun hx => E.equiv.trans hx h⟩
  unfold lookup
  rw [hsame]

theorem lookup_none : lookup E xs k = none ↔ ∀ x ∈ xs, ¬E.eq x.key k = true := by
  unfold lookup
  rw [map_eq_none_iff, find?_eq_none]

theorem Distinct.lookup (h : Distinct E xs) (hx : x ∈ xs) (hk : E.eq x.key k = true) :
    lookup E xs k = some (x.key, x.val) := by
  induction xs with
  | nil => cases hx
  | cons y xs ih =>
    rw [lookup_cons]
    obtain ⟨hfirst, hrest⟩ := pairwise_cons.mp h
    rcases mem_cons.mp hx with rfl | hx
    · rw [if_pos hk]
    · rw [if_neg fun hy => hfirst x hx (E.equiv.trans hy (E.equiv.symm hk))]
      exact ih hrest hx

theorem Distinct.lookup_perm (h : Distinct E xs) (hp : xs.Perm ys) : Flat.lookup E xs = Flat.lookup E ys := by
  funext k
  cases hy : Flat.lookup E ys k with
  | none =>
    rw [lookup_none] at hy ⊢
    exact fun x hx => hy x (hp.subset hx)
  | some v =>
    unfold Flat.lookup at hy
    obtain ⟨y, hfind, rfl⟩ := map_eq_some_iff.mp hy
    exact h.lookup (hp.symm.subset (mem_of_find?_eq_some hfind)) (by simpa using find?_some hfind)

theorem Distinct.lookup_erase (h : Distinct E xs) (hp : xs.Perm (x :: ys)) :
    Flat.lookup E ys = fun k => if E.eq x.key k then none else Flat.lookup E xs k := by
  funext k
  rw [h.lookup_perm hp, lookup_cons]
  split
  · rename_i hk
    rw [lookup_none]
    intro y hy hyk
    exact (pairwise_cons.mp (h.perm hp)).1 y hy (E.equiv.trans hk (E.equiv.symm hyk))
  · rfl

theorem Distinct.lookup_filter (h : Distinct E xs) (p : κ → μ → Bool) :
    Flat.lookup E (xs.filter fun x => !p x.key x.val) = fun k => (Flat.lookup E xs k).filter fun kv =>
    !p kv.1 kv.2 := by
  funext k
  induction xs with
  | nil => rfl
  | cons x xs ih =>
    obtain ⟨hfirst, hrest⟩ := pairwise_cons.mp h
    rw [lookup_cons, filter_cons]
    have hnone : E.eq x.key k = true → Flat.lookup E (xs.filter fun x => !p x.key x.val) k = none := fun hk => by
      rw [lookup_none]
      exact fun y hy hyk => hfirst y (mem_filter.mp hy).1 (E.equiv.trans hk (E.equiv.symm hyk))
    cases hp : p x.key x.val with
    | true =>
      rw [if_neg (by simp)]
      split
      · rename_i hk
        rw [hnone hk, filter_some, if_neg (by simp [hp])]
      · exact ih hrest
    | false =>
      rw [if_pos Bool.not_false, lookup_cons]
      split
      · rw [filter_some, if_pos (by simp [hp])]
      · exact ih hrest

/-- Different keys that all have an equal one in another list. -/
theorem Distinct.match_all (h : Distinct E xs) (hmatch : ∀ x ∈ xs, ∃ y ∈ ys, E.eq y.key x.key = true) :
    xs.length ≤ ys.length ∧ (ys.length ≤ xs.length → ∀ y ∈ ys, ∃ x ∈ xs, E.eq y.key x.key = true) := by
  induction xs generalizing ys with
  | nil =>
    refine ⟨Nat.zero_le _, fun hle y hy => ?_⟩
    rw [length_eq_zero_iff.mp (Nat.le_zero.mp hle)] at hy
    cases hy
  | cons x xs ih =>
    obtain ⟨hfirst, hrest⟩ := pairwise_cons.mp h
    obtain ⟨y₀, hy₀, hk₀⟩ := hmatch x mem_cons_self
    obtain ⟨pre, suf, rfl⟩ := append_of_mem hy₀
    have hperm : (pre ++ y₀ :: suf).Perm (y₀ :: (pre ++ suf)) := perm_middle
    -- the others have their equal keys elsewhere
    have hothers : ∀ x' ∈ xs, ∃ y ∈ pre ++ suf, E.eq y.key x'.key = true := by
      intro x' hx'
      obtain ⟨y, hy, hk⟩ := hmatch x' (mem_cons_of_mem x hx')
      rcases mem_cons.mp (hperm.subset hy) with rfl | hy
      · exact absurd (E.equiv.trans (E.equiv.symm hk₀) hk) (hfirst x' hx')
      · exact ⟨y, hy, hk⟩
    obtain ⟨hle, hall⟩ := ih hrest hothers
    have hlen := hperm.length_eq
    rw [length_cons] at hlen
    rw [length_cons]
    refine ⟨by omega, fun hge y hy => ?_⟩
    rcases mem_cons.mp (hperm.subset hy) with rfl | hy
    · exact ⟨x, mem_cons_self, hk₀⟩
    · obtain ⟨x', hx', hk⟩ := hall (by omega) y hy
      exact ⟨x', mem_cons_of_mem x hx', hk⟩

end Keys

end BoxOS.Boxcxx.Flat
