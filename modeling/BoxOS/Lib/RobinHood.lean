import Mathlib.Tactic

/-!
# Robin Hood order on a circle

`n` slots in a circle, some of them taken, and every element has an ideal slot; its probe distance at a slot is the
`gap` from the ideal slot to this one. `Ordered`: the element before a displaced one is at least as far from its ideal
slot as the displaced one would be there. Then all slots from the ideal slot of an element to its own are taken by
elements that are at least as far displaced (`OrderedOff.reach`), which is why a search may stop early.

An insertion and a removal move elements by one slot, one after the other. Between two moves one slot is a hole
(`Hole`): the order holds around it, and the element before or behind it may be moved into it.
-/

open Function (update_of_ne update_self)

namespace Lib.RobinHood

/-! ## A circle of slots -/

/-- The slot after a slot. -/
def succ (n p : Nat) : Nat := (p + 1) % n

/-- The slot before a slot. -/
def pred (n p : Nat) : Nat := (p + n - 1) % n

/-- How far a slot lies behind another one. -/
def gap (n i p : Nat) : Nat := (p + n - i) % n

section Circle

variable {n i p q : Nat}

theorem succ_eq (hp : p < n) : succ n p = if p + 1 = n then 0 else p + 1 := by
  unfold succ
  split
  · rename_i h
    rw [h, Nat.mod_self]
  · exact Nat.mod_eq_of_lt (by omega)

theorem pred_eq (hp : p < n) : pred n p = if p = 0 then n - 1 else p - 1 := by
  unfold pred
  split
  · exact Nat.mod_eq_of_lt (by omega) |>.trans (by omega)
  · rw [Nat.mod_eq_sub_mod (by omega), Nat.mod_eq_of_lt (by omega)]
    omega

theorem gap_eq (hi : i < n) (hp : p < n) : gap n i p = if i ≤ p then p - i else p + n - i := by
  unfold gap
  split
  · rw [Nat.mod_eq_sub_mod (by omega), Nat.mod_eq_of_lt (by omega)]
    omega
  · exact Nat.mod_eq_of_lt (by omega)

theorem succ_lt (hp : p < n) : succ n p < n := Nat.mod_lt _ (by omega)

theorem pred_lt (hp : p < n) : pred n p < n := Nat.mod_lt _ (by omega)

theorem gap_lt (hp : p < n) : gap n i p < n := Nat.mod_lt _ (by omega)

theorem succ_pred (hp : p < n) : succ n (pred n p) = p := by
  rw [succ_eq (pred_lt hp), pred_eq hp]
  split <;> split <;> omega

theorem pred_succ (hp : p < n) : pred n (succ n p) = p := by
  rw [pred_eq (succ_lt hp), succ_eq hp]
  split <;> split <;> omega

theorem succ_ne (hn : 2 ≤ n) (hp : p < n) : succ n p ≠ p := by
  rw [succ_eq hp]
  split <;> omega

theorem succ_succ_ne (hn : 3 ≤ n) (hp : p < n) : succ n (succ n p) ≠ p := by
  rw [succ_eq (succ_lt hp), succ_eq hp]
  split <;> split <;> omega

theorem gap_self (hi : i < n) : gap n i i = 0 := by
  rw [gap_eq hi hi]
  simp

theorem gap_eq_zero (hi : i < n) (hp : p < n) : gap n i p = 0 ↔ p = i := by
  rw [gap_eq hi hp]
  split <;> omega

theorem gap_inj (hi : i < n) (hp : p < n) (hq : q < n) (h : gap n i p = gap n i q) : p = q := by
  rw [gap_eq hi hp, gap_eq hi hq] at h
  split at h <;> split at h <;> omega

theorem gap_succ (hi : i < n) (hp : p < n) (h : i ≠ succ n p) : gap n i (succ n p) = gap n i p + 1 := by
  rw [gap_eq hi (succ_lt hp), gap_eq hi hp]
  rw [succ_eq hp] at h ⊢
  split <;> split <;> split <;> rename_i h1 h2 h3 <;> simp only [h1, if_true, if_false] at h <;> omega

theorem gap_add {k : Nat} (hi : i < n) (hk : k < n) : gap n i ((i + k) % n) = k := by
  have hlt : (i + k) % n < n := Nat.mod_lt _ (by omega)
  rw [gap_eq hi hlt]
  by_cases h : i + k < n
  · rw [Nat.mod_eq_of_lt h]
    split <;> omega
  · rw [Nat.mod_eq_sub_mod (by omega), Nat.mod_eq_of_lt (by omega)]
    split <;> omega

theorem gap_succ_self (hp : p < n) : gap n (succ n p) p = n - 1 := by
  rw [gap_eq (succ_lt hp) hp, succ_eq hp]
  split <;> split <;> omega

theorem gap_pred_self (hp : p < n) : gap n p (pred n p) = n - 1 := by
  have := gap_succ_self (pred_lt hp)
  rwa [succ_pred hp] at this

theorem ne_succ_of_gap_lt (hp : p < n) (hq : q < n) (h : gap n i p < gap n i q) : i ≠ succ n p := by
  intro he
  have hlast := gap_succ_self hp
  rw [← he] at hlast
  have := gap_lt (i := i) hq
  omega

theorem gap_succ_left (hp : p < n) (hq : q < n) (h : p ≠ q) : gap n (succ n p) q + 1 = gap n p q := by
  rw [gap_eq (succ_lt hp) hq, gap_eq hp hq, succ_eq hp]
  split <;> split <;> split <;> omega

end Circle

/-! ## The order -/

section Order

variable {α : Type*} {n : Nat} {ideal : α → Nat} {a : Nat → Option α} {h p s z : Nat} {x y : α}

/-- An element is at its ideal slot, or the element before the slot is at least as far displaced as it would be there.
-/
def FitsAt (n : Nat) (ideal : α → Nat) (a : Nat → Option α) (p : Nat) (x : α) : Prop :=
  ideal x ≠ p → ∃ y, a (pred n p) = some y ∧ gap n (ideal x) (pred n p) ≤ gap n (ideal y) (pred n p)

/-- Every element fits where it is, as far as its slot and the one before are not among the slots `H`. -/
def OrderedOff (H : Nat → Prop) (n : Nat) (ideal : α → Nat) (a : Nat → Option α) : Prop :=
  ∀ p < n, ∀ x, a p = some x → ¬H p → ¬H (pred n p) → FitsAt n ideal a p x

/-- Every element fits where it is. -/
def Ordered (n : Nat) (ideal : α → Nat) (a : Nat → Option α) : Prop := OrderedOff (fun _ => False) n ideal a

/-- Every ideal slot is a slot. -/
def Housed (n : Nat) (ideal : α → Nat) (a : Nat → Option α) : Prop := ∀ p x, a p = some x → ideal x < n

theorem FitsAt.congr {b : Nat → Option α} (hx : FitsAt n ideal a p x) (hb : b (pred n p) = a (pred n p)) :
    FitsAt n ideal b p x := by
  unfold FitsAt
  rw [hb]
  exact hx

/-- **The slots up to an element** are taken, by elements that are displaced at least as far as a search for it. -/
theorem OrderedOff.reach {H : Nat → Prop} (ho : OrderedOff H n ideal a) (hh : Housed n ideal a) (hp : p < n)
    (hx : a p = some x) (hs : s < n) (hle : gap n (ideal x) s ≤ gap n (ideal x) p)
    (hpath : ∀ q < n, gap n (ideal x) s ≤ gap n (ideal x) q → gap n (ideal x) q ≤ gap n (ideal x) p → ¬H q) :
    ∃ y, a s = some y ∧ gap n (ideal x) s ≤ gap n (ideal y) s := by
  have hi := hh p x hx
  -- back from the element
  induction hk : gap n (ideal x) p - gap n (ideal x) s generalizing s with
  | zero =>
    have := gap_inj hi hs hp (by omega)
    subst this
    exact ⟨x, hx, le_rfl⟩
  | succ k ih =>
    have hne : ideal x ≠ succ n s := ne_succ_of_gap_lt hs hp (by omega)
    have hstep := gap_succ hi hs hne
    obtain ⟨y', hy', hge⟩ := ih (succ_lt hs) (by omega) (fun q hq hlo => hpath q hq (by omega)) (by omega)
    have hi' := hh _ y' hy'
    have hne' : ideal y' ≠ succ n s := by
      intro he
      rw [he, gap_self (succ_lt hs)] at hge
      omega
    have hpred : pred n (succ n s) = s := pred_succ hs
    obtain ⟨y, hy, hyge⟩ := ho _ (succ_lt hs) y' hy' (hpath _ (succ_lt hs) (by omega) (by omega))
      (by rw [hpred]; exact hpath s hs le_rfl hle) hne'
    rw [hpred] at hy hyge
    have hstep' := gap_succ hi' hs hne'
    exact ⟨y, hy, by omega⟩

theorem OrderedOff.no_wrap (ho : OrderedOff (· = h) n ideal a) (hh : Housed n ideal a) (hh' : ideal x = h) (hp : p < n)
    (hx : a p = some x) (hz : z < n) (hfree : a z = none) (hzh : z ≠ h) : succ n p ≠ h := by
  intro he
  have hi := hh p x hx
  have hlast : gap n h p = n - 1 := he ▸ gap_succ_self hp
  have hpos : gap n h z ≠ 0 := fun h0 => hzh ((gap_eq_zero (hh' ▸ hi) hz).mp h0)
  obtain ⟨y, hy, -⟩ :=
      ho.reach hh hp hx hz (by rw [hh', hlast]; have := gap_lt (i := h) hz; omega) fun q hq hlo _ hqh => by
    rw [hh', hqh, gap_self (hh' ▸ hi)] at hlo
    omega
  rw [hfree] at hy
  cases hy

theorem Ordered.off (ho : Ordered n ideal a) (H : Nat → Prop) : OrderedOff H n ideal a :=
  fun p hp x hx _ _ => ho p hp x hx id id

theorem Ordered.reach (ho : Ordered n ideal a) (hh : Housed n ideal a) (hp : p < n) (hx : a p = some x) (hs : s < n)
    (hle : gap n (ideal x) s ≤ gap n (ideal x) p) : ∃ y, a s = some y ∧ gap n (ideal x) s ≤ gap n (ideal y) s :=
  OrderedOff.reach ho hh hp hx hs hle fun _ _ _ _ => id

theorem Ordered.congr {b : Nat → Option α} (ho : Ordered n ideal a) (hb : ∀ p, (b p).map ideal = (a p).map ideal) :
    Ordered n ideal b := by
  intro p hp x hx _ _ hne
  have hx' := hb p
  rw [hx, Option.map_some] at hx'
  obtain ⟨x', hax, hix⟩ := Option.map_eq_some_iff.mp hx'.symm
  obtain ⟨y', hay, hge⟩ := ho p hp x' hax id id (by rwa [hix])
  have hy' := hb (pred n p)
  rw [hay, Option.map_some] at hy'
  obtain ⟨y, hy, hiy⟩ := Option.map_eq_some_iff.mp hy'
  refine ⟨y, hy, ?_⟩
  rw [hiy, ← hix]
  exact hge

end Order

/-! ## Holes -/

section Hole

variable {α : Type*} {n : Nat} {ideal : α → Nat} {a : Nat → Option α} {h p z : Nat} {x : α}

/-- What is in the slot `h` does not count; the element behind it would fit into it. -/
structure Hole (n : Nat) (ideal : α → Nat) (a : Nat → Option α) (h : Nat) : Prop where
  off : OrderedOff (· = h) n ideal a
  behind : ∀ x, a (succ n h) = some x → ideal x ≠ succ n h → FitsAt n ideal a h x

theorem Ordered.hole (ho : Ordered n ideal a) (hh : Housed n ideal a) (hlt : h < n) : Hole n ideal a h where
  off := ho.off _
  behind := by
    intro x hx hne hxh
    have hpred : pred n (succ n h) = h := pred_succ hlt
    obtain ⟨y, hy, hge⟩ := ho _ (succ_lt hlt) x hx id id hne
    rw [hpred] at hy hge
    -- the element in the slot is displaced, so there is one before it
    have hi := hh _ x hx
    have hj := hh _ y hy
    have hxpos : gap n (ideal x) h ≠ 0 := fun h0 => hxh ((gap_eq_zero hi hlt).mp h0).symm
    have hyh : ideal y ≠ h := by
      intro he
      rw [he, gap_self hlt] at hge
      omega
    obtain ⟨y', hy', hge'⟩ := ho h hlt y hy id id hyh
    have hsp : succ n (pred n h) = h := succ_pred hlt
    have hx1 := gap_succ hi (pred_lt hlt) (by rw [hsp]; exact hxh)
    have hy1 := gap_succ hj (pred_lt hlt) (by rw [hsp]; exact hyh)
    rw [hsp] at hx1 hy1
    exact ⟨y', hy', by omega⟩

theorem Hole.update (hn : 2 ≤ n) (hole : Hole n ideal a h) (hlt : h < n) (v : Option α) :
    Hole n ideal (Function.update a h v) h := by
  have hne : succ n h ≠ h := succ_ne hn hlt
  have hpne : pred n h ≠ h := fun he => hne ((congrArg (succ n) he).symm.trans (succ_pred hlt))
  refine ⟨fun p hlp y hy hph hpred => ?_, fun y hy hne' => ?_⟩
  · rw [update_of_ne hph] at hy
    refine (hole.off p hlp y hy hph hpred).congr ?_
    rw [update_of_ne hpred]
  · rw [update_of_ne hne] at hy
    refine (hole.behind y hy hne').congr ?_
    rw [update_of_ne hpne]

theorem Hole.back (hn : 3 ≤ n) (hole : Hole n ideal a h) (hh : Housed n ideal a) (hlt : h < n)
    (hx : a (pred n h) = some x) (hz : z < n) (hfree : a z = none) (hzh : z ≠ h) :
    Hole n ideal (Function.update a h (some x)) (pred n h) := by
  have hp := pred_lt hlt
  have hsp : succ n (pred n h) = h := succ_pred hlt
  have hne : pred n h ≠ h := fun he => succ_ne (by omega) hp (hsp.trans he.symm)
  have hne2 : pred n (pred n h) ≠ h := fun he => by
    have := succ_succ_ne hn (pred_lt hp)
    rw [succ_pred hp, hsp] at this
    exact this he.symm
  have hwrap : ideal x ≠ h := fun he => hole.off.no_wrap hh he hp hx hz hfree hzh hsp
  have hi := hh _ x hx
  refine ⟨fun p hlp y hy hyh hpred => ?_, fun y hy hne' => ?_⟩
  · by_cases hph : p = h
    · subst hph
      exact absurd rfl hpred
    · rw [update_of_ne hph] at hy
      by_cases hbefore : pred n p = h
      · -- the element behind the old hole
        have hsucc : succ n h = p := by rw [← hbefore, succ_pred hlp]
        intro hyp
        refine ⟨x, by rw [hbefore, update_self], ?_⟩
        rw [hbefore]
        have hj := hh _ y hy
        by_cases hyhome : ideal y = h
        · rw [hyhome, gap_self hlt]
          exact Nat.zero_le _
        obtain ⟨y', hy', hge⟩ := hole.behind y (hsucc ▸ hy) (hsucc ▸ hyp) hyhome
        rw [hx] at hy'
        cases hy'
        have h1 := gap_succ hj hp (by rw [hsp]; exact hyhome)
        have h2 := gap_succ hi hp (by rw [hsp]; exact hwrap)
        rw [hsp] at h1 h2
        omega
      · refine (hole.off p hlp y hy hph hbefore).congr ?_
        rw [update_of_ne hbefore]
  · rw [hsp, update_self] at hy
    cases hy
    refine (hole.off _ hp x hx hne hne2).congr ?_
    rw [update_of_ne hne2]

theorem Hole.forward (hn : 3 ≤ n) (hole : Hole n ideal a h) (hh : Housed n ideal a) (hlt : h < n)
    (hx : a (succ n h) = some x) (hxh : ideal x ≠ succ n h) :
    Hole n ideal (Function.update a h (some x)) (succ n h) := by
  have hs := succ_lt hlt
  have hps : pred n (succ n h) = h := pred_succ hlt
  have hne : succ n h ≠ h := succ_ne (by omega) hlt
  have hpne : pred n h ≠ h := fun he => hne ((congrArg (succ n) he).symm.trans (succ_pred hlt))
  have hne2 : succ n (succ n h) ≠ h := succ_succ_ne hn hlt
  have hi := hh _ x hx
  refine ⟨fun p hlp y hy hyh hpred => ?_, fun y hy hne' hyhome => ?_⟩
  · by_cases hph : p = h
    · subst hph
      rw [update_self] at hy
      cases hy
      refine (hole.behind x hx hxh).congr ?_
      rw [update_of_ne hpne]
    · rw [update_of_ne hph] at hy
      have hbefore : pred n p ≠ h := fun he => hyh (by rw [← he, succ_pred hlp])
      refine (hole.off p hlp y hy hph hbefore).congr ?_
      rw [update_of_ne hbefore]
  · -- the element that comes next
    rw [update_of_ne hne2] at hy
    have hj := hh _ y hy
    have hps2 : pred n (succ n (succ n h)) = succ n h := pred_succ hs
    obtain ⟨y', hy', hge⟩ := hole.off _ (succ_lt hs) y hy hne2 (by rw [hps2]; exact hne) hne'
    rw [hps2] at hy' hge
    rw [hx] at hy'
    cases hy'
    refine ⟨x, by rw [hps, update_self], ?_⟩
    rw [hps]
    have h1 := gap_succ hj hlt hyhome
    have h2 := gap_succ hi hlt hxh
    omega

theorem Hole.close_none (hole : Hole n ideal a h) (hend : ∀ x, a (succ n h) = some x → ideal x = succ n h) :
    Ordered n ideal (Function.update a h none) := by
  intro p hlp y hy _ _
  by_cases hph : p = h
  · rw [hph, update_self] at hy
    cases hy
  rw [update_of_ne hph] at hy
  by_cases hbefore : pred n p = h
  · have hsucc : succ n h = p := by rw [← hbefore, succ_pred hlp]
    exact fun hne => absurd (hsucc ▸ hend y (hsucc ▸ hy)) hne
  · refine (hole.off p hlp y hy hph hbefore).congr ?_
    rw [update_of_ne hbefore]

theorem Hole.close_some (hn : 2 ≤ n) (hole : Hole n ideal a h) (hlt : h < n) (hfits : FitsAt n ideal a h x)
    (hbehind : ∀ y, a (succ n h) = some y → ideal y ≠ succ n h → gap n (ideal y) h ≤ gap n (ideal x) h) :
    Ordered n ideal (Function.update a h (some x)) := by
  have hne : succ n h ≠ h := succ_ne hn hlt
  have hpne : pred n h ≠ h := fun he => hne ((congrArg (succ n) he).symm.trans (succ_pred hlt))
  intro p hlp y hy _ _
  by_cases hph : p = h
  · subst hph
    rw [update_self] at hy
    cases hy
    refine hfits.congr ?_
    rw [update_of_ne hpne]
  rw [update_of_ne hph] at hy
  by_cases hbefore : pred n p = h
  · have hsucc : succ n h = p := by rw [← hbefore, succ_pred hlp]
    intro hyp
    refine ⟨x, by rw [hbefore, update_self], ?_⟩
    rw [hbefore]
    exact hbehind y (hsucc ▸ hy) (hsucc ▸ hyp)
  · refine (hole.off p hlp y hy hph hbefore).congr ?_
    rw [update_of_ne hbefore]

end Hole

end Lib.RobinHood
