import Mathlib.Tactic

/-!
# Lists whose equal members stand together

`Grouped r l`: between two members of `l` that are related by `r` there are only members related to them. The predicate
goes to sublists and to the reverse, and a member may be put in front of its group. From the first member of a group on,
the group is what `takeWhile` takes (`filter_eq_takeWhile`).
-/

namespace Lib

open List

variable {α : Type*}

/-- Between two related members there are only related ones. -/
def Grouped (r : α → α → Prop) (l : List α) : Prop := ∀ x y z, [x, y, z].Sublist l → r x z → r x y

section Basic

variable {r : α → α → Prop} {l l' : List α}

theorem grouped_nil (r : α → α → Prop) : Grouped r [] := fun _ _ _ h => by cases h

theorem Grouped.sublist (h : Grouped r l) (hs : l'.Sublist l) : Grouped r l' := fun x y z hx => h x y z (hx.trans hs)

end Basic

section Equivalence

variable {r : α → α → Prop} {l pre suf : List α} {n : α}

theorem Grouped.reverse (hr : Equivalence r) (h : Grouped r l) : Grouped r l.reverse := by
  intro x y z hs hxz
  have hs' : [z, y, x].Sublist l := by
    have := hs.reverse
    rwa [reverse_reverse] at this
  exact hr.trans hxz (h z y x hs' (hr.symm hxz))

theorem Grouped.append (hl : Grouped r pre) (hs : Grouped r suf) (h : ∀ x ∈ pre, ∀ y ∈ suf, ¬r x y) :
    Grouped r (pre ++ suf) := by
  intro x y z hsub hxz
  obtain ⟨a, b, hab, ha, hb⟩ := sublist_append_iff.mp hsub
  match a, hab with
  | [], hab =>
    subst hab
    exact hs x y z hb hxz
  | [a1], hab =>
    cases hab
    exact absurd hxz (h x (ha.subset (by simp)) z (hb.subset (by simp)))
  | [a1, a2], hab =>
    cases hab
    exact absurd hxz (h x (ha.subset (by simp)) z (hb.subset (by simp)))
  | [a1, a2, a3], hab =>
    cases hab
    exact hl x y z ha hxz
  | a1 :: a2 :: a3 :: a4 :: rest, hab => cases hab

theorem Grouped.cons (hr : Equivalence r) (h : Grouped r l) (hhead : ∀ m ∈ l, r n m → ∃ s ∈ l.head?, r n s) :
    Grouped r (n :: l) := by
  intro x y z hs hxz
  rcases sublist_cons_iff.mp hs with hs | ⟨t, ht, hs⟩
  · exact h x y z hs hxz
  cases ht
  -- the new member is the first of the three
  obtain ⟨s, hshead, hns⟩ := hhead z (hs.subset (by simp)) hxz
  obtain ⟨l', rfl⟩ : ∃ l', l = s :: l' := by
    cases l with
    | nil => cases hshead
    | cons a l' => exact ⟨l', by cases hshead; rfl⟩
  rcases sublist_cons_iff.mp hs with hs' | ⟨t, ht, -⟩
  · exact hr.trans hns (h s y z (hs'.cons_cons s) (hr.trans (hr.symm hns) hxz))
  · cases ht
    exact hns

/-- A member is put in front of its group, which begins after members that are not related to it. -/
theorem Grouped.insert (hr : Equivalence r) (h : Grouped r (pre ++ suf)) (hpre : ∀ m ∈ pre, ¬r n m)
    (hhead : ∀ s ∈ suf.head?, r n s) : Grouped r (pre ++ n :: suf) := by
  induction pre with
  | nil =>
    apply Grouped.cons hr h
    intro m hm hnm
    cases suf with
    | nil => cases hm
    | cons s suf' => exact ⟨s, rfl, hhead s rfl⟩
  | cons p pre ih =>
    have hrest := ih (h.sublist (sublist_cons_self p _)) fun m hm => hpre m (mem_cons_of_mem p hm)
    apply Grouped.cons hr hrest
    intro m hm hpm
    have hnot := hpre p mem_cons_self
    -- the member related to the head is in front of the new one
    have hmem : m ∈ pre := by
      rcases mem_append.mp hm with hm | hm
      · exact hm
      rcases mem_cons.mp hm with rfl | hm
      · exact absurd (hr.symm hpm) hnot
      obtain ⟨s, suf', rfl⟩ : ∃ s suf', suf = s :: suf' := by
        cases suf with
        | nil => cases hm
        | cons s suf' => exact ⟨s, suf', rfl⟩
      have hns := hhead s rfl
      have hps : r p s := by
        rcases mem_cons.mp hm with rfl | hm
        · exact hpm
        · refine h p s m ?_ hpm
          apply List.Sublist.cons_cons
          exact ((singleton_sublist.mpr hm).cons_cons s).trans (sublist_append_right pre _)
      exact absurd (hr.trans hns (hr.symm hps)) hnot
    cases pre with
    | nil => cases hmem
    | cons p' pre' =>
      refine ⟨p', rfl, ?_⟩
      rcases mem_cons.mp hmem with rfl | hmem
      · exact hpm
      · refine h p p' m ?_ hpm
        apply List.Sublist.cons_cons
        exact ((singleton_sublist.mpr hmem).cons_cons p').trans (sublist_append_left _ suf)

end Equivalence

/-- The group of the first member. -/
theorem filter_eq_takeWhile {r : α → α → Prop} {q : α → Bool} {l : List α} (h : Grouped r l)
    (hq : ∀ x ∈ l, ∀ y ∈ l, q x = true → (r x y ↔ q y = true)) (hhead : ∀ s ∈ l.head?, q s = true) :
    l.filter q = l.takeWhile q := by
  cases l with
  | nil => rfl
  | cons s l =>
    have hs : q s = true := hhead s rfl
    rw [filter_cons_of_pos hs, takeWhile_cons_of_pos hs]
    congr 1
    induction l with
    | nil => rfl
    | cons y l ih =>
      cases hy : q y with
      | true =>
        rw [filter_cons_of_pos hy, takeWhile_cons_of_pos hy]
        congr 1
        refine ih (h.sublist ?_) (fun a ha b hb => hq a ?_ b ?_) hhead
        · exact (sublist_cons_self y l).cons_cons s
        · exact ((sublist_cons_self y l).cons_cons s).subset ha
        · exact ((sublist_cons_self y l).cons_cons s).subset hb
      | false =>
        rw [filter_cons_of_neg (by simp [hy]), takeWhile_cons_of_neg (by simp [hy])]
        apply filter_eq_nil_iff.mpr
        intro z hz hqz
        have hsz : r s z := (hq s (by simp) z (by simp [hz]) hs).mpr hqz
        have hsy : r s y := h s y z (by simp [hz]) hsz
        have := (hq s (by simp) y (by simp) hs).mp hsy
        rw [hy] at this
        cases this

end Lib
