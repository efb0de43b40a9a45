import Mathlib.Tactic

/-!
# The tables of one context, as a tree

Pages are counted in 4 KiB. Below an entry of the third level (1 GiB) lies nothing, a leaf, or a page directory, and
below an entry of that (2 MiB) nothing, a leaf, or a page table. `leafAt` is what the processor finds for a page.

What the operations of `vmm.c` do to the tree is one definition each. None of them takes a table away (`Grows`), and
each leaves the translation of other pages as it was.
-/

open Function (update update_apply update_of_ne)

namespace BoxOS.Memory.Tlb

/-- A leaf of `span` pages: `VMM_PTE_FLAGS_MASK` and the rest of the flags are in `flags`. -/
structure Leaf where
  base : Nat
  span : Nat
  frame : Nat
  flags : BitVec 64
deriving DecidableEq

/-- An entry of a page directory. -/
inductive Pd where
  | empty
  | leaf (frame : Nat) (flags : BitVec 64)
  | table (pt : Nat → Option (Nat × BitVec 64))

/-- An entry of the third level. -/
inductive Pdpt where
  | empty
  | leaf (frame : Nat) (flags : BitVec 64)
  | table (pd : Nat → Pd)

/-- The entries of the third level, by their number in the address space. -/
abbrev Tables := Nat → Pdpt

/-- `VMM_FLAG_LARGE_PAGE` and `VMM_FLAG_PRESENT`. -/
def flagLarge : BitVec 64 := 0x80#64

@[inherit_doc flagLarge]
def flagPresent : BitVec 64 := 0x1#64

/-- `VMM_PTE_FLAGS_MASK`. -/
def pteFlagsMask : BitVec 64 := 0x8000000000000FFF#64

namespace Leaf

def Covers (l : Leaf) (p : Nat) : Prop := l.base ≤ p ∧ p < l.base + l.span

instance (l : Leaf) (p : Nat) : Decidable (l.Covers p) := inferInstanceAs (Decidable (_ ∧ _))

/-- Some page of the leaf is one of `count` pages from `addr` on. -/
def Meets (l : Leaf) (addr count : Nat) : Prop := l.base < addr + count ∧ addr < l.base + l.span

instance (l : Leaf) (addr count : Nat) : Decidable (l.Meets addr count) := inferInstanceAs (Decidable (_ ∧ _))

/-- The translation of a page: its frame and its flags. -/
def translate (l : Leaf) (p : Nat) : Nat × BitVec 64 :=
  (l.frame + (p - l.base), if l.span = 1 then l.flags else l.flags &&& ~~~flagLarge)

end Leaf

variable {T T' : Tables} {p q : Nat} {l : Leaf}

/-- The page directory entry of a page. -/
def pdAt (T : Tables) (p : Nat) : Option Pd :=
  match T (p / 262144) with
  | .table pd => some (pd (p / 512 % 512))
  | _ => none

/-- The leaf of a page below its page directory entry. -/
def Pd.leafOf (x : Pd) (p : Nat) : Option Leaf :=
  match x with
  | .empty => none
  | .leaf frame flags => some ⟨p / 512 * 512, 512, frame, flags⟩
  | .table pt => (pt (p % 512)).map fun e => ⟨p, 1, e.1, e.2⟩

/-- The leaf of a page. -/
def leafAt (T : Tables) (p : Nat) : Option Leaf :=
  match T (p / 262144) with
  | .empty => none
  | .leaf frame flags => some ⟨p / 262144 * 262144, 262144, frame, flags⟩
  | .table pd => (pd (p / 512 % 512)).leafOf p

/-- The page directory entry of a page is set. -/
def setPd (T : Tables) (p : Nat) (x : Pd) : Tables :=
  match T (p / 262144) with
  | .table pd => update T (p / 262144) (.table (update pd (p / 512 % 512) x))
  | _ => T

/-- `vmm_get_or_create_table` makes a page directory where there was nothing. -/
def ensurePd (T : Tables) (p : Nat) : Tables :=
  match T (p / 262144) with
  | .empty => update T (p / 262144) (.table fun _ => .empty)
  | _ => T

/-- `vmm_get_or_create_table` makes a page table where there was nothing. -/
def ensurePt (T : Tables) (p : Nat) : Tables :=
  match pdAt T p with
  | some .empty => setPd T p (.table fun _ => none)
  | _ => T

/-- `vmm_map_page` of a page that is not mapped; `none` when a large leaf is in the way. -/
def mapPage (T : Tables) (p frame : Nat) (flags : BitVec 64) : Option Tables :=
  let T := ensurePt (ensurePd T p) p
  match pdAt T p with
  | some (.table pt) =>
    match pt (p % 512) with
    | none => some (setPd T p (.table (update pt (p % 512) (some (frame, flags)))))
    | some _ => none
  | _ => none

/-- `vmm_map_huge_2m`. -/
def mapHuge (T : Tables) (p frame : Nat) (flags : BitVec 64) : Option Tables :=
  let T := ensurePd T p
  match pdAt T p with
  | some .empty => if p % 512 = 0 then some (setPd T p (.leaf frame (flags ||| flagLarge))) else none
  | _ => none

/-- `vmm_unmap_page`. -/
def unmapPage (T : Tables) (p : Nat) : Option Tables :=
  match pdAt T p with
  | some (.table pt) =>
    match pt (p % 512) with
    | none => none
    | some _ => some (setPd T p (.table (update pt (p % 512) none)))
  | _ => none

/-- `vmm_unmap_huge_2m`. -/
def unmapHuge (T : Tables) (p : Nat) : Option Tables :=
  match pdAt T p with
  | some (.leaf _ _) => if p % 512 = 0 then some (setPd T p .empty) else none
  | _ => none

/-- One page of `vmm_protect`. -/
def protectPage (T : Tables) (p : Nat) (flags : BitVec 64) : Option Tables :=
  match pdAt T p with
  | some (.table pt) =>
    match pt (p % 512) with
    | none => none
    | some e =>
      some (setPd T p (.table (update pt (p % 512) (some (e.1, flags &&& pteFlagsMask ||| flagPresent)))))
  | _ => none

/-- `inherit_flags` of `vmm_demote_large_entry`. -/
def inheritFlags (flags : BitVec 64) : BitVec 64 := flags &&& pteFlagsMask &&& ~~~flagLarge

/-- `vmm_demote_large_entry`: the leaf over a page becomes a table; also its first page and its number of pages. -/
def demote (T : Tables) (p : Nat) : Option (Tables × Nat × Nat) :=
  match T (p / 262144) with
  | .empty => none
  | .leaf frame flags =>
    some (update T (p / 262144) (.table fun j => .leaf (frame + j * 512) (inheritFlags flags ||| flagLarge)),
      p / 262144 * 262144, 262144)
  | .table pd =>
    match pd (p / 512 % 512) with
    | .leaf frame flags =>
      some (setPd T p (.table fun j => some (frame + j, inheritFlags flags)), p / 512 * 512, 512)
    | _ => none

/-! ## What the processor finds -/

/-- The leaf of a page is the leaf of all pages that it covers. -/
theorem leafAt_covers (h : leafAt T p = some l) : l.Covers p ∧ ∀ q, l.Covers q → leafAt T q = some l := by
  unfold leafAt at h
  cases hg : T (p / 262144) with
  | empty =>
    rw [hg] at h
    cases h
  | leaf frame flags =>
    rw [hg] at h
    cases h
    refine ⟨⟨Nat.div_mul_le_self .., Nat.lt_div_mul_add (by omega)⟩, fun q hq => ?_⟩
    unfold Leaf.Covers at hq
    simp only at hq
    have he : q / 262144 = p / 262144 := by omega
    unfold leafAt
    rw [he, hg]
  | table pd =>
    rw [hg] at h
    cases hd : pd (p / 512 % 512) with
    | empty =>
      simp only [hd] at h
      cases h
    | leaf frame flags =>
      simp only [hd] at h
      cases h
      refine ⟨⟨Nat.div_mul_le_self .., Nat.lt_div_mul_add (by omega)⟩, fun q hq => ?_⟩
      unfold Leaf.Covers at hq
      simp only at hq
      have he : q / 512 = p / 512 := by omega
      unfold leafAt
      rw [show q / 262144 = p / 262144 by omega, hg, he]
      simp only [hd, Pd.leafOf, he]
    | table pt =>
      simp only [hd] at h
      obtain ⟨e, he, rfl⟩ := Option.map_eq_some_iff.mp h
      refine ⟨⟨le_rfl, Nat.lt_succ_self p⟩, fun q hq => ?_⟩
      unfold Leaf.Covers at hq
      simp only at hq
      rw [show q = p by omega]
      unfold leafAt
      rw [hg]
      simp only [hd]
      exact h

/-! ## Tables stay -/

/-- There is a page directory, and a page table. -/
def HasPd (T : Tables) (p : Nat) : Prop := ∃ pd, T (p / 262144) = .table pd

@[inherit_doc HasPd]
def HasPt (T : Tables) (p : Nat) : Prop := ∃ pt, pdAt T p = some (.table pt)

/-- No table is taken away. -/
def Grows (T T' : Tables) : Prop := (∀ p, HasPd T p → HasPd T' p) ∧ ∀ p, HasPt T p → HasPt T' p

/-- The tables above a leaf that was found are there. -/
def Shaped (T : Tables) (l : Leaf) : Prop :=
  l.span = 1 ∧ HasPt T l.base ∨ l.span = 512 ∧ l.base % 512 = 0 ∧ HasPd T l.base ∨ l.span = 262144 ∧ l.base % 262144 = 0

theorem Shaped.grows (h : Shaped T l) (hg : Grows T T') : Shaped T' l := by
  rcases h with ⟨hs, ht⟩ | ⟨hs, hb, ht⟩ | ⟨hs, hb⟩
  · exact .inl ⟨hs, hg.2 _ ht⟩
  · exact .inr (.inl ⟨hs, hb, hg.1 _ ht⟩)
  · exact .inr (.inr ⟨hs, hb⟩)

theorem leafAt_shaped (h : leafAt T p = some l) : Shaped T l := by
  unfold leafAt at h
  cases hg : T (p / 262144) with
  | empty =>
    rw [hg] at h
    cases h
  | leaf frame flags =>
    rw [hg] at h
    cases h
    exact .inr (.inr ⟨rfl, Nat.mul_mod_left ..⟩)
  | table pd =>
    rw [hg] at h
    cases hd : pd (p / 512 % 512) with
    | empty =>
      simp only [hd] at h
      cases h
    | leaf frame flags =>
      simp only [hd] at h
      cases h
      refine .inr (.inl ⟨rfl, Nat.mul_mod_left .., pd, ?_⟩)
      rw [show p / 512 * 512 / 262144 = p / 262144 by omega, hg]
    | table pt =>
      simp only [hd] at h
      obtain ⟨e, he, rfl⟩ := Option.map_eq_some_iff.mp h
      refine .inl ⟨rfl, pt, ?_⟩
      unfold pdAt
      rw [hg]
      simp only [hd]

variable {x : Pd} {flags : BitVec 64}

theorem pdAt_eq_some (h : pdAt T p = some x) : ∃ pd, T (p / 262144) = .table pd ∧ pd (p / 512 % 512) = x := by
  unfold pdAt at h
  cases hg : T (p / 262144) with
  | empty =>
    rw [hg] at h
    cases h
  | leaf frame flags =>
    rw [hg] at h
    cases h
  | table pd =>
    rw [hg] at h
    exact ⟨pd, rfl, by simpa using h⟩

theorem pdAt_setPd (h : pdAt T p = some x) (y : Pd) (q : Nat) :
    pdAt (setPd T p y) q = if q / 512 = p / 512 then some y else pdAt T q := by
  obtain ⟨pd, hg, -⟩ := pdAt_eq_some h
  unfold setPd
  rw [hg]
  unfold pdAt
  simp only [update_apply]
  by_cases hq : q / 262144 = p / 262144
  · rw [if_pos hq, hq, hg]
    simp only [update_apply]
    by_cases hb : q / 512 = p / 512
    · rw [if_pos hb, if_pos (by rw [hb])]
    · rw [if_neg hb, if_neg (by omega)]
  · rw [if_neg hq, if_neg (by omega)]

theorem hasPd_iff : HasPd T p ↔ (pdAt T p).isSome = true := by
  unfold HasPd pdAt
  cases hg : T (p / 262144) with
  | empty => simp
  | leaf frame flags => simp
  | table pd => simp

theorem leafAt_of_pdAt (h : pdAt T p = some x) : leafAt T p = x.leafOf p := by
  obtain ⟨pd, hg, rfl⟩ := pdAt_eq_some h
  unfold leafAt
  rw [hg]

theorem leafAt_setPd (h : pdAt T p = some x) (y : Pd) (hq : q / 512 ≠ p / 512) :
    leafAt (setPd T p y) q = leafAt T q := by
  obtain ⟨pd, hg, -⟩ := pdAt_eq_some h
  unfold setPd leafAt
  rw [hg]
  simp only [update_apply]
  by_cases hb : q / 262144 = p / 262144
  · rw [if_pos hb, hb, hg]
    simp only [update_apply]
    rw [if_neg (by omega)]
  · rw [if_neg hb]

theorem grows_setPd (h : pdAt T p = some x) (y : Pd) (hy : ∀ pt, x = .table pt → ∃ pt', y = .table pt') :
    Grows T (setPd T p y) := by
  constructor
  · intro q hq
    rw [hasPd_iff, pdAt_setPd h]
    split
    · rfl
    · exact hasPd_iff.mp hq
  · rintro q ⟨pt, hpt⟩
    unfold HasPt
    rw [pdAt_setPd h]
    split
    · rename_i hb
      -- the same block
      obtain ⟨pd, hg, hx⟩ := pdAt_eq_some h
      obtain ⟨pd', hg', hx'⟩ := pdAt_eq_some hpt
      rw [show q / 262144 = p / 262144 by omega, hg] at hg'
      cases hg'
      rw [hb] at hx'
      obtain ⟨pt', rfl⟩ := hy pt (hx ▸ hx')
      exact ⟨pt', rfl⟩
    · exact ⟨pt, hpt⟩

/-! ## The operations -/

/-- Tables come in where nothing was: every leaf stays. -/
def Extends (T T' : Tables) : Prop := Grows T T' ∧ ∀ q l, leafAt T q = some l → leafAt T' q = some l

theorem Extends.trans {T'' : Tables} (h : Extends T T') (h' : Extends T' T'') : Extends T T'' :=
  ⟨⟨fun p hp => h'.1.1 p (h.1.1 p hp), fun p hp => h'.1.2 p (h.1.2 p hp)⟩, fun q l hl => h'.2 q l (h.2 q l hl)⟩

theorem Extends.refl (T : Tables) : Extends T T := ⟨⟨fun _ h => h, fun _ h => h⟩, fun _ _ h => h⟩

theorem extends_setPd (h : pdAt T p = some .empty) (y : Pd) : Extends T (setPd T p y) := by
  refine ⟨grows_setPd h y fun pt hpt => (nomatch hpt), fun q l hl => ?_⟩
  by_cases hq : q / 512 = p / 512
  · have hnone : leafAt T q = none := by
      obtain ⟨pd, hg, hx⟩ := pdAt_eq_some h
      unfold leafAt
      rw [show q / 262144 = p / 262144 by omega, hg, hq]
      simp only [hx, Pd.leafOf]
    rw [hnone] at hl
    cases hl
  · rw [leafAt_setPd h y hq]
    exact hl

theorem extends_ensurePd (T : Tables) (p : Nat) : Extends T (ensurePd T p) := by
  unfold ensurePd
  split
  · rename_i hg
    have hupdate : ∀ q, q / 262144 ≠ p / 262144 →
        update T (p / 262144) (.table fun _ => .empty) (q / 262144) = T (q / 262144) := fun q hq =>
      update_of_ne hq ..
    have hne : ∀ q, HasPd T q → q / 262144 ≠ p / 262144 := by
      rintro q ⟨pd, hpd⟩ hq
      rw [hq, hg] at hpd
      cases hpd
    refine ⟨⟨fun q hq => ?_, fun q hq => ?_⟩, fun q l hl => ?_⟩
    · obtain ⟨pd, hpd⟩ := hq
      exact ⟨pd, (hupdate q (hne q ⟨pd, hpd⟩)).trans hpd⟩
    · obtain ⟨pt, hpt⟩ := hq
      have hq := hne q (hasPd_iff.mpr (by rw [hpt]; rfl))
      refine ⟨pt, ?_⟩
      unfold pdAt at hpt ⊢
      rw [hupdate q hq]
      exact hpt
    · by_cases hq : q / 262144 = p / 262144
      · unfold leafAt at hl
        rw [hq, hg] at hl
        cases hl
      · unfold leafAt at hl ⊢
        rw [hupdate q hq]
        exact hl
  · exact .refl T

theorem extends_ensurePt (T : Tables) (p : Nat) : Extends T (ensurePt T p) := by
  unfold ensurePt
  split
  · rename_i h
    exact extends_setPd h _
  · exact .refl T

theorem leafAt_setPt {pt : Nat → Option (Nat × BitVec 64)} (h : pdAt T p = some (.table pt))
    (e : Option (Nat × BitVec 64)) (hq : q ≠ p) :
    leafAt (setPd T p (.table (update pt (p % 512) e))) q = leafAt T q := by
  by_cases hb : q / 512 = p / 512
  · have hset := pdAt_setPd h (.table (update pt (p % 512) e)) q
    rw [if_pos hb] at hset
    have hsame : pdAt T q = some (.table pt) := by
      obtain ⟨pd, hg, hx⟩ := pdAt_eq_some h
      unfold pdAt
      rw [show q / 262144 = p / 262144 by omega, hg]
      simp only [hb, hx]
    rw [leafAt_of_pdAt hset, leafAt_of_pdAt hsame]
    unfold Pd.leafOf
    simp only
    rw [update_of_ne (by omega)]
  · exact leafAt_setPd h _ hb

theorem mapPage_extends {frame : Nat} (h : mapPage T p frame flags = some T') : Extends T T' := by
  unfold mapPage at h
  dsimp only at h
  have hext := (extends_ensurePd T p).trans (extends_ensurePt (ensurePd T p) p)
  split at h
  · rename_i pt hpd
    split at h
    · rename_i hnone
      cases h
      refine hext.trans ⟨grows_setPd hpd _ fun _ _ => ⟨_, rfl⟩, fun q l hl => ?_⟩
      by_cases hq : q = p
      · rw [hq, leafAt_of_pdAt hpd] at hl
        simp only [Pd.leafOf, hnone] at hl
        cases hl
      · rw [leafAt_setPt hpd _ hq]
        exact hl
    · cases h
  · cases h

theorem mapHuge_extends {frame : Nat} (h : mapHuge T p frame flags = some T') : Extends T T' := by
  unfold mapHuge at h
  dsimp only at h
  split at h
  · rename_i hpd
    split at h
    · cases h
      exact (extends_ensurePd T p).trans (extends_setPd hpd _)
    · cases h
  · cases h

/-- What a change of one page does. -/
def ChangesPage (T T' : Tables) (p : Nat) : Prop := Grows T T' ∧ ∀ q, q ≠ p → leafAt T' q = leafAt T q

theorem unmapPage_changes (h : unmapPage T p = some T') : ChangesPage T T' p := by
  unfold unmapPage at h
  split at h
  · rename_i pt hpd
    split at h
    · cases h
    · cases h
      exact ⟨grows_setPd hpd _ fun _ _ => ⟨_, rfl⟩, fun q hq => leafAt_setPt hpd _ hq⟩
  · cases h

theorem protectPage_changes (h : protectPage T p flags = some T') : ChangesPage T T' p := by
  unfold protectPage at h
  split at h
  · rename_i pt hpd
    split at h
    · cases h
    · cases h
      exact ⟨grows_setPd hpd _ fun _ _ => ⟨_, rfl⟩, fun q hq => leafAt_setPt hpd _ hq⟩
  · cases h

/-- What a change of a large leaf does: an old leaf that meets the range covers every page of it. -/
def ChangesLeaf (T T' : Tables) (base span : Nat) : Prop :=
  Grows T T' ∧ (∀ q, ¬(base ≤ q ∧ q < base + span) → leafAt T' q = leafAt T q) ∧
    ∀ l, Shaped T l → ∀ q, l.Covers q → base ≤ q ∧ q < base + span → ∀ r, base ≤ r ∧ r < base + span → l.Covers r

theorem covers_block (hpt : ¬HasPt T p) (hl : Shaped T l) (hq : l.Covers q) (hb : q / 512 = p / 512) {r : Nat}
    (hr : r / 512 = p / 512) : l.Covers r := by
  unfold Leaf.Covers at hq ⊢
  rcases hl with ⟨hs, ht⟩ | ⟨hs, hbase, -⟩ | ⟨hs, hbase⟩
  · rw [hs] at hq
    rw [show l.base = q by omega] at ht
    obtain ⟨pt, hpt'⟩ := ht
    refine absurd ⟨pt, ?_⟩ hpt
    obtain ⟨pd, hg, hx⟩ := pdAt_eq_some hpt'
    unfold pdAt
    rw [show p / 262144 = q / 262144 by omega, hg, ← hb]
    simp only [hx]
  · rw [hs] at hq ⊢
    omega
  · rw [hs] at hq ⊢
    omega

theorem unmapHuge_changes (h : unmapHuge T p = some T') : ChangesLeaf T T' p 512 := by
  unfold unmapHuge at h
  split at h
  · rename_i frame flags hpd
    split at h
    · rename_i hp
      cases h
      refine ⟨grows_setPd hpd _ fun pt hpt => (nomatch hpt), fun q hq => leafAt_setPd hpd _ (by omega), ?_⟩
      intro l hl q hq hin r hr
      have hno : ¬HasPt T p := by
        rintro ⟨pt, hpt⟩
        rw [hpd] at hpt
        cases hpt
      exact covers_block hno hl hq (by omega) (by omega)
    · cases h
  · cases h

theorem demote_changes {base span : Nat} (h : demote T p = some (T', base, span)) :
    ChangesLeaf T T' base span ∧ base ≤ p ∧ p < base + span := by
  unfold demote at h
  split at h
  · cases h
  · rename_i frame flags hg
    cases h
    have hupdate : ∀ (x : Pdpt) q, q / 262144 ≠ p / 262144 →
        update T (p / 262144) x (q / 262144) = T (q / 262144) := fun x q hq => update_of_ne hq ..
    have hne : ∀ q, HasPd T q → q / 262144 ≠ p / 262144 := by
      rintro q ⟨pd, hpd⟩ hq
      rw [hq, hg] at hpd
      cases hpd
    refine ⟨⟨⟨fun q hq => ?_, fun q hq => ?_⟩, fun q hq => ?_, fun l hl q hq hin r hr => ?_⟩, by omega, by omega⟩
    · obtain ⟨pd, hpd⟩ := hq
      exact ⟨pd, (hupdate _ q (hne q ⟨pd, hpd⟩)).trans hpd⟩
    · obtain ⟨pt, hpt⟩ := hq
      have hq := hne q (hasPd_iff.mpr (by rw [hpt]; rfl))
      refine ⟨pt, ?_⟩
      unfold pdAt at hpt ⊢
      rw [hupdate _ q hq]
      exact hpt
    · unfold leafAt
      rw [hupdate _ q (by omega)]
    · unfold Leaf.Covers at hq ⊢
      rcases hl with ⟨hs, pt, hpt⟩ | ⟨hs, hbase, hpd⟩ | ⟨hs, hbase⟩
      · rw [hs] at hq
        rw [show l.base = q by omega] at hpt
        exact absurd (show q / 262144 = p / 262144 by omega) (hne q (hasPd_iff.mpr (by rw [hpt]; rfl)))
      · rw [hs] at hq
        exact absurd (show l.base / 262144 = p / 262144 by omega) (hne l.base hpd)
      · rw [hs] at hq ⊢
        omega
  · rename_i pd hg
    split at h
    · rename_i frame flags hx
      cases h
      have hpd : pdAt T p = some (.leaf frame flags) := by
        unfold pdAt
        rw [hg]
        simp only [hx]
      refine ⟨⟨grows_setPd hpd _ fun pt hpt => (nomatch hpt), fun q hq => leafAt_setPd hpd _ (by omega), ?_⟩,
        by omega, by omega⟩
      intro l hl q hq hin r hr
      have hno : ¬HasPt T p := by
        rintro ⟨pt, hpt⟩
        rw [hpd] at hpt
        cases hpt
      exact covers_block hno hl hq (by omega) (by omega)
    · cases h

end BoxOS.Memory.Tlb
