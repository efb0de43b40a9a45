import BoxOS.Lib.Bits

/-!
# Sorted lists of extents

An `Extent` is a run of consecutive naturals. A list of extents is `Tidy` when its extents are non-empty and each
ends strictly before every later one starts: sorted, disjoint, and with a gap between neighbours. Such a list is
determined by the set it covers (`Tidy.ext`); in particular a run of covered naturals lies inside one extent
(`Tidy.single_of_run`).

`setRun` and `clearRun` set and clear a run of bits of a byte array.
-/

namespace Lib

open List

/-- The naturals `start, …, start + count - 1`. -/
structure Extent where
  start : Nat
  count : Nat
deriving DecidableEq, Repr

namespace Extent

/-- One past the last natural of the extent. -/
def stop (e : Extent) : Nat := e.start + e.count

/-- `b` is in the extent. -/
def Has (e : Extent) (b : Nat) : Prop := e.start ≤ b ∧ b < e.stop

instance (e : Extent) (b : Nat) : Decidable (e.Has b) := inferInstanceAs (Decidable (_ ∧ _))

end Extent

/-- `b` is in one of the extents. -/
def Covers (l : List Extent) (b : Nat) : Prop := ∃ e ∈ l, e.Has b

/-- Non-empty extents, each ending strictly before every later one starts. -/
structure Tidy (l : List Extent) : Prop where
  nonempty : ∀ e ∈ l, 0 < e.count
  apart : l.Pairwise (fun a b => a.stop < b.start)

@[simp] theorem covers_nil (b : Nat) : ¬ Covers [] b := by simp [Covers]

@[simp] theorem covers_cons (e : Extent) (l : List Extent) (b : Nat) :
    Covers (e :: l) b ↔ e.Has b ∨ Covers l b := by simp [Covers]

@[simp] theorem covers_append (l m : List Extent) (b : Nat) :
    Covers (l ++ m) b ↔ Covers l b ∨ Covers m b := by
  simp only [Covers, mem_append]
  constructor
  · rintro ⟨e, he | he, hb⟩
    · exact .inl ⟨e, he, hb⟩
    · exact .inr ⟨e, he, hb⟩
  · rintro (⟨e, he, hb⟩ | ⟨e, he, hb⟩)
    · exact ⟨e, .inl he, hb⟩
    · exact ⟨e, .inr he, hb⟩

namespace Tidy

theorem nil : Tidy [] := ⟨by simp, List.Pairwise.nil⟩

variable {l m : List Extent}

theorem tail {e : Extent} (h : Tidy (e :: l)) : Tidy l :=
  ⟨fun a ha => h.nonempty a (by simp [ha]), (pairwise_cons.mp h.apart).2⟩

theorem head_apart {e : Extent} (h : Tidy (e :: l)) : ∀ a ∈ l, e.stop < a.start :=
  (pairwise_cons.mp h.apart).1

theorem left (h : Tidy (l ++ m)) : Tidy l :=
  ⟨fun a ha => h.nonempty a (by simp [ha]), (pairwise_append.mp h.apart).1⟩

theorem right (h : Tidy (l ++ m)) : Tidy m :=
  ⟨fun a ha => h.nonempty a (by simp [ha]), (pairwise_append.mp h.apart).2.1⟩

theorem apart_of_append (h : Tidy (l ++ m)) : ∀ a ∈ l, ∀ b ∈ m, a.stop < b.start :=
  (pairwise_append.mp h.apart).2.2

theorem insert {x : Extent} (hl : Tidy l) (hm : Tidy m) (hx : 0 < x.count)
    (hlx : ∀ a ∈ l, a.stop < x.start) (hxm : ∀ b ∈ m, x.stop < b.start) : Tidy (l ++ x :: m) := by
  refine ⟨?_, pairwise_append.mpr ⟨hl.apart, pairwise_cons.mpr ⟨hxm, hm.apart⟩, ?_⟩⟩
  · intro e he
    simp only [mem_append, mem_cons] at he
    rcases he with he | rfl | he
    · exact hl.nonempty e he
    · exact hx
    · exact hm.nonempty e he
  · intro a ha b hb
    rcases mem_cons.mp hb with rfl | hb
    · exact hlx a ha
    have h1 := hlx a ha
    have h2 := hxm b hb
    unfold Extent.stop at *
    omega

theorem append (hl : Tidy l) (hm : Tidy m) (h : ∀ a ∈ l, ∀ b ∈ m, a.stop < b.start) : Tidy (l ++ m) := by
  refine ⟨?_, pairwise_append.mpr ⟨hl.apart, hm.apart, h⟩⟩
  intro e he
  rcases mem_append.mp he with he | he
  · exact hl.nonempty e he
  · exact hm.nonempty e he

theorem eq_or_apart (h : Tidy l) {a b : Extent} (ha : a ∈ l) (hb : b ∈ l) :
    a = b ∨ a.stop < b.start ∨ b.stop < a.start := by
  induction l with
  | nil => simp at ha
  | cons e l ih =>
    rcases mem_cons.mp ha with rfl | ha' <;> rcases mem_cons.mp hb with rfl | hb'
    · exact .inl rfl
    · exact .inr (.inl (h.head_apart b hb'))
    · exact .inr (.inr (h.head_apart a ha'))
    · exact ih h.tail ha' hb'

theorem single_of_run (h : Tidy l) {a n : Nat}
    (hrun : ∀ k, k < n + 1 → Covers l (a + k)) : ∃ e ∈ l, e.start ≤ a ∧ a + n < e.stop := by
  induction n with
  | zero =>
    obtain ⟨e, he, h1, h2⟩ := hrun 0 (by omega)
    exact ⟨e, he, by omega, by omega⟩
  | succ n ih =>
    obtain ⟨e, he, h1, h2⟩ := ih (fun k hk => hrun k (by omega))
    obtain ⟨e', he', h3, h4⟩ := hrun (n + 1) (by omega)
    -- the next natural cannot start another extent: there would be no gap before it
    rcases h.eq_or_apart he he' with rfl | hlt | hlt
    · exact ⟨e, he, h1, by omega⟩
    · omega
    · have := h.nonempty e' he'
      unfold Extent.stop at *
      omega

theorem within (hl : Tidy l) (hm : Tidy m) (h : ∀ b, Covers l b → Covers m b) {e : Extent} (he : e ∈ l) :
    ∃ f ∈ m, f.start ≤ e.start ∧ e.stop ≤ f.stop := by
  have hpos := hl.nonempty e he
  obtain ⟨f, hf, h1, h2⟩ := hm.single_of_run (a := e.start) (n := e.count - 1) fun k hk =>
    h _ ⟨e, he, Nat.le_add_right .., show e.start + k < e.start + e.count by omega⟩
  exact ⟨f, hf, h1, show e.start + e.count ≤ f.stop by omega⟩

theorem mem_of_covers (hl : Tidy l) (hm : Tidy m) (h : ∀ b, Covers l b ↔ Covers m b) {e : Extent} (he : e ∈ l) :
    e ∈ m := by
  obtain ⟨f, hf, h1, h2⟩ := hl.within hm (fun b => (h b).mp) he
  obtain ⟨g, hg, h3, h4⟩ := hm.within hl (fun b => (h b).mpr) hf
  have hpos := hl.nonempty e he
  unfold Extent.stop at h2 h4
  rcases hl.eq_or_apart he hg with rfl | hlt | hlt
  · obtain ⟨start, count⟩ := e
    obtain ⟨start', count'⟩ := f
    dsimp only at h1 h2 h3 h4
    rwa [show start = start' by omega, show count = count' by omega]
  all_goals
    unfold Extent.stop at hlt
    omega

/-- A tidy list is determined by the naturals it covers. -/
theorem ext (hl : Tidy l) (hm : Tidy m) (h : ∀ b, Covers l b ↔ Covers m b) : l = m := by
  have hsorted : ∀ {l}, Tidy l → l.Pairwise fun a b => a.start < b.start := fun hl =>
    hl.apart.imp fun h => (Nat.le_add_right ..).trans_lt h
  have hnodup : ∀ {l}, Tidy l → l.Nodup := fun hl => (hsorted hl).imp fun h => by
    rintro rfl
    exact h.false
  refine Perm.eq_of_pairwise (fun a b _ _ h h' => absurd h h'.not_gt) (hsorted hl) (hsorted hm) ?_
  exact (perm_ext_iff_of_nodup (hnodup hl) (hnodup hm)).mpr fun e =>
    ⟨hl.mem_of_covers hm h, hm.mem_of_covers hl fun b => (h b).symm⟩

end Tidy

/-! ## Runs of bits -/

/-- Set the bits `start, …, start + n - 1`, one after the other. -/
def setRun (bm : List UInt8) (start : Nat) : Nat → List UInt8
  | 0 => bm
  | n + 1 => setBit (setRun bm start n) (start + n)

/-- Clear the bits `start, …, start + n - 1`, one after the other. -/
def clearRun (bm : List UInt8) (start : Nat) : Nat → List UInt8
  | 0 => bm
  | n + 1 => clearBit (clearRun bm start n) (start + n)

@[simp] theorem length_setRun (bm : List UInt8) (start n : Nat) : (setRun bm start n).length = bm.length := by
  induction n with
  | zero => rfl
  | succ n ih => rw [setRun, length_setBit, ih]

@[simp] theorem length_clearRun (bm : List UInt8) (start n : Nat) : (clearRun bm start n).length = bm.length := by
  induction n with
  | zero => rfl
  | succ n ih => rw [clearRun, length_clearBit, ih]

variable {bm : List UInt8} {start n : Nat}

theorem bitAt_setRun (h : start + n ≤ bm.length * 8) (j : Nat) :
    bitAt (setRun bm start n) j = (bitAt bm j || decide (start ≤ j ∧ j < start + n)) := by
  induction n with
  | zero => simp [setRun]
  | succ n ih =>
    rw [setRun, bitAt_setBit (by rw [length_setRun]; omega), ih (by omega), Bool.or_assoc]
    congr 1
    rw [← Bool.decide_or]
    exact decide_eq_decide.mpr (by omega)

theorem bitAt_clearRun (h : start + n ≤ bm.length * 8) (j : Nat) :
    bitAt (clearRun bm start n) j = (bitAt bm j && !decide (start ≤ j ∧ j < start + n)) := by
  induction n with
  | zero => simp [clearRun]; omega
  | succ n ih =>
    rw [clearRun, bitAt_clearBit (by rw [length_clearRun]; omega), ih (by omega), Bool.and_assoc,
      ← Bool.not_or, ← Bool.decide_or]
    congr 2
    exact decide_eq_decide.mpr (by omega)

/-! ## Counting clear bits -/

/-- The clear bits below `total`. -/
def clearBits (bm : List UInt8) (total : Nat) : Finset Nat := (Finset.range total).filter (fun b => bitAt bm b = false)

@[simp] theorem mem_clearBits {total b : Nat} :
    b ∈ clearBits bm total ↔ b < total ∧ bitAt bm b = false := by simp [clearBits]

theorem card_clearBits_setRun {total : Nat} (hlen : total ≤ bm.length * 8) (hin : start + n ≤ total)
    (hclear : ∀ j, start ≤ j → j < start + n → bitAt bm j = false) :
    (clearBits (setRun bm start n) total).card + n = (clearBits bm total).card := by
  have hsub : Finset.Ico start (start + n) ⊆ clearBits bm total := by
    intro j hj
    obtain ⟨h1, h2⟩ := Finset.mem_Ico.mp hj
    exact mem_clearBits.mpr ⟨by omega, hclear j h1 h2⟩
  have heq : clearBits (setRun bm start n) total = clearBits bm total \ Finset.Ico start (start + n) := by
    ext j
    rw [mem_clearBits, bitAt_setRun (by omega), Finset.mem_sdiff, mem_clearBits, Finset.mem_Ico]
    simp only [Bool.or_eq_false_iff, decide_eq_false_iff_not]
    tauto
  have hcard := Finset.card_sdiff_add_card_eq_card hsub
  rw [Nat.card_Ico] at hcard
  rw [heq]
  omega

theorem card_clearBits_clearRun {total : Nat} (hlen : total ≤ bm.length * 8) (hin : start + n ≤ total)
    (hset : ∀ j, start ≤ j → j < start + n → bitAt bm j = true) :
    (clearBits (clearRun bm start n) total).card = (clearBits bm total).card + n := by
  have hdis : Disjoint (clearBits bm total) (Finset.Ico start (start + n)) := by
    rw [Finset.disjoint_left]
    intro j hj hj'
    obtain ⟨h1, h2⟩ := Finset.mem_Ico.mp hj'
    have := hset j h1 h2
    simp [(mem_clearBits.mp hj).2] at this
  have heq : clearBits (clearRun bm start n) total = clearBits bm total ∪ Finset.Ico start (start + n) := by
    ext j
    rw [mem_clearBits, bitAt_clearRun (by omega), Finset.mem_union, mem_clearBits, Finset.mem_Ico]
    simp only [Bool.and_eq_false_iff, Bool.not_eq_false', decide_eq_true_eq]
    constructor
    · rintro ⟨h1, h2 | h2⟩
      · exact .inl ⟨h1, h2⟩
      · exact .inr h2
    · rintro (⟨h1, h2⟩ | h)
      · exact ⟨h1, .inl h2⟩
      · exact ⟨by omega, .inr h⟩
  rw [heq, Finset.card_union_of_disjoint hdis, Nat.card_Ico]
  omega

end Lib
