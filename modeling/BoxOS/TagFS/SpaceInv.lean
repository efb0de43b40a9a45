import BoxOS.TagFS.Space

/-!
# The free-space invariant

`Space.Inv`: the free list is tidy, covers exactly the blocks whose bit is clear, and both counters count it. It holds
after every mount (`mountSpace_inv`) and is kept by taking blocks (`alloc_inv`), by giving back a run of taken blocks
(`freeRun_inv`) and by giving back a range some of whose blocks are still shared (`freeBlocks_inv`).

A run of blocks is taken only from clear bits (`alloc_spec`), and refused only when no such run is left
(`alloc_none`).
-/

namespace BoxOS.TagFS

open Lib List Option

/-- Block `b` of the volume is free. -/
def Space.IsFree (s : Space) (b : Nat) : Prop := b < s.totalBlocks ∧ bitAt s.bitmap b = false

/-- The blocks `start, …, start + count - 1` are blocks of the volume and taken. -/
def Space.Taken (s : Space) (start count : Nat) : Prop :=
  start + count ≤ s.totalBlocks ∧ ∀ b, start ≤ b → b < start + count → bitAt s.bitmap b = true

/-- The bitmap, the free list and the two counters agree. -/
structure Space.Inv (s : Space) : Prop where
  inside : s.totalBlocks ≤ s.bitmap.length * 8
  tidy : Tidy s.freeList
  length : s.extentCount = s.freeList.length
  covers : ∀ b, Covers s.freeList b ↔ s.IsFree b
  free : s.freeBlocks = (clearBits s.bitmap s.totalBlocks).card

/-! ## Mount -/

section Mount

variable {total : Nat}

/-- An inner loop stops at the first block from `i` on whose bit differs, or at the end of the volume. -/
theorem skipRun_spec (bitmap : List UInt8) (used : Bool) (ht : total + 7 < 2 ^ 32) :
    ∀ (fuel i : Nat), i ≤ total → total - i < fuel → ∃ j, skipRun used bitmap total fuel i = some j ∧
      i ≤ j ∧ j ≤ total ∧ (∀ k, i ≤ k → k < j → bitAt bitmap k = used) ∧
      (j < total → bitAt bitmap j = !used)
  | 0, _, _, h => by omega
  | fuel + 1, i, hi, hf => by
    by_cases hlt : i < total
    · by_cases hbyte : i % 8 = 0 ∧ (i + 8) % 2 ^ 32 ≤ total ∧ bitmap.getD (i / 8) 0 = (if used then 0xFF else 0)
      · have hw : (i + 8) % 2 ^ 32 = i + 8 := Nat.mod_eq_of_lt (by omega)
        have height : ∀ k, i ≤ k → k < i + 8 → bitAt bitmap k = used := by
          intro k h1 h2
          cases used with
          | true => exact bitAt_of_full hbyte.1 (by simpa using hbyte.2.2) h1 h2
          | false => exact bitAt_of_empty hbyte.1 (by simpa using hbyte.2.2) h1 h2
        obtain ⟨j, hj, h1, h2, h3, h4⟩ := skipRun_spec bitmap used ht fuel (i + 8) (by omega) (by omega)
        refine ⟨j, ?_, by omega, h2, ?_, h4⟩
        · rw [skipRun, if_pos hlt, if_pos hbyte, hw, hj]
        · intro k hk1 hk2
          by_cases hk : k < i + 8
          · exact height k hk1 hk
          · exact h3 k (by omega) hk2
      · by_cases hbit : bitmapTestBit bitmap i = used
        · obtain ⟨j, hj, h1, h2, h3, h4⟩ := skipRun_spec bitmap used ht fuel (i + 1) (by omega) (by omega)
          refine ⟨j, ?_, by omega, h2, ?_, h4⟩
          · rw [skipRun, if_pos hlt, if_neg hbyte, if_pos hbit, hj]
          · intro k hk1 hk2
            rcases Nat.eq_or_lt_of_le hk1 with rfl | hk
            · rwa [bitmapTestBit, testBit8_eq] at hbit
            · exact h3 k hk hk2
        · refine ⟨i, ?_, by omega, by omega, fun k h1 h2 => by omega, fun _ => ?_⟩
          · rw [skipRun, if_pos hlt, if_neg hbyte, if_neg hbit]
          · rw [bitmapTestBit, testBit8_eq] at hbit
            cases used <;> simp_all
    · refine ⟨i, ?_, by omega, by omega, fun k h1 h2 => by omega, fun h => absurd h hlt⟩
      rw [skipRun, if_neg hlt]

/-- What the list built so far says about the blocks below `i`. -/
structure Built (bitmap : List UInt8) (total i : Nat) (list : List FreeExtent) : Prop where
  tidy : Tidy list
  covers : ∀ b, Covers list b ↔ b < i ∧ bitAt bitmap b = false
  stops : ∀ e ∈ list, e.stop ≤ i
  -- an extent ends at a taken block or at the end of the volume, so the next one cannot touch it
  closed : ∀ e ∈ list, e.stop < total → bitAt bitmap e.stop = true

variable {bitmap : List UInt8}

theorem Built.nil : Built bitmap total 0 [] :=
  ⟨Tidy.nil, fun b => by simp, fun e h => by simp at h, fun e h => by simp at h⟩

/-- One more extent, found past a run of taken blocks. -/
theorem Built.snoc {i start stop : Nat} {list : List FreeExtent} (h : Built bitmap total i list) (h1 : i ≤ start)
    (h2 : start < stop) (hlt : start < total) (hskip : ∀ k, i ≤ k → k < start → bitAt bitmap k = true)
    (hrun : ∀ k, start ≤ k → k < stop → bitAt bitmap k = false) (hend : stop < total → bitAt bitmap stop = true) :
    Built bitmap total stop (list ++ [⟨start, stop - start⟩]) := by
  have hstop : (⟨start, stop - start⟩ : Extent).stop = stop := by simp only [Extent.stop]; omega
  have hfirst : bitAt bitmap start = false := hrun start (le_refl _) h2
  refine ⟨h.tidy.insert Tidy.nil (by simp only; omega) ?_ (by simp), ?_, ?_, ?_⟩
  · intro a ha
    have hle := h.stops a ha
    rcases Nat.lt_or_ge a.stop start with hlt' | hge
    · exact hlt'
    have heq : a.stop = start := by omega
    have := h.closed a ha (by omega)
    rw [heq, hfirst] at this
    cases this
  · intro b
    rw [covers_append, h.covers, covers_cons]
    simp only [covers_nil, or_false, Extent.Has, hstop]
    constructor
    · rintro (⟨hb, hf⟩ | ⟨hb1, hb2⟩)
      · exact ⟨by omega, hf⟩
      · exact ⟨hb2, hrun b hb1 hb2⟩
    · rintro ⟨hb, hf⟩
      by_cases hbi : b < i
      · exact .inl ⟨hbi, hf⟩
      by_cases hbs : b < start
      · have := hskip b (by omega) hbs
        rw [hf] at this; cases this
      · exact .inr ⟨by omega, hb⟩
  · intro e he
    rcases mem_append.mp he with he | he
    · have := h.stops e he; omega
    · rw [mem_singleton.mp he, hstop]
  · intro e he hes
    rcases mem_append.mp he with he | he
    · exact h.closed e he hes
    · rw [mem_singleton.mp he, hstop] at hes ⊢
      exact hend hes

theorem Built.finish {i : Nat} {list : List FreeExtent} (h : Built bitmap total i list) (hi : i ≤ total)
    (hrest : ∀ k, i ≤ k → k < total → bitAt bitmap k = true) : Built bitmap total total list := by
  refine ⟨h.tidy, fun b => ?_, fun e he => (h.stops e he).trans hi, h.closed⟩
  rw [h.covers]
  constructor
  · rintro ⟨hb, hf⟩; exact ⟨by omega, hf⟩
  · rintro ⟨hb, hf⟩
    refine ⟨?_, hf⟩
    by_contra hbi
    have := hrest b (by omega) hb
    rw [hf] at this; cases this

/-- `free_list_build` ends, with a list that covers exactly the free blocks. -/
theorem buildLoop_spec (bitmap : List UInt8) (ht : total + 7 < 2 ^ 32) :
    ∀ (fuel i : Nat) (list : List FreeExtent), i ≤ total → total - i < fuel → Built bitmap total i list →
      ∃ list', buildLoop bitmap total fuel i list list.length = some (list', list'.length) ∧
        Built bitmap total total list'
  | 0, _, _, _, h, _ => by omega
  | fuel + 1, i, list, hi, hf, hb => by
    rw [buildLoop]
    by_cases hlt : i < total
    · obtain ⟨start, hs, hs1, hs2, hs3, hs4⟩ := skipRun_spec bitmap true ht (total + 1) i hi (by omega)
      rw [if_pos hlt, hs]
      by_cases hend : start ≥ total
      · refine ⟨list, by simp [hend], hb.finish hi fun k h1 h2 => hs3 k h1 (by omega)⟩
      obtain ⟨stop, he, he1, he2, he3, he4⟩ :=
        skipRun_spec bitmap false ht (total + 1) start hs2 (by omega)
      have hne : start ≠ stop := by
        rintro rfl
        have h1 := hs4 (by omega)
        have h2 := he4 (by omega)
        rw [h1] at h2; cases h2
      have hb' := hb.snoc hs1 (by omega) (by omega) hs3 he3 (fun h => by simpa using he4 h)
      obtain ⟨list', hl, hl'⟩ := buildLoop_spec bitmap ht fuel stop _ he2 (by omega) hb'
      refine ⟨list', ?_, hl'⟩
      simp only [bind_eq_bind, bind_some, if_neg hend, he]
      simpa using hl
    · have hit : i = total := by omega
      refine ⟨list, by rw [if_neg hlt]; rfl, hit ▸ hb⟩

theorem countFreeBlocks_eq (bitmap : List UInt8) (n : Nat) : countFreeBlocks bitmap n = (clearBits bitmap n).card := by
  induction n with
  | zero => simp [countFreeBlocks, clearBits]
  | succ n ih =>
    have hstep : clearBits bitmap (n + 1) =
        if bitAt bitmap n = false then insert n (clearBits bitmap n) else clearBits bitmap n := by
      unfold clearBits
      rw [Finset.range_add_one, Finset.filter_insert]
    have hn : n ∉ clearBits bitmap n := by simp
    rw [countFreeBlocks, range_succ, countP_append, ← countFreeBlocks, ih, hstep]
    cases hb : bitAt bitmap n with
    | true => simp [bitmapTestBit, testBit8_eq, hb]
    | false => simp [bitmapTestBit, testBit8_eq, hb, Finset.card_insert_of_notMem hn]

end Mount

theorem mountSpace_eq_none_iff {dataBlocks : Nat} (hd : dataBlocks < 2 ^ 32) (onDisk : Nat → UInt8) :
    mountSpace dataBlocks onDisk = none ↔ dataBlocks = 0 ∨ 2 ^ 32 ≤ dataBlocks + 7 := by
  have hbytes : 0 < dataBlocks → (bitmapBytes dataBlocks = 0 ↔ 2 ^ 32 ≤ dataBlocks + 7) := by
    intro hpos
    unfold bitmapBytes
    constructor
    · intro h
      by_contra hlt
      rw [Nat.mod_eq_of_lt (by omega)] at h
      omega
    · intro h
      rw [Nat.mod_eq_sub_mod h, Nat.mod_eq_of_lt (by omega)]
      omega
  unfold mountSpace
  rcases Nat.eq_zero_or_pos dataBlocks with rfl | hpos
  · simp
  by_cases ht : 2 ^ 32 ≤ dataBlocks + 7
  · rw [if_pos (.inr ((hbytes hpos).mpr ht))]
    exact iff_of_true rfl (.inr ht)
  obtain ⟨list, hl, _⟩ := buildLoop_spec ((List.range (bitmapBytes dataBlocks)).map onDisk)
    (Nat.lt_of_not_le ht) (dataBlocks + 1) 0 [] (by omega) (by omega) Built.nil
  simp only [length_nil] at hl
  rw [if_neg (by rw [hbytes hpos]; omega)]
  refine iff_of_false ?_ (by omega)
  simp [freeListBuild, hl]

theorem mountSpace_inv {dataBlocks : Nat} {onDisk : Nat → UInt8} {s : Space} (hd : dataBlocks < 2 ^ 32)
    (h : mountSpace dataBlocks onDisk = some s) : s.Inv ∧ s.totalBlocks = dataBlocks := by
  have hsize : ¬ (dataBlocks = 0 ∨ 2 ^ 32 ≤ dataBlocks + 7) := by
    rw [← mountSpace_eq_none_iff hd onDisk, h]; simp
  have ht : dataBlocks + 7 < 2 ^ 32 := by omega
  have hbytes : bitmapBytes dataBlocks = (dataBlocks + 7) / 8 := by unfold bitmapBytes; rw [Nat.mod_eq_of_lt ht]
  obtain ⟨list, hl, hb⟩ := buildLoop_spec ((List.range (bitmapBytes dataBlocks)).map onDisk)
    ht (dataBlocks + 1) 0 [] (by omega) (by omega) Built.nil
  simp only [length_nil] at hl
  unfold mountSpace at h
  rw [if_neg (by rw [hbytes]; omega)] at h
  simp only [freeListBuild, hl, bind_eq_bind, bind_some, Option.pure_def, some.injEq] at h
  subst h
  refine ⟨⟨?_, hb.tidy, rfl, hb.covers, countFreeBlocks_eq _ _⟩, rfl⟩
  simp only [length_map, length_range, hbytes]
  omega

/-! ## Taking blocks -/

variable {count : Nat}

theorem firstFit_some : ∀ {l : List FreeExtent} {cur : FreeExtent} {l' : List FreeExtent},
    firstFit count l = some (cur, l') → ∃ before after, l = before ++ cur :: after ∧ count ≤ cur.count ∧
      l' = before ++ (if cur.count = count then after else ⟨cur.start + count, cur.count - count⟩ :: after)
  | [], _, _, h => by cases h
  | e :: l, cur, l', h => by
    rw [firstFit] at h
    split at h
    · rename_i hc
      cases h
      exact ⟨[], l, rfl, hc, rfl⟩
    cases hr : firstFit count l with
    | none => rw [hr] at h; cases h
    | some r =>
      rw [hr] at h
      cases h
      obtain ⟨before, after, h1, h2, h3⟩ := firstFit_some (show firstFit count l = some (r.1, r.2) from hr)
      exact ⟨e :: before, after, by rw [h1]; rfl, h2, by rw [h3]; rfl⟩

theorem firstFit_none : ∀ {l : List FreeExtent}, firstFit count l = none → ∀ e ∈ l, e.count < count
  | [], _ => by simp
  | e :: l, h => by
    rw [firstFit] at h
    split at h
    · cases h
    rename_i hc
    have hn : firstFit count l = none := by simpa using h
    intro a ha
    rcases mem_cons.mp ha with rfl | ha
    · omega
    · exact firstFit_none hn a ha

theorem takeFront_tidy {before after : List FreeExtent} {cur : FreeExtent}
    (h : Tidy (before ++ cur :: after)) (hc : count ≤ cur.count) :
    Tidy (before ++ (if cur.count = count then after else ⟨cur.start + count, cur.count - count⟩ :: after)) := by
  have hbefore := h.apart_of_append
  split
  · exact h.left.append h.right.tail fun a ha b hb => hbefore a ha b (by simp [hb])
  refine h.left.insert h.right.tail (by simp only; omega) (fun a ha => ?_) fun b hb => ?_
  · have := hbefore a ha cur (by simp)
    simp only; omega
  · have := h.right.head_apart b hb
    simp only [Extent.stop] at this ⊢; omega

/-- Taking blocks off the front of an extent uncovers exactly those blocks. -/
theorem takeFront_covers {before after : List FreeExtent} {cur : FreeExtent}
    (h : Tidy (before ++ cur :: after)) (hc : count ≤ cur.count) (b : Nat) :
    Covers (before ++ (if cur.count = count then after else ⟨cur.start + count, cur.count - count⟩ :: after)) b ↔
      Covers (before ++ cur :: after) b ∧ ¬ (cur.start ≤ b ∧ b < cur.start + count) := by
  -- the taken run is the front of `cur`; the other extents are apart from it
  have hA : Covers before b → ¬ (cur.start ≤ b ∧ b < cur.start + count) := by
    rintro ⟨a, ha, _, hb2⟩
    have := h.apart_of_append a ha cur (by simp)
    omega
  have hB : Covers after b → ¬ (cur.start ≤ b ∧ b < cur.start + count) := by
    rintro ⟨a, ha, hb1, _⟩
    have := h.right.head_apart a ha
    unfold Extent.stop at this
    omega
  have hcur : Covers (if cur.count = count then after else ⟨cur.start + count, cur.count - count⟩ :: after) b ↔
      (cur.Has b ∧ ¬ (cur.start ≤ b ∧ b < cur.start + count)) ∨ Covers after b := by
    split
    · rename_i he
      rw [Extent.Has, Extent.stop, he]
      simp
    rw [covers_cons]
    refine or_congr ?_ Iff.rfl
    simp only [Extent.Has, Extent.stop]
    omega
  rw [covers_append, hcur, covers_append, covers_cons]
  constructor
  · rintro (hb | ⟨hb, hn⟩ | hb)
    · exact ⟨.inl hb, hA hb⟩
    · exact ⟨.inr (.inl hb), hn⟩
    · exact ⟨.inr (.inr hb), hB hb⟩
  · rintro ⟨hb | hb | hb, hn⟩
    · exact .inl hb
    · exact .inr (.inl ⟨hb, hn⟩)
    · exact .inr (.inr hb)

section Alloc

variable {s : Space}

theorem Space.Inv.extent_free (hs : s.Inv) {e : FreeExtent} (he : e ∈ s.freeList) {b : Nat} (hb : e.Has b) :
    s.IsFree b := (hs.covers b).mp ⟨e, he, hb⟩

theorem Space.Inv.extent_inside (hs : s.Inv) {e : FreeExtent} (he : e ∈ s.freeList) : e.stop ≤ s.totalBlocks := by
  have hpos := hs.tidy.nonempty e he
  have := (hs.extent_free he (b := e.stop - 1) ⟨by unfold Extent.stop; omega, by unfold Extent.stop; omega⟩).1
  unfold Extent.stop at *
  omega

theorem alloc_spec (hs : s.Inv) {count start : Nat} {s' : Space} (h : s.allocBlocksInternal count = some (start, s')) :
    start + count ≤ s.totalBlocks ∧ (∀ b, start ≤ b → b < start + count → s.IsFree b) ∧
      s'.totalBlocks = s.totalBlocks ∧
      ∀ b, bitAt s'.bitmap b = (bitAt s.bitmap b || decide (start ≤ b ∧ b < start + count)) := by
  unfold Space.allocBlocksInternal at h
  split at h
  · cases h
  rename_i cur list hf
  obtain ⟨before, after, hl, hc, _⟩ := firstFit_some hf
  simp only [some.injEq, Prod.mk.injEq] at h
  obtain ⟨rfl, rfl⟩ := h
  have hmem : cur ∈ s.freeList := by rw [hl]; simp
  have hin := hs.extent_inside hmem
  have hin' : cur.start + count ≤ s.totalBlocks := by unfold Extent.stop at hin; omega
  refine ⟨hin', fun b h1 h2 => hs.extent_free hmem ⟨h1, by unfold Extent.stop; omega⟩, rfl, fun b => ?_⟩
  exact bitAt_setRun (by have := hs.inside; omega) b

theorem alloc_inv (hs : s.Inv) {count start : Nat} {s' : Space} (h : s.allocBlocksInternal count = some (start, s')) :
    s'.Inv := by
  obtain ⟨hin, hfree, htot, hbits⟩ := alloc_spec hs h
  unfold Space.allocBlocksInternal at h
  split at h
  · cases h
  rename_i cur list hf
  obtain ⟨before, after, hl, hc, hl'⟩ := firstFit_some hf
  simp only [some.injEq, Prod.mk.injEq] at h
  obtain ⟨rfl, rfl⟩ := h
  have htidy : Tidy (before ++ cur :: after) := hl ▸ hs.tidy
  have hcard := card_clearBits_setRun hs.inside hin fun j h1 h2 => (hfree j h1 h2).2
  refine ⟨?_, ?_, ?_, fun b => ?_, ?_⟩
  · simpa using hs.inside
  · rw [hl']; exact takeFront_tidy htidy hc
  · have := hs.length
    rw [hl] at this
    simp only [length_append, length_cons] at this
    simp only [hl', length_append]
    by_cases hce : cur.count = count
    · rw [if_pos hce, if_pos hce]; omega
    · rw [if_neg hce, if_neg hce, length_cons]; omega
  · rw [hl', takeFront_covers htidy hc, ← hl, hs.covers]
    simp only [Space.IsFree, hbits, Bool.or_eq_false_iff, decide_eq_false_iff_not]
    exact and_assoc
  · have := hs.free
    simp only
    split <;> omega

theorem alloc_none (hs : s.Inv) {count : Nat} (hc : 0 < count) (h : s.allocBlocksInternal count = none) (a : Nat) :
    ¬ ∀ b, a ≤ b → b < a + count → s.IsFree b := by
  intro hrun
  have hnone : firstFit count s.freeList = none := by
    unfold Space.allocBlocksInternal at h
    split at h
    · assumption
    · cases h
  obtain ⟨n, rfl⟩ : ∃ n, count = n + 1 := ⟨count - 1, by omega⟩
  obtain ⟨e, he, h1, h2⟩ := hs.tidy.single_of_run (a := a) (n := n)
    fun k hk => (hs.covers _).mpr (hrun (a + k) (by omega) (by omega))
  have := firstFit_none hnone e he
  unfold Extent.stop at h2
  omega

end Alloc

/-! ## Giving blocks back -/

section Free

variable {s : Space}

/-- The walk of `free_run_locked` splits the list at a run that it does not cover. -/
theorem split_at_run {l : List FreeExtent} (h : Tidy l) {start count : Nat} (hc : 0 < count)
    (hout : ∀ b, start ≤ b → b < start + count → ¬ Covers l b) :
    (∀ e ∈ l.takeWhile (fun e => e.start < start), e.stop ≤ start) ∧
    ∀ e ∈ l.dropWhile (fun e => e.start < start), start + count ≤ e.start := by
  have hends : ∀ e ∈ l, e.stop ≤ start ∨ start + count ≤ e.start := by
    intro e he
    by_contra hn
    rw [not_or] at hn
    have hpos := h.nonempty e he
    have : Covers l (max e.start start) := ⟨e, he, le_max_left _ _, by unfold Extent.stop at *; omega⟩
    exact hout _ (le_max_right _ _) (by omega) this
  refine ⟨fun e he => ?_, ?_⟩
  · have hlt : e.start < start := by simpa using List.all_eq_true.mp (all_takeWhile (l := l)) e he
    rcases hends e (takeWhile_subset _ he) with h' | h' <;> omega
  · -- the first extent that is kept starts at or after `start`, and the later ones after it
    clear hout
    induction l with
    | nil => simp
    | cons a l ih =>
      rw [dropWhile_cons]
      split
      · exact ih h.tail fun e he => hends e (by simp [he])
      rename_i ha
      have hge : start ≤ a.start := by simpa using ha
      have hpos := h.nonempty a (by simp)
      have ha' : start + count ≤ a.start := by
        rcases hends a (by simp) with h' | h'
        · unfold Extent.stop at h'; omega
        · exact h'
      intro e he
      rcases mem_cons.mp he with rfl | he
      · exact ha'
      · have := h.head_apart e he
        unfold Extent.stop at this
        omega

section Merge

variable {before after : List FreeExtent} {start count : Nat}

theorem mergeLeft_some {prev : FreeExtent}
    (h : before.getLast?.filter (fun prev => prev.start + prev.count = start) = some prev) :
    before = before.dropLast ++ [prev] ∧ prev.start + prev.count = start := by
  obtain ⟨h1, h2⟩ := filter_eq_some_iff.mp h
  exact ⟨(dropLast_append_getLast? prev h1).symm, by simpa using h2⟩

theorem mergeLeft_none (hb : Tidy before) (hle : ∀ e ∈ before, e.stop ≤ start)
    (h : before.getLast?.filter (fun prev => prev.start + prev.count = start) = none) :
    ∀ e ∈ before, e.stop < start := by
  rcases eq_nil_or_concat before with rfl | ⟨init, prev, rfl⟩
  · simp
  rw [concat_eq_append] at *
  have hne : prev.start + prev.count ≠ start := by simpa [filter_eq_none_iff] using h
  have hp := hle prev (by simp)
  intro e he
  rcases mem_append.mp he with he | he
  · have h1 := hb.apart_of_append e he prev (by simp)
    unfold Extent.stop at *
    omega
  · rw [mem_singleton.mp he]
    unfold Extent.stop at *
    omega

theorem mergeRight_some {cur : FreeExtent} (h : after.head?.filter (fun cur => cur.start = start + count) = some cur) :
    after = cur :: after.tail ∧ cur.start = start + count := by
  obtain ⟨h1, h2⟩ := filter_eq_some_iff.mp h
  exact ⟨(cons_head?_tail h1).symm, by simpa using h2⟩

theorem mergeRight_none (ha : Tidy after) (hge : ∀ e ∈ after, start + count ≤ e.start)
    (h : after.head?.filter (fun cur => cur.start = start + count) = none) : ∀ e ∈ after, start + count < e.start := by
  cases after with
  | nil => simp
  | cons cur rest =>
    have hne : cur.start ≠ start + count := by simpa [filter_eq_none_iff] using h
    have hc := hge cur (by simp)
    intro e he
    rcases mem_cons.mp he with rfl | he
    · omega
    · have := ha.head_apart e he
      unfold Extent.stop at this
      omega

end Merge

/-- A free list and the same list with a run given back. -/
structure Merged (l l' : List FreeExtent) (start count n n' : Nat) : Prop where
  tidy : Tidy l'
  covers : ∀ b, Covers l' b ↔ Covers l b ∨ (start ≤ b ∧ b < start + count)
  length : n = l.length → n' = l'.length

section Cases

variable {before after : List FreeExtent} {prev cur : FreeExtent} {start count : Nat}

theorem merged_both (h : Tidy ((before ++ [prev]) ++ cur :: after)) (h1 : prev.start + prev.count = start)
    (h2 : cur.start = start + count) (n : Nat) :
    Merged ((before ++ [prev]) ++ cur :: after) (before ++ ⟨prev.start, prev.count + (count + cur.count)⟩ :: after)
      start count n (n - 1) := by
  have hp := h.nonempty prev (by simp)
  refine ⟨h.left.left.insert h.right.tail (by simp only; omega) ?_ ?_, fun b => ?_, fun hn => ?_⟩
  · exact fun a hm => h.left.apart_of_append a hm prev (by simp)
  · intro b hm
    have := h.right.head_apart b hm
    simp only [Extent.stop] at this ⊢; omega
  · have : (prev.start ≤ b ∧ b < prev.start + (prev.count + (count + cur.count))) ↔
        (prev.start ≤ b ∧ b < prev.start + prev.count) ∨ (cur.start ≤ b ∧ b < cur.start + cur.count) ∨
          (start ≤ b ∧ b < start + count) := by omega
    simp only [covers_append, covers_cons, covers_nil, or_false, Extent.Has, Extent.stop, this]
    clear * -
    tauto
  · simp only [length_append, length_cons, length_nil] at hn ⊢
    omega

theorem merged_left (h : Tidy ((before ++ [prev]) ++ after)) (h1 : prev.start + prev.count = start)
    (h2 : ∀ e ∈ after, start + count < e.start) (n : Nat) :
    Merged ((before ++ [prev]) ++ after) (before ++ ⟨prev.start, prev.count + count⟩ :: after) start count n n := by
  have hp := h.nonempty prev (by simp)
  refine ⟨h.left.left.insert h.right (by simp only; omega) ?_ ?_, fun b => ?_, fun hn => ?_⟩
  · exact fun a hm => h.left.apart_of_append a hm prev (by simp)
  · intro b hm
    have := h2 b hm
    simp only [Extent.stop] at this ⊢; omega
  · have : (prev.start ≤ b ∧ b < prev.start + (prev.count + count)) ↔
        (prev.start ≤ b ∧ b < prev.start + prev.count) ∨ (start ≤ b ∧ b < start + count) := by omega
    simp only [covers_append, covers_cons, covers_nil, or_false, Extent.Has, Extent.stop, this]
    clear * -
    tauto
  · simp only [length_append, length_cons, length_nil] at hn ⊢
    omega

theorem merged_right (h : Tidy (before ++ cur :: after)) (h1 : ∀ e ∈ before, e.stop < start)
    (h2 : cur.start = start + count) (n : Nat) :
    Merged (before ++ cur :: after) (before ++ ⟨start, cur.count + count⟩ :: after) start count n n := by
  have hp := h.nonempty cur (by simp)
  refine ⟨h.left.insert h.right.tail (by simp only; omega) h1 ?_, fun b => ?_, fun hn => ?_⟩
  · intro b hm
    have := h.right.head_apart b hm
    simp only [Extent.stop] at this ⊢; omega
  · have : (start ≤ b ∧ b < start + (cur.count + count)) ↔
        (cur.start ≤ b ∧ b < cur.start + cur.count) ∨ (start ≤ b ∧ b < start + count) := by omega
    simp only [covers_append, covers_cons, Extent.Has, Extent.stop, this]
    clear * -
    tauto
  · simp only [length_append, length_cons] at hn ⊢
    omega

theorem merged_new (h : Tidy (before ++ after)) (hc : 0 < count) (h1 : ∀ e ∈ before, e.stop < start)
    (h2 : ∀ e ∈ after, start + count < e.start) (n : Nat) :
    Merged (before ++ after) (before ++ ⟨start, count⟩ :: after) start count n (n + 1) := by
  refine ⟨h.left.insert h.right hc h1 h2, fun b => ?_, fun hn => ?_⟩
  · simp only [covers_append, covers_cons, Extent.Has, Extent.stop]
    clear * -
    tauto
  · simp only [length_append, length_cons] at hn ⊢
    omega

end Cases

theorem insertRun_merged {l : List FreeExtent} {start count : Nat} (h : Tidy l) (hc : 0 < count) (n : Nat)
    (hout : ∀ b, start ≤ b → b < start + count → ¬ Covers l b) :
    Merged l (insertRun l n start count).1 start count n (insertRun l n start count).2 := by
  obtain ⟨hle, hge⟩ := split_at_run h hc hout
  have hl : l.takeWhile (fun e => e.start < start) ++ l.dropWhile (fun e => e.start < start) = l :=
    takeWhile_append_dropWhile
  unfold insertRun
  generalize l.takeWhile (fun e => e.start < start) = before at *
  generalize l.dropWhile (fun e => e.start < start) = after at *
  subst hl
  dsimp only
  split
  · rename_i prev cur hL hR
    obtain ⟨h1, h2⟩ := mergeLeft_some hL
    obtain ⟨h3, h4⟩ := mergeRight_some hR
    have hm := merged_both (h3 ▸ h1 ▸ h) h2 h4 n
    rwa [← h1, ← h3] at hm
  · rename_i prev hL hR
    obtain ⟨h1, h2⟩ := mergeLeft_some hL
    have hm := merged_left (h1 ▸ h) h2 (mergeRight_none h.right hge hR) n
    rwa [← h1] at hm
  · rename_i cur hL hR
    obtain ⟨h3, h4⟩ := mergeRight_some hR
    have hm := merged_right (h3 ▸ h) (mergeLeft_none h.left hle hL) h4 n
    rwa [← h3] at hm
  · rename_i hL hR
    exact merged_new h hc (mergeLeft_none h.left hle hL) (mergeRight_none h.right hge hR) n

theorem freeRun_bits (hs : s.Inv) {start count : Nat} (ht : s.Taken start count) (b : Nat) :
    bitAt (s.freeRunLocked start count).bitmap b = (bitAt s.bitmap b && !decide (start ≤ b ∧ b < start + count)) := by
  have := ht.1
  have := hs.inside
  unfold Space.freeRunLocked
  split
  · have : decide (start ≤ b ∧ b < start + count) = false := by simp; omega
    simp [this]
  · exact bitAt_clearRun (by omega) b

@[simp] theorem freeRun_totalBlocks (s : Space) (start count : Nat) :
    (s.freeRunLocked start count).totalBlocks = s.totalBlocks := by
  unfold Space.freeRunLocked
  split <;> rfl

theorem freeRun_inv (hs : s.Inv) {start count : Nat} (ht : s.Taken start count) :
    (s.freeRunLocked start count).Inv := by
  rcases Nat.eq_zero_or_pos count with rfl | hc
  · exact hs
  obtain ⟨hin, hset⟩ := ht
  have hbits := freeRun_bits hs ⟨hin, hset⟩
  have hout : ∀ b, start ≤ b → b < start + count → ¬ Covers s.freeList b := by
    intro b h1 h2 hcov
    have := ((hs.covers b).mp hcov).2
    rw [hset b h1 h2] at this; cases this
  have hm := insertRun_merged hs.tidy hc s.extentCount hout
  have hcard := card_clearBits_clearRun hs.inside hin hset
  have hcz : count ≠ 0 := by omega
  unfold Space.freeRunLocked at hbits ⊢
  rw [if_neg hcz] at hbits ⊢
  refine ⟨by simpa using hs.inside, hm.tidy, hm.length hs.length, fun b => ?_, ?_⟩
  · rw [hm.covers, hs.covers]
    simp only [Space.IsFree, hbits, Bool.and_eq_false_iff, Bool.not_eq_false', decide_eq_true_eq]
    constructor
    · rintro (⟨h1, h2⟩ | ⟨h1, h2⟩)
      · exact ⟨h1, .inl h2⟩
      · exact ⟨by omega, .inr ⟨h1, h2⟩⟩
    · rintro ⟨h1, h2 | h2⟩
      · exact .inl ⟨h1, h2⟩
      · exact .inr h2
  · rw [hcard, hs.free]

theorem freeRun_taken (hs : s.Inv) {start count a n : Nat} (ht : s.Taken start count) (ha : s.Taken a n)
    (hdis : start + count ≤ a) : (s.freeRunLocked start count).Taken a n := by
  refine ⟨by simpa using ha.1, fun b h1 h2 => ?_⟩
  rw [freeRun_bits hs ht, ha.2 b h1 h2]
  simp
  omega

/-- Giving back a range of taken blocks, less those still shared, keeps what giving back taken runs inside the range
keeps: the loop holds a run of taken blocks that ends where the rest of the range begins. -/
theorem freeBlocksLoop_run (now : Nat) {P : Space → Prop} {lo hi : Nat} (hP : ∀ s start count, s.Inv → P s →
    s.Taken start count → lo ≤ start → start + count ≤ hi → P (s.freeRunLocked start count)) :
    ∀ (n block runStart runLen : Nat) (s : Space) (d : DedupState), s.Inv → P s →
    (runLen ≠ 0 → runStart + runLen = block) → s.Taken (block - runLen) (runLen + n) → runLen ≤ block →
    lo ≤ block - runLen → block + n ≤ hi →
    (s.freeBlocksLoop now n block runStart runLen d).1.Inv ∧ P (s.freeBlocksLoop now n block runStart runLen d).1
  | 0, block, runStart, runLen, s, d, hs, hp, hrun, ht, hle, hlo, hhi => by
    simp only [Space.freeBlocksLoop]
    split
    · exact ⟨hs, hp⟩
    rename_i hne
    have hrs := hrun hne
    have htr : s.Taken runStart runLen := by simpa [show block - runLen = runStart by omega] using ht
    exact ⟨freeRun_inv hs htr, hP s runStart runLen hs hp htr (by omega) (by omega)⟩
  | n + 1, block, runStart, runLen, s, d, hs, hp, hrun, ht, hle, hlo, hhi => by
    rw [Space.freeBlocksLoop]
    split
    · rename_i d' _
      refine freeBlocksLoop_run now hP n (block + 1) _ (runLen + 1) s d' hs hp (fun _ => ?_) ?_ (by omega) (by omega)
        (by omega)
      · split
        · omega
        · rename_i hne
          have := hrun hne
          omega
      · rw [show block + 1 - (runLen + 1) = block - runLen by omega,
          show runLen + 1 + n = runLen + (n + 1) by omega]
        exact ht
    · rename_i d' _
      have hrest : s.Taken (block + 1) n :=
        ⟨by have := ht.1; omega, fun b h1 h2 => ht.2 b (by omega) (by omega)⟩
      split
      · exact freeBlocksLoop_run now hP n (block + 1) runStart 0 s d' hs hp (by simp) (by simpa using hrest) (by omega)
          (by omega) (by omega)
      rename_i hne
      have hrs := hrun hne
      have htr : s.Taken runStart runLen :=
        ⟨by have := ht.1; omega, fun b h1 h2 => ht.2 b (by omega) (by omega)⟩
      exact freeBlocksLoop_run now hP n (block + 1) runStart 0 (s.freeRunLocked runStart runLen) d'
        (freeRun_inv hs htr) (hP s runStart runLen hs hp htr (by omega) (by omega)) (by simp)
        (by simpa using freeRun_taken hs htr hrest (by omega)) (by omega) (by omega) (by omega)

theorem freeBlocks_run {P : Space → Prop} (hs : s.Inv) {start count : Nat} (ht : s.Taken start count) (d : DedupState)
    (now : Nat) (hp : P s)
    (hP : ∀ s a n, s.Inv → P s → s.Taken a n → start ≤ a → a + n ≤ start + count → P (s.freeRunLocked a n)) :
    (s.freeBlocksInternal d now start count).1.Inv ∧ P (s.freeBlocksInternal d now start count).1 := by
  unfold Space.freeBlocksInternal
  split
  · exact ⟨hs, hp⟩
  · exact freeBlocksLoop_run now hP count start start 0 s d hs hp (by simp) (by simpa using ht) (by omega)
      (by omega) le_rfl

theorem freeBlocks_inv (hs : s.Inv) {start count : Nat} (ht : s.Taken start count) (d : DedupState) (now : Nat) :
    (s.freeBlocksInternal d now start count).1.Inv ∧
      (s.freeBlocksInternal d now start count).1.totalBlocks = s.totalBlocks :=
  freeBlocks_run (P := fun s' => s'.totalBlocks = s.totalBlocks) hs ht d now rfl
    fun _ _ _ _ heq _ _ _ => (freeRun_totalBlocks ..).trans heq

end Free

/-! ## Runs -/

/-- One operation on the free space of a mounted volume. Ranges given back are ranges of taken blocks; the
deduplication index is free to change in between. -/
inductive SpaceStep : Space × DedupState → Space × DedupState → Prop
  | alloc {s s' : Space} {d : DedupState} {count start : Nat} (hc : 1 ≤ count)
      (h : s.allocBlocksInternal count = some (start, s')) : SpaceStep (s, d) (s', d)
  | freeRun {s : Space} {d : DedupState} {start count : Nat} (h : s.Taken start count) :
      SpaceStep (s, d) (s.freeRunLocked start count, d)
  | freeBlocks {s : Space} {d : DedupState} {start count : Nat} (now : Nat) (h : s.Taken start count) :
      SpaceStep (s, d) (s.freeBlocksInternal d now start count)
  | dedup {s : Space} {d : DedupState} (d' : DedupState) : SpaceStep (s, d) (s, d')

theorem SpaceStep.inv {x y : Space × DedupState} (h : SpaceStep x y) (hx : x.1.Inv) :
    y.1.Inv ∧ y.1.totalBlocks = x.1.totalBlocks := by
  cases h with
  | alloc hc h => exact ⟨alloc_inv hx h, (alloc_spec hx h).2.2.1⟩
  | freeRun h => exact ⟨freeRun_inv hx h, freeRun_totalBlocks ..⟩
  | freeBlocks now h => exact freeBlocks_inv hx h _ now
  | dedup d' => exact ⟨hx, rfl⟩

theorem spaceRun_inv {x y : Space × DedupState} (h : Relation.ReflTransGen SpaceStep x y) (hx : x.1.Inv) :
    y.1.Inv ∧ y.1.totalBlocks = x.1.totalBlocks := by
  induction h with
  | refl => exact ⟨hx, rfl⟩
  | tail _ hstep ih =>
    obtain ⟨h1, h2⟩ := hstep.inv ih.1
    exact ⟨h1, h2.trans ih.2⟩

/-- The free list, the bitmap and the counters of a volume of `dataBlocks` blocks describe the same free blocks, and the
allocator takes exactly free runs and refuses only when there is none. -/
structure SpaceSound (s : Space) (dataBlocks : Nat) : Prop where
  sorted : s.freeList.Pairwise (fun a b => a.start < b.start)
  nonempty : ∀ e ∈ s.freeList, 0 < e.count
  -- disjoint and never adjacent
  apart : s.freeList.Pairwise (fun a b => a.start + a.count < b.start)
  extentCount : s.extentCount = s.freeList.length
  union : ∀ b, (∃ e ∈ s.freeList, e.start ≤ b ∧ b < e.start + e.count) ↔
    b < dataBlocks ∧ bitmapTestBit s.bitmap b = false
  freeBlocks : s.freeBlocks = ((List.range dataBlocks).filter (fun b => !bitmapTestBit s.bitmap b)).length
  allocSome : ∀ count start s', 1 ≤ count → s.allocBlocksInternal count = some (start, s') →
    start + count ≤ dataBlocks ∧ (∀ b, start ≤ b → b < start + count → bitmapTestBit s.bitmap b = false) ∧
      ∀ b, bitmapTestBit s'.bitmap b = (bitmapTestBit s.bitmap b || decide (start ≤ b ∧ b < start + count))
  allocNone : ∀ count, 1 ≤ count → s.allocBlocksInternal count = none →
    ¬ ∃ a, a + count ≤ dataBlocks ∧ ∀ b, a ≤ b → b < a + count → bitmapTestBit s.bitmap b = false

theorem Space.Inv.sound {s : Space} (hs : s.Inv) : SpaceSound s s.totalBlocks where
  sorted := by
    refine hs.tidy.apart.imp_of_mem fun ha _ h => ?_
    have := hs.tidy.nonempty _ ha
    unfold Extent.stop at h
    omega
  nonempty := hs.tidy.nonempty
  apart := hs.tidy.apart
  extentCount := hs.length
  union b := by
    simpa [Covers, Extent.Has, Extent.stop, Space.IsFree, bitmapTestBit, testBit8_eq] using hs.covers b
  freeBlocks := by rw [hs.free, ← countFreeBlocks_eq, countFreeBlocks, countP_eq_length_filter]
  allocSome := by
    intro count start s' _ h
    obtain ⟨h1, h2, _, h4⟩ := alloc_spec hs h
    simp only [bitmapTestBit, testBit8_eq]
    exact ⟨h1, fun b hb hb' => (h2 b hb hb').2, h4⟩
  allocNone := by
    rintro count hc h ⟨a, ha, hrun⟩
    refine alloc_none hs (by omega) h a fun b h1 h2 => ⟨by omega, ?_⟩
    simpa [bitmapTestBit, testBit8_eq] using hrun b h1 h2

/-- Every volume size that mounts, every bitmap on the medium and every run of the allocator: the three representations
of the free space agree, and no block is handed out twice. -/
theorem mounted_space_sound (dataBlocks : UInt32) (onDisk : Nat → UInt8) :
    (mountSpace dataBlocks.toNat onDisk = none ↔ dataBlocks = 0 ∨ 2 ^ 32 ≤ dataBlocks.toNat + 7) ∧
    ∀ s₀ d₀ s d, mountSpace dataBlocks.toNat onDisk = some s₀ →
      Relation.ReflTransGen SpaceStep (s₀, d₀) (s, d) → SpaceSound s dataBlocks.toNat := by
  have hd := dataBlocks.toNat_lt
  refine ⟨?_, ?_⟩
  · rw [mountSpace_eq_none_iff hd onDisk, ← UInt32.toNat_inj]
    rfl
  · intro s₀ d₀ s d hm hrun
    obtain ⟨h0, ht⟩ := mountSpace_inv hd hm
    obtain ⟨hs, hst⟩ := spaceRun_inv hrun h0
    rw [← ht, ← show s.totalBlocks = s₀.totalBlocks from hst]
    exact hs.sound

/-- A volume of twelve blocks with blocks 0, 1, 2 and 5 taken, after two allocations. -/
theorem mounted_space_sound_twelve : ∃ s₀ s₁ s₂ : Space, mountSpace 12 (fun i => if i = 0 then 0x27 else 0) = some s₀ ∧
    s₀.allocBlocksInternal 3 = some (6, s₁) ∧ s₁.allocBlocksInternal 2 = some (3, s₂) ∧ SpaceSound s₂ 12 := by
  refine ⟨⟨[0x27, 0], 12, [⟨3, 2⟩, ⟨6, 6⟩], 2, 8⟩, ⟨[0xE7, 1], 12, [⟨3, 2⟩, ⟨9, 3⟩], 2, 5⟩,
    ⟨[0xFF, 1], 12, [⟨9, 3⟩], 1, 3⟩, by decide, by decide, by decide, ?_⟩
  refine (mounted_space_sound 12 (fun i => if i = 0 then 0x27 else 0)).2 ⟨[0x27, 0], 12, [⟨3, 2⟩, ⟨6, 6⟩], 2, 8⟩
    ⟨false, fun _ => [], fun _ => [], 0⟩ _ ⟨false, fun _ => [], fun _ => [], 0⟩ (by decide) ?_
  have h1 : (⟨[0x27, 0], 12, [⟨3, 2⟩, ⟨6, 6⟩], 2, 8⟩ : Space).allocBlocksInternal 3 =
      some (6, ⟨[0xE7, 1], 12, [⟨3, 2⟩, ⟨9, 3⟩], 2, 5⟩) := by decide
  have h2 : (⟨[0xE7, 1], 12, [⟨3, 2⟩, ⟨9, 3⟩], 2, 5⟩ : Space).allocBlocksInternal 2 =
      some (3, ⟨[0xFF, 1], 12, [⟨9, 3⟩], 1, 3⟩) := by decide
  exact .tail (.tail .refl (.alloc (by decide) h1)) (.alloc (by decide) h2)

end BoxOS.TagFS
