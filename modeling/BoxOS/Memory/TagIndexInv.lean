import BoxOS.Memory.TagIndex

/-!
# The bitmaps of the tag index and what a query computes

- `emitFromBitmap_eq`: the loops over words and bits list the set bits in increasing order, cut at the limit;
- `andFoldRequired_spec`, `orLoop_spec`, `intersectAny_spec`, `subtractExcluded_spec`: the loops over bitmaps of
  different lengths are intersection, union and difference;
- `compute_spec`: the computed path answers the query;
- `IndexInv`: the bitmaps hold which region carries which tag, and every operation keeps it so.
-/

namespace BoxOS.Memory

open MemTagBitmapIndex List Option

/-! ## Listing the set bits -/

theorem filter_range_eq {p q : Nat → Bool} {m n : Nat} (h : ∀ i, (i < m ∧ p i = true) ↔ (i < n ∧ q i = true)) :
    (List.range m).filter p = (List.range n).filter q := by
  have hsorted : ∀ (k : Nat) (f : Nat → Bool), ((List.range k).filter f).Pairwise (· < ·) := fun k f =>
    pairwise_lt_range.filter f
  have hperm : ((List.range m).filter p).Perm ((List.range n).filter q) := by
    apply (perm_ext_iff_of_nodup (nodup_range.filter _) (nodup_range.filter _)).mpr
    intro i
    simp only [mem_filter, mem_range]
    exact h i
  exact Perm.eq_of_pairwise (fun a b _ _ (hab : a < b) (hba : b < a) => by omega) (hsorted m p) (hsorted n q) hperm

theorem emitRange_eq (bits : Nat → Bool) (max base count : Nat) (out : List Nat) :
    emitRange bits max base count out =
      out ++ (((List.range count).map (base + ·)).filter bits).take (max - out.length) := by
  induction count with
  | zero => simp [emitRange]
  | succ count ih =>
    have hstep : emitRange bits max base (count + 1) out =
        let out := emitRange bits max base count out
        if out.length < max ∧ bits (base + count) = true then out ++ [base + count] else out := by
      rw [emitRange, range_succ, foldl_append]
      rfl
    rw [hstep, ih, range_succ, map_append, filter_append]
    generalize ((List.range count).map (base + ·)).filter bits = found
    simp only [map_cons, map_nil, length_append, length_take]
    by_cases hbit : bits (base + count) = true
    · by_cases hroom : out.length + min (max - out.length) found.length < max
      · have hall : found.length < max - out.length := by omega
        rw [if_pos ⟨hroom, hbit⟩, filter_cons_of_pos hbit, take_of_length_le (by omega),
          take_of_length_le (by simp; omega)]
        simp
      · rw [if_neg fun h => hroom h.1, take_append_of_le_length (by omega)]
    · rw [if_neg fun h => hbit h.2, filter_cons_of_neg hbit]
      simp

theorem emitRange_listing (bits : Nat → Bool) (max base count : Nat) :
    emitRange bits max base count (((List.range base).filter bits).take max) =
    ((List.range (base + count)).filter bits).take max := by
  rw [emitRange_eq, range_add, filter_append, take_append, length_take]
  congr 2
  omega

theorem emitFromBitmap_eq (bits : Nat → Bool) (bitCount max : Nat) :
    emitFromBitmap bits bitCount max = ((List.range bitCount).filter bits).take max := by
  have hwords : ∀ n, (List.range n).foldl (fun out w =>
      if out.length < max then emitRange bits max (w * 64) 64 out else out) [] =
      ((List.range (n * 64)).filter bits).take max := by
    intro n
    induction n with
    | zero => simp
    | succ n ih =>
      rw [range_succ, foldl_append, ih, show (n + 1) * 64 = n * 64 + 64 by omega,
        ← emitRange_listing]
      simp only [foldl_cons, foldl_nil]
      split
      · rfl
      rename_i hfull
      -- a full buffer stays as it is
      rw [emitRange_eq, show max - (List.take max (List.filter bits (List.range (n * 64)))).length = 0 by omega]
      simp
  unfold emitFromBitmap
  simp only [hwords]
  rw [emitRange_listing]
  congr 3
  omega

/-! ## Which region carries which tag -/

/-- The regions that carry a tag. -/
abbrev RegionTags := UInt16 → Nat → Bool

/-- The bitmap holds the regions of `c`. -/
structure MemTagBitmap.Ok (bm : MemTagBitmap) (c : Nat → Bool) : Prop where
  bit : ∀ i, bm.bits i = c i
  bound : ∀ i, c i = true → i < bm.bitCount
  width : bm.bitCount < 2 ^ 32

/-- The bitmaps of the index hold which region carries which tag. -/
structure IndexInv (idx : MemTagBitmapIndex) (c : RegionTags) : Prop where
  bitmap : ∀ t bm, idx.bitmapOf t = some bm → bm.Ok (c t)
  absent : ∀ t, idx.bitmapOf t = none → ∀ r, c t r = false
  bound : ∀ t r, c t r = true → r ≤ idx.maxRegionId
  width : idx.maxRegionId + 1 < 2 ^ 32

variable {idx : MemTagBitmapIndex} {c : RegionTags}

theorem bitsBytes_ge (n : Nat) : n ≤ 8 * bitsBytes n := by
  unfold bitsBytes
  omega

variable {bm : MemTagBitmap}

theorem MemTagBitmap.Ok.beyond {c : Nat → Bool} (h : bm.Ok c) {i : Nat}
    (hi : 8 * bitsBytes bm.bitCount ≤ i) : c i = false := by
  by_contra hc
  have := h.bound i (by simpa using hc)
  have := bitsBytes_ge bm.bitCount
  omega

/-! ## The loops of a query -/

section

variable (h : IndexInv idx c)

include h

theorem andLoop_spec (ts : List UInt16) (workspace : Nat → Bool) (useBits : Nat)
    (hin : ∀ i, workspace i = true → i < useBits) :
    ∀ i, ((idx.andLoop ts workspace useBits).1 i = (workspace i && ts.all (c · i))) ∧
    ((idx.andLoop ts workspace useBits).1 i = true → i < (idx.andLoop ts workspace useBits).2) := by
  induction ts generalizing workspace useBits with
  | nil =>
    intro i
    simpa [andLoop] using hin i
  | cons t ts ih =>
    intro i
    unfold andLoop
    split
    · rename_i hnone
      simp [h.absent t hnone]
    rename_i bm hbm
    have hok := h.bitmap t bm hbm
    set next : Nat → Bool := fun i =>
      if i < 8 * min (bitsBytes useBits) (bitsBytes bm.bitCount) then workspace i && bm.bits i
      else if i < 8 * bitsBytes useBits then false else workspace i with hnext
    have hval : ∀ j, next j = (workspace j && c t j) := by
      intro j
      simp only [hnext, hok.bit]
      have hge := bitsBytes_ge useBits
      split
      · rfl
      rename_i hj
      by_cases hcmp : j < 8 * bitsBytes useBits
      · rw [if_pos hcmp, hok.beyond (by omega), Bool.and_false]
      have hw : workspace j = false := by
        by_contra hw
        have := hin j (by simpa using hw)
        omega
      rw [if_neg hcmp, hw, Bool.false_and]
    have hin' : ∀ j, next j = true → j < if bm.bitCount < useBits then bm.bitCount else useBits := by
      intro j hj
      rw [hval, Bool.and_eq_true] at hj
      have h1 := hin j hj.1
      have h2 := hok.bound j hj.2
      split <;> assumption
    obtain ⟨h1, h2⟩ := ih next _ hin' i
    refine ⟨?_, h2⟩
    rw [h1, hval, all_cons, Bool.and_assoc]

theorem workspaceBits_gt : idx.maxRegionId < idx.workspaceBits := by
  have := h.width
  unfold workspaceBits
  rw [Nat.mod_eq_of_lt this]
  simp only
  split <;> omega

/-- `AndFoldRequired` keeps the regions that carry every required tag; with none required it keeps nothing. -/
theorem andFoldRequired_spec (required : List UInt16) (i : Nat) :
    ((idx.andFoldRequired required idx.workspaceBits).1 i = (!required.isEmpty && required.all (c · i))) ∧
      ((idx.andFoldRequired required idx.workspaceBits).1 i = true →
        i < (idx.andFoldRequired required idx.workspaceBits).2) := by
  unfold andFoldRequired
  cases required with
  | nil => simp
  | cons first rest =>
    simp only
    split
    · rename_i hnone
      simp [h.absent first hnone]
    rename_i bm hbm
    have hok := h.bitmap first bm hbm
    have hval : ∀ j, (decide (j < min bm.bitCount idx.workspaceBits) && bm.bits j) = c first j := by
      intro j
      rw [hok.bit]
      by_cases hc : c first j = true
      · have h1 := hok.bound j hc
        have h2 := h.bound first j hc
        have h3 := workspaceBits_gt h
        simp [hc, h1, show j < idx.workspaceBits by omega]
      · simp [hc]
    obtain ⟨h1, h2⟩ := andLoop_spec h rest
      (fun j => decide (j < min bm.bitCount idx.workspaceBits) && bm.bits j) (min bm.bitCount idx.workspaceBits)
      (fun j hj => of_decide_eq_true ((Bool.and_eq_true _ _).mp hj).1) i
    refine ⟨?_, h2⟩
    rw [h1, hval]
    rfl

theorem orLoop_spec (bytes : Nat) (ts : List UInt16) (mask : Nat → Bool) {i : Nat}
    (hi : i < 8 * bytes) : idx.orLoop bytes ts mask i = (mask i || ts.any (c · i)) := by
  induction ts generalizing mask with
  | nil => simp [orLoop]
  | cons t ts ih =>
    unfold orLoop
    cases hbm : idx.bitmapOf t with
    | none =>
      simp only
      rw [ih, any_cons, h.absent t hbm, Bool.false_or]
    | some bm =>
      have hok := h.bitmap t bm hbm
      simp only
      rw [ih, any_cons]
      split
      · rw [hok.bit, Bool.or_assoc]
      · rw [hok.beyond (by omega), Bool.false_or]

theorem intersectAny_spec (any : List UInt16) (workspace : Nat → Bool) (bits : Nat)
    (hin : ∀ i, workspace i = true → i < bits) {alloc : Bool} (halloc : any ≠ [] → alloc = true) (i : Nat) :
    idx.intersectAny any workspace bits alloc i = (workspace i && (any.isEmpty || any.any (c · i))) := by
  unfold intersectAny
  cases any with
  | nil => simp
  | cons t ts =>
    simp only [length_cons, Nat.add_one_ne_zero, if_false, halloc (cons_ne_nil _ _), Bool.true_eq_false]
    have hge := bitsBytes_ge bits
    split
    · rename_i hi
      rw [orLoop_spec h _ _ _ hi]
      simp
    have hw : workspace i = false := by
      by_contra hw
      have := hin i (by simpa using hw)
      omega
    simp [hw]

theorem subtractExcluded_spec (bits : Nat) (ts : List UInt16) (workspace : Nat → Bool)
    (hin : ∀ i, workspace i = true → i < bits) (i : Nat) :
    idx.subtractExcluded bits ts workspace i = (workspace i && !ts.any (c · i)) := by
  induction ts generalizing workspace with
  | nil => simp [subtractExcluded]
  | cons t ts ih =>
    unfold subtractExcluded
    cases hbm : idx.bitmapOf t with
    | none =>
      simp only
      rw [ih _ hin, any_cons, h.absent t hbm, Bool.false_or]
    | some bm =>
      have hok := h.bitmap t bm hbm
      have hval : ∀ j, (if j < 8 * min (bitsBytes bm.bitCount) (bitsBytes bits) then workspace j && !bm.bits j
          else workspace j) = (workspace j && !c t j) := by
        intro j
        have hge := bitsBytes_ge bits
        split
        · rw [hok.bit]
        rename_i hj
        by_cases hw : workspace j = true
        · have := hin j hw
          rw [hok.beyond (by omega)]
          simp
        · simp [hw]
      simp only
      rw [ih, hval, any_cons, Bool.not_or, Bool.and_assoc]
      intro j hj
      rw [hval, Bool.and_eq_true] at hj
      exact hin j hj.1

end

/-! ## The answer of a query -/

/-- The region carries every required tag, one of the any-tags when there are any, and no excluded tag. A query that
names neither has no region to range over. -/
def Matches (c : RegionTags) (q : MemTagQuery) (r : Nat) : Bool :=
  q.required.all (c · r) && (q.any.isEmpty || q.any.any (c · r)) && !q.excluded.any (c · r) &&
    (!q.required.isEmpty || !q.any.isEmpty)

/-- The regions that match, in increasing order. -/
def MemTagBitmapIndex.answers (idx : MemTagBitmapIndex) (c : RegionTags) (q : MemTagQuery) : List Nat :=
  (List.range (idx.maxRegionId + 1)).filter (Matches c q)

theorem matches_carries {q : MemTagQuery} {r : Nat} (h : Matches c q r = true) : ∃ t, c t r = true := by
  simp only [Matches, Bool.and_eq_true, Bool.or_eq_true, List.all_eq_true, List.any_eq_true, Bool.not_eq_true',
    isEmpty_eq_false_iff] at h
  obtain ⟨⟨⟨hreq, hany⟩, -⟩, hne⟩ := h
  rcases hne with hne | hne
  · obtain ⟨t, ht⟩ := exists_mem_of_ne_nil _ hne
    exact ⟨t, hreq t ht⟩
  · rcases hany with hnil | ⟨t, -, ht⟩
    · exact absurd (List.isEmpty_iff.mp hnil) hne
    · exact ⟨t, ht⟩

theorem mem_answers (h : IndexInv idx c) (q : MemTagQuery) (r : Nat) : r ∈ idx.answers c q ↔ Matches c q r = true := by
  simp only [answers, mem_filter, mem_range]
  constructor
  · exact fun hr => hr.2
  · intro hr
    obtain ⟨t, ht⟩ := matches_carries hr
    have := h.bound t r ht
    exact ⟨by omega, hr⟩

theorem answers_sorted (idx : MemTagBitmapIndex) (c : RegionTags) (q : MemTagQuery) :
    (idx.answers c q).Pairwise (· < ·) := pairwise_lt_range.filter _

/-- A mixed query that requires nothing but names any-tags. -/
def MemTagQuery.NoRequired : MemTagQuery → Prop
  | .mixed required any _ => required = [] ∧ any ≠ []
  | _ => False

/-- What the computed path needs to answer the query: the mask of the any-tags of a mixed query is allocated, and the
query requires a tag or nothing matches it. -/
structure Computable (idx : MemTagBitmapIndex) (c : RegionTags) (q : MemTagQuery) (al : Allocs) : Prop where
  workspace : al.workspace = true
  anyMask : q.queryType = 2 → q.any ≠ [] → al.anyMask = true
  required : q.NoRequired → idx.answers c q = []

theorem compute_spec (h : IndexInv idx c) {q : MemTagQuery} {al : Allocs} (hc : Computable idx c q al) :
    (List.range (idx.compute q al).2).filter (idx.compute q al).1 = idx.answers c q := by
  have hgt := workspaceBits_gt h
  -- the workspace of a query that is not an or-query
  have hfold : ∀ required any excluded : List UInt16, (any ≠ [] → al.anyMask = true) → ∀ i,
      (i < (idx.andFoldRequired required idx.workspaceBits).2 ∧
        idx.subtractExcluded (idx.andFoldRequired required idx.workspaceBits).2 excluded
          (idx.intersectAny any (idx.andFoldRequired required idx.workspaceBits).1
            (idx.andFoldRequired required idx.workspaceBits).2 al.anyMask) i = true) ↔
      ((!required.isEmpty && required.all (c · i) && (any.isEmpty || any.any (c · i)) && !excluded.any (c · i)) =
        true) := by
    intro required any excluded hmask i
    have hspec := andFoldRequired_spec h required
    generalize idx.andFoldRequired required idx.workspaceBits = folded at hspec
    have hany := intersectAny_spec h any folded.1 folded.2 (fun j => (hspec j).2) hmask
    rw [subtractExcluded_spec h, hany, (hspec i).1]
    · constructor
      · exact fun hi => hi.2
      · intro hi
        refine ⟨(hspec i).2 ?_, hi⟩
        rw [(hspec i).1]
        simp only [Bool.and_eq_true] at hi ⊢
        exact hi.1.1
    · intro j hj
      rw [hany, Bool.and_eq_true] at hj
      exact (hspec j).2 hj.1
  cases q with
  | and tags =>
    apply filter_range_eq
    intro i
    refine (hfold tags [] [] (fun hne => absurd rfl hne) i).trans ?_
    have hmem : (i < idx.maxRegionId + 1 ∧ Matches c (.and tags) i = true) ↔ Matches c (.and tags) i = true := by
      simpa [answers] using mem_answers h (.and tags) i
    rw [hmem]
    simp [Matches, MemTagQuery.required, MemTagQuery.any, MemTagQuery.excluded, and_comm]
  | or tags =>
    apply filter_range_eq
    intro i
    have hmem : (i < idx.maxRegionId + 1 ∧ Matches c (.or tags) i = true) ↔ Matches c (.or tags) i = true := by
      simpa [answers] using mem_answers h (.or tags) i
    rw [hmem]
    have hmatch : Matches c (.or tags) i = tags.any (c · i) := by
      cases tags <;> simp [Matches, MemTagQuery.required, MemTagQuery.any, MemTagQuery.excluded]
    have hge := bitsBytes_ge idx.workspaceBits
    rw [hmatch]
    simp only [compute]
    constructor
    · rintro ⟨hi, hbit⟩
      rw [orLoop_spec h _ _ _ (by omega)] at hbit
      simpa using hbit
    · intro hbit
      have hi : i < idx.workspaceBits := by
        have := (hmem.mpr (hmatch.trans hbit)).1
        omega
      refine ⟨hi, ?_⟩
      rw [orLoop_spec h _ _ _ (by omega)]
      simpa using hbit
  | mixed required any excluded =>
    by_cases hreq : required = []
    · have hnil : idx.answers c (.mixed required any excluded) = [] := by
        by_cases hany : any = []
        · simp [answers, Matches, MemTagQuery.required, MemTagQuery.any, hreq, hany]
        · exact hc.required ⟨hreq, hany⟩
      rw [hnil, hreq]
      rfl
    apply filter_range_eq
    intro i
    refine (hfold required any excluded (hc.anyMask rfl) i).trans ?_
    have hmem : (i < idx.maxRegionId + 1 ∧ Matches c (.mixed required any excluded) i = true) ↔
        Matches c (.mixed required any excluded) i = true := by
      simpa [answers] using mem_answers h (.mixed required any excluded) i
    rw [hmem]
    have hne : required.isEmpty = false := by simpa using hreq
    simp [Matches, MemTagQuery.required, MemTagQuery.any, MemTagQuery.excluded, hne]

/-! ## The operations keep the bitmaps -/

/-- The region takes the tag. -/
def RegionTags.set (c : RegionTags) (t : UInt16) (r : Nat) : RegionTags :=
  fun t' r' => decide (t' = t ∧ r' = r) || c t' r'

/-- The region gives the tag up. -/
def RegionTags.clear (c : RegionTags) (t : UInt16) (r : Nat) : RegionTags :=
  fun t' r' => c t' r' && !decide (t' = t ∧ r' = r)

/-- The region gives every tag up. -/
def RegionTags.remove (c : RegionTags) (r : Nat) : RegionTags := fun t' r' => c t' r' && !decide (r' = r)

theorem doubleUntil_spec {need : Nat} (fuel cap : Nat) {n : Nat} (hcap : cap < 2 ^ 32)
    (h : doubleUntil need fuel cap = some n) : need < n ∧ n < 2 ^ 32 ∧ cap ≤ n := by
  induction fuel generalizing cap with
  | zero => simp [doubleUntil] at h
  | succ fuel ih =>
    simp only [doubleUntil] at h
    split at h
    · split at h
      · cases h
      · rename_i hgrow
        obtain ⟨h1, h2, h3⟩ := ih _ (Nat.mod_lt _ (by decide)) h
        exact ⟨h1, h2, by omega⟩
    · cases h
      exact ⟨by omega, hcap, le_rfl⟩

theorem bitmapEnsureCapacity_ok {bm' : MemTagBitmap} {c : Nat → Bool} (h : bm.Ok c) {need : Nat} {alloc : Bool}
    (hs : bitmapEnsureCapacity bm need alloc = some bm') : bm'.Ok c ∧ need < bm'.bitCount := by
  unfold bitmapEnsureCapacity at hs
  split at hs
  · rename_i hlt
    cases hs
    exact ⟨h, hlt⟩
  split at hs
  · cases hs
  rename_i newCount hgrow
  split at hs
  · cases hs
    have hw := h.width
    obtain ⟨h1, h2, h3⟩ := doubleUntil_spec 33 _ (by split <;> omega) hgrow
    refine ⟨⟨fun i => ?_, fun i hi => ?_, h2⟩, h1⟩
    · simp only
      split
      · exact h.bit i
      · rw [h.beyond (by omega)]
    · have := h.bound i hi
      split at h3 <;> simp only <;> omega
  · cases hs

theorem MemTagBitmap.Ok.clear {c : Nat → Bool} (h : bm.Ok c) (r : Nat) :
    (bm.clear r).Ok fun i => c i && !decide (i = r) := by
  have hbit : ∀ i, (bm.clear r).bits i = (c i && !decide (i = r)) := by
    intro i
    unfold MemTagBitmap.clear
    by_cases hi : i = r
    · split
      · simp [hi]
      · rename_i hnot
        rw [hi, h.bit]
        by_cases hc : c r = true
        · exact absurd ⟨h.bound r hc, by rw [h.bit, hc]⟩ hnot
        · simp [hc]
    · split <;> simp [hi, h.bit]
  have hcount : (bm.clear r).bitCount = bm.bitCount := by
    unfold MemTagBitmap.clear
    split <;> rfl
  refine ⟨hbit, fun i hi => ?_, hcount ▸ h.width⟩
  rw [hcount]
  exact h.bound i ((Bool.and_eq_true _ _).mp hi).1

theorem bitmapOf_lt {t : UInt16} (h : idx.bitmapOf t = some bm) : t.toNat < idx.bitmaps.length := by
  by_contra hge
  rw [bitmapOf, getD_eq_getElem?_getD, getElem?_eq_none (not_lt.mp hge)] at h
  cases h

theorem bitmapOf_setBitmap {t : UInt16} (ht : t.toNat < idx.bitmaps.length) (bm : MemTagBitmap) (t' : UInt16) :
    (idx.setBitmap t bm).bitmapOf t' = if t' = t then some bm else idx.bitmapOf t' := by
  simp only [bitmapOf, setBitmap, getD_eq_getElem?_getD, getElem?_set]
  by_cases he : t' = t
  · simp [he, ht]
  · have hne : t.toNat ≠ t'.toNat := fun h => he (UInt16.toNat_inj.mp h.symm)
    rw [if_neg hne, if_neg he]

theorem IndexInv.setBitmap (h : IndexInv idx c) {c' : RegionTags} {t : UInt16} {bm : MemTagBitmap}
    (ht : t.toNat < idx.bitmaps.length) (hok : bm.Ok (c' t)) (hother : ∀ t', t' ≠ t → c' t' = c t') {m : Nat}
    (hm : idx.maxRegionId ≤ m) (hw : m + 1 < 2 ^ 32) (hbound : ∀ r, c' t r = true → r ≤ m) :
    IndexInv { idx.setBitmap t bm with maxRegionId := m } c' := by
  have hof : ∀ t', ({ idx.setBitmap t bm with maxRegionId := m } : MemTagBitmapIndex).bitmapOf t' =
      if t' = t then some bm else idx.bitmapOf t' := bitmapOf_setBitmap ht bm
  refine ⟨fun t' bm' hbm => ?_, fun t' hnone r => ?_, fun t' r hr => ?_, hw⟩
  · rw [hof] at hbm
    by_cases he : t' = t
    · rw [if_pos he] at hbm
      cases hbm
      rw [he]
      exact hok
    · rw [if_neg he] at hbm
      rw [hother t' he]
      exact h.bitmap t' bm' hbm
  · rw [hof] at hnone
    by_cases he : t' = t
    · rw [if_pos he] at hnone
      cases hnone
    · rw [if_neg he] at hnone
      rw [hother t' he]
      exact h.absent t' hnone r
  · by_cases he : t' = t
    · exact hbound r (he ▸ hr)
    · rw [hother t' he] at hr
      exact (h.bound t' r hr).trans hm

theorem ensureArray_spec (h : IndexInv idx c) {t : UInt16} {al : Allocs} {idx' : MemTagBitmapIndex}
    (hs : idx.ensureArray t al = some idx') :
    IndexInv idx' c ∧ t.toNat < idx'.bitmaps.length ∧ ∃ bs, idx' = { idx with bitmaps := bs } := by
  unfold ensureArray at hs
  split at hs
  · split at hs
    · cases hs
    · rename_i newCap hgrow
      split at hs
      · cases hs
        have hgt : t.toNat < newCap := by
          by_cases hcap : idx.bitmaps.length < 2 ^ 32
          · exact (doubleUntil_spec 33 _ hcap hgrow).1
          · have := UInt16.toNat_lt t
            omega
        have hof : ∀ t', ({ idx with bitmaps := idx.bitmaps ++ replicate (newCap - idx.bitmaps.length) none } :
            MemTagBitmapIndex).bitmapOf t' = idx.bitmapOf t' := by
          intro t'
          simp only [bitmapOf, getD_eq_getElem?_getD, getElem?_append]
          split
          · rfl
          · rename_i hge
            rw [getElem?_eq_none (not_lt.mp hge), getElem?_replicate]
            split <;> rfl
        refine ⟨⟨fun t' bm hbm => h.bitmap t' bm (hof t' ▸ hbm), fun t' hnone => h.absent t' (hof t' ▸ hnone), h.bound,
          h.width⟩, ?_, _, rfl⟩
        simp only [length_append, length_replicate]
        omega
      · cases hs
  · rename_i hlt
    cases hs
    exact ⟨h, not_le.mp hlt, _, rfl⟩

theorem ensureSlot_spec (h : IndexInv idx c) {t : UInt16} (ht : t.toNat < idx.bitmaps.length) {al : Allocs}
    {idx' : MemTagBitmapIndex} (hs : idx.ensureSlot t al = some idx') :
    IndexInv idx' c ∧ t.toNat < idx'.bitmaps.length ∧ ∃ bs, idx' = { idx with bitmaps := bs } := by
  unfold ensureSlot at hs
  split at hs
  · cases hs
    exact ⟨h, ht, _, rfl⟩
  rename_i hnone
  split at hs
  · cases hs
    have hempty : MemTagBitmap.empty.Ok (c t) :=
      ⟨fun i => (h.absent t hnone i).symm, fun i hi => absurd hi (by simp [h.absent t hnone i]), by decide⟩
    exact ⟨h.setBitmap ht hempty (fun _ _ => rfl) le_rfl h.width (h.bound t), by simpa [setBitmap] using ht, _, rfl⟩
  · cases hs

/-- The steps that leave the contents of the index alone. -/
structure SameContents (idx idx' : MemTagBitmapIndex) : Prop where
  maxRegionId : idx'.maxRegionId = idx.maxRegionId
  generation : idx'.generation = idx.generation
  cache : idx'.cache = idx.cache

theorem SameContents.of_bitmaps {idx' : MemTagBitmapIndex} (h : ∃ bs, idx' = { idx with bitmaps := bs }) :
    SameContents idx idx' := by
  obtain ⟨bs, rfl⟩ := h
  exact ⟨rfl, rfl, rfl⟩

/-- The steps after which nothing in the cache is current. -/
structure Bumped (idx idx' : MemTagBitmapIndex) : Prop where
  generation : idx'.generation = (idx.generation + 1) % 2 ^ 64
  cache : idx'.cache = idx.cache

/-- What a call of `MemTagBitmapSet` can do. -/
def SetSpec (idx : MemTagBitmapIndex) (c : RegionTags) (t : UInt16) (r : Nat) (res : Bool × MemTagBitmapIndex) : Prop :=
  (res.1 = true ∧ IndexInv res.2 (c.set t r) ∧ Bumped idx res.2) ∨
    (res.1 = false ∧ IndexInv res.2 c ∧ SameContents idx res.2)

theorem setIn_spec (h : IndexInv idx c) {t : UInt16} (ht : t.toNat < idx.bitmaps.length) (r : Nat) (al : Allocs) :
    SetSpec idx c t r (idx.setIn t r al) := by
  unfold setIn
  have hok : ((idx.bitmapOf t).getD .empty).Ok (c t) := by
    cases hbm : idx.bitmapOf t with
    | none => exact ⟨fun i => (h.absent t hbm i).symm, fun i hi => absurd hi (by simp [h.absent t hbm i]), by decide⟩
    | some bm => exact h.bitmap t bm hbm
  split
  · exact .inr ⟨rfl, h, rfl, rfl, rfl⟩
  rename_i bm hgrow
  obtain ⟨hbm, hr⟩ := bitmapEnsureCapacity_ok hok hgrow
  have hset : (bm.set r).Ok (c.set t r t) := by
    refine ⟨fun i => ?_, fun i hi => ?_, hbm.width⟩
    · simp only [MemTagBitmap.set, RegionTags.set, hbm.bit]
      by_cases hi : i = r <;> simp [hi]
    · by_cases he : i = r
      · exact he ▸ hr
      · exact hbm.bound i (by simpa [RegionTags.set, he] using hi)
  have hw := h.width
  have hbw := hbm.width
  refine .inl ⟨rfl, ?_, rfl, rfl⟩
  have hmax : idx.maxRegionId ≤ if r > idx.maxRegionId then r else idx.maxRegionId := by split <;> omega
  have hwmax : (if r > idx.maxRegionId then r else idx.maxRegionId) + 1 < 2 ^ 32 := by split <;> omega
  have hinv := h.setBitmap ht hset (fun t' he => by funext r'; simp [RegionTags.set, he]) hmax hwmax
    (fun r' hr' => by
      by_cases he : r' = r
      · rw [he]
        split <;> omega
      · exact (h.bound t r' (by simpa [RegionTags.set, he] using hr')).trans hmax)
  exact ⟨hinv.bitmap, hinv.absent, hinv.bound, hinv.width⟩

theorem memTagBitmapSet_spec (h : IndexInv idx c) (t : UInt16) (r : Nat) (al : Allocs) :
    SetSpec idx c t r (idx.memTagBitmapSet t r al) := by
  unfold memTagBitmapSet
  split
  · exact .inr ⟨rfl, h, rfl, rfl, rfl⟩
  rename_i grown hgrown
  obtain ⟨h1, ht1, bs, rfl⟩ := ensureArray_spec h hgrown
  split
  · exact .inr ⟨rfl, h1, .of_bitmaps ⟨_, rfl⟩⟩
  rename_i slotted hslotted
  obtain ⟨h2, ht2, bs', rfl⟩ := ensureSlot_spec h1 ht1 hslotted
  rcases setIn_spec h2 ht2 r al with ⟨hb, hi, hbump⟩ | ⟨hb, hi, hsame⟩
  · exact .inl ⟨hb, hi, hbump.generation, hbump.cache⟩
  · exact .inr ⟨hb, hi, hsame.maxRegionId, hsame.generation, hsame.cache⟩

theorem memTagBitmapClear_spec (h : IndexInv idx c) (t : UInt16) (r : Nat) :
    IndexInv (idx.memTagBitmapClear t r) (c.clear t r) ∧
    (Bumped idx (idx.memTagBitmapClear t r) ∨ (idx.memTagBitmapClear t r = idx ∧ c.clear t r = c)) := by
  unfold memTagBitmapClear
  split
  · rename_i hnone
    have hc : c.clear t r = c := by
      funext t' r'
      by_cases he : t' = t
      · simp [RegionTags.clear, he, h.absent t hnone r']
      · simp [RegionTags.clear, he]
    rw [hc]
    exact ⟨h, .inr ⟨rfl, rfl⟩⟩
  rename_i bm hbm
  have hok := (h.bitmap t bm hbm).clear r
  have hct : (fun i => c t i && !decide (i = r)) = c.clear t r t := by
    funext i
    simp [RegionTags.clear]
  rw [hct] at hok
  have hinv := h.setBitmap (bitmapOf_lt hbm) hok (fun t' he => by funext r'; simp [RegionTags.clear, he]) le_rfl
    h.width (fun r' hr' => h.bound t r' ((Bool.and_eq_true _ _).mp hr').1)
  exact ⟨⟨hinv.bitmap, hinv.absent, hinv.bound, hinv.width⟩, .inl ⟨rfl, rfl⟩⟩

theorem memTagBitmapRemoveRegion_spec (h : IndexInv idx c) (r : Nat) :
    IndexInv (idx.memTagBitmapRemoveRegion r) (c.remove r) ∧ Bumped idx (idx.memTagBitmapRemoveRegion r) := by
  have hof : ∀ t, (idx.memTagBitmapRemoveRegion r).bitmapOf t =
      (idx.bitmapOf t).map fun bm : MemTagBitmap => bm.clear r := by
    intro t
    simp only [memTagBitmapRemoveRegion, bump, bitmapOf, getD_eq_getElem?_getD, getElem?_map]
    cases idx.bitmaps[t.toNat]? <;> rfl
  refine ⟨⟨fun t bm hbm => ?_, fun t hnone r' => ?_, fun t r' hr => ?_, h.width⟩, rfl, rfl⟩
  · rw [hof] at hbm
    obtain ⟨bm0, hbm0, rfl⟩ := map_eq_some_iff.mp hbm
    exact (h.bitmap t bm0 hbm0).clear r
  · rw [hof] at hnone
    simp [RegionTags.remove, h.absent t (map_eq_none_iff.mp hnone) r']
  · exact h.bound t r' ((Bool.and_eq_true _ _).mp hr).1

theorem init_bitmapOf (tagCap regionCap : Nat) (t : UInt16) :
    (memTagBitmapInit tagCap regionCap).bitmapOf t = none := by
  simp only [bitmapOf, memTagBitmapInit, getD_eq_getElem?_getD]
  generalize (if tagCap = 0 then 64 else tagCap) = n
  rw [getElem?_replicate]
  split <;> rfl

theorem memTagBitmapInit_inv (tagCap regionCap : Nat) :
    IndexInv (memTagBitmapInit tagCap regionCap) fun _ _ => false := by
  refine ⟨fun t bm hbm => ?_, fun _ _ _ => rfl, fun _ _ hr => absurd hr (by decide),
    (by decide : (0 : Nat) + 1 < 2 ^ 32)⟩
  rw [init_bitmapOf] at hbm
  cases hbm

/-! ## Where setting a bit cannot fail -/

theorem doubleUntil_pow {need m : Nat} (hneed : need < 2 ^ m) (hm : m ≤ 31) (fuel k : Nat) (hk : k ≤ m)
    (hfuel : m - k < fuel) : ∃ j ≤ m, doubleUntil need fuel (2 ^ k) = some (2 ^ j) := by
  induction fuel generalizing k with
  | zero => omega
  | succ fuel ih =>
    simp only [doubleUntil]
    split
    · rename_i hle
      have hlt : k < m := by
        by_contra hge
        have : 2 ^ m ≤ 2 ^ k := Nat.pow_le_pow_right (by decide) (by omega)
        omega
      have hpow : 2 ^ (k + 1) ≤ 2 ^ 31 := Nat.pow_le_pow_right (by decide) (by omega)
      have hdouble : 2 ^ k * 2 % 2 ^ 32 = 2 ^ (k + 1) := by
        rw [← Nat.pow_succ]
        exact Nat.mod_eq_of_lt (by omega)
      have hpos : 0 < 2 ^ k := Nat.two_pow_pos k
      rw [hdouble, if_neg (by rw [Nat.pow_succ]; omega)]
      exact ih (k + 1) (by omega) (by omega)
    · exact ⟨k, hk, rfl⟩

/-- The array of bitmaps and every bitmap have grown by doubling. -/
structure Grown (idx : MemTagBitmapIndex) : Prop where
  array : ∃ k ≤ 16, idx.bitmaps.length = 2 ^ k
  bits : ∀ t bm, idx.bitmapOf t = some bm → bm.bitCount = 0 ∨ ∃ k ≤ 31, bm.bitCount = 2 ^ k

theorem memTagBitmapInit_grown (regionCap : Nat) : Grown (memTagBitmapInit 64 regionCap) := by
  refine ⟨⟨6, by decide, by simp [memTagBitmapInit]⟩, fun t bm hbm => ?_⟩
  rw [init_bitmapOf] at hbm
  cases hbm

theorem Grown.setBitmap (h : Grown idx) {t : UInt16} {bm : MemTagBitmap} (ht : t.toNat < idx.bitmaps.length)
    (hbm : bm.bitCount = 0 ∨ ∃ k ≤ 31, bm.bitCount = 2 ^ k) : Grown (idx.setBitmap t bm) := by
  refine ⟨by simpa [MemTagBitmapIndex.setBitmap] using h.array, fun t' bm' hb => ?_⟩
  rw [bitmapOf_setBitmap ht] at hb
  split at hb
  · cases hb
    exact hbm
  · exact h.bits t' bm' hb

theorem ensureArray_grown (h : Grown idx) (t : UInt16) : ∃ idx', idx.ensureArray t {} = some idx' ∧ Grown idx' ∧
    t.toNat < idx'.bitmaps.length ∧ ∀ t', idx'.bitmapOf t' = idx.bitmapOf t' := by
  obtain ⟨k, hk, hlen⟩ := h.array
  unfold ensureArray
  by_cases hge : t.toNat ≥ idx.bitmaps.length
  · obtain ⟨j, hj, hd⟩ := doubleUntil_pow (UInt16.toNat_lt t) (by decide) 33 k hk (by omega)
    have hlt := (doubleUntil_spec 33 (2 ^ k) (lt_of_le_of_lt (Nat.pow_le_pow_right (by decide) hk) (by decide)) hd)
    have hof : ∀ t', ({ idx with bitmaps := idx.bitmaps ++ replicate (2 ^ j - idx.bitmaps.length) none } :
        MemTagBitmapIndex).bitmapOf t' = idx.bitmapOf t' := by
      intro t'
      simp only [bitmapOf, getD_eq_getElem?_getD, getElem?_append]
      split
      · rfl
      · rename_i hge
        rw [getElem?_eq_none (not_lt.mp hge), getElem?_replicate]
        split <;> rfl
    have hnew : (idx.bitmaps ++ replicate (2 ^ j - idx.bitmaps.length) none).length = 2 ^ j := by
      simp only [length_append, length_replicate]
      omega
    rw [if_pos hge, hlen, hd]
    rw [hlen] at hof hnew
    refine ⟨_, rfl, ⟨⟨j, hj, hnew⟩, fun t' bm hb => h.bits t' bm (hof t' ▸ hb)⟩, ?_, hof⟩
    rw [hnew]
    exact hlt.1
  · rw [if_neg hge]
    exact ⟨idx, rfl, h, not_le.mp hge, fun _ => rfl⟩

theorem bitmapEnsureCapacity_grown (h : bm.bitCount = 0 ∨ ∃ k ≤ 31, bm.bitCount = 2 ^ k) {r : Nat} (hr : r < 2 ^ 31) :
    ∃ bm', bitmapEnsureCapacity bm r true = some bm' ∧ (bm'.bitCount = 0 ∨ ∃ k ≤ 31, bm'.bitCount = 2 ^ k) := by
  unfold bitmapEnsureCapacity
  split
  · exact ⟨bm, rfl, h⟩
  obtain ⟨k, hk, hstart⟩ : ∃ k ≤ 31, (if bm.bitCount ≠ 0 then bm.bitCount else 64) = 2 ^ k := by
    rcases h with h0 | ⟨k, hk, hcount⟩
    · exact ⟨6, by decide, by simp [h0]⟩
    · have := Nat.two_pow_pos k
      exact ⟨k, hk, by rw [if_pos (by omega), hcount]⟩
  obtain ⟨j, hj, hd⟩ := doubleUntil_pow hr le_rfl 33 k hk (by omega)
  rw [hstart, hd]
  exact ⟨_, rfl, .inr ⟨j, hj, rfl⟩⟩

/-- With the memory it asks for, setting a bit below `2 ^ 31` succeeds. -/
theorem memTagBitmapSet_grown (h : Grown idx) (t : UInt16) {r : Nat} (hr : r < 2 ^ 31) :
    (idx.memTagBitmapSet t r {}).1 = true ∧ Grown (idx.memTagBitmapSet t r {}).2 := by
  obtain ⟨grown, hgrown, h1, ht1, -⟩ := ensureArray_grown h t
  obtain ⟨slotted, hslotted, h2, ht2⟩ : ∃ slotted, grown.ensureSlot t {} = some slotted ∧ Grown slotted ∧
      t.toNat < slotted.bitmaps.length := by
    unfold ensureSlot
    cases grown.bitmapOf t with
    | some bm => exact ⟨grown, rfl, h1, ht1⟩
    | none => exact ⟨_, rfl, h1.setBitmap ht1 (.inl rfl), by simpa [MemTagBitmapIndex.setBitmap] using ht1⟩
  have hbits : ((slotted.bitmapOf t).getD .empty).bitCount = 0 ∨
      ∃ k ≤ 31, ((slotted.bitmapOf t).getD .empty).bitCount = 2 ^ k := by
    cases hb : slotted.bitmapOf t with
    | none => exact .inl rfl
    | some bm => exact h2.bits t bm hb
  obtain ⟨bm, hbm, hcount⟩ := bitmapEnsureCapacity_grown hbits hr
  have heq : idx.memTagBitmapSet t r {} = (true, { slotted.setBitmap t (bm.set r) with
      maxRegionId := if r > slotted.maxRegionId then r else slotted.maxRegionId }.bump) := by
    unfold memTagBitmapSet
    rw [hgrown]
    simp only [hslotted, setIn, hbm]
  rw [heq]
  have hset := h2.setBitmap ht2 (show (bm.set r).bitCount = 0 ∨ _ from hcount)
  exact ⟨rfl, hset.array, hset.bits⟩

theorem memTagBitmapClear_grown (h : Grown idx) (t : UInt16) (r : Nat) : Grown (idx.memTagBitmapClear t r) := by
  unfold memTagBitmapClear
  split
  · exact h
  rename_i bm hbm
  have hcount : (bm.clear r).bitCount = bm.bitCount := by
    unfold MemTagBitmap.clear
    split <;> rfl
  have hset := h.setBitmap (bitmapOf_lt hbm) (hcount ▸ h.bits t bm hbm)
  exact ⟨hset.array, hset.bits⟩

end BoxOS.Memory
