import BoxOS.TagFS.TagBitmapInv

/-!
# Queries of the tag index

- `extractSetBits_eq`: the word and byte loops list the set bits in increasing order, cut at `max_results`;
- `bitAt_andBitmap`, `bitAt_orBitmap`: the word and byte loops over bitmaps of different widths are intersection and
  union bit by bit;
- `queryTags_spec`, `queryGroups_spec`, `computeQuery_spec`: the computed path answers the query;
- `CacheOk`: what is in the cache, and that every operation keeps it so.
-/

namespace BoxOS.TagFS

open Lib List Option

/-! ## Listing the set bits -/

variable (bitmap : List UInt8)

/-- The ids from 1 to `maxFileId` whose bit is set, among the first `n` bits. -/
def listing (maxFileId n : Nat) : List Nat :=
  (List.range n).filter (fun f => bitAt bitmap f && decide (f ≥ 1 ∧ f ≤ maxFileId))

theorem drainWord_eq {width base maxId maxRes : Nat} (fuel word : Nat) (out : List Nat) (hw : word < 2 ^ width)
    (hfuel : (setBits width word).length ≤ fuel) :
    drainWord width base maxId maxRes fuel word out =
      out ++
        (((setBits width word).map (base + ·)).filter (fun f => decide (f ≥ 1 ∧ f ≤ maxId))).take
          (maxRes - out.length) := by
  induction fuel generalizing word out with
  | zero =>
    have : setBits width word = [] := length_eq_zero_iff.mp (by omega)
    simp [drainWord, this]
  | succ fuel ih =>
    rw [drainWord]
    by_cases hgo : word ≠ 0 ∧ out.length < maxRes
    · obtain ⟨hne, hlt⟩ := hgo
      have hcons := setBits_eq_cons hne hw
      have hw' : word &&& (word - 1) < 2 ^ width := lt_of_le_of_lt Nat.and_le_left hw
      rw [hcons, length_cons] at hfuel
      rw [if_pos ⟨hne, hlt⟩, ih _ _ hw' (by omega), hcons, map_cons, filter_cons]
      by_cases hin : base + ctz width word ≥ 1 ∧ base + ctz width word ≤ maxId
      · have hk : maxRes - out.length = maxRes - (out.length + 1) + 1 := by omega
        rw [if_pos hin, if_pos (decide_eq_true hin), hk, take_succ_cons, length_append,
          length_singleton, append_assoc]
        rfl
      · rw [if_neg hin, if_neg (by simpa using hin)]
    · rw [if_neg hgo]
      by_cases hzero : word = 0
      · simp [hzero, setBits_zero]
      have : maxRes - out.length = 0 := by
        have := not_and.mp hgo hzero
        omega
      simp [this]

/-- One word or byte of the extraction loop extends the listing by its bits. -/
theorem drainWord_listing (maxId maxRes base : Nat) {width word : Nat} (hw : word < 2 ^ width)
    (hbits : ∀ k < width, word.testBit k = bitAt bitmap (base + k)) :
    (let out := (listing bitmap maxId base).take maxRes
     if out.length < maxRes then drainWord width base maxId maxRes width word out else out) =
      (listing bitmap maxId (base + width)).take maxRes := by
  have hchunk : ((setBits width word).map (base + ·)).filter (fun f => decide (f ≥ 1 ∧ f ≤ maxId)) =
      ((List.range width).map (base + ·)).filter (fun f => bitAt bitmap f && decide (f ≥ 1 ∧ f ≤ maxId)) := by
    rw [setBits, List.filter_map, List.filter_map, List.filter_filter]
    congr 1
    apply filter_congr
    intro k hk
    simp only [Function.comp, hbits k (mem_range.mp hk), Bool.and_comm]
  have hsplit : listing bitmap maxId (base + width) = listing bitmap maxId base ++
      ((List.range width).map (base + ·)).filter (fun f => bitAt bitmap f && decide (f ≥ 1 ∧ f ≤ maxId)) := by
    rw [listing, range_add, filter_append]
    rfl
  have hlen : (setBits width word).length ≤ width := by
    simpa [setBits] using length_filter_le (fun k => word.testBit k) (List.range width)
  rw [hsplit, take_append]
  simp only [length_take]
  by_cases hfull : min maxRes (listing bitmap maxId base).length < maxRes
  · have hk : maxRes - min maxRes (listing bitmap maxId base).length =
        maxRes - (listing bitmap maxId base).length := by omega
    rw [if_pos hfull, drainWord_eq _ _ _ hw hlen, hchunk, length_take, hk]
  · have hk : maxRes - (listing bitmap maxId base).length = 0 := by omega
    rw [if_neg hfull, hk, take_zero, append_nil]

/-- `extract_set_bits` gives the first `max_results` set bits of the bitmap, in increasing order. -/
theorem extractSetBits_eq (n maxId maxRes : Nat) :
    extractSetBits bitmap n maxId maxRes = (listing bitmap maxId (8 * n)).take maxRes := by
  have hwords : ∀ w, (List.range w).foldl (fun out w =>
      if out.length < maxRes then drainWord 64 (w * 64) maxId maxRes 64 (load64 bitmap w) out else out) [] =
      (listing bitmap maxId (w * 64)).take maxRes := by
    intro w
    induction w with
    | zero => simp [listing]
    | succ w ih =>
      rw [range_succ, foldl_append, ih]
      have := drainWord_listing bitmap maxId maxRes (w * 64) (load64_lt bitmap w)
        (fun k hk => by rw [testBit_load64, mul_comm 64 w]; simp [hk])
      rw [show (w + 1) * 64 = w * 64 + 64 by ring]
      exact this
  have hbytes : ∀ lo k, (List.range' lo k).foldl (fun out b =>
      if out.length < maxRes then drainWord 8 (b * 8) maxId maxRes 8 (bitmap.getD b 0).toNat out else out)
        ((listing bitmap maxId (lo * 8)).take maxRes) = (listing bitmap maxId ((lo + k) * 8)).take maxRes := by
    intro lo k
    induction k with
    | zero => simp
    | succ k ih =>
      rw [range'_1_concat, foldl_append, ih]
      have := drainWord_listing bitmap maxId maxRes ((lo + k) * 8) (UInt8.toNat_lt (bitmap.getD (lo + k) 0))
        (fun j hj => by
          have h1 : ((lo + k) * 8 + j) / 8 = lo + k := by omega
          have h2 : ((lo + k) * 8 + j) % 8 = j := by omega
          rw [bitAt, h1, h2])
      rw [show (lo + (k + 1)) * 8 = (lo + k) * 8 + 8 by ring]
      exact this
  simp only [extractSetBits]
  rw [hwords, show n / 8 * 64 = n / 8 * 8 * 8 by ring, hbytes]
  congr 2
  omega

theorem load64_eq_zero {bitmap : List UInt8} {w : Nat} :
    load64 bitmap w = 0 ↔ ∀ k < 64, bitAt bitmap (64 * w + k) = false := by
  constructor
  · intro h k hk
    have := testBit_load64 bitmap w k
    rw [h, Nat.zero_testBit] at this
    simpa [hk] using this.symm
  · intro h
    apply Nat.eq_of_testBit_eq
    intro k
    rw [testBit_load64, Nat.zero_testBit]
    by_cases hk : k < 64
    · simp [h k hk]
    · simp [hk]

theorem byte_eq_zero {b : UInt8} : b = 0 ↔ ∀ k < 8, b.toNat.testBit k = false := by
  constructor
  · rintro rfl k -
    simp
  · intro h
    apply UInt8.toNat_inj.mp
    apply Nat.eq_of_testBit_eq
    intro k
    by_cases hk : k < 8
    · simp [h k hk]
    · have : b.toNat < 2 ^ k := (UInt8.toNat_lt b).trans_le (Nat.pow_le_pow_right (by decide) (not_lt.mp hk))
      simp [Nat.testBit_lt_two_pow this]

theorem bitmapIsEmpty_iff {bitmap : List UInt8} {n : Nat} :
    bitmapIsEmpty bitmap n = true ↔ ∀ f < 8 * n, bitAt bitmap f = false := by
  simp only [bitmapIsEmpty, Bool.and_eq_true, List.all_eq_true, mem_range, mem_range'_1, beq_iff_eq]
  constructor
  · rintro ⟨hwords, hbytes⟩ f hf
    by_cases hw : f / 64 < n / 8
    · have := load64_eq_zero.mp (hwords _ hw) (f % 64) (by omega)
      rwa [show 64 * (f / 64) + f % 64 = f by omega] at this
    · exact byte_eq_zero.mp (hbytes (f / 8) (by omega)) (f % 8) (by omega)
  · intro h
    refine ⟨?_, ?_⟩
    · intro w hw
      exact load64_eq_zero.mpr fun k hk => h _ (by omega)
    · intro b hb
      refine byte_eq_zero.mpr fun k hk => ?_
      have := h (8 * b + k) (by omega)
      rwa [bitAt, show (8 * b + k) / 8 = b by omega, show (8 * b + k) % 8 = k by omega] at this

/-! ## Intersection and union -/

theorem wordLoop_spec (op : Nat → Nat → Nat) (bop : Bool → Bool → Bool)
    (hop : ∀ a b k, (op a b).testBit k = bop (a.testBit k) (b.testBit k)) (r b : List UInt8) (n : Nat)
    (hn : 8 * n ≤ r.length) : (wordLoop op r b n).length = r.length ∧
    ∀ i, bitAt (wordLoop op r b n) i = if i < 64 * n then bop (bitAt r i) (bitAt b i) else bitAt r i := by
  induction n with
  | zero => simp [wordLoop]
  | succ n ih =>
    obtain ⟨hlen, hbit⟩ := ih (by omega)
    have hstep : wordLoop op r b (n + 1) =
        store64 (wordLoop op r b n) n (op (load64 (wordLoop op r b n) n) (load64 b n)) := by
      rw [wordLoop, range_succ, foldl_append]
      rfl
    rw [hstep, length_store64 (by omega)]
    refine ⟨hlen, ?_⟩
    intro i
    rw [bitAt_store64 (by omega)]
    by_cases hi : i / 64 = n
    · have hk : i % 64 < 64 := by omega
      have he : 64 * n + i % 64 = i := by omega
      rw [if_pos hi, if_pos (by omega), hop, testBit_load64, testBit_load64, he, hbit, if_neg (by omega)]
      simp [hk]
    rw [if_neg hi, hbit]
    by_cases hlt : i < 64 * n
    · rw [if_pos hlt, if_pos (by omega)]
    · rw [if_neg hlt, if_neg (by omega)]

theorem byteLoop_spec (op : UInt8 → UInt8 → UInt8) (bop : Bool → Bool → Bool)
    (hop : ∀ a b k, (op a b).toNat.testBit k = bop (a.toNat.testBit k) (b.toNat.testBit k)) (r b : List UInt8)
    (lo n : Nat) (hn : lo + n ≤ r.length) :
    (byteLoop op r b lo (lo + n)).length = r.length ∧
    ∀ i, bitAt (byteLoop op r b lo (lo + n)) i =
      if 8 * lo ≤ i ∧ i < 8 * (lo + n) then bop (bitAt r i) (bitAt b i) else bitAt r i := by
  induction n with
  | zero => simp [byteLoop]
  | succ n ih =>
    obtain ⟨hlen, hbit⟩ := ih (by omega)
    set r' := byteLoop op r b lo (lo + n) with hr'
    have hstep : byteLoop op r b lo (lo + (n + 1)) = r'.set (lo + n) (op (r'.getD (lo + n) 0) (b.getD (lo + n) 0)) := by
      rw [byteLoop, Nat.add_sub_cancel_left, range'_1_concat, foldl_append, hr', byteLoop,
        Nat.add_sub_cancel_left]
      rfl
    rw [hstep, length_set]
    refine ⟨hlen, ?_⟩
    intro i
    by_cases hi : i / 8 = lo + n
    · have hbyte : (r'.getD (lo + n) 0).toNat.testBit (i % 8) = bitAt r' i := by rw [bitAt, hi]
      rw [bitAt, hi, getD_set_self (by omega), hop, hbyte, hbit, if_neg (by omega), if_pos (by omega)]
      simp only [bitAt, hi]
    rw [bitAt, getD_set_ne (Ne.symm hi)]
    change bitAt r' i = _
    rw [hbit]
    by_cases hin : 8 * lo ≤ i ∧ i < 8 * (lo + n)
    · rw [if_pos hin, if_pos (by omega)]
    · rw [if_neg hin, if_neg (by omega)]

theorem testBit_uand (a b : UInt8) (k : Nat) :
    (a &&& b).toNat.testBit k = (a.toNat.testBit k && b.toNat.testBit k) := by
  rw [UInt8.toNat_and, Nat.testBit_and]

theorem testBit_uor (a b : UInt8) (k : Nat) :
    (a ||| b).toNat.testBit k = (a.toNat.testBit k || b.toNat.testBit k) := by
  rw [UInt8.toNat_or, Nat.testBit_or]

variable {bm : TagBitmap} {idx : TagBitmapIndex}

variable {c : Carries}

theorem usable_eq {c : Nat → Bool} (h : bm.Ok c) (size : Nat) : bm.usable size = min bm.bits.length size := by
  rw [TagBitmap.usable, h.bytes, min_def]
  split <;> split <;> omega

theorem bitAt_copyBitmap {c : Nat → Bool} (h : bm.Ok c) (size : Nat) :
    (copyBitmap bm size).length = size ∧ ∀ i, bitAt (copyBitmap bm size) i = (decide (i < 8 * size) && c i) := by
  have hu := usable_eq h size
  rw [copyBitmap, hu]
  refine ⟨by simp, ?_⟩
  intro i
  have hlen : (bm.bits.take (min bm.bits.length size)).length = min bm.bits.length size := by simp
  rw [bitAt_append, hlen, bitAt_take, bitAt_replicate_zero, ← h.bit]
  by_cases hi : i < 8 * min bm.bits.length size
  · simp [hi, show i < 8 * size by omega]
  rw [if_neg hi]
  by_cases hs : i < 8 * size
  · rw [bitAt_of_length_le (by omega)]
    simp
  · simp [hs]

theorem bitAt_andBitmap {r : List UInt8} {c : Nat → Bool} (h : bm.Ok c) {size : Nat} (hr : r.length = size) :
    (andBitmap r bm size).length = size ∧ ∀ i, bitAt (andBitmap r bm size) i = (bitAt r i && c i) := by
  have hu := usable_eq h size
  simp only [andBitmap]
  generalize bm.usable size = u at hu ⊢
  obtain ⟨hl1, hb1⟩ := wordLoop_spec (· &&& ·) (· && ·) Nat.testBit_and r bm.bits (u / 8) (by omega)
  obtain ⟨hl2, hb2⟩ := byteLoop_spec (· &&& ·) (· && ·) testBit_uand
    (wordLoop (· &&& ·) r bm.bits (u / 8)) bm.bits (u / 8 * 8) (u - u / 8 * 8) (by omega)
  rw [show u / 8 * 8 + (u - u / 8 * 8) = u by omega] at hl2 hb2
  obtain ⟨hl3, hb3⟩ := byteLoop_spec (fun _ _ => 0) (fun _ _ => false) (fun _ _ _ => by simp)
    (byteLoop (· &&& ·) (wordLoop (· &&& ·) r bm.bits (u / 8)) bm.bits (u / 8 * 8) u) bm.bits u (size - u) (by omega)
  rw [show u + (size - u) = size by omega] at hl3 hb3
  refine ⟨by omega, ?_⟩
  intro i
  rw [hb3, hb2, hb1, ← h.bit]
  by_cases h1 : 8 * u ≤ i ∧ i < 8 * size
  · rw [if_pos h1, bitAt_of_length_le (show bm.bits.length * 8 ≤ i by omega)]
    simp
  rw [if_neg h1]
  by_cases h2 : i < 8 * u
  · by_cases h3 : i < 64 * (u / 8)
    · rw [if_neg (by omega), if_pos h3]
    · rw [if_pos (by omega), if_neg h3]
  · rw [if_neg (by omega), if_neg (by omega), bitAt_of_length_le (show r.length * 8 ≤ i by omega)]
    simp

theorem bitAt_orBitmap {r : List UInt8} {c : Nat → Bool} (h : bm.Ok c) {size : Nat}
    (hr : r.length = size) :
    (orBitmap r bm size).length = size ∧
      ∀ i, bitAt (orBitmap r bm size) i = (bitAt r i || (decide (i < 8 * size) && c i)) := by
  have hu := usable_eq h size
  simp only [orBitmap]
  generalize bm.usable size = u at hu ⊢
  obtain ⟨hl1, hb1⟩ := wordLoop_spec (· ||| ·) (· || ·) Nat.testBit_or r bm.bits (u / 8) (by omega)
  obtain ⟨hl2, hb2⟩ := byteLoop_spec (· ||| ·) (· || ·) testBit_uor
    (wordLoop (· ||| ·) r bm.bits (u / 8)) bm.bits (u / 8 * 8) (u - u / 8 * 8) (by omega)
  rw [show u / 8 * 8 + (u - u / 8 * 8) = u by omega] at hl2 hb2
  refine ⟨by omega, ?_⟩
  intro i
  rw [hb2, hb1, ← h.bit]
  by_cases h2 : i < 8 * u
  · have hs : i < 8 * size := by omega
    by_cases h3 : i < 64 * (u / 8)
    · rw [if_neg (by omega), if_pos h3]
      simp [hs]
    · rw [if_pos (by omega), if_neg h3]
      simp [hs]
  rw [if_neg (by omega), if_neg (by omega)]
  by_cases hs : i < 8 * size
  · rw [bitAt_of_length_le (show bm.bits.length * 8 ≤ i by omega)]
    simp
  · simp [hs]

/-! ## The computed path -/

/-- The file `f` carries every listed tag and at least one tag of every group that has any. -/
def Matches (c : Carries) (tags : List TagId) (groups : List QueryGroup) (f : Nat) : Bool :=
  tags.all (c · f) && groups.all (fun g => (g.getD []).isEmpty || (g.getD []).any (c · f))

/-- The query names something: a tag, or a group with a tag. -/
def Given (tags : List TagId) (groups : List QueryGroup) : Prop := tags ≠ [] ∨ ∃ g ∈ groups, g.getD [] ≠ []

/-- `out` is the first `maxResults`, in increasing order, of the files from 1 on that match the query; no file matches a
query that names nothing. -/
def Answers (c : Carries) (tags : List TagId) (groups : List QueryGroup) (maxResults : Nat) (out : List Nat) : Prop :=
  ∃ all : List Nat, all.Pairwise (· < ·) ∧ (∀ f, f ∈ all ↔ Given tags groups ∧ f ≥ 1 ∧ Matches c tags groups f = true) ∧
    out = all.take maxResults

/-- The result bitmap in the middle of a query: while `first` holds nothing has been asked, afterwards the bitmap is
`p` cut to its size. -/
structure Holds (size : Nat) (r : List UInt8) (first : Bool) (p : Nat → Bool) : Prop where
  length : r.length = size
  bit : first = false → ∀ i, bitAt r i = (decide (i < 8 * size) && p i)
  all : first = true → ∀ i, p i = true

theorem queryTags_spec (h : idx.Inv c) {size : Nat} (ts : List TagId) {r : List UInt8} {first : Bool} {p : Nat → Bool}
    (hr : Holds size r first p) :
    (queryTags idx size ts r first = none → ∀ i < 8 * size, (p i && ts.all (c · i)) = false) ∧
    ∀ r' first', queryTags idx size ts r first = some (r', first') →
    Holds size r' first' (fun i => p i && ts.all (c · i)) ∧ first' = (first && ts.isEmpty) := by
  induction ts generalizing r first p with
  | nil =>
    refine ⟨fun hn => absurd hn (some_ne_none _), ?_⟩
    intro r' first' hsome
    obtain ⟨rfl, rfl⟩ := Prod.mk.inj (some.inj hsome)
    simpa using hr
  | cons t ts ih =>
    have hassoc : ∀ i, (p i && (t :: ts).all (c · i)) = ((p i && c t i) && ts.all (c · i)) := by
      intro i
      simp [Bool.and_assoc]
    simp only [hassoc, isEmpty_cons, Bool.and_false, queryTags]
    cases hb : idx.bitmapOf t with
    | none =>
      refine ⟨fun _ i _ => by simp [h.absent t hb i], fun r' first' hsome => nomatch hsome⟩
    | some bm =>
      have hok := h.bitmap t bm hb
      cases first with
      | true =>
        obtain ⟨hlen, hbit⟩ := bitAt_copyBitmap hok size
        have hr' : Holds size (copyBitmap bm size) false (fun i => p i && c t i) :=
          ⟨hlen, fun _ i => by rw [hbit i, hr.all rfl i, Bool.true_and], fun hc => Bool.noConfusion hc⟩
        simpa using ih hr'
      | false =>
        obtain ⟨hlen, hbit⟩ := bitAt_andBitmap hok hr.length
        have hbit' : ∀ i, bitAt (andBitmap r bm size) i = (decide (i < 8 * size) && (p i && c t i)) := by
          intro i
          rw [hbit i, hr.bit rfl i, Bool.and_assoc]
        have hr' : Holds size (andBitmap r bm size) false (fun i => p i && c t i) :=
          ⟨hlen, fun _ => hbit', fun hc => Bool.noConfusion hc⟩
        by_cases hempty : bitmapIsEmpty (andBitmap r bm size) size = true
        · simp only [hempty, if_true, Bool.false_eq_true, if_false]
          refine ⟨?_, fun r' first' hsome => nomatch hsome⟩
          intro _ i hi
          have hclear := bitmapIsEmpty_iff.mp hempty i hi
          rw [hbit' i, decide_eq_true hi, Bool.true_and] at hclear
          rw [hclear, Bool.false_and]
        · simp only [hempty, Bool.false_eq_true, if_false]
          simpa using ih hr'

theorem groupBitmap_spec (h : idx.Inv c) (size : Nat) (group : List TagId) :
    (groupBitmap idx size group).length = size ∧
    ∀ i, bitAt (groupBitmap idx size group) i = (decide (i < 8 * size) && group.any (c · i)) := by
  induction group using List.reverseRecOn with
  | nil => simp [groupBitmap, bitAt_replicate_zero]
  | append_singleton ts t ih =>
    obtain ⟨hlen, hbit⟩ := ih
    cases hb : idx.bitmapOf t with
    | none =>
      rw [show groupBitmap idx size (ts ++ [t]) = groupBitmap idx size ts by simp [groupBitmap, hb]]
      refine ⟨hlen, ?_⟩
      intro i
      rw [hbit i]
      simp [h.absent t hb i]
    | some bm =>
      rw [show groupBitmap idx size (ts ++ [t]) = orBitmap (groupBitmap idx size ts) bm size by simp [groupBitmap, hb]]
      obtain ⟨hlen', hbit'⟩ := bitAt_orBitmap (h.bitmap t bm hb) hlen
      refine ⟨hlen', ?_⟩
      intro i
      rw [hbit' i, hbit i, any_append, Bool.and_or_distrib_left]
      simp

/-- The test of a query on its groups. -/
def groupsMatch (c : Carries) (groups : List QueryGroup) (i : Nat) : Bool :=
  groups.all (fun g => (g.getD []).isEmpty || (g.getD []).any (c · i))

theorem queryGroups_spec (h : idx.Inv c) {size : Nat} (h8 : size % 8 = 0) (gs : List QueryGroup) {r : List UInt8}
    {first : Bool} {p : Nat → Bool} (hr : Holds size r first p) : (queryGroups idx size gs r first = none →
    (∃ g ∈ gs, g.getD [] ≠ []) ∧ ∀ i < 8 * size, (p i && groupsMatch c gs i) = false) ∧ ∀ r' first',
    queryGroups idx size gs r first = some (r', first') → Holds size r' first' (fun i => p i && groupsMatch c gs i) ∧
    first' = (first && gs.all (fun g => (g.getD []).isEmpty)) := by
  induction gs generalizing r first p with
  | nil =>
    refine ⟨fun hn => absurd hn (some_ne_none _), ?_⟩
    intro r' first' hsome
    obtain ⟨rfl, rfl⟩ := Prod.mk.inj (some.inj hsome)
    simpa [groupsMatch] using hr
  | cons g gs ih =>
    by_cases hg : g.getD [] = []
    · have hskip : ∀ i, groupsMatch c (g :: gs) i = groupsMatch c gs i := by
        intro i
        simp [groupsMatch, hg]
      simp only [queryGroups, if_pos hg, hskip, all_cons, exists_mem_cons_iff]
      have := ih hr
      simpa [hg] using this
    obtain ⟨hlen, hbit⟩ := groupBitmap_spec h size (g.getD [])
    have hassoc : ∀ i, (p i && groupsMatch c (g :: gs) i) =
        ((p i && (g.getD []).any (c · i)) && groupsMatch c gs i) := by
      intro i
      have hne : (g.getD []).isEmpty = false := by simpa using hg
      simp only [groupsMatch, all_cons, hne, Bool.false_or, Bool.and_assoc]
    have hne : (g.getD []).isEmpty = false := by simpa using hg
    simp only [queryGroups, if_neg hg, hassoc, all_cons, hne, Bool.false_and, Bool.and_false]
    have hr' : Holds size (if first then groupBitmap idx size (g.getD [])
        else wordLoop (· &&& ·) r (groupBitmap idx size (g.getD [])) (size / 8)) false
        (fun i => p i && (g.getD []).any (c · i)) := by
      cases first with
      | true =>
        exact ⟨hlen, fun _ i => by rw [if_pos rfl, hbit i, hr.all rfl i, Bool.true_and],
          fun hc => Bool.noConfusion hc⟩
      | false =>
        have hrl := hr.length
        obtain ⟨hlen', hbit'⟩ := wordLoop_spec (· &&& ·) (· && ·) Nat.testBit_and r
          (groupBitmap idx size (g.getD [])) (size / 8) (by omega)
        refine ⟨hlen'.trans hrl, ?_, fun hc => Bool.noConfusion hc⟩
        intro _ i
        have h64 : 64 * (size / 8) = 8 * size := by omega
        simp only [Bool.false_eq_true, if_false]
        rw [hbit' i, hr.bit rfl i, hbit i, h64]
        by_cases hi : i < 8 * size <;> simp [hi]
    generalize (if first then groupBitmap idx size (g.getD [])
        else wordLoop (· &&& ·) r (groupBitmap idx size (g.getD [])) (size / 8)) = r₁ at hr' ⊢
    by_cases hempty : bitmapIsEmpty r₁ size = true
    · rw [if_pos hempty]
      refine ⟨?_, fun r' first' hsome => nomatch hsome⟩
      intro _
      refine ⟨⟨g, mem_cons_self, hg⟩, ?_⟩
      intro i hi
      have hclear := bitmapIsEmpty_iff.mp hempty i hi
      rw [hr'.bit rfl i, decide_eq_true hi, Bool.true_and] at hclear
      rw [hclear, Bool.false_and]
    rw [if_neg hempty]
    obtain ⟨hnone, hsome⟩ := ih hr'
    refine ⟨fun hn => ?_, hsome⟩
    obtain ⟨⟨g', hg', hne'⟩, hfalse⟩ := hnone hn
    exact ⟨⟨g', mem_cons_of_mem g hg', hne'⟩, hfalse⟩

theorem matches_eq (c : Carries) (tags : List TagId) (groups : List QueryGroup) (f : Nat) :
    Matches c tags groups f = (tags.all (c · f) && groupsMatch c groups f) := rfl

theorem matches_le_max (h : idx.Inv c) {tags : List TagId}
    {groups : List QueryGroup} (hgiven : Given tags groups) {f : Nat} (hm : Matches c tags groups f = true) :
    f ≤ idx.maxFileId := by
  simp only [Matches, Bool.and_eq_true, List.all_eq_true, Bool.or_eq_true, List.any_eq_true] at hm
  rcases hgiven with htags | ⟨g, hg, hne⟩
  · obtain ⟨t, ht⟩ := exists_mem_of_ne_nil tags htags
    exact h.le_max t f (hm.1 t ht)
  · rcases hm.2 g hg with hempty | ⟨t, -, ht⟩
    · exact absurd (List.isEmpty_iff.mp hempty) hne
    · exact h.le_max t f ht

theorem resultSize_spec (maxFileId : Nat) : resultSize maxFileId % 8 = 0 ∧ maxFileId < 8 * resultSize maxFileId := by
  unfold resultSize
  omega

theorem initial_holds (size : Nat) : Holds size (replicate size 0) true (fun _ => true) :=
  ⟨by simp, fun hc => Bool.noConfusion hc, fun _ _ => rfl⟩

theorem answers_nil {tags : List TagId} {groups : List QueryGroup} (maxResults : Nat)
    (h : ∀ f, Given tags groups → Matches c tags groups f = false) : Answers c tags groups maxResults [] := by
  refine ⟨[], List.Pairwise.nil, ?_, by simp⟩
  intro f
  simp only [not_mem_nil, false_iff]
  rintro ⟨hgiven, -, hm⟩
  rw [h f hgiven] at hm
  exact Bool.noConfusion hm

theorem computeQuery_spec (h : idx.Inv c) (tags : List TagId) (groups : List QueryGroup) (maxResults : Nat) :
    Answers c tags groups maxResults ((computeQuery idx tags groups maxResults).getD []) := by
  obtain ⟨h8, hmax⟩ := resultSize_spec idx.maxFileId
  obtain ⟨htnone, htsome⟩ := queryTags_spec h tags (initial_holds (resultSize idx.maxFileId))
  simp only [computeQuery, bind_eq_bind]
  cases hqt : queryTags idx (resultSize idx.maxFileId) tags
      (replicate (resultSize idx.maxFileId) 0) true with
  | none =>
    apply answers_nil
    intro f hgiven
    by_contra hm
    rw [Bool.not_eq_false] at hm
    have hle := matches_le_max h hgiven hm
    have := htnone hqt f (by omega)
    rw [Bool.true_and] at this
    rw [matches_eq, this, Bool.false_and] at hm
    exact Bool.noConfusion hm
  | some rf =>
    obtain ⟨r, first⟩ := rf
    obtain ⟨hr, hfirst⟩ := htsome r first hqt
    obtain ⟨hgnone, hgsome⟩ := queryGroups_spec h h8 groups hr
    simp only [bind_some]
    cases hqg : queryGroups idx (resultSize idx.maxFileId) groups r first with
    | none =>
      apply answers_nil
      intro f hgiven
      by_contra hm
      rw [Bool.not_eq_false] at hm
      have hle := matches_le_max h hgiven hm
      have := (hgnone hqg).2 f (by omega)
      rw [Bool.true_and, ← matches_eq, hm] at this
      exact Bool.noConfusion this
    | some rf' =>
      obtain ⟨r', first'⟩ := rf'
      obtain ⟨hr', hfirst'⟩ := hgsome r' first' hqg
      have hgiven : first' = false ↔ Given tags groups := by
        rw [hfirst', hfirst, Given]
        simp only [Bool.true_and, Bool.and_eq_false_iff, List.all_eq_false, isEmpty_eq_false_iff,
          Bool.not_eq_true]
      simp only [bind_some]
      cases hf : first' with
      | true =>
        apply answers_nil
        intro f hg
        rw [← hgiven, hf] at hg
        exact Bool.noConfusion hg
      | false =>
        refine ⟨listing r' idx.maxFileId (8 * resultSize idx.maxFileId), pairwise_lt_range.filter _, ?_, ?_⟩
        · intro f
          rw [listing, mem_filter, mem_range, hr'.bit hf f]
          simp only [Bool.and_eq_true, decide_eq_true_eq, Bool.true_and, ← matches_eq]
          constructor
          · rintro ⟨-, ⟨-, hm⟩, hge, -⟩
            exact ⟨hgiven.mp hf, hge, hm⟩
          · rintro ⟨hg, hge, hm⟩
            have hle := matches_le_max h hg hm
            exact ⟨by omega, ⟨by omega, hm⟩, hge, hle⟩
        · simp [extractSetBits_eq]

/-! ## The cache -/

/-- `ids` are all the files that carry every tag of `key`. -/
def AllMatches (c : Carries) (key : List TagId) (ids : List Nat) : Prop :=
  ids.Pairwise (· < ·) ∧ ∀ f, f ∈ ids ↔ Given key [] ∧ f ≥ 1 ∧ Matches c key [] f = true

/-- What a slot of the cache may hold: nothing, or a key with its length, of no later generation than the index, and if
of this generation then with all its matches. -/
def QueryCacheEntry.Ok (e : QueryCacheEntry) (generation : Nat) (c : Carries) : Prop :=
  ∀ ids key, e.fileIds = some ids → e.tagKey = some key →
    e.generation ≤ generation ∧ e.tagCount = key.length ∧ (e.generation = generation → AllMatches c key ids)

/-- Every slot of the cache is right for the relation `c`. -/
def TagBitmapIndex.CacheOk (idx : TagBitmapIndex) (c : Carries) : Prop := ∀ e ∈ idx.cache, e.Ok idx.generation c

theorem hits_key {e : QueryCacheEntry} {hash : UInt32} {generation : Nat} {tags : List TagId} (hok : e.Ok generation c)
    (h : e.hits hash generation tags = true) : ∃ ids, e.fileIds = some ids ∧ AllMatches c tags ids := by
  simp only [QueryCacheEntry.hits, Bool.and_eq_true, beq_iff_eq, isSome_iff_exists] at h
  obtain ⟨⟨⟨⟨-, hgen⟩, hcount⟩, ids, hids⟩, hkey⟩ := h
  cases hk : e.tagKey with
  | none => rw [hk] at hkey; exact Bool.noConfusion hkey
  | some key =>
    rw [hk] at hkey
    simp only [List.all_eq_true, mem_range, beq_iff_eq] at hkey
    obtain ⟨-, hlen, hall⟩ := hok ids key hids hk
    have heq : key = tags := by
      apply ext_getElem?
      intro j
      by_cases hj : j < tags.length
      · exact hkey j hj
      · rw [getElem?_eq_none (by omega), getElem?_eq_none (by omega)]
    exact ⟨ids, hids, heq ▸ hall hgen⟩

theorem query_answers (h : idx.Inv c) (hcache : idx.CacheOk c) (tags : List TagId) (groups : List QueryGroup)
    (maxResults : Nat) : Answers c tags groups maxResults (tagBitmapQuery idx tags groups maxResults).1 := by
  unfold tagBitmapQuery
  by_cases h0 : idx.maxFileId = 0
  · rw [if_pos h0]
    refine ⟨[], List.Pairwise.nil, ?_, by simp⟩
    intro f
    simp only [not_mem_nil, false_iff]
    rintro ⟨hgiven, hge, hm⟩
    have := matches_le_max h hgiven hm
    omega
  rw [if_neg h0]
  have hcomp := computeQuery_spec h tags groups maxResults
  by_cases hc : tags.length > 0 ∧ groups.length = 0
  · obtain rfl : groups = [] := length_eq_zero_iff.mp hc.2
    simp only [hc, if_true, true_and]
    cases hl : cacheLookup idx (queryHash tags []) tags with
    | some e =>
      have hmem : e ∈ idx.cache := mem_of_find?_eq_some hl
      have hhit := find?_some hl
      obtain ⟨ids, hids, hsorted, hall⟩ := hits_key (hcache e hmem) hhit
      refine ⟨ids, hsorted, hall, ?_⟩
      simp [hids]
    | none => cases hq : computeQuery idx tags [] maxResults <;> simpa [hq] using hcomp
  · simp only [hc, if_false, false_and]
    cases hq : computeQuery idx tags groups maxResults <;> simpa [hq] using hcomp

theorem query_index (idx : TagBitmapIndex) (tags : List TagId) (groups : List QueryGroup) (maxResults : Nat) :
    (tagBitmapQuery idx tags groups maxResults).2 = idx ∨
      ∃ out, groups = [] ∧ computeQuery idx tags [] maxResults = some out ∧ out.length < maxResults ∧
        (tagBitmapQuery idx tags groups maxResults).2 = cacheStore idx (queryHash tags []) tags out := by
  unfold tagBitmapQuery
  by_cases h0 : idx.maxFileId = 0
  · exact Or.inl (by rw [if_pos h0])
  rw [if_neg h0]
  by_cases hc : tags.length > 0 ∧ groups.length = 0
  · obtain rfl : groups = [] := length_eq_zero_iff.mp hc.2
    simp only [hc, if_true, true_and]
    cases cacheLookup idx (queryHash tags []) tags with
    | some e => exact Or.inl rfl
    | none =>
      cases hq : computeQuery idx tags [] maxResults with
      | none => exact Or.inl rfl
      | some out =>
        by_cases hlt : out.length < maxResults
        · exact Or.inr ⟨out, rfl, hlt, by simp [hlt]⟩
        · exact Or.inl (by simp [hlt])
  · simp only [hc, if_false, false_and]
    exact Or.inl (by cases computeQuery idx tags groups maxResults <;> rfl)

theorem query_cacheOk (h : idx.Inv c) (hcache : idx.CacheOk c) {tags : List TagId} (htags : tags.length < 2 ^ 16)
    (groups : List QueryGroup) (maxResults : Nat) : (tagBitmapQuery idx tags groups maxResults).2.CacheOk c := by
  rcases query_index idx tags groups maxResults with heq | ⟨out, rfl, hout, hlt, heq⟩
  · rw [heq]
    exact hcache
  rw [heq]
  obtain ⟨all, hsorted, hall, htake⟩ := computeQuery_spec h tags [] maxResults
  rw [hout, getD_some] at htake
  -- a result shorter than asked for is the whole answer
  have hfull : out = all := by
    rw [htake, take_of_length_le]
    rw [htake, length_take] at hlt
    omega
  subst hfull
  intro e he
  rcases mem_or_eq_of_mem_set he with he | rfl
  · exact hcache e he
  intro ids key hids hkey
  obtain rfl := some.inj hids
  obtain rfl := some.inj hkey
  exact ⟨le_refl _, Nat.mod_eq_of_lt htags, fun _ => ⟨hsorted, hall⟩⟩

theorem query_inv (h : idx.Inv c) (tags : List TagId) (groups : List QueryGroup)
    (maxResults : Nat) : (tagBitmapQuery idx tags groups maxResults).2.Inv c := by
  rcases query_index idx tags groups maxResults with heq | ⟨out, -, -, -, heq⟩
  · rw [heq]
    exact h
  · rw [heq]
    exact ⟨h.bitmap, h.absent, h.tags, h.le_max, h.max_lt⟩

theorem cacheOk_of_bump {idx' : TagBitmapIndex} {c' : Carries} (h : idx.CacheOk c)
    (hgen : idx'.generation = idx.generation + 1) (hcache : idx'.cache = idx.cache) : idx'.CacheOk c' := by
  intro e he ids key hids hkey
  rw [hcache] at he
  obtain ⟨hle, hcount, -⟩ := h e he ids key hids hkey
  refine ⟨by omega, hcount, ?_⟩
  intro heq
  omega

end BoxOS.TagFS
