import BoxOS.TagFS.TagBitmap

/-!
# The tag index represents a relation

- `Carries` is the relation the index is for: which file carries which tag;
- `TagBitmap.Ok` and `TagIdList.Ok` say that one bitmap and one tag list represent a slice of it, `TagBitmapIndex.Inv`
  says it of the whole index;
- `set_inv`, `clear_inv` and `removeFile_inv`: each update keeps the index in step with the relation.
-/

namespace BoxOS.TagFS

open Lib List Option TagBitmapIndex

/-- Which file carries which tag. -/
abbrev Carries := TagId → Nat → Bool

def Carries.none : Carries := fun _ _ => false

def Carries.set (c : Carries) (t : TagId) (f : Nat) : Carries :=
  fun t' f' => c t' f' || (decide (t' = t) && decide (f' = f))

def Carries.clear (c : Carries) (t : TagId) (f : Nat) : Carries :=
  fun t' f' => c t' f' && !(decide (t' = t) && decide (f' = f))

def Carries.remove (c : Carries) (f : Nat) : Carries := fun t' f' => c t' f' && !decide (f' = f)

/-! ## One bitmap -/

/-- The files whose bit is set. -/
def fileSet (bits : List UInt8) : Finset Nat := (Finset.range (8 * bits.length)).filter (fun f => bitAt bits f = true)

theorem mem_fileSet {bits : List UInt8} {f : Nat} : f ∈ fileSet bits ↔ bitAt bits f = true := by
  simp only [fileSet, Finset.mem_filter, Finset.mem_range, and_iff_right_iff_imp]
  intro h
  by_contra hc
  rw [bitAt_of_length_le (by omega)] at h
  exact Bool.noConfusion h

/-- The bitmap `bm` holds exactly the files of `c`, and counts them. -/
structure TagBitmap.Ok (bm : TagBitmap) (c : Nat → Bool) : Prop where
  width : bm.bitCount = 8 * bm.bits.length
  bit : ∀ f, bitAt bm.bits f = c f
  count : bm.fileCount = (fileSet bm.bits).card

variable {c : Nat → Bool} {l : TagIdList}

theorem emptyBitmap_ok (h : ∀ f, c f = false) : TagBitmap.Ok ⟨[], 0, 0⟩ c where
  width := rfl
  bit f := by rw [h f]; exact bitAt_of_length_le (by simp)
  count := by simp [fileSet]

variable {bm : TagBitmap} {idx : TagBitmapIndex}

theorem TagBitmap.Ok.bytes (h : bm.Ok c) : (bm.bitCount + 7) / 8 = bm.bits.length := by
  rw [h.width]
  omega

theorem ensureBitmapWidth_ok (h : bm.Ok c) (n : Nat) :
    (ensureBitmapWidth bm n).Ok c ∧ n < 8 * (ensureBitmapWidth bm n).bits.length := by
  have hw := h.width
  unfold ensureBitmapWidth
  by_cases hn : bm.bitCount ≥ n + 1
  · rw [if_pos hn]
    exact ⟨h, by omega⟩
  rw [if_neg hn]
  have htake : bm.bits.take ((bm.bitCount + 7) / 8) = bm.bits := by
    rw [h.bytes, take_length]
  have hbit : ∀ f k, bitAt (bm.bits ++ replicate k 0) f = bitAt bm.bits f := by
    intro f k
    rw [bitAt_append]
    split
    · rfl
    · rw [bitAt_replicate_zero, bitAt_of_length_le (by omega)]
  simp only [htake]
  refine ⟨⟨?_, ?_, ?_⟩, ?_⟩
  · simp; omega
  · intro f; rw [hbit, h.bit]
  · simp only [h.count]
    congr 1
    ext f
    rw [mem_fileSet, mem_fileSet, hbit]
  · simp; omega

theorem setFile_ok (h : bm.Ok c) {f : Nat} (hf : f < 8 * bm.bits.length) :
    (bm.setFile f).Ok (fun f' => c f' || decide (f' = f)) := by
  unfold TagBitmap.setFile
  rw [testBit8_eq]
  by_cases hb : bitAt bm.bits f = true
  · rw [if_pos hb]
    refine ⟨h.width, ?_, h.count⟩
    intro f'
    rw [h.bit]
    by_cases hff : f' = f
    · subst hff; simp [← h.bit, hb]
    · simp [hff]
  rw [if_neg hb]
  have hbit : ∀ f', bitAt (setBit bm.bits f) f' = (bitAt bm.bits f' || decide (f' = f)) :=
    fun f' => bitAt_setBit (by omega) f'
  refine ⟨by simpa using h.width, ?_, ?_⟩
  · intro f'
    simp only [hbit, h.bit]
  · have hset : fileSet (setBit bm.bits f) = insert f (fileSet bm.bits) := by
      ext f'
      simp only [mem_fileSet, hbit, Finset.mem_insert, Bool.or_eq_true, decide_eq_true_eq]
      exact or_comm
    have hnot : f ∉ fileSet bm.bits := fun hm => hb (mem_fileSet.mp hm)
    simp only [hset, Finset.card_insert_of_notMem hnot, h.count]

theorem clearFile_ok (h : bm.Ok c) (f : Nat) : (bm.clearFile f).Ok (fun f' => c f' && !decide (f' = f)) := by
  unfold TagBitmap.clearFile
  rw [h.bytes, testBit8_eq]
  by_cases hb : bitAt bm.bits f = true
  · have hlt : f < bm.bits.length * 8 := by
      by_contra hc
      rw [bitAt_of_length_le (by omega)] at hb
      exact Bool.noConfusion hb
    rw [if_pos ⟨by omega, hb⟩]
    have hbit : ∀ f', bitAt (clearBit bm.bits f) f' = (bitAt bm.bits f' && !decide (f' = f)) :=
      fun f' => bitAt_clearBit hlt f'
    refine ⟨by simpa using h.width, ?_, ?_⟩
    · intro f'
      simp only [hbit, h.bit]
    · have hset : fileSet (clearBit bm.bits f) = (fileSet bm.bits).erase f := by
        ext f'
        simp only [mem_fileSet, hbit, Finset.mem_erase, Bool.and_eq_true, Bool.not_eq_true', decide_eq_false_iff_not]
        exact and_comm
      simp only [hset, Finset.card_erase_of_mem (mem_fileSet.mpr hb), h.count]
  · rw [if_neg (fun hc => hb hc.2)]
    refine ⟨h.width, ?_, h.count⟩
    intro f'
    rw [h.bit]
    by_cases hff : f' = f
    · subst hff
      rw [Bool.not_eq_true, h.bit] at hb
      simp [hb]
    · simp [hff]

/-! ## One tag list -/

/-- The list `l` holds exactly the tags of `c`, each once; its capacity has grown by doubling from four. -/
structure TagIdList.Ok (l : TagIdList) (c : TagId → Bool) : Prop where
  nodup : l.ids.Nodup
  mem : ∀ t, t ∈ l.ids ↔ c t = true
  fits : l.ids.length ≤ l.capacity
  capacity : l.capacity = 0 ∨ ∃ k, 2 ≤ k ∧ k ≤ 15 ∧ l.capacity = 2 ^ k

theorem emptyList_ok {c : TagId → Bool} (h : ∀ t, c t = false) : TagIdList.Ok ⟨[], 0⟩ c where
  nodup := nodup_nil
  mem t := by simp [h t]
  fits := le_refl 0
  capacity := Or.inl rfl

/-- A file with room takes a tag: only at 32768 tags does the doubled capacity vanish. -/
def TagIdList.HasRoom (l : TagIdList) (t : TagId) : Prop := l.ids.length < 2 ^ 15 ∨ t ∈ l.ids

instance (l : TagIdList) (t : TagId) : Decidable (l.HasRoom t) := by
  unfold TagIdList.HasRoom; infer_instance

theorem TagIdList.Ok.append {c : TagId → Bool} {t : TagId} (h : l.Ok c) (hmem : t ∉ l.ids)
    {cap : Nat} (hfits : l.ids.length + 1 ≤ cap) (hcap : ∃ k, 2 ≤ k ∧ k ≤ 15 ∧ cap = 2 ^ k) :
    TagIdList.Ok ⟨l.ids ++ [t], cap⟩ (fun t' => c t' || decide (t' = t)) where
  nodup := by
    rw [nodup_append]
    refine ⟨h.nodup, nodup_singleton t, ?_⟩
    intro a ha b hb hab
    rw [mem_singleton] at hb
    exact hmem (hb ▸ hab ▸ ha)
  mem t' := by simp [h.mem t']
  fits := by simpa using hfits
  capacity := Or.inr hcap

theorem reverseIndexAdd_ok {c : TagId → Bool} (h : l.Ok c) {t : TagId} (hroom : l.HasRoom t) :
    (reverseIndexAdd l t).Ok (fun t' => c t' || decide (t' = t)) := by
  unfold reverseIndexAdd
  by_cases hmem : t ∈ l.ids
  · rw [if_pos hmem]
    refine ⟨h.nodup, ?_, h.fits, h.capacity⟩
    intro t'
    by_cases ht : t' = t
    · subst ht; simp [hmem]
    · simp [h.mem t', ht]
  have hlt : l.ids.length < 2 ^ 15 := hroom.resolve_right hmem
  have hfits := h.fits
  rw [if_neg hmem]
  by_cases hfull : l.ids.length ≥ l.capacity
  · rw [if_pos hfull]
    rcases h.capacity with h0 | ⟨k, hk2, hk15, hcap⟩
    · have hne : ¬ l.capacity ≠ 0 := by omega
      simp only [if_neg hne]
      rw [if_neg (by decide)]
      exact h.append hmem (by omega) ⟨2, le_refl 2, by decide, rfl⟩
    have hk : k ≤ 14 := by
      by_contra hc
      have : (2 : Nat) ^ 15 ≤ 2 ^ k := Nat.pow_le_pow_right (by decide) (by omega)
      omega
    have hpow : (2 : Nat) ^ (k + 1) ≤ 2 ^ 15 := Nat.pow_le_pow_right (by decide) (by omega)
    have hpos : 0 < 2 ^ k := by positivity
    have hdouble : l.capacity * 2 % 2 ^ 16 = 2 ^ (k + 1) := by
      rw [hcap, ← pow_succ, Nat.mod_eq_of_lt (by omega)]
    have hne : l.capacity ≠ 0 := by omega
    simp only [hdouble, if_pos hne]
    rw [if_neg (by omega)]
    exact h.append hmem (by rw [pow_succ]; omega) ⟨k + 1, by omega, by omega, rfl⟩
  · rw [if_neg hfull]
    refine h.append hmem (by omega) (h.capacity.resolve_left (by omega))

theorem swapRemove_perm {ids : List TagId} {t : TagId} {i : Nat} (h : ids.idxOf? t = some i) :
    ((ids.set i (ids.getLastD 0)).dropLast).Perm (ids.erase t) := by
  obtain ⟨hi, hget, -⟩ := findIdx?_eq_some_iff_getElem.mp h
  have hget' : ids[i] = t := by simpa using hget
  have hperm : (ids[i] :: ids.eraseIdx i).Perm (t :: ids.erase t) :=
    (getElem_cons_eraseIdx_perm hi).trans (perm_cons_erase (hget' ▸ getElem_mem hi))
  rw [hget', perm_cons] at hperm
  refine List.Perm.trans ?_ hperm
  rcases eq_nil_or_concat ids with rfl | ⟨l, z, rfl⟩
  · simp at hi
  rw [concat_eq_append, length_append, length_singleton] at hi
  rw [concat_eq_append, getLastD_concat]
  by_cases hlast : i < l.length
  · rw [set_append_left _ _ hlast, dropLast_concat, eraseIdx_append_of_lt_length hlast]
    exact (set_perm_cons_eraseIdx hlast z).trans (perm_append_singleton z _).symm
  · obtain rfl : i = l.length := by omega
    simp [eraseIdx_append_of_length_le]

theorem reverseIndexRemove_ok {c : TagId → Bool} (h : l.Ok c) (t : TagId) :
    (reverseIndexRemove l t).Ok (fun t' => c t' && !decide (t' = t)) := by
  unfold reverseIndexRemove
  cases hi : l.ids.idxOf? t with
  | none =>
    have hmem : t ∉ l.ids := by simpa using hi
    refine ⟨h.nodup, ?_, h.fits, h.capacity⟩
    intro t'
    by_cases ht : t' = t
    · subst ht; simp [hmem]
    · simp [h.mem t', ht]
  | some i =>
    have hperm := swapRemove_perm hi
    refine ⟨hperm.symm.nodup (h.nodup.erase t), ?_, ?_, h.capacity⟩
    · intro t'
      rw [hperm.mem_iff, h.nodup.mem_erase_iff, h.mem t']
      by_cases ht : t' = t <;> simp [ht]
    · calc ((l.ids.set i (l.ids.getLastD 0)).dropLast).length = (l.ids.erase t).length := hperm.length_eq
        _ ≤ l.ids.length := length_erase_le
        _ ≤ l.capacity := h.fits

/-! ## The whole index -/

/-- The index `idx` represents the relation `c` in both directions. -/
structure TagBitmapIndex.Inv (idx : TagBitmapIndex) (c : Carries) : Prop where
  bitmap : ∀ t bm, idx.bitmapOf t = some bm → bm.Ok (c t)
  absent : ∀ t, idx.bitmapOf t = none → ∀ f, c t f = false
  tags : ∀ f, (idx.tagsOf f).Ok (fun t => c t f)
  le_max : ∀ t f, c t f = true → f ≤ idx.maxFileId
  max_lt : idx.maxFileId < 2 ^ 31

theorem create_spec {tagCap fileCap : Nat} (h : tagBitmapCreate tagCap fileCap = some idx) :
    (∀ t, idx.bitmapOf t = none) ∧ (∀ f, idx.tagsOf f = ⟨[], 0⟩) ∧ idx.maxFileId = 0 ∧ idx.generation = 0 ∧
      idx.cache = replicate queryCacheSlots ⟨0, 0, none, none, 0⟩ := by
  unfold tagBitmapCreate at h
  split at h
  · cases h
  obtain rfl := some.inj h
  refine ⟨?_, ?_, rfl, rfl, rfl⟩
  · exact fun t => getD_replicate _ _ _
  · exact fun f => getD_replicate _ _ _

theorem create_inv {tagCap fileCap : Nat} (h : tagBitmapCreate tagCap fileCap = some idx) : idx.Inv Carries.none := by
  obtain ⟨hbm, htags, hmax, -, -⟩ := create_spec h
  refine ⟨?_, fun t _ f => rfl, ?_, ?_, by rw [hmax]; decide⟩
  · intro t bm hsome
    rw [hbm] at hsome
    cases hsome
  · intro f
    rw [htags]
    exact emptyList_ok fun t => rfl
  · intro t f hc
    exact Bool.noConfusion hc

theorem bitmapOf_lt {t : TagId} (h : idx.bitmapOf t = some bm) : t.toNat < idx.bitmaps.length := by
  by_contra hc
  rw [bitmapOf, getD_of_length_le (by omega)] at h
  cases h

/-- What `tag_bitmap_set` does to every bitmap and every tag list. -/
theorem set_eq (idx : TagBitmapIndex) (t : TagId) {f : Nat} (hf : f < 2 ^ 31) :
    ∃ idx', tagBitmapSet idx t f = some idx' ∧
      (∀ t', idx'.bitmapOf t' =
        if t' = t then some ((ensureBitmapWidth ((idx.bitmapOf t).getD ⟨[], 0, 0⟩) (max f idx.maxFileId)).setFile f)
        else idx.bitmapOf t') ∧
      (∀ f', idx'.tagsOf f' = if f' = f then reverseIndexAdd (idx.tagsOf f) t else idx.tagsOf f') ∧
      idx'.maxFileId = max f idx.maxFileId ∧ idx'.generation = (idx.generation + 1) % 2 ^ 64 ∧
      idx'.cache = idx.cache := by
  have ht : t.toNat < 2 ^ 31 := (UInt16.toNat_lt t).trans (by decide)
  obtain ⟨bms, hbms, hlen, hget⟩ := ensureCapacity_spec (none : Option TagBitmap) idx.bitmaps ht
  obtain ⟨lists, hlists, hlen', hget'⟩ := ensureCapacity_spec (⟨[], 0⟩ : TagIdList) idx.fileToTags hf
  have hmax : (if f > idx.maxFileId then f else idx.maxFileId) = max f idx.maxFileId := by
    rw [max_def]
    split <;> split <;> omega
  refine ⟨_, by simp only [tagBitmapSet, ensureBitmapCapacity, ensureFileCapacity, hbms, hlists,
    bind_eq_bind, bind_some, Option.pure_def]; rfl, ?_, ?_, ?_, ?_, ?_⟩
  · intro t'
    simp only [bump, bitmapOf, getD_set _ _ _ _ _ hlen, hget, hmax]
    by_cases htt : t' = t
    · subst htt; simp
    · rw [if_neg htt, if_neg (fun hc => htt (UInt16.toNat_inj.mp hc))]
  · intro f'
    simp only [bump, tagsOf, getD_set _ _ _ _ _ hlen', hget']
  · simp only [bump, hmax]
  · rfl
  · rfl

/-- `tag_bitmap_set` adds one pair to the relation. -/
theorem set_inv {idx' : TagBitmapIndex} {c : Carries} (h : idx.Inv c) {t : TagId} {f : Nat} (hf : f < 2 ^ 31)
    (hroom : (idx.tagsOf f).HasRoom t) (hset : tagBitmapSet idx t f = some idx') : idx'.Inv (c.set t f) := by
  obtain ⟨idx'', hset', hbm, htags, hmax, -, -⟩ := set_eq idx t hf
  obtain rfl : idx'' = idx' := some.inj (hset'.symm.trans hset)
  have hold : ((idx.bitmapOf t).getD ⟨[], 0, 0⟩).Ok (c t) := by
    cases hb : idx.bitmapOf t with
    | none => exact emptyBitmap_ok (h.absent t hb)
    | some bm => exact h.bitmap t bm hb
  obtain ⟨hwide, hwlen⟩ := ensureBitmapWidth_ok hold (max f idx.maxFileId)
  have hle : f ≤ max f idx.maxFileId := le_max_left _ _
  have hnew := setFile_ok hwide (f := f) (by omega)
  refine ⟨?_, ?_, ?_, ?_, ?_⟩
  · intro t' bm hsome
    rw [hbm] at hsome
    by_cases htt : t' = t
    · subst htt
      rw [if_pos rfl] at hsome
      obtain rfl := some.inj hsome
      have hc : c.set t' f t' = fun f' => c t' f' || decide (f' = f) := by funext f'; simp [Carries.set]
      rw [hc]
      exact hnew
    rw [if_neg htt] at hsome
    have hc : c.set t f t' = c t' := by funext f'; simp [Carries.set, htt]
    rw [hc]
    exact h.bitmap t' bm hsome
  · intro t' hnone f'
    rw [hbm] at hnone
    by_cases htt : t' = t
    · rw [if_pos htt] at hnone
      cases hnone
    · rw [if_neg htt] at hnone
      simp [Carries.set, htt, h.absent t' hnone f']
  · intro f'
    rw [htags]
    by_cases hff : f' = f
    · subst hff
      rw [if_pos rfl]
      simpa [Carries.set] using reverseIndexAdd_ok (h.tags f') hroom
    · rw [if_neg hff]
      simpa [Carries.set, hff] using h.tags f'
  · intro t' f' hc
    rw [hmax]
    simp only [Carries.set, Bool.or_eq_true, Bool.and_eq_true, decide_eq_true_eq] at hc
    rcases hc with hc | ⟨-, rfl⟩
    · exact (h.le_max t' f' hc).trans (le_max_right _ _)
    · exact hle
  · rw [hmax]
    exact max_lt hf h.max_lt

theorem clear_of_absent {c : Carries} (h : idx.Inv c) {t : TagId} (hb : idx.bitmapOf t = none)
    (f : Nat) : c.clear t f = c := by
  funext t' f'
  by_cases htt : t' = t
  · subst htt
    simp [Carries.clear, h.absent t' hb]
  · simp [Carries.clear, htt]

theorem remove_of_past {c : Carries} (h : idx.Inv c) {f : Nat} (hlen : f ≥ idx.fileToTags.length) : c.remove f = c := by
  have hnil : (idx.tagsOf f).ids = [] := by
    rw [tagsOf, getD_of_length_le hlen]
  funext t' f'
  by_cases hff : f' = f
  · subst hff
    have := (h.tags f').mem t'
    rw [hnil] at this
    simp [Carries.remove, Bool.eq_false_iff.mpr (fun hc => not_mem_nil (this.mpr hc))]
  · simp [Carries.remove, hff]

/-- `tag_bitmap_clear` takes one pair out of the relation. -/
theorem clear_inv {c : Carries} (h : idx.Inv c) (t : TagId) (f : Nat) : (tagBitmapClear idx t f).Inv (c.clear t f) := by
  unfold tagBitmapClear
  cases hb : idx.bitmapOf t with
  | none =>
    rw [clear_of_absent h hb]
    exact h
  | some bm =>
    have hlt := bitmapOf_lt hb
    have hbm : ∀ t' : TagId, (idx.bitmaps.set t.toNat (some (bm.clearFile f))).getD t'.toNat none =
        if t' = t then some (bm.clearFile f) else idx.bitmapOf t' := by
      intro t'
      rw [getD_set _ _ _ _ _ hlt]
      by_cases htt : t' = t
      · subst htt; simp
      · rw [if_neg htt, if_neg (fun hc => htt (UInt16.toNat_inj.mp hc))]
        rfl
    refine ⟨?_, ?_, ?_, ?_, h.max_lt⟩
    · intro t' bm' hsome
      simp only [bump, bitmapOf, hbm] at hsome
      by_cases htt : t' = t
      · subst htt
        rw [if_pos rfl] at hsome
        obtain rfl := some.inj hsome
        have hc : c.clear t' f t' = fun f' => c t' f' && !decide (f' = f) := by funext f'; simp [Carries.clear]
        rw [hc]
        exact clearFile_ok (h.bitmap t' bm hb) f
      rw [if_neg htt] at hsome
      have hc : c.clear t f t' = c t' := by funext f'; simp [Carries.clear, htt]
      rw [hc]
      exact h.bitmap t' bm' hsome
    · intro t' hnone f'
      simp only [bump, bitmapOf, hbm] at hnone
      by_cases htt : t' = t
      · rw [if_pos htt] at hnone
        cases hnone
      · rw [if_neg htt] at hnone
        simp [Carries.clear, h.absent t' hnone f']
    · intro f'
      by_cases hff : f' = f
      · subst hff
        have hok := reverseIndexRemove_ok (h.tags f') t
        simp only [bump, tagsOf] at hok ⊢
        by_cases hlen : f' < idx.fileToTags.length
        · rw [getD_set _ _ _ _ _ hlen, if_pos rfl]
          simpa [Carries.clear] using hok
        -- past the capacity there is no list to remove from
        have hnil : idx.fileToTags.getD f' ⟨[], 0⟩ = ⟨[], 0⟩ := getD_of_length_le (by omega) _
        rw [set_eq_of_length_le (by omega), hnil]
        rw [hnil] at hok
        simpa [Carries.clear, reverseIndexRemove] using hok
      · have : (idx.fileToTags.set f (reverseIndexRemove (idx.tagsOf f) t)).getD f' ⟨[], 0⟩ = idx.tagsOf f' := by
          simp [tagsOf, getD_eq_getElem?_getD, getElem?_set_ne (Ne.symm hff)]
        change ((idx.fileToTags.set f (reverseIndexRemove (idx.tagsOf f) t)).getD f' ⟨[], 0⟩).Ok _
        rw [this]
        simpa [Carries.clear, hff] using h.tags f'
    · intro t' f' hc
      simp only [Carries.clear, Bool.and_eq_true] at hc
      exact h.le_max t' f' hc.1

theorem clearFileFrom_getD (f : Nat) (bms : List (Option TagBitmap)) (ts : List TagId) (hnd : ts.Nodup) (t : TagId) :
    (clearFileFrom f bms ts).getD t.toNat none =
      if t ∈ ts then (bms.getD t.toNat none).map (TagBitmap.clearFile · f) else bms.getD t.toNat none := by
  induction ts generalizing bms with
  | nil => simp [clearFileFrom]
  | cons u us ih =>
    obtain ⟨hu, hnd'⟩ := nodup_cons.mp hnd
    cases hb : bms.getD u.toNat none with
    | none =>
      simp only [clearFileFrom, hb]
      rw [ih _ hnd']
      by_cases htu : t = u
      · subst htu
        rw [if_neg hu, if_pos mem_cons_self, hb]
        rfl
      · simp [htu]
    | some bm =>
      simp only [clearFileFrom, hb]
      have hlt : u.toNat < bms.length := by
        by_contra hc
        rw [getD_of_length_le (by omega)] at hb
        cases hb
      rw [ih _ hnd', getD_set _ _ _ _ _ hlt]
      by_cases htu : t = u
      · subst htu
        rw [if_neg hu, if_pos rfl, if_pos mem_cons_self, hb]
        rfl
      · rw [if_neg (fun hc => htu (UInt16.toNat_inj.mp hc))]
        simp [htu]

/-- `tag_bitmap_remove_file` takes all pairs of one file out of the relation. -/
theorem removeFile_inv {c : Carries} (h : idx.Inv c) (f : Nat) : (tagBitmapRemoveFile idx f).Inv (c.remove f) := by
  unfold tagBitmapRemoveFile
  have htags := h.tags f
  by_cases hlen : f ≥ idx.fileToTags.length
  · rw [if_pos hlen]
    rw [remove_of_past h hlen]
    exact h
  rw [if_neg hlen]
  have hbm : ∀ t : TagId, (clearFileFrom f idx.bitmaps (idx.tagsOf f).ids).getD t.toNat none =
      if t ∈ (idx.tagsOf f).ids then (idx.bitmapOf t).map (TagBitmap.clearFile · f) else idx.bitmapOf t :=
    fun t => clearFileFrom_getD f idx.bitmaps _ htags.nodup t
  refine ⟨?_, ?_, ?_, ?_, h.max_lt⟩
  · intro t' bm' hsome
    simp only [bump, bitmapOf, hbm] at hsome
    by_cases hmem : t' ∈ (idx.tagsOf f).ids
    · rw [if_pos hmem] at hsome
      obtain ⟨bm, hb, rfl⟩ := map_eq_some_iff.mp hsome
      exact clearFile_ok (h.bitmap t' bm hb) f
    rw [if_neg hmem] at hsome
    have hc : c.remove f t' = c t' := by
      funext f'
      by_cases hff : f' = f
      · subst hff
        simp [Carries.remove, Bool.eq_false_iff.mpr (fun hc => hmem ((htags.mem t').mpr hc))]
      · simp [Carries.remove, hff]
    rw [hc]
    exact h.bitmap t' bm' hsome
  · intro t' hnone f'
    simp only [bump, bitmapOf, hbm] at hnone
    have hnone' : idx.bitmapOf t' = none := by
      split at hnone
      · exact map_eq_none_iff.mp hnone
      · exact hnone
    simp [Carries.remove, h.absent t' hnone' f']
  · intro f'
    simp only [bump, tagsOf, getD_set _ _ _ _ _ (not_le.mp hlen)]
    by_cases hff : f' = f
    · rw [if_pos hff]
      exact emptyList_ok fun t => by simp [Carries.remove, hff]
    · rw [if_neg hff]
      have htags' : (idx.fileToTags.getD f' ⟨[], 0⟩).Ok (fun t => c t f') := h.tags f'
      simpa [Carries.remove, hff] using htags'
  · intro t' f' hc
    simp only [Carries.remove, Bool.and_eq_true] at hc
    exact h.le_max t' f' hc.1

end BoxOS.TagFS
