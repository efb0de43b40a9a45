import BoxOS.TagFS.Integrity

/-!
# The cache of the integrity map is one array of hashes

`hashAt` is the array: a page in a slot counts as the slot has it, every other page as the volume has it. `cacheGet` and
`integrityFlush` leave it as it is, whatever I/O fails (`cacheGet_kept`, `flushSlots_kept`).
-/

open Function (update update_of_ne update_self)

namespace BoxOS.TagFS

open List Option IntegrityState

variable {δ : Type} {s t : IntegrityState δ} {k i idx : Nat}

/-! ## Slots -/

theorem slotOf_some {cache : Nat → MapSlot} (h : slotOf cache idx = some k) :
    k < mapCacheSlots ∧ (cache k).mapIdx = some idx :=
  ⟨mem_range.mp (mem_of_find?_eq_some h),
    of_decide_eq_true (find?_some (p := fun k => decide ((cache k).mapIdx = some idx)) h)⟩

theorem slotOf_none {cache : Nat → MapSlot} (h : slotOf cache idx = none) :
    ∀ k, k < mapCacheSlots → (cache k).mapIdx ≠ some idx := by
  intro k hk he
  have := find?_eq_none.mp h k (mem_range.mpr hk)
  exact this (decide_eq_true he)

theorem victimFrom_mem (cache : Nat → MapSlot) (l : List Nat) (v : Nat) :
    victimFrom cache l v = v ∨ victimFrom cache l v ∈ l := by
  induction l generalizing v with
  | nil => exact .inl rfl
  | cons k rest ih =>
    unfold victimFrom
    split
    · exact .inr mem_cons_self
    rcases ih (if (cache k).lru < (cache v).lru then k else v) with h | h
    · rw [h]
      split
      · exact .inr mem_cons_self
      · exact .inl rfl
    · exact .inr (mem_cons_of_mem _ h)

theorem victim_lt (cache : Nat → MapSlot) : victim cache < mapCacheSlots := by
  rcases victimFrom_mem cache (List.range mapCacheSlots) 0 with h | h
  · unfold victim
    rw [h]
    decide
  · exact mem_range.mp h

/-- What the cache and the map blocks hold together. -/
structure CacheOk (s : IntegrityState δ) : Prop where
  unique : ∀ j k i, j < mapCacheSlots → k < mapCacheSlots → (s.cache j).mapIdx = some i →
    (s.cache k).mapIdx = some i → j = k
  clean : ∀ k i, k < mapCacheSlots → (s.cache k).mapIdx = some i → (s.cache k).dirty = false →
    (s.cache k).entries = s.disk (s.mapFirst + i)
  inMap : ∀ k i, k < mapCacheSlots → (s.cache k).mapIdx = some i → i < s.mapCount

namespace IntegrityState

/-- A page of the map. -/
def pageOf (s : IntegrityState δ) (idx : Nat) : Nat → Nat :=
  match slotOf s.cache idx with
  | some k => (s.cache k).entries
  | none => s.disk (s.mapFirst + idx)

end IntegrityState

theorem pageOf_slot (h : CacheOk s) (hk : k < mapCacheSlots) (hi : (s.cache k).mapIdx = some i) :
    s.pageOf i = (s.cache k).entries := by
  unfold IntegrityState.pageOf
  cases hslot : slotOf s.cache i with
  | none => exact absurd hi (slotOf_none hslot k hk)
  | some j =>
    obtain ⟨hj, hij⟩ := slotOf_some hslot
    rw [h.unique j k i hj hk hij hi]

theorem pageOf_disk (h : ∀ k, k < mapCacheSlots → (s.cache k).mapIdx ≠ some i) :
    s.pageOf i = s.disk (s.mapFirst + i) := by
  unfold IntegrityState.pageOf
  cases hslot : slotOf s.cache i with
  | none => rfl
  | some j => exact absurd (slotOf_some hslot).2 (h j (slotOf_some hslot).1)

theorem cached_or_not (s : IntegrityState δ) (i : Nat) :
    (∃ k, k < mapCacheSlots ∧ (s.cache k).mapIdx = some i) ∨ ∀ k, k < mapCacheSlots → (s.cache k).mapIdx ≠ some i := by
  cases h : slotOf s.cache i with
  | none => exact .inr (slotOf_none h)
  | some k => exact .inl ⟨k, slotOf_some h⟩

/-- The pages stay, and all but cache, clock and volume. -/
structure Kept (s t : IntegrityState δ) : Prop where
  page : ∀ i, t.pageOf i = s.pageOf i
  rest : ∃ cache lruTick disk, t = { s with cache := cache, lruTick := lruTick, disk := disk }

theorem Kept.refl (s : IntegrityState δ) : Kept s s := ⟨fun _ => rfl, s.cache, s.lruTick, s.disk, rfl⟩

theorem Kept.trans {u : IntegrityState δ} (h : Kept s t) (h' : Kept t u) : Kept s u := by
  obtain ⟨c, l, d, rfl⟩ := h.rest
  obtain ⟨c', l', d', rfl⟩ := h'.rest
  exact ⟨fun i => (h'.page i).trans (h.page i), c', l', d', rfl⟩

/-! ## What the cache does with a page -/

theorem writeBack_kept (h : CacheOk s) (hk : k < mapCacheSlots) : CacheOk (s.writeBack k) ∧ Kept s (s.writeBack k) := by
  unfold writeBack
  cases hi : (s.cache k).mapIdx with
  | none => exact ⟨h, Kept.refl s⟩
  | some i =>
    have hdisk : ∀ j, j ≠ i → (s.writeBlock (s.mapFirst + i) (s.cache k).entries).disk (s.mapFirst + j) =
        s.disk (s.mapFirst + j) := fun j hj => update_of_ne (by omega) ..
    refine ⟨⟨h.unique, fun j l hj hl hclean => ?_, h.inMap⟩, ⟨fun j => ?_, s.cache, s.lruTick, _, rfl⟩⟩
    · by_cases hjk : l = i
      · have hjk' : j = k := h.unique j k i hj hk (hjk ▸ hl) hi
        rw [hjk, hjk']
        exact (update_self (s.mapFirst + i) (s.cache k).entries s.disk).symm
      · exact (h.clean j l hj hl hclean).trans (hdisk l hjk).symm
    · unfold IntegrityState.pageOf
      cases hslot : slotOf s.cache j with
      | some l => rw [show slotOf (s.writeBlock (s.mapFirst + i) (s.cache k).entries).cache j = some l from hslot]; rfl
      | none =>
        rw [show slotOf (s.writeBlock (s.mapFirst + i) (s.cache k).entries).cache j = none from hslot]
        refine hdisk j fun e => ?_
        exact slotOf_none hslot k hk (e ▸ hi)

/-- Reading a page into a slot whose own page is on the volume. -/
theorem load_kept (h : CacheOk s) (hk : k < mapCacheSlots) (hidx : idx < s.mapCount) (hslot : slotOf s.cache idx = none)
    (hold : ∀ i, (s.cache k).mapIdx = some i → (s.cache k).entries = s.disk (s.mapFirst + i)) :
    CacheOk (s.load k idx) ∧ Kept s (s.load k idx) ∧ ((s.load k idx).cache k).mapIdx = some idx := by
  have hself : (s.load k idx).cache k = ⟨some idx, s.tick, false, s.disk (s.mapFirst + idx)⟩ := update_self ..
  have hother : ∀ j, j ≠ k → (s.load k idx).cache j = s.cache j := fun j hj => update_of_ne hj ..
  have hfree := slotOf_none hslot
  have hok : CacheOk (s.load k idx) := by
    refine ⟨fun j l i hj hl hij hil => ?_, fun j i hj hi hclean => ?_, fun j i hj hi => ?_⟩
    · by_cases hjk : j = k
      · by_cases hlk : l = k
        · rw [hjk, hlk]
        · rw [hjk, hself] at hij
          rw [hother l hlk] at hil
          exact absurd (hil.trans hij.symm) (hfree l hl)
      · rw [hother j hjk] at hij
        by_cases hlk : l = k
        · rw [hlk, hself] at hil
          exact absurd (hij.trans hil.symm) (hfree j hj)
        · rw [hother l hlk] at hil
          exact h.unique j l i hj hl hij hil
    · by_cases hjk : j = k
      · rw [hjk, hself] at hi ⊢
        obtain rfl := some.inj hi
        rfl
      · rw [hother j hjk] at hi hclean ⊢
        exact h.clean j i hj hi hclean
    · by_cases hjk : j = k
      · rw [hjk, hself] at hi
        obtain rfl := some.inj hi
        exact hidx
      · rw [hother j hjk] at hi
        exact h.inMap j i hj hi
  refine ⟨hok, ⟨fun i => ?_, _, _, _, rfl⟩, by rw [hself]⟩
  by_cases hi : i = idx
  · rw [hi, pageOf_slot hok hk (by rw [hself]), hself, pageOf_disk hfree]
  rcases cached_or_not s i with ⟨j, hj, hji⟩ | hno
  · by_cases hjk : j = k
    · -- the page that was in the slot is read from the volume now
      rw [pageOf_slot h hj hji, pageOf_disk fun l hl he => ?_]
      · rw [hjk] at hji ⊢
        exact (hold i hji).symm
      · by_cases hlk : l = k
        · rw [hlk, hself] at he
          exact hi (some.inj he).symm
        · rw [hother l hlk] at he
          exact hlk ((h.unique l j i hl hj he hji).trans hjk)
    · rw [pageOf_slot h hj hji, pageOf_slot hok hj (by rw [hother j hjk]; exact hji), hother j hjk]
  · rw [pageOf_disk hno, pageOf_disk fun l hl he => ?_]
    · rfl
    · by_cases hlk : l = k
      · rw [hlk, hself] at he
        exact hi (some.inj he).symm
      · rw [hother l hlk] at he
        exact hno l hl he

theorem reslot_kept (h : CacheOk s) (cache : Nat → MapSlot) (lruTick : Nat)
    (hslot : ∀ j, (cache j).mapIdx = (s.cache j).mapIdx ∧ (cache j).entries = (s.cache j).entries)
    (hclean : ∀ j i, j < mapCacheSlots → (s.cache j).mapIdx = some i → (cache j).dirty = false →
    (s.cache j).entries = s.disk (s.mapFirst + i)) :
    CacheOk { s with cache := cache, lruTick := lruTick } ∧ Kept s { s with cache := cache, lruTick := lruTick } := by
  have hof : ∀ i, slotOf cache i = slotOf s.cache i := fun i => by
    unfold slotOf
    refine find?_congr fun j _ => ?_
    rw [(hslot j).1]
  refine ⟨⟨fun j l i hj hl hij hil => ?_, fun j i hj hi hc => ?_, fun j i hj hi => ?_⟩, ⟨fun i => ?_, _, _, _, rfl⟩⟩
  · exact h.unique j l i hj hl ((hslot j).1 ▸ hij) ((hslot l).1 ▸ hil)
  · exact (hslot j).2.trans (hclean j i hj ((hslot j).1 ▸ hi) hc)
  · exact h.inMap j i hj ((hslot j).1 ▸ hi)
  · unfold IntegrityState.pageOf
    rw [hof]
    cases slotOf s.cache i with
    | none => rfl
    | some j => exact (hslot j).2

theorem touch_kept (h : CacheOk s) (k lru : Nat) :
    CacheOk { s.setSlot k { s.cache k with lru := lru } with lruTick := lru } ∧
      Kept s { s.setSlot k { s.cache k with lru := lru } with lruTick := lru } := by
  refine reslot_kept h (update s.cache k { s.cache k with lru := lru }) lru (fun j => ?_)
    fun j i hj hi hclean => ?_
  · by_cases hjk : j = k
    · rw [hjk, update_self]
      exact ⟨rfl, rfl⟩
    · rw [update_of_ne hjk]
      exact ⟨rfl, rfl⟩
  · refine h.clean j i hj hi ?_
    by_cases hjk : j = k
    · rw [hjk, update_self] at hclean
      rw [hjk]
      exact hclean
    · rw [update_of_ne hjk] at hclean
      exact hclean

/-- `cache_get` leaves every page as it is, and gives the slot of the page if it gives one. -/
theorem cacheGet_kept (h : CacheOk s) (hidx : idx < s.mapCount) (evictOk readOk : Bool) :
    CacheOk (s.cacheGet idx evictOk readOk).2 ∧ Kept s (s.cacheGet idx evictOk readOk).2 ∧
    (∀ k, (s.cacheGet idx evictOk readOk).1 = some k →
    k < mapCacheSlots ∧ ((s.cacheGet idx evictOk readOk).2.cache k).mapIdx = some idx) ∧
    (evictOk = true → readOk = true → (s.cacheGet idx evictOk readOk).1 ≠ none) := by
  unfold cacheGet
  cases hslot : slotOf s.cache idx with
  | some k =>
    obtain ⟨hk, hi⟩ := slotOf_some hslot
    obtain ⟨hok, hkept⟩ := touch_kept h k s.tick
    refine ⟨hok, hkept, fun j hj => ?_, fun _ _ => by rintro ⟨⟩⟩
    obtain rfl := some.inj hj
    refine ⟨hk, ?_⟩
    change (update s.cache k _ k).mapIdx = _
    rw [update_self]
    exact hi
  | none =>
    have hv := victim_lt s.cache
    dsimp only
    split
    · split
      · obtain ⟨hok, hkept⟩ := writeBack_kept h hv
        obtain ⟨c, l, d, hrest⟩ := hkept.rest
        have hcache : (s.writeBack (victim s.cache)).cache = s.cache := by
          unfold writeBack
          split <;> rfl
        split
        · have hload := load_kept hok hv (by rw [hrest]; exact hidx) (by rw [hcache]; exact hslot) fun i hi => ?_
          · exact ⟨hload.1, hkept.trans hload.2.1, fun j hj => by
              obtain rfl := some.inj hj
              exact ⟨hv, hload.2.2⟩, fun _ _ => by rintro ⟨⟩⟩
          · rw [hcache] at hi ⊢
            unfold writeBack
            rw [hi]
            exact (update_self (s.mapFirst + i) (s.cache (victim s.cache)).entries s.disk).symm
        · rename_i hread
          exact ⟨hok, hkept, fun j hj => (by cases hj), fun _ hr => absurd hr hread⟩
      · rename_i hevict
        exact ⟨h, Kept.refl s, fun j hj => (by cases hj), fun he => absurd he hevict⟩
    · rename_i hvictim
      split
      · have hload := load_kept h hv hidx hslot fun i hi => ?_
        · exact ⟨hload.1, hload.2.1, fun j hj => by
            obtain rfl := some.inj hj
            exact ⟨hv, hload.2.2⟩, fun _ _ => by rintro ⟨⟩⟩
        · refine h.clean _ i hv hi ?_
          rw [not_and, Bool.not_eq_true] at hvictim
          exact hvictim (by rw [hi]; rintro ⟨⟩)
      · rename_i hread
        exact ⟨h, Kept.refl s, fun j hj => (by cases hj), fun _ hr => absurd hr hread⟩

/-! ## A flush -/

/-- The slot is on the volume. -/
def IntegrityState.SlotClean (s : IntegrityState δ) (k : Nat) : Prop :=
  (s.cache k).mapIdx ≠ none → (s.cache k).dirty = false

theorem cleaned_kept (h : CacheOk s)
    (hdisk : ∀ i, (s.cache k).mapIdx = some i → (s.cache k).entries = s.disk (s.mapFirst + i)) :
    CacheOk (s.setSlot k { s.cache k with dirty := false }) ∧
      Kept s (s.setSlot k { s.cache k with dirty := false }) := by
  refine reslot_kept h (update s.cache k { s.cache k with dirty := false }) s.lruTick (fun j => ?_)
    fun j i hj hi hclean => ?_
  · by_cases hjk : j = k
    · rw [hjk, update_self]
      exact ⟨rfl, rfl⟩
    · rw [update_of_ne hjk]
      exact ⟨rfl, rfl⟩
  · by_cases hjk : j = k
    · rw [hjk] at hi ⊢
      exact hdisk i hi
    · rw [update_of_ne hjk] at hclean
      exact h.clean j i hj hi hclean

theorem flushSlots_kept (h : CacheOk s) (writeOk : Nat → Bool) (l : List Nat) (hl : ∀ k ∈ l, k < mapCacheSlots) :
    CacheOk (s.flushSlots writeOk l) ∧ Kept s (s.flushSlots writeOk l) ∧ ((∀ k ∈ l, s.SlotClean k ∨ writeOk k = true) →
    ∀ k, k ∈ l ∨ s.SlotClean k → (s.flushSlots writeOk l).SlotClean k) := by
  induction l generalizing s with
  | nil =>
    refine ⟨h, Kept.refl s, fun _ k hk => ?_⟩
    rcases hk with hk | hk
    · cases hk
    · exact hk
  | cons j rest ih =>
    have hj := hl j mem_cons_self
    have hrest : ∀ k ∈ rest, k < mapCacheSlots := fun k hk => hl k (mem_cons_of_mem _ hk)
    unfold flushSlots
    split
    · rename_i hskip
      obtain ⟨hok, hkept, hclean⟩ := ih h hrest
      refine ⟨hok, hkept, fun hall k hk => hclean (fun k hk => hall k (mem_cons_of_mem _ hk)) k ?_⟩
      rcases hk with hk | hk
      · rcases mem_cons.mp hk with rfl | hk
        · refine .inr fun hsome => ?_
          exact hskip.resolve_left hsome
        · exact .inl hk
      · exact .inr hk
    · rename_i hbusy
      rw [not_or, Bool.not_eq_false] at hbusy
      split
      · obtain ⟨hok, hkept⟩ := writeBack_kept h hj
        have hcache : (s.writeBack j).cache = s.cache := by
          unfold writeBack
          split <;> rfl
        have hdone := cleaned_kept (k := j) hok fun i hi => by
          rw [hcache] at hi ⊢
          unfold writeBack
          rw [hi]
          exact (update_self (s.mapFirst + i) (s.cache j).entries s.disk).symm
        rw [hcache] at hdone
        have hself : ((s.writeBack j).setSlot j { s.cache j with dirty := false }).SlotClean j := fun _ => by
          simp only [setSlot, update_self]
        have hother : ∀ k, k ≠ j → s.SlotClean k →
            ((s.writeBack j).setSlot j { s.cache j with dirty := false }).SlotClean k := fun k hkj hk => by
          unfold IntegrityState.SlotClean at hk ⊢
          simp only [setSlot, update_of_ne hkj, hcache]
          exact hk
        obtain ⟨hok', hkept', hclean'⟩ := ih hdone.1 hrest
        refine ⟨hok', (hkept.trans hdone.2).trans hkept', fun hall k hk => hclean' (fun k hk => ?_) k ?_⟩
        · by_cases hkj : k = j
          · exact .inl (hkj ▸ hself)
          · exact (hall k (mem_cons_of_mem _ hk)).imp_left (hother k hkj)
        · by_cases hkj : k = j
          · exact .inr (hkj ▸ hself)
          · rcases hk with hk | hk
            · exact .inl ((mem_cons.mp hk).resolve_left hkj)
            · exact .inr (hother k hkj hk)
      · rename_i hwrite
        obtain ⟨hok, hkept, -⟩ := ih h hrest
        refine ⟨hok, hkept, fun hall => ?_⟩
        rcases hall j mem_cons_self with hclean | hw
        · exact absurd (hclean hbusy.1) (by rw [hbusy.2]; exact Bool.noConfusion)
        · exact absurd hw hwrite

end BoxOS.TagFS
