import BoxOS.TagFS.IntegrityInv

/-!
# No rot is reported that did not happen

`integrity_map_exact` is about every run whose steps are `Careful`: an update whose page cannot be brought in leaves no
old hash behind, a shutdown writes all its pages, and a fresh map is zeroed. Where an update is dropped because its page
cannot be read, the next verification of healthy data fails (`dropped_update_reports_rot`).
-/

open Function (update update_of_ne update_self)

namespace BoxOS.TagFS

open List Option IntegrityState

variable {δ : Type} {env : IntegrityEnv δ} {s t : IntegrityState δ} {b : Nat}

/-! ## The array of hashes -/

namespace IntegrityState

/-- The hash the map has of a block, zero for none. -/
def hashAt (s : IntegrityState δ) (b : Nat) : Nat :=
  if s.ledger.block ≠ 0 ∧ b / entriesPerBlock < s.ledger.blocks then
    (if s.initialized then s.pageOf (b / entriesPerBlock) else s.disk (s.ledger.block + b / entriesPerBlock))
      (b % entriesPerBlock)
  else 0

end IntegrityState

/-- The map in use is the one the ledger names. -/
structure MapOk (s : IntegrityState δ) : Prop where
  first : s.mapFirst = s.ledger.block
  count : s.mapCount ≤ s.ledger.blocks
  entries : s.mapEntries ≤ s.mapCount * entriesPerBlock
  cache : CacheOk s

/-- The state has a map that it may use. -/
def MapReady (s : IntegrityState δ) : Prop := s.initialized = true → s.ledger.block ≠ 0 ∧ MapOk s

structure IntegrityInv (env : IntegrityEnv δ) (s : IntegrityState δ) : Prop where
  map : MapReady s
  nonempty : s.ledger.block ≠ 0 → s.ledger.blocks ≠ 0
  stored : s.storedLedger.block = 0 ∨ s.storedLedger = s.ledger
  kept : s.ioClean = true → s.storedLedger = s.ledger
  never : ∀ b, s.last b = none → s.hashAt b = 0
  known : ∀ b d, s.last b = some d → s.hashAt b = 0 ∨ s.hashAt b = env.hash d
  exact : s.ioClean = true → ∀ b d, s.recorded b = true → s.last b = some d → s.hashAt b = env.hash d

theorem integrityStart_inv (disk : Nat → Nat → Nat) (cache : Nat → MapSlot) (dataBlocks : Nat) :
    IntegrityInv env (integrityStart disk cache dataBlocks : IntegrityState δ) where
  map h := (nomatch h)
  nonempty h := absurd rfl h
  stored := .inl rfl
  kept _ := rfl
  never _ _ := if_neg fun h => h.1 rfl
  known _ _ h := nomatch h
  exact _ _ _ h := nomatch h

theorem IntegrityInv.ofSame (h : IntegrityInv env s) (hmap : MapReady t)
    (hnonempty : t.ledger.block ≠ 0 → t.ledger.blocks ≠ 0)
    (hstored : t.storedLedger.block = 0 ∨ t.storedLedger = t.ledger)
    (hkept : t.ioClean = true → t.storedLedger = t.ledger) (hclean : t.ioClean = true → s.ioClean = true)
    (hlast : t.last = s.last) (hrecorded : t.recorded = s.recorded) (hhash : ∀ b, t.hashAt b = s.hashAt b) :
    IntegrityInv env t where
  map := hmap
  nonempty := hnonempty
  stored := hstored
  kept := hkept
  never b hb := by
    rw [hhash]
    rw [hlast] at hb
    exact h.never b hb
  known b d hb := by
    rw [hhash]
    rw [hlast] at hb
    exact h.known b d hb
  exact hc b d hr hb := by
    rw [hhash]
    rw [hlast] at hb
    rw [hrecorded] at hr
    exact h.exact (hclean hc) b d hr hb

theorem hashAt_initialized (h : s.initialized = true) (b : Nat) : s.hashAt b = if s.ledger.block ≠ 0 ∧
    b / entriesPerBlock < s.ledger.blocks then s.pageOf (b / entriesPerBlock) (b % entriesPerBlock) else 0 := by
  unfold hashAt
  rw [if_pos h]

theorem hashAt_off (h : s.initialized = false) (b : Nat) :
    s.hashAt b = if s.ledger.block ≠ 0 ∧ b / entriesPerBlock < s.ledger.blocks then
      s.disk (s.ledger.block + b / entriesPerBlock) (b % entriesPerBlock) else 0 := by
  unfold hashAt
  rw [h, if_neg Bool.false_ne_true]

theorem hashAt_noMap (h : s.ledger.block = 0) (b : Nat) : s.hashAt b = 0 :=
  if_neg fun hk => hk.1 h

theorem hashAt_of_disk (h : s.initialized = true) (hpage : ∀ i, s.pageOf i = s.disk (s.ledger.block + i)) (b : Nat) :
    s.hashAt b = if s.ledger.block ≠ 0 ∧ b / entriesPerBlock < s.ledger.blocks then
      s.disk (s.ledger.block + b / entriesPerBlock) (b % entriesPerBlock) else 0 := by
  rw [hashAt_initialized h, hpage]

theorem Kept.hashAt (h : Kept s t) (hinit : s.initialized = true) (b : Nat) : t.hashAt b = s.hashAt b := by
  obtain ⟨c, l, d, ht⟩ := h.rest
  have hledger : t.ledger = s.ledger := by rw [ht]
  have hinit' : t.initialized = true := by rw [ht]; exact hinit
  rw [hashAt_initialized hinit, hashAt_initialized hinit', hledger, h.page]

theorem MapOk.page_lt (h : MapOk s) (hb : s.covers b = true) : b / entriesPerBlock < s.mapCount := by
  unfold covers at hb
  simp only [Bool.and_eq_true, decide_eq_true_eq] at hb
  exact Nat.div_lt_of_lt_mul ((hb.1.2.trans_le h.entries).trans_eq (Nat.mul_comm ..))

theorem initialized_of_covers (hb : s.covers b = true) : s.initialized = true := by
  unfold covers at hb
  simp only [Bool.and_eq_true] at hb
  exact hb.1.1

/-! ## An update -/

theorem writeBlock_hashAt (hmap : s.initialized = true → MapOk s) (hapart : s.ApartFrom b 1) (page : Nat → Nat) :
    (∀ c, (s.writeBlock b page).hashAt c = s.hashAt c) ∧
      (s.initialized = true → s.ledger.block ≠ 0 → CacheOk (s.writeBlock b page)) := by
  have hdisk : ∀ i, s.ledger.block ≠ 0 → i < s.ledger.blocks →
      (s.writeBlock b page).disk (s.ledger.block + i) = s.disk (s.ledger.block + i) := fun i h0 hi => by
    refine update_of_ne ?_ ..
    rcases hapart with h | h | h
    · exact absurd h h0
    · omega
    · omega
  refine ⟨fun c => ?_, fun hinit h0 => ?_⟩
  · by_cases hc : s.ledger.block ≠ 0 ∧ c / entriesPerBlock < s.ledger.blocks
    · have hd := hdisk _ hc.1 hc.2
      cases hinit : s.initialized with
      | true =>
        rw [hashAt_initialized hinit, if_pos hc]
        refine (hashAt_initialized (s := s.writeBlock b page) hinit c).trans ((if_pos hc).trans (congrFun ?_ _))
        unfold IntegrityState.pageOf
        cases hslot : slotOf s.cache (c / entriesPerBlock) with
        | some k =>
          rw [show slotOf (s.writeBlock b page).cache (c / entriesPerBlock) = some k from hslot]
          rfl
        | none =>
          rw [show slotOf (s.writeBlock b page).cache (c / entriesPerBlock) = none from hslot]
          rw [← (hmap hinit).first] at hd
          exact hd
      | false =>
        rw [hashAt_off hinit, if_pos hc]
        exact (hashAt_off (s := s.writeBlock b page) hinit c).trans ((if_pos hc).trans (congrFun hd _))
    · exact (if_neg hc).trans (if_neg hc).symm
  · have hs := hmap hinit
    refine ⟨hs.cache.unique, fun k i hk hi hclean => ?_, hs.cache.inMap⟩
    have hd := hdisk i h0 ((hs.cache.inMap k i hk hi).trans_le hs.count)
    rw [← hs.first] at hd
    exact (hs.cache.clean k i hk hi hclean).trans hd.symm

theorem writeData_hashAt (hmap : s.initialized = true → MapOk s) (hapart : s.inMapRegion b = true ∨ s.ApartFrom b 1)
    (page : Nat → Nat) : (∀ c, (s.writeData b page).hashAt c = s.hashAt c) ∧
      (s.initialized = true → s.ledger.block ≠ 0 → CacheOk (s.writeData b page)) := by
  unfold IntegrityState.writeData
  split
  · exact ⟨fun c => rfl, fun hinit _ => (hmap hinit).cache⟩
  · rename_i hin
    exact writeBlock_hashAt hmap (hapart.resolve_left hin) page

theorem setEntry_ok (h : CacheOk s) {k i : Nat} (off v : Nat) (hk : k < mapCacheSlots)
    (hi : (s.cache k).mapIdx = some i) :
    CacheOk (s.setSlot k { s.cache k with entries := update (s.cache k).entries off v, dirty := true }) ∧
    ∀ j, (s.setSlot k { s.cache k with
      entries := update (s.cache k).entries off v, dirty := true }).pageOf j =
        if j = i then update (s.pageOf i) off v else s.pageOf j := by
  obtain ⟨t, ht⟩ : ∃ t, t = s.setSlot k { s.cache k with
    entries := update (s.cache k).entries off v, dirty := true } := ⟨_, rfl⟩
  rw [← ht]
  have hself : t.cache k = { s.cache k with entries := update (s.cache k).entries off v, dirty := true } := by
    rw [ht]
    exact update_self ..
  have hother : ∀ j, j ≠ k → t.cache j = s.cache j := fun j hj => by
    rw [ht]
    exact update_of_ne hj ..
  have hidx : ∀ j, (t.cache j).mapIdx = (s.cache j).mapIdx := fun j => by
    by_cases hj : j = k
    · rw [hj, hself]
    · rw [hother j hj]
  have hok : CacheOk t := by
    refine ⟨fun j l c hj hl hij hil => ?_, fun j c hj hc hclean => ?_, fun j c hj hc => ?_⟩
    · exact h.unique j l c hj hl (hidx j ▸ hij) (hidx l ▸ hil)
    · by_cases hjk : j = k
      · rw [hjk, hself] at hclean
        cases hclean
      · rw [hother j hjk] at hc hclean ⊢
        rw [ht]
        exact h.clean j c hj hc hclean
    · rw [ht]
      exact h.inMap j c hj (hidx j ▸ hc)
  refine ⟨hok, fun j => ?_⟩
  by_cases hj : j = i
  · rw [if_pos hj, hj, pageOf_slot hok hk ((hidx k).trans hi), hself, pageOf_slot h hk hi]
  rw [if_neg hj]
  rcases cached_or_not s j with ⟨l, hl, hlj⟩ | hno
  · have hlk : l ≠ k := fun e => hj (some.inj ((e ▸ hlj).symm.trans hi))
    rw [pageOf_slot h hl hlj, pageOf_slot hok hl ((hidx l).trans hlj), hother l hlk]
  · rw [pageOf_disk hno, pageOf_disk fun l hl he => hno l hl ((hidx l).symm.trans he), ht]
    rfl

/-- Only the cache, its clock, the volume and the error log may differ. -/
def SameMap (s t : IntegrityState δ) : Prop :=
  ∃ cache lruTick disk errors rotRing,
    t = { s with cache := cache, lruTick := lruTick, disk := disk, errors := errors, rotRing := rotRing }

theorem Kept.sameMap (h : Kept s t) : SameMap s t := by
  obtain ⟨c, l, d, rfl⟩ := h.rest
  exact ⟨c, l, d, s.errors, s.rotRing, rfl⟩

theorem SameMap.refl (s : IntegrityState δ) : SameMap s s := (Kept.refl s).sameMap

theorem SameMap.trans {u : IntegrityState δ} (h : SameMap s t) (h' : SameMap t u) : SameMap s u := by
  obtain ⟨c, l, d, e, r, rfl⟩ := h
  obtain ⟨c', l', d', e', r', rfl⟩ := h'
  exact ⟨c', l', d', e', r', rfl⟩

theorem SameMap.initialized (h : SameMap s t) : t.initialized = s.initialized := by
  obtain ⟨c, l, d, e, r, rfl⟩ := h
  rfl

theorem SameMap.ledger (h : SameMap s t) : t.ledger = s.ledger := by
  obtain ⟨c, l, d, e, r, rfl⟩ := h
  rfl

theorem SameMap.storedLedger (h : SameMap s t) : t.storedLedger = s.storedLedger := by
  obtain ⟨c, l, d, e, r, rfl⟩ := h
  rfl

theorem MapOk.ofSame (h : MapOk s) (hsame : SameMap s t) (hcache : CacheOk t) : MapOk t := by
  obtain ⟨c, l, d, e, r, rfl⟩ := hsame
  exact ⟨h.first, h.count, h.entries, hcache⟩

theorem MapOk.withGhosts (h : MapOk s) (last : Nat → Option δ) (recorded : Nat → Bool) (ioClean : Bool) :
    MapOk { s with last := last, recorded := recorded, ioClean := ioClean } :=
  ⟨h.first, h.count, h.entries, ⟨h.cache.unique, h.cache.clean, h.cache.inMap⟩⟩

theorem MapReady.ofSame (h : MapReady s) (hsame : SameMap s t) (hcache : s.initialized = true → CacheOk t) :
    MapReady t := by
  intro hinit
  have hinit' : s.initialized = true := hsame.initialized.symm.trans hinit
  exact ⟨hsame.ledger ▸ (h hinit').1, (h hinit').2.ofSame hsame (hcache hinit')⟩

namespace IntegrityState

/-- `cache_get` finds the page or can bring it in. -/
def pageComes (s : IntegrityState δ) (idx : Nat) (evictOk readOk : Bool) : Bool :=
  (slotOf s.cache idx).isSome ||
    readOk && (evictOk || decide ((s.cache (victim s.cache)).mapIdx = none) || !(s.cache (victim s.cache)).dirty)

end IntegrityState

theorem cacheGet_isSome (s : IntegrityState δ) (idx : Nat) (evictOk readOk : Bool) :
    (s.cacheGet idx evictOk readOk).1.isSome = s.pageComes idx evictOk readOk := by
  unfold cacheGet pageComes
  cases slotOf s.cache idx with
  | some k => rfl
  | none =>
    dsimp only
    split
    · rename_i hvictim
      cases evictOk <;> cases readOk <;> simp [hvictim.1, hvictim.2]
    · rename_i hvictim
      rw [not_and_or, not_not, Bool.not_eq_true] at hvictim
      rcases hvictim with h | h <;> cases evictOk <;> cases readOk <;> simp [h]

/-- An update sets the entry of its block or leaves the map as it is. -/
structure Updated (s t : IntegrityState δ) (b h : Nat) (comes : Bool) : Prop where
  ready : MapReady t
  same : SameMap s t
  others : ∀ c, c ≠ b → t.hashAt c = s.hashAt c
  entry : t.hashAt b = s.hashAt b ∨ t.hashAt b = h
  sure : s.covers b = true → comes = true → t.hashAt b = h

theorem integrityUpdate_updated (hs : MapReady s) (b h : Nat) (evictOk readOk : Bool) :
    Updated s (s.integrityUpdate b h evictOk readOk) b h (s.pageComes (b / entriesPerBlock) evictOk readOk) := by
  unfold integrityUpdate
  split
  · rename_i hb
    have hinit := initialized_of_covers hb
    obtain ⟨hblock, hmap⟩ := hs hinit
    have hpage := hmap.page_lt hb
    obtain ⟨hok, hkept, hslot, -⟩ := cacheGet_kept hmap.cache hpage evictOk readOk
    rw [← cacheGet_isSome]
    obtain ⟨⟨o, t⟩, hget⟩ : ∃ p, p = s.cacheGet (b / entriesPerBlock) evictOk readOk := ⟨_, rfl⟩
    rw [← hget] at hok hkept hslot ⊢
    have hready : MapReady t := hs.ofSame hkept.sameMap fun _ => hok
    cases o with
    | none =>
      exact ⟨hready, hkept.sameMap, fun c _ => hkept.hashAt hinit c, .inl (hkept.hashAt hinit b),
        fun _ hn => (nomatch hn)⟩
    | some k =>
      obtain ⟨hk, hidx⟩ := hslot k rfl
      have hhash : t.hashAt b = t.pageOf (b / entriesPerBlock) (b % entriesPerBlock) := by
        rw [hkept.hashAt hinit, hashAt_initialized hinit, if_pos ⟨hblock, hpage.trans_le hmap.count⟩, hkept.page]
      dsimp only at hidx ⊢
      split
      · have hset := setEntry_ok hok (b % entriesPerBlock) h hk hidx
        obtain ⟨u, hu⟩ : ∃ u, u = t.setSlot k { t.cache k with
          entries := update (t.cache k).entries (b % entriesPerBlock) h, dirty := true } := ⟨_, rfl⟩
        rw [← hu] at hset ⊢
        have hsame : SameMap t u := ⟨_, t.lruTick, t.disk, t.errors, t.rotRing, hu⟩
        have hinit' : t.initialized = true := hkept.sameMap.initialized.trans hinit
        have hin : t.ledger.block ≠ 0 ∧ b / entriesPerBlock < t.ledger.blocks := by
          rw [hkept.sameMap.ledger]
          exact ⟨hblock, hpage.trans_le hmap.count⟩
        have hentry : u.hashAt b = h := by
          rw [hashAt_initialized (hsame.initialized.trans hinit'), hsame.ledger, if_pos hin, hset.2, if_pos rfl,
            update_self]
        refine ⟨hready.ofSame hsame fun _ => hset.1, hkept.sameMap.trans hsame, fun c hc => ?_, .inr hentry,
          fun _ _ => hentry⟩
        rw [← hkept.hashAt hinit c, hashAt_initialized (hsame.initialized.trans hinit'), hashAt_initialized hinit',
          hsame.ledger, hset.2]
        by_cases hp : c / entriesPerBlock = b / entriesPerBlock
        · have hoff : c % entriesPerBlock ≠ b % entriesPerBlock := fun e =>
            hc ((Nat.div_add_mod c entriesPerBlock).symm.trans
              ((congrArg₂ (entriesPerBlock * · + ·) hp e).trans (Nat.div_add_mod b entriesPerBlock)))
          rw [if_pos hp, update_of_ne hoff, hp]
        · rw [if_neg hp]
      · rename_i heq
        rw [not_not] at heq
        have hb' : t.hashAt b = h := by
          rw [hhash, pageOf_slot hok hk hidx]
          exact heq
        exact ⟨hready, hkept.sameMap, fun c _ => hkept.hashAt hinit c, .inl (hkept.hashAt hinit b), fun _ _ => hb'⟩
  · rename_i hb
    exact ⟨hs, SameMap.refl s, fun c _ => rfl, .inl rfl, fun hc => absurd hc hb⟩

/-! ## A verification -/

/-- A verification leaves the hashes as they are, and finds rot where it reads another hash than zero and the given one.
-/
structure Verified (s t : IntegrityState δ) (ok : Bool) (b h : Nat) (comes : Bool) : Prop where
  ready : MapReady t
  same : SameMap s t
  hashes : ∀ c, t.hashAt c = s.hashAt c
  rot : ok = false → s.hashAt b ≠ 0 ∧ s.hashAt b ≠ h
  sure : s.covers b = true → comes = true → s.hashAt b ≠ 0 → s.hashAt b ≠ h → ok = false

theorem integrityVerify_verified (hs : MapReady s) (b h : Nat) (evictOk readOk : Bool) :
    Verified s (s.integrityVerify b h evictOk readOk).2 (s.integrityVerify b h evictOk readOk).1 b h
      (s.pageComes (b / entriesPerBlock) evictOk readOk) := by
  unfold integrityVerify
  split
  · rename_i hb
    have hinit := initialized_of_covers hb
    obtain ⟨hblock, hmap⟩ := hs hinit
    have hpage := hmap.page_lt hb
    obtain ⟨hok, hkept, hslot, -⟩ := cacheGet_kept hmap.cache hpage evictOk readOk
    rw [← cacheGet_isSome]
    obtain ⟨⟨o, t⟩, hget⟩ : ∃ p, p = s.cacheGet (b / entriesPerBlock) evictOk readOk := ⟨_, rfl⟩
    rw [← hget] at hok hkept hslot ⊢
    have hready : MapReady t := hs.ofSame hkept.sameMap fun _ => hok
    cases o with
    | none =>
      exact ⟨hready, hkept.sameMap, hkept.hashAt hinit, nofun, fun _ hn => (nomatch hn)⟩
    | some k =>
      obtain ⟨hk, hidx⟩ := hslot k rfl
      have hhash : s.hashAt b = (t.cache k).entries (b % entriesPerBlock) := by
        rw [hashAt_initialized hinit, if_pos ⟨hblock, hpage.trans_le hmap.count⟩, ← hkept.page,
          pageOf_slot hok hk hidx]
      dsimp only
      rw [← hhash]
      split
      · rename_i hzero
        exact ⟨hready, hkept.sameMap, hkept.hashAt hinit, nofun, fun _ _ h0 => absurd hzero h0⟩
      rename_i hzero
      split
      · rename_i heq
        exact ⟨hready, hkept.sameMap, hkept.hashAt hinit, nofun, fun _ _ _ h1 => absurd heq.symm h1⟩
      rename_i heq
      obtain ⟨u, hu⟩ : ∃ u, u = { t with
        errors := (t.errors + 1) % 2 ^ 32
        rotRing := if t.rotRing.length < rotRingMax then t.rotRing ++ [b] else t.rotRing } := ⟨_, rfl⟩
      have hsame : SameMap t u := ⟨t.cache, t.lruTick, t.disk, _, _, hu⟩
      refine ⟨?_, ?_, fun c => ?_, fun _ => ⟨hzero, fun e => heq e.symm⟩, fun _ _ _ _ => rfl⟩
      · change MapReady { t with
          errors := (t.errors + 1) % 2 ^ 32
          rotRing := if t.rotRing.length < rotRingMax then t.rotRing ++ [b] else t.rotRing }
        rw [← hu]
        refine hready.ofSame hsame fun _ => ?_
        rw [hu]
        exact ⟨hok.unique, hok.clean, hok.inMap⟩
      · refine hkept.sameMap.trans ?_
        rw [hu] at hsame
        exact hsame
      · exact hkept.hashAt hinit c
  · rename_i hb
    exact ⟨hs, SameMap.refl s, fun c => rfl, nofun, fun hc => absurd hc hb⟩

/-! ## Flush and shutdown -/

theorem integrityFlush_kept (hs : MapReady s) (writeOk : Nat → Bool) : MapReady (s.integrityFlush writeOk) ∧
    SameMap s (s.integrityFlush writeOk) ∧ ∀ c, (s.integrityFlush writeOk).hashAt c = s.hashAt c := by
  unfold integrityFlush
  split
  · rename_i hinit
    obtain ⟨hok, hkept, -⟩ := flushSlots_kept (hs hinit).2.cache writeOk (List.range mapCacheSlots)
      fun k hk => mem_range.mp hk
    exact ⟨hs.ofSame hkept.sameMap fun _ => hok, hkept.sameMap, hkept.hashAt hinit⟩
  · exact ⟨hs, SameMap.refl s, fun c => rfl⟩

namespace IntegrityState

/-- The writes of all dirty slots succeed. -/
def writesDirty (s : IntegrityState δ) (writeOk : Nat → Bool) : Bool :=
  (List.range mapCacheSlots).all fun k => decide ((s.cache k).mapIdx = none) || !(s.cache k).dirty || writeOk k

end IntegrityState

theorem integrityShutdown_hashAt (hs : MapReady s) (writeOk : Nat → Bool) (hw : s.writesDirty writeOk = true)
    (b : Nat) : (s.integrityShutdown writeOk).hashAt b = s.hashAt b := by
  unfold integrityShutdown
  split
  · rename_i hinit
    obtain ⟨hok, hkept, hclean⟩ := flushSlots_kept (hs hinit).2.cache writeOk (List.range mapCacheSlots)
      fun k hk => mem_range.mp hk
    have hflush : s.integrityFlush writeOk = s.flushSlots writeOk (List.range mapCacheSlots) := if_pos hinit
    rw [hflush]
    obtain ⟨t, ht⟩ : ∃ t, t = s.flushSlots writeOk (List.range mapCacheSlots) := ⟨_, rfl⟩
    rw [← ht] at hok hkept hclean ⊢
    have hall : ∀ k ∈ List.range mapCacheSlots, s.SlotClean k ∨ writeOk k = true := fun k hk => by
      have hk' := List.all_eq_true.mp hw k hk
      simp only [Bool.or_eq_true, decide_eq_true_eq, Bool.not_eq_true'] at hk'
      rcases hk' with (hk' | hk') | hk'
      · exact .inl fun hsome => absurd hk' hsome
      · exact .inl fun _ => hk'
      · exact .inr hk'
    have hmap := (hs.ofSame hkept.sameMap fun _ => hok) (hkept.sameMap.initialized.trans hinit)
    have hdisk : ∀ i, t.pageOf i = t.disk (t.ledger.block + i) := fun i => by
      rcases cached_or_not t i with ⟨k, hk, hki⟩ | hno
      · have hc := hclean hall k (.inl (mem_range.mpr hk)) (by rw [hki]; nofun)
        rw [pageOf_slot hok hk hki, hok.clean k i hk hki hc, hmap.2.first]
      · rw [pageOf_disk hno, hmap.2.first]
    rw [← hkept.hashAt hinit, hashAt_of_disk (hkept.sameMap.initialized.trans hinit) hdisk]
    exact hashAt_off rfl b
  · rfl

/-! ## Laying down and moving a map -/

variable (io : InitIo)

theorem zeroLoop_other (start x : Nat) (l : List Nat) (hx : ∀ i ∈ l, x ≠ start + i)
    (disk : Nat → Nat → Nat) : zeroLoop io start l disk x = disk x := by
  induction l generalizing disk with
  | nil => rfl
  | cons j rest ih =>
    unfold zeroLoop
    rw [ih fun i hi => hx i (mem_cons_of_mem _ hi)]
    split
    · exact update_of_ne (hx j mem_cons_self) ..
    · rfl

theorem zeroLoop_zero (start i : Nat) (l : List Nat) (hall : ∀ i ∈ l, io.zeroOk i = true) (hi : i ∈ l)
    (disk : Nat → Nat → Nat) : zeroLoop io start l disk (start + i) = fun _ => 0 := by
  induction l generalizing disk with
  | nil => cases hi
  | cons j rest ih =>
    unfold zeroLoop
    rw [if_pos (hall j mem_cons_self)]
    by_cases hrest : i ∈ rest
    · exact ih (fun i hi => hall i (mem_cons_of_mem _ hi)) hrest _
    · obtain rfl : i = j := (mem_cons.mp hi).resolve_right hrest
      rw [zeroLoop_other io start (start + i) rest fun k hk e => hrest (Nat.add_left_cancel e ▸ hk)]
      exact update_self ..

theorem moveLoop_other (first start stored x : Nat) (l : List Nat) (hx : ∀ i ∈ l, x ≠ start + i)
    (disk : Nat → Nat → Nat) : (moveLoop io first start stored l disk).2 x = disk x := by
  induction l generalizing disk with
  | nil => rfl
  | cons j rest ih =>
    unfold moveLoop
    split
    · rfl
    split
    · rw [ih fun i hi => hx i (mem_cons_of_mem _ hi)]
      exact update_of_ne (hx j mem_cons_self) ..
    · rfl

theorem moveLoop_moved (first start stored i : Nat) (l : List Nat)
    (hapart : ∀ i ∈ l, ∀ j, j < stored → start + i ≠ first + j) (hi : i ∈ l) (disk : Nat → Nat → Nat)
    (hmoved : (moveLoop io first start stored l disk).1 = true) :
    (moveLoop io first start stored l disk).2 (start + i) = if i < stored then disk (first + i) else fun _ => 0 := by
  induction l generalizing disk with
  | nil => cases hi
  | cons j rest ih =>
    unfold moveLoop at hmoved ⊢
    split at hmoved
    · cases hmoved
    rename_i hread
    split at hmoved
    · rename_i hwrite
      rw [if_neg hread, if_pos hwrite]
      by_cases hrest : i ∈ rest
      · rw [ih (fun i hi => hapart i (mem_cons_of_mem _ hi)) hrest _ hmoved]
        split
        · rename_i hst
          exact update_of_ne (hapart j mem_cons_self i hst).symm ..
        · rfl
      · obtain rfl : i = j := (mem_cons.mp hi).resolve_right hrest
        rw [moveLoop_other io first start stored (start + i) rest fun k hk e => hrest (Nat.add_left_cancel e ▸ hk)]
        exact update_self ..
    · cases hmoved

theorem emptyCache_ok (h : ∀ k, (s.cache k).mapIdx = none) : CacheOk s :=
  ⟨fun j _ _ _ _ hj => (nomatch (h j).symm.trans hj), fun k _ _ hk => (nomatch (h k).symm.trans hk),
    fun k _ _ hk => (nomatch (h k).symm.trans hk)⟩

theorem hashAt_empty (h : ∀ k, (s.cache k).mapIdx = none) (hfirst : s.mapFirst = s.ledger.block) (b : Nat) :
    s.hashAt b = if s.ledger.block ≠ 0 ∧ b / entriesPerBlock < s.ledger.blocks then
      s.disk (s.ledger.block + b / entriesPerBlock) (b % entriesPerBlock) else 0 := by
  cases hinit : s.initialized with
  | false => exact hashAt_off hinit b
  | true =>
    refine hashAt_of_disk hinit (fun i => ?_) b
    rw [pageOf_disk fun k _ hk => (nomatch (h k).symm.trans hk), hfirst]

theorem startMap_pages (hsize : s.dataBlocks + (entriesPerBlock - 1) < 2 ^ 32) :
    s.dataBlocks ≤ s.startMap.mapCount * entriesPerBlock ∧ (s.dataBlocks ≠ 0 → s.startMap.mapCount ≠ 0) := by
  have hcount : s.startMap.mapCount = (s.dataBlocks + (entriesPerBlock - 1)) / entriesPerBlock :=
    congrArg (· / entriesPerBlock) (Nat.mod_eq_of_lt hsize)
  rw [hcount]
  unfold entriesPerBlock
  omega

/-- What `IntegrityInit` leaves: a map with the hashes there were. -/
structure InitDone (s t : IntegrityState δ) (ledgerOk : Bool) : Prop where
  ready : MapReady t
  nonempty : t.ledger.block ≠ 0 → t.ledger.blocks ≠ 0
  stored : t.storedLedger.block = 0 ∨ t.storedLedger = t.ledger
  kept : ledgerOk = true → s.storedLedger = s.ledger → t.storedLedger = t.ledger
  hashes : ∀ b, t.hashAt b = s.hashAt b
  ghosts : t.last = s.last ∧ t.recorded = s.recorded

theorem takeOver_done (h : IntegrityInv env s) (hoff : s.initialized = false) (hblock : s.ledger.block ≠ 0)
    (ledgerOk : Bool) (hempty : ∀ k, (t.cache k).mapIdx = none) (hfirst : t.mapFirst = s.ledger.block)
    (hledger : t.ledger = s.ledger) (hstored : t.storedLedger = s.storedLedger) (hcount : t.mapCount ≤ s.ledger.blocks)
    (hentries : t.mapEntries ≤ t.mapCount * entriesPerBlock)
    (hdisk : ∀ i, i < s.ledger.blocks → t.disk (s.ledger.block + i) = s.disk (s.ledger.block + i))
    (hlast : t.last = s.last) (hrecorded : t.recorded = s.recorded) : InitDone s t ledgerOk where
  ready _ := by
    refine ⟨hledger ▸ hblock, hfirst.trans (congrArg _ hledger.symm), ?_, hentries, emptyCache_ok hempty⟩
    rw [hledger]
    exact hcount
  nonempty _ := hledger ▸ h.nonempty hblock
  stored := by
    rw [hstored, hledger]
    exact h.stored
  kept _ he := by
    rw [hstored, hledger]
    exact he
  hashes b := by
    rw [hashAt_empty hempty (hfirst.trans (congrArg _ hledger.symm)), hashAt_off hoff, hledger]
    split
    · rename_i hin
      rw [hdisk _ hin.2]
    · rfl
  ghosts := ⟨hlast, hrecorded⟩

theorem growMap_done (h : IntegrityInv env s) (hoff : s.initialized = false) (hblock : s.ledger.block ≠ 0) (io : InitIo)
    (halloc : ∀ start ∈ io.alloc, start ≠ 0 ∧ s.ApartFrom start s.mapCount) (hempty : ∀ k, (s.cache k).mapIdx = none)
    (hfirst : s.mapFirst = s.ledger.block) (hsmall : s.ledger.blocks < s.mapCount)
    (hentries : s.mapEntries ≤ s.mapCount * entriesPerBlock) : InitDone s (s.growMap io) io.ledgerOk := by
  unfold growMap
  split
  · exact takeOver_done h hoff hblock _ hempty hfirst rfl rfl le_rfl le_rfl (fun _ _ => rfl) rfl rfl
  rename_i start hstart
  have hstart' : io.alloc = some start := by
    split at hstart
    · exact hstart
    · cases hstart
  obtain ⟨h0, hapart⟩ := halloc start hstart'
  have hne : ∀ i ∈ List.range s.mapCount, ∀ j, j < s.ledger.blocks → start + i ≠ s.ledger.block + j :=
    fun i hi j hj => by
      have := mem_range.mp hi
      rcases hapart with he | he | he
      · exact absurd he hblock
      · omega
      · omega
  have hkeep := fun i hi => moveLoop_other io s.ledger.block start s.ledger.blocks (s.ledger.block + i)
    (List.range s.mapCount) (fun j hj e => hne j hj i hi e.symm) s.disk
  have hmove := fun i hi => moveLoop_moved io s.ledger.block start s.ledger.blocks i (List.range s.mapCount) hne
    (mem_range.mpr hi) s.disk
  obtain ⟨⟨moved, disk⟩, hloop⟩ : ∃ p, p = moveLoop io s.ledger.block start s.ledger.blocks
    (List.range s.mapCount) s.disk := ⟨_, rfl⟩
  rw [← hloop] at hkeep hmove ⊢
  dsimp only at hkeep hmove ⊢
  split
  · rename_i hdone
    refine ⟨fun _ => ⟨h0, rfl, le_rfl, hentries, emptyCache_ok hempty⟩,
      fun _ => Nat.ne_of_gt (Nat.zero_lt_of_lt hsmall), .inr rfl, fun _ _ => rfl, fun b => ?_, rfl, rfl⟩
    rw [hashAt_off hoff]
    refine (hashAt_empty (s := { s with
      disk := disk, initialized := true, mapFirst := start, ledger := ⟨start, s.mapCount⟩
      storedLedger := ⟨start, s.mapCount⟩ }) hempty rfl b).trans ?_
    dsimp only
    by_cases hb : b / entriesPerBlock < s.mapCount
    · rw [if_pos ⟨h0, hb⟩, hmove _ hb hdone.1]
      by_cases hold : b / entriesPerBlock < s.ledger.blocks
      · rw [if_pos hold, if_pos ⟨hblock, hold⟩]
      · rw [if_neg hold, if_neg fun hc => hold hc.2]
    · rw [if_neg fun hc => hb hc.2, if_neg fun hc => hb (hc.2.trans hsmall)]
  · exact takeOver_done h hoff hblock _ hempty hfirst rfl rfl le_rfl le_rfl hkeep rfl rfl

theorem fresh_done (h : IntegrityInv env s) (hblock : s.ledger.block = 0) (io : InitIo) {start count : Nat}
    (h0 : start ≠ 0) (hcount : count ≠ 0) (hzero : ∀ i, i < count → io.zeroOk i = true) {u : IntegrityState δ}
    (hempty : ∀ k, (u.cache k).mapIdx = none) (hfirst : u.mapFirst = start) (hpages : u.mapCount = count)
    (hentries : u.mapEntries ≤ count * entriesPerBlock) (hledger : u.ledger = ⟨start, count⟩)
    (hstored : u.storedLedger = s.storedLedger) (hdisk : u.disk = zeroLoop io start (List.range count) s.disk)
    (hghosts : u.last = s.last ∧ u.recorded = s.recorded) :
    InitDone s { u.writeLedger io.ledgerOk with initialized := true } io.ledgerOk := by
  have hold : s.storedLedger.block = 0 := by
    rcases h.stored with hz | he
    · exact hz
    · rw [he]
      exact hblock
  have hhash : ∀ t : IntegrityState δ, t.cache = u.cache → t.ledger = u.ledger → t.disk = u.disk →
      t.mapFirst = u.mapFirst → ∀ b, t.hashAt b = s.hashAt b := fun t hc hl hd hf b => by
    rw [hashAt_noMap hblock, hashAt_empty (hc ▸ hempty) (by rw [hf, hl, hledger, hfirst]), hl, hledger, hd, hdisk]
    split
    · rename_i hin
      rw [zeroLoop_zero io start _ _ (fun i hi => hzero i (mem_range.mp hi)) (mem_range.mpr hin.2)]
    · rfl
  have hready : ∀ t : IntegrityState δ, t.cache = u.cache → t.ledger = u.ledger → t.mapFirst = u.mapFirst →
      t.mapCount = u.mapCount → t.mapEntries = u.mapEntries → t.ledger.block ≠ 0 ∧ MapOk t :=
    fun t hc hl hf hn he => by
      refine ⟨by rw [hl, hledger]; exact h0, by rw [hf, hl, hledger, hfirst], ?_, ?_, emptyCache_ok (hc ▸ hempty)⟩
      · rw [hn, hl, hledger, hpages]
      · rw [hn, he, hpages]
        exact hentries
  unfold writeLedger
  cases io.ledgerOk with
  | true =>
    exact ⟨fun _ => hready _ rfl rfl rfl rfl rfl, fun _ => by rw [hledger]; exact hcount, .inr rfl, fun _ _ => rfl,
      hhash _ rfl rfl rfl rfl, hghosts⟩
  | false =>
    exact ⟨fun _ => hready _ rfl rfl rfl rfl rfl, fun _ => by
      change u.ledger.blocks ≠ 0
      rw [hledger]
      exact hcount, .inl (by
      change u.storedLedger.block = 0
      rw [hstored]
      exact hold), nofun, hhash _ rfl rfl rfl rfl, hghosts⟩

theorem InitDone.ofHashes {u : IntegrityState δ} {ledgerOk : Bool} (h : InitDone u t ledgerOk)
    (hhash : ∀ b, u.hashAt b = s.hashAt b) (hledger : u.ledger = s.ledger) (hstored : u.storedLedger = s.storedLedger)
    (hghosts : u.last = s.last ∧ u.recorded = s.recorded) : InitDone s t ledgerOk where
  ready := h.ready
  nonempty := h.nonempty
  stored := h.stored
  kept hl he := h.kept hl ((hstored.trans he).trans hledger.symm)
  hashes b := (h.hashes b).trans (hhash b)
  ghosts := ⟨h.ghosts.1.trans hghosts.1, h.ghosts.2.trans hghosts.2⟩

theorem integrityInit_done (h : IntegrityInv env s) (io : InitIo)
    (halloc : ∀ start ∈ io.alloc, start ≠ 0 ∧ s.ApartFrom start s.startMap.mapCount)
    (hsize : s.dataBlocks + (entriesPerBlock - 1) < 2 ^ 32)
    (hzero : s.ledger.block = 0 → io.alloc ≠ none → ∀ i, i < s.startMap.mapCount → io.zeroOk i = true) :
    InitDone s (s.integrityInit io).2 io.ledgerOk := by
  have hsame : InitDone s s io.ledgerOk :=
    ⟨h.map, h.nonempty, h.stored, fun _ he => he, fun _ => rfl, rfl, rfl⟩
  obtain ⟨hpages, hcount⟩ := startMap_pages hsize
  unfold integrityInit
  split
  · exact hsame
  rename_i hoff
  rw [Bool.not_eq_true] at hoff
  split
  · exact hsame
  rename_i hblocks
  dsimp only
  split
  · rename_i hblock
    cases hstart : io.alloc with
    | none =>
      refine ⟨fun hinit => ?_, h.nonempty, h.stored, fun _ he => he, fun b => ?_, rfl, rfl⟩
      · exact absurd hinit (by rw [show s.startMap.initialized = false from hoff]; exact Bool.false_ne_true)
      · exact (hashAt_off (s := s.startMap) hoff b).trans (hashAt_off hoff b).symm
    | some start =>
      refine fresh_done h hblock io (halloc start hstart).1 (hcount hblocks) (hzero hblock ?_) (fun _ => rfl) rfl rfl
        hpages rfl rfl rfl ⟨rfl, rfl⟩
      rw [hstart]
      nofun
  · rename_i hblock
    split
    · rename_i hsmall
      obtain ⟨u, hu⟩ : ∃ u, u = { s.startMap with mapFirst := s.startMap.ledger.block } := ⟨_, rfl⟩
      rw [← hu]
      have hhash : ∀ b, u.hashAt b = s.hashAt b := fun b => by
        rw [hashAt_off hoff, hu]
        exact hashAt_off (s := { s.startMap with mapFirst := s.startMap.ledger.block }) hoff b
      have hu' : IntegrityInv env u := by
        refine h.ofSame (fun hinit => ?_) ?_ ?_ ?_ ?_ ?_ ?_ hhash
        · rw [hu] at hinit
          exact absurd (hoff.symm.trans hinit) Bool.false_ne_true
        · rw [hu]
          exact h.nonempty
        · rw [hu]
          exact h.stored
        · rw [hu]
          exact h.kept
        · rw [hu]
          exact id
        · rw [hu]
          rfl
        · rw [hu]
          rfl
      have hdone := growMap_done hu' (by rw [hu]; exact hoff) (by rw [hu]; exact hblock) io
        (by rw [hu]; exact halloc) (by rw [hu]; exact fun _ => rfl) (by rw [hu]) (by rw [hu]; exact hsmall.2)
        (by rw [hu]; exact hpages)
      exact hdone.ofHashes hhash (by rw [hu]; rfl) (by rw [hu]; rfl) (by rw [hu]; exact ⟨rfl, rfl⟩)
    · rename_i hbig
      refine takeOver_done h hoff hblock _ (fun _ => rfl) rfl rfl rfl ?_ hpages (fun _ _ => rfl) rfl rfl
      have hle := not_and.mp hbig (h.nonempty hblock)
      exact Nat.le_of_not_lt hle

/-! ## Every run -/

/-- An update that is dropped leaves no other hash behind, a shutdown gets its dirty pages written, a fresh map is
zeroed and the number of its pages does not wrap. -/
def Careful (env : IntegrityEnv δ) (s : IntegrityState δ) : IntegrityEvent δ → Prop
  | .update b d evictOk readOk =>
    (s.covers b = true ∧ s.pageComes (b / entriesPerBlock) evictOk readOk = true) ∨
      s.hashAt b = 0 ∨ s.hashAt b = env.hash d
  | .shutdown writeOk => s.initialized = true → s.writesDirty writeOk = true
  | .init io => s.dataBlocks + (entriesPerBlock - 1) < 2 ^ 32 ∧
    (s.ledger.block = 0 → io.alloc ≠ none → ∀ i, i < s.startMap.mapCount → io.zeroOk i = true)
  | _ => True

theorem IntegrityInv.update (h : IntegrityInv env s) {d : δ} {evictOk readOk : Bool}
    (hapart : s.inMapRegion b = true ∨ s.ApartFrom b 1) (hc : Careful env s (.update b d evictOk readOk)) :
    IntegrityInv env { (s.writeData b (env.words d)).integrityUpdate b (env.hash d) evictOk readOk with
      last := update s.last b (some d)
      recorded := update s.recorded b (s.covers b)
      ioClean := s.ioClean && evictOk && readOk } := by
  obtain ⟨hwrite, hcache⟩ := writeData_hashAt (fun hinit => (h.map hinit).2) hapart (env.words d)
  obtain ⟨w, hw⟩ : ∃ w, w = s.writeData b (env.words d) := ⟨_, rfl⟩
  obtain ⟨disk, hdisk⟩ : ∃ disk, s.writeData b (env.words d) = { s with disk := disk } := by
    unfold IntegrityState.writeData
    split
    · exact ⟨s.disk, rfl⟩
    · exact ⟨_, rfl⟩
  have hsame : SameMap s w := ⟨s.cache, s.lruTick, disk, s.errors, s.rotRing, hw.trans hdisk⟩
  rw [← hw] at hwrite hcache ⊢
  have hready : MapReady w := h.map.ofSame hsame fun hinit => hcache hinit (h.map hinit).1
  have hupdated := integrityUpdate_updated hready b (env.hash d) evictOk readOk
  obtain ⟨u, hu⟩ : ∃ u, u = w.integrityUpdate b (env.hash d) evictOk readOk := ⟨_, rfl⟩
  rw [← hu] at hupdated ⊢
  have hsu := hsame.trans hupdated.same
  have hcomes :
      w.pageComes (b / entriesPerBlock) evictOk readOk = s.pageComes (b / entriesPerBlock) evictOk readOk := by
    rw [hw, hdisk]
    rfl
  have hcovers : w.covers b = s.covers b := by
    rw [hw, hdisk]
    rfl
  have hothers : ∀ c, c ≠ b → u.hashAt c = s.hashAt c := fun c hcb => (hupdated.others c hcb).trans (hwrite c)
  have hsure := hupdated.sure
  rw [hcomes, hcovers] at hsure
  refine ⟨fun hinit => ?_, ?_, ?_, fun hclean => ?_, fun c hlast => ?_, fun c d' hlast => ?_,
    fun hclean c d' hrec hlast => ?_⟩
  · exact ⟨(hupdated.ready hinit).1, (hupdated.ready hinit).2.withGhosts _ _ _⟩
  · change u.ledger.block ≠ 0 → u.ledger.blocks ≠ 0
    rw [hsu.ledger]
    exact h.nonempty
  · change u.storedLedger.block = 0 ∨ u.storedLedger = u.ledger
    rw [hsu.ledger, hsu.storedLedger]
    exact h.stored
  · change u.storedLedger = u.ledger
    simp only [Bool.and_eq_true] at hclean
    rw [hsu.ledger, hsu.storedLedger]
    exact h.kept hclean.1.1
  · change u.hashAt c = 0
    change Function.update s.last b (some d) c = none at hlast
    by_cases hcb : c = b
    · rw [hcb, update_self] at hlast
      cases hlast
    · rw [update_of_ne hcb] at hlast
      rw [hothers c hcb]
      exact h.never c hlast
  · change u.hashAt c = 0 ∨ u.hashAt c = env.hash d'
    change Function.update s.last b (some d) c = some d' at hlast
    by_cases hcb : c = b
    · rw [hcb, update_self] at hlast
      obtain rfl := some.inj hlast
      rw [hcb]
      rcases hupdated.entry with he | he
      · rcases hc with hc | hc
        · exact .inr (hsure hc.1 hc.2)
        · rw [he, hwrite]
          exact hc
      · exact .inr he
    · rw [update_of_ne hcb] at hlast
      rw [hothers c hcb]
      exact h.known c d' hlast
  · change u.hashAt c = env.hash d'
    simp only [Bool.and_eq_true] at hclean
    change Function.update s.recorded b (s.covers b) c = true at hrec
    change Function.update s.last b (some d) c = some d' at hlast
    by_cases hcb : c = b
    · rw [hcb, update_self] at hlast hrec
      obtain rfl := some.inj hlast
      rw [hcb]
      refine hsure hrec ?_
      unfold pageComes
      rw [hclean.1.2, hclean.2]
      simp
    · rw [update_of_ne hcb] at hlast hrec
      rw [hothers c hcb]
      exact h.exact hclean.1.1 c d' hrec hlast

theorem IntegrityInv.settled (h : IntegrityInv env s) (hready : MapReady t) (hhash : ∀ c, t.hashAt c = s.hashAt c)
    (hledger : t.ledger = s.ledger) (hstored : t.storedLedger = s.storedLedger) (hlast : t.last = s.last)
    (hrecorded : t.recorded = s.recorded) (ioClean : Bool) (hclean : ioClean = true → s.ioClean = true) :
    IntegrityInv env { t with ioClean := ioClean } := by
  refine h.ofSame (fun hinit => ⟨(hready hinit).1, (hready hinit).2.withGhosts _ _ _⟩) ?_ ?_ (fun hc => ?_) hclean hlast
    hrecorded hhash
  · change t.ledger.block ≠ 0 → t.ledger.blocks ≠ 0
    rw [hledger]
    exact h.nonempty
  · change t.storedLedger.block = 0 ∨ t.storedLedger = t.ledger
    rw [hledger, hstored]
    exact h.stored
  · change t.storedLedger = t.ledger
    rw [hledger, hstored]
    exact h.kept (hclean hc)

theorem SameMap.ghosts (h : SameMap s t) : t.last = s.last ∧ t.recorded = s.recorded := by
  obtain ⟨c, l, d, e, r, rfl⟩ := h
  exact ⟨rfl, rfl⟩

theorem integrityShutdown_rest (hs : MapReady s) (writeOk : Nat → Bool) : MapReady (s.integrityShutdown writeOk) ∧
    (s.integrityShutdown writeOk).ledger = s.ledger ∧ (s.integrityShutdown writeOk).storedLedger = s.storedLedger ∧
    (s.integrityShutdown writeOk).last = s.last ∧ (s.integrityShutdown writeOk).recorded = s.recorded := by
  obtain ⟨-, hsame, -⟩ := integrityFlush_kept hs writeOk
  unfold integrityShutdown
  split
  · exact ⟨nofun, hsame.ledger, hsame.storedLedger, hsame.ghosts⟩
  · exact ⟨hs, rfl, rfl, rfl, rfl⟩

theorem IntegrityInv.step {e : IntegrityEvent δ} (hc : Careful env s e) (hs : IntegrityStep env s e t)
    (h : IntegrityInv env s) : IntegrityInv env t := by
  cases hs with
  | update b d evictOk readOk hapart => exact h.update hapart hc
  | verify b d evictOk readOk =>
    have hv := integrityVerify_verified h.map b (env.hash d) evictOk readOk
    refine h.settled hv.ready hv.hashes hv.same.ledger hv.same.storedLedger hv.same.ghosts.1 hv.same.ghosts.2 _
      fun hclean => ?_
    simp only [Bool.and_eq_true] at hclean
    exact hclean.1.1
  | flush writeOk =>
    obtain ⟨hready, hsame, hhash⟩ := integrityFlush_kept h.map writeOk
    refine h.settled hready hhash hsame.ledger hsame.storedLedger hsame.ghosts.1 hsame.ghosts.2 _ fun hclean => ?_
    exact (Bool.and_eq_true _ _ ▸ hclean).1
  | shutdown writeOk =>
    obtain ⟨hready, hledger, hstored, hlast, hrecorded⟩ := integrityShutdown_rest h.map writeOk
    refine h.settled hready (fun c => ?_) hledger hstored hlast hrecorded _ fun hclean => ?_
    · cases hinit : s.initialized with
      | true => exact integrityShutdown_hashAt h.map writeOk (hc hinit) c
      | false =>
        unfold integrityShutdown
        rw [hinit, if_neg Bool.false_ne_true]
    · exact (Bool.and_eq_true _ _ ▸ hclean).1
  | init io halloc =>
    have hdone := integrityInit_done h io halloc hc.1 hc.2
    refine h.ofSame (fun hinit => ⟨(hdone.ready hinit).1, (hdone.ready hinit).2.withGhosts _ _ _⟩) hdone.nonempty
      hdone.stored (fun hclean => ?_) (fun hclean => ?_) hdone.ghosts.1 hdone.ghosts.2 hdone.hashes
    · simp only [Bool.and_eq_true] at hclean
      exact hdone.kept hclean.1.2 (h.kept hclean.1.1)
    · simp only [Bool.and_eq_true] at hclean
      exact hclean.1.1
  | grow dataBlocks hoff hle =>
    refine h.ofSame (fun hinit => ?_) h.nonempty h.stored h.kept id rfl rfl fun c => ?_
    · exact absurd (hoff.symm.trans hinit) Bool.false_ne_true
    · exact (hashAt_off (s := { s with dataBlocks := dataBlocks }) hoff c).trans (hashAt_off hoff c).symm
  | remount hoff =>
    rcases h.stored with hzero | heq
    · -- the ledger of the volume names no map: there are no hashes any more
      have hhash : ∀ c, ({ s with ledger := s.storedLedger } : IntegrityState δ).hashAt c = 0 :=
        fun c => hashAt_noMap (s := { s with ledger := s.storedLedger }) hzero c
      refine ⟨fun hinit => ?_, fun hne => absurd hzero hne, .inr rfl, fun _ => rfl, fun c _ => hhash c,
        fun c _ _ => .inl (hhash c), fun hclean c d hrec hlast => ?_⟩
      · exact absurd (hoff.symm.trans hinit) Bool.false_ne_true
      · have hold := h.exact hclean c d hrec hlast
        rw [hashAt_noMap (by rw [← h.kept hclean]; exact hzero)] at hold
        rw [hhash c]
        exact hold
    · have hs : ({ s with ledger := s.storedLedger } : IntegrityState δ) = s :=
        congrArg (fun ledger => { s with ledger := ledger }) heq
      rw [hs]
      exact h

/-- What the map answers: rot only where the data differ from those last written, and there whenever it has their hash.
-/
structure MapExact (env : IntegrityEnv δ) (s : IntegrityState δ) : Prop where
  noFalseRot : ∀ b d evictOk readOk, s.last b = none ∨ s.last b = some d →
    (s.integrityVerify b (env.hash d) evictOk readOk).1 = true
  detects : s.ioClean = true → ∀ b d d', s.recorded b = true → s.last b = some d' → env.hash d' ≠ 0 →
    env.hash d ≠ env.hash d' → s.covers b = true → (s.integrityVerify b (env.hash d) true true).1 = false

theorem IntegrityInv.mapExact (h : IntegrityInv env s) : MapExact env s where
  noFalseRot b d evictOk readOk hlast := by
    have hv := integrityVerify_verified h.map b (env.hash d) evictOk readOk
    by_contra hrot
    obtain ⟨h0, hne⟩ := hv.rot (Bool.not_eq_true _ ▸ hrot)
    rcases hlast with hnone | hsome
    · exact h0 (h.never b hnone)
    · exact (h.known b d hsome).elim h0 hne
  detects hclean b d d' hrec hlast h0 hne hcovers := by
    have hv := integrityVerify_verified h.map b (env.hash d) true true
    have hhash := h.exact hclean b d' hrec hlast
    refine hv.sure hcovers ?_ (hhash ▸ h0) fun he => hne (he.symm.trans hhash)
    unfold pageComes
    simp

/-- The map with its cache reports no rot that did not happen and misses none it has recorded. -/
theorem integrity_map_exact (env : IntegrityEnv δ) (disk : Nat → Nat → Nat) (cache : Nat → MapSlot) (dataBlocks : Nat)
    {es : List (IntegrityEvent δ)} {s : IntegrityState δ}
    (run : Lib.Run (IntegrityStep env) (Careful env) (integrityStart disk cache dataBlocks) es s) : MapExact env s :=
  (run.invariant (fun _ _ _ hc hs h => h.step hc hs) (integrityStart_inv disk cache dataBlocks)).mapExact

/-- All map I/O succeeds, and block 9 is free. -/
def goodIo : InitIo := ⟨true, some 9, fun _ => true, fun _ => true, fun _ => true, true⟩

def plusOne : IntegrityEnv Nat := ⟨(· + 1), fun _ _ => 0⟩

def smallVolume : IntegrityState Nat := integrityStart (fun _ _ => 0) (fun _ => ⟨none, 0, false, fun _ => 0⟩) 10

theorem integrity_map_exact_one : ∃ s : IntegrityState Nat, MapExact plusOne s ∧ s.last 5 = some 7 ∧
    s.covers 5 = true ∧ (s.integrityVerify 5 (plusOne.hash 8) true true).1 = false := by
  have hinit : Careful plusOne smallVolume (.init goodIo) := ⟨by decide, fun _ _ _ _ => rfl⟩
  refine ⟨_, integrity_map_exact plusOne (fun _ _ => 0) (fun _ => ⟨none, 0, false, fun _ => 0⟩) 10
    (.cons hinit (.init goodIo fun start hstart => ?_)
      (.cons (e := .update 5 7 true true) ?_ (.update 5 7 true true (.inr (.inr (.inl ?_)))) (.nil _))), ?_⟩
  · obtain rfl : 9 = start := some.inj hstart
    exact ⟨by decide, .inl rfl⟩
  · exact .inl (by decide)
  · decide
  · decide

/-- Block 0 is updated, the map is written and taken over again, and the next update of block 0 is dropped because its
page cannot be read: what was written last is reported as rot. -/
theorem dropped_update_reports_rot : ∃ (es : List (IntegrityEvent Nat)) (s : IntegrityState Nat),
    Lib.Run (IntegrityStep plusOne) (fun _ _ => True) smallVolume es s ∧ s.last 0 = some 2 ∧
      (s.integrityVerify 0 (plusOne.hash 2) true true).1 = false := by
  have halloc : ∀ start ∈ goodIo.alloc, start ≠ 0 ∧ smallVolume.ApartFrom start smallVolume.startMap.mapCount := by
    intro start hstart
    obtain rfl : 9 = start := some.inj hstart
    exact ⟨by decide, .inl rfl⟩
  have hnone : ∀ {s : IntegrityState Nat}, ∀ start ∈ ({ goodIo with alloc := none } : InitIo).alloc,
      start ≠ 0 ∧ s.ApartFrom start s.startMap.mapCount := fun start hstart => (nomatch hstart)
  refine ⟨_, _, .cons (e := .init goodIo) trivial (.init goodIo halloc)
    (.cons (e := .update 0 1 true true) trivial (.update 0 1 true true (.inr (.inr (.inl ?_))))
      (.cons (e := .shutdown fun _ => true) trivial (.shutdown _)
        (.cons (e := .init { goodIo with alloc := none }) trivial (.init { goodIo with alloc := none } hnone)
          (.cons (e := .update 0 2 true false) trivial (.update 0 2 true false (.inr (.inr (.inl ?_)))) (.nil _))))),
          ?_⟩
  · decide
  · decide
  · decide

end BoxOS.TagFS
