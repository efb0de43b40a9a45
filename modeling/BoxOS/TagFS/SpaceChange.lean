import BoxOS.TagFS.VolumeInv

/-!
# What the operations of a volume do to its free space

`VolumeInv` says which blocks an operation leaves alone. Here is what becomes of the others: giving back extents frees
their blocks and no more (`freeExtents_holds`), except those the deduplication index has further references to, and a
metadata record that is written takes blocks for the pool only, or none when it is refused (`metaPoolWrite_holds`).
-/

open Function (update update_apply update_self)

namespace BoxOS.TagFS

open Lib List DedupState

/-! ## References of the deduplication index -/

/-- The block has further references: giving it back only gives up one of them. -/
def DedupState.shared (d : DedupState) (b : Nat) : Bool :=
  d.initialized && b != 0 && (d.findByBlock b).any fun e => decide (1 < e.refCount)

section dedup

variable {d : DedupState} {b c : Nat} {e e' : DedupEntry}

theorem findByBlock_physical (h : d.findByBlock b = some e) : e.physicalBlock = b := by
  simpa using find?_some h

variable {l : List DedupEntry} {p : DedupEntry → Bool}

theorem find?_erase_of_not (he : p e = false) : (l.erase e).find? p = l.find? p := by
  induction l with
  | nil => rfl
  | cons x l ih =>
    rw [erase_cons]
    by_cases hx : x = e
    · subst hx
      rw [if_pos (by simp), find?_cons_of_neg (by simp [he])]
    · rw [if_neg (by simpa using hx), find?_cons, find?_cons, ih]

theorem find?_replace_of_not (he : p e = false) (he' : p e' = false) :
    (l.map fun x => if x = e then e' else x).find? p = l.find? p := by
  induction l with
  | nil => rfl
  | cons x l ih =>
    rw [map_cons]
    by_cases hx : x = e
    · subst hx
      rw [if_pos rfl, find?_cons_of_neg (by simp [he']), find?_cons_of_neg (by simp [he]), ih]
    · rw [if_neg hx, find?_cons, find?_cons, ih]

theorem find?_replace_self (h : l.find? p = some e) (he' : p e' = true) :
    (l.map fun x => if x = e then e' else x).find? p = some e' := by
  induction l with
  | nil => cases h
  | cons x l ih =>
    rw [map_cons]
    by_cases hx : x = e
    · rw [if_pos hx, find?_cons_of_pos he']
    rw [find?_cons] at h
    rw [if_neg hx, find?_cons]
    split at h
    · exact absurd (Option.some.inj h) hx
    · exact ih h

theorem findByBlock_evict (he : e.physicalBlock = b) (hc : c ≠ b) : (d.evict e).findByBlock c = d.findByBlock c := by
  unfold findByBlock evict unlinkBlock unlinkHash
  simp only [update_apply]
  split
  · rename_i hk
    rw [hk]
    exact find?_erase_of_not (by simp [he, Ne.symm hc])
  · rfl

theorem findByBlock_store (he : e.physicalBlock = b) (he' : e'.physicalBlock = b) (hc : c ≠ b) :
    (d.store e e').findByBlock c = d.findByBlock c := by
  unfold findByBlock store
  simp only [update_apply]
  split
  · rename_i hk
    rw [hk]
    exact find?_replace_of_not (by simp [he, Ne.symm hc]) (by simp [he', Ne.symm hc])
  · rfl

theorem findByBlock_store_self (hfind : d.findByBlock b = some e) (he' : e'.physicalBlock = b) :
    (d.store e e').findByBlock b = some e' := by
  have he := findByBlock_physical hfind
  unfold findByBlock store at *
  simp only [he, update_self]
  exact find?_replace_self hfind (by simpa using he')

theorem unregister_spec (d : DedupState) (b now : Nat) :
    (d.unregister b now).1 = !d.shared b ∧ ∀ c, c ≠ b → (d.unregister b now).2.shared c = d.shared c := by
  unfold unregister
  by_cases hout : b = 0 ∨ d.initialized = false
  · rw [if_pos hout]
    refine ⟨?_, fun _ _ => rfl⟩
    rcases hout with h | h <;> simp [shared, h]
  rw [if_neg hout]
  rw [not_or, Bool.not_eq_false] at hout
  cases hfind : d.findByBlock b with
  | none => exact ⟨by simp [shared, hfind], fun _ _ => rfl⟩
  | some e =>
    have he := findByBlock_physical hfind
    simp only []
    by_cases href : 1 < e.refCount
    · rw [if_pos href]
      refine ⟨by simp [shared, hfind, hout, href], fun c hc => ?_⟩
      unfold shared
      rw [findByBlock_store he (by exact he) hc]
      rfl
    rw [if_neg href]
    refine ⟨by simp [shared, hfind, href], fun c hc => ?_⟩
    unfold shared
    rw [findByBlock_evict he hc]
    rfl

/-- No block has two entries. -/
def DedupState.One (d : DedupState) : Prop := ∀ k, ((d.blockTable k).map (·.physicalBlock)).Nodup

theorem one_evict (h : d.One) : (d.evict e).One := by
  intro k
  unfold evict unlinkBlock unlinkHash
  simp only [update_apply]
  split
  · rename_i hk
    exact (h _).sublist (erase_sublist.map _)
  · exact h k

theorem one_store (h : d.One) (he : e'.physicalBlock = e.physicalBlock) : (d.store e e').One := by
  intro k
  unfold store
  simp only [update_apply]
  split
  · rw [map_map]
    have hsame : ((·.physicalBlock) ∘ fun x => if x = e then e' else x) = fun x : DedupEntry => x.physicalBlock := by
      funext x
      simp only [Function.comp_apply]
      split
      · rename_i hx
        rw [hx, he]
      · rfl
    rw [hsame]
    exact h _
  · exact h k

theorem findByBlock_evict_self (h : d.One) (hfind : d.findByBlock b = some e) : (d.evict e).findByBlock b = none := by
  have he := findByBlock_physical hfind
  have hmem : e ∈ d.blockTable (blockBucket b) := mem_of_find?_eq_some hfind
  unfold findByBlock evict unlinkBlock unlinkHash
  simp only [he, update_self]
  rw [find?_eq_none]
  intro x hx
  have hnd := h (blockBucket b)
  have hnot : e ∉ (d.blockTable (blockBucket b)).erase e := (Nodup.of_map _ hnd).not_mem_erase
  simp only [beq_iff_eq]
  intro hxb
  have hxe := inj_on_of_nodup_map hnd (mem_of_mem_erase hx) hmem (hxb.trans he.symm)
  exact hnot (hxe ▸ hx)

theorem unregister_one (h : d.One) (now : Nat) :
    (d.unregister b now).2.One ∧ ∀ c, (d.unregister b now).2.shared c = true → d.shared c = true := by
  have hother := (unregister_spec d b now).2
  suffices hself : (d.unregister b now).2.One ∧ ((d.unregister b now).2.shared b = true → d.shared b = true) by
    refine ⟨hself.1, fun c hc => ?_⟩
    by_cases heq : c = b
    · subst heq
      exact hself.2 hc
    · rwa [hother c heq] at hc
  unfold unregister
  split
  · exact ⟨h, id⟩
  cases hfind : d.findByBlock b with
  | none => exact ⟨h, id⟩
  | some e =>
    simp only []
    split
    · rename_i hout href
      refine ⟨one_store h rfl, fun _ => ?_⟩
      rw [not_or, Bool.not_eq_false] at hout
      simp [shared, hfind, hout, href]
    · refine ⟨one_evict h, fun hc => ?_⟩
      rw [shared, findByBlock_evict_self h hfind] at hc
      simp at hc

/-- `TagFS_DedupRegister` leaves the entries of the other blocks. -/
theorem register_finds (hlive : ¬ (b = 0 ∨ d.initialized = false)) (hash : DedupHash) (tagContext now : Nat) :
    (∀ c, c ≠ b → (d.register b hash tagContext now).findByBlock c = d.findByBlock c) ∧
      (∃ e, (d.register b hash tagContext now).findByBlock b = some e ∧
        e.refCount = (d.findByBlock b).elim 1 (·.refCount)) ∧
      (d.register b hash tagContext now).initialized = d.initialized ∧
      (d.One → (d.register b hash tagContext now).One) := by
  unfold register
  rw [if_neg hlive]
  cases hfind : d.findByBlock b with
  | none =>
    refine ⟨fun c hc => ?_, ⟨⟨hash, b, 1, now, now, computeTagContext tagContext⟩, ?_, rfl⟩, rfl, fun h k => ?_⟩
    · unfold findByBlock linkHash
      simp only [update_apply]
      split
      · rename_i hk
        rw [find?_cons_of_neg (by simp [Ne.symm hc]), hk]
      · rfl
    · unfold findByBlock linkHash
      simp
    · unfold linkHash
      simp only [update_apply]
      split
      · rw [map_cons, nodup_cons]
        refine ⟨fun hmem => ?_, h _⟩
        obtain ⟨x, hx, hxb⟩ := mem_map.mp hmem
        have hno := find?_eq_none.mp hfind x hx
        simp [hxb] at hno
      · exact h k
  | some e =>
    have he := findByBlock_physical hfind
    simp only []
    generalize hd' : (if e.hash = hash then d else (d.unlinkHash e).linkHash { e with hash := hash }) = d'
    have htable : d'.blockTable = d.blockTable ∧ d'.initialized = d.initialized := by
      rw [← hd']
      split <;> exact ⟨rfl, rfl⟩
    have hfind' : d'.findByBlock = d.findByBlock := by
      funext c
      unfold findByBlock
      rw [htable.1]
    refine ⟨fun c hc => ?_, ⟨_, findByBlock_store_self (by rw [hfind', hfind]) (by exact he), rfl⟩, htable.2,
      fun h => one_store (fun k => by rw [htable.1]; exact h k) rfl⟩
    rw [findByBlock_store he (by exact he) hc, hfind']

/-- It makes no further references, and no second entry. -/
theorem register_spec (d : DedupState) (b : Nat) (hash : DedupHash) (tagContext now : Nat) :
    (∀ c, (d.register b hash tagContext now).shared c = d.shared c) ∧
    (d.One → (d.register b hash tagContext now).One) := by
  by_cases hout : b = 0 ∨ d.initialized = false
  · have hsame : d.register b hash tagContext now = d := if_pos hout
    rw [hsame]
    exact ⟨fun _ => rfl, id⟩
  obtain ⟨hother, ⟨e, hself, href⟩, hinit, hone⟩ := register_finds hout hash tagContext now
  refine ⟨fun c => ?_, hone⟩
  unfold shared
  rw [hinit]
  rcases eq_or_ne c b with rfl | hc
  · cases hfind : d.findByBlock c <;> simp [hself, href, hfind]
  · rw [hother c hc]

/-- No block has two entries in the index, and blocks with further references are held. -/
structure DedupState.Held (d : DedupState) (s : Space) : Prop where
  one : d.One
  held : ∀ b, d.shared b = true → s.Holds b

end dedup

/-! ## Giving back blocks -/

section free

variable {s : Space} {c : Nat}

theorem isFree_iff {b : Nat} : s.IsFree b ↔ b < s.totalBlocks ∧ ¬ s.Holds b := by
  unfold Space.IsFree Space.Holds
  constructor
  · rintro ⟨hlt, hbit⟩
    exact ⟨hlt, fun hold => by rw [hold.2] at hbit; exact nomatch hbit⟩
  · rintro ⟨hlt, hno⟩
    exact ⟨hlt, by simpa [hlt] using hno⟩

theorem freeRun_holds_iff (hs : s.Inv) {start count : Nat} (ht : s.Taken start count) :
    (s.freeRunLocked start count).Holds c ↔ s.Holds c ∧ ¬ (start ≤ c ∧ c < start + count) := by
  unfold Space.Holds
  rw [freeRun_totalBlocks, freeRun_bits hs ht]
  simp only [Bool.and_eq_true, Bool.not_eq_true', decide_eq_false_iff_not]
  tauto

/-- The loop frees the run gathered so far, and of the rest of the range the blocks without further references. -/
theorem freeBlocksLoop_holds_iff (now : Nat) : ∀ (n block runStart runLen : Nat) (s : Space) (d : DedupState), s.Inv →
    (runLen ≠ 0 → runStart + runLen = block) → s.Taken (block - runLen) (runLen + n) → runLen ≤ block →
    ((s.freeBlocksLoop now n block runStart runLen d).1.Holds c ↔ s.Holds c ∧ ¬ (block - runLen ≤ c ∧ c < block) ∧
      ¬ (block ≤ c ∧ c < block + n ∧ d.shared c = false)) ∧
    (¬ (block ≤ c ∧ c < block + n) → (s.freeBlocksLoop now n block runStart runLen d).2.shared c = d.shared c)
  | 0, block, runStart, runLen, s, d, hs, hrun, ht, hle => by
    simp only [Space.freeBlocksLoop]
    refine ⟨?_, fun _ => trivial⟩
    split
    · constructor
      · exact fun hc => ⟨hc, by omega, by omega⟩
      · exact fun hc => hc.1
    rename_i hne
    have hstart := hrun hne
    rw [freeRun_holds_iff hs (by simpa [show block - runLen = runStart by omega] using ht),
      show block - runLen = runStart by omega, hstart]
    constructor
    · exact fun hc => ⟨hc.1, hc.2, by omega⟩
    · exact fun hc => ⟨hc.1, hc.2.1⟩
  | n + 1, block, runStart, runLen, s, d, hs, hrun, ht, hle => by
    have hspec := unregister_spec d block now
    rw [Space.freeBlocksLoop]
    split
    · rename_i d' hd
      rw [hd] at hspec
      obtain ⟨hshared, hother⟩ := hspec
      have hfree : d.shared block = false := by simpa using hshared.symm
      obtain ⟨hiff, hkeep⟩ :=
        freeBlocksLoop_holds_iff now n (block + 1) (if runLen = 0 then block else runStart) (runLen + 1) s d' hs
        (fun _ => by
          split
          · omega
          · rename_i hne
            have := hrun hne
            omega)
        (by
          rw [show block + 1 - (runLen + 1) = block - runLen by omega, show runLen + 1 + n = runLen + (n + 1) by omega]
          exact ht)
        (by omega)
      refine ⟨?_, fun hout => ?_⟩
      · rw [hiff, show block + 1 - (runLen + 1) = block - runLen by omega]
        by_cases hc : c = block
        · subst hc
          constructor
          · rintro ⟨-, hno, -⟩
            omega
          · rintro ⟨-, -, hno⟩
            exact absurd ⟨le_rfl, by omega, hfree⟩ hno
        rw [hother c hc]
        constructor
        · rintro ⟨hold, h₁, h₂⟩
          exact ⟨hold, by omega, fun h => h₂ ⟨by omega, by omega, h.2.2⟩⟩
        · rintro ⟨hold, h₁, h₂⟩
          exact ⟨hold, by omega, fun h => h₂ ⟨by omega, by omega, h.2.2⟩⟩
      · rw [hkeep (by omega), hother c (by omega)]
    · rename_i d' hd
      rw [hd] at hspec
      obtain ⟨hshared, hother⟩ := hspec
      have hmore : d.shared block = true := by simpa using hshared.symm
      have hrest : s.Taken (block + 1) n :=
        ⟨by have := ht.1; omega, fun b h1 h2 => ht.2 b (by omega) (by omega)⟩
      -- the run gathered so far is given back first
      have hgathered : ∃ s', (if runLen = 0 then s else s.freeRunLocked runStart runLen) = s' ∧ s'.Inv ∧
          s'.Taken (block + 1) n ∧ (s'.Holds c ↔ s.Holds c ∧ ¬ (block - runLen ≤ c ∧ c < block)) := by
        by_cases hzero : runLen = 0
        · refine ⟨s, if_pos hzero, hs, hrest, ?_⟩
          constructor
          · exact fun hc => ⟨hc, by omega⟩
          · exact fun hc => hc.1
        have hrs := hrun hzero
        have htr : s.Taken runStart runLen := ⟨by have := ht.1; omega, fun b h1 h2 => ht.2 b (by omega) (by omega)⟩
        refine ⟨_, if_neg hzero, freeRun_inv hs htr, freeRun_taken hs htr hrest (by omega), ?_⟩
        rw [freeRun_holds_iff hs htr, show block - runLen = runStart by omega, hrs]
      obtain ⟨s', heq, hs', hrest', hholds⟩ := hgathered
      rw [heq]
      obtain ⟨hiff, hkeep⟩ := freeBlocksLoop_holds_iff now n (block + 1) runStart 0 s' d' hs' (by simp)
        (by simpa using hrest') (by omega)
      refine ⟨?_, fun hout => ?_⟩
      · rw [hiff, hholds]
        by_cases hc : c = block
        · subst hc
          constructor
          · exact fun h => ⟨h.1.1, h.1.2, fun hno => by rw [hmore] at hno; cases hno.2.2⟩
          · exact fun h => ⟨⟨h.1, h.2.1⟩, by omega, by omega⟩
        rw [hother c hc]
        constructor
        · rintro ⟨⟨hold, h₁⟩, -, h₂⟩
          exact ⟨hold, h₁, fun h => h₂ ⟨by omega, by omega, h.2.2⟩⟩
        · rintro ⟨hold, h₁, h₂⟩
          exact ⟨⟨hold, h₁⟩, by omega, fun h => h₂ ⟨by omega, by omega, h.2.2⟩⟩
      · rw [hkeep (by omega), hother c (by omega)]

theorem freeBlocksLoop_one (now : Nat) (n block runStart runLen : Nat) (s : Space) {d : DedupState} (h : d.One) :
    (s.freeBlocksLoop now n block runStart runLen d).2.One ∧
      ∀ c, (s.freeBlocksLoop now n block runStart runLen d).2.shared c = true → d.shared c = true := by
  induction n generalizing block runStart runLen s d with
  | zero => exact ⟨h, fun _ hc => hc⟩
  | succ n ih =>
    obtain ⟨hone, hshared⟩ := @unregister_one d block h now
    rw [Space.freeBlocksLoop]
    split
    all_goals
      rename_i d' hd
      rw [hd] at hone hshared
    · obtain ⟨h₁, h₂⟩ := ih (block + 1) (if runLen = 0 then block else runStart) (runLen + 1) s hone
      exact ⟨h₁, fun c hc => hshared c (h₂ c hc)⟩
    · obtain ⟨h₁, h₂⟩ := ih (block + 1) runStart 0 (if runLen = 0 then s else s.freeRunLocked runStart runLen) hone
      exact ⟨h₁, fun c hc => hshared c (h₂ c hc)⟩

theorem freeBlocks_holds_iff (hs : s.Inv) {start count : Nat} (ht : s.Taken start count) (d : DedupState) (now : Nat) :
    ((s.freeBlocksInternal d now start count).1.Holds c ↔
    s.Holds c ∧ ¬ (start ≤ c ∧ c < start + count ∧ d.shared c = false)) ∧
    (¬ (start ≤ c ∧ c < start + count) → (s.freeBlocksInternal d now start count).2.shared c = d.shared c) := by
  unfold Space.freeBlocksInternal
  split
  · refine ⟨?_, fun _ => rfl⟩
    constructor
    · exact fun hc => ⟨hc, by omega⟩
    · exact fun hc => hc.1
  obtain ⟨hiff, hkeep⟩ :=
    @freeBlocksLoop_holds_iff c now count start start 0 s d hs (by simp) (by simpa using ht) (by omega)
  refine ⟨?_, hkeep⟩
  rw [hiff]
  constructor
  · exact fun h => ⟨h.1, h.2.2⟩
  · exact fun h => ⟨h.1, by omega, h.2⟩

theorem freeBlocks_held (hs : s.Inv) {start count : Nat} (ht : s.Taken start count) {d : DedupState} (hd : d.Held s)
    (now : Nat) : (s.freeBlocksInternal d now start count).2.Held (s.freeBlocksInternal d now start count).1 := by
  have hone : (s.freeBlocksInternal d now start count).2.One ∧
      ∀ c, (s.freeBlocksInternal d now start count).2.shared c = true → d.shared c = true := by
    unfold Space.freeBlocksInternal
    split
    · exact ⟨hd.one, fun _ hc => hc⟩
    · exact freeBlocksLoop_one now count start start 0 s hd.one
  refine ⟨hone.1, fun b hb => ?_⟩
  have hshared := hone.2 b hb
  refine (freeBlocks_holds_iff hs ht d now).1.mpr ⟨hd.held b hshared, fun hno => ?_⟩
  rw [hshared] at hno
  cases hno.2.2

theorem freeExtents_holds (es : List FileExtent) {p : MetaPool} (hs : p.space.Inv) (hnd : (fileBlocks es).Nodup)
    (hin : ∀ e ∈ es, e.startBlock.toNat + e.blockCount.toNat ≤ p.space.totalBlocks)
    (hheld : ∀ b ∈ fileBlocks es, p.space.Holds b) :
    ((p.freeExtents es).space.Holds c ↔ p.space.Holds c ∧ ¬ (c ∈ fileBlocks es ∧ p.dedup.shared c = false)) ∧
    (c ∉ fileBlocks es → (p.freeExtents es).dedup.shared c = p.dedup.shared c) := by
  induction es generalizing p with
  | nil =>
    refine ⟨?_, fun _ => rfl⟩
    constructor
    · exact fun hc => ⟨hc, fun h => nomatch h.1⟩
    · exact fun hc => hc.1
  | cons e es ih =>
    rw [fileBlocks_cons] at hnd hheld
    have htaken := taken_of_holds (hin e mem_cons_self) fun b hb => hheld b (mem_append_left _ hb)
    obtain ⟨hinv, htot⟩ := freeBlocks_inv hs htaken p.dedup p.now
    have hrest := nodup_append.mp hnd
    have hdisj : ∀ b ∈ fileBlocks es, b ∉ e.extent.blocks := fun b hb hmem => hrest.2.2 b hmem b hb rfl
    have hstep : ∀ c, _ := fun c => @freeBlocks_holds_iff p.space c hs _ _ htaken p.dedup p.now
    simp only [← and_assoc, ← mem_extent_blocks (e := e)] at hstep
    have hcons : p.freeExtents (e :: es) = MetaPool.freeExtents { p with
        space := (p.space.freeBlocksInternal p.dedup p.now e.startBlock.toNat e.blockCount.toNat).1
        dedup := (p.space.freeBlocksInternal p.dedup p.now e.startBlock.toNat e.blockCount.toNat).2 } es := rfl
    rw [hcons]
    generalize p.space.freeBlocksInternal p.dedup p.now e.startBlock.toNat e.blockCount.toNat = r at hinv htot hstep ⊢
    obtain ⟨hiff, hkeep⟩ := ih (p := { p with space := r.1, dedup := r.2 }) hinv hrest.2.1
      (fun e' he' => htot ▸ hin e' (mem_cons_of_mem _ he'))
      fun b hb => (hstep b).1.mpr ⟨hheld b (mem_append_right _ hb), fun h => hdisj b hb h.1⟩
    rw [fileBlocks_cons]
    refine ⟨?_, fun hc => ?_⟩
    · rw [hiff, (hstep c).1, mem_append]
      by_cases hc : c ∈ fileBlocks es
      · have := hdisj c hc
        rw [(hstep c).2 this]
        tauto
      · tauto
    · rw [mem_append, not_or] at hc
      rw [hkeep hc.2]
      exact (hstep c).2 hc.1

end free

/-! ## Taking blocks -/

section alloc

variable {s s' : Space} {start count : Nat}

theorem alloc_holds (hs : s.Inv) (h : s.allocBlocksInternal count = some (start, s')) (b : Nat) :
    (s'.Holds b ↔ s.Holds b ∨ start ≤ b ∧ b < start + count) ∧ (start ≤ b ∧ b < start + count → ¬ s.Holds b) := by
  obtain ⟨hin, hfree, htot, hbits⟩ := alloc_spec hs h
  refine ⟨?_, fun hr hold => ?_⟩
  · unfold Space.Holds
    rw [htot, hbits, Bool.or_eq_true, decide_eq_true_eq]
    constructor
    · rintro ⟨h₁, h₂ | h₂⟩
      · exact .inl ⟨h₁, h₂⟩
      · exact .inr h₂
    · rintro (⟨h₁, h₂⟩ | h₂)
      · exact ⟨h₁, .inl h₂⟩
      · exact ⟨by omega, .inr h₂⟩
  · have := (hfree b hr.1 hr.2).2
    rw [hold.2] at this
    cases this

/-- A run of blocks becomes a file's. -/
def own (owner : Nat → Option Nat) (start count f : Nat) : Nat → Option Nat := fun b =>
  if start ≤ b ∧ b < start + count then some f else owner b

theorem own_eq_some {owner : Nat → Option Nat} {f g b : Nat} :
    own owner start count f b = some g ↔
      (start ≤ b ∧ b < start + count) ∧ f = g ∨ ¬ (start ≤ b ∧ b < start + count) ∧ owner b = some g := by
  unfold own
  split <;> simp [*]

theorem Volume.Inv.own {v : Volume} {first : Nat} {live : LiveRecords} {owner : Nat → Option Nat}
    (h : v.Inv first live owner) {space : Space} (hal : v.pool.space.allocBlocksInternal count = some (start, space))
    (f : Nat) : ({ v with pool := { v.pool with space := space } }).Inv first live (TagFS.own owner start count f) := by
  have hholds := alloc_holds h.pool.space hal
  have hkeep : ∀ b, v.pool.space.Holds b → space.Holds b := fun b hb => (hholds b).1.mpr (.inl hb)
  have hpool : ({ v.pool with space := space }).Inv first live :=
    h.pool.withSpace (alloc_inv h.pool.space hal) (alloc_spec h.pool.space hal).2.2.1 hkeep
  refine ⟨hpool, h.first_ne, h.entry, fun g m hm => ?_, fun b g hb => ?_, ?_, fun b hb => ?_⟩
  · have howns := h.owns g m hm
    refine ⟨howns.nodup, fun b hb => own_eq_some.mpr (.inr ⟨fun hr => ?_, howns.owned b hb⟩)⟩
    exact (hholds b).2 hr (h.held b g (howns.owned b hb)).1
  · rcases own_eq_some.mp hb with ⟨hr, -⟩ | ⟨-, hb⟩
    · have hno := (hholds b).2 hr
      exact ⟨(hholds b).1.mpr (.inr hr), fun hmem => hno (h.pool.holds b hmem), fun hmem => hno (h.chains b hmem).1⟩
    · obtain ⟨hold, hout⟩ := h.held b g hb
      exact ⟨hkeep b hold, hout⟩
  · unfold TagFS.own
    rw [if_neg fun hr => (hholds 0).2 hr h.pool.zero, h.zero]
  · obtain ⟨hold, hout⟩ := h.chains b hb
    exact ⟨hkeep b hold, hout⟩

end alloc

/-! ## Writing a record -/

section pool

variable {p : MetaPool} {first : Nat} {live : LiveRecords} {b : Nat}

theorem freeBlock_alloc_holds {p' : MetaPool} {space : Space} {nb : Nat} (hs : p.space.Inv)
    (hal : p.space.allocBlocksInternal 1 = some (nb, space)) (hfresh : p.dedup.shared nb = false)
    (hspace : p'.space = space) (hdedup : p'.dedup = p.dedup) : (p'.freeBlock nb).space.Holds b ↔ p.space.Holds b := by
  obtain ⟨hin, -, htot, hbits⟩ := alloc_spec hs hal
  obtain ⟨hs', -, hno, hnb, -⟩ := allocOne_spec hs hal
  have htaken : space.Taken nb 1 := ⟨hnb.1, fun c h₁ h₂ => by
    obtain rfl : c = nb := by omega
    exact hnb.2⟩
  have hiff := (@freeBlocks_holds_iff space b hs' _ _ htaken p.dedup p'.now).1
  unfold MetaPool.freeBlock
  rw [hspace, hdedup]
  refine hiff.trans ?_
  unfold Space.Holds at hno ⊢
  rw [htot, hbits, Bool.or_eq_true, decide_eq_true_eq]
  by_cases hb : b = nb
  · subst hb
    constructor
    · exact fun h => absurd ⟨le_rfl, by omega, hfresh⟩ h.2
    · exact fun h => absurd h hno
  constructor
  · rintro ⟨⟨h₁, h₂ | h₂⟩, -⟩
    · exact ⟨h₁, h₂⟩
    · omega
  · rintro ⟨h₁, h₂⟩
    exact ⟨⟨h₁, .inl h₂⟩, by omega⟩

/-- The pool has taken blocks for itself only. -/
structure TakesForPool (p p' : MetaPool) : Prop where
  holds : ∀ b, p'.space.Holds b ↔ p.space.Holds b ∨ b ∈ p'.blocks
  dedup : p'.dedup = p.dedup

theorem chainNext_holds (h : p.Inv first live) (hd : ∀ b, p.dedup.shared b = true → p.space.Holds b) :
    (p.chainNext.2 = false → ∀ b, p.chainNext.1.space.Holds b ↔ p.space.Holds b) ∧
    (p.chainNext.2 = true → TakesForPool p p.chainNext.1) := by
  rcases chainNext_cases h with heq | ⟨nb, space, hal, hor⟩
  · rw [heq]
    exact ⟨fun _ _ => Iff.rfl, nofun⟩
  obtain ⟨-, -, htot, hbits⟩ := alloc_spec h.space hal
  obtain ⟨-, -, hno, -, -⟩ := allocOne_spec h.space hal
  have hfresh : p.dedup.shared nb = false := by
    by_contra hs
    exact hno (hd nb (by simpa using hs))
  rcases hor with ⟨medium, io, -, heq⟩ | ⟨p', heq, hinv, hspace, hdedup, -, hblocks, -⟩
  · rw [heq]
    exact ⟨fun _ b => freeBlock_alloc_holds h.space hal hfresh rfl rfl, nofun⟩
  rw [heq]
  refine ⟨nofun, fun _ => ⟨fun b => ?_, hdedup⟩⟩
  constructor
  · rw [hspace]
    rintro ⟨hlt, hbit⟩
    rw [hbits, Bool.or_eq_true, decide_eq_true_eq] at hbit
    rcases hbit with hbit | hbit
    · exact .inl ⟨htot ▸ hlt, hbit⟩
    · obtain rfl : b = nb := by omega
      exact .inr (by rw [hblocks]; simp)
  · rintro (⟨hlt, hbit⟩ | hmem)
    · rw [hspace]
      exact ⟨htot ▸ hlt, by rw [hbits, hbit]; rfl⟩
    · exact hinv.holds b hmem

theorem appendRecord_takes (h : p.Inv first live) {m : TagFSMetadata} (hid : m.fileId ≠ 0)
    (hfit : p.current.usedBytes + metaPoolRecordSize m ≤ mpoolDataSize) : TakesForPool p (p.appendRecord m).1 := by
  obtain ⟨-, hblocks, hspace⟩ := appendRecord_inv h hid hfit
  refine ⟨fun b => ?_, ?_⟩
  · rw [hspace, hblocks]
    constructor
    · exact .inl
    · rintro (hb | hb)
      · exact hb
      · exact h.holds b hb
  · unfold MetaPool.appendRecord
    simp only []
    split
    · rfl
    · rfl

theorem TakesForPool.trans {p₁ p₂ : MetaPool} (h₁ : TakesForPool p p₁) (h₂ : TakesForPool p₁ p₂)
    (hsub : ∀ b ∈ p₁.blocks, b ∈ p₂.blocks) : TakesForPool p p₂ where
  holds b := by
    rw [h₂.holds, h₁.holds]
    have := hsub b
    tauto
  dedup := h₂.dedup.trans h₁.dedup

theorem appendRecord_some {m : TagFSMetadata} (hext : m.extents.all (·.inVolume p.space.totalBlocks) = true) :
    (p.appendRecord m).2 = some (p.currentNum, mpoolBlockHeader + p.current.usedBytes) := by
  unfold MetaPool.appendRecord
  rw [packRecord, if_pos hext]
  rfl

/-- `meta_pool_write` takes blocks for the pool only; when it refuses a record of good extents it has taken none. -/
theorem metaPoolWrite_holds (h : p.Inv first live) (hd : ∀ b, p.dedup.shared b = true → p.space.Holds b)
    {m : TagFSMetadata} (hid : m.fileId ≠ 0) (hext : m.extents.all (·.inVolume p.space.totalBlocks) = true) :
    ((metaPoolWrite p m).2 = none → ∀ b, (metaPoolWrite p m).1.space.Holds b ↔ p.space.Holds b) ∧
      ((metaPoolWrite p m).2.isSome = true → TakesForPool p (metaPoolWrite p m).1) := by
  obtain ⟨hinv, hkeeps, -⟩ := chainNext_inv h
  have htot := hkeeps.total
  obtain ⟨hrefused, htakes⟩ := chainNext_holds h hd
  rcases metaPoolWrite_cases h m with heq | ⟨p', hnext, heq⟩ | ⟨p', hnext, hfit, heq⟩ | ⟨hfit, heq⟩
  · rw [heq]
    exact ⟨fun _ _ => Iff.rfl, nofun⟩
  · rw [heq]
    rw [hnext] at hrefused
    exact ⟨fun _ => hrefused rfl, nofun⟩
  · rw [heq]
    rw [hnext] at hinv htot htakes
    have hsome := appendRecord_some (p := p') (m := m) (htot ▸ hext)
    refine ⟨fun hno => (nomatch hsome.symm.trans hno), fun _ => ?_⟩
    refine (htakes rfl).trans (appendRecord_takes hinv hid hfit) fun b hb => ?_
    rw [(appendRecord_inv hinv hid hfit).2.1]
    exact hb
  · rw [heq]
    have hsome := appendRecord_some (p := p) (m := m) hext
    exact ⟨fun hno => (nomatch hsome.symm.trans hno), fun _ => appendRecord_takes h hid hfit⟩

end pool

section volume

variable {v : Volume} {first : Nat} {live : LiveRecords} {owner : Nat → Option Nat} {f : Nat} {e : FileTableEntry}
  {m : TagFSMetadata}

theorem replaceRecord_holds (h : v.Inv first live owner) (hd : ∀ b, v.pool.dedup.shared b = true → v.pool.space.Holds b)
    (hid : m.fileId ≠ 0) (hext : m.extents.all (·.inVolume v.pool.space.totalBlocks) = true) :
    ((v.replaceRecord f e m).2 = false → (∀ b, (v.replaceRecord f e m).1.pool.space.Holds b ↔ v.pool.space.Holds b) ∧
    (v.replaceRecord f e m).1.table = v.table) ∧
    ((v.replaceRecord f e m).2 = true → TakesForPool v.pool (v.replaceRecord f e m).1.pool) := by
  obtain ⟨hrefused, htakes⟩ := metaPoolWrite_holds h.pool hd hid hext
  unfold Volume.replaceRecord
  cases hw : metaPoolWrite v.pool m with
  | mk pool place =>
    rw [hw] at hrefused htakes
    cases place with
    | none => exact ⟨fun _ => ⟨hrefused rfl, rfl⟩, nofun⟩
    | some place =>
      refine ⟨nofun, fun _ => ?_⟩
      obtain ⟨hspace, -, hdedup, -⟩ := delete_keeps pool e.place.1 e.place.2
      have hblocks := blocks_delete pool e.place.1 e.place.2
      have htaken := htakes rfl
      refine ⟨fun b => ?_, hdedup.trans htaken.dedup⟩
      simp only [hspace, hblocks]
      exact htaken.holds b

end volume

end BoxOS.TagFS
