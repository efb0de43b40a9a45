import BoxOS.TagFS.DedupRefs

/-!
# Which free reclaims a block

`refs` is the number of references that the index knows of: one for a block without an entry. Only `TagFS_DedupAddRef`
and `TagFS_DedupUnregister` change it, so in every state of a run it says how many frees of a block are still to come:
one more than references were added, less the frees that there were. `tagfs_free_blocks` frees the blocks of its range
that have one reference left, in runs (`freeBlocksLoopTrying_spec`).

The list of free extents is only a part of the free blocks here (`Lax`): a run without memory for an extent is lost.
-/

namespace BoxOS.TagFS

open Lib Option DedupState

/-! ## The index -/

/-- The references to a block. -/
def DedupState.refs (d : DedupState) (b : Nat) : Nat :=
  if b = 0 ∨ d.initialized = false then 1 else (d.findByBlock b).elim 1 (·.refCount)

/-- No block has two entries, and no entry is without a reference. -/
structure DedupState.Sound (d : DedupState) : Prop where
  one : d.One
  pos : ∀ b e, d.findByBlock b = some e → 1 ≤ e.refCount

section index

variable {d : DedupState} {b c now : Nat} {e e' : DedupEntry}

theorem DedupState.Sound.refs_pos (h : d.Sound) (b : Nat) : 1 ≤ d.refs b := by
  unfold refs
  split
  · exact le_refl 1
  · cases hfind : d.findByBlock b with
    | none => exact le_refl 1
    | some e => exact h.pos b e hfind

theorem DedupState.Sound.evict (h : d.Sound) (hfind : d.findByBlock b = some e) : (d.evict e).Sound := by
  refine ⟨one_evict h.one, fun c x hx => ?_⟩
  rcases eq_or_ne c b with rfl | hc
  · rw [findByBlock_evict_self h.one hfind] at hx
    cases hx
  · rw [findByBlock_evict (findByBlock_physical hfind) hc] at hx
    exact h.pos c x hx

theorem DedupState.Sound.store (h : d.Sound) (hfind : d.findByBlock b = some e)
    (he : e'.physicalBlock = e.physicalBlock) (hpos : 1 ≤ e'.refCount) : (d.store e e').Sound := by
  have heb := findByBlock_physical hfind
  refine ⟨one_store h.one he, fun c x hx => ?_⟩
  rcases eq_or_ne c b with rfl | hc
  · rw [findByBlock_store_self hfind (he.trans heb)] at hx
    exact some.inj hx ▸ hpos
  · rw [findByBlock_store heb (he.trans heb) hc] at hx
    exact h.pos c x hx

theorem DedupState.Sound.refs_evict (h : d.Sound) (hfind : d.findByBlock b = some e) (href : e.refCount ≤ 1) (c : Nat) :
    (d.evict e).refs c = d.refs c := by
  have hinit : (d.evict e).initialized = d.initialized := rfl
  unfold refs
  rw [hinit]
  rcases eq_or_ne c b with rfl | hc
  · rw [findByBlock_evict_self h.one hfind, hfind]
    have hpos := h.pos c e hfind
    have hone : e.refCount = 1 := le_antisymm href hpos
    simp [hone]
  · rw [findByBlock_evict (findByBlock_physical hfind) hc]

theorem refs_store (e' : DedupEntry) (hfind : d.findByBlock b = some e) (he : e'.physicalBlock = e.physicalBlock)
    (hlive : ¬ (b = 0 ∨ d.initialized = false)) (c : Nat) :
    (d.store e e').refs c = if c = b then e'.refCount else d.refs c := by
  have heb := findByBlock_physical hfind
  have hinit : (d.store e e').initialized = d.initialized := rfl
  unfold refs
  rw [hinit]
  rcases eq_or_ne c b with rfl | hc
  · rw [findByBlock_store_self hfind (he.trans heb), if_neg hlive, if_pos rfl]
    rfl
  · rw [findByBlock_store heb (he.trans heb) hc, if_neg hc]

theorem DedupState.Sound.unregister (h : d.Sound) (b now : Nat) :
    (d.unregister b now).1 = decide (d.refs b = 1) ∧ (d.unregister b now).2.Sound ∧
      ∀ c, (d.unregister b now).2.refs c = if c = b ∧ 1 < d.refs b then d.refs b - 1 else d.refs c := by
  unfold DedupState.unregister
  by_cases hout : b = 0 ∨ d.initialized = false
  · have hone : d.refs b = 1 := if_pos hout
    rw [if_pos hout]
    exact ⟨by simp [hone], h, fun c => by simp [hone]⟩
  rw [if_neg hout]
  cases hfind : d.findByBlock b with
  | none =>
    have hone : d.refs b = 1 := by simp [refs, hout, hfind]
    exact ⟨by simp [hone], h, fun c => by simp [hone]⟩
  | some e =>
    have hrefs : d.refs b = e.refCount := by simp [refs, hout, hfind]
    have hpos := h.pos b e hfind
    dsimp only
    by_cases hmore : 1 < e.refCount
    · rw [if_pos hmore]
      refine ⟨(decide_eq_false (by omega)).symm, h.store hfind rfl (by dsimp only; omega), fun c => ?_⟩
      rw [refs_store { e with refCount := e.refCount - 1, lastAccess := now } hfind rfl hout, hrefs]
      rcases eq_or_ne c b with rfl | hc
      · simp [hmore]
      · simp [hc]
    · rw [if_neg hmore]
      refine ⟨(decide_eq_true (by omega)).symm, h.evict hfind, fun c => ?_⟩
      rw [h.refs_evict hfind (by omega), if_neg (by omega)]

theorem DedupState.Sound.addRef (h : d.Sound) (b now : Nat) : (d.addRef b now).2.Sound ∧
    ∀ c, (d.addRef b now).2.refs c = if c = b ∧ (d.addRef b now).1 = true then d.refs b + 1 else d.refs c := by
  unfold DedupState.addRef
  by_cases hout : b = 0 ∨ d.initialized = false
  · rw [if_pos hout]
    exact ⟨h, fun c => by simp⟩
  rw [if_neg hout]
  cases hfind : d.findByBlock b with
  | none => exact ⟨h, fun c => by simp⟩
  | some e =>
    have hrefs : d.refs b = e.refCount := by simp [refs, hout, hfind]
    dsimp only
    split
    · exact ⟨h, fun c => by simp⟩
    · refine ⟨h.store hfind rfl (by dsimp only; omega), fun c => ?_⟩
      rw [refs_store { e with refCount := e.refCount + 1, lastAccess := now } hfind rfl hout, hrefs]
      simp

theorem DedupState.Sound.gcVisit (h : d.Sound) (now b : Nat) :
    (d.gcVisit now b).Sound ∧ ∀ c, (d.gcVisit now b).refs c = d.refs c := by
  unfold DedupState.gcVisit
  cases hfind : d.findByBlock b with
  | none => exact ⟨h, fun _ => rfl⟩
  | some e =>
    dsimp only
    split
    · next hold => exact ⟨h.evict hfind, h.refs_evict hfind hold.1⟩
    · exact ⟨h, fun _ => rfl⟩

theorem DedupState.Sound.gc (h : d.Sound) (now : Nat) : (d.gc now).Sound ∧ ∀ c, (d.gc now).refs c = d.refs c := by
  -- both loops visit entries, and every visit keeps what we claim
  have hchain : ∀ (blocks : List Nat) (x : DedupState), x.Sound ∧ (∀ c, x.refs c = d.refs c) →
      (blocks.foldl (DedupState.gcVisit now) x).Sound ∧
      ∀ c, (blocks.foldl (DedupState.gcVisit now) x).refs c = d.refs c := by
    intro blocks
    induction blocks with
    | nil => exact fun _ hx => hx
    | cons b blocks ih =>
      intro x hx
      obtain ⟨hsound, hrefs⟩ := hx.1.gcVisit now b
      exact ih _ ⟨hsound, fun c => (hrefs c).trans (hx.2 c)⟩
  have htables : ∀ (is : List Nat) (x : DedupState), x.Sound ∧ (∀ c, x.refs c = d.refs c) →
      (is.foldl (fun x i => (x.hashTable i).foldl (DedupState.gcVisit now) x) x).Sound ∧
        ∀ c, (is.foldl (fun x i => (x.hashTable i).foldl (DedupState.gcVisit now) x) x).refs c = d.refs c := by
    intro is
    induction is with
    | nil => exact fun _ hx => hx
    | cons i is ih => exact fun x hx => ih _ (hchain (x.hashTable i) x hx)
  unfold DedupState.gc
  split
  · exact ⟨h, fun _ => rfl⟩
  · exact htables _ d ⟨h, fun _ => rfl⟩

/-- `TagFS_DedupRegister` makes an entry with one reference, or changes one without its references. -/
theorem DedupState.Sound.register (h : d.Sound) (b : Nat) (hash : DedupHash) (tagContext now : Nat) :
    (d.register b hash tagContext now).Sound ∧ ∀ c, (d.register b hash tagContext now).refs c = d.refs c := by
  have hone := (register_spec d b hash tagContext now).2 h.one
  by_cases hout : b = 0 ∨ d.initialized = false
  · have hsame : d.register b hash tagContext now = d := if_pos hout
    rw [hsame]
    exact ⟨h, fun _ => rfl⟩
  obtain ⟨hother, ⟨e, hself, href⟩, hinit, -⟩ := register_finds hout hash tagContext now
  refine ⟨⟨hone, fun c x hx => ?_⟩, fun c => ?_⟩
  · rcases eq_or_ne c b with rfl | hc
    · rw [hself] at hx
      rw [← some.inj hx, href]
      cases hfind : d.findByBlock c with
      | none => exact le_refl 1
      | some y => exact h.pos c y hfind
    · rw [hother c hc] at hx
      exact h.pos c x hx
  · unfold refs
    rw [hinit]
    rcases eq_or_ne c b with rfl | hc
    · rw [if_neg hout, if_neg hout, hself]
      exact href
    · rw [hother c hc]

theorem DedupState.Sound.registerTrying (h : d.Sound) (b : Nat) (hash : DedupHash) (tagContext now : Nat)
    (first second : Bool) : (d.registerTrying b hash tagContext now first second).Sound ∧
    ∀ c, (d.registerTrying b hash tagContext now first second).refs c = d.refs c := by
  unfold DedupState.registerTrying
  split
  · exact h.register b hash tagContext now
  split
  · exact ⟨h, fun _ => rfl⟩
  obtain ⟨hsound, hrefs⟩ := h.gc now
  dsimp only
  split
  · obtain ⟨hsound', hrefs'⟩ := hsound.register b hash tagContext now
    exact ⟨hsound', fun c => (hrefs' c).trans (hrefs c)⟩
  · exact ⟨hsound, hrefs⟩

end index

/-! ## The space -/

/-- The list of free extents lists free blocks, each of them once. -/
structure Space.Lax (s : Space) : Prop where
  inside : s.totalBlocks ≤ s.bitmap.length * 8
  tidy : Tidy s.freeList
  free : ∀ b, Covers s.freeList b → s.IsFree b

section space

variable {s : Space} {d : DedupState} {start count c : Nat}

theorem Space.Inv.lax (h : s.Inv) : s.Lax :=
  ⟨h.inside, h.tidy, fun b => (h.covers b).mp⟩

theorem Space.Lax.alloc (h : s.Lax) {s' : Space} (ha : s.allocBlocks count = some (start, s')) :
    s'.Lax ∧ (∀ b, s'.Holds b ↔ s.Holds b ∨ (start ≤ b ∧ b < start + count)) ∧
    (∀ b, start ≤ b → b < start + count → ¬ s.Holds b) ∧
    ∀ b, Covers s'.freeList b ↔ Covers s.freeList b ∧ ¬ (start ≤ b ∧ b < start + count) := by
  unfold Space.allocBlocks at ha
  split at ha
  · cases ha
  next hcount =>
  unfold Space.allocBlocksInternal at ha
  split at ha
  · cases ha
  next cur list hfit =>
  obtain ⟨before, after, hl, hle, hl'⟩ := firstFit_some hfit
  obtain ⟨rfl, rfl⟩ := ha
  have hcover : ∀ b, cur.start ≤ b → b < cur.start + count → Covers s.freeList b := fun b h1 h2 =>
    ⟨cur, by rw [hl]; simp, h1, by unfold Extent.stop; omega⟩
  have hlast := (h.free (cur.start + count - 1) (hcover _ (by omega) (by omega))).1
  have hbits : ∀ b, bitAt (setRun s.bitmap cur.start count) b =
      (bitAt s.bitmap b || decide (cur.start ≤ b ∧ b < cur.start + count)) := bitAt_setRun (by have := h.inside; omega)
  have hcovers : ∀ b, Covers list b ↔ Covers s.freeList b ∧ ¬ (cur.start ≤ b ∧ b < cur.start + count) := fun b => by
    rw [hl', takeFront_covers (hl ▸ h.tidy) hle, ← hl]
  refine ⟨⟨by simpa using h.inside, by rw [hl']; exact takeFront_tidy (hl ▸ h.tidy) hle, fun b hb => ?_⟩, fun b => ?_,
    fun b h1 h2 hold => ?_, hcovers⟩
  · obtain ⟨hold, hout⟩ := (hcovers b).mp hb
    obtain ⟨hlt, hbit⟩ := h.free b hold
    exact ⟨hlt, by rw [hbits, hbit]; simpa using hout⟩
  · unfold Space.Holds
    dsimp only
    rw [hbits, Bool.or_eq_true, decide_eq_true_eq]
    constructor
    · rintro ⟨hlt, hbit | hin⟩
      · exact .inl ⟨hlt, hbit⟩
      · exact .inr hin
    · rintro (⟨hlt, hbit⟩ | hin)
      · exact ⟨hlt, .inl hbit⟩
      · exact ⟨by omega, .inr hin⟩
  · have hfree := (h.free b (hcover b h1 h2)).2
    rw [hold.2] at hfree
    cases hfree

/-- A run that is given back: its blocks are free, and in the list if there is memory. -/
theorem Space.Lax.freeRun (h : s.Lax) (mem : Bool) (ht : s.Taken start count) :
    (s.freeRunTrying mem start count).Lax ∧ (s.freeRunTrying mem start count).totalBlocks = s.totalBlocks ∧ (∀ b,
    bitAt (s.freeRunTrying mem start count).bitmap b = (bitAt s.bitmap b && !decide (start ≤ b ∧ b < start + count))) ∧
    (∀ b, Covers (s.freeRunTrying mem start count).freeList b → Covers s.freeList b ∨ (start ≤ b ∧ b < start + count)) ∧
    (∀ b, Covers s.freeList b → Covers (s.freeRunTrying mem start count).freeList b) ∧
    (mem = true → ∀ b, start ≤ b → b < start + count → Covers (s.freeRunTrying mem start count).freeList b) := by
  unfold Space.freeRunTrying
  by_cases hzero : count = 0
  · rw [if_pos hzero]
    refine ⟨h, rfl, fun b => ?_, fun b => .inl, fun b => id, fun _ b h1 h2 => by omega⟩
    have hout : decide (start ≤ b ∧ b < start + count) = false := by
      simp
      omega
    simp [hout]
  rw [if_neg hzero]
  have hbits : ∀ b,
    bitAt (clearRun s.bitmap start count) b = (bitAt s.bitmap b && !decide (start ≤ b ∧ b < start + count)) :=
    bitAt_clearRun (by have := ht.1; have := h.inside; omega)
  have hout : ∀ b, start ≤ b → b < start + count → ¬ Covers s.freeList b := by
    intro b h1 h2 hcov
    have hfree := (h.free b hcov).2
    rw [ht.2 b h1 h2] at hfree
    cases hfree
  have hmerged := insertRun_merged h.tidy (Nat.pos_of_ne_zero hzero) s.extentCount hout
  have hlax : ∀ list : List FreeExtent, Tidy list →
      (∀ b, Covers list b → Covers s.freeList b ∨ (start ≤ b ∧ b < start + count)) → ∀ n,
      Space.Lax { s with
        bitmap := clearRun s.bitmap start count, freeBlocks := s.freeBlocks + count, freeList := list,
        extentCount := n } := by
    intro list htidy hcov n
    refine ⟨by simpa using h.inside, htidy, fun b hb => ?_⟩
    rcases hcov b hb with hold | hin
    · obtain ⟨hlt, hbit⟩ := h.free b hold
      exact ⟨hlt, by simp [hbits, hbit]⟩
    · exact ⟨by have := ht.1; show b < s.totalBlocks; omega, by simp [hbits, hin]⟩
  unfold insertRunTrying
  dsimp only
  split
  · next hlost =>
    exact ⟨hlax _ h.tidy (fun b => .inl) _, rfl, hbits, fun b => .inl, fun b => id,
      fun hmem => by rw [hlost.2.2] at hmem; cases hmem⟩
  · have hcov := hmerged.covers
    exact ⟨hlax _ hmerged.tidy (fun b hb => (hcov b).mp hb) _, rfl, hbits, fun b hb => (hcov b).mp hb,
      fun b hb => (hcov b).mpr (.inl hb), fun _ b h1 h2 => (hcov b).mpr (.inr ⟨h1, h2⟩)⟩

/-- The blocks of `G` are given back, and come into the list if `served`. -/
structure GivesBack (served : Prop) (s s' : Space) (G : Nat → Prop) : Prop where
  lax : s'.Lax
  holds : ∀ b, s'.Holds b ↔ s.Holds b ∧ ¬ G b
  listed : ∀ b, Covers s'.freeList b → Covers s.freeList b ∨ G b
  keeps : ∀ b, Covers s.freeList b → Covers s'.freeList b
  lists : served → ∀ b, G b → Covers s'.freeList b

variable {served : Prop} {s' s'' : Space} {G G' : Nat → Prop}

theorem Space.Lax.givesBack (h : s.Lax) : GivesBack served s s fun _ => False :=
  ⟨h, fun _ => by simp, fun _ => .inl, fun _ => id, fun _ _ => False.elim⟩

theorem GivesBack.congr (h : GivesBack served s s' G) (heq : ∀ b, G' b ↔ G b) : GivesBack served s s' G' := by
  have hG : G' = G := funext fun b => propext (heq b)
  rw [hG]
  exact h

theorem GivesBack.trans (h : GivesBack served s s' G) (h' : GivesBack served s' s'' G') :
    GivesBack served s s'' fun b => G b ∨ G' b := by
  refine ⟨h'.lax, fun b => ?_, fun b hb => ?_, fun b hb => h'.keeps b (h.keeps b hb), fun hs b hb => ?_⟩
  · rw [h'.holds, h.holds, not_or, and_assoc]
  · rcases h'.listed b hb with hb | hb
    · exact (h.listed b hb).imp_right .inl
    · exact .inr (.inr hb)
  · rcases hb with hb | hb
    · exact h'.keeps b (h.lists hs b hb)
    · exact h'.lists hs b hb

/-- The blocks from `start` to `stop` are held. -/
def Space.HoldsRun (s : Space) (start stop : Nat) : Prop :=
  ∀ b, start ≤ b → b < stop → s.Holds b

theorem Space.Lax.freeRun_givesBack (h : s.Lax) (mem : Nat → Bool) {runStart runLen block : Nat}
    (hrun : runLen ≠ 0 → runStart + runLen = block) (hle : runLen ≤ block) (ht : s.HoldsRun (block - runLen) block) :
    GivesBack (∀ b, mem b = true) s (if runLen = 0 then s else s.freeRunTrying (mem runStart) runStart runLen) fun b =>
    block - runLen ≤ b ∧ b < block := by
  by_cases hzero : runLen = 0
  · rw [if_pos hzero]
    exact h.givesBack.congr fun b => iff_false_intro (by omega)
  rw [if_neg hzero]
  have hstart : block - runLen = runStart := by have := hrun hzero; omega
  have hstop := hrun hzero
  rw [hstart] at ht ⊢
  have hlast := (ht (block - 1) (by omega) (by omega)).1
  have htaken : s.Taken runStart runLen := ⟨by omega, fun b h1 h2 => (ht b h1 (by omega)).2⟩
  obtain ⟨hlax, htotal, hbits, hlisted, hkeeps, hlists⟩ := h.freeRun (mem runStart) htaken
  rw [hstop] at hbits hlisted hlists
  refine ⟨hlax, fun b => ?_, hlisted, hkeeps, fun hs b hb => hlists (hs runStart) b hb.1 hb.2⟩
  unfold Space.Holds
  rw [htotal, hbits, Bool.and_eq_true, Bool.not_eq_true', decide_eq_false_iff_not, and_assoc]

/-- The loop gives back the run gathered so far, and of the rest of the range the blocks with one reference. -/
theorem freeBlocksLoopTrying_spec (mem : Nat → Bool) (now : Nat) (n block runStart runLen : Nat) (s : Space)
    (d : DedupState) (hs : s.Lax) (hd : d.Sound) (hrun : runLen ≠ 0 → runStart + runLen = block) (hle : runLen ≤ block)
    (ht : s.HoldsRun (block - runLen) (block + n)) :
    GivesBack (∀ b, mem b = true) s (s.freeBlocksLoopTrying mem now n block runStart runLen d).1 (fun b =>
    (block - runLen ≤ b ∧ b < block) ∨ (block ≤ b ∧ b < block + n ∧ d.refs b = 1)) ∧
    (s.freeBlocksLoopTrying mem now n block runStart runLen d).2.Sound ∧
    ∀ b, (s.freeBlocksLoopTrying mem now n block runStart runLen d).2.refs b = if block ≤ b ∧ b < block + n ∧
    1 < d.refs b then d.refs b - 1 else d.refs b := by
  induction n generalizing block runStart runLen s d with
  | zero =>
    refine ⟨(hs.freeRun_givesBack mem hrun hle ht).congr fun b => or_iff_left (by omega), hd, fun b => ?_⟩
    rw [if_neg (by omega)]
    rfl
  | succ n ih =>
    obtain ⟨hone, hd', hrefs⟩ := hd.unregister block now
    have hpos := hd.refs_pos block
    rw [Space.freeBlocksLoopTrying]
    generalize d.unregister block now = r at hone hd' hrefs ⊢
    obtain ⟨reclaim, d'⟩ := r
    cases reclaim with
    | true =>
      have hlast : d.refs block = 1 := of_decide_eq_true hone.symm
      have hsame : ∀ b, d'.refs b = d.refs b := fun b => by rw [hrefs, if_neg (by omega)]
      obtain ⟨hback, hsound, hafter⟩ := ih (block + 1) (if runLen = 0 then block else runStart) (runLen + 1) s d' hs hd'
        (fun _ => by split <;> omega) (by omega) fun b h1 h2 => ht b (by omega) (by omega)
      refine ⟨hback.congr fun b => ?_, hsound, fun b => ?_⟩
      · rw [hsame]
        rcases eq_or_ne b block with rfl | hne
        · simp [hlast]
        · omega
      · rw [hafter, hsame]
        rcases eq_or_ne b block with rfl | hne
        · rw [if_neg (by omega), if_neg (by omega)]
        · exact if_congr (by omega) rfl rfl
    | false =>
      have hmore : d.refs block ≠ 1 := of_decide_eq_false hone.symm
      have hflush := hs.freeRun_givesBack mem hrun hle fun b h1 h2 => ht b h1 (by omega)
      obtain ⟨hback, hsound, hafter⟩ := ih (block + 1) runStart 0 _ d' hflush.lax hd' (fun h => absurd rfl h) (by omega)
        fun b h1 h2 => (hflush.holds b).mpr ⟨ht b (by omega) (by omega), by omega⟩
      refine ⟨(hflush.trans hback).congr fun b => ?_, hsound, fun b => ?_⟩
      · rw [hrefs]
        rcases eq_or_ne b block with rfl | hne
        · simp [hmore]
        · rw [if_neg (by omega)]
          omega
      · rw [hafter, hrefs]
        rcases eq_or_ne b block with rfl | hne
        · rw [if_neg (by omega), if_pos (by omega), if_pos (by omega)]
        · rw [if_neg (by omega : ¬ (b = block ∧ 1 < d.refs block))]
          exact if_congr (by omega) rfl rfl

theorem freeBlocksTrying_spec (mem : Nat → Bool) (now : Nat) (hs : s.Lax) (hd : d.Sound) (ht : s.Taken start count) :
    GivesBack (∀ b, mem b = true) s (s.freeBlocksTrying mem d now start count).1 (fun b =>
      start ≤ b ∧ b < start + count ∧ d.refs b = 1) ∧
    (s.freeBlocksTrying mem d now start count).2.Sound ∧
    ∀ b, (s.freeBlocksTrying mem d now start count).2.refs b =
      if start ≤ b ∧ b < start + count ∧ 1 < d.refs b then d.refs b - 1 else d.refs b := by
  unfold Space.freeBlocksTrying
  by_cases hzero : count = 0
  · rw [if_pos hzero]
    exact ⟨hs.givesBack.congr fun b => iff_false_intro (by omega), hd, fun b => (if_neg (by omega)).symm⟩
  rw [if_neg hzero]
  obtain ⟨hback, hsound, hrefs⟩ :=
    freeBlocksLoopTrying_spec mem now count start start 0 s d hs hd (fun h => absurd rfl h)
      (Nat.zero_le _) fun b h1 h2 => ⟨h2.trans_le ht.1, ht.2 b h1 h2⟩
  exact ⟨hback.congr fun b => (or_iff_right (by omega)).symm, hsound, hrefs⟩

end space

/-! ## Runs -/

namespace RefWorld

/-- The references of a block that is held are those that were added and not given up, and one. -/
structure Ok (w : RefWorld) : Prop where
  lax : w.space.Lax
  sound : w.dedup.Sound
  counts : ∀ b, w.space.Holds b → w.dedup.refs b + w.freed b = w.added b + 1
  unheld : ∀ b, ¬ w.space.Holds b → w.dedup.refs b = 1

variable {w : RefWorld} {start count now : Nat} {mem : Nat → Bool}

theorem Ok.index (h : w.Ok) {d : DedupState} (hd : d.Sound) (hrefs : ∀ b, d.refs b = w.dedup.refs b) :
    Ok { w with dedup := d } :=
  ⟨h.lax, hd, fun b hb => by rw [hrefs]; exact h.counts b hb, fun b hb => by rw [hrefs]; exact h.unheld b hb⟩

theorem Ok.forget (h : w.Ok) (hone : ∀ b, start ≤ b → b < start + count → w.dedup.refs b = 1) :
    (w.forget start count).Ok := by
  refine ⟨h.lax, h.sound, fun b hb => ?_, h.unheld⟩
  show w.dedup.refs b + (if _ then 0 else w.freed b) = (if _ then 0 else w.added b) + 1
  by_cases hin : start ≤ b ∧ b < start + count
  · rw [if_pos hin, if_pos hin, hone b hin.1 hin.2]
  · rw [if_neg hin, if_neg hin]
    exact h.counts b hb

theorem Ok.alloc (h : w.Ok) (count : Nat) : (w.step (.alloc count)).Ok := by
  unfold step
  dsimp only
  cases halloc : w.space.allocBlocks count with
  | none => exact h
  | some r =>
    obtain ⟨start, space⟩ := r
    obtain ⟨hlax, hholds, hfree, -⟩ := h.lax.alloc halloc
    refine ⟨hlax, h.sound, fun b hb => ?_, fun b hb => h.unheld b fun hold => hb ((hholds b).mpr (.inl hold))⟩
    show w.dedup.refs b + (if _ then 0 else w.freed b) = (if _ then 0 else w.added b) + 1
    by_cases hin : start ≤ b ∧ b < start + count
    · rw [if_pos hin, if_pos hin, h.unheld b (hfree b hin.1 hin.2)]
    · rw [if_neg hin, if_neg hin]
      exact h.counts b (((hholds b).mp hb).resolve_right hin)

theorem Ok.free (h : w.Ok) (ht : w.space.Taken start count) :
    (w.step (.free start count now mem)).Ok ∧
    GivesBack (∀ b, mem b = true) w.space (w.step (.free start count now mem)).space (fun b =>
      start ≤ b ∧ b < start + count ∧ w.freed b = w.added b) := by
  obtain ⟨hback, hsound, hrefs⟩ := freeBlocksTrying_spec mem now h.lax h.sound ht
  have hheld : ∀ b, start ≤ b → b < start + count → w.space.Holds b := fun b h1 h2 => ⟨h2.trans_le ht.1, ht.2 b h1 h2⟩
  have hlast : ∀ b, start ≤ b → b < start + count → (w.dedup.refs b = 1 ↔ w.freed b = w.added b) := fun b h1 h2 => by
    have hcount := h.counts b (hheld b h1 h2)
    omega
  refine ⟨⟨hback.lax, hsound, fun b hb => ?_, fun b hb => ?_⟩, hback.congr fun b => ?_⟩
  · obtain ⟨hb, hnot⟩ := (hback.holds b).mp hb
    have hpos := h.sound.refs_pos b
    have hcount := h.counts b hb
    show refs (w.space.freeBlocksTrying mem w.dedup now start count).2 b +
      (if start ≤ b ∧ b < start + count then w.freed b + 1 else w.freed b) = w.added b + 1
    rw [hrefs]
    by_cases hin : start ≤ b ∧ b < start + count
    · rw [if_pos (by omega), if_pos hin]
      omega
    · rw [if_neg (by omega), if_neg hin]
      exact hcount
  · show refs (w.space.freeBlocksTrying mem w.dedup now start count).2 b = 1
    rw [hrefs]
    by_cases hold : w.space.Holds b
    · have hin := not_not.mp fun hn => hb ((hback.holds b).mpr ⟨hold, hn⟩)
      rw [if_neg (by omega)]
      exact hin.2.2
    · rw [if_neg fun hin => hold (hheld b hin.1 hin.2.1)]
      exact h.unheld b hold
  · constructor
    · rintro ⟨h1, h2, h3⟩
      exact ⟨h1, h2, (hlast b h1 h2).mpr h3⟩
    · rintro ⟨h1, h2, h3⟩
      exact ⟨h1, h2, (hlast b h1 h2).mp h3⟩

theorem Ok.step (h : w.Ok) {call : RefCall} (hcall : w.Allowed call) : (w.step call).Ok := by
  cases call with
  | alloc count => exact h.alloc count
  | register block hash tagContext now first second =>
    obtain ⟨hsound, hrefs⟩ := h.sound.registerTrying block hash tagContext now first second
    unfold RefWorld.step
    dsimp only
    split
    · next hnew =>
      refine Ok.forget (h.index hsound hrefs) fun b h1 h2 => ?_
      obtain rfl : b = block := by omega
      simp only [Bool.and_eq_true, isNone_iff_eq_none] at hnew
      rw [hrefs]
      simp [refs, hnew.1]
    · exact h.index hsound hrefs
  | addRef block now =>
    obtain ⟨hsound, hrefs⟩ := h.sound.addRef block now
    unfold RefWorld.step
    dsimp only
    generalize w.dedup.addRef block now = r at hsound hrefs ⊢
    obtain ⟨ok, d⟩ := r
    cases ok with
    | false => exact h.index hsound fun b => by rw [hrefs]; simp
    | true =>
      refine ⟨h.lax, hsound, fun b hb => ?_, fun b hb => ?_⟩
      · show d.refs b + w.freed b = Function.update w.added block (w.added block + 1) b + 1
        have hcount := h.counts b hb
        rw [hrefs]
        rcases eq_or_ne b block with rfl | hne
        · rw [if_pos ⟨rfl, rfl⟩, Function.update_self]
          omega
        · rw [if_neg (by simp [hne]), Function.update_of_ne hne]
          exact hcount
      · have hne : b ≠ block := fun e => hb (e ▸ hcall)
        rw [hrefs, if_neg (by simp [hne])]
        exact h.unheld b hb
  | gc now =>
    obtain ⟨hsound, hrefs⟩ := h.sound.gc now
    exact h.index hsound hrefs
  | free start count now mem => exact (h.free hcall).1

theorem mounted_ok {space : Space} (h : space.Inv) (initialized : Bool) : (mounted space initialized).Ok := by
  have hrefs : ∀ b, (mounted space initialized).dedup.refs b = 1 := by
    intro b
    unfold refs mounted findByBlock
    split <;> rfl
  refine ⟨h.lax, ⟨fun k => List.nodup_nil, fun b e he => ?_⟩, fun b _ => by rw [hrefs]; rfl, fun b _ => hrefs b⟩
  simp [mounted, findByBlock] at he

theorem Run.ok (h : w.Run) : w.Ok := by
  induction h with
  | mounted space initialized h => exact mounted_ok h initialized
  | step call _ hcall ih => exact ih.step hcall

theorem Ok.taken_by_alloc (h : w.Ok) {call : RefCall} (hcall : w.Allowed call) {b : Nat} (hb : ¬ w.space.Holds b)
    (hb' : (w.step call).space.Holds b) : ∃ count, call = .alloc count := by
  cases call with
  | alloc count => exact ⟨count, rfl⟩
  | register | addRef =>
    unfold RefWorld.step at hb'
    dsimp only at hb'
    split at hb' <;> exact absurd hb' hb
  | gc now => exact absurd hb' hb
  | free start count now mem => exact absurd (((h.free hcall).2.holds b).mp hb').1 hb

theorem Ok.taken_between (calls : List RefCall) (h : w.Ok) (hcalls : w.AllAllowed calls) {b : Nat}
    (hb : ¬ w.space.Holds b) (hb' : (w.steps calls).space.Holds b) :
    ∃ before count after, calls = before ++ .alloc count :: after ∧ ¬ (w.steps before).space.Holds b ∧
    ((w.steps before).step (.alloc count)).space.Holds b := by
  induction calls generalizing w with
  | nil => exact absurd hb' hb
  | cons call calls ih =>
    obtain ⟨hcall, hrest⟩ := hcalls
    by_cases hnext : (w.step call).space.Holds b
    · obtain ⟨count, rfl⟩ := h.taken_by_alloc hcall hb hnext
      exact ⟨[], count, calls, rfl, hb, hnext⟩
    · obtain ⟨before, count, after, rfl, hbefore, hafter⟩ := ih (h.step hcall) hrest hnext hb'
      exact ⟨call :: before, count, after, rfl, hbefore, hafter⟩

theorem taken_one {s : Space} {b : Nat} (hb : s.Holds b) : s.Taken b 1 :=
  ⟨hb.1, fun c h1 h2 => (show c = b by omega) ▸ hb.2⟩

theorem Ok.frees_holds (n : Nat) (h : w.Ok) {b : Nat} (hb : w.space.Holds b) (hn : n + w.freed b ≤ w.added b + 1) :
    (frees now b mem n w).space.Holds b ↔ n + w.freed b ≤ w.added b := by
  induction n generalizing w with
  | zero =>
    have hcount := h.counts b hb
    have hpos := h.sound.refs_pos b
    exact iff_of_true hb (by omega)
  | succ n ih =>
    have htaken : w.space.Taken b 1 := taken_one hb
    obtain ⟨hok, hback⟩ : (w.step (.free b 1 now mem)).Ok ∧ _ := h.free htaken
    have hfreed : (w.step (.free b 1 now mem)).freed b = w.freed b + 1 := if_pos ⟨le_refl b, Nat.lt_succ_self b⟩
    have hadded : (w.step (.free b 1 now mem)).added b = w.added b := rfl
    by_cases hlast : w.freed b = w.added b
    · obtain rfl : n = 0 := by omega
      refine iff_of_false (fun hheld => ?_) (by omega)
      exact ((hback.holds b).mp hheld).2 ⟨le_refl b, Nat.lt_succ_self b, hlast⟩
    · have hheld : (w.step (.free b 1 now mem)).space.Holds b := (hback.holds b).mpr ⟨hb, fun hin => hlast hin.2.2⟩
      rw [frees, ih hok hheld (by omega), hfreed, hadded]
      omega

/-- In every run a free of allocated blocks reclaims those that were freed as often before as references were added, and
lists them if there is memory for the extents; a listed block is not held; and `TagFS_DedupGC` does not change which
free reclaims a block. -/
theorem shared_blocks_counted (w : RefWorld) (h : w.Run) :
    (∀ start count now mem, w.space.Taken start count →
      (∀ b, start ≤ b → b < start + count →
        (¬ (w.step (.free start count now mem)).space.Holds b ↔ w.freed b = w.added b)) ∧
      (∀ b, (w.step (.free start count now mem)).Listed b →
        w.Listed b ∨ start ≤ b ∧ b < start + count ∧ w.freed b = w.added b) ∧
      ((∀ b, mem b = true) → ∀ b, start ≤ b → b < start + count →
        ((w.step (.free start count now mem)).Listed b ↔ w.freed b = w.added b))) ∧
    (Tidy w.space.freeList ∧ ∀ b, w.Listed b → ¬ w.space.Holds b) ∧
    (∀ calls b, w.AllAllowed calls → ¬ w.space.Holds b → (w.steps calls).space.Holds b →
      ∃ before count after, calls = before ++ .alloc count :: after ∧ ¬ (w.steps before).space.Holds b ∧
        ((w.steps before).step (.alloc count)).space.Holds b) ∧
    ∀ gcNow now mem b n, w.space.Holds b → n + w.freed b ≤ w.added b + 1 →
      ((frees now b mem n (w.step (.gc gcNow))).space.Holds b ↔ (frees now b mem n w).space.Holds b) := by
  have hok := h.ok
  have hlisted : ∀ b, w.Listed b → ¬ w.space.Holds b := fun b hb hheld => by
    have hfree := (hok.lax.free b hb).2
    rw [hheld.2] at hfree
    cases hfree
  refine ⟨fun start count now mem ht => ?_, ⟨hok.lax.tidy, hlisted⟩,
    fun calls b hcalls => hok.taken_between calls hcalls, fun gcNow now mem b n hb hn => ?_⟩
  · obtain ⟨-, hback⟩ : (w.step (.free start count now mem)).Ok ∧ _ := hok.free ht
    have hheld : ∀ b, start ≤ b → b < start + count → w.space.Holds b :=
      fun b h1 h2 => ⟨lt_of_lt_of_le h2 ht.1, ht.2 b h1 h2⟩
    refine ⟨fun b h1 h2 => ?_, hback.listed,
      fun hmem b h1 h2 => ⟨fun hb => ?_, fun heq => hback.lists hmem b ⟨h1, h2, heq⟩⟩⟩
    · rw [hback.holds, not_and, not_not]
      exact ⟨fun hin => (hin (hheld b h1 h2)).2.2, fun heq _ => ⟨h1, h2, heq⟩⟩
    · rcases hback.listed b hb with hold | hin
      · exact absurd (hheld b h1 h2) (hlisted b hold)
      · exact hin.2.2
  · have hgc : (w.step (.gc gcNow)).Ok := hok.step trivial
    rw [hok.frees_holds n hb hn, hgc.frees_holds n hb hn]
    exact Iff.rfl

/-- A volume of eight blocks with the first four taken. -/
def halfTaken : Space := ⟨[0x0F], 8, [⟨4, 4⟩], 1, 4⟩

theorem halfTaken_inv : halfTaken.Inv :=
  (mountSpace_inv (by decide) (show mountSpace 8 (fun _ => 0x0F) = some halfTaken by decide)).1

/-- Block 1 in the index, with one reference added. -/
def oneAdded : RefWorld :=
  (mounted halfTaken true).steps [.register 1 [1, 2, 3, 4] 0 100 true true, .addRef 1 101]

theorem oneAdded_run : oneAdded.Run :=
  .step (.addRef 1 101) (.step (.register 1 [1, 2, 3, 4] 0 100 true true) (.mounted halfTaken true halfTaken_inv)
    (show halfTaken.Holds 1 by decide)) (show Space.Holds _ 1 by decide)

/-- The second free of a block with one reference added reclaims it, also after a garbage collection. -/
theorem shared_blocks_counted_one : (oneAdded.step (.free 1 1 102 fun _ => true)).space.Holds 1 ∧
    ¬ (frees 9000 1 (fun _ => true) 2 (oneAdded.step (.gc 8000))).space.Holds 1 := by
  obtain ⟨hfree, -, -, hgc⟩ := shared_blocks_counted oneAdded oneAdded_run
  refine ⟨?_, fun hheld => ?_⟩
  · have hone := ((hfree 1 1 102 (fun _ => true) (taken_one (by decide))).1 1 (by decide) (by decide)).not
    exact not_not.mp (hone.mpr (by decide))
  · exact absurd ((hgc 8000 9000 (fun _ => true) 1 2 (by decide) (by decide)).mp hheld) (by decide)

/-- After `1 + 0` references were added the first free does not reclaim the block, and where there is no memory for an
extent the free that reclaims a block does not put it into the list. -/
theorem first_free_keeps_block :
    let lost := (mounted halfTaken true).step (.free 1 1 102 fun _ => false)
    (oneAdded.step (.free 1 1 102 fun _ => true)).space.Holds 1 ∧ ¬ lost.space.Holds 1 ∧ ¬ lost.Listed 1 := by
  refine ⟨by decide, by decide, fun hlisted => ?_⟩
  obtain ⟨e, he, hb⟩ := hlisted
  revert e
  decide

end RefWorld

end BoxOS.TagFS
