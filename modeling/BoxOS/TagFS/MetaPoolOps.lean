import BoxOS.TagFS.MetaPoolInv

/-!
# The operations of the metadata pool

`MetaPool.Inv`: the chain in memory is the chain on the medium with the current block laid over it, and each of its
links is in order. Every operation keeps it, whichever of its block reads and writes fail (`write_inv`, `delete_inv`,
`flush_inv`, `flushRetires_inv`), and gives back only blocks with no undeleted record.
-/

open Function (update update_of_ne update_self)

namespace BoxOS.TagFS

open Lib List MetaPoolBlock MetaPool

/-- The links of pool blocks. -/
def poolFormat : ChainFormat MetaPoolBlock := ⟨fun blk => blk.magic == mpoolMagic, (·.nextBlock)⟩

/-- The blocks of the medium with the current block laid over them. -/
def MetaPool.content (p : MetaPool) (block : Nat) : MetaPoolBlock :=
  if block = p.currentNum then p.current else decode (p.medium block)

/-- The blocks of the chain in memory. -/
def MetaPool.blocks (p : MetaPool) : List Nat := p.chain.map (·.block)

/-- The invariant of a pool whose chain starts at `first` and in which the records of `live` have been written and not
deleted since. -/
structure MetaPool.Inv (p : MetaPool) (first : Nat) (live : Nat × Nat → Option TagFSMetadata) : Prop where
  space : p.space.Inv
  bound : p.space.totalBlocks < 2 ^ 32
  zero : p.space.Holds 0
  first : p.blocks.head? = some first
  last : p.blocks.getLast? = some p.currentNum
  currentKept : ⟨p.currentNum, p.current.kept⟩ ∈ p.chain
  nodup : p.blocks.Nodup
  holds : ∀ b ∈ p.blocks, p.space.Holds b
  tail : 0 ∉ p.blocks.tail
  linked : poolFormat.Linked p.content p.blocks
  links : ∀ link ∈ p.chain, LinkOk p.space.totalBlocks p.retire live link.block (p.content link.block) link.kept
  owed : ∀ r ∈ p.retire, r.1 ∈ p.blocks ∧ r.1 ≠ p.currentNum
  live : ∀ b off m, live (b, off) = some m → b ∈ p.blocks

/-- The undeleted records of a block of the pool. -/
def MetaPool.undeleted (p : MetaPool) (block : Nat) : Nat := TagFS.undeleted p.retire block (p.content block)

section Facts

variable {p : MetaPool} {first : Nat} {live : Nat × Nat → Option TagFSMetadata}

theorem MetaPool.content_current (p : MetaPool) : p.content p.currentNum = p.current := if_pos rfl

theorem MetaPool.content_of_ne {b : Nat} (h : b ≠ p.currentNum) : p.content b = decode (p.medium b) := if_neg h

theorem MetaPool.Inv.withIo (h : p.Inv first live) (io : List Bool) : ({ p with io := io }).Inv first live :=
  ⟨h.space, h.bound, h.zero, h.first, h.last, h.currentKept, h.nodup, h.holds, h.tail, h.linked,
     h.links, h.owed, h.live⟩

theorem MetaPool.Inv.current (h : p.Inv first live) :
    LinkOk p.space.totalBlocks p.retire live p.currentNum p.current p.current.kept := by
  simpa only [p.content_current] using h.links _ h.currentKept

theorem MetaPool.Inv.current_paid (h : p.Inv first live) (off : Nat) : (p.currentNum, off) ∉ p.retire :=
  fun hoff => (h.owed _ hoff).2 rfl

variable {before after : List MetaPoolLink} {link : MetaPoolLink} {block : Nat}

theorem nodup_split (h : ((before ++ link :: after).map (·.block)).Nodup) :
    (∀ l ∈ before, l.block ≠ link.block) ∧ ∀ l ∈ after, l.block ≠ link.block := by
  rw [map_append, map_cons, nodup_append] at h
  obtain ⟨-, hafter, hdis⟩ := h
  refine ⟨fun l hl => hdis _ (mem_map_of_mem hl) _ mem_cons_self, fun l hl heq => ?_⟩
  exact (nodup_cons.mp hafter).1 (heq ▸ mem_map_of_mem hl)

theorem MetaPool.Inv.chain_eq (h : p.Inv first live) :
    ∃ before, p.chain = before ++ [⟨p.currentNum, p.current.kept⟩] := by
  obtain ⟨before, after, hsplit⟩ := append_of_mem h.currentKept
  have hnd := h.nodup
  have hlast := h.last
  rw [MetaPool.blocks, hsplit] at hnd hlast
  rcases eq_nil_or_concat after with rfl | ⟨rest, link, rfl⟩
  · exact ⟨before, hsplit⟩
  refine absurd ?_ ((nodup_split hnd).2 link (by simp))
  rw [concat_eq_append, ← cons_append, ← append_assoc, map_append, map_singleton,
    getLast?_concat] at hlast
  exact Option.some.inj hlast

theorem MetaPool.Inv.current_next (h : p.Inv first live) : p.current.nextBlock = 0 := by
  obtain ⟨before, hlast⟩ := h.chain_eq
  have hl := h.linked
  rw [MetaPool.blocks, hlast, map_append] at hl
  have := (ChainFormat.linked_append.mp hl).2.2.1
  simpa only [poolFormat, p.content_current, map_nil, headD_nil] using this

theorem MetaPool.Inv.link_of_mem (h : p.Inv first live) {b : Nat} (hb : b ∈ p.blocks) :
    ∃ before after, p.chain = before ++ ⟨b, p.undeleted b⟩ :: after := by
  obtain ⟨link, hlink, rfl⟩ := mem_map.mp hb
  obtain ⟨before, after, hsplit⟩ := append_of_mem hlink
  have : link = ⟨link.block, p.undeleted link.block⟩ := by
    rw [MetaPool.undeleted, ← (h.links link hlink).kept]
  exact ⟨before, after, this ▸ hsplit⟩

theorem MetaPool.chainFind_eq
    (hsplit : p.chain = before ++ link :: after) (hnd : p.blocks.Nodup) : p.chainFind link.block = before.length := by
  rw [MetaPool.blocks, hsplit] at hnd
  rw [chainFind, hsplit, findIdx_append, findIdx_eq_length.mpr]
  · simp [findIdx_cons]
  · intro l hl
    simpa using (nodup_split hnd).1 l hl

theorem MetaPool.chainFind_notMem {b : Nat} (h : b ∉ p.blocks) : p.chainFind b = p.chain.length := by
  rw [chainFind]
  refine findIdx_eq_length.mpr fun l hl => ?_
  have : l.block ≠ b := fun heq => h (heq ▸ mem_map_of_mem hl)
  simpa using this

theorem MetaPool.setKept_chain (hsplit : p.chain = before ++ link :: after)
    (kept : Nat) : (p.setKept before.length kept) = { p with chain := before ++ ⟨link.block, kept⟩ :: after } := by
  rw [setKept, hsplit, modify_eq_take_cons_drop (by simp)]
  simp

/-! ## Reading and writing blocks -/

theorem MetaPool.readBlock_spec (p : MetaPool) (block : Nat) : ∃ io, p.readBlock block = (none, { p with io := io }) ∨
    p.readBlock block = (some (p.medium block), { p with io := io }) := by
  unfold readBlock
  cases p.io with
  | nil => exact ⟨p.io, Or.inr rfl⟩
  | cons ok io =>
    cases ok with
    | false => exact ⟨io, Or.inl rfl⟩
    | true => exact ⟨io, Or.inr rfl⟩

theorem MetaPool.writeBlock_spec (p : MetaPool) (block : Nat) (b : Block) :
    ∃ io, p.writeBlock block b = (false, { p with io := io }) ∨
      p.writeBlock block b = (true, { p with medium := update p.medium block b, io := io }) := by
  unfold writeBlock
  cases p.io with
  | nil => exact ⟨[], Or.inr rfl⟩
  | cons ok io =>
    cases ok with
    | false => exact ⟨io, Or.inl rfl⟩
    | true => exact ⟨io, Or.inr rfl⟩

/-! ## One block changes -/

/-- The pool `p'` differs from `p` in what it says of one block of the chain. -/
structure ChangesAt (p p' : MetaPool) (live live' : Nat × Nat → Option TagFSMetadata) (block : Nat) : Prop where
  space : p'.space = p.space
  num : p'.currentNum = p.currentNum
  chain : ∃ before kept kept' after, p.chain = before ++ ⟨block, kept⟩ :: after ∧
    p'.chain = before ++ ⟨block, kept'⟩ :: after ∧
    LinkOk p.space.totalBlocks p'.retire live' block (p'.content block) kept'
  other : ∀ b, b ≠ block → p'.content b = p.content b
  next : (p'.content block).nextBlock = (p.content block).nextBlock
  kept : block = p.currentNum → (⟨block, p'.current.kept⟩ : MetaPoolLink) ∈ p'.chain
  retire : ∀ b off, b ≠ block → ((b, off) ∈ p'.retire ↔ (b, off) ∈ p.retire)
  paid : ∀ off, (block, off) ∈ p'.retire → block ≠ p.currentNum
  live : ∀ b off m, b ≠ block → live' (b, off) = some m → live (b, off) = some m

theorem ChangesAt.blocks {p' : MetaPool} {live' : Nat × Nat → Option TagFSMetadata}
    (hc : ChangesAt p p' live live' block) : p'.blocks = p.blocks := by
  obtain ⟨before, kept, kept', after, hchain, hchain', -⟩ := hc.chain
  rw [MetaPool.blocks, MetaPool.blocks, hchain, hchain']
  simp

theorem MetaPool.Inv.change (h : p.Inv first live) {p' : MetaPool} {live' : Nat × Nat → Option TagFSMetadata}
    {block : Nat} (hc : ChangesAt p p' live live' block) : p'.Inv first live' := by
  have hblocks := hc.blocks
  obtain ⟨before, kept, kept', after, hchain, hchain', hlink⟩ := hc.chain
  have hnd : ((before ++ ⟨block, kept⟩ :: after).map (·.block)).Nodup := by
    have := h.nodup
    rwa [MetaPool.blocks, hchain] at this
  obtain ⟨hbefore, hafter⟩ := nodup_split hnd
  have hmem : block ∈ p.blocks := by
    rw [MetaPool.blocks, hchain]
    simp
  have hother : ∀ link ∈ p.chain, link.block ≠ block →
      LinkOk p.space.totalBlocks p'.retire live' link.block (p'.content link.block) link.kept := by
    intro link hl hne
    rw [hc.other _ hne]
    exact (h.links link hl).congr (fun off => hc.retire _ off hne) fun off m => hc.live _ off m hne
  refine ⟨by rw [hc.space]; exact h.space, by rw [hc.space]; exact h.bound, by rw [hc.space]; exact h.zero,
    by rw [hblocks]; exact h.first, by rw [hblocks, hc.num]; exact h.last, ?_, by rw [hblocks]; exact h.nodup,
    by rw [hblocks, hc.space]; exact h.holds, by rw [hblocks]; exact h.tail, ?_, ?_, ?_, ?_⟩
  · rw [hc.num]
    by_cases hcur : block = p.currentNum
    · exact hcur ▸ hc.kept hcur
    have hsame : p'.current = p.current := by
      have := hc.other p.currentNum (Ne.symm hcur)
      rwa [← hc.num, p'.content_current, hc.num, p.content_current] at this
    have hin := h.currentKept
    rw [hchain] at hin
    rw [hsame, hchain']
    simp only [mem_append, mem_cons, MetaPoolLink.mk.injEq] at hin ⊢
    have hne : p.currentNum ≠ block := Ne.symm hcur
    tauto
  · rw [hblocks]
    refine h.linked.congr_links fun b hb => ?_
    by_cases hbb : b = block
    · subst hbb
      have hold := h.links ⟨b, kept⟩ (by rw [hchain]; simp)
      refine ⟨?_, hc.next⟩
      simp only [poolFormat, hlink.magic, hold.magic]
    · rw [hc.other b hbb]
      exact ⟨rfl, rfl⟩
  · rw [hc.space, hchain']
    intro link hl
    rcases mem_append.mp hl with hl | hl
    · exact hother link (by rw [hchain]; exact mem_append_left _ hl) (hbefore link hl)
    · rcases mem_cons.mp hl with rfl | hl
      · exact hlink
      · exact hother link (by rw [hchain]; simp [hl]) (hafter link hl)
  · rw [hblocks, hc.num]
    rintro ⟨b, off⟩ hr
    by_cases hbb : b = block
    · subst hbb
      exact ⟨hmem, hc.paid off hr⟩
    · exact h.owed (b, off) ((hc.retire b off hbb).mp hr)
  · rw [hblocks]
    intro b off m hm
    by_cases hbb : b = block
    · exact hbb ▸ hmem
    · exact h.live b off m (hc.live b off m hbb hm)

theorem MetaPool.Inv.setCurrent (h : p.Inv first live) {p' : MetaPool} {live' : Nat × Nat → Option TagFSMetadata}
    (hspace : p'.space = p.space) (hnum : p'.currentNum = p.currentNum) (hmedium : p'.medium = p.medium)
    (hretire : p'.retire = p.retire) (hchain : ∀ before, p.chain = before ++ [⟨p.currentNum, p.current.kept⟩] →
    p'.chain = before ++ [⟨p.currentNum, p'.current.kept⟩])
    (hlink : LinkOk p.space.totalBlocks p.retire live' p.currentNum p'.current p'.current.kept)
    (hnext : p'.current.nextBlock = p.current.nextBlock)
    (hlive : ∀ b off m, b ≠ p.currentNum → live' (b, off) = some m → live (b, off) = some m) :
    p'.Inv first live' ∧ p'.blocks = p.blocks := by
  obtain ⟨before, hsplit⟩ := h.chain_eq
  have hcur : p'.content p.currentNum = p'.current := by rw [← hnum, p'.content_current]
  have hch : ChangesAt p p' live live' p.currentNum := {
    space := hspace
    num := hnum
    chain := ⟨before, _, _, [], hsplit, hchain before hsplit, by rw [hretire, hcur]; exact hlink⟩
    other := fun b hb => by rw [content_of_ne (hnum ▸ hb), content_of_ne hb, hmedium]
    next := by rw [hcur, p.content_current, hnext]
    kept := fun _ => by rw [hchain before hsplit]; simp
    retire := fun b off _ => by rw [hretire]
    paid := fun off hoff => absurd (hretire ▸ hoff) (h.current_paid off)
    live := hlive }
  exact ⟨h.change hch, hch.blocks⟩

/-! ## Space -/

theorem freeOne_spec {s : Space} (hs : s.Inv) {b : Nat} (hb : s.Holds b) (d : DedupState) (now : Nat) :
    (s.freeBlocksInternal d now b 1).1.Inv ∧ (s.freeBlocksInternal d now b 1).1.totalBlocks = s.totalBlocks ∧
      ∀ c, c ≠ b → s.Holds c → (s.freeBlocksInternal d now b 1).1.Holds c := by
  have htaken : s.Taken b 1 := by
    refine ⟨hb.1, fun c h1 h2 => ?_⟩
    obtain rfl : c = b := by omega
    exact hb.2
  obtain ⟨hinv, htot⟩ := freeBlocks_inv hs htaken d now
  have hcases : (s.freeBlocksInternal d now b 1).1 = s ∨ (s.freeBlocksInternal d now b 1).1 = s.freeRunLocked b 1 := by
    rw [Space.freeBlocksInternal, if_neg (by decide), Space.freeBlocksLoop]
    split
    · exact Or.inr rfl
    · exact Or.inl rfl
  refine ⟨hinv, htot, fun c hc hold => ?_⟩
  rcases hcases with heq | heq
  · rw [heq]
    exact hold
  rw [heq]
  refine ⟨by rw [freeRun_totalBlocks]; exact hold.1, ?_⟩
  rw [freeRun_bits hs htaken, hold.2]
  simp
  omega

theorem allocOne_spec {s s' : Space} (hs : s.Inv) {b : Nat} (h : s.allocBlocksInternal 1 = some (b, s')) :
    s'.Inv ∧ s'.totalBlocks = s.totalBlocks ∧ ¬ s.Holds b ∧ s'.Holds b ∧ ∀ c, s.Holds c → s'.Holds c := by
  obtain ⟨hin, hfree, htot, hbits⟩ := alloc_spec hs h
  refine ⟨alloc_inv hs h, htot, ?_, ⟨by omega, by rw [hbits]; simp⟩, ?_⟩
  · intro hc
    have := (hfree b (le_refl _) (by omega)).2
    rw [hc.2] at this
    cases this
  · rintro c ⟨hlt, hset⟩
    exact ⟨by omega, by rw [hbits, hset]; rfl⟩

theorem MetaPool.Inv.withSpace (h : p.Inv first live) {space : Space} {dedup : DedupState} (hs : space.Inv)
    (htot : space.totalBlocks = p.space.totalBlocks) (hholds : ∀ b, p.space.Holds b → space.Holds b) :
    ({ p with space := space, dedup := dedup }).Inv first live :=
  ⟨hs, htot ▸ h.bound, hholds 0 h.zero, h.first, h.last, h.currentKept, h.nodup, fun b hb => hholds b (h.holds b hb),
    h.tail, h.linked, fun link hl => htot ▸ h.links link hl, h.owed, h.live⟩

theorem MetaPool.Inv.withMedium (h : p.Inv first live) {medium : Medium}
    (hmedium : ∀ b ∈ p.blocks, b ≠ p.currentNum → medium b = p.medium b) :
    ({ p with medium := medium }).Inv first live := by
  have hcontent : ∀ b ∈ p.blocks, content { p with medium := medium } b = p.content b := by
    intro b hb
    by_cases hcur : b = p.currentNum
    · simp only [content, if_pos hcur]
    · simp only [content, if_neg hcur, hmedium b hb hcur]
  exact ⟨h.space, h.bound, h.zero, h.first, h.last, h.currentKept, h.nodup, h.holds, h.tail, h.linked.congr hcontent,
    fun link hl => (hcontent _ (mem_map_of_mem hl)).symm ▸ h.links link hl, h.owed, h.live⟩

theorem MetaPool.Inv.withDirty (h : p.Inv first live) (dirty : Bool) : ({ p with dirty := dirty }).Inv first live :=
  ⟨h.space, h.bound, h.zero, h.first, h.last, h.currentKept, h.nodup, h.holds, h.tail, h.linked, h.links,
    h.owed, h.live⟩

/-! ## Flush -/

theorem flush_inv (h : p.Inv first live) :
    (metaPoolFlush p).1.Inv first live ∧ (metaPoolFlush p).1.chain = p.chain ∧ (metaPoolFlush p).1.space = p.space := by
  unfold metaPoolFlush
  split
  · exact ⟨h, rfl, rfl⟩
  obtain ⟨io, hw | hw⟩ := p.writeBlock_spec p.currentNum p.current.encode
  · rw [hw]
    exact ⟨h.withIo io, rfl, rfl⟩
  rw [hw]
  refine ⟨?_, rfl, rfl⟩
  have hmed : ({ p with medium := update p.medium p.currentNum p.current.encode }).Inv first live :=
    h.withMedium fun b _ hb => update_of_ne hb _ _
  exact (hmed.withIo io).withDirty false

/-! ## Write -/

theorem Frames.length_le {payload : List UInt8} {used pos : Nat} {ps : List Nat} (h : Frames payload used pos ps) :
    pos + 42 * ps.length ≤ used := by
  induction ps generalizing pos with
  | nil => exact le_of_eq h
  | cons q ps ih =>
    obtain ⟨rfl, hlo, -, hrest⟩ := h
    have := ih hrest
    simp only [recordHeaderSize] at hlo
    rw [length_cons]
    omega

theorem LinkOk.kept_le {total kept : Nat} {retire : List (Nat × Nat)} {blk : MetaPoolBlock}
    (h : LinkOk total retire live block blk kept) : kept ≤ 97 := by
  have hlen := h.framed.frames.length_le
  have hused := h.framed.used
  simp only [mpoolDataSize] at hused
  have hle : kept ≤ (recordStarts blk).length := h.kept ▸ countP_le_length
  omega

/-- The live records after a write. -/
def afterWrite (live : Nat × Nat → Option TagFSMetadata) (m : TagFSMetadata) :
    Option (Nat × Nat) → Nat × Nat → Option TagFSMetadata
  | none => live
  | some loc => update live loc (some m)

theorem appendRecord_inv (h : p.Inv first live) {m : TagFSMetadata} (hid : m.fileId ≠ 0)
    (hfit : p.current.usedBytes + metaPoolRecordSize m ≤ mpoolDataSize) :
    (p.appendRecord m).1.Inv first (afterWrite live m (p.appendRecord m).2) ∧ (p.appendRecord m).1.blocks = p.blocks ∧
    (p.appendRecord m).1.space = p.space := by
  have hcur := h.current
  have hkept := hcur.kept_le
  unfold appendRecord
  by_cases hext : m.extents.all (·.inVolume p.space.totalBlocks) = true
  · have hpack : packRecord p.space.totalBlocks m = (recordBytes m, true) := if_pos hext
    have hmod : (p.current.usedBytes + metaPoolRecordSize m) % 2 ^ 16 = p.current.usedBytes + metaPoolRecordSize m :=
      Nat.mod_eq_of_lt (hfit.trans_lt (by decide))
    have hmodk : (p.current.kept + 1) % 2 ^ 16 = p.current.kept + 1 := Nat.mod_eq_of_lt (by omega)
    simp only [hpack, if_pos hid, hmod, hmodk, Bool.true_eq_false, if_false, afterWrite, mpoolBlockHeader]
    rw [← and_assoc]
    refine ⟨h.setCurrent rfl rfl rfl rfl ?_ ?_ rfl ?_, rfl⟩
    · intro before hsplit
      simp only [setKept, hsplit]
      rw [modify_eq_take_cons_drop (by simp)]
      simp
    · exact hcur.append h.current_paid hfit hid hext (Nat.mod_lt _ (by decide)) (by omega)
    · intro b off m' hb hm'
      rwa [update_of_ne (by simp [hb])] at hm'
  · have hpack :
      packRecord p.space.totalBlocks m = (recordHeader m 0 ++ m.tagIds.flatMap tagBytes, false) := if_neg hext
    simp only [hpack, if_true, afterWrite, and_true]
    refine h.setCurrent rfl rfl rfl rfl (fun before hsplit => hsplit) ?_ rfl fun _ _ _ _ hm => hm
    refine hcur.scribble h.current_paid ?_
    rw [length_append, length_recordHeader, length_flatMap_tagBytes]
    simp only [metaPoolRecordSize, recordHeaderSize] at hfit
    omega

/-- The new last block of the chain, with the link to it written under the block that was current. -/
theorem MetaPool.Inv.extend (h : p.Inv first live) {space : Space} {nb : Nat} {medium : Medium} {dirty : Bool}
    {io : List Bool} (hs : space.Inv) (htot : space.totalBlocks = p.space.totalBlocks) (hfresh : ¬ p.space.Holds nb)
    (hnb : space.Holds nb) (hkeep : ∀ b, p.space.Holds b → space.Holds b)
    (hlink : medium p.currentNum = { p.current with nextBlock := nb }.encode)
    (hother : ∀ b, b ≠ nb → b ≠ p.currentNum → medium b = p.medium b) :
    MetaPool.Inv { p with
      space := space
      medium := medium
      currentNum := nb
      current := freshBlock
      dirty := dirty
      chain := p.chain ++ [⟨nb, 0⟩]
      io := io } first live := by
  set p' : MetaPool := { p with
    space := space, medium := medium, currentNum := nb, current := freshBlock, dirty := dirty
    chain := p.chain ++ [⟨nb, 0⟩], io := io }
  have hnotin : nb ∉ p.blocks := fun hin => hfresh (h.holds nb hin)
  have hblocks : p'.blocks = p.blocks ++ [nb] := map_append
  have hnb32 : nb < 2 ^ 32 := hnb.1.trans (htot ▸ h.bound)
  have hcurIn : p.currentNum ∈ p.blocks := mem_map.mpr ⟨_, h.currentKept, rfl⟩
  have hcurNe : p.currentNum ≠ nb := fun heq => hnotin (heq ▸ hcurIn)
  have hcurOk := h.current.header hnb32 h.current.ok.kept
  -- what the blocks hold now
  have hnew : p'.content nb = freshBlock := if_pos rfl
  have hold : p'.content p.currentNum = { p.current with nextBlock := nb } := by
    rw [p'.content_of_ne hcurNe]
    exact (congrArg _ hlink).trans (decode_encode hcurOk.ok)
  have hsame : ∀ b ∈ p.blocks, b ≠ p.currentNum → p'.content b = p.content b := by
    intro b hb hne
    have hbnb : b ≠ nb := fun heq => hnotin (heq ▸ hb)
    rw [p.content_of_ne hne, p'.content_of_ne hbnb]
    exact congrArg _ (hother b hbnb hne)
  obtain ⟨before, hchain⟩ := h.chain_eq
  have hsplit : p.blocks = before.map (·.block) ++ [p.currentNum] := by
    rw [MetaPool.blocks, hchain]
    simp
  have hbefore : ∀ b ∈ before.map (·.block), b ∈ p.blocks ∧ b ≠ p.currentNum := by
    intro b hb
    refine ⟨hsplit ▸ mem_append_left _ hb, fun heq => ?_⟩
    have hnd := h.nodup
    rw [hsplit, nodup_append] at hnd
    exact hnd.2.2 b hb p.currentNum (mem_singleton_self _) heq
  have hgood : (mpoolMagic == mpoolMagic) = true := beq_self_eq_true _
  refine ⟨hs, htot ▸ h.bound, hkeep 0 h.zero, ?_, ?_, ?_, ?_, ?_, ?_, ?_, ?_, ?_, ?_⟩
  · rw [hblocks, head?_append, h.first]
    rfl
  · rw [hblocks, getLast?_concat]
  · simp [p', freshBlock]
  · rw [hblocks, nodup_append]
    refine ⟨h.nodup, nodup_singleton nb, fun a ha b hb => ?_⟩
    rw [mem_singleton] at hb
    exact fun heq => hnotin (hb ▸ heq ▸ ha)
  · rw [hblocks]
    intro b hb
    rcases mem_append.mp hb with hb | hb
    · exact hkeep b (h.holds b hb)
    · exact mem_singleton.mp hb ▸ hnb
  · rw [hblocks, tail_append_of_pos (by rw [hsplit]; simp), mem_append, mem_singleton, not_or]
    exact ⟨h.tail, fun heq => hfresh (heq ▸ h.zero)⟩
  · have hlinked := h.linked
    rw [hsplit] at hlinked
    rw [hblocks, hsplit]
    refine hlinked.snoc (fun b hb => hsame b (hbefore b hb).1 (hbefore b hb).2) ?_ ?_
    · rw [hold]
      exact ⟨beq_iff_eq.mpr h.current.magic, rfl⟩
    · rw [hnew]
      exact ⟨hgood, rfl⟩
  · intro link hl
    rw [htot]
    rcases mem_append.mp hl with hl' | hl'
    · have hlink' := h.links link hl'
      by_cases hcur : link.block = p.currentNum
      · rw [hcur, p.content_current] at hlink'
        rw [hcur, hold]
        exact hlink'.header hnb32 h.current.ok.kept
      · rw [hsame _ (mem_map_of_mem hl') hcur]
        exact hlink'
    obtain rfl := mem_singleton.mp hl'
    rw [hnew]
    refine LinkOk.fresh (fun off hoff => hnotin (h.owed _ hoff).1) fun off => ?_
    by_contra hc
    obtain ⟨m, hm⟩ := Option.ne_none_iff_exists'.mp hc
    exact hnotin (h.live nb off m hm)
  · rw [hblocks]
    intro r hr
    exact ⟨mem_append_left _ (h.owed r hr).1, fun heq : r.1 = nb => hnotin (heq ▸ (h.owed r hr).1)⟩
  · rw [hblocks]
    exact fun b off m hm => mem_append_left _ (h.live b off m hm)

/-- The pool `p'` comes from `p` without a change to any block that is taken and not the pool's. -/
structure KeepsOthers (p p' : MetaPool) : Prop where
  total : p'.space.totalBlocks = p.space.totalBlocks
  holds : ∀ b, p.space.Holds b → p'.space.Holds b
  blocks : ∀ b ∈ p.blocks, b ∈ p'.blocks
  grown : ∀ b ∈ p'.blocks, b ∈ p.blocks ∨ ¬ p.space.Holds b
  medium : ∀ b, p.space.Holds b → b ∉ p.blocks → p'.medium b = p.medium b

theorem KeepsOthers.refl (p : MetaPool) : KeepsOthers p p :=
  ⟨rfl, fun _ hb => hb, fun _ hb => hb, fun _ hb => .inl hb, fun _ _ _ => rfl⟩

theorem KeepsOthers.trans {p₁ p₂ : MetaPool} (h₁ : KeepsOthers p p₁) (h₂ : KeepsOthers p₁ p₂) : KeepsOthers p p₂ where
  total := h₂.total.trans h₁.total
  holds b hb := h₂.holds b (h₁.holds b hb)
  blocks b hb := h₂.blocks b (h₁.blocks b hb)
  grown b hb := by
    rcases h₂.grown b hb with hb | hb
    · exact h₁.grown b hb
    · exact .inr fun hold => hb (h₁.holds b hold)
  medium b hb hn := by
    have hn' : b ∉ p₁.blocks := fun hmem => (h₁.grown b hmem).elim hn fun hno => hno hb
    exact (h₂.medium b (h₁.holds b hb) hn').trans (h₁.medium b hb hn)

theorem appendRecord_medium (p : MetaPool) (m : TagFSMetadata) : (p.appendRecord m).1.medium = p.medium := by
  unfold appendRecord
  simp only []
  split
  · rfl
  · split <;> rfl

section

variable (h : p.Inv first live)

include h

theorem appendRecord_keeps {m : TagFSMetadata} (hid : m.fileId ≠ 0)
    (hfit : p.current.usedBytes + metaPoolRecordSize m ≤ mpoolDataSize) : KeepsOthers p (p.appendRecord m).1 := by
  obtain ⟨-, hblocks, hspace⟩ := appendRecord_inv h hid hfit
  exact ⟨by rw [hspace], fun b hb => by rwa [hspace], fun b hb => by rwa [hblocks], fun b hb => .inl
    (by rwa [hblocks] at hb), fun b _ _ => by rw [appendRecord_medium]⟩

/-- The chain is left alone, the new block is given back because a write failed, or it ends the chain. -/
theorem chainNext_cases : p.chainNext = (p, false) ∨ ∃ nb space, p.space.allocBlocksInternal 1 = some (nb, space) ∧
    ((∃ medium io, (∀ b, b ≠ nb → medium b = p.medium b) ∧
    p.chainNext = (freeBlock { p with space := space, medium := medium, io := io } nb, false)) ∨ ∃ p',
    p.chainNext = (p', true) ∧ p'.Inv first live ∧ p'.space = space ∧ p'.dedup = p.dedup ∧ p'.current = freshBlock ∧
    p'.blocks = p.blocks ++ [nb] ∧ ∀ b, b ≠ nb → b ≠ p.currentNum → p'.medium b = p.medium b) := by
  unfold chainNext
  rw [if_neg (by simpa using h.current_next)]
  cases hal : p.space.allocBlocksInternal 1 with
  | none => exact .inl rfl
  | some r =>
    obtain ⟨nb, space⟩ := r
    obtain ⟨hs, htot, hfresh, hnb, hkeep⟩ := allocOne_spec h.space hal
    refine .inr ⟨nb, space, rfl, ?_⟩
    simp only []
    obtain ⟨io, hw | hw⟩ := writeBlock_spec { p with space := space } nb freshBlock.encode
    · rw [hw]
      exact .inl ⟨p.medium, io, fun _ _ => rfl, rfl⟩
    rw [hw]
    simp only []
    generalize hmed : update p.medium nb freshBlock.encode = medium
    have hmedium : ∀ b, b ≠ nb → medium b = p.medium b := fun b hb => by rw [← hmed, update_of_ne hb]
    obtain ⟨io', hw' | hw'⟩ := writeBlock_spec { p with space := space, medium := medium, io := io } p.currentNum
      { p.current with nextBlock := nb }.encode
    · rw [hw']
      exact .inl ⟨medium, io', hmedium, rfl⟩
    rw [hw']
    refine .inr ⟨_, rfl, ?_, rfl, rfl, rfl, map_append, fun b hb hne => (update_of_ne hne _ _).trans (hmedium b hb)⟩
    exact h.extend hs htot hfresh hnb hkeep (update_self ..) fun b hb hne => (update_of_ne hne _ _).trans (hmedium b hb)

theorem chainNext_inv : p.chainNext.1.Inv first live ∧ KeepsOthers p p.chainNext.1 ∧
    (p.chainNext.2 = true → p.chainNext.1.current = freshBlock) := by
  rcases chainNext_cases h with heq | ⟨nb, space, hal, hor⟩
  · rw [heq]
    exact ⟨h, .refl p, nofun⟩
  obtain ⟨hs, htot, hfresh, hnb, hkeep⟩ := allocOne_spec h.space hal
  have hne : ∀ b, p.space.Holds b → b ≠ nb := fun b hb heq => hfresh (heq ▸ hb)
  rcases hor with ⟨medium, io, hmedium, heq⟩ | ⟨p', heq, hinv, hspace, -, hcur, hblocks, hmedium⟩
  · obtain ⟨hs', htot', hkeep'⟩ := freeOne_spec hs hnb p.dedup p.now
    have hholds : ∀ b, p.space.Holds b → (space.freeBlocksInternal p.dedup p.now nb 1).1.Holds b := fun b hb =>
      hkeep' b (hne b hb) (hkeep b hb)
    have hmed := h.withMedium fun b hb _ => hmedium b (hne b (h.holds b hb))
    rw [heq]
    exact ⟨(hmed.withIo io).withSpace hs' (htot'.trans htot) hholds, ⟨htot'.trans htot, hholds, fun _ hb => hb,
      fun _ hb => .inl hb, fun b hb _ => hmedium b (hne b hb)⟩, nofun⟩
  · rw [heq]
    refine ⟨hinv,
      ⟨by rw [hspace]; exact htot, fun b hb => by rw [hspace]; exact hkeep b hb, fun b hb => ?_, fun b hb => ?_,
      fun b hb hn => hmedium b (hne b hb) fun heq => hn (heq ▸ mem_of_getLast? h.last)⟩, fun _ => hcur⟩
    · rw [hblocks]
      exact mem_append_left _ hb
    · rw [hblocks, mem_append, mem_singleton] at hb
      exact hb.imp_right fun heq => by rwa [heq]

/-- `meta_pool_write` refuses the record, fails to go on to the next block, or appends the record. -/
theorem metaPoolWrite_cases (m : TagFSMetadata) : metaPoolWrite p m = (p, none) ∨
    (∃ p', p.chainNext = (p', false) ∧ metaPoolWrite p m = (p', none)) ∨ (∃ p', p.chainNext = (p', true) ∧
    p'.current.usedBytes + metaPoolRecordSize m ≤ mpoolDataSize ∧ metaPoolWrite p m = p'.appendRecord m) ∨
    p.current.usedBytes + metaPoolRecordSize m ≤ mpoolDataSize ∧ metaPoolWrite p m = p.appendRecord m := by
  have hused := h.current.framed.used
  unfold metaPoolWrite
  by_cases hlarge : metaPoolRecordSize m > mpoolDataSize
  · exact .inl (if_pos hlarge)
  have hroom : (2 ^ 32 + mpoolDataSize - p.current.usedBytes) % 2 ^ 32 = mpoolDataSize - p.current.usedBytes := by
    simp only [mpoolDataSize] at hused ⊢
    omega
  rw [if_neg hlarge, hroom]
  by_cases hfull : metaPoolRecordSize m > mpoolDataSize - p.current.usedBytes
  · rw [if_pos hfull]
    obtain ⟨-, -, hok⟩ := chainNext_inv h
    cases hnext : p.chainNext with
    | mk p' ok =>
      rw [hnext] at hok
      cases ok with
      | false => exact .inr (.inl ⟨p', rfl, rfl⟩)
      | true =>
        refine .inr (.inr (.inl ⟨p', rfl, ?_, rfl⟩))
        rw [hok rfl, freshBlock]
        simp only [Nat.zero_add]
        omega
  · rw [if_neg hfull]
    exact .inr (.inr (.inr ⟨by omega, rfl⟩))

/-- `meta_pool_write` keeps the invariant, with the record it says it wrote, and changes no taken block outside the
pool. -/
theorem write_inv {m : TagFSMetadata} (hid : m.fileId ≠ 0) :
    (metaPoolWrite p m).1.Inv first (afterWrite live m (metaPoolWrite p m).2) ∧
    KeepsOthers p (metaPoolWrite p m).1 := by
  obtain ⟨hinv, hkeeps, -⟩ := chainNext_inv h
  rcases metaPoolWrite_cases h m with heq | ⟨p', hnext, heq⟩ | ⟨p', hnext, hfit, heq⟩ | ⟨hfit, heq⟩
  · rw [heq]
    exact ⟨h, .refl p⟩
  · rw [heq]
    rw [hnext] at hinv hkeeps
    exact ⟨hinv, hkeeps⟩
  · rw [heq]
    rw [hnext] at hinv hkeeps
    exact ⟨(appendRecord_inv hinv hid hfit).1, hkeeps.trans (appendRecord_keeps hinv hid hfit)⟩
  · rw [heq]
    exact ⟨(appendRecord_inv h hid hfit).1, appendRecord_keeps h hid hfit⟩

end

/-! ## Delete -/

/-- The live records after a delete was called. -/
def afterDelete (live : Nat × Nat → Option TagFSMetadata) (loc : Nat × Nat) : Nat × Nat → Option TagFSMetadata :=
  update live loc none

theorem afterDelete_some {loc loc' : Nat × Nat} {m : TagFSMetadata} (hm : afterDelete live loc loc' = some m) :
    live loc' = some m ∧ loc' ≠ loc := by
  by_cases heq : loc' = loc
  · rw [heq, afterDelete, update_self] at hm
    cases hm
  · rw [afterDelete, update_of_ne heq] at hm
    exact ⟨hm, heq⟩

theorem MetaPool.Inv.forget (h : p.Inv first live) (loc : Nat × Nat) : p.Inv first (afterDelete live loc) :=
  ⟨h.space, h.bound, h.zero, h.first, h.last, h.currentKept, h.nodup, h.holds, h.tail, h.linked,
    fun link hl => (h.links link hl).congr (fun _ => Iff.rfl) fun _ _ hm => (afterDelete_some hm).1, h.owed,
    fun b off m hm => h.live b off m (afterDelete_some hm).1⟩

/-- `meta_pool_delete` keeps the invariant without the record it was called on, and gives back no block. -/
theorem delete_inv (h : p.Inv first live) {block offset : Nat}
    (hloc : block ∈ p.blocks → ∃ q ∈ recordStarts (p.content block), offset = 16 + q) :
    (metaPoolDelete p block offset).1.Inv first (afterDelete live (block, offset)) ∧
    (metaPoolDelete p block offset).1.space = p.space ∧ (metaPoolDelete p block offset).1.blocks = p.blocks := by
  have hforget := h.forget (block, offset)
  unfold metaPoolDelete
  by_cases hin : block ∈ p.blocks
  case neg =>
    simp only [chainFind_notMem hin, if_true]
    exact ⟨hforget, trivial, trivial⟩
  obtain ⟨q, hq, rfl⟩ := hloc hin
  obtain ⟨before, after, hchain⟩ := h.link_of_mem hin
  have hfind : p.chainFind block = before.length := chainFind_eq hchain h.nodup
  have hlt : ¬ before.length = p.chain.length := by
    rw [hchain]
    simp
  have hlinkOk := h.links ⟨block, p.undeleted block⟩ (by rw [hchain]; simp)
  simp only [hfind, if_neg hlt]
  by_cases hcur : block = p.currentNum
  · rw [if_pos hcur]
    subst hcur
    rw [p.content_current] at hq
    split
    · exact ⟨hforget, rfl, rfl⟩
    have hc := (Cleared.refl h.current.framed).clear h.current.framed h.current.ok hq
    have hcl : LinkOk p.space.totalBlocks p.retire (afterDelete live (p.currentNum, 16 + q)) p.currentNum
        (p.current.clearId (16 + q)) (countKeptRecords (p.current.clearId (16 + q))) := by
      refine h.current.cleared hc h.current_paid (fun _ _ hm => (afterDelete_some hm).1) ?_
      rintro r (hr | rfl)
      · exact hr.elim
      · exact update_self ..
    have hkept := hcl.kept_le
    rw [← and_assoc, and_right_comm]
    refine ⟨h.setCurrent rfl rfl rfl rfl ?_ ?_ ?_ fun _ _ _ _ hm => (afterDelete_some hm).1, rfl⟩
    · intro init hinit
      rw [← hfind, chainFind_eq hinit h.nodup]
      rw [setKept, hinit, modify_eq_take_cons_drop (by simp)]
      simp
    · exact hcl.header hcl.ok.next (by omega)
    · change (p.current.clearId (16 + q)).nextBlock = p.current.nextBlock
      rw [hc.head]
  · rw [if_neg hcur]
    obtain ⟨io, hr | hr⟩ := p.readBlock_spec block
    · rw [hr]
      exact ⟨hforget.withIo io, rfl, rfl⟩
    rw [hr]
    simp only []
    split
    · exact ⟨hforget.withIo io, rfl, rfl⟩
    split
    · exact ⟨hforget.withIo io, rfl, rfl⟩
    have hcontent : p.content block = decode (p.medium block) := content_of_ne hcur
    rw [hcontent] at hq hlinkOk
    generalize hp' : setKept { p with io := io, retire := p.retire ++ [(block, 16 + q)] } before.length _ = p'
    rw [setKept_chain (p := { p with io := io, retire := p.retire ++ [(block, 16 + q)] }) hchain] at hp'
    have hch : ChangesAt p p' live (afterDelete live (block, 16 + q)) block := by
      rw [← hp']
      refine ⟨rfl, rfl, ⟨before, _, _, after, hchain, rfl, ?_⟩, fun b hb => rfl, rfl, fun heq => absurd heq hcur, ?_,
        fun _ _ => hcur, fun b off m hb hm => (afterDelete_some hm).1⟩
      · change LinkOk p.space.totalBlocks (p.retire ++ [(block, 16 + q)]) _ block (p.content block) _
        rw [hcontent]
        exact hlinkOk.owe hq (fun _ _ hm => (afterDelete_some hm).1) (update_self ..)
      · intro b off hb
        simp [hb]
    refine ⟨h.change hch, ?_, hch.blocks⟩
    rw [← hp']

/-! ## Retires -/

/-- From `p` to `p'` blocks have only left the chain, those that left it had no undeleted record, and no other block was
given back. -/
structure Retires (p p' : MetaPool) : Prop where
  sub : ∀ b ∈ p'.blocks, b ∈ p.blocks
  undeleted : ∀ b ∈ p'.blocks, p'.undeleted b = p.undeleted b
  dropped : ∀ b ∈ p.blocks, b ∉ p'.blocks → p.undeleted b = 0
  freed : ∀ b, p.space.Holds b → ¬ p'.space.Holds b → b ∈ p.blocks ∧ b ∉ p'.blocks

theorem Retires.refl (p : MetaPool) : Retires p p :=
  ⟨fun _ hb => hb, fun _ _ => rfl, fun _ hb hn => absurd hb hn, fun _ hb hn => absurd hb hn⟩

theorem Retires.trans {p₁ p₂ : MetaPool} (h₁ : Retires p p₁) (h₂ : Retires p₁ p₂) : Retires p p₂ where
  sub := fun b hb => h₁.sub b (h₂.sub b hb)
  undeleted := fun b hb => (h₂.undeleted b hb).trans (h₁.undeleted b (h₂.sub b hb))
  dropped := by
    intro b hb hn
    by_cases hmid : b ∈ p₁.blocks
    · rw [← h₁.undeleted b hmid]
      exact h₂.dropped b hmid hn
    · exact h₁.dropped b hb hmid
  freed := by
    intro b hb hn
    by_cases hmid : p₁.space.Holds b
    · obtain ⟨hin, hout⟩ := h₂.freed b hmid hn
      exact ⟨h₁.sub b hin, hout⟩
    · obtain ⟨hin, hout⟩ := h₁.freed b hb hmid
      exact ⟨hin, fun hc => hout (h₂.sub b hc)⟩

theorem Retires.of_chain {p' : MetaPool} {live' : Nat × Nat → Option TagFSMetadata} (h : p.Inv first live)
    (h' : p'.Inv first live') (hsub : ∀ link ∈ p'.chain, link ∈ p.chain)
    (hdropped : ∀ b ∈ p.blocks, b ∉ p'.blocks → p.undeleted b = 0)
    (hfreed : ∀ b, p.space.Holds b → ¬ p'.space.Holds b → b ∈ p.blocks ∧ b ∉ p'.blocks) : Retires p p' where
  sub := by
    intro b hb
    obtain ⟨link, hl, rfl⟩ := mem_map.mp hb
    exact mem_map_of_mem (hsub link hl)
  undeleted := by
    intro b hb
    obtain ⟨link, hl, rfl⟩ := mem_map.mp hb
    rw [MetaPool.undeleted, MetaPool.undeleted, ← (h'.links link hl).kept, ← (h.links link (hsub link hl)).kept]
  dropped := hdropped
  freed := hfreed

theorem mem_retirePaid {retire : List (Nat × Nat)} {b off : Nat} :
    (b, off) ∈ retire.filter (fun r => r.1 ≠ block) ↔ (b, off) ∈ retire ∧ b ≠ block := by
  simp [mem_filter]

theorem pay_inv (h : p.Inv first live) {block : Nat} (hin : block ∈ p.blocks) (hcur : block ≠ p.currentNum)
    {here : MetaPoolBlock} (hhere : here = retireApply p.retire block (p.content block)) (io : List Bool) :
    let p' := retirePaid { p with
      medium := update p.medium block { here with kept := countKeptRecords here }.encode
      io := io } block
    p'.Inv first live ∧ Retires p p' := by
  intro p'
  obtain ⟨before, after, hchain⟩ := h.link_of_mem hin
  have hlink := h.links ⟨block, p.undeleted block⟩ (by rw [hchain]; simp)
  have hc := retireApply_cleared hlink.framed hlink.ok hlink.owed
  rw [← hhere] at hc
  have hcl : LinkOk p.space.totalBlocks p'.retire live block here (countKeptRecords here) := by
    refine hlink.cleared hc ?_ (fun _ _ hm => hm) ?_
    · exact fun off hoff => (mem_retirePaid.mp hoff).2 rfl
    · intro q hq
      by_contra hne
      obtain ⟨m, hm⟩ := Option.ne_none_iff_exists'.mp hne
      obtain ⟨q', hq', -, hn⟩ := hlink.live (16 + q) m hm
      exact hn hq
  have hkept : countKeptRecords here = p.undeleted block := countKept_cleared hlink.framed hc
  have hle := hcl.kept_le
  have hhead := hcl.header hcl.ok.next (n := countKeptRecords here) (by omega)
  have hcontent : p'.content block = { here with kept := countKeptRecords here } := by
    have hcur' : block ≠ p'.currentNum := hcur
    rw [content_of_ne hcur']
    simp only [p', retirePaid, update_self]
    exact decode_encode hhead.ok
  have hch : ChangesAt p p' live live block := by
    refine ⟨rfl, rfl, ⟨before, _, countKeptRecords here, after, hchain, ?_, hcontent ▸ hhead⟩, ?_, ?_,
      fun heq => absurd heq hcur, ?_, fun _ _ => hcur, fun _ _ _ _ hm => hm⟩
    · rw [hkept]
      exact hchain
    · intro b hb
      simp only [p', content, retirePaid, update_of_ne hb]
    · rw [hcontent]
      rw [hc.head]
    · intro b off hb
      exact mem_retirePaid.trans (and_iff_left hb)
  have hinv := h.change hch
  refine ⟨hinv, Retires.of_chain h hinv (fun _ hl => hl) ?_ ?_⟩
  · exact fun b hb hn => absurd (hch.blocks ▸ hb) hn
  · exact fun b hb hn => absurd hb hn

/-- A block with no undeleted record is taken out of the chain and given back. -/
theorem unlink_inv (h : p.Inv first live) {before after : List MetaPoolLink} {prev next : MetaPoolLink} {block : Nat}
    (hchain : p.chain = before ++ prev :: ⟨block, 0⟩ :: next :: after) (io : List Bool) :
    let r := p.space.freeBlocksInternal p.dedup p.now block 1
    let p' := retirePaid { p with
      medium := update p.medium prev.block
        { decode (p.medium prev.block) with nextBlock := next.block }.encode
      space := r.1
      dedup := r.2
      chain := before ++ prev :: next :: after
      io := io } block
    p'.Inv first live ∧ Retires p p' := by
  intro r p'
  have hblocks : p.blocks = before.map (·.block) ++ prev.block :: block :: next.block :: after.map (·.block) := by
    rw [MetaPool.blocks, hchain]
    simp
  have hblocks' : p'.blocks = before.map (·.block) ++ prev.block :: next.block :: after.map (·.block) := by
    simp [p', MetaPool.blocks, retirePaid]
  have hnd := h.nodup
  rw [hblocks] at hnd
  have hsubl : p'.blocks.Sublist p.blocks := by
    rw [hblocks, hblocks']
    exact (Sublist.refl _).append ((sublist_cons_self _ _).cons_cons _)
  have hmem : ∀ b, b ∈ p.blocks ↔ b = block ∨ b ∈ p'.blocks := by
    intro b
    rw [hblocks, hblocks']
    simp only [mem_append, mem_cons]
    tauto
  have hnotin : block ∉ p'.blocks := by
    rw [append_cons] at hnd
    rw [hblocks', append_cons]
    exact (nodup_cons.mp (nodup_middle.mp hnd)).1
  have hprevNe : ∀ b ∈ before.map (·.block) ++ next.block :: after.map (·.block), b ≠ prev.block := by
    rintro b hb rfl
    exact (nodup_cons.mp (nodup_middle.mp hnd)).1 (((Sublist.refl _).append (sublist_cons_self ..)).subset hb)
  -- the current block comes after the block
  have hcurIn : p.currentNum ∈ next.block :: after.map (·.block) := by
    have hlast := h.last
    rw [hblocks] at hlast
    rw [getLast?_append_of_ne_nil _ (cons_ne_nil _ _), getLast?_cons_cons, getLast?_cons_cons] at hlast
    exact mem_of_getLast? hlast
  have hcurNe : prev.block ≠ p.currentNum := fun heq => hprevNe _ (mem_append_right _ hcurIn) heq.symm
  have hcurIn' : p.currentNum ∈ p'.blocks := by
    rw [hblocks']
    exact mem_append_right _ (mem_cons_of_mem _ hcurIn)
  have hchainSub : ∀ link ∈ p'.chain, link ∈ p.chain := by
    intro link hl
    rw [hchain]
    simp only [p', retirePaid, mem_append, mem_cons] at hl ⊢
    tauto
  have hprevMem : prev ∈ p.chain := by rw [hchain]; simp
  have hnextMem : next ∈ p.chain := by rw [hchain]; simp
  have hempty := h.links ⟨block, 0⟩ (by rw [hchain]; simp)
  have hlinkPrev := h.links prev hprevMem
  rw [content_of_ne hcurNe] at hlinkPrev
  have hnext32 : next.block < 2 ^ 32 := lt_trans (h.holds _ (mem_map_of_mem hnextMem)).1 h.bound
  have hhead := hlinkPrev.header hnext32 hlinkPrev.ok.kept
  have hprev : p'.content prev.block =
      { decode (p.medium prev.block) with nextBlock := next.block } := by
    have hcur' : prev.block ≠ p'.currentNum := hcurNe
    rw [content_of_ne hcur']
    simp only [p', retirePaid, update_self]
    exact decode_encode hhead.ok
  have hother : ∀ b, b ≠ prev.block → p'.content b = p.content b := by
    intro b hb
    simp only [p', content, retirePaid, update_of_ne hb]
  have hholdsBlock : p.space.Holds block := h.holds block ((hmem block).mpr (Or.inl rfl))
  obtain ⟨hs, htot, hkeep⟩ := freeOne_spec h.space hholdsBlock p.dedup p.now
  have hne : ∀ b ∈ p'.blocks, b ≠ block := fun b hb heq => hnotin (heq ▸ hb)
  have hretire : ∀ b off, b ≠ block → ((b, off) ∈ p'.retire ↔ (b, off) ∈ p.retire) := by
    intro b off hb
    exact mem_retirePaid.trans (and_iff_left hb)
  have hzero : block ≠ 0 := by
    rintro rfl
    refine h.tail ?_
    rw [hblocks]
    cases before <;> simp
  have hinv : p'.Inv first live := by
    refine ⟨hs, htot ▸ h.bound, hkeep 0 (Ne.symm hzero) h.zero, ?_, ?_, ?_, hsubl.nodup h.nodup, ?_, ?_, ?_, ?_, ?_, ?_⟩
    · rw [hblocks', ← h.first, hblocks]
      cases before <;> rfl
    · change p'.blocks.getLast? = some p.currentNum
      rw [← h.last, hblocks, hblocks']
      simp
    · have hmemc := h.currentKept
      rw [hchain] at hmemc
      simp only [p', retirePaid, mem_append, mem_cons, MetaPoolLink.mk.injEq] at hmemc ⊢
      have : p.currentNum ≠ block := hne _ hcurIn'
      tauto
    · exact fun b hb => hkeep b (hne b hb) (h.holds b ((hmem b).mpr (Or.inr hb)))
    · exact fun hb => h.tail (hsubl.tail.subset hb)
    · have hl := h.linked
      rw [hblocks] at hl
      rw [hblocks']
      refine hl.unlink (fun b hb => hother b (hprevNe b hb)) ?_
      rw [hprev]
      exact ⟨beq_iff_eq.mpr hlinkPrev.magic, rfl⟩
    · intro link hl
      change LinkOk r.1.totalBlocks p'.retire live link.block (p'.content link.block) link.kept
      rw [htot]
      have hlne : link.block ≠ block := hne _ (mem_map_of_mem hl)
      have hold := h.links link (hchainSub link hl)
      have hmid : LinkOk p.space.totalBlocks p.retire live link.block (p'.content link.block) link.kept := by
        by_cases hp : link.block = prev.block
        · rw [hp, content_of_ne hcurNe] at hold
          rw [hp, hprev]
          exact hold.header hnext32 hlinkPrev.ok.kept
        · rw [hother _ hp]
          exact hold
      exact hmid.congr (fun off => hretire _ off hlne) fun _ _ hm => hm
    · rintro ⟨b, off⟩ hr
      obtain ⟨hr, hb⟩ := mem_retirePaid.mp hr
      obtain ⟨hin, hcur⟩ := h.owed (b, off) hr
      exact ⟨((hmem b).mp hin).resolve_left hb, hcur⟩
    · intro b off m hm
      refine ((hmem b).mp (h.live b off m hm)).resolve_left fun heq => ?_
      rw [heq, hempty.none_live off] at hm
      cases hm
  refine ⟨hinv, Retires.of_chain h hinv hchainSub ?_ ?_⟩
  · intro b hb hn
    rw [((hmem b).mp hb).resolve_right hn]
    exact hempty.kept.symm
  · intro b hb hn
    obtain rfl : block = b := not_not.mp fun hc => hn (hkeep b (Ne.symm hc) hb)
    exact ⟨(hmem block).mpr (Or.inl rfl), hnotin⟩

/-- `unlink_empty_block` on an inner block: it does nothing to the pool, or it unlinks the block. -/
theorem unlinkEmptyBlock_cases {prev next : MetaPoolLink}
    (hchain : p.chain = before ++ prev :: link :: next :: after) (saysNext : Nat) :
    ∃ io, p.unlinkEmptyBlock (before.length + 1) saysNext = ({ p with io := io }, false) ∨
      p.unlinkEmptyBlock (before.length + 1) saysNext = ({ p with
        medium := update p.medium prev.block
          { decode (p.medium prev.block) with nextBlock := next.block }.encode
        space := (p.space.freeBlocksInternal p.dedup p.now link.block 1).1
        dedup := (p.space.freeBlocksInternal p.dedup p.now link.block 1).2
        chain := before ++ prev :: next :: after
        io := io }, true) := by
  have hblock : p.chain.getD (before.length + 1) ⟨0, 0⟩ = link := by simp [hchain]
  have hprev : p.chain.getD (before.length + 1 - 1) ⟨0, 0⟩ = prev := by simp [hchain]
  have hnext : p.chain.getD (before.length + 1 + 1) ⟨0, 0⟩ = next := by
    rw [hchain, Nat.add_assoc, getD_eq_getElem?_getD, getElem?_append_right (by omega), Nat.add_sub_cancel_left]
    rfl
  have herase : p.chain.eraseIdx (before.length + 1) = before ++ prev :: next :: after := by
    rw [hchain, eraseIdx_append_of_length_le (by omega), Nat.add_sub_cancel_left]
    rfl
  unfold unlinkEmptyBlock
  rw [hblock, hprev, hnext]
  simp only []
  split
  · exact ⟨p.io, Or.inl rfl⟩
  obtain ⟨io, hr | hr⟩ := p.readBlock_spec prev.block
  · rw [hr]
    exact ⟨io, Or.inl rfl⟩
  rw [hr]
  simp only []
  split
  · exact ⟨io, Or.inl rfl⟩
  obtain ⟨io', hw | hw⟩ := writeBlock_spec { p with io := io } prev.block
    { decode (p.medium prev.block) with nextBlock := next.block }.encode
  · rw [hw]
    exact ⟨io', Or.inl rfl⟩
  · rw [hw]
    refine ⟨io', Or.inr ?_⟩
    simp only [freeBlock, herase]

theorem payBlock_inv (h : p.Inv first live) {block off : Nat} (hr : (block, off) ∈ p.retire) :
    (p.payBlock block).1.Inv first live ∧ Retires p (p.payBlock block).1 := by
  obtain ⟨hin, hcur⟩ := h.owed _ hr
  obtain ⟨before, after, hchain⟩ := h.link_of_mem hin
  have hfind : p.chainFind block = before.length := chainFind_eq hchain h.nodup
  have hlink := h.links ⟨block, p.undeleted block⟩ (by rw [hchain]; simp)
  have hcontent : p.content block = decode (p.medium block) := content_of_ne hcur
  have hio : ∀ io, ({ p with io := io }).Inv first live ∧ Retires p { p with io := io } := by
    intro io
    exact ⟨h.withIo io, Retires.of_chain h (h.withIo io) (fun _ hl => hl) (fun _ hb hn => absurd hb hn)
      fun _ hb hn => absurd hb hn⟩
  unfold payBlock
  simp only [hfind]
  rw [if_neg (by rw [hchain]; simp [hcur])]
  obtain ⟨io, hread | hread⟩ := p.readBlock_spec block
  · rw [hread]
    exact hio io
  rw [hread]
  simp only []
  generalize hhere : retireApply p.retire block (decode (p.medium block)) = here
  have hhere' : here = retireApply p.retire block (p.content block) := by rw [hcontent, hhere]
  -- the count is the one the chain had
  have hkept : countKeptRecords here = p.undeleted block := by
    rw [hhere']
    exact countKept_cleared hlink.framed (retireApply_cleared hlink.framed hlink.ok hlink.owed)
  have hset : setKept { p with io := io } before.length (countKeptRecords here) = { p with io := io } := by
    rw [setKept_chain (p := { p with io := io }) hchain, hkept]
    simp only [← hchain]
  rw [hset]
  -- the write, after whatever reads and writes came before it
  have hwrite : ∀ io', (payWrite { p with io := io' } block { here with kept := countKeptRecords here }).1.Inv
      first live ∧
      Retires p (payWrite { p with io := io' } block { here with kept := countKeptRecords here }).1 := by
    intro io'
    unfold payWrite
    obtain ⟨io'', hw | hw⟩ := writeBlock_spec { p with io := io' } block
      ({ here with kept := countKeptRecords here } : MetaPoolBlock).encode
    · rw [hw]
      exact hio io''
    · rw [hw]
      exact pay_inv h hin hcur hhere' io''
  by_cases hinner : countKeptRecords here = 0 ∧ before.length > 0 ∧ before.length + 1 < p.chain.length
  · rw [if_pos hinner]
    obtain ⟨hzero, hpos, hlt⟩ := hinner
    -- an inner block has a block before it and one after it
    obtain ⟨init, prev, rfl⟩ : ∃ init prev, before = init ++ [prev] :=
      ⟨_, _, (dropLast_append_getLast (length_pos_iff.mp hpos)).symm⟩
    obtain ⟨next, rest, rfl⟩ : ∃ next rest, after = next :: rest := by
      cases after with
      | nil => rw [hchain] at hlt; simp at hlt
      | cons next rest => exact ⟨next, rest, rfl⟩
    rw [← hkept, hzero, append_assoc] at hchain
    rw [length_append, length_singleton]
    obtain ⟨io', hu | hu⟩ := unlinkEmptyBlock_cases (p := { p with io := io }) hchain here.nextBlock
    · rw [hu]
      exact hwrite io'
    · rw [hu]
      exact unlink_inv h hchain io'
  · rw [if_neg hinner]
    exact hwrite io

theorem flushRetiresLoop_inv (fuel : Nat) (h : p.Inv first live) :
    (flushRetiresLoop fuel p).1.Inv first live ∧ Retires p (flushRetiresLoop fuel p).1 := by
  induction fuel generalizing p with
  | zero => exact ⟨h, Retires.refl p⟩
  | succ fuel ih =>
    rw [flushRetiresLoop]
    split
    · exact ⟨h, Retires.refl p⟩
    rename_i block off rest hretire
    have hfirst : (block, off) ∈ p.retire := by rw [hretire]; exact mem_cons_self
    have hpay := payBlock_inv h hfirst
    split
    · rename_i p' heq
      rw [heq] at hpay
      exact hpay
    rename_i p' heq
    rw [heq] at hpay
    obtain ⟨h1, h2⟩ := ih hpay.1
    exact ⟨h1, hpay.2.trans h2⟩

/-! The loop of `meta_pool_flush_retires` is not cut short. -/

theorem unlinkEmptyBlock_retire (index saysNext : Nat) : (p.unlinkEmptyBlock index saysNext).1.retire = p.retire := by
  unfold unlinkEmptyBlock
  simp only []
  split
  · rfl
  obtain ⟨io, hr | hr⟩ := p.readBlock_spec (p.chain.getD (index - 1) ⟨0, 0⟩).block
  · rw [hr]
  rw [hr]
  simp only []
  split
  · rfl
  obtain ⟨io', hw | hw⟩ := writeBlock_spec { p with io := io } (p.chain.getD (index - 1) ⟨0, 0⟩).block
    { decode (p.medium (p.chain.getD (index - 1) ⟨0, 0⟩).block) with
      nextBlock := (p.chain.getD (index + 1) ⟨0, 0⟩).block }.encode
  · rw [hw]
  · rw [hw]
    rfl

/-- A round that lets the loop go on has paid the debts of its block. -/
theorem payBlock_retire (h : (p.payBlock block).2 = true) :
    (p.payBlock block).1.retire = p.retire.filter (fun r => r.1 ≠ block) := by
  unfold payBlock at h ⊢
  simp only [] at h ⊢
  split at h
  · rename_i hc
    rw [if_pos hc]
    rfl
  rename_i hc
  rw [if_neg hc]
  obtain ⟨io, hr | hr⟩ := p.readBlock_spec block
  · rw [hr] at h
    cases h
  rw [hr] at h ⊢
  simp only [] at h ⊢
  generalize hhere : retireApply p.retire block (decode (p.medium block)) = here at h ⊢
  generalize hp' : setKept { p with io := io } (p.chainFind block) (countKeptRecords here) = p' at h ⊢
  have hretire' : p'.retire = p.retire := by rw [← hp']; rfl
  generalize hu : (if countKeptRecords here = 0 ∧ p.chainFind block > 0 ∧ p.chainFind block + 1 < p'.chain.length then
    p'.unlinkEmptyBlock (p.chainFind block) here.nextBlock else (p', false)) = u at h ⊢
  have hretire : u.1.retire = p.retire := by
    rw [← hu]
    split
    · rw [unlinkEmptyBlock_retire, hretire']
    · exact hretire'
  obtain ⟨p'', unlinked⟩ := u
  cases unlinked with
  | true => exact congrArg (List.filter fun r => r.1 ≠ block) hretire
  | false =>
    simp only [] at h hretire ⊢
    unfold payWrite at h ⊢
    obtain ⟨io', hw | hw⟩ :=
      p''.writeBlock_spec block ({ here with kept := countKeptRecords here } : MetaPoolBlock).encode
    · rw [hw] at h
      cases h
    · rw [hw]
      exact congrArg (List.filter fun r => r.1 ≠ block) hretire

theorem flushRetiresLoop_paid (fuel : Nat) (hfuel : p.retire.length ≤ fuel) (h : (flushRetiresLoop fuel p).2 = true) :
    (flushRetiresLoop fuel p).1.retire = [] := by
  induction fuel generalizing p with
  | zero => exact length_eq_zero_iff.mp (Nat.le_zero.mp hfuel)
  | succ fuel ih =>
    rw [flushRetiresLoop] at h ⊢
    cases hretire : p.retire with
    | nil =>
      simp only [hretire] at h ⊢
    | cons r rest =>
      obtain ⟨block, off⟩ := r
      simp only [hretire] at h ⊢
      cases hpay : p.payBlock block with
      | mk p' ok =>
        rw [hpay] at h
        cases ok with
        | false => cases h
        | true =>
          have hp' : p'.retire = p.retire.filter (fun r => r.1 ≠ block) := by
            have := @payBlock_retire p block
            rw [hpay] at this
            exact this rfl
          refine ih ?_ h
          -- the first debt is gone
          rw [hp', hretire, filter_cons_of_neg (by simp)]
          rw [hretire, length_cons] at hfuel
          exact (length_filter_le _ _).trans (by omega)

theorem flushRetires_inv (h : p.Inv first live) :
    (metaPoolFlushRetires p).1.Inv first live ∧ Retires p (metaPoolFlushRetires p).1 ∧
    ((metaPoolFlushRetires p).2 = true → (metaPoolFlushRetires p).1.retire = []) := by
  obtain ⟨h1, h2⟩ := flushRetiresLoop_inv p.retire.length h
  exact ⟨h1, h2, flushRetiresLoop_paid _ (le_refl _)⟩

end Facts

end BoxOS.TagFS
