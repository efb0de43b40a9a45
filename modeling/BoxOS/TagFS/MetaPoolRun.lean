import BoxOS.TagFS.MetaPoolOps

/-!
# Runs of the metadata pool

A pool as `metaPoolInit` finds it on the medium (`poolInit_inv`), and what holds after any run of its operations whose
block reads and writes fail at any points (`meta_pool_sound`).

`meta_pool_init` looks at the links of the blocks but not at whether their records add up to their used bytes, and the
write of a record trusts the used bytes; `broken_block_loses_record` is what that leads to.
-/

namespace BoxOS.TagFS

open Lib List Option MetaPoolBlock

/-! ## Init -/

/-- The entry of the chain for a block of the medium. -/
def linkOn (d : Medium) (block : Nat) : MetaPoolLink := ⟨block, countKeptRecords (decode (d block))⟩

/-- The current block as `meta_pool_init` leaves it. -/
def currentOn (d : Medium) (block : Nat) : MetaPoolBlock :=
  { decode (d block) with kept := countKeptRecords (decode (d block)) }

theorem metaPoolInitLoop_eq (run : Nat) (d : Medium) (hops block : Nat) (chain : List MetaPoolLink) :
    metaPoolInitLoop run d hops block chain =
      ((chainFormat mpoolMagic).walk run d hops block).bind fun bs =>
        bs.getLast?.map fun num => (chain ++ bs.map (linkOn d), num, currentOn d num) := by
  induction hops generalizing block chain with
  | zero => rfl
  | succ hops ih =>
    rw [metaPoolInitLoop, ChainFormat.walk]
    split
    · rfl
    split
    · rfl
    by_cases hend : (chainFormat mpoolMagic).next (d block) = 0
    · rw [if_pos hend]
      simp only [if_pos hend]
      rfl
    rw [if_neg hend]
    simp only [if_neg hend]
    rw [ih]
    cases hw : (chainFormat mpoolMagic).walk run d hops ((chainFormat mpoolMagic).next (d block)) with
    | none => rfl
    | some bs =>
      obtain ⟨rest, rfl, -⟩ := ChainFormat.walk_eq_some_iff.mp hw
      simp only [Option.map_some, bind_some, getLast?_cons_cons, append_assoc]
      rfl

variable {first : Nat}

/-- A pool that has been mounted from blocks that are taken and whose records add up. -/
theorem poolInit_inv {space : Space} {dedup : DedupState} {now : Nat} {d : Medium} {io : List Bool} {p : MetaPool}
    (hs : space.Inv) (hbound : space.totalBlocks < 2 ^ 32) (hzero : space.Holds 0)
    (hinit : metaPoolInit space dedup now d io first = some p)
    (hblocks : ∀ b ∈ p.blocks, space.Holds b ∧ (decode (d b)).Framed) : p.Inv first fun _ => none := by
  unfold metaPoolInit at hinit
  split at hinit
  · cases hinit
  rw [metaPoolInitLoop_eq, map_eq_some_iff] at hinit
  obtain ⟨⟨chain, num, cur⟩, hloop, rfl⟩ := hinit
  obtain ⟨bs, hwalk, hlast⟩ := bind_eq_some_iff.mp hloop
  obtain ⟨num', hnum, hpair⟩ := map_eq_some_iff.mp hlast
  obtain ⟨rfl, rfl, rfl⟩ : bs.map (linkOn d) = chain ∧ num' = num ∧ currentOn d num' = cur := by
    simpa only [nil_append, Prod.mk.injEq] using hpair
  obtain ⟨rest, hrest, hlinked, h0, hlt, -⟩ := ChainFormat.walk_eq_some_iff.mp hwalk
  generalize hp : (⟨currentOn d num', num', false, bs.map (linkOn d), [], space, dedup, now, d, io⟩ : MetaPool) = p
    at hblocks ⊢
  have hbs : p.blocks = bs := by
    rw [← hp, MetaPool.blocks]
    simp only [List.map_map]
    exact List.map_id bs
  have hmem : num' ∈ bs := mem_of_getLast? hnum
  -- the blocks hold what is on the medium, but for the count of the last one
  have hcontent : ∀ b, p.content b = if b = num' then currentOn d b else decode (d b) := by
    intro b
    rw [← hp, MetaPool.content]
    split
    · rename_i heq
      rw [heq]
    · rfl
  have hlink : ∀ b ∈ bs, LinkOk space.totalBlocks [] (fun _ => none) b (p.content b)
      (countKeptRecords (decode (d b))) := by
    intro b hb
    have hf := (hblocks b (hbs.symm ▸ hb)).2
    have hmagic : (decode (d b)).magic = mpoolMagic := by
      have hgood := hlinked.good_of_mem hb
      simpa [chainFormat, decode] using hgood
    have hok : LinkOk space.totalBlocks [] (fun _ => none) b (decode (d b))
        (countKeptRecords (decode (d b))) :=
      ⟨decode_ok _, hmagic, hf, (undeleted_of_paid hf fun _ => not_mem_nil).symm, fun _ hoff => absurd hoff not_mem_nil,
        fun _ _ hm => by cases hm⟩
    have hle := hok.kept_le
    rw [hcontent]
    split
    · exact hok.header hok.ok.next (by omega)
    · exact hok
  refine ⟨by rw [← hp]; exact hs, by rw [← hp]; exact hbound, by rw [← hp]; exact hzero, ?_, ?_, ?_, ?_, ?_, ?_, ?_, ?_,
    ?_, fun _ _ _ hm => by cases hm⟩
  · rw [hbs, hrest]
    rfl
  · rw [hbs, hnum, ← hp]
  · rw [← hp]
    exact List.mem_map.mpr ⟨num', hmem, rfl⟩
  · rw [hbs, hrest]
    exact (hrest ▸ hlinked).nodup h0
  · intro b hb
    have := (hblocks b hb).1
    rw [← hp]
    exact this
  · rw [hbs, hrest]
    exact h0
  · rw [hbs]
    refine hlinked.congr_links fun b _ => ?_
    rw [hcontent]
    split
    · exact ⟨rfl, rfl⟩
    · exact ⟨rfl, rfl⟩
  · intro link hl
    rw [← hp] at hl
    obtain ⟨b, hb, rfl⟩ := List.mem_map.mp hl
    have := hlink b hb
    rw [← hp] at this ⊢
    exact this
  · rw [← hp]
    exact fun r hr => absurd hr not_mem_nil

/-! ## Runs -/

inductive PoolOp where
  | write (m : TagFSMetadata)
  | delete (block offset : Nat)
  | flush
  | flushRetires

/-- The records that writes have returned and no delete has been called on. -/
abbrev LiveRecords := Nat × Nat → Option TagFSMetadata

variable (x : MetaPool × LiveRecords)

def poolStep : PoolOp → MetaPool × LiveRecords
  | .write m => ((metaPoolWrite x.1 m).1, afterWrite x.2 m (metaPoolWrite x.1 m).2)
  | .delete block offset => ((metaPoolDelete x.1 block offset).1, afterDelete x.2 (block, offset))
  | .flush => ((metaPoolFlush x.1).1, x.2)
  | .flushRetires => ((metaPoolFlushRetires x.1).1, x.2)

def poolRun (ops : List PoolOp) : MetaPool × LiveRecords := ops.foldl poolStep x

/-- File ids start at 1, and a delete is called on a live record, on any other record of the block, or on a block that
is not in the chain. -/
def PoolOp.Meets : PoolOp → Prop
  | .write m => m.fileId ≠ 0
  | .delete block offset => x.2 (block, offset) ≠ none ∨
      (block ∈ x.1.blocks → ∃ q ∈ recordStarts (x.1.content block), offset = 16 + q)
  | .flush => True
  | .flushRetires => True

/-- Every operation of a run meets the condition in the state it finds. -/
def PoolMeets (x : MetaPool × LiveRecords) : List PoolOp → Prop
  | [] => True
  | op :: ops => op.Meets x ∧ PoolMeets (poolStep x op) ops

/-- A step of the pool gives back only blocks that it takes out of the chain, and takes out of the chain only blocks
without undeleted records. -/
structure FreesDeleted (x y : MetaPool × LiveRecords) : Prop where
  unlinked : ∀ b ∈ x.1.blocks, b ∉ y.1.blocks → x.1.undeleted b = 0 ∧ ∀ off, x.2 (b, off) = none
  freed : ∀ b, x.1.space.Holds b → ¬ y.1.space.Holds b → b ∈ x.1.blocks ∧ b ∉ y.1.blocks

theorem MetaPool.Inv.record {p : MetaPool} {live : LiveRecords} (h : p.Inv first live) {block off : Nat}
    {m : TagFSMetadata} (hm : live (block, off) = some m) :
    ∃ q, off = 16 + q ∧ HasRecord p.space.totalBlocks (p.content block) q m ∧ (block, off) ∉ p.retire := by
  obtain ⟨link, hl, rfl⟩ := List.mem_map.mp (h.live block off m hm)
  exact (h.links link hl).live off m hm

theorem poolStep_inv {x : MetaPool × LiveRecords} {op : PoolOp} (h : x.1.Inv first x.2) (hop : op.Meets x) :
    (poolStep x op).1.Inv first (poolStep x op).2 ∧ FreesDeleted x (poolStep x op) := by
  have hsame : ∀ y : MetaPool × LiveRecords, (∀ b, x.1.space.Holds b → y.1.space.Holds b) →
      (∀ b ∈ x.1.blocks, b ∈ y.1.blocks) → FreesDeleted x y := by
    intro y hholds hblocks
    exact ⟨fun b hb hn => absurd (hblocks b hb) hn, fun b hb hn => absurd (hholds b hb) hn⟩
  cases op with
  | write m =>
    obtain ⟨hinv, hkeeps⟩ := write_inv h (m := m) hop
    exact ⟨hinv, hsame _ hkeeps.holds hkeeps.blocks⟩
  | delete block offset =>
    have hloc : block ∈ x.1.blocks → ∃ q ∈ recordStarts (x.1.content block), offset = 16 + q := by
      rcases hop with hlive | hloc
      · obtain ⟨m, hm⟩ := ne_none_iff_exists'.mp hlive
        obtain ⟨q, hq, hrec, -⟩ := h.record hm
        exact fun _ => ⟨q, hrec.start, hq⟩
      · exact hloc
    obtain ⟨hinv, hspace, hblocks⟩ := delete_inv h hloc
    exact ⟨hinv, hsame _ (fun b hb => hspace.symm ▸ hb) fun b hb => hblocks.symm ▸ hb⟩
  | flush =>
    obtain ⟨hinv, hchain, hspace⟩ := flush_inv h
    exact ⟨hinv, hsame _ (fun b hb => hspace.symm ▸ hb) fun b hb => by rw [MetaPool.blocks, poolStep, hchain]; exact hb⟩
  | flushRetires =>
    obtain ⟨hinv, hret, -⟩ := flushRetires_inv h
    refine ⟨hinv, fun b hb hn => ?_, hret.freed⟩
    have hzero := hret.dropped b hb hn
    obtain ⟨before, after, hchain⟩ := h.link_of_mem hb
    have hlink := h.links ⟨b, x.1.undeleted b⟩ (by rw [hchain]; simp)
    simp only [hzero] at hlink
    exact ⟨hzero, hlink.none_live⟩

theorem poolRun_inv (ops : List PoolOp) {x : MetaPool × LiveRecords} (h : x.1.Inv first x.2)
    (hops : PoolMeets x ops) : (poolRun x ops).1.Inv first (poolRun x ops).2 := by
  induction ops generalizing x with
  | nil => exact h
  | cons op ops ih => exact ih (poolStep_inv h hops.1).1 hops.2

/-- The pool as the operations are meant to keep it: live records read back unless the block cannot be read, the chain
in memory is the chain on the medium with the current block laid over it, and the counts are right. -/
structure PoolSound (first : Nat) (x : MetaPool × LiveRecords) : Prop where
  read : ∀ block off m, x.2 (block, off) = some m → (metaPoolRead x.1 block off).1 = some m ∨
    block ≠ x.1.currentNum ∧ (x.1.readBlock block).1 = none
  chain : poolFormat.walk x.1.space.totalBlocks x.1.content x.1.space.totalBlocks first = some x.1.blocks
  nodup : x.1.blocks.Nodup
  kept : ∀ link ∈ x.1.chain, link.kept = x.1.undeleted link.block
  -- the live records are among those counted
  counted : ∀ block off m, x.2 (block, off) = some m → ∃ q ∈ recordStarts (x.1.content block), off = 16 + q ∧
    fieldAt 4 (q + 2) (x.1.content block).payload ≠ 0 ∧ (block, off) ∉ x.1.retire

theorem MetaPool.Inv.sound {x : MetaPool × LiveRecords} (h : x.1.Inv first x.2) : PoolSound first x := by
  refine ⟨?_, ?_, h.nodup, fun link hl => (h.links link hl).kept, ?_⟩
  · intro block off m hm
    obtain ⟨q, rfl, hrec, -⟩ := h.record hm
    unfold metaPoolRead
    by_cases hcur : block = x.1.currentNum
    · rw [if_pos hcur]
      rw [hcur, x.1.content_current] at hrec
      exact Or.inl hrec.unpack
    rw [if_neg hcur]
    rw [MetaPool.content_of_ne hcur] at hrec
    obtain ⟨io, hr | hr⟩ := x.1.readBlock_spec block
    · exact Or.inr ⟨hcur, by rw [hr]⟩
    rw [hr]
    have hunpack := hrec.unpack
    rw [encode_drop, decode, drop_drop] at hunpack
    exact Or.inl hunpack
  · have hlt : ∀ b ∈ x.1.blocks, b < x.1.space.totalBlocks := fun b hb => (h.holds b hb).1
    have hhead : x.1.blocks = first :: x.1.blocks.tail := (eq_cons_of_mem_head? h.first)
    exact ChainFormat.walk_eq_some_iff.mpr
      ⟨x.1.blocks.tail, hhead, h.linked, h.tail, hlt, length_le_of_nodup_lt h.nodup hlt⟩
  · intro block off m hm
    obtain ⟨q, rfl, hrec, hn⟩ := h.record hm
    exact ⟨q, hrec.start, rfl, hrec.id_ne, hn⟩

/-- Every run on a pool whose blocks are taken and whose records add up at the mount: it stays in order whichever block
reads and writes fail, and gives back only blocks without undeleted records. -/
theorem meta_pool_sound {space : Space} {dedup : DedupState} {now : Nat} {d : Medium} {io : List Bool} {first : Nat}
    {p : MetaPool} (hs : space.Inv) (hbound : space.totalBlocks < 2 ^ 32) (hzero : space.Holds 0)
    (hinit : metaPoolInit space dedup now d io first = some p)
    (hblocks : ∀ b ∈ p.blocks, space.Holds b ∧ (decode (d b)).Framed) (ops : List PoolOp)
    (hops : PoolMeets (p, fun _ => none) ops) :
    PoolSound first (poolRun (p, fun _ => none) ops) ∧ ∀ op : PoolOp, op.Meets (poolRun (p, fun _ => none) ops) →
    FreesDeleted (poolRun (p, fun _ => none) ops) (poolStep (poolRun (p, fun _ => none) ops) op) := by
  have hinv := poolRun_inv ops (poolInit_inv hs hbound hzero hinit hblocks) hops
  exact ⟨hinv.sound, fun op hop => (poolStep_inv hinv hop).2⟩

/-- A volume of 8 blocks, blocks 0 to 2 taken. -/
def eightBlocks : Space := ⟨[0x07], 8, [⟨3, 5⟩], 1, 5⟩

theorem eightBlocks_mounted : mountSpace 8 (fun _ => 0x07) = some eightBlocks := by decide

def noDedup : DedupState := ⟨false, fun _ => [], fun _ => [], 0⟩

/-- A file with nothing in it. -/
def emptyFile (fileId : UInt32) : TagFSMetadata := ⟨fileId, 0, 0, 0, 0, [], [], ⟨[], by simp⟩⟩

/-- A fresh pool in block 1 of which one record is written and deleted, while a block write fails. -/
theorem meta_pool_sound_small :
    ∃ p, metaPoolInit eightBlocks noDedup 0 (fun _ => freshBlock.encode) [false] 1 = some p ∧
    PoolSound 1 (poolRun (p, fun _ => none) [.write (emptyFile 1), .flush, .write (emptyFile 2), .delete 1 16]) := by
  obtain ⟨p, hp⟩ : ∃ p, metaPoolInit eightBlocks noDedup 0 (fun _ => freshBlock.encode) [false] 1 = some p :=
    isSome_iff_exists.mp (by decide +kernel)
  have hfacts : (metaPoolInit eightBlocks noDedup 0 (fun _ => freshBlock.encode) [false] 1).all (fun p =>
      decide (p.blocks = [1] ∧
        (poolRun (p, fun _ => none) [.write (emptyFile 1), .flush, .write (emptyFile 2)]).2 (1, 16) ≠ none)) =
        true := by
    decide +kernel
  rw [hp, all_some, decide_eq_true_eq] at hfacts
  obtain ⟨hs, htot⟩ := mountSpace_inv (by decide) eightBlocks_mounted
  have hframed : (decode freshBlock.encode).Framed := by
    rw [decode_encode freshBlock_ok]
    exact ⟨length_replicate, Nat.zero_le _, rfl⟩
  refine ⟨p, hp, (meta_pool_sound hs (by rw [htot]; decide) (by decide) hp ?_ _ ?_).1⟩
  · intro b hb
    rw [hfacts.1, mem_singleton] at hb
    exact ⟨hb ▸ by decide, hframed⟩
  · exact ⟨show (emptyFile 1).fileId ≠ 0 by decide, trivial, show (emptyFile 2).fileId ≠ 0 by decide, Or.inl hfacts.2,
      trivial⟩

/-- The pool starts in block 1, and its last block says that 3996 bytes are used but has no record in them. -/
def brokenMedium : Medium := fun b =>
  if b = 1 then { freshBlock with nextBlock := 2 }.encode else { freshBlock with usedBytes := 3996 }.encode

/-- Two records go to the broken block, a third one no longer fits and goes to a new block; the first is deleted. -/
def brokenRun : List PoolOp :=
  [.write (emptyFile 1), .write (emptyFile 2), .write (emptyFile 3), .delete 2 4012]

/-- The records of a broken block are not counted: the block is given back with a live record in it. -/
theorem broken_block_loses_record :
    ∃ p, metaPoolInit eightBlocks noDedup 0 brokenMedium [] 1 = some p ∧ (∀ b ∈ p.blocks, eightBlocks.Holds b) ∧
    PoolMeets (p, fun _ => none) brokenRun ∧ (poolRun (p, fun _ => none) brokenRun).2 (2, 4054) = some (emptyFile 2) ∧
    (poolRun (p, fun _ => none) brokenRun).1.chain = [⟨1, 0⟩, ⟨2, 0⟩, ⟨3, 1⟩] ∧
    (poolStep (poolRun (p, fun _ => none) brokenRun) .flushRetires).1.chain = [⟨1, 0⟩, ⟨3, 1⟩] ∧
    ¬ (poolStep (poolRun (p, fun _ => none) brokenRun) .flushRetires).1.space.Holds 2 := by
  obtain ⟨p, hp⟩ : ∃ p, metaPoolInit eightBlocks noDedup 0 brokenMedium [] 1 = some p :=
    isSome_iff_exists.mp (by decide +kernel)
  have hfacts : (metaPoolInit eightBlocks noDedup 0 brokenMedium [] 1).all (fun p =>
      decide ((∀ b ∈ p.blocks, eightBlocks.Holds b) ∧
        (poolRun (p, fun _ => none) (brokenRun.take 3)).2 (2, 4012) ≠ none ∧
        (poolRun (p, fun _ => none) brokenRun).2 (2, 4054) = some (emptyFile 2) ∧
        (poolRun (p, fun _ => none) brokenRun).1.chain = [⟨1, 0⟩, ⟨2, 0⟩, ⟨3, 1⟩] ∧
        (poolStep (poolRun (p, fun _ => none) brokenRun) .flushRetires).1.chain = [⟨1, 0⟩, ⟨3, 1⟩] ∧
        ¬ (poolStep (poolRun (p, fun _ => none) brokenRun) .flushRetires).1.space.Holds 2)) = true := by
    decide +kernel
  rw [hp, all_some, decide_eq_true_eq] at hfacts
  obtain ⟨hheld, hlive, hrest⟩ := hfacts
  have hid1 : (emptyFile 1).fileId ≠ 0 := by decide
  have hid2 : (emptyFile 2).fileId ≠ 0 := by decide
  have hid3 : (emptyFile 3).fileId ≠ 0 := by decide
  exact ⟨p, hp, hheld, ⟨hid1, hid2, hid3, Or.inl hlive, trivial⟩, hrest⟩

end BoxOS.TagFS
