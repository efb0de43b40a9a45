import BoxOS.Lib.Chain
import BoxOS.Lib.Words
import BoxOS.TagFS.SpaceInv

/-!
# Chains of blocks on a volume

The tag registry, the file table and the metadata pool each live in a chain of blocks that starts at a fixed block of
the layout and takes new blocks as it grows. `ChainState` is the chain in memory with the space that new blocks come
from, and `FlushResult` what a flush does: the block writes it makes, in order.

- `ChainOk`, `ChainAt`: a chain in memory that is safe to write over; `follow_spec`: its growth;
- `Flushes`: a flush that lays out given pages over the chain, as those of the registry and of the file table do;
- `flush_pagesAt`: the pages are on the medium after a successful flush;
- `cut_same`, `cut_append`: what is on the medium when a later flush over the same chain stops after some of its writes.
-/

namespace BoxOS.TagFS

open Lib List Option

/-- The contents of one block. -/
abbrev Block := List UInt8

/-- The data blocks of a volume. -/
abbrev Medium := Nat → Block

/-- The header fields that all chains share: the magic, and the number of the next block. -/
def chainFormat (magic : Nat) : ChainFormat Block := ⟨fun b => fieldAt 4 0 b == magic, fieldAt 4 4⟩

/-- The chain of blocks in memory, and the space that new blocks are taken from. -/
structure ChainState where
  chain : List Nat
  space : Space
deriving DecidableEq, Repr

/-- The block after `g_chain[link]`: one of the chain, or a new one appended to it. -/
def ChainState.follow (cs : ChainState) (link : Nat) : Option (Nat × ChainState) :=
  if link + 1 < cs.chain.length then some (cs.chain.getD (link + 1) 0, cs)
  else do
    let (newBlock, space) ← cs.space.allocBlocks 1
    return (newBlock, ⟨cs.chain ++ [newBlock], space⟩)

/-- What a flush leaves: the chain, the writes in order, and whether it returned 0 with all its writes succeeding. -/
structure FlushResult where
  state : ChainState
  writes : List (Nat × Block)
  ok : Bool

/-- The chain that a flush starts from: an empty one gets the first block of the layout. -/
def ChainState.start (cs : ChainState) (firstBlock : Nat) : ChainState :=
  if cs.chain.length = 0 then { cs with chain := [firstBlock] } else cs

/-! ## The chain of blocks -/

/-- The block is one of the volume and taken. -/
def Space.Holds (s : Space) (b : Nat) : Prop := b < s.totalBlocks ∧ bitAt s.bitmap b = true

instance (s : Space) (b : Nat) : Decidable (s.Holds b) := inferInstanceAs (Decidable (_ ∧ _))

/-- A chain in memory: distinct blocks of the volume, all taken; block 0 is taken too, and no link points to it. -/
structure ChainOk (cs : ChainState) : Prop where
  inv : cs.space.Inv
  zero : cs.space.Holds 0
  nodup : cs.chain.Nodup
  holds : ∀ b ∈ cs.chain, cs.space.Holds b
  tail : 0 ∉ cs.chain.tail

variable {l : List Nat} {cs : ChainState}

theorem tail_append_of_pos {m : List Nat} (h : 0 < l.length) : (l ++ m).tail = l.tail ++ m := by
  cases l with
  | nil => simp at h
  | cons a l => rfl

/-- The next block of a chain: the chain only grows, and only by blocks that were free. -/
theorem follow_spec (h : ChainOk cs) {link : Nat} (hlink : link < cs.chain.length) :
    (∀ nb cs', cs.follow link = some (nb, cs') → ChainOk cs' ∧ cs.chain <+: cs'.chain ∧ cs'.chain[link + 1]? = some nb ∧
    cs'.space.totalBlocks = cs.space.totalBlocks ∧ (∀ b ∈ cs'.chain, b ∈ cs.chain ∨ cs.space.IsFree b) ∧
    (cs'.chain.length ≤ cs.chain.length → cs' = cs) ∧ ∀ b, cs'.space.IsFree b → cs.space.IsFree b) ∧
    (cs.follow link = none → cs.chain.length ≤ link + 1 ∧ ∀ b, ¬ cs.space.IsFree b) := by
  unfold ChainState.follow
  by_cases hin : link + 1 < cs.chain.length
  · rw [if_pos hin]
    refine ⟨?_, nofun⟩
    intro nb cs' hsome
    obtain ⟨rfl, rfl⟩ := Prod.mk.inj (some.inj hsome)
    refine ⟨h, prefix_refl _, ?_, rfl, fun b hb => Or.inl hb, fun _ => rfl, fun b hb => hb⟩
    rw [getD_eq_getElem?_getD, getElem?_eq_getElem hin]
    rfl
  rw [if_neg hin]
  have halloc : cs.space.allocBlocks 1 = cs.space.allocBlocksInternal 1 := if_neg (by decide)
  rw [halloc]
  cases hal : cs.space.allocBlocksInternal 1 with
  | none =>
    refine ⟨fun nb cs' hsome => (nomatch hsome), fun _ => ⟨by omega, ?_⟩⟩
    intro b hfree
    refine alloc_none h.inv (by decide) hal b ?_
    intro b' hle hlt
    obtain rfl : b' = b := by omega
    exact hfree
  | some r =>
    obtain ⟨nb, space⟩ := r
    obtain ⟨hin', hfree, htot, hbits⟩ := alloc_spec h.inv hal
    have hnb : cs.space.IsFree nb := hfree nb (le_refl _) (by omega)
    have hkeep : ∀ b, cs.space.Holds b → space.Holds b := by
      rintro b ⟨hlt, hset⟩
      exact ⟨by omega, by rw [hbits, hset]; rfl⟩
    have hfresh : ∀ b, cs.space.Holds b → b ≠ nb := by
      rintro b ⟨-, hset⟩ rfl
      rw [hnb.2] at hset
      exact Bool.noConfusion hset
    refine ⟨?_, nofun⟩
    intro nb' cs' hsome
    obtain ⟨rfl, rfl⟩ := Prod.mk.inj (some.inj hsome)
    refine ⟨⟨alloc_inv h.inv hal, hkeep 0 h.zero, ?_, ?_, ?_⟩, prefix_append _ _, ?_, htot, ?_, ?_, ?_⟩
    · rw [nodup_append]
      refine ⟨h.nodup, nodup_singleton _, ?_⟩
      intro a ha b hb
      rw [mem_singleton] at hb
      exact hb ▸ hfresh a (h.holds a ha)
    · intro b hb
      rcases mem_append.mp hb with hb | hb
      · exact hkeep b (h.holds b hb)
      rw [mem_singleton] at hb
      subst hb
      refine ⟨?_, by rw [hbits]; simp⟩
      change b < space.totalBlocks
      omega
    · rw [tail_append_of_pos (by omega), mem_append, mem_singleton, not_or]
      exact ⟨h.tail, hfresh 0 h.zero⟩
    · obtain hlen : cs.chain.length = link + 1 := by omega
      simp [← hlen]
    · intro b hb
      rcases mem_append.mp hb with hb | hb
      · exact Or.inl hb
      · rw [mem_singleton] at hb
        exact Or.inr (hb ▸ hnb)
    · intro hlen
      rw [length_append, length_singleton] at hlen
      omega
    · rintro b ⟨hlt, hclear⟩
      refine ⟨htot ▸ hlt, ?_⟩
      rw [hbits, Bool.or_eq_false_iff] at hclear
      exact hclear.1

/-! ## Flushes -/

/-- How the pages of one chain are written: with the magic of the chain, and linked to the block given. -/
structure PageCodec (P : Type) (F : ChainFormat Block) where
  enc : P → Nat → Block
  good_enc : ∀ p n, F.good (enc p n) = true
  next_enc : ∀ p n, n < 2 ^ 32 → F.next (enc p n) = n

variable {P : Type} {F : ChainFormat Block} {codec : PageCodec P F}

/-- A flush lays out the pages over the blocks of the chain from `link` on. It stops early only when it finds no free
block, and then without the page that would have linked to it. -/
structure Flushes (codec : PageCodec P F) (cs : ChainState) (link : Nat) (pages : List P) (r : FlushResult) : Prop where
  chainOk : ChainOk r.state
  grows : cs.chain <+: r.state.chain
  total : r.state.space.totalBlocks = cs.space.totalBlocks
  fresh : ∀ b ∈ r.state.chain, b ∈ cs.chain ∨ cs.space.IsFree b
  same : r.state.chain.length ≤ cs.chain.length → r.state = cs
  free : ∀ b, r.state.space.IsFree b → cs.space.IsFree b
  long : r.ok = true → link + pages.length ≤ r.state.chain.length
  writes : r.ok = true → r.writes = pageWrites codec.enc ((r.state.chain.drop link).take pages.length) pages
  full : r.ok = false → ∀ b, ¬ r.state.space.IsFree b
  cut : r.ok = false → r.state.chain.length < link + pages.length ∧
    r.writes = (pageWrites codec.enc (r.state.chain.drop link) pages).take (r.state.chain.length - link - 1)

theorem drop_take_succ {link n b : Nat} (h : l[link]? = some b) :
    (l.drop link).take (n + 1) = b :: (l.drop (link + 1)).take n := by
  obtain ⟨hlt, hget⟩ := List.getElem?_eq_some_iff.mp h
  rw [drop_eq_getElem_cons hlt, take_succ_cons, hget]

theorem Flushes.last (h : ChainOk cs) {link block : Nat} (hblock : cs.chain[link]? = some block)
    (p : P) : Flushes codec cs link [p] ⟨cs, [(block, codec.enc p 0)], true⟩ where
  chainOk := h
  grows := prefix_refl _
  total := rfl
  fresh b hb := Or.inl hb
  same _ := rfl
  free b hb := hb
  long _ := (List.getElem?_eq_some_iff.mp hblock).1
  writes _ := by
    rw [length_singleton, drop_take_succ hblock]
    rfl
  full hc := Bool.noConfusion hc
  cut hc := Bool.noConfusion hc

theorem Flushes.stuck (h : ChainOk cs) {link : Nat} (hlink : link < cs.chain.length) (hfollow : cs.follow link = none)
    (p : P) {pages : List P} (hne : pages ≠ []) : Flushes codec cs link (p :: pages) ⟨cs, [], false⟩ where
  chainOk := h
  grows := prefix_refl _
  total := rfl
  fresh b hb := Or.inl hb
  same _ := rfl
  free b hb := hb
  long hc := Bool.noConfusion hc
  writes hc := Bool.noConfusion hc
  full _ := ((follow_spec h hlink).2 hfollow).2
  cut _ := by
    have hshort := ((follow_spec h hlink).2 hfollow).1
    have hpos := length_pos_of_ne_nil hne
    refine ⟨?_, ?_⟩
    · rw [length_cons]
      change cs.chain.length < _
      omega
    · change [] = List.take (cs.chain.length - link - 1) _
      rw [show cs.chain.length - link - 1 = 0 by omega, take_zero]

theorem Flushes.next {cs' : ChainState} (h : ChainOk cs) {link block nb : Nat}
    (hblock : cs.chain[link]? = some block) (hfollow : cs.follow link = some (nb, cs')) (p : P) {pages : List P}
    (hne : pages ≠ []) {r : FlushResult} (hr : Flushes codec cs' (link + 1) pages r) :
    Flushes codec cs link (p :: pages) { r with writes := (block, codec.enc p nb) :: r.writes } := by
  have hlink : link < cs.chain.length := (List.getElem?_eq_some_iff.mp hblock).1
  obtain ⟨-, hpre, hnb, htot, hfresh, hsame, hfree⟩ := (follow_spec h hlink).1 nb cs' hfollow
  have hb : r.state.chain[link]? = some block := by
    obtain ⟨t, ht⟩ := hpre.trans hr.grows
    rw [← ht, getElem?_append_left hlink, hblock]
  have hb' : r.state.chain[link + 1]? = some nb := by
    obtain ⟨t, ht⟩ := hr.grows
    rw [← ht, getElem?_append_left (List.getElem?_eq_some_iff.mp hnb).1, hnb]
  have hlen : link + 1 < r.state.chain.length := (List.getElem?_eq_some_iff.mp hb').1
  obtain ⟨k, hk⟩ : ∃ k, pages.length = k + 1 := Nat.exists_eq_succ_of_ne_zero (length_pos_of_ne_nil hne).ne'
  refine ⟨hr.chainOk, hpre.trans hr.grows, hr.total.trans htot, ?_, ?_, ?_, ?_, ?_, hr.full, ?_⟩
  · intro b hmem
    rcases hr.fresh b hmem with hb | hb
    · exact hfresh b hb
    · exact Or.inr (hfree b hb)
  · intro hle
    have hcs : cs' = cs := hsame (hr.grows.length_le.trans hle)
    rw [← hcs]
    exact hr.same (hcs ▸ hle)
  · exact fun b hb => hfree b (hr.free b hb)
  · intro hc
    have := hr.long hc
    rw [length_cons]
    change link + (pages.length + 1) ≤ r.state.chain.length
    omega
  · intro hc
    rw [length_cons, drop_take_succ hb, pageWrites, ← hr.writes hc]
    rw [hk, drop_take_succ hb']
    rfl
  · intro hc
    obtain ⟨hshort, hw⟩ := hr.cut hc
    change r.state.chain.length < _ ∧ _ = List.take (r.state.chain.length - link - 1) _
    refine ⟨by rw [length_cons]; omega, ?_⟩
    obtain ⟨j, hj⟩ : ∃ j, r.state.chain.length - link - 1 = j + 1 := ⟨r.state.chain.length - link - 2, by omega⟩
    have hdrop : r.state.chain.drop link = block :: r.state.chain.drop (link + 1) := by
      obtain ⟨hlt, hget⟩ := List.getElem?_eq_some_iff.mp hb
      rw [drop_eq_getElem_cons hlt, hget]
    have hhead : (r.state.chain.drop (link + 1)).headD 0 = nb := by
      obtain ⟨hlt, hget⟩ := List.getElem?_eq_some_iff.mp hb'
      rw [drop_eq_getElem_cons hlt, hget]
      rfl
    rw [show r.state.chain.length - (link + 1) - 1 = j by omega] at hw
    rw [hdrop, pageWrites, hhead, hj, take_succ_cons, hw]

/-- A chain in memory that starts at the first block of the layout, or has not been started. -/
structure ChainAt (cs : ChainState) (firstBlock : Nat) : Prop where
  ok : ChainOk cs
  first : cs.space.Holds firstBlock
  head : cs.chain = [] ∨ cs.chain.head? = some firstBlock
  bound : cs.space.totalBlocks < 2 ^ 32

variable {firstBlock : Nat}

theorem ChainAt.start (h : ChainAt cs firstBlock) : ChainOk (cs.start firstBlock) ∧
    (cs.start firstBlock).chain[0]? = some firstBlock ∧ (cs.start firstBlock).space = cs.space := by
  unfold ChainState.start
  by_cases h0 : cs.chain.length = 0
  · rw [if_pos h0]
    refine ⟨⟨h.ok.inv, h.ok.zero, nodup_singleton _, ?_, by simp⟩, rfl, rfl⟩
    intro b hb
    rw [mem_singleton] at hb
    exact hb ▸ h.first
  · rw [if_neg h0]
    have hne : cs.chain ≠ [] := fun hc => h0 (by rw [hc]; rfl)
    exact ⟨h.ok, by rw [← head?_eq_getElem?]; exact h.head.resolve_left hne, rfl⟩

theorem length_le_of_nodup_lt {n : Nat} (hnd : l.Nodup) (hlt : ∀ b ∈ l, b < n) : l.length ≤ n := by
  have hsub : l ⊆ List.range n := fun b hb => mem_range.mpr (hlt b hb)
  simpa using (subperm_of_subset hnd hsub).length_le

theorem cons_of_getElem? {b : Nat} (h : l[0]? = some b) : l = b :: l.tail := by
  cases l with
  | nil => cases h
  | cons c l => exact congrArg (· :: l) (some.inj h)

theorem flush_chainAt (hcs : ChainAt cs firstBlock) {pages : List P} {r : FlushResult}
    (h : Flushes codec (cs.start firstBlock) 0 pages r) : ChainAt r.state firstBlock ∧
    r.state.chain[0]? = some firstBlock ∧ r.state.space.totalBlocks = cs.space.totalBlocks := by
  obtain ⟨-, hhead, hspace⟩ := hcs.start
  obtain ⟨t, ht⟩ := h.grows
  have hget : r.state.chain[0]? = some firstBlock := by
    rw [← ht, getElem?_append_left (List.getElem?_eq_some_iff.mp hhead).1, hhead]
  have hmem : firstBlock ∈ r.state.chain := mem_of_getElem? hget
  have htotal : r.state.space.totalBlocks = cs.space.totalBlocks := by rw [h.total, hspace]
  refine ⟨⟨h.chainOk, h.chainOk.holds _ hmem, Or.inr (by rw [head?_eq_getElem?]; exact hget), ?_⟩, hget, htotal⟩
  rw [htotal]
  exact hcs.bound

theorem flush_pagesAt {pages : List P} {r : FlushResult} (h : Flushes codec cs 0 pages r) (hok : r.ok = true)
    (d : Medium) : PagesAt codec.enc (applyWrites d r.writes) (r.state.chain.take pages.length) pages := by
  have hlong := h.long hok
  rw [Nat.zero_add] at hlong
  have hlen : (r.state.chain.take pages.length).length = pages.length := by
    rw [length_take, min_eq_left hlong]
  rw [h.writes hok, drop_zero]
  exact pagesAt_applyWrites hlen (h.chainOk.nodup.sublist (take_sublist _ _)) d

theorem walk_pages (hcs : ChainAt cs firstBlock) (hhead : cs.chain[0]? = some firstBlock) {pages : List P}
    (hne : pages ≠ []) {d : Medium} (h : PagesAt codec.enc d (cs.chain.take pages.length) pages) :
    F.walk cs.space.totalBlocks d cs.space.totalBlocks firstBlock = some (cs.chain.take pages.length) := by
  have hsub : (cs.chain.take pages.length).Sublist cs.chain := take_sublist _ _
  have hnd : (cs.chain.take pages.length).Nodup := hcs.ok.nodup.sublist hsub
  have hlt : ∀ b ∈ cs.chain.take pages.length, b < cs.space.totalBlocks := fun b hb =>
    (hcs.ok.holds b (hsub.subset hb)).1
  obtain ⟨k, hk⟩ : ∃ k, pages.length = k + 1 := Nat.exists_eq_succ_of_ne_zero (length_pos_of_ne_nil hne).ne'
  have htake : cs.chain.take pages.length = firstBlock :: cs.chain.tail.take k := by
    rw [hk]
    conv_lhs => rw [cons_of_getElem? hhead]
    rfl
  have hlinked : F.Linked d (cs.chain.take pages.length) :=
    h.linked codec.good_enc codec.next_enc (by decide) fun b hb => (hlt b hb).trans hcs.bound
  refine ChainFormat.walk_eq_some_iff.mpr ⟨_, htake, hlinked, ?_, hlt, length_le_of_nodup_lt hnd hlt⟩
  exact fun hz => hcs.ok.tail (mem_of_mem_take hz)

/-! ## A flush that is cut off -/

section Cut

variable {cs : ChainState} {pages pages' : List P} {d : Medium} {r : FlushResult}

/-- A later flush over the same chain needs no further block, or finds none. -/
def Quiet (cs : ChainState) (pages pages' : List P) : Prop :=
  pages'.length = pages.length ∨ (cs.chain.length ≤ pages.length ∧ ∀ b, ¬ cs.space.IsFree b)

/-- Whenever a quiet flush stops, the chain holds new pages first and old pages after them. -/
theorem cut_same (hpages : PagesAt codec.enc d (cs.chain.take pages.length) pages) (hcs : ChainOk cs)
    (hlong : pages.length ≤ cs.chain.length) (hne : pages ≠ []) (hmore : pages.length ≤ pages'.length)
    (hr : Flushes codec cs 0 pages' r) (hquiet : Quiet cs pages pages') (k : Nat) : ∃ j,
    PagesAt codec.enc (applyWrites d (r.writes.take k)) (cs.chain.take pages.length) (pages'.take j ++ pages.drop j) ∧
    (pages'.length ≠ pages.length → j < pages.length) := by
  have hnd : (cs.chain.take pages.length).Nodup := hcs.nodup.sublist (take_sublist _ _)
  have hlen : (cs.chain.take pages.length).length = pages.length := by rw [length_take, min_eq_left hlong]
  have hpos := length_pos_of_ne_nil hne
  have hcase : pages'.length = pages.length ∨
      (pages'.length ≠ pages.length ∧ cs.chain.length ≤ pages.length ∧ ∀ b, ¬ cs.space.IsFree b) := by
    by_cases heq : pages'.length = pages.length
    · exact Or.inl heq
    · exact Or.inr ⟨heq, hquiet.resolve_left heq⟩
  rcases hcase with heq | ⟨hneq, hshort, hfull⟩
  · -- the pages fit: the flush rewrites the blocks in place
    have hfit : r.ok = true ∧ r.state.chain.take pages'.length = cs.chain.take pages.length := by
      obtain ⟨t, ht⟩ := hr.grows
      refine ⟨?_, ?_⟩
      · by_contra hno
        rw [Bool.not_eq_true] at hno
        have := (hr.cut hno).1
        have := hr.grows.length_le
        omega
      · rw [heq, ← ht, take_append_of_le_length hlong]
    refine ⟨k, ?_, fun hc => absurd heq hc⟩
    rw [hr.writes hfit.1, drop_zero, hfit.2]
    exact pagesAt_take (hlen.trans heq.symm) hnd k hpages
  · -- no block is left: the flush stops before the page that would link to it
    have hstate : r.state.chain = cs.chain := by
      obtain ⟨t, ht⟩ := hr.grows
      cases t with
      | nil => rw [← ht, append_nil]
      | cons b t =>
        have hb : b ∈ r.state.chain := by rw [← ht]; simp
        rcases hr.fresh b hb with hin | hfree
        · have hnd' := hr.chainOk.nodup
          rw [← ht] at hnd'
          exact absurd rfl ((nodup_append.mp hnd').2.2 b hin b mem_cons_self)
        · exact absurd hfree (hfull b)
    have hno : r.ok = false := by
      by_contra hc
      rw [Bool.not_eq_false] at hc
      have := hr.long hc
      rw [hstate] at this
      omega
    obtain ⟨-, hw⟩ := hr.cut hno
    have hall : cs.chain.take pages.length = cs.chain := take_of_length_le hshort
    rw [hstate, drop_zero, ← hall, hlen] at hw
    rw [hw, take_take, ← pageWrites_take_pages, hlen]
    refine ⟨min k (pages.length - 0 - 1), ?_, fun _ => by omega⟩
    have hlen' : (cs.chain.take pages.length).length = (pages'.take pages.length).length := by
      rw [hlen, length_take, min_eq_left hmore]
    have htake := pagesAt_take hlen' hnd (min k (pages.length - 0 - 1)) hpages
    rw [take_take, min_eq_left (show min k (pages.length - 0 - 1) ≤ pages.length by omega)] at htake
    exact htake

/-- A flush that appends a block leaves, after as many writes as there were blocks, a chain that runs into it: unless
the block already has the magic of the chain, the chain cannot be walked any more. -/
theorem cut_append (hbound : cs.space.totalBlocks < 2 ^ 32) {firstBlock : Nat} (hhead : cs.chain[0]? = some firstBlock)
    (hlong : pages.length ≤ cs.chain.length) (hmore : pages.length < pages'.length) (hr : Flushes codec cs 0 pages' r)
    (hquiet : ¬ Quiet cs pages pages')
    (hstale : ∀ b, cs.space.IsFree b ∨ b ∈ cs.chain.drop pages.length → F.good (d b) = false) (run fuel : Nat) :
    F.walk run (applyWrites d (r.writes.take pages.length)) fuel firstBlock = none := by
  have hgrown : pages.length < r.state.chain.length := by
    by_contra hle
    have hsub := hr.grows.length_le
    have hstate : r.state = cs := hr.same (by omega)
    have hno : r.ok = false := by
      by_contra hc
      rw [Bool.not_eq_false] at hc
      have := hr.long hc
      omega
    have hfull := hr.full hno
    rw [hstate] at hfull
    exact hquiet (Or.inr ⟨by omega, hfull⟩)
  have hwrites : r.writes.take pages.length = (pageWrites codec.enc r.state.chain pages').take pages.length := by
    by_cases hok : r.ok = true
    · rw [hr.writes hok, drop_zero, pageWrites_take_blocks _ hmore]
    · rw [Bool.not_eq_true] at hok
      rw [(hr.cut hok).2, drop_zero, take_take, min_eq_left (by omega)]
  have hnd := hr.chainOk.nodup
  obtain ⟨c, hc⟩ : ∃ c, r.state.chain[pages.length]? = some c := ⟨_, getElem?_eq_getElem hgrown⟩
  have hsucc : r.state.chain.take pages.length ++ [c] = r.state.chain.take (pages.length + 1) := by
    rw [take_add_one, hc]
    rfl
  have hbad : F.good (applyWrites d (r.writes.take pages.length) c) = false := by
    rw [hwrites, applyWrites_take_of_le hnd (le_refl _) hc]
    apply hstale
    rcases hr.fresh c (mem_of_getElem? hc) with hin | hfree
    · right
      obtain ⟨t, ht⟩ := hr.grows
      by_cases hlt : pages.length < cs.chain.length
      · rw [← ht, getElem?_append_left hlt] at hc
        exact mem_of_getElem? (show (cs.chain.drop pages.length)[0]? = some c by simpa using hc)
      -- past the old chain there are only new blocks
      rw [← ht, getElem?_append_right (by omega)] at hc
      rw [← ht] at hnd
      exact absurd rfl ((nodup_append.mp hnd).2.2 c hin c (mem_of_getElem? hc))
    · exact Or.inl hfree
  have hstart : firstBlock = (r.state.chain.take pages.length ++ [c]).headD 0 := by
    obtain ⟨t, ht⟩ := hr.grows
    have hget : r.state.chain[0]? = some firstBlock := by
      rw [← ht, getElem?_append_left (List.getElem?_eq_some_iff.mp hhead).1, hhead]
    rw [hsucc, cons_of_getElem? hget]
    rfl
  have hlinks : ∀ i x, (r.state.chain.take pages.length)[i]? = some x →
      F.next (applyWrites d (r.writes.take pages.length) x) =
      (r.state.chain.take pages.length ++ [c]).getD (i + 1) 0 := by
    intro i x hx
    obtain ⟨hi, -⟩ := List.getElem?_eq_some_iff.mp hx
    rw [length_take] at hi
    rw [getElem?_take_of_lt (by omega)] at hx
    have hlt : i + 1 < r.state.chain.length := by omega
    obtain ⟨p, hp⟩ : ∃ p, pages'[i]? = some p := ⟨_, getElem?_eq_getElem (by omega)⟩
    have hsame : (r.state.chain.take (pages.length + 1)).getD (i + 1) 0 = r.state.chain.getD (i + 1) 0 := by
      rw [getD_eq_getElem?_getD, getElem?_take_of_lt (by omega), getD_eq_getElem?_getD]
    have hin : r.state.chain.getD (i + 1) 0 < 2 ^ 32 := by
      rw [getD_eq_getElem?_getD, getElem?_eq_getElem hlt, getD_some]
      have := (hr.chainOk.holds _ (getElem_mem hlt)).1
      rw [hr.total] at this
      omega
    rw [hsucc, hsame, hwrites, applyWrites_take_of_lt hnd (by omega) hx hp, codec.next_enc _ _ hin]
  have hzero : 0 ∉ (r.state.chain.take pages.length ++ [c]).tail := by
    have htail : (r.state.chain.take (pages.length + 1)).tail = r.state.chain.tail.take pages.length := by
      cases r.state.chain <;> simp
    rw [hsucc, htail]
    exact fun hz => hr.chainOk.tail (mem_of_mem_take hz)
  exact ChainFormat.walk_eq_none_of_bad hbad hstart hlinks hzero

end Cut

end BoxOS.TagFS
