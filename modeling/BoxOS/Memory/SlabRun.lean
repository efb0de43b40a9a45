import BoxOS.Lib.Slots
import BoxOS.Memory.SlabInv

/-!
# Runs of the slab allocator

A page goes from one list of its class to the other when its last slot is taken or its first one given back
(`Layout.fill`, `Layout.unfull`), is recruited when no page of the class has a free slot (`Layout.recruit`), and is
given back when nothing is left on it (`Layout.release`). From these the layout is kept by every call (`Ok.step`), and
no call reaches a panic.
-/

open Function (update update_of_ne update_self)

namespace BoxOS.Memory

open Lib List Option Slab

section layout

variable {heapPage : Nat → Prop} {memEnd : Nat} {w : SlabWorld} {v : SlabView} {p o : Nat} {c : Fin 8}

/-- The lists after a page went from the one of them to the other. -/
def moved (lists : Fin 8 × SlabList → List Nat) (c : Fin 8) (p : Nat) (a b : SlabList) : Fin 8 × SlabList → List Nat :=
  update (update lists (c, a) ((lists (c, a)).erase p)) (c, b) (p :: lists (c, b))

theorem mem_moved {lists : Fin 8 × SlabList → List Nat} {a b : SlabList} (hab : a ≠ b) (hp : p ∈ lists (c, a))
    (d : Fin 8) (q : Nat) : (∃ which, q ∈ moved lists c p a b (d, which)) ↔ ∃ which, q ∈ lists (d, which) := by
  have hother : ∀ which, which = a ∨ which = b := by
    intro which
    revert hab
    cases which <;> cases a <;> cases b <;> decide
  have ha : moved lists c p a b (c, a) = (lists (c, a)).erase p := by
    rw [moved, update_of_ne (by simp [hab]), update_self]
  have hb : moved lists c p a b (c, b) = p :: lists (c, b) := update_self ..
  rcases eq_or_ne d c with rfl | hd
  · constructor
    · rintro ⟨which, hq⟩
      rcases hother which with rfl | rfl
      · exact ⟨which, mem_of_mem_erase (ha ▸ hq)⟩
      rw [hb, mem_cons] at hq
      rcases hq with rfl | hq
      · exact ⟨a, hp⟩
      · exact ⟨which, hq⟩
    · rintro ⟨which, hq⟩
      rcases eq_or_ne q p with rfl | hne
      · exact ⟨b, hb.symm ▸ mem_cons_self⟩
      · rcases hother which with rfl | rfl
        · exact ⟨which, ha.symm ▸ (mem_erase_of_ne hne).mpr hq⟩
        · exact ⟨which, hb.symm ▸ mem_cons_of_mem p hq⟩
  · have hsame : ∀ which, moved lists c p a b (d, which) = lists (d, which) := fun which => by
      rw [moved, update_of_ne (by simp [hd]), update_of_ne (by simp [hd])]
    simp only [hsame]

theorem Layout.not_mem (h : Layout heapPage memEnd w v) {i j : Fin 8 × SlabList} (hp : p ∈ v.lists i) (hij : j ≠ i) :
    p ∉ v.lists j :=
  fun hq => hij (h.lists.apart j i p hq hp)

theorem Layout.ne_zero (h : Layout heapPage memEnd w v) {i : Fin 8 × SlabList} (hp : p ∈ v.lists i) : p ≠ 0 :=
  (h.lists.threaded i).ne_stop hp

theorem Layout.unlink (h : Layout heapPage memEnd w v) {which : SlabList} (hp : p ∈ v.lists (c, which)) :
    w.slab.linkAt c which (w.slab.seekPage c which p) = p ∧
    Threads (w.slab.setLink c which (w.slab.seekPage c which p) (w.slab.page p).next).nextPage 0
      (w.slab.setLink c which (w.slab.seekPage c which p) (w.slab.page p).next).heads
      (update v.lists (c, which) ((v.lists (c, which)).erase p)) := by
  obtain ⟨hcell, hthreads⟩ := h.lists.unlink hp (h.length_le (c, which))
  refine ⟨hcell, ?_⟩
  rw [nextPage_setLink, heads_setLink]
  exact hthreads

section

variable (h : Layout heapPage memEnd w v)

include h

/-- A page that was taken out of the list `a` of its class comes to the front of the list `b`. -/
theorem Layout.toFront {a b : SlabList} (hab : a ≠ b) (hp : p ∈ v.lists (c, a)) {s : Slab}
    (hsame : w.slab.SameButLinks s)
    (hthreads : Threads s.nextPage 0 s.heads (update v.lists (c, a) ((v.lists (c, a)).erase p))) :
    let s' := s.setPage p { s.page p with next := (s.classes c).head b }
    w.slab.SameButLinks (s'.setClass c ((s'.classes c).setHead p b)) ∧
    Layout heapPage memEnd { w with slab := s'.setClass c ((s'.classes c).setHead p b) }
      ⟨moved v.lists c p a b, v.chain⟩ := by
  have hsame' := (hsame.trans (sameButLinks_setNext p ((s.classes c).head b))).trans (sameButLinks_setHead c p b)
  have hgone : ∀ j, p ∉ update v.lists (c, a) ((v.lists (c, a)).erase p) j := by
    intro j
    rcases eq_or_ne j (c, a) with rfl | hj
    · rw [update_self]
      exact (h.lists.nodup _).not_mem_erase
    · rw [update_of_ne hj]
      exact h.not_mem hp hj
  have hpush := hthreads.push (c, b) hgone (h.ne_zero hp)
  rw [update_of_ne (by simp [hab.symm])] at hpush
  refine ⟨hsame', h.relink hsame' ?_ (mem_moved hab hp)⟩
  rw [heads_setHead]
  show Threads (s.setPage p _).nextPage 0 _ _
  rw [nextPage_setPage]
  exact hpush

theorem Layout.unfull (hp : p ∈ v.lists (c, .full)) : w.slab.SameButLinks (slabUnfull w.slab c p) ∧
    Layout heapPage memEnd { w with slab := slabUnfull w.slab c p } ⟨moved v.lists c p .full .someFree, v.chain⟩ := by
  obtain ⟨hcell, hthreads⟩ := h.unlink hp
  unfold slabUnfull
  dsimp only
  rw [if_pos hcell]
  exact h.toFront (by simp) hp (sameButLinks_setLink ..) hthreads

theorem Layout.fill {rest : List Nat} (hp : v.lists (c, .someFree) = p :: rest) :
    w.slab.SameButLinks (slabFill w.slab c p) ∧
    Layout heapPage memEnd { w with slab := slabFill w.slab c p } ⟨moved v.lists c p .someFree .full, v.chain⟩ := by
  have hin : p ∈ v.lists (c, .someFree) := hp ▸ mem_cons_self
  obtain ⟨-, hthreads⟩ := h.lists.pop hp
  refine h.toFront (b := .full) (by simp) hin (sameButLinks_setHead c (w.slab.page p).next .someFree) ?_
  rw [heads_setHead, hp, erase_cons_head]
  exact hthreads

/-- A page with nothing on it is taken out of its list and given back. -/
theorem Layout.release (hp : p ∈ v.lists (c, .someFree))
    (hfree : (w.slab.page p).freeCount = (w.slab.page p).totalSlots) :
    Layout heapPage memEnd
      ⟨(w.slab.setLink c .someFree (w.slab.seekPage c .someFree p) (w.slab.page p).next).bitClear (p * slabPageSize),
        w.live, w.held.erase p⟩ ⟨update v.lists (c, .someFree) ((v.lists (c, .someFree)).erase p), v.chain⟩ := by
  obtain ⟨-, hthreads⟩ := h.unlink hp
  have hsame : w.slab.SameButLinks
      (w.slab.setLink c .someFree (w.slab.seekPage c .someFree p) (w.slab.page p).next) := sameButLinks_setLink ..
  generalize w.slab.setLink c .someFree (w.slab.seekPage c .someFree p) (w.slab.page p).next = s at hthreads hsame ⊢
  have hheld : p ∈ w.held := (h.held p).mpr ⟨_, hp⟩
  have hmem : ∀ i q, q ∈ update v.lists (c, .someFree) ((v.lists (c, .someFree)).erase p) i ↔
      q ∈ v.lists i ∧ q ≠ p := by
    intro i q
    rcases eq_or_ne i (c, .someFree) with rfl | hi
    · rw [update_self, (h.lists.nodup _).mem_erase_iff]
      exact and_comm
    · rw [update_of_ne hi]
      exact (and_iff_left_of_imp fun hq => ne_of_mem_of_not_mem hq (h.not_mem hp hi)).symm
  have hidx : p * slabPageSize / slabPageSize = p := Nat.mul_div_cancel p (by decide)
  have hlt : p < s.pageCount := by
    rw [hsame.pageCount, h.pageCount, Nat.lt_succ_iff, Nat.le_div_iff_mul_le (by decide)]
    exact (h.memory p hheld).1.le
  have hclear : s.bitClear (p * slabPageSize) = { s with pageBits := clearBit s.pageBits p } := by
    rw [bitClear, hidx]
    exact if_neg (by omega)
  have hlen : s.pageCount ≤ s.pageBits.length * 8 := by
    rw [hsame.pageCount, hsame.bits]
    exact h.bits_length
  rw [hclear]
  refine ⟨hsame.initialized.trans h.initialized, hsame.pageCount.trans h.pageCount, ?_,
    fun d => (hsame.size d).trans (h.size d), hthreads, h.held_nodup.erase p, fun q => ?_, fun q hq => ?_, fun q => ?_,
    fun i q hq => ?_, h.live_nodup, fun ptr => ?_⟩
  · rw [length_clearBit]
    exact hlen
  · rw [h.held_nodup.mem_erase_iff, h.held]
    simp only [hmem]
    tauto
  · exact h.memory q (mem_of_mem_erase hq)
  · rw [h.held_nodup.mem_erase_iff, ← h.bits q]
    have hqdx : q * slabPageSize / slabPageSize = q := Nat.mul_div_cancel q (by decide)
    simp only [bitTest, hqdx, hsame.pageCount, ← hsame.bits]
    split
    · simp
    rw [bitAt_clearBit (by omega)]
    rcases eq_or_ne q p with rfl | hne
    · simp
    · simp [hne]
  · obtain ⟨hold, hne⟩ := (hmem i q).mp hq
    obtain ⟨n, hn⟩ := hsame.page q
    rw [hn]
    exact (h.page i q hold).setNext n
  · rw [h.live]
    simp only [hmem]
    constructor
    · rintro ⟨i, hq, hslot, hnot⟩
      refine ⟨i, ⟨hq, fun e => hnot ?_⟩, hslot, hnot⟩
      -- every slot of the page is free
      rw [e] at hq ⊢
      exact (h.page i p hq).all_free hfree hslot
    · rintro ⟨i, ⟨hq, -⟩, hs⟩
      exact ⟨i, hq, hs⟩

/-- A page of the page allocator joins a class that has no page with a free slot. -/
theorem Layout.recruit (hnone : v.lists (c, .someFree) = []) (hp : p ≠ 0) (hmem : p * slabPageSize < memEnd)
    (hnew : p ∉ w.held) (hheap : ¬ heapPage p) {s : Slab} {q : Nat}
    (hs : slabAllocPage w.slab (slabSizes c) (some p) = some (s, q)) :
    q = p ∧ (s.page p).freeCount = slotsOf (slabSizes c) ∧ (∀ r, r ≠ p → s.page r = w.slab.page r) ∧
    Layout heapPage memEnd ⟨s.setClass c ((s.classes c).setHead p .someFree), w.live, w.held ++ [p]⟩
      ⟨update v.lists (c, .someFree) [p], update v.chain p (slotsFrom (slabSizes c) (slotsOf (slabSizes c)) 0)⟩ := by
  have hidx : p * slabPageSize / slabPageSize = p := Nat.mul_div_cancel p (by decide)
  have hlt : p < w.slab.pageCount := by
    rw [h.pageCount, Nat.lt_succ_iff, Nat.le_div_iff_mul_le (by decide)]
    exact hmem.le
  obtain ⟨pg, hpg, hnextPg, hcount, rfl, rfl⟩ : ∃ pg : SlabPage, PageOk pg p (slabSizes c)
      (slotsFrom (slabSizes c) (slotsOf (slabSizes c)) 0) ∧ pg.next = 0 ∧ pg.freeCount = slotsOf (slabSizes c) ∧
      s = { w.slab.setPage p pg with pageBits := setBit w.slab.pageBits p } ∧ q = p := by
    refine ⟨slabInitPage { pagePhys := p * slabPageSize, words := fun _ => 0 } (slabSizes c), slabInitPage_ok c rfl,
      rfl, rfl, ?_⟩
    rw [slabAllocPage, Option.map_some, some.injEq, Prod.mk.injEq, bitSet, hidx,
      if_neg (by show ¬ w.slab.pageCount ≤ p; omega)] at hs
    exact ⟨hs.1.symm, hs.2.symm⟩
  have hlists : ∀ j, q ∉ v.lists j := fun j hj => hnew ((h.held q).mpr ⟨j, hj⟩)
  have hmemb : ∀ i r, r ∈ update v.lists (c, .someFree) [q] i ↔ r ∈ v.lists i ∨ r = q ∧ i = (c, .someFree) := by
    intro i r
    rcases eq_or_ne i (c, .someFree) with rfl | hi
    · rw [update_self, hnone]
      simp
    · rw [update_of_ne hi]
      simp [hi]
  have hpush := h.lists.push (c, .someFree) hlists hp
  have hhead : w.slab.heads (c, .someFree) = 0 := by
    have := h.lists.threaded (c, .someFree)
    rwa [hnone] at this
  rw [hnone, hhead] at hpush
  refine ⟨rfl, by simpa [setPage] using hcount, fun r hr => update_of_ne hr _ _, h.initialized, h.pageCount, ?_,
    fun d => ?_, ?_, ?_, fun r => ?_, fun r hr => ?_, fun r => ?_, fun i r hr => ?_, h.live_nodup, fun ptr => ?_⟩
  · show w.slab.pageCount ≤ (setBit w.slab.pageBits q).length * 8
    rw [length_setBit]
    exact h.bits_length
  · rw [← h.size d]
    exact (sameButLinks_setHead c q .someFree).size d
  · show Threads _ 0 (setClass _ c _).heads _
    rw [heads_setHead]
    show Threads (w.slab.setPage q pg).nextPage 0 _ _
    rw [nextPage_setPage, hnextPg]
    exact hpush
  · exact nodup_append.mpr ⟨h.held_nodup, nodup_singleton _, fun a ha b hb e => by
      rw [mem_singleton.mp hb] at e
      exact hnew (e ▸ ha)⟩
  · rw [mem_append, h.held, mem_singleton]
    simp only [hmemb]
    constructor
    · rintro (⟨i, hi⟩ | rfl)
      · exact ⟨i, .inl hi⟩
      · exact ⟨(c, .someFree), .inr ⟨rfl, rfl⟩⟩
    · rintro ⟨i, hi | ⟨rfl, -⟩⟩
      · exact .inl ⟨i, hi⟩
      · exact .inr rfl
  · rcases mem_append.mp hr with hr | hr
    · exact h.memory r hr
    · rw [mem_singleton.mp hr]
      exact ⟨hmem, hheap⟩
  · rw [mem_append, mem_singleton, ← h.bits r]
    have hrdx : r * slabPageSize / slabPageSize = r := Nat.mul_div_cancel r (by decide)
    show bitTest { w.slab.setPage q pg with pageBits := setBit w.slab.pageBits q } _ = true ↔ _
    simp only [bitTest, hrdx, setPage]
    split
    · next hle =>
      simp only [Bool.false_eq_true, false_or, false_iff]
      omega
    · rw [bitAt_setBit (by have := h.bits_length; omega)]
      simp
  · show PageOk (update w.slab.page q pg r) r _ (update v.chain q _ r)
    rcases (hmemb i r).mp hr with hold | ⟨rfl, rfl⟩
    · have hne : r ≠ q := ne_of_mem_of_not_mem hold (hlists i)
      rw [update_of_ne hne, update_of_ne hne]
      exact h.page i r hold
    · rw [update_self, update_self]
      exact hpg
  · rw [h.live]
    simp only [hmemb]
    constructor
    · rintro ⟨i, hi, hslot, hnot⟩
      refine ⟨i, .inl hi, hslot, ?_⟩
      rwa [update_of_ne (ne_of_mem_of_not_mem hi (hlists i))]
    · rintro ⟨i, hi | ⟨hptr, rfl⟩, hslot, hnot⟩
      · rw [update_of_ne (ne_of_mem_of_not_mem hi (hlists i))] at hnot
        exact ⟨i, hi, hslot, hnot⟩
      · rw [hptr, update_self] at hnot
        exact absurd (hpg.all_free (by rw [hcount, hpg.total]) hslot) hnot

/-! ## Calls -/

theorem Layout.mem_moved_iff {a b : SlabList} (hab : a ≠ b) (hp : p ∈ v.lists (c, a))
    (i : Fin 8 × SlabList) (q : Nat) : q ∈ moved v.lists c p a b i ↔ q ∈ v.lists i ∧ q ≠ p ∨ q = p ∧ i = (c, b) := by
  have hb : p ∉ v.lists (c, b) := h.not_mem hp (by simp [hab.symm])
  rcases eq_or_ne i (c, b) with rfl | hib
  · rw [moved, update_self, mem_cons]
    simp only [and_true]
    constructor
    · rintro (rfl | hq)
      · exact .inr rfl
      · exact .inl ⟨hq, ne_of_mem_of_not_mem hq hb⟩
    · rintro (⟨hq, -⟩ | rfl)
      · exact .inr hq
      · exact .inl rfl
  · rw [moved, update_of_ne hib]
    simp only [hib, and_false, or_false]
    rcases eq_or_ne i (c, a) with rfl | hia
    · rw [update_self, (h.lists.nodup _).mem_erase_iff]
      exact and_comm
    · rw [update_of_ne hia]
      exact (and_iff_left_of_imp fun hq => ne_of_mem_of_not_mem hq (h.not_mem hp hia)).symm

end

theorem Slab.SameButLinks.freeCount {s s' : Slab} (h : s.SameButLinks s') (q : Nat) :
    (s'.page q).freeCount = (s.page q).freeCount := by
  obtain ⟨n, hn⟩ := h.page q
  rw [hn]

/-- Every page but `p` is in the right list. -/
def SortedBut (p : Nat) (w : SlabWorld) (v : SlabView) : Prop :=
  ∀ i q, q ∈ v.lists i → q ≠ p → (i.2 = .full ↔ (w.slab.page q).freeCount = 0)

theorem SortedBut.sorted (h : SortedBut p w v) {i : Fin 8 × SlabList} (hlay : Layout heapPage memEnd w v)
    (hp : p ∈ v.lists i) (hi : i.2 = .full ↔ (w.slab.page p).freeCount = 0) : Sorted w v := by
  intro j q hq
  rcases eq_or_ne q p with rfl | hne
  · obtain rfl := hlay.lists.apart _ _ _ hp hq
    exact hi
  · exact h j q hq hne

theorem Sorted.but (h : Sorted w v) {w' : SlabWorld} {chain : Nat → List Nat}
    (hold : ∀ q, q ≠ p → (w'.slab.page q).freeCount = (w.slab.page q).freeCount) : SortedBut p w' ⟨v.lists, chain⟩ := by
  intro i q hq hne
  rw [hold q hne]
  exact h i q hq

theorem SortedBut.moved (h : SortedBut p w v) (hlay : Layout heapPage memEnd w v) {a b : SlabList} (hab : a ≠ b)
    (hp : p ∈ v.lists (c, a)) {s : Slab} (hsame : w.slab.SameButLinks s)
    (hb : b = .full ↔ (w.slab.page p).freeCount = 0) :
    Sorted { w with slab := s } ⟨moved v.lists c p a b, v.chain⟩ := by
  intro i q hq
  rw [hsame.freeCount]
  rcases (hlay.mem_moved_iff hab hp i q).mp hq with ⟨hold, hne⟩ | ⟨rfl, rfl⟩
  · exact h i q hold hne
  · exact hb

theorem Layout.settle (h : Layout heapPage memEnd w v) (hsort : SortedBut p w v) {rest : List Nat}
    (hp : v.lists (c, .someFree) = p :: rest) : ∃ v',
    Layout heapPage memEnd { w with slab := if (w.slab.page p).freeCount = 0 then slabFill w.slab c p else w.slab } v' ∧
    Sorted { w with slab := if (w.slab.page p).freeCount = 0 then slabFill w.slab c p else w.slab } v' ∧
    ∃ which, p ∈ v'.lists (c, which) := by
  have hin : p ∈ v.lists (c, .someFree) := hp ▸ mem_cons_self
  by_cases hzero : (w.slab.page p).freeCount = 0
  · rw [if_pos hzero]
    obtain ⟨hsame, hfill⟩ := h.fill hp
    exact ⟨_, hfill, hsort.moved h (by simp) hin hsame (by simp [hzero]), (mem_moved (by simp) hin c p).mpr ⟨_, hin⟩⟩
  · rw [if_neg hzero]
    exact ⟨v, h, hsort.sorted h hin (by simp [hzero]), _, hin⟩

/-- The layout of a slab between two calls. -/
def SlabWorld.Ok (heapPage : Nat → Prop) (memEnd : Nat) (w : SlabWorld) : Prop :=
  ∃ v, Layout heapPage memEnd w v ∧ Sorted w v

theorem PageOk.not_corrupt {pg : SlabPage} {objSize : Nat} {os : List Nat} {cls : SlabClass}
    (h : PageOk pg p objSize (o :: os)) (hcls : cls.objSize = objSize) : pg.corrupt cls = false := by
  have hslot := h.slots o mem_cons_self
  have hbounds := hslot.bounds
  have hend := hslot.ne_end
  have hcount := h.count
  have hle := h.count_le
  rw [length_cons] at hcount
  simp only [SlabPage.corrupt, h.threaded.1, h.size, hcls, Bool.or_eq_false_iff, beq_eq_false_iff_ne,
    decide_eq_false_iff_not, bne_eq_false_iff_eq]
  exact ⟨⟨⟨⟨⟨⟨hend, by omega⟩, by omega⟩, hbounds.2.2⟩, trivial⟩, by omega⟩, by omega⟩

theorem Layout.slabTake (h : Layout heapPage memEnd w v) (hsort : Sorted w v) {rest : List Nat}
    (hp : v.lists (c, .someFree) = p :: rest) (took : Option Nat) :
    ∃ r ptr, BoxOS.Memory.slabTake w.slab c p took = some r ∧ r.took = took ∧ r.ptr = some ptr ∧
    SlabWorld.Ok heapPage memEnd ⟨r.slab, w.live ++ [ptr], w.held⟩ := by
  have hin : p ∈ v.lists (c, .someFree) := hp ▸ mem_cons_self
  have hpage := h.page _ _ hin
  have hcount : (w.slab.page p).freeCount ≠ 0 := fun e => by
    have := (hsort _ _ hin).mpr e
    cases this
  obtain ⟨o, os, hchain⟩ : ∃ o os, v.chain p = o :: os := by
    refine exists_cons_of_length_pos ?_
    rw [hpage.count]
    omega
  obtain ⟨hhead, htake⟩ := h.take hin hchain
  rw [hchain] at hpage
  have holt := (hpage.slots o mem_cons_self).lt (slabSizes_ne_zero c)
  obtain ⟨hdiv, hmod⟩ := (ptr_eq holt).mp (rfl : p * slabPageSize + o = p * slabPageSize + o)
  unfold BoxOS.Memory.slabTake
  rw [if_neg (by simp [hpage.not_corrupt (h.size c)])]
  dsimp only
  generalize hs₁ : w.slab.setPage p { w.slab.page p with
    freeHead := (w.slab.page p).words (w.slab.page p).freeHead,
    freeCount := (w.slab.page p).freeCount - 1 } = s₁ at htake ⊢
  have hbut : SortedBut p ⟨s₁, w.live ++ [p * slabPageSize + o], w.held⟩ ⟨v.lists, update v.chain p os⟩ := by
    refine hsort.but fun q hq => ?_
    simp [← hs₁, setPage, update_of_ne hq]
  obtain ⟨v', hlay, hsorted, which, hlist⟩ := htake.settle hbut hp
  generalize (if (s₁.page p).freeCount = 0 then slabFill s₁ c p else s₁) = s₂ at hlay hsorted ⊢
  have hobj : (s₂.classes c).objSize = (s₂.page p).objSize := (hlay.size c).trans (hlay.page _ _ hlist).size.symm
  have hptr : p * slabPageSize + o ∈ w.live ++ [p * slabPageSize + o] := by simp
  have hstore := hlay.store hptr fun _ => 0
  rw [hhead, hobj]
  refine ⟨_, _, rfl, rfl, rfl, v', ?_, fun i q hq => ?_⟩
  · rw [SlabWorld.storeObject, hdiv, hmod] at hstore
    exact hstore
  · refine (hsorted i q hq).trans (Eq.congr_left ?_)
    rcases eq_or_ne q p with rfl | hne
    · simp [setPage]
    · simp [setPage, update_of_ne hne]

theorem Layout.slabAlloc (h : Layout heapPage memEnd w v) (hsort : Sorted w v) {size : Nat} {pmm : Option Nat}
    (hcall : w.Allowed heapPage memEnd (.alloc size pmm)) : ∃ r, BoxOS.Memory.slabAlloc w.slab size pmm = some r ∧
    SlabWorld.Ok heapPage memEnd ⟨r.slab, w.live ++ r.ptr.toList, w.held ++ r.took.toList⟩ := by
  obtain ⟨hpos, hle, hpmm⟩ := hcall
  obtain ⟨c, hc⟩ := slabSizeClass_isSome hle
  have hsame : SlabWorld.Ok heapPage memEnd ⟨w.slab, w.live ++ [], w.held ++ []⟩ := by
    rw [append_nil, append_nil]
    exact ⟨v, h, hsort⟩
  unfold BoxOS.Memory.slabAlloc
  rw [if_neg (by rw [h.initialized]; simp; omega), hc]
  dsimp only
  by_cases hnone : (w.slab.classes c).partialPages = 0
  · rw [if_pos hnone]
    have hempty : v.lists (c, .someFree) = [] := by
      have hthread := h.lists.threaded (c, .someFree)
      rw [show w.slab.heads (c, .someFree) = 0 from hnone] at hthread
      exact hthread.eq_nil
    rw [h.size c]
    cases pmm with
    | none => exact ⟨_, rfl, hsame⟩
    | some p =>
      obtain ⟨hp, hmem, hnew, hheap⟩ := hpmm p rfl
      obtain ⟨⟨s, q⟩, hs⟩ : ∃ r, slabAllocPage w.slab (slabSizes c) (some p) = some r := ⟨_, rfl⟩
      obtain ⟨rfl, hcount, hother, hlay⟩ := h.recruit hempty hp.ne' hmem hnew hheap hs
      have hcls : (w.slab.classes c).setHead q .someFree = (s.classes c).setHead q .someFree := by
        rw [slabAllocPage, Option.map_some, some.injEq, Prod.mk.injEq] at hs
        rw [← hs.1, bitSet]
        split <;> rfl
      rw [hs]
      dsimp only
      rw [hcls]
      have hsorted : Sorted ⟨s.setClass c ((s.classes c).setHead q .someFree), w.live, w.held ++ [q]⟩
          ⟨update v.lists (c, .someFree) [q],
            update v.chain q (slotsFrom (slabSizes c) (slotsOf (slabSizes c)) 0)⟩ := by
        intro i r hr
        dsimp only at hr
        show i.2 = .full ↔ (s.page r).freeCount = 0
        rcases eq_or_ne i (c, .someFree) with rfl | hi
        · rw [update_self, mem_singleton] at hr
          rw [hr, hcount]
          exact iff_of_false (by simp) (slotsOf_pos c).1.ne'
        · rw [update_of_ne hi] at hr
          rw [hother r fun e => hnew ((h.held q).mpr ⟨i, e ▸ hr⟩)]
          exact hsort i r hr
      obtain ⟨r, ptr, hr, htook, hptr, hok⟩ := hlay.slabTake hsorted (update_self ..) (some q)
      refine ⟨r, hr, ?_⟩
      rw [htook, hptr]
      exact hok
  · rw [if_neg hnone]
    obtain ⟨rest, hrest⟩ := (h.lists.threaded (c, .someFree)).exists_cons hnone
    obtain ⟨r, ptr, hr, htook, hptr, hok⟩ := h.slabTake hsort hrest none
    refine ⟨r, hr, ?_⟩
    rw [htook, hptr, toList_none, append_nil]
    exact hok

/-- The page that a slot was given back to goes back itself if nothing is left on it and it is not the first one. -/
theorem Layout.slabRelease (h : Layout heapPage memEnd w v) (hsort : Sorted w v) (hp : p ∈ v.lists (c, .someFree)) :
    SlabWorld.Ok heapPage memEnd ⟨(BoxOS.Memory.slabRelease w.slab c p).slab, w.live,
      (BoxOS.Memory.slabRelease w.slab c p).gaveBack.elim w.held w.held.erase⟩ ∧
    ∀ q, (BoxOS.Memory.slabRelease w.slab c p).gaveBack = some q → q ∈ w.held := by
  unfold BoxOS.Memory.slabRelease
  by_cases hfree : (w.slab.page p).freeCount = (w.slab.page p).totalSlots ∧ (w.slab.classes c).partialPages ≠ p
  · rw [if_pos hfree]
    dsimp only
    rw [if_pos (h.unlink hp).1]
    have hrel := h.release hp hfree.1
    have hsame : w.slab.SameButLinks
        (w.slab.setLink c .someFree (w.slab.seekPage c .someFree p) (w.slab.page p).next) := sameButLinks_setLink ..
    generalize w.slab.setLink c .someFree (w.slab.seekPage c .someFree p) (w.slab.page p).next = s at hrel hsame ⊢
    have hphys : (s.page p).pagePhys = p * slabPageSize := by
      obtain ⟨n, hn⟩ := hsame.page p
      rw [hn]
      exact (h.page _ _ hp).phys
    rw [hphys, Nat.mul_div_cancel p (by decide)]
    refine ⟨⟨_, hrel, fun i q hq => ?_⟩, fun q hq => (h.held q).mpr ⟨_, some.inj hq ▸ hp⟩⟩
    have hpages : (s.bitClear (p * slabPageSize)).page = s.page := by
      unfold bitClear
      dsimp only
      split <;> rfl
    rw [hpages, hsame.freeCount]
    refine hsort i q ?_
    dsimp only at hq
    rcases eq_or_ne i (c, .someFree) with rfl | hi
    · rw [update_self] at hq
      exact mem_of_mem_erase hq
    · rwa [update_of_ne hi] at hq
  · rw [if_neg hfree]
    exact ⟨⟨v, h, hsort⟩, by simp⟩

theorem Layout.slabFree (h : Layout heapPage memEnd w v) (hsort : Sorted w v) {ptr : Nat} (hptr : ptr ∈ w.live) :
    ∃ r, BoxOS.Memory.slabFree w.slab ptr = some r ∧
    SlabWorld.Ok heapPage memEnd ⟨r.slab, w.live.erase ptr, r.gaveBack.elim w.held w.held.erase⟩ ∧
    ∀ q, r.gaveBack = some q → q ∈ w.held := by
  obtain ⟨⟨c, which⟩, hp, hslot, hnot⟩ := (h.live ptr).mp hptr
  have hpage := h.page _ _ hp
  have hbounds := hslot.bounds
  have hsizes := slabSizes_pos c
  have hpos : ptr ≠ 0 := by
    have hne := h.ne_zero hp
    rintro rfl
    exact hne rfl
  have hcount : (w.slab.page (ptr / slabPageSize)).freeCount < (w.slab.page (ptr / slabPageSize)).totalSlots := by
    refine lt_of_le_of_ne hpage.count_le fun e => hnot (hpage.all_free e hslot)
  unfold BoxOS.Memory.slabFree
  rw [if_neg (by simp [hpos, h.initialized])]
  have hclass : slabSizeClass (w.slab.page (ptr / slabPageSize)).objSize = some c := by
    rw [hpage.size]
    exact slabSizeClass_slabSizes c
  have hsize : ¬ ((w.slab.page (ptr / slabPageSize)).objSize = 0 ∨
      slabLargeThreshold < (w.slab.page (ptr / slabPageSize)).objSize) := by
    rw [hpage.size]
    dsimp only
    omega
  rw [if_neg hsize, hclass]
  dsimp only at hbounds hpage ⊢
  rw [if_neg (by
    rw [hpage.size]
    rintro (hlow | hgrid | hhigh)
    · omega
    · exact hgrid hbounds.2.2
    · omega)]
  rw [if_neg (by
    rw [hpage.size, h.size]
    rintro (hge | hzero | hne)
    · omega
    · omega
    · exact hne rfl)]
  have hgive := h.give rfl rfl hp hptr
  have hfull : (w.slab.page (ptr / slabPageSize)).freeCount = 0 ↔ which = .full := (hsort _ _ hp).symm
  generalize hs₁ : w.slab.setPage (ptr / slabPageSize) { w.slab.page (ptr / slabPageSize) with
    words := update (w.slab.page (ptr / slabPageSize)).words (ptr % slabPageSize)
      (w.slab.page (ptr / slabPageSize)).freeHead
    freeHead := ptr % slabPageSize, freeCount := (w.slab.page (ptr / slabPageSize)).freeCount + 1 } = s₁ at hgive ⊢
  have hself : (s₁.page (ptr / slabPageSize)).freeCount = (w.slab.page (ptr / slabPageSize)).freeCount + 1 := by
    simp [← hs₁, setPage]
  have hbut : SortedBut (ptr / slabPageSize) ⟨s₁, w.live.erase ptr, w.held⟩
      ⟨v.lists, update v.chain (ptr / slabPageSize) (ptr % slabPageSize :: v.chain (ptr / slabPageSize))⟩ := by
    refine hsort.but fun q hq => ?_
    simp [← hs₁, setPage, update_of_ne hq]
  -- the page is in the list of those with a free slot now
  have hunfull : ∃ v', Layout heapPage memEnd ⟨if decide ((w.slab.page (ptr / slabPageSize)).freeCount = 0) = true
        then slabUnfull s₁ c (ptr / slabPageSize) else s₁, w.live.erase ptr, w.held⟩ v' ∧
      Sorted ⟨if decide ((w.slab.page (ptr / slabPageSize)).freeCount = 0) = true
        then slabUnfull s₁ c (ptr / slabPageSize) else s₁, w.live.erase ptr, w.held⟩ v' ∧
      ptr / slabPageSize ∈ v'.lists (c, .someFree) := by
    by_cases hzero : (w.slab.page (ptr / slabPageSize)).freeCount = 0
    · obtain rfl := hfull.mp hzero
      rw [if_pos (by simp [hzero])]
      obtain ⟨hsame, hmoved⟩ := hgive.unfull hp
      refine ⟨_, hmoved, hbut.moved hgive (by simp) hp hsame (by simp [hself]), ?_⟩
      exact (hgive.mem_moved_iff (by simp) hp _ _).mpr (.inr ⟨rfl, rfl⟩)
    have hwhich : which = .someFree := by
      cases which with
      | someFree => rfl
      | full => exact absurd (hfull.mpr rfl) hzero
    subst hwhich
    rw [if_neg (by simp [hzero])]
    exact ⟨_, hgive, hbut.sorted hgive hp (by simp [hself]), hp⟩
  obtain ⟨v', hlay, hsorted, hin⟩ := hunfull
  obtain ⟨hok, hback⟩ := hlay.slabRelease hsorted hin
  exact ⟨_, rfl, hok, hback⟩

theorem Layout.init (page : Nat → SlabPage) :
    Layout heapPage memEnd ⟨slabInit page memEnd, [], []⟩ ⟨fun _ => [], fun _ => []⟩ := by
  have hbits : ∀ i, bitAt (replicate ((memEnd / slabPageSize + 1 + 7) / 8) 0) i = false := by
    intro i
    unfold bitAt
    rw [Lib.getD_replicate]
    exact Nat.zero_testBit _
  refine ⟨rfl, rfl, ?_, fun _ => rfl, ⟨fun i => ?_, fun _ => nodup_nil, fun i j x hx => nomatch hx⟩, nodup_nil,
    by simp, by simp, fun p => ?_, by simp, nodup_nil, by simp⟩
  · show memEnd / slabPageSize + 1 ≤ (replicate _ _).length * 8
    rw [length_replicate]
    omega
  · obtain ⟨c, which⟩ := i
    cases which <;> rfl
  · show bitTest (slabInit page memEnd) (p * slabPageSize) = true ↔ p ∈ []
    simp only [bitTest, slabInit, hbits, not_mem_nil, iff_false]
    split <;> simp

end layout

variable {heapPage : Nat → Prop} {memEnd : Nat} {w : SlabWorld}

theorem SlabWorld.Ok.step (h : w.Ok heapPage memEnd) {call : SlabCall} (hcall : w.Allowed heapPage memEnd call) :
    ∃ w', w.step call = some w' ∧ w'.Ok heapPage memEnd := by
  obtain ⟨v, hlay, hsort⟩ := h
  cases call with
  | alloc size pmm =>
    obtain ⟨r, hr, hok⟩ := hlay.slabAlloc hsort hcall
    exact ⟨_, by rw [SlabWorld.step, hr]; rfl, hok⟩
  | free ptr =>
    obtain ⟨r, hr, hok, -⟩ := hlay.slabFree hsort hcall
    exact ⟨_, by rw [SlabWorld.step, hr]; rfl, hok⟩
  | store ptr new =>
    refine ⟨_, rfl, v, hlay.store hcall new, fun i q hq => (hsort i q hq).trans (Eq.congr_left ?_)⟩
    rcases eq_or_ne q (ptr / slabPageSize) with rfl | hne
    · simp [SlabWorld.storeObject, setPage]
    · simp [SlabWorld.storeObject, setPage, update_of_ne hne]

theorem SlabWorld.Run.ok (h : w.Run heapPage memEnd) : w.Ok heapPage memEnd := by
  induction h with
  | init page => exact ⟨_, Layout.init page, fun i q hq => nomatch hq⟩
  | step call _ hcall hstep ih =>
    obtain ⟨w', hw', hok⟩ := ih.step hcall
    rw [hstep] at hw'
    exact some.inj hw' ▸ hok

theorem Layout.kfree_slab {v : SlabView} (h : Layout heapPage memEnd w v) {ptr : Nat} (hpos : ptr ≠ 0) :
    kfree w.slab ptr = .slab ↔ ptr / slabPageSize ∈ w.held := by
  have howns : slabOwns w.slab ptr = w.slab.bitTest (ptr / slabPageSize * slabPageSize) :=
    if_neg (by simp [hpos, h.initialized])
  rw [← h.bits, kfree, if_neg hpos, howns]
  cases w.slab.bitTest (ptr / slabPageSize * slabPageSize) <;> simp

theorem Layout.live_held {v : SlabView} (h : Layout heapPage memEnd w v) {ptr : Nat} (hptr : ptr ∈ w.live) :
    ptr / slabPageSize ∈ w.held := by
  obtain ⟨i, hi, -⟩ := (h.live ptr).mp hptr
  exact (h.held _).mpr ⟨i, hi⟩

/-- In every run the lists, the chains, the registry and the live pointers agree, no call panics, a page goes back only
when no object on it is live, and `kfree` sends to `slab_free` the live pointers and no pointer of the heap. -/
theorem slab_representation (heapPage : Nat → Prop) (memEnd : Nat) (w : SlabWorld) (h : w.Run heapPage memEnd) :
    w.Ok heapPage memEnd ∧
    (∀ call, w.Allowed heapPage memEnd call → (w.step call).isSome = true) ∧
    (∀ ptr ∈ w.live, ∀ r p, slabFree w.slab ptr = some r → r.gaveBack = some p →
      p ∈ w.held ∧ ∀ q ∈ w.live.erase ptr, q / slabPageSize ≠ p) ∧
    ∀ ptr, ptr ∈ w.live ∨ heapPage (ptr / slabPageSize) → (kfree w.slab ptr = .slab ↔ ptr ∈ w.live) := by
  have hok := h.ok
  refine ⟨hok, fun call hcall => ?_, fun ptr hptr r p hr hback => ?_, fun ptr hptr => ?_⟩
  · obtain ⟨w', hw', -⟩ := hok.step hcall
    rw [hw']
    rfl
  · obtain ⟨v, hlay, hsort⟩ := hok
    obtain ⟨r', hr', ⟨v', hlay', -⟩, hheld⟩ := hlay.slabFree hsort hptr
    rw [hr] at hr'
    obtain rfl := some.inj hr'
    refine ⟨hheld p hback, fun q hq e => ?_⟩
    have hin := hlay'.live_held hq
    rw [hback, e] at hin
    exact hlay.held_nodup.not_mem_erase hin
  · obtain ⟨v, hlay, -⟩ := hok
    rcases hptr with hlive | hheap
    · have hin := hlay.live_held hlive
      have hpos : ptr ≠ 0 := by
        obtain ⟨i, hi, -⟩ := (hlay.live ptr).mp hlive
        rintro rfl
        exact hlay.ne_zero hi rfl
      exact iff_of_true ((hlay.kfree_slab hpos).mpr hin) hlive
    have hout : ptr / slabPageSize ∉ w.held := fun hin => (hlay.memory _ hin).2 hheap
    refine iff_of_false (fun hslab => ?_) fun hlive => hout (hlay.live_held hlive)
    by_cases hpos : ptr = 0
    · rw [kfree, if_pos hpos] at hslab
      cases hslab
    · exact hout ((hlay.kfree_slab hpos).mp hslab)

/-- Pages of two classes; the object on the first one is given back, and the other one is live. -/
theorem slab_representation_two : ∃ w : SlabWorld, w.live = [12320] ∧ w.held = [1, 3] ∧ w.Ok (fun p => p = 2) 32768 ∧
    kfree w.slab 12320 = .slab := by
  have hinit :
    SlabWorld.Run (fun p => p = 2) 32768 ⟨slabInit (fun _ => { words := fun _ => 0 }) 32768, [], []⟩ := .init _
  have hlarge := hinit.step (.alloc 2000 (some 1)) ⟨by decide, by decide, fun p hp => by cases hp; decide⟩ rfl
  have hsmall := hlarge.step (.alloc 20 (some 3)) ⟨by decide, by decide, fun p hp => by cases hp; decide⟩ rfl
  have hfree := hsmall.step (.free 4128) (show 4128 ∈ [4128, 12320] by decide) rfl
  obtain ⟨hok, -, -, hkfree⟩ := slab_representation (fun p => p = 2) 32768 _ hfree
  exact ⟨_, rfl, rfl, hok, (hkfree 12320 (.inl (by decide))).mpr (by decide)⟩

end BoxOS.Memory
