import BoxOS.Memory.Slab

/-!
# The layout of the slab allocator

`Layout w lists chain` says that the world `w` has the pages `lists (c, .someFree)` and `lists (c, .full)` in the lists
of the class `c`, and the free slots `chain p` in the page `p`: the headers, the chains, the registry and the live
pointers all agree with it. There is one lemma for each thing that a call does to it: a page is recruited, a slot is
taken, a slot is given back, a page goes from one list to the other, a page is given back, an object is written.
-/

open Function (update update_eq_self update_of_ne update_self)

namespace BoxOS.Memory

open Lib List

/-! ## Slots -/

def IsSlot (objSize off : Nat) : Prop :=
  ∃ i < slotsOf objSize, off = slotOffset objSize i

theorem slabSizes_pos (c : Fin 8) : 16 ≤ slabSizes c ∧ slabSizes c ≤ slabLargeThreshold := by
  revert c
  decide

theorem slabSizeClass_slabSizes (c : Fin 8) : slabSizeClass (slabSizes c) = some c := by
  revert c
  decide

theorem slotsOf_pos (c : Fin 8) : 0 < slotsOf (slabSizes c) ∧ slotsOf (slabSizes c) < slabFreeEnd := by
  revert c
  decide

theorem slabSizeClass_isSome {size : Nat} (h : size ≤ slabLargeThreshold) : ∃ c, slabSizeClass size = some c := by
  have hfound : (slabSizeClass size).isSome := by
    rw [slabSizeClass, find?_isSome]
    exact ⟨7, mem_finRange 7, decide_eq_true (show size ≤ slabSizes 7 from h)⟩
  exact Option.isSome_iff_exists.mp hfound

theorem IsSlot.bounds {objSize off : Nat} (h : IsSlot objSize off) :
    slabHeaderSize ≤ off ∧ off + objSize ≤ slabPageSize ∧ (off - slabHeaderSize) % objSize = 0 := by
  obtain ⟨i, hi, rfl⟩ := h
  have hend : (i + 1) * objSize ≤ slabPageSize - slabHeaderSize :=
    (Nat.mul_le_mul_right objSize hi).trans (Nat.div_mul_le_self _ _)
  have hsize : slabHeaderSize ≤ slabPageSize := by decide
  rw [Nat.add_mul] at hend
  refine ⟨Nat.le_add_right _ _, ?_, ?_⟩
  · unfold slotOffset
    omega
  · simp [slotOffset]

theorem IsSlot.apart {objSize a b : Nat} (ha : IsSlot objSize a) (hb : IsSlot objSize b) (hne : a ≠ b) :
    ¬ (a ≤ b ∧ b < a + objSize) := by
  obtain ⟨i, -, rfl⟩ := ha
  obtain ⟨j, -, rfl⟩ := hb
  unfold slotOffset at hne ⊢
  rintro ⟨hle, hlt⟩
  rcases Nat.lt_trichotomy i j with h | h | h
  · have := Nat.mul_le_mul_right objSize (Nat.succ_le_of_lt h)
    rw [Nat.succ_mul] at this
    omega
  · exact hne (by rw [h])
  · have := Nat.mul_le_mul_right objSize h.le
    omega

/-! ## Pages -/

/-- A page of a class with objects of `objSize` bytes and the free slots `chain`. -/
structure PageOk (pg : SlabPage) (p objSize : Nat) (chain : List Nat) : Prop where
  size : pg.objSize = objSize
  total : pg.totalSlots = slotsOf objSize
  phys : pg.pagePhys = p * slabPageSize
  threaded : Threaded pg.words slabFreeEnd pg.freeHead chain
  nodup : chain.Nodup
  count : chain.length = pg.freeCount
  slots : ∀ o ∈ chain, IsSlot objSize o

variable {pg : SlabPage} {p o objSize : Nat} {chain os : List Nat}

theorem PageOk.setNext (h : PageOk pg p objSize chain) (v : Nat) : PageOk { pg with next := v } p objSize chain :=
  ⟨h.size, h.total, h.phys, h.threaded, h.nodup, h.count, h.slots⟩

theorem PageOk.take (h : PageOk pg p objSize (o :: os)) : pg.freeHead = o ∧
    PageOk { pg with freeHead := pg.words pg.freeHead, freeCount := pg.freeCount - 1 } p objSize os := by
  have hhead : pg.freeHead = o := h.threaded.1
  have hcount := h.count
  rw [length_cons] at hcount
  refine ⟨hhead, h.size, h.total, h.phys, ?_, (nodup_cons.mp h.nodup).2, ?_,
    fun x hx => h.slots x (mem_cons_of_mem o hx)⟩
  · show Threaded pg.words slabFreeEnd (pg.words pg.freeHead) os
    rw [hhead]
    exact h.threaded.2.2
  · show os.length = pg.freeCount - 1
    omega

theorem IsSlot.ne_end (h : IsSlot objSize o) : o ≠ slabFreeEnd := by
  have hbound := h.bounds
  have hpage : slabPageSize < slabFreeEnd := by decide
  omega

section

variable (h : PageOk pg p objSize chain)

include h

theorem PageOk.give (hslot : IsSlot objSize o) (hnot : o ∉ chain) :
    PageOk { pg with
      words := update pg.words o pg.freeHead, freeHead := o, freeCount := pg.freeCount + 1 } p objSize
      (o :: chain) := by
  refine ⟨h.size, h.total, h.phys, h.threaded.push hnot hslot.ne_end, nodup_cons.mpr ⟨hnot, h.nodup⟩, ?_,
    fun x hx => ?_⟩
  · show (o :: chain).length = pg.freeCount + 1
    rw [length_cons, h.count]
  · rcases mem_cons.mp hx with rfl | hx
    · exact hslot
    · exact h.slots x hx

theorem PageOk.store (hslot : IsSlot objSize o) (hnot : o ∉ chain) (new : Nat → Nat) :
    PageOk { pg with words := overwrite o pg.objSize new pg.words } p objSize chain := by
  refine ⟨h.size, h.total, h.phys, h.threaded.congr fun x hx => ?_, h.nodup, h.count, h.slots⟩
  have hout := hslot.apart (h.slots x hx) fun e => hnot (e ▸ hx)
  rw [← h.size] at hout
  exact if_neg hout

theorem PageOk.subset : chain ⊆ (List.range (slotsOf objSize)).map (slotOffset objSize) := by
  intro x hx
  obtain ⟨i, hi, rfl⟩ := h.slots x hx
  exact mem_map_of_mem (mem_range.mpr hi)

theorem PageOk.all_free (hcount : pg.freeCount = pg.totalSlots) (hslot : IsSlot objSize o) :
    o ∈ chain := by
  have hperm : ((List.range (slotsOf objSize)).map (slotOffset objSize)).Perm chain := by
    refine (Subperm.perm_of_length_le (h.nodup.subperm h.subset) ?_).symm
    rw [length_map, length_range, h.count, hcount, h.total]
  obtain ⟨i, hi, rfl⟩ := hslot
  exact hperm.subset (mem_map_of_mem (mem_range.mpr hi))

theorem PageOk.count_le : pg.freeCount ≤ pg.totalSlots := by
  have hle := (h.nodup.subperm h.subset).length_le
  rwa [length_map, length_range, h.count, ← h.total] at hle

end

/-! ## A fresh page -/

/-- The slots from the `i`-th on. -/
def slotsFrom (objSize slots i : Nat) : List Nat :=
  (List.range' i (slots - i)).map (slotOffset objSize)

theorem slotOffset_inj {objSize i j : Nat} (hpos : 0 < objSize) (h : slotOffset objSize i = slotOffset objSize j) :
    i = j :=
  Nat.eq_of_mul_eq_mul_right hpos (Nat.add_left_cancel h)

theorem linkSlots_slot {objSize slots i : Nat} (hpos : 0 < objSize) (hi : i < slots) (words : Nat → Nat) :
    linkSlots objSize slots words (slotOffset objSize i) = if i + 1 < slots then slotOffset objSize (i + 1) else
    slabFreeEnd := by
  unfold linkSlots
  -- after `n` rounds the first `n` slots have their words
  have hloop : ∀ n, i < n → ((List.range n).foldl (fun words i => update words (slotOffset objSize i)
      (if i + 1 < slots then slotOffset objSize (i + 1) else slabFreeEnd)) words) (slotOffset objSize i) =
        if i + 1 < slots then slotOffset objSize (i + 1) else slabFreeEnd := by
    intro n hn
    induction n with
    | zero => omega
    | succ n ih =>
      rw [range_succ, foldl_append, foldl_cons, foldl_nil]
      rcases eq_or_ne i n with rfl | hne
      · rw [update_self]
      · rw [update_of_ne fun e => hne (slotOffset_inj hpos e)]
        exact ih (by omega)
  exact hloop slots hi

theorem linkSlots_threaded {objSize slots : Nat} (hpos : 0 < objSize)
    (hfits : slots * objSize ≤ slabPageSize - slabHeaderSize) (words : Nat → Nat) (n i : Nat) (hn : i + n = slots)
    (hlt : 0 < n) :
    Threaded (linkSlots objSize slots words) slabFreeEnd (slotOffset objSize i) (slotsFrom objSize slots i) := by
  induction n generalizing i with
  | zero => omega
  | succ n ih =>
    have hlist : slotsFrom objSize slots i = slotOffset objSize i :: slotsFrom objSize slots (i + 1) := by
      unfold slotsFrom
      rw [show slots - i = slots - (i + 1) + 1 by omega, range'_succ, map_cons]
    have hsize : slabHeaderSize ≤ slabPageSize ∧ slabPageSize < slabFreeEnd := by decide
    have hbound : (i + 1) * objSize ≤ slots * objSize := Nat.mul_le_mul_right _ (by omega)
    rw [Nat.add_mul] at hbound
    rw [hlist]
    refine ⟨rfl, ?_, ?_⟩
    · unfold slotOffset
      omega
    · rw [linkSlots_slot hpos (by omega)]
      rcases Nat.eq_zero_or_pos n with rfl | hpos'
      · rw [if_neg (by omega)]
        unfold slotsFrom
        rw [show slots - (i + 1) = 0 by omega]
        rfl
      · rw [if_pos (by omega)]
        exact ih (i + 1) (by omega) hpos'

theorem slabInitPage_ok (c : Fin 8) (hphys : pg.pagePhys = p * slabPageSize) :
    PageOk (slabInitPage pg (slabSizes c)) p (slabSizes c) (slotsFrom (slabSizes c) (slotsOf (slabSizes c)) 0) := by
  have hpos : 0 < slabSizes c := lt_of_lt_of_le (by decide) (slabSizes_pos c).1
  have hthread := linkSlots_threaded hpos (Nat.div_mul_le_self _ _) pg.words (slotsOf (slabSizes c)) 0 (Nat.zero_add _)
    (slotsOf_pos c).1
  refine ⟨rfl, rfl, hphys, ?_, ?_, ?_, fun o ho => ?_⟩
  · show Threaded _ _ slabHeaderSize _
    have hzero : slotOffset (slabSizes c) 0 = slabHeaderSize := by simp [slotOffset]
    rw [← hzero]
    exact hthread
  · exact Nodup.map (fun i j h => slotOffset_inj hpos h) nodup_range'
  · show ((List.range' 0 _).map _).length = slotsOf (slabSizes c)
    simp
  · obtain ⟨i, hi, rfl⟩ := mem_map.mp ho
    rw [mem_range'_1] at hi
    exact ⟨i, by omega, rfl⟩

/-! ## The lists of pages -/

namespace Slab

variable (s : Slab)

def nextPage (p : Nat) : Nat := (s.page p).next

def heads (i : Fin 8 × SlabList) : Nat := (s.classes i.1).head i.2

theorem nextPage_setPage (p : Nat) (pg : SlabPage) : (s.setPage p pg).nextPage = update s.nextPage p pg.next := by
  funext q
  rcases eq_or_ne q p with rfl | h
  · simp [nextPage, setPage]
  · simp [nextPage, setPage, update_of_ne h]

variable (c : Fin 8)

theorem heads_setHead (v : Nat) (which : SlabList) :
    (s.setClass c ((s.classes c).setHead v which)).heads = update s.heads (c, which) v := by
  funext ⟨d, w⟩
  rcases eq_or_ne d c with rfl | h
  · cases which <;> cases w <;> simp [heads, setClass, SlabClass.setHead, SlabClass.head, update]
  · rw [update_of_ne (by simp [h])]
    simp [heads, setClass, update_of_ne h]

theorem nextPage_setLink (which : SlabList) (prev : Option Nat) (v : Nat) :
    (s.setLink c which prev v).nextPage = nextAfter s.nextPage prev v := by
  cases prev with
  | none => rfl
  | some q => exact s.nextPage_setPage q _

theorem heads_setLink (which : SlabList) (prev : Option Nat) (v : Nat) :
    (s.setLink c which prev v).heads = update s.heads (c, which) (headAfter prev (s.heads (c, which)) v) := by
  cases prev with
  | none => exact s.heads_setHead c v which
  | some q => exact (update_eq_self _ _).symm

/-- Two slabs that differ in their lists of pages only. -/
structure SameButLinks (s s' : Slab) : Prop where
  initialized : s'.initialized = s.initialized
  pageCount : s'.pageCount = s.pageCount
  bits : s'.pageBits = s.pageBits
  size : ∀ c, (s'.classes c).objSize = (s.classes c).objSize
  page : ∀ p, ∃ v, s'.page p = { s.page p with next := v }

variable {s} {s' s'' : Slab}

theorem SameButLinks.trans (h : s.SameButLinks s') (h' : s'.SameButLinks s'') : s.SameButLinks s'' := by
  refine ⟨h'.initialized.trans h.initialized, h'.pageCount.trans h.pageCount, h'.bits.trans h.bits,
    fun c => (h'.size c).trans (h.size c), fun p => ?_⟩
  obtain ⟨v, hv⟩ := h.page p
  obtain ⟨v', hv'⟩ := h'.page p
  exact ⟨v', by rw [hv', hv]⟩

theorem sameButLinks_setHead (v : Nat) (which : SlabList) :
    s.SameButLinks (s.setClass c ((s.classes c).setHead v which)) := by
  refine ⟨rfl, rfl, rfl, fun d => ?_, fun p => ⟨_, rfl⟩⟩
  rcases eq_or_ne d c with rfl | h
  · cases which <;> simp [setClass, SlabClass.setHead]
  · simp [setClass, update_of_ne h]

theorem sameButLinks_setNext (p v : Nat) : s.SameButLinks (s.setPage p { s.page p with next := v }) := by
  refine ⟨rfl, rfl, rfl, fun _ => rfl, fun q => ?_⟩
  rcases eq_or_ne q p with rfl | h
  · exact ⟨v, by simp [setPage]⟩
  · exact ⟨(s.page q).next, by simp [setPage, update_of_ne h]⟩

theorem sameButLinks_setLink (which : SlabList) (prev : Option Nat) (v : Nat) :
    s.SameButLinks (s.setLink c which prev v) := by
  cases prev with
  | none => exact sameButLinks_setHead c v which
  | some q => exact sameButLinks_setNext q v

end Slab

/-! ## The layout -/

/-- The pages of a class, by list, and the free slots of each page. -/
structure SlabView where
  lists : Fin 8 × SlabList → List Nat
  chain : Nat → List Nat

section layout

variable (heapPage : Nat → Prop) (memEnd : Nat)

structure Layout (w : SlabWorld) (v : SlabView) : Prop where
  initialized : w.slab.initialized = true
  pageCount : w.slab.pageCount = memEnd / slabPageSize + 1
  bits_length : w.slab.pageCount ≤ w.slab.pageBits.length * 8
  size : ∀ c, (w.slab.classes c).objSize = slabSizes c
  lists : Threads w.slab.nextPage 0 w.slab.heads v.lists
  held_nodup : w.held.Nodup
  held : ∀ p, p ∈ w.held ↔ ∃ i, p ∈ v.lists i
  memory : ∀ p ∈ w.held, p * slabPageSize < memEnd ∧ ¬ heapPage p
  bits : ∀ p, w.slab.bitTest (p * slabPageSize) = true ↔ p ∈ w.held
  page : ∀ i p, p ∈ v.lists i → PageOk (w.slab.page p) p (slabSizes i.1) (v.chain p)
  live_nodup : w.live.Nodup
  live : ∀ ptr, ptr ∈ w.live ↔ ∃ i, ptr / slabPageSize ∈ v.lists i ∧ IsSlot (slabSizes i.1) (ptr % slabPageSize) ∧
    ptr % slabPageSize ∉ v.chain (ptr / slabPageSize)

/-- A page is in the list of the full ones exactly when it has no free slot. -/
def Sorted (w : SlabWorld) (v : SlabView) : Prop :=
  ∀ i p, p ∈ v.lists i → (i.2 = .full ↔ (w.slab.page p).freeCount = 0)

variable {heapPage memEnd} {w : SlabWorld} {v : SlabView} {p o : Nat}

theorem Layout.relink (h : Layout heapPage memEnd w v) {s' : Slab} {lists' : Fin 8 × SlabList → List Nat}
    (hs : w.slab.SameButLinks s') (hlists : Threads s'.nextPage 0 s'.heads lists')
    (hclass : ∀ c p, (∃ which, p ∈ lists' (c, which)) ↔ ∃ which, p ∈ v.lists (c, which)) :
    Layout heapPage memEnd { w with slab := s' } ⟨lists', v.chain⟩ := by
  have hmove : ∀ (P : Fin 8 → Prop) p, (∃ i, p ∈ lists' i ∧ P i.1) ↔ ∃ i, p ∈ v.lists i ∧ P i.1 := by
    intro P p
    constructor
    · rintro ⟨⟨c, which⟩, hp, hP⟩
      obtain ⟨which', hp'⟩ := (hclass c p).mp ⟨which, hp⟩
      exact ⟨(c, which'), hp', hP⟩
    · rintro ⟨⟨c, which⟩, hp, hP⟩
      obtain ⟨which', hp'⟩ := (hclass c p).mpr ⟨which, hp⟩
      exact ⟨(c, which'), hp', hP⟩
  refine ⟨hs.initialized.trans h.initialized, hs.pageCount.trans h.pageCount, ?_, fun c => (hs.size c).trans (h.size c),
    hlists, h.held_nodup, fun p => ?_, h.memory, fun p => ?_, fun ⟨c, which⟩ p hp => ?_, h.live_nodup, fun ptr => ?_⟩
  · show s'.pageCount ≤ s'.pageBits.length * 8
    rw [hs.pageCount, hs.bits]
    exact h.bits_length
  · have := hmove (fun _ => True) p
    simp only [and_true] at this
    exact (h.held p).trans this.symm
  · rw [← h.bits p]
    simp only [Slab.bitTest, hs.pageCount, hs.bits]
  · obtain ⟨which', hp'⟩ := (hclass c p).mp ⟨which, hp⟩
    obtain ⟨n, hn⟩ := hs.page p
    rw [hn]
    exact (h.page (c, which') p hp').setNext n
  · refine (h.live ptr).trans (Iff.symm ?_)
    exact hmove (fun c => IsSlot (slabSizes c) (ptr % slabPageSize) ∧
      ptr % slabPageSize ∉ v.chain (ptr / slabPageSize)) _

theorem Layout.rewrite (h : Layout heapPage memEnd w v) {i : Fin 8 × SlabList} (hp : p ∈ v.lists i) {pg : SlabPage}
    {chain : List Nat} {live : List Nat} (hpage : PageOk pg p (slabSizes i.1) chain)
    (hnext : pg.next = (w.slab.page p).next) (hnd : live.Nodup)
    (hlive : ∀ ptr, ptr ∈ live ↔
      if ptr / slabPageSize = p then IsSlot (slabSizes i.1) (ptr % slabPageSize) ∧ ptr % slabPageSize ∉ chain
      else ptr ∈ w.live) :
    Layout heapPage memEnd ⟨w.slab.setPage p pg, live, w.held⟩ ⟨v.lists, update v.chain p chain⟩ := by
  have hnextPage : (w.slab.setPage p pg).nextPage = w.slab.nextPage := by
    rw [Slab.nextPage_setPage, hnext]
    exact update_eq_self _ _
  refine ⟨h.initialized, h.pageCount, h.bits_length, h.size, hnextPage ▸ h.lists, h.held_nodup, h.held, h.memory,
    h.bits, fun j q hq => ?_, hnd, fun ptr => ?_⟩
  · rcases eq_or_ne q p with rfl | hne
    · obtain rfl := h.lists.apart i j q hp hq
      simpa [Slab.setPage] using hpage
    · simpa [Slab.setPage, update_of_ne hne] using h.page j q hq
  · rw [hlive]
    by_cases hptr : ptr / slabPageSize = p
    · rw [if_pos hptr]
      simp only [hptr, update_self]
      constructor
      · exact fun hs => ⟨i, hp, hs⟩
      · rintro ⟨j, hq, hs⟩
        obtain rfl := h.lists.apart i j p hp hq
        exact hs
    · rw [if_neg hptr, h.live]
      simp only [update_of_ne hptr]

theorem Layout.live_on (h : Layout heapPage memEnd w v) {i : Fin 8 × SlabList} {ptr : Nat}
    (hp : ptr / slabPageSize ∈ v.lists i) : ptr ∈ w.live ↔
    IsSlot (slabSizes i.1) (ptr % slabPageSize) ∧ ptr % slabPageSize ∉ v.chain (ptr / slabPageSize) := by
  rw [h.live]
  constructor
  · rintro ⟨j, hq, hs⟩
    obtain rfl := h.lists.apart i j _ hp hq
    exact hs
  · exact fun hs => ⟨i, hp, hs⟩

theorem ptr_eq {ptr p o : Nat} (ho : o < slabPageSize) :
    ptr = p * slabPageSize + o ↔ ptr / slabPageSize = p ∧ ptr % slabPageSize = o := by
  unfold slabPageSize at *
  omega

theorem IsSlot.lt {objSize off : Nat} (h : IsSlot objSize off) (hpos : 0 < objSize) : off < slabPageSize := by
  have := h.bounds
  omega

theorem slabSizes_ne_zero (c : Fin 8) : 0 < slabSizes c :=
  lt_of_lt_of_le (by decide) (slabSizes_pos c).1

theorem Layout.store (h : Layout heapPage memEnd w v) {ptr : Nat} (hptr : ptr ∈ w.live) (new : Nat → Nat) :
    Layout heapPage memEnd { w with slab := SlabWorld.storeObject w.slab ptr new } v := by
  obtain ⟨i, hp, hslot, hnot⟩ := (h.live ptr).mp hptr
  have hlay := h.rewrite hp ((h.page i _ hp).store hslot hnot new) rfl h.live_nodup fun q => by
    split
    · next hq =>
      rw [← hq] at hp ⊢
      exact h.live_on hp
    · rfl
  rwa [update_eq_self] at hlay

theorem Layout.take (h : Layout heapPage memEnd w v) {i : Fin 8 × SlabList} (hp : p ∈ v.lists i) {os : List Nat}
    (hchain : v.chain p = o :: os) :
    (w.slab.page p).freeHead = o ∧
    Layout heapPage memEnd
      ⟨w.slab.setPage p { w.slab.page p with
          freeHead := (w.slab.page p).words (w.slab.page p).freeHead, freeCount := (w.slab.page p).freeCount - 1 },
        w.live ++ [p * slabPageSize + o], w.held⟩ ⟨v.lists, update v.chain p os⟩ := by
  have hpage := h.page i p hp
  rw [hchain] at hpage
  obtain ⟨hhead, htake⟩ := hpage.take
  have hslot := hpage.slots o mem_cons_self
  have holt := hslot.lt (slabSizes_ne_zero i.1)
  have hnd := nodup_cons.mp hpage.nodup
  have hdead : p * slabPageSize + o ∉ w.live := by
    obtain ⟨hdiv, hmod⟩ := (ptr_eq holt).mp (rfl : p * slabPageSize + o = p * slabPageSize + o)
    rw [h.live_on (hdiv.symm ▸ hp), hdiv, hmod, hchain]
    simp
  refine ⟨hhead, h.rewrite hp htake rfl ?_ fun ptr => ?_⟩
  · exact nodup_append.mpr ⟨h.live_nodup, nodup_singleton _, fun a ha b hb e => by
      rw [mem_singleton.mp hb] at e
      exact hdead (e ▸ ha)⟩
  · rw [mem_append, mem_singleton, ptr_eq holt]
    split
    · next hptr =>
      rw [h.live_on (hptr.symm ▸ hp), hptr, hchain, mem_cons, not_or]
      constructor
      · rintro (⟨hs, -, hin⟩ | ⟨-, rfl⟩)
        · exact ⟨hs, hin⟩
        · exact ⟨hslot, hnd.1⟩
      · rintro ⟨hs, hin⟩
        by_cases hmod : ptr % slabPageSize = o
        · exact .inr ⟨rfl, hmod⟩
        · exact .inl ⟨hs, hmod, hin⟩
    · next hptr => simp [hptr]

theorem Layout.give (h : Layout heapPage memEnd w v) {i : Fin 8 × SlabList} {ptr : Nat} (hp : ptr / slabPageSize = p)
    (ho : ptr % slabPageSize = o) (hlist : p ∈ v.lists i) (hptr : ptr ∈ w.live) :
    Layout heapPage memEnd
      ⟨w.slab.setPage p { w.slab.page p with
          words := update (w.slab.page p).words o (w.slab.page p).freeHead, freeHead := o
          freeCount := (w.slab.page p).freeCount + 1 },
        w.live.erase ptr, w.held⟩ ⟨v.lists, update v.chain p (o :: v.chain p)⟩ := by
  have hpage := h.page i p hlist
  obtain ⟨hslot, hnot⟩ := (h.live_on (hp.symm ▸ hlist)).mp hptr
  rw [ho, hp] at hnot
  rw [ho] at hslot
  refine h.rewrite hlist (hpage.give hslot hnot) rfl (h.live_nodup.erase ptr) fun q => ?_
  rw [h.live_nodup.mem_erase_iff]
  split
  · next hq =>
    rw [h.live_on (hq.symm ▸ hlist), hq, mem_cons, not_or]
    have hne : q ≠ ptr ↔ q % slabPageSize ≠ o := by
      rw [← ho]
      unfold slabPageSize at *
      omega
    rw [hne]
    tauto
  · next hq => exact and_iff_right fun e => hq (e ▸ hp)

theorem Layout.length_le (h : Layout heapPage memEnd w v) (i : Fin 8 × SlabList) :
    (v.lists i).length ≤ w.slab.pageCount := by
  have hsub : v.lists i ⊆ List.range w.slab.pageCount := by
    intro p hp
    have hlt := (h.memory p ((h.held p).mpr ⟨i, hp⟩)).1
    rw [mem_range, h.pageCount, Nat.lt_succ_iff, Nat.le_div_iff_mul_le (by decide)]
    exact hlt.le
  have := ((h.lists.nodup i).subperm hsub).length_le
  rwa [length_range] at this

end layout

end BoxOS.Memory
