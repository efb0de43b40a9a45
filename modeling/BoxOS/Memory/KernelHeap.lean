import BoxOS.Lib.Tiling
import BoxOS.Memory.Buddy

/-!
# The kernel heap

`klib_mem.c`: a pool of which `mem_init` publishes at most the first 2 MB, a free list sorted by address, and headers in
front of the blocks. Addresses are offsets in the pool. `used` are the blocks whose header says that they are allocated;
`kfree_internal` finds its block there or panics. Sizes are of 64 bits and their sums wrap.

`mem_activate_pull_map` publishes the rest of the pool. Where the last free block touches it, the two become one, with a
header too many: `tail_past_end`. `kmalloc` adds its guards to any size, and where the sum wraps it writes them past the
block: a run asks for no such size.

`HeapInv`: the blocks tile the pool, and the free ones are sorted with a gap between any two; so in every run
(`kernel_heap_tiled`).
-/

namespace BoxOS.Memory

open Lib List

def klibHeapMinSize : Nat := 2 * 1024 * 1024

def klibHeapMaxSize : Nat := 16 * 1024 * 1024

def klibHeapBootloaderSafeSize : Nat := 2 * 1024 * 1024

def klibBlockAlignment : Nat := 32

/-- `sizeof(mem_block_t)`. -/
def memBlockSize : Nat := 24

/-- `sizeof(heap_guard_t)`. -/
def heapGuardSize : Nat := 32

/-- A header: the block has `size` bytes behind it. -/
structure MemBlock where
  off : Nat
  size : Nat
deriving DecidableEq

open MemBlock

def MemBlock.stop (b : MemBlock) : Nat := b.off + memBlockSize + b.size

structure KernelHeap where
  /-- `memory_pool_size` -/
  poolSize : Nat
  /-- `memory_pool_full` -/
  poolFull : Nat
  freeList : List MemBlock
  used : List MemBlock
  /-- `g_heap_live` -/
  heapLive : Nat

/-- The panics of `kmalloc_internal` and `kfree_internal`. -/
inductive HeapPanic where
  | outOfRange
  | invalidFree
deriving DecidableEq

/-! ## The size of the pool -/

/-- The size `mem_init` asks for first. -/
def firstHeapSize (totalPages : Nat) : Nat :=
  let totalRam := totalPages * buddyPageSize % 2 ^ 64
  let heapSize := totalRam * 3 % 2 ^ 64 / 100
  let heapSize := if heapSize < klibHeapMinSize then klibHeapMinSize else heapSize
  let dynamicMax := totalRam / 64
  let dynamicMax := if dynamicMax < klibHeapMaxSize then klibHeapMaxSize else dynamicMax
  let heapSize := if heapSize > dynamicMax then dynamicMax else heapSize
  let heapSize := alignUp heapSize
  let maxBytes := orderToPages buddyMaxOrder * buddyPageSize
  if heapSize > maxBytes then maxBytes else heapSize

/-- The size after `fails` refusals of `pmm_alloc`. -/
def heapSizeAfter : Nat → Nat → Option Nat
  | 0, heapSize => some heapSize
  | fails + 1, heapSize =>
    if heapSize ≤ klibHeapMinSize then none
    else heapSizeAfter fails (if heapSize / 2 < klibHeapMinSize then klibHeapMinSize else heapSize / 2)

/-- The pool `mem_init` publishes. -/
def memInit (heapSize : Nat) : KernelHeap :=
  let early := if heapSize > klibHeapBootloaderSafeSize then klibHeapBootloaderSafeSize else heapSize
  ⟨early, heapSize, [⟨0, early - memBlockSize⟩], [], 0⟩

/-! ## Calls -/

/-- A free block is taken whole, or cut when the rest is worth a block. -/
def cutBlock (size : Nat) (b : MemBlock) (rest : List MemBlock) : MemBlock × List MemBlock :=
  if b.size > size + memBlockSize + klibBlockAlignment then
    (⟨b.off, size⟩, ⟨b.off + memBlockSize + size, b.size - size - memBlockSize⟩ :: rest)
  else (b, rest)

/-- The search of `kmalloc_internal`: the block, and the free list without it. -/
def allocFrom (poolSize size : Nat) : List MemBlock → Except HeapPanic (Option (MemBlock × List MemBlock))
  | [] => .ok none
  | curr :: rest =>
    if curr.off ≥ poolSize then .error .outOfRange
    else if curr.size ≥ size then .ok (some (cutBlock size curr rest))
    else
      match allocFrom poolSize size rest with
      | .ok (some (b, rest')) => .ok (some (b, curr :: rest'))
      | r => r

/-- A request rounded up to the alignment of blocks. -/
def roundUp (size : Nat) : Nat := (size + (klibBlockAlignment - 1)) % 2 ^ 64 / klibBlockAlignment * klibBlockAlignment

/-- `kmalloc_internal`: the offset it returns, `none` for `NULL`. -/
def kmallocInternal (h : KernelHeap) (size : Nat) : Except HeapPanic (Option Nat × KernelHeap) :=
  if size = 0 then .ok (none, h)
  else
    match allocFrom h.poolSize (roundUp size) h.freeList with
    | .error e => .error e
    | .ok none => .ok (none, h)
    | .ok (some (b, rest)) =>
      if b.off + memBlockSize ≥ h.poolSize then .error .outOfRange
      else
        .ok (some (b.off + memBlockSize),
          { h with freeList := rest, used := b :: h.used, heapLive := h.heapLive + (b.size + memBlockSize) })

/-- `kmalloc`, when the slab does not serve it: the offset behind the guard. The two guards it writes, one in front of
the bytes and a word behind them, stay in the block where the request `Fits`. -/
def kmalloc (h : KernelHeap) (size : Nat) : Except HeapPanic (Option Nat × KernelHeap) :=
  if size = 0 then .ok (none, h)
  else
    match kmallocInternal h ((heapGuardSize + size + 8) % 2 ^ 64) with
    | .error e => .error e
    | .ok (none, h') => .ok (none, h')
    | .ok (some guard, h') => .ok (some (guard + heapGuardSize), h')

/-- The block goes together with the next one if they touch. -/
def joinNext (block : MemBlock) : List MemBlock → List MemBlock
  | [] => [block]
  | next :: rest =>
    if block.stop = next.off then ⟨block.off, block.size + (memBlockSize + next.size)⟩ :: rest else
      block :: next :: rest

/-- The free list with a block put in its place. -/
def freeInto (block : MemBlock) (freeList : List MemBlock) : List MemBlock :=
  let before := freeList.takeWhile fun c => c.off < block.off
  let after := freeList.dropWhile fun c => c.off < block.off
  match before.getLast? with
  | none => joinNext block after
  | some prev =>
    if prev.stop = block.off then
      before.dropLast ++ joinNext ⟨prev.off, prev.size + (memBlockSize + block.size)⟩ after
    else before ++ joinNext block after

def kfreeInternal (h : KernelHeap) (ptr : Nat) : Except HeapPanic KernelHeap :=
  match h.used.find? fun b => b.off + memBlockSize = ptr with
  | none => .error .invalidFree
  | some block =>
    .ok { h with
      freeList := freeInto block h.freeList
      used := h.used.erase block
      heapLive :=
      if h.heapLive ≥ block.size + memBlockSize then h.heapLive - (block.size + memBlockSize) else h.heapLive }

def memActivatePullMap (h : KernelHeap) : KernelHeap :=
  if h.poolFull > h.poolSize then
    let tail := h.poolSize
    let added := h.poolFull - h.poolSize
    let blk : MemBlock := ⟨tail, added - memBlockSize⟩
    let freeList :=
      match h.freeList.getLast? with
      | none => [blk]
      | some last =>
        if last.stop = tail then h.freeList.dropLast ++ [⟨last.off, last.size + (memBlockSize + added)⟩]
        else h.freeList ++ [blk]
    { h with poolSize := h.poolFull, freeList := freeList }
  else h

/-! ## Tiles -/

/-- A block of the pool and whether it is free. -/
abbrev Tile := MemBlock × Bool

def frees (tiles : List Tile) : List MemBlock := (tiles.filter (·.2)).map (·.1)

def useds (tiles : List Tile) : List MemBlock := (tiles.filter (! ·.2)).map (·.1)

/-- The blocks tile the offsets from `a` to `b`. -/
def Tiled (a b : Nat) (tiles : List Tile) : Prop := Tiles (fun t : Tile => t.1.off) (fun t => t.1.stop) a b tiles

/-- Sorted, with a gap between any two. -/
def Gapped (l : List MemBlock) : Prop := l.Pairwise fun b c => b.stop < c.off

structure HeapInv (h : KernelHeap) (tiles : List Tile) : Prop where
  tiled : Tiled 0 h.poolSize tiles
  free : h.freeList = frees tiles
  used : h.used.Perm (useds tiles)
  gapped : Gapped h.freeList
  live : h.heapLive = (h.used.map fun b => b.size + memBlockSize).sum

variable {h : KernelHeap} {tiles A B : List Tile} {b c : MemBlock} {F₁ F₂ : List MemBlock} {m n : Nat}

@[simp] theorem frees_nil : frees [] = [] := rfl

@[simp] theorem frees_cons_true : frees ((b, true) :: B) = b :: frees B := rfl

@[simp] theorem frees_cons_false : frees ((b, false) :: B) = frees B := rfl

@[simp] theorem frees_append : frees (A ++ B) = frees A ++ frees B := by simp [frees]

@[simp] theorem useds_nil : useds [] = [] := rfl

@[simp] theorem useds_cons_true : useds ((b, true) :: B) = useds B := rfl

@[simp] theorem useds_cons_false : useds ((b, false) :: B) = b :: useds B := rfl

@[simp] theorem useds_append : useds (A ++ B) = useds A ++ useds B := by simp [useds]

theorem mem_frees : b ∈ frees tiles ↔ (b, true) ∈ tiles := by simp [frees]

theorem mem_useds : b ∈ useds tiles ↔ (b, false) ∈ tiles := by simp [useds]

theorem frees_split (hf : frees tiles = F₁ ++ b :: F₂) :
    ∃ A B, tiles = A ++ (b, true) :: B ∧ frees A = F₁ ∧ frees B = F₂ := by
  induction tiles generalizing F₁ with
  | nil => exact absurd hf (by simp)
  | cons t tiles ih =>
    obtain ⟨c, f⟩ := t
    cases f with
    | false =>
      obtain ⟨A, B, rfl, hA, hB⟩ := ih hf
      exact ⟨(c, false) :: A, B, rfl, hA, hB⟩
    | true =>
      rw [frees_cons_true] at hf
      cases F₁ with
      | nil =>
        obtain ⟨rfl, rfl⟩ := List.cons.inj hf
        exact ⟨[], tiles, rfl, rfl, rfl⟩
      | cons d F₁ =>
        obtain ⟨rfl, hf'⟩ := List.cons.inj hf
        obtain ⟨A, B, rfl, hA, hB⟩ := ih hf'
        exact ⟨(c, true) :: A, B, rfl, by rw [frees_cons_true, hA], hB⟩

theorem Tiled.mem_bounds (ht : Tiled m n tiles) {f : Bool} (hb : (b, f) ∈ tiles) :
    m ≤ b.off ∧ b.off < b.stop ∧ b.stop ≤ n := by
  unfold Tiled at ht
  exact ht.bounds hb

/-! ## Allocating -/

theorem allocFrom_spec {poolSize : Nat} (size : Nat) {l : List MemBlock} (hl : ∀ c ∈ l, c.off < poolSize) :
    allocFrom poolSize size l = .ok none ∨ ∃ F₁ b F₂, l = F₁ ++ b :: F₂ ∧ size ≤ b.size ∧
      allocFrom poolSize size l = .ok (some ((cutBlock size b F₂).1, F₁ ++ (cutBlock size b F₂).2)) := by
  induction l with
  | nil => exact .inl rfl
  | cons c l ih =>
    have hc := hl c mem_cons_self
    rw [allocFrom, if_neg (not_le.mpr hc)]
    by_cases hsize : c.size ≥ size
    · rw [if_pos hsize]
      exact .inr ⟨[], c, l, rfl, hsize, rfl⟩
    rw [if_neg hsize]
    rcases ih fun d hd => hl d (mem_cons_of_mem _ hd) with hnone | ⟨F₁, b, F₂, rfl, hb, hsome⟩
    · rw [hnone]
      exact .inl rfl
    · rw [hsome]
      exact .inr ⟨c :: F₁, b, F₂, rfl, hb, rfl⟩

/-- The heap when the block `got` was taken from the free block `b`. -/
def KernelHeap.taking (h : KernelHeap) (got : MemBlock) (rest : List MemBlock) : KernelHeap :=
  { h with freeList := rest, used := got :: h.used, heapLive := h.heapLive + (got.size + memBlockSize) }

theorem HeapInv.taking (hi : HeapInv h tiles) (size : Nat) (hl : h.freeList = F₁ ++ b :: F₂) :
    ∃ tiles', HeapInv (h.taking (cutBlock size b F₂).1 (F₁ ++ (cutBlock size b F₂).2)) tiles' := by
  obtain ⟨A, B, rfl, hA, hB⟩ := frees_split (hi.free.symm.trans hl)
  have hgap := hi.gapped
  rw [hl] at hgap
  have hperm : h.used.Perm (useds A ++ useds B) := by simpa using hi.used
  have hlive : ∀ got : MemBlock, h.heapLive + (got.size + memBlockSize) =
      ((got :: h.used).map fun b => b.size + memBlockSize).sum := fun got => by
    rw [map_cons, sum_cons, hi.live, Nat.add_comm]
  unfold cutBlock
  split
  · rename_i hbig
    unfold klibBlockAlignment at hbig
    have hstop : b.off + memBlockSize + size + memBlockSize + (b.size - size - memBlockSize) = b.stop := by
      unfold stop memBlockSize
      unfold memBlockSize at hbig
      omega
    refine ⟨A ++ [(⟨b.off, size⟩, false), (⟨b.off + memBlockSize + size, b.size - size - memBlockSize⟩, true)] ++ B,
      tiles_replace hi.tiled ⟨rfl, ?_, rfl, ?_, ?_⟩, ?_, ?_, ?_, hlive _⟩
    · unfold stop memBlockSize
      simp only []
      omega
    · simp only [stop]
      unfold memBlockSize
      omega
    · exact hstop
    · simp [KernelHeap.taking, hA, hB]
    · refine (hperm.cons _).trans ?_
      simpa using perm_middle.symm
    · refine pairwise_append.mpr ⟨(pairwise_append.mp hgap).1, ?_, fun c hc d hd => ?_⟩
      · have hcons := (pairwise_append.mp hgap).2.1
        refine pairwise_cons.mpr ⟨fun d hd => ?_, (pairwise_cons.mp hcons).2⟩
        have := (pairwise_cons.mp hcons).1 d hd
        rw [← hstop] at this
        exact this
      · have hcross := (pairwise_append.mp hgap).2.2 c hc
        rcases mem_cons.mp hd with rfl | hd
        · have := hcross b mem_cons_self
          simp only []
          omega
        · exact hcross d (mem_cons_of_mem _ hd)
  · refine ⟨A ++ [(b, false)] ++ B, tiles_replace hi.tiled ⟨rfl, ?_, rfl⟩, ?_, ?_, ?_, hlive _⟩
    · exact (hi.tiled.mem_bounds (f := true) (by simp)).2.1
    · simp [KernelHeap.taking, hA, hB]
    · refine (hperm.cons _).trans ?_
      simpa using perm_middle.symm
    · exact hgap.sublist (Sublist.append (Sublist.refl F₁) (sublist_cons_self b F₂))

theorem le_roundUp {size : Nat} (hs : size + 31 < 2 ^ 64) : size ≤ roundUp size := by
  unfold roundUp klibBlockAlignment
  omega

theorem HeapInv.off_lt (hi : HeapInv h tiles) (hb : b ∈ h.freeList) : b.off < h.poolSize := by
  rw [hi.free, mem_frees] at hb
  obtain ⟨-, hlt, hle⟩ := hi.tiled.mem_bounds hb
  exact hlt.trans_le hle

/-- `kmalloc_internal` gives nothing and changes nothing, or takes a block that is as large as the rounded request. -/
theorem kmallocInternal_inv (hi : HeapInv h tiles) {size : Nat} {r : Option Nat} {h' : KernelHeap}
    (halloc : kmallocInternal h size = .ok (r, h')) :
    (r = none ∧ h' = h) ∨ ∃ b tiles', r = some (b.off + memBlockSize) ∧ b ∈ h'.used ∧ roundUp size ≤ b.size ∧
    HeapInv h' tiles' ∧ h'.poolSize = h.poolSize ∧ h'.poolFull = h.poolFull := by
  unfold kmallocInternal at halloc
  split at halloc
  · cases halloc
    exact .inl ⟨rfl, rfl⟩
  rcases allocFrom_spec (roundUp size) fun c hc => hi.off_lt hc with hnone | ⟨F₁, b, F₂, hl, hsize, hsome⟩
  · rw [hnone] at halloc
    cases halloc
    exact .inl ⟨rfl, rfl⟩
  rw [hsome] at halloc
  simp only [] at halloc
  split at halloc
  · cases halloc
  cases halloc
  obtain ⟨tiles', hinv⟩ := hi.taking (roundUp size) hl
  refine .inr ⟨(cutBlock (roundUp size) b F₂).1, tiles', rfl, mem_cons_self, ?_, hinv, rfl, rfl⟩
  unfold cutBlock
  split
  · exact le_rfl
  · exact hsize

/-- What `kmalloc` asks of a block: the guard, the bytes and the guard word behind them lie in it. -/
def Fits (h : KernelHeap) (ptr size : Nat) : Prop :=
  ∃ b ∈ h.used, ptr = b.off + memBlockSize + heapGuardSize ∧ ptr + size + 8 ≤ b.stop

theorem HeapInv.used_bounds (hi : HeapInv h tiles) (hb : b ∈ h.used) : b.off < b.stop ∧ b.stop ≤ h.poolSize :=
  (hi.tiled.mem_bounds (mem_useds.mp (hi.used.mem_iff.mp hb))).2

/-- `kmalloc`: the request fits if its size does not wrap, and only then. -/
theorem kmalloc_inv (hi : HeapInv h tiles) (hpool : h.poolSize ≤ 2 ^ 63) {size : Nat} (hs : size < 2 ^ 64)
    {r : Option Nat} {h' : KernelHeap} (halloc : kmalloc h size = .ok (r, h')) :
    (r = none ∧ h' = h) ∨ ∃ ptr tiles', r = some ptr ∧ (Fits h' ptr size ↔ size + 71 < 2 ^ 64) ∧ HeapInv h' tiles' ∧
    h'.poolSize = h.poolSize ∧ h'.poolFull = h.poolFull := by
  unfold kmalloc at halloc
  split at halloc
  · cases halloc
    exact .inl ⟨rfl, rfl⟩
  split at halloc
  · cases halloc
  · rename_i h'' hint
    cases halloc
    rcases kmallocInternal_inv hi hint with ⟨-, rfl⟩ | ⟨b, tiles', hno, -⟩
    · exact .inl ⟨rfl, rfl⟩
    · cases hno
  · rename_i guard h'' hint
    cases halloc
    rcases kmallocInternal_inv hi hint with ⟨hno, -⟩ | ⟨b, tiles', hptr, hb, hround, hinv, hps, hpf⟩
    · cases hno
    obtain rfl := Option.some.inj hptr
    refine .inr ⟨_, tiles', rfl, ⟨fun ⟨c, hc, hptr, hfit⟩ => ?_, fun hsmall => ?_⟩, hinv, hps, hpf⟩
    · have hle := (hinv.used_bounds hc).2
      rw [hps] at hle
      omega
    · refine ⟨b, hb, rfl, ?_⟩
      have hmod : (heapGuardSize + size + 8) % 2 ^ 64 = heapGuardSize + size + 8 := by
        unfold heapGuardSize
        omega
      rw [hmod] at hround
      have hle := (le_roundUp (by unfold heapGuardSize; omega)).trans hround
      unfold stop
      omega

/-! ## Freeing -/

theorem Gapped.append {l r : List MemBlock} (hl : Gapped l) (hr : Gapped r) (hlr : ∀ b ∈ l, ∀ c ∈ r, b.stop < c.off) :
    Gapped (l ++ r) := pairwise_append.mpr ⟨hl, hr, hlr⟩

/-- A block that is freed goes together with the free block behind it, if there is one. -/
theorem joinNext_spec {f : Bool} (ht : Tiled b.off n ((b, f) :: B)) (hg : Gapped (frees B)) :
    ∃ c C, joinNext b (frees B) = frees ((c, true) :: C) ∧ c.off = b.off ∧ Tiled b.off n ((c, true) :: C) ∧
      useds C = useds B ∧ Gapped (frees ((c, true) :: C)) := by
  obtain ⟨-, hlt, hB⟩ := ht
  cases B with
  | nil => exact ⟨b, [], rfl, rfl, ⟨rfl, hlt, hB⟩, rfl, pairwise_singleton ..⟩
  | cons t B =>
    obtain ⟨d, fd⟩ := t
    obtain ⟨hd, hdlt, hB'⟩ := hB
    cases fd with
    | true =>
      have hd' : b.stop = d.off := hd.symm
      have hstop : (⟨b.off, b.size + (memBlockSize + d.size)⟩ : MemBlock).stop = d.stop := by
        unfold stop at hd' ⊢
        rw [← hd']
        simp only []
        omega
      refine ⟨⟨b.off, b.size + (memBlockSize + d.size)⟩, B, ?_, rfl, ⟨rfl, ?_, ?_⟩, rfl, ?_⟩
      · rw [frees_cons_true, joinNext, if_pos hd']
        rfl
      · simp only [hstop]
        exact hlt.trans (hd'.trans_lt hdlt)
      · simp only [hstop]
        exact hB'
      · rw [frees_cons_true] at hg ⊢
        obtain ⟨hhead, htail⟩ := pairwise_cons.mp hg
        exact pairwise_cons.mpr ⟨fun c hc => by rw [hstop]; exact hhead c hc, htail⟩
    | false =>
      -- the next free block, if any, is behind `d`
      have hgap : ∀ c ∈ frees B, b.stop < c.off := fun c hc => by
        have hbound := (Tiled.mem_bounds hB' (mem_frees.mp hc)).1
        exact (hd.symm.trans_lt hdlt).trans_le hbound
      rw [frees_cons_false] at hg ⊢
      refine ⟨b, (d, false) :: B, ?_, rfl, ⟨rfl, hlt, hd, hdlt, hB'⟩, rfl, pairwise_cons.mpr ⟨hgap, hg⟩⟩
      rw [frees_cons_true, frees_cons_false]
      cases hfb : frees B with
      | nil => rfl
      | cons c l =>
        have hne : b.stop ≠ c.off := Nat.ne_of_lt (hgap c (by rw [hfb]; exact mem_cons_self))
        rw [joinNext, if_neg hne]

/-- The free blocks in front of a block are those the walk of `kfree_internal` passes. -/
theorem walk_split (ht : Tiled m n (A ++ (b, false) :: B)) :
    ((frees A ++ frees B).takeWhile fun c => c.off < b.off) = frees A ∧
    ((frees A ++ frees B).dropWhile fun c => c.off < b.off) = frees B := by
  unfold Tiled at ht
  obtain ⟨hbefore, hafter⟩ := ht.around
  have hA : ∀ c ∈ frees A, decide (c.off < b.off) = true := fun c hc => by
    have hc := mem_frees.mp hc
    have h₁ := (ht.bounds (mem_append_left _ hc)).2.1
    exact decide_eq_true (h₁.trans_le (hbefore _ hc))
  have hB : ∀ c ∈ frees B, ¬ decide (c.off < b.off) = true := fun c hc => by
    have h₁ := hafter _ (mem_frees.mp hc)
    have h₂ := (ht.bounds (mem_append_right A mem_cons_self)).2.1
    rw [decide_eq_true_eq]
    exact not_lt.mpr (h₂.le.trans h₁)
  have hnil : ∀ l : List MemBlock, (∀ c ∈ l, ¬ decide (c.off < b.off) = true) →
      (l.takeWhile fun c => c.off < b.off) = [] ∧ (l.dropWhile fun c => c.off < b.off) = l := by
    intro l hl
    cases l with
    | nil => exact ⟨rfl, rfl⟩
    | cons c l =>
      have := hl c mem_cons_self
      exact ⟨takeWhile_cons_of_neg this, dropWhile_cons_of_neg this⟩
  rw [takeWhile_append_of_pos hA, dropWhile_append_of_pos hA]
  obtain ⟨h₁, h₂⟩ := hnil _ hB
  exact ⟨by rw [h₁, append_nil], h₂⟩

/-- A block that is freed: the tiles and the free list after it. -/
theorem freeInto_spec (ht : Tiled m n (A ++ (b, false) :: B)) (hg : Gapped (frees A ++ frees B)) :
    ∃ tiles, Tiled m n tiles ∧ freeInto b (frees A ++ frees B) = frees tiles ∧ useds tiles = useds A ++ useds B ∧
    Gapped (frees tiles) := by
  obtain ⟨htake, hdrop⟩ := walk_split ht
  obtain ⟨hgA, hgB, hgAB⟩ := pairwise_append.mp hg
  obtain ⟨k, hA, hk, hlt, hB⟩ := tiles_append.mp ht
  obtain rfl : b.off = k := hk
  unfold freeInto
  simp only [htake, hdrop]
  rcases eq_nil_or_concat' A with rfl | ⟨A', t, rfl⟩
  · obtain ⟨c, C, hjoin, -, htiled, hused, hgap⟩ := joinNext_spec ⟨rfl, hlt, hB⟩ hgB
    refine ⟨(c, true) :: C, ?_, hjoin, ?_, hgap⟩
    · obtain rfl : m = b.off := hA
      exact htiled
    · rw [useds_cons_true, hused]
      rfl
  obtain ⟨x, f⟩ := t
  obtain ⟨j, hA', hx, hxlt, hlast⟩ := tiles_append.mp hA
  obtain rfl : x.off = j := hx
  have hxb : x.stop = b.off := hlast
  have hbefore : ∀ a ∈ frees A', a.stop ≤ x.off := fun a ha => (Tiled.mem_bounds hA' (mem_frees.mp ha)).2.2
  cases f with
  | true =>
    -- the block goes together with the free block in front of it
    have hy : (⟨x.off, x.size + (memBlockSize + b.size)⟩ : MemBlock).stop = b.stop := by
      unfold stop at hxb ⊢
      rw [← hxb]
      simp only []
      omega
    have hty : Tiled x.off n (((⟨x.off, x.size + (memBlockSize + b.size)⟩ : MemBlock), true) :: B) :=
      ⟨rfl, by simp only [hy]; exact hxlt.trans (hxb.trans_lt hlt), by simp only [hy]; exact hB⟩
    obtain ⟨c, C, hjoin, hc, htiled, hused, hgap⟩ := joinNext_spec hty hgB
    refine ⟨A' ++ (c, true) :: C, tiles_append.mpr ⟨x.off, hA', htiled⟩, ?_, ?_, ?_⟩
    · simp only [frees_append, frees_cons_true, frees_nil, getLast?_append, getLast?_singleton,
        Option.some_or, dropLast_concat, if_pos hxb]
      rw [hjoin, frees_cons_true]
    · simp [hused]
    · rw [frees_append]
      rw [frees_append] at hgA
      obtain ⟨hgA', -, hcross⟩ := pairwise_append.mp hgA
      refine Gapped.append hgA' hgap fun a ha d hd => ?_
      have hax : a.stop < c.off := hc ▸ hcross a ha x mem_cons_self
      rw [frees_cons_true] at hd hgap
      rcases mem_cons.mp hd with rfl | hd
      · exact hax
      · have hcd := (pairwise_cons.mp hgap).1 d hd
        exact hax.trans (htiled.2.1.trans hcd)
  | false =>
    have hfA : frees (A' ++ [(x, false)]) = frees A' := by simp
    obtain ⟨c, C, hjoin, hc, htiled, hused, hgap⟩ := joinNext_spec ⟨rfl, hlt, hB⟩ hgB
    have hafter : ∀ a ∈ frees A', a.stop < b.off := fun a ha => (hbefore a ha).trans_lt (hxb ▸ hxlt)
    have hlist : (match (frees A').getLast? with
        | none => joinNext b (frees B)
        | some prev => if prev.stop = b.off
            then (frees A').dropLast ++ joinNext ⟨prev.off, prev.size + (memBlockSize + b.size)⟩ (frees B)
            else frees A' ++ joinNext b (frees B)) = frees A' ++ joinNext b (frees B) := by
      cases hprev : (frees A').getLast? with
      | none =>
        rw [getLast?_eq_none_iff.mp hprev]
        rfl
      | some prev =>
        have hne := Nat.ne_of_lt (hafter prev (mem_of_getLast? hprev))
        simp only [if_neg hne]
    refine ⟨A' ++ [(x, false)] ++ (c, true) :: C, tiles_append.mpr ⟨b.off, hA, htiled⟩, ?_, ?_, ?_⟩
    · rw [hfA]
      refine hlist.trans ?_
      rw [hjoin, frees_append, hfA]
    · simp [hused]
    · rw [frees_append, hfA]
      rw [hfA] at hgA
      refine Gapped.append hgA hgap fun a ha d hd => ?_
      have hac : a.stop < c.off := hc ▸ hafter a ha
      rw [frees_cons_true] at hd hgap
      rcases mem_cons.mp hd with rfl | hd
      · exact hac
      · have hcd := (pairwise_cons.mp hgap).1 d hd
        exact hac.trans (htiled.2.1.trans hcd)

theorem kfreeInternal_inv (hi : HeapInv h tiles) (hb : b ∈ h.used) :
    ∃ h' tiles', kfreeInternal h (b.off + memBlockSize) = .ok h' ∧ HeapInv h' tiles' ∧ h'.poolSize = h.poolSize ∧
    h'.poolFull = h.poolFull := by
  -- the block that is found is the one: two blocks do not begin at the same offset
  have hmem : ∀ c ∈ h.used, (c, false) ∈ tiles := fun c hc => mem_useds.mp (hi.used.mem_iff.mp hc)
  have hfound : h.used.find? (fun c => c.off + memBlockSize = b.off + memBlockSize) = some b := by
    cases hf : h.used.find? (fun c => c.off + memBlockSize = b.off + memBlockSize) with
    | none =>
      have := find?_eq_none.mp hf b hb
      simp at this
    | some c =>
      have hoff : c.off = b.off := by simpa using find?_some hf
      have ht := hi.tiled
      unfold Tiled at ht
      have heq := ht.eq_of_start (hmem c (mem_of_find?_eq_some hf)) (hmem b hb) hoff
      rw [(Prod.mk.inj heq).1]
  obtain ⟨A, B, rfl⟩ := append_of_mem (hmem b hb)
  have hfree : h.freeList = frees A ++ frees B := by rw [hi.free, frees_append, frees_cons_false]
  obtain ⟨tiles', htiled, hlist, hused, hgap⟩ := freeInto_spec hi.tiled (hfree ▸ hi.gapped)
  have hperm : (h.used.erase b).Perm (useds A ++ useds B) := by
    have hused := hi.used
    rw [useds_append, useds_cons_false] at hused
    exact ((perm_cons_erase hb).symm.trans (hused.trans perm_middle)).cons_inv
  have hsum : (h.used.map fun c => c.size + memBlockSize).sum =
      b.size + memBlockSize + ((h.used.erase b).map fun c => c.size + memBlockSize).sum := by
    rw [Perm.sum_nat ((perm_cons_erase hb).map _), map_cons, sum_cons]
  have heq : kfreeInternal h (b.off + memBlockSize) = .ok
      { h with
        freeList := freeInto b h.freeList
        used := h.used.erase b
        heapLive :=
        if h.heapLive ≥ b.size + memBlockSize then h.heapLive - (b.size + memBlockSize) else h.heapLive } := by
    rw [kfreeInternal, hfound]
  refine ⟨_, tiles', heq, ⟨htiled, ?_, ?_, ?_, ?_⟩, rfl, rfl⟩
  · rw [← hlist, ← hfree]
  · rw [hused]
    exact hperm
  · simp only [hfree, hlist]
    exact hgap
  · simp only [hi.live, hsum]
    rw [if_pos (Nat.le_add_right ..), Nat.add_sub_cancel_left]

/-! ## The tail of the pool -/

/-- The last free block does not touch the part of the pool that is not published. -/
def TailApart (h : KernelHeap) : Prop := ∀ last, h.freeList.getLast? = some last → last.stop ≠ h.poolSize

theorem HeapInv.below_tail (hi : HeapInv h tiles) (ht : TailApart h) (hb : b ∈ h.freeList) : b.stop < h.poolSize := by
  have hle : ∀ c ∈ h.freeList, c.off < c.stop ∧ c.stop ≤ h.poolSize := fun c hc => by
    rw [hi.free, mem_frees] at hc
    exact (hi.tiled.mem_bounds hc).2
  rcases eq_nil_or_concat' h.freeList with hnil | ⟨l, last, hl⟩
  · rw [hnil] at hb
    cases hb
  have hgap := hi.gapped
  have hne := ht last (by rw [hl]; simp)
  have hlast := hle last (by rw [hl]; simp)
  rw [hl] at hb hgap
  rcases mem_append.mp hb with hb | hb
  · have hbl := (pairwise_append.mp hgap).2.2 b hb last mem_cons_self
    omega
  · obtain rfl := mem_singleton.mp hb
    omega

/-- `mem_activate_pull_map` publishes a tail that the last free block does not touch as a block of its own. -/
theorem memActivatePullMap_inv (hi : HeapInv h tiles)
    (hroom : h.poolFull = h.poolSize ∨ h.poolSize + memBlockSize ≤ h.poolFull)
    (ht : h.poolFull ≤ h.poolSize ∨ TailApart h) : ∃ tiles', HeapInv (memActivatePullMap h) tiles' := by
  unfold memActivatePullMap
  split
  · rename_i hmore
    have happ : TailApart h := ht.resolve_left (not_le.mpr hmore)
    have hfull : h.poolSize + memBlockSize ≤ h.poolFull := hroom.resolve_left (Nat.ne_of_gt hmore)
    have hlist : (match h.freeList.getLast? with
        | none => [(⟨h.poolSize, h.poolFull - h.poolSize - memBlockSize⟩ : MemBlock)]
        | some last => if last.stop = h.poolSize
            then h.freeList.dropLast ++ [⟨last.off, last.size + (memBlockSize + (h.poolFull - h.poolSize))⟩]
            else h.freeList ++ [⟨h.poolSize, h.poolFull - h.poolSize - memBlockSize⟩]) =
        h.freeList ++ [⟨h.poolSize, h.poolFull - h.poolSize - memBlockSize⟩] := by
      cases hlast : h.freeList.getLast? with
      | none =>
        rw [getLast?_eq_none_iff.mp hlast]
        rfl
      | some last => simp only [if_neg (happ last hlast)]
    have hstop : h.poolSize + memBlockSize + (h.poolFull - h.poolSize - memBlockSize) = h.poolFull := by omega
    refine ⟨tiles ++ [(⟨h.poolSize, h.poolFull - h.poolSize - memBlockSize⟩, true)], ?_, ?_, ?_, ?_, hi.live⟩
    · refine tiles_append.mpr ⟨h.poolSize, hi.tiled, rfl, ?_, hstop⟩
      exact Nat.lt_of_lt_of_eq hmore hstop.symm
    · refine hlist.trans ?_
      rw [frees_append, hi.free]
      rfl
    · simpa using hi.used
    · refine (congrArg Gapped hlist).mpr (Gapped.append hi.gapped (pairwise_singleton ..) fun c hc d hd => ?_)
      obtain rfl := mem_singleton.mp hd
      exact hi.below_tail happ hc
  · exact ⟨tiles, hi⟩

theorem memActivatePullMap_past (hmore : h.poolSize < h.poolFull) (ht : ¬ TailApart h) :
    ∃ b ∈ (memActivatePullMap h).freeList, (memActivatePullMap h).poolSize < b.stop := by
  unfold TailApart at ht
  push Not at ht
  obtain ⟨last, hlast, hstop⟩ := ht
  have heq : memActivatePullMap h = { h with
      poolSize := h.poolFull
      freeList := h.freeList.dropLast ++ [⟨last.off, last.size + (memBlockSize + (h.poolFull - h.poolSize))⟩] } := by
    rw [memActivatePullMap, if_pos hmore]
    simp only [hlast, if_pos hstop]
  rw [heq]
  refine ⟨_, mem_append_right _ mem_cons_self, ?_⟩
  unfold stop memBlockSize at hstop ⊢
  simp only []
  omega

/-! ## Runs -/

/-- `mem_init`, on a pool of a size it can choose, and calls after it. The sizes given to `kmalloc` do not wrap with its
guards, and when `mem_activate_pull_map` is called, nothing is left to publish or the last free block does not touch
what is left. -/
inductive HeapRun : KernelHeap → Prop
  | init {heapSize : Nat} (totalPages fails : Nat) : heapSizeAfter fails (firstHeapSize totalPages) = some heapSize →
      HeapRun (memInit heapSize)
  | kmallocInternal {h h' : KernelHeap} {r : Option Nat} (size : Nat) : HeapRun h →
      kmallocInternal h size = .ok (r, h') → HeapRun h'
  | kmalloc {h h' : KernelHeap} {r : Option Nat} (size : Nat) : HeapRun h → size + 71 < 2 ^ 64 →
      kmalloc h size = .ok (r, h') → HeapRun h'
  | kfree {h h' : KernelHeap} {b : MemBlock} : HeapRun h → b ∈ h.used →
      kfreeInternal h (b.off + memBlockSize) = .ok h' →
      HeapRun h'
  | activate {h : KernelHeap} : HeapRun h → (h.poolFull ≤ h.poolSize ∨ TailApart h) → HeapRun (memActivatePullMap h)

/-- The sizes of the pool: what is not published has room for a header. -/
structure PoolOk (h : KernelHeap) : Prop where
  room : h.poolFull = h.poolSize ∨ h.poolSize + memBlockSize ≤ h.poolFull
  bound : h.poolFull ≤ 2 ^ 63

theorem firstHeapSize_spec (totalPages : Nat) : klibHeapMinSize ≤ firstHeapSize totalPages ∧
    firstHeapSize totalPages ≤ 2 ^ 26 ∧ 2 ^ 12 ∣ firstHeapSize totalPages := by
  have halign : ∀ x, klibHeapMinSize ≤ x → x < 2 ^ 60 → klibHeapMinSize ≤ alignUp x ∧ 2 ^ 12 ∣ alignUp x := by
    intro x h₁ h₂
    unfold alignUp buddyPageSize
    unfold klibHeapMinSize at h₁ ⊢
    refine ⟨?_, Nat.dvd_mul_left ..⟩
    omega
  have hcut : ∀ y, klibHeapMinSize ≤ y → 2 ^ 12 ∣ y →
      let z := if y > 2 ^ 26 then 2 ^ 26 else y
      klibHeapMinSize ≤ z ∧ z ≤ 2 ^ 26 ∧ 2 ^ 12 ∣ z := by
    intro y h₁ h₂ z
    simp only [z]
    split
    · exact ⟨by decide, le_rfl, by decide⟩
    · rename_i hle
      exact ⟨h₁, not_lt.mp hle, h₂⟩
  unfold firstHeapSize
  generalize totalPages * buddyPageSize % 2 ^ 64 = ram
  have hx : ∀ x d, x < 2 ^ 60 → klibHeapMaxSize ≤ d →
      klibHeapMinSize ≤ (if (if x < klibHeapMinSize then klibHeapMinSize else x) > d then d
        else if x < klibHeapMinSize then klibHeapMinSize else x) ∧
      (if (if x < klibHeapMinSize then klibHeapMinSize else x) > d then d
        else if x < klibHeapMinSize then klibHeapMinSize else x) < 2 ^ 60 := by
    intro x d hx hd
    unfold klibHeapMinSize
    unfold klibHeapMaxSize at hd
    split <;> split at * <;> omega
  have hd : klibHeapMaxSize ≤ if ram / 64 < klibHeapMaxSize then klibHeapMaxSize else ram / 64 := by
    split <;> omega
  obtain ⟨h₁, h₂⟩ := hx (ram * 3 % 2 ^ 64 / 100) _ (by omega) hd
  obtain ⟨h₃, h₄⟩ := halign _ h₁ h₂
  exact hcut _ h₃ h₄

/-- After `k` refusals the size is the least one, or it still has some of the alignment of pages. -/
def Halved (k heapSize : Nat) : Prop :=
  heapSize = klibHeapMinSize ∨ klibHeapMinSize ≤ heapSize ∧ heapSize ≤ 2 ^ (26 - k) ∧ 2 ^ (12 - k) ∣ heapSize

theorem Halved.half {k heapSize : Nat} (h : Halved k heapSize) (hgt : klibHeapMinSize < heapSize) (hk : k ≤ 5) :
    k < 5 ∧ Halved (k + 1) (if heapSize / 2 < klibHeapMinSize then klibHeapMinSize else heapSize / 2) := by
  obtain ⟨hmin, hle, hdvd⟩ := h.resolve_left (Nat.ne_of_gt hgt)
  have hlt : k < 5 := by
    by_contra hno
    obtain rfl : k = 5 := by omega
    exact absurd (hgt.trans_le hle) (by decide)
  refine ⟨hlt, ?_⟩
  split
  · exact .inl rfl
  rename_i hge
  have h₁ : 2 ^ (26 - k) = 2 ^ (26 - (k + 1)) * 2 := by
    rw [← Nat.pow_succ]
    congr 1
    omega
  have h₂ : 2 ^ (12 - k) = 2 ^ (12 - (k + 1)) * 2 := by
    rw [← Nat.pow_succ]
    congr 1
    omega
  rw [h₁] at hle
  rw [h₂] at hdvd
  refine .inr ⟨not_lt.mp hge, ?_, ?_⟩
  · omega
  · obtain ⟨q, rfl⟩ := hdvd
    exact ⟨q, by rw [Nat.mul_right_comm, Nat.mul_div_cancel _ (by decide)]⟩

theorem heapSizeAfter_spec {fails k heapSize size : Nat} (h : Halved k heapSize) (hk : k ≤ 5)
    (hafter : heapSizeAfter fails heapSize = some size) : ∃ k ≤ 5, Halved k size := by
  induction fails generalizing k heapSize with
  | zero =>
    obtain rfl := Option.some.inj hafter
    exact ⟨k, hk, h⟩
  | succ fails ih =>
    rw [heapSizeAfter] at hafter
    split at hafter
    · cases hafter
    · rename_i hgt
      obtain ⟨hlt, hhalf⟩ := h.half (not_le.mp hgt) hk
      exact ih hhalf hlt hafter

theorem memInit_inv {totalPages fails heapSize : Nat}
    (hsize : heapSizeAfter fails (firstHeapSize totalPages) = some heapSize) :
    HeapInv (memInit heapSize) [(⟨0, (memInit heapSize).poolSize - memBlockSize⟩, true)] ∧
    PoolOk (memInit heapSize) := by
  obtain ⟨hmin, hle, hdvd⟩ := firstHeapSize_spec totalPages
  obtain ⟨k, hk, hhalf⟩ := heapSizeAfter_spec (k := 0) (.inr ⟨hmin, hle, hdvd⟩) (by decide) hsize
  have hge : 2 ^ 21 ≤ heapSize ∧ heapSize ≤ 2 ^ 26 ∧ (2 ^ 21 < heapSize → 2 ^ 21 + 24 ≤ heapSize) := by
    rcases hhalf with rfl | ⟨h₁, h₂, h₃⟩
    · exact ⟨by decide, by decide, by decide⟩
    have h₄ : heapSize ≤ 2 ^ 26 := h₂.trans (Nat.pow_le_pow_right (by decide) (by omega))
    have h₅ : 2 ^ 7 ∣ heapSize := Nat.dvd_trans (Nat.pow_dvd_pow 2 (by omega : 7 ≤ 12 - k)) h₃
    unfold klibHeapMinSize at h₁
    omega
  have hpool : (memInit heapSize).poolSize = 2 ^ 21 := by
    unfold memInit klibHeapBootloaderSafeSize
    simp only []
    split <;> omega
  refine ⟨⟨⟨rfl, ?_, ?_⟩, rfl, List.Perm.nil, pairwise_singleton .., rfl⟩, ?_, ?_⟩
  · simp only [stop, memBlockSize]
    omega
  · change 0 + 24 + ((memInit heapSize).poolSize - 24) = (memInit heapSize).poolSize
    omega
  · rw [hpool]
    have hfull : (memInit heapSize).poolFull = heapSize := rfl
    rw [hfull, memBlockSize]
    omega
  · exact hge.2.1.trans (by decide)

theorem HeapRun.inv {h : KernelHeap} (hrun : HeapRun h) : ∃ tiles, HeapInv h tiles ∧ PoolOk h := by
  induction hrun with
  | init totalPages fails hsize =>
    obtain ⟨hinv, hok⟩ := memInit_inv hsize
    exact ⟨_, hinv, hok⟩
  | kmallocInternal size _ halloc ih =>
    obtain ⟨tiles, hi, hok⟩ := ih
    rcases kmallocInternal_inv hi halloc with ⟨-, rfl⟩ | ⟨b, tiles', -, -, -, hinv, hps, hpf⟩
    · exact ⟨tiles, hi, hok⟩
    · exact ⟨tiles', hinv, by rw [hps, hpf]; exact hok.room, hpf ▸ hok.bound⟩
  | kmalloc size _ hs halloc ih =>
    obtain ⟨tiles, hi, hok⟩ := ih
    have hpool := hok.room
    have hbound := hok.bound
    rcases kmalloc_inv hi (by omega) (by omega) halloc with ⟨-, rfl⟩ | ⟨ptr, tiles', -, -, hinv, hps, hpf⟩
    · exact ⟨tiles, hi, hok⟩
    · exact ⟨tiles', hinv, by rw [hps, hpf]; exact hok.room, hpf ▸ hok.bound⟩
  | kfree _ hb hfree ih =>
    obtain ⟨tiles, hi, hok⟩ := ih
    obtain ⟨h', tiles', heq, hinv, hps, hpf⟩ := kfreeInternal_inv hi hb
    obtain rfl := Except.ok.inj (heq.symm.trans hfree)
    exact ⟨tiles', hinv, by rw [hps, hpf]; exact hok.room, hpf ▸ hok.bound⟩
  | activate _ ht ih =>
    obtain ⟨tiles, hi, hok⟩ := ih
    obtain ⟨tiles', hinv⟩ := memActivatePullMap_inv hi hok.room ht
    refine ⟨tiles', hinv, ?_, ?_⟩
    · unfold memActivatePullMap
      split
      · exact .inl rfl
      · exact hok.room
    · unfold memActivatePullMap
      split <;> exact hok.bound

/-- In every run the blocks tile the published pool, the free ones sorted and apart. What `kmalloc` returns has room for
the request and its guards exactly when the size does not wrap, an allocated block can be freed, and the tail can be
published exactly when the last free block does not touch it. -/
theorem kernel_heap_tiled {h : KernelHeap} (hrun : HeapRun h) :
    (∃ tiles, HeapInv h tiles) ∧
    (∀ size ptr h', size < 2 ^ 64 → kmalloc h size = .ok (some ptr, h') →
      (Fits h' ptr size ↔ size + 71 < 2 ^ 64)) ∧
    (∀ b ∈ h.used, ∃ h', kfreeInternal h (b.off + memBlockSize) = .ok h') ∧
    ((∃ tiles, HeapInv (memActivatePullMap h) tiles) ↔ h.poolFull ≤ h.poolSize ∨ TailApart h) := by
  obtain ⟨tiles, hi, hok⟩ := hrun.inv
  refine ⟨⟨tiles, hi⟩, fun size ptr h' hs halloc => ?_, fun b hb => ?_, fun ⟨tiles', hact⟩ => ?_, fun ht => ?_⟩
  · have hpool := hok.room
    have hbound := hok.bound
    rcases kmalloc_inv hi (by omega) hs halloc with ⟨hno, -⟩ | ⟨ptr', tiles', hptr, hfits, -⟩
    · cases hno
    · obtain rfl := Option.some.inj hptr
      exact hfits
  · obtain ⟨h', -, heq, -⟩ := kfreeInternal_inv hi hb
    exact ⟨h', heq⟩
  · by_contra hno
    rw [not_or, Nat.not_le] at hno
    obtain ⟨b, hb, hpast⟩ := memActivatePullMap_past hno.1 hno.2
    rw [hact.free, mem_frees] at hb
    exact not_lt.mpr (hact.tiled.mem_bounds hb).2.2 hpast
  · exact memActivatePullMap_inv hi hok.room ht

/-- The pool of a machine with 512 MB, as `mem_init` leaves it. -/
def bootHeap : KernelHeap := memInit (firstHeapSize 131072)

/-- All of the published part is taken and the rest is published; then two blocks are taken, and the first one freed. -/
theorem kernel_heap_tiled_boot : ∃ tiles, HeapInv ⟨16109568, 16109568, [⟨2097152, 4064⟩, ⟨2107312, 14002232⟩],
    [⟨2101240, 6048⟩, ⟨0, 2097128⟩], 2103224⟩ tiles := by
  have hboot : HeapRun bootHeap := .init 131072 0 rfl
  have hfull : HeapRun ⟨2097152, 16109568, [], [⟨0, 2097128⟩], 2097152⟩ :=
    hboot.kmalloc 2097080 (by decide) (r := some 56) rfl
  have hfirst : HeapRun ⟨16109568, 16109568, [⟨2101240, 14008304⟩], [⟨2097152, 4064⟩, ⟨0, 2097128⟩], 2101240⟩ :=
    (hfull.activate (.inr nofun)).kmalloc 4000 (by decide) (r := some 2097208) rfl
  have hboth := hfirst.kmalloc 6000 (by decide) (r := some 2101296) rfl
  have hfreed := hboth.kfree (b := ⟨2097152, 4064⟩) (by decide) rfl
  exact (kernel_heap_tiled hfreed).1

/-- Its only free block touches the tail, so that block ends 24 bytes past the pool once the tail is published. -/
theorem tail_past_end :
    let h := memActivatePullMap bootHeap
    h.freeList = [⟨0, h.poolSize⟩] ∧ ∀ b ∈ h.freeList, b.stop = h.poolSize + 24 := by
  decide +kernel

end BoxOS.Memory
