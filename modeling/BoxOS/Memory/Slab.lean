import BoxOS.Lib.Bits
import BoxOS.Lib.Threads

/-!
# The slab allocator

`slab_alloc`, `slab_free` and `slab_owns`, and the choice of `kfree` between them and the heap. A page is named by its
number, a pointer is a physical address: the direct map adds one constant to all of them. The free slots of a page are
chained through the first word of each slot, the pages of a class through `next` in their headers; page 0 is `NULL`.

A call that reaches one of the corruption panics has no result.
-/

namespace BoxOS.Memory

open Lib

def slabPageSize : Nat := 4096

def slabLargeThreshold : Nat := 2048

def slabFreeEnd : Nat := 0xFFFF

/-- `ALIGN_UP(sizeof(SlabPage), 16)`, of 24 bytes -/
def slabHeaderSize : Nat := 32

def slabSizes : Fin 8 → Nat :=
  ![16, 32, 64, 128, 256, 512, 1024, 2048]

structure SlabPage where
  freeHead : Nat := 0
  freeCount : Nat := 0
  totalSlots : Nat := 0
  objSize : Nat := 0
  pagePhys : Nat := 0
  next : Nat := 0
  /-- the 16-bit word at each even offset behind the header -/
  words : Nat → Nat

structure SlabClass where
  partialPages : Nat
  fullPages : Nat
  objSize : Nat
  slotsPerPage : Nat

/-- The two lists of a class. -/
inductive SlabList where
  | someFree
  | full
deriving DecidableEq

def SlabClass.head (cls : SlabClass) : SlabList → Nat
  | .someFree => cls.partialPages
  | .full => cls.fullPages

def SlabClass.setHead (cls : SlabClass) (v : Nat) : SlabList → SlabClass
  | .someFree => { cls with partialPages := v }
  | .full => { cls with fullPages := v }

structure Slab where
  classes : Fin 8 → SlabClass
  /-- what lies in each page of memory -/
  page : Nat → SlabPage
  pageBits : List UInt8
  pageCount : Nat
  initialized : Bool

namespace Slab

variable (s : Slab)

/-- `slab_bit_set` -/
def bitSet (phys : Nat) : Slab :=
  let idx := phys / slabPageSize
  if s.pageCount ≤ idx then s else { s with pageBits := setBit s.pageBits idx }

/-- `slab_bit_clear` -/
def bitClear (phys : Nat) : Slab :=
  let idx := phys / slabPageSize
  if s.pageCount ≤ idx then s else { s with pageBits := clearBit s.pageBits idx }

/-- `slab_bit_test` -/
def bitTest (phys : Nat) : Bool :=
  let idx := phys / slabPageSize
  if s.pageCount ≤ idx then false else bitAt s.pageBits idx

def setPage (p : Nat) (pg : SlabPage) : Slab :=
  { s with page := Function.update s.page p pg }

def setClass (c : Fin 8) (cls : SlabClass) : Slab :=
  { s with classes := Function.update s.classes c cls }

end Slab

def slabSizeClass (size : Nat) : Option (Fin 8) :=
  (List.finRange 8).find? fun i => decide (size ≤ slabSizes i)

/-- The slots of a page. -/
def slotsOf (objSize : Nat) : Nat :=
  (slabPageSize - slabHeaderSize) / objSize

/-- The offset of a slot. -/
def slotOffset (objSize i : Nat) : Nat :=
  slabHeaderSize + i * objSize

/-- The loop of `slab_init_page`. -/
def linkSlots (objSize slots : Nat) (words : Nat → Nat) : Nat → Nat :=
  (List.range slots).foldl (fun words i =>
    Function.update words (slotOffset objSize i)
    (if i + 1 < slots then slotOffset objSize (i + 1) else slabFreeEnd)) words

def slabInitPage (pg : SlabPage) (objSize : Nat) : SlabPage :=
  let slots := slotsOf objSize
  { pg with
    objSize := objSize, totalSlots := slots, freeCount := slots, next := 0, freeHead := slabHeaderSize
    words := linkSlots objSize slots pg.words }

/-- `slab_alloc_page`, with the answer of `pmm_alloc` -/
def slabAllocPage (s : Slab) (objSize : Nat) (pmm : Option Nat) : Option (Slab × Nat) :=
  pmm.map fun p =>
    let phys := p * slabPageSize
    let cleared : SlabPage := { words := fun _ => 0 }
    let s := s.setPage p (slabInitPage { cleared with pagePhys := phys } objSize)
    (s.bitSet phys, p)

/-- `slab_init`: the registry covers the memory below `memEnd`. -/
def slabInit (page : Nat → SlabPage) (memEnd : Nat) : Slab :=
  let pageCount := memEnd / slabPageSize + 1
  { classes := fun i => ⟨0, 0, slabSizes i, slotsOf (slabSizes i)⟩
    page := page
    pageBits := List.replicate ((pageCount + 7) / 8) 0
    pageCount := pageCount
    initialized := true }

/-- The check of `slab_alloc` before it takes a slot. -/
def SlabPage.corrupt (pg : SlabPage) (cls : SlabClass) : Bool :=
  pg.freeHead == slabFreeEnd || decide (pg.freeHead < slabHeaderSize) ||
    decide (slabPageSize < pg.freeHead + pg.objSize) || (pg.freeHead - slabHeaderSize) % pg.objSize != 0 ||
    pg.objSize != cls.objSize || pg.freeCount == 0 || decide (pg.totalSlots < pg.freeCount)

/-- What a call leaves: the pointer that `slab_alloc` returns, and the page that was taken from the page allocator or
given back to it. -/
structure SlabResult where
  slab : Slab
  ptr : Option Nat := none
  took : Option Nat := none
  gaveBack : Option Nat := none

/-- `memset(ptr, 0, n)` of the object at `off`, and every other write to it. -/
def overwrite (off n : Nat) (new words : Nat → Nat) : Nat → Nat :=
  fun o => if off ≤ o ∧ o < off + n then new o else words o

/-- `slab_alloc` where the page has no free slot left: it comes to the front of the other list. -/
def slabFill (s : Slab) (idx : Fin 8) (page : Nat) : Slab :=
  let s := s.setClass idx ((s.classes idx).setHead (s.page page).next .someFree)
  let s := s.setPage page { s.page page with next := (s.classes idx).fullPages }
  s.setClass idx ((s.classes idx).setHead page .full)

/-- `slab_alloc` behind the search for a page: a slot of the first page of the class is taken. -/
def slabTake (s : Slab) (idx : Fin 8) (page : Nat) (took : Option Nat) : Option SlabResult :=
  let pg := s.page page
  if pg.corrupt (s.classes idx) then none
  else
    let slotOffset := pg.freeHead
    let s := s.setPage page { pg with freeHead := pg.words slotOffset, freeCount := pg.freeCount - 1 }
    let s := if (s.page page).freeCount = 0 then slabFill s idx page else s
    let pg := s.page page
    let s := s.setPage page { pg with words := overwrite slotOffset (s.classes idx).objSize (fun _ => 0) pg.words }
    some { slab := s, ptr := some (page * slabPageSize + slotOffset), took := took }

/-- `slab_alloc`, with the answer of `pmm_alloc` should it be asked for a page -/
def slabAlloc (s : Slab) (size : Nat) (pmm : Option Nat) : Option SlabResult :=
  if s.initialized = false ∨ size = 0 then some { slab := s }
  else
    match slabSizeClass size with
    | none => some { slab := s }
    | some idx =>
      let cls := s.classes idx
      if cls.partialPages = 0 then
        match slabAllocPage s cls.objSize pmm with
        | none => some { slab := s }
        | some (s, page) => slabTake (s.setClass idx (cls.setHead page .someFree)) idx page pmm
      else slabTake s idx cls.partialPages none

namespace Slab

variable (s : Slab)

/-- Where a walk through a list of a class for `page` ends; no list is longer than the memory. -/
def seekPage (idx : Fin 8) (which : SlabList) (page : Nat) : Option Nat :=
  seek (fun p => (s.page p).next) 0 ((s.classes idx).head which) page s.pageCount none

/-- `*prev` -/
def linkAt (idx : Fin 8) (which : SlabList) (prev : Option Nat) : Nat :=
  cell (fun p => (s.page p).next) ((s.classes idx).head which) prev

/-- `*prev = v` -/
def setLink (idx : Fin 8) (which : SlabList) (prev : Option Nat) (v : Nat) : Slab :=
  match prev with
  | none => s.setClass idx ((s.classes idx).setHead v which)
  | some q => s.setPage q { s.page q with next := v }

end Slab

/-- `slab_free` where the page was full: it comes to the front of the other list. -/
def slabUnfull (s : Slab) (idx : Fin 8) (page : Nat) : Slab :=
  let prev := s.seekPage idx .full page
  let s := if s.linkAt idx .full prev = page then s.setLink idx .full prev (s.page page).next else s
  let s := s.setPage page { s.page page with next := (s.classes idx).partialPages }
  s.setClass idx ((s.classes idx).setHead page .someFree)

/-- The end of `slab_free`: a page with nothing on it goes back, unless it is the first one. -/
def slabRelease (s : Slab) (idx : Fin 8) (page : Nat) : SlabResult :=
  if (s.page page).freeCount = (s.page page).totalSlots ∧ (s.classes idx).partialPages ≠ page then
    let prev := s.seekPage idx .someFree page
    if s.linkAt idx .someFree prev = page then
      let s := s.setLink idx .someFree prev (s.page page).next
      { slab := s.bitClear (s.page page).pagePhys, gaveBack := some ((s.page page).pagePhys / slabPageSize) }
    else { slab := s }
  else { slab := s }

def slabFree (s : Slab) (ptr : Nat) : Option SlabResult :=
  if ptr = 0 ∨ s.initialized = false then some { slab := s }
  else
    let page := ptr / slabPageSize
    let pg := s.page page
    if pg.objSize = 0 ∨ slabLargeThreshold < pg.objSize then some { slab := s }
    else
      match slabSizeClass pg.objSize with
      | none => some { slab := s }
      | some idx =>
        let off := ptr % slabPageSize
        if off < slabHeaderSize ∨ (off - slabHeaderSize) % pg.objSize ≠ 0 ∨ slabPageSize < off + pg.objSize then none
        else if pg.totalSlots ≤ pg.freeCount ∨ pg.totalSlots = 0 ∨ pg.objSize ≠ (s.classes idx).objSize then none
        else
          let wasFull := decide (pg.freeCount = 0)
          let s := s.setPage page { pg with
            words := Function.update pg.words off pg.freeHead, freeHead := off, freeCount := pg.freeCount + 1 }
          let s := if wasFull then slabUnfull s idx page else s
          some (slabRelease s idx page)

def slabOwns (s : Slab) (ptr : Nat) : Bool :=
  if ptr = 0 ∨ s.initialized = false then false else s.bitTest (ptr / slabPageSize * slabPageSize)

/-- Where `kfree` sends a pointer. -/
inductive KfreeWay where
  | nothing
  | slab
  | heap
deriving DecidableEq

def kfree (s : Slab) (ptr : Nat) : KfreeWay :=
  if ptr = 0 then .nothing else if slabOwns s ptr then .slab else .heap

/-! ## Runs -/

/-- A slab with the pointers that were returned and not freed, and the pages that were taken from the page allocator and
not given back. -/
structure SlabWorld where
  slab : Slab
  live : List Nat
  held : List Nat

inductive SlabCall where
  | alloc (size : Nat) (pmm : Option Nat)
  | free (ptr : Nat)
  /-- the owner of an object writes to it -/
  | store (ptr : Nat) (new : Nat → Nat)

namespace SlabWorld

/-- The owner of the object at `ptr` writes to it. -/
def storeObject (s : Slab) (ptr : Nat) (new : Nat → Nat) : Slab :=
  let pg := s.page (ptr / slabPageSize)
  s.setPage (ptr / slabPageSize) { pg with words := overwrite (ptr % slabPageSize) pg.objSize new pg.words }

/-- One call; `none` where it panics. -/
def step (w : SlabWorld) : SlabCall → Option SlabWorld
  | .alloc size pmm => (slabAlloc w.slab size pmm).map fun r =>
    ⟨r.slab, w.live ++ r.ptr.toList, w.held ++ r.took.toList⟩
  | .free ptr => (slabFree w.slab ptr).map fun r => ⟨r.slab, w.live.erase ptr, r.gaveBack.elim w.held w.held.erase⟩
  | .store ptr new => some { w with slab := storeObject w.slab ptr new }

/-- The calls of a run: sizes that a class serves, live pointers, and pages of the memory that the page allocator has
not given to the slab or to the heap. -/
def Allowed (heapPage : Nat → Prop) (memEnd : Nat) (w : SlabWorld) : SlabCall → Prop
  | .alloc size pmm =>
    1 ≤ size ∧ size ≤ slabLargeThreshold ∧
      ∀ p, pmm = some p → 0 < p ∧ p * slabPageSize < memEnd ∧ p ∉ w.held ∧ ¬ heapPage p
  | .free ptr => ptr ∈ w.live
  | .store ptr _ => ptr ∈ w.live

/-- The states of a slab after `slab_init`. -/
inductive Run (heapPage : Nat → Prop) (memEnd : Nat) : SlabWorld → Prop
  | init (page : Nat → SlabPage) : Run heapPage memEnd ⟨slabInit page memEnd, [], []⟩
  | step {w w' : SlabWorld} (call : SlabCall) (h : Run heapPage memEnd w) (hcall : w.Allowed heapPage memEnd call)
      (hstep : w.step call = some w') : Run heapPage memEnd w'

end SlabWorld

end BoxOS.Memory
