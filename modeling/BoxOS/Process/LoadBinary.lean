import BoxOS.Lib.Words

/-!
# Loading a program

`process_load_binary` takes pages for the code, the stack and the first heap of a process, maps them in its cabin, and
gives back what it took when a step fails. A flat image runs from the copy of the file; of an ELF image
`vmm_map_code_region` takes and maps the segments, and the copy goes back at once. The exits behind that step give the
copy back again, whether it is mapped or gone already, and `vmm_map_code_region` gives segments back that stay mapped
(`failed_load_accounted_iff`).

A run of pages is named by the number of the request that was granted. `vmm_map_pages` maps a run whole, or unmaps what
it had mapped of it and fails.
-/

namespace BoxOS.Process

open Lib List

/-- What the page allocator says to its `n`-th request and the page tables to theirs, and the memory around the code. -/
structure LoadEnv where
  allocs : Nat → Nat → Bool
  maps : Nat → Bool
  outside : Nat → UInt8

/-- The requests so far, and the runs that were got, are mapped in the cabin, and were passed to `pmm_free`. -/
structure LoadState where
  allocCalls : Nat
  mapCalls : Nat
  obtained : List Nat
  mapped : List Nat
  freed : List Nat

variable {env : LoadEnv} {s : LoadState} {run code : Nat} {image bytes : List UInt8}

/-! ## The page allocator and the page tables -/

def LoadState.start : LoadState := ⟨0, 0, [], [], []⟩

def pmmAlloc (env : LoadEnv) (pages : Nat) (s : LoadState) : Option Nat × LoadState :=
  if env.allocs s.allocCalls pages then
    (some s.allocCalls, { s with allocCalls := s.allocCalls + 1, obtained := s.allocCalls :: s.obtained })
  else (none, { s with allocCalls := s.allocCalls + 1 })

def pmmFree (run : Nat) (s : LoadState) : LoadState := { s with freed := run :: s.freed }

def vmmMapPages (env : LoadEnv) (run : Nat) (s : LoadState) : Bool × LoadState :=
  if env.maps s.mapCalls then (true, { s with mapCalls := s.mapCalls + 1, mapped := run :: s.mapped })
  else (false, { s with mapCalls := s.mapCalls + 1 })

/-! ## The image -/

def pageSize : Nat := 4096

def codeStart : Nat := 0xC000

/-- `VMM_CABIN_MAX_CODE_SIZE` -/
def maxCodeSize : Nat := 0x00007FFFFFFFE000 - codeStart - 64 * 1024

def codePages (image : List UInt8) : Nat := max ((image.length + pageSize - 1) / pageSize) 5

/-- The pages of the code: a copy of the image and zeros. -/
def codeBytes (image : List UInt8) : List UInt8 :=
  image ++ replicate (codePages image * pageSize - image.length) 0

def isElf (bytes : List UInt8) : Bool := bytes.take 4 == [0x7F, 0x45, 0x4C, 0x46]

/-- A little-endian field `at_` bytes from the start of the code; nothing stops a position from leaving its pages. -/
def field (env : LoadEnv) (bytes : List UInt8) (at_ len : Nat) : Nat :=
  leNat ((List.range len).map fun k =>
    let i := (at_ + k) % 2 ^ 64
    if h : i < bytes.length then bytes[i] else env.outside i)

structure Elf64Phdr where
  pType : Nat
  pOffset : Nat
  pVaddr : Nat
  pFilesz : Nat
  pMemsz : Nat

def phdrAt (env : LoadEnv) (bytes : List UInt8) (at_ : Nat) : Elf64Phdr where
  pType := field env bytes at_ 4
  pOffset := field env bytes (at_ + 8) 8
  pVaddr := field env bytes (at_ + 16) 8
  pFilesz := field env bytes (at_ + 32) 8
  pMemsz := field env bytes (at_ + 40) 8

def ePhoff (env : LoadEnv) (bytes : List UInt8) : Nat := field env bytes 32 8

def ePhnum (env : LoadEnv) (bytes : List UInt8) : Nat := field env bytes 56 2

/-- The checks of the ELF header: 64 bits, little endian, executable, x86-64, and at most 32 program headers in the
file. -/
def headerOk (env : LoadEnv) (bytes : List UInt8) : Bool :=
  field env bytes 4 1 == 2 && field env bytes 5 1 == 1 && field env bytes 16 2 == 2 && field env bytes 18 2 == 62 &&
    ePhoff env bytes != 0 && ePhnum env bytes != 0 &&
    decide ((ePhoff env bytes + ePhnum env bytes * 56) % 2 ^ 64 ≤ bytes.length) && decide (ePhnum env bytes ≤ 32)

def programHeaders (env : LoadEnv) (bytes : List UInt8) : List Elf64Phdr :=
  (List.range (ePhnum env bytes)).map fun i => phdrAt env bytes (ePhoff env bytes + i * 56)

namespace Elf64Phdr

/-- `PT_LOAD`, and not empty. -/
def loads (phdr : Elf64Phdr) : Bool := phdr.pType == 1 && phdr.pMemsz != 0

def fits (phdr : Elf64Phdr) (size : Nat) : Bool :=
  (phdr.pFilesz == 0 || decide ((phdr.pOffset + phdr.pFilesz) % 2 ^ 64 ≤ size)) &&
    decide (phdr.pFilesz ≤ phdr.pMemsz) && decide (codeStart ≤ phdr.pVaddr / pageSize * pageSize)

def pageCount (phdr : Elf64Phdr) : Nat :=
  (phdr.pMemsz + phdr.pVaddr % pageSize + pageSize - 1) % 2 ^ 64 / pageSize

end Elf64Phdr

/-! ## The loader -/

/-- The loop over the program headers; `segs` are the runs mapped so far. -/
def mapSegments (env : LoadEnv) (size : Nat) : List Elf64Phdr → List Nat → LoadState → Bool × LoadState
  | [], _, s => (true, s)
  | phdr :: rest, segs, s =>
    if !phdr.loads then mapSegments env size rest segs s
    else if !phdr.fits size then (false, segs.foldl (fun s run => pmmFree run s) s)
    else
      match pmmAlloc env phdr.pageCount s with
      | (none, s) => (false, segs.foldl (fun s run => pmmFree run s) s)
      | (some run, s) =>
        match vmmMapPages env run s with
        | (false, s) => (false, segs.foldl (fun s run => pmmFree run s) (pmmFree run s))
        | (true, s) => mapSegments env size rest (segs ++ [run]) s

def vmmMapCodeRegion (env : LoadEnv) (bytes : List UInt8) (code : Nat) (s : LoadState) : Bool × LoadState :=
  if !isElf bytes then
    if bytes.length > maxCodeSize then (false, s) else vmmMapPages env code s
  else if !headerOk env bytes then (false, s)
  else mapSegments env bytes.length (programHeaders env bytes) [] s

/-- `CONFIG_USER_STACK_TOTAL_PAGES`: 64 KiB and a guard page. -/
def userStackTotalPages : Nat := 17

def userHeapInitialPages : Nat := 16

/-- `process_load_binary` from the stack on. -/
def loadStackAndHeap (env : LoadEnv) (code : Nat) (s : LoadState) : Bool × LoadState :=
  match pmmAlloc env userStackTotalPages s with
  | (none, s) => (false, pmmFree code s)
  | (some stack, s) =>
    match vmmMapPages env stack s with
    | (false, s) => (false, pmmFree code (pmmFree stack s))
    | (true, s) =>
      match pmmAlloc env userHeapInitialPages s with
      | (none, s) => (false, pmmFree code (pmmFree stack s))
      | (some heap, s) =>
        match vmmMapPages env heap s with
        | (false, s) => (false, pmmFree code (pmmFree stack (pmmFree heap s)))
        | (true, s) => (true, s)

def processLoadBinary (env : LoadEnv) (hasCabin : Bool) (image : List UInt8) : Bool × LoadState :=
  if image.isEmpty || !hasCabin then (false, .start)
  else
    match pmmAlloc env (codePages image) .start with
    | (none, s) => (false, s)
    | (some code, s) =>
      if (image.take 16).all (· == 0) then (false, pmmFree code s)
      else
        match vmmMapCodeRegion env (codeBytes image) code s with
        | (false, s) => (false, pmmFree code s)
        | (true, s) => loadStackAndHeap env code (if isElf image then pmmFree code s else s)

/-! ## What a failed load owes -/

/-- Every run that was got is mapped and was not given back, or is not mapped and was given back once. -/
def Accounted (s : LoadState) : Prop :=
  ∀ run ∈ s.obtained, s.freed.count run = if run ∈ s.mapped then 0 else 1

/-- Some run was given back though it is mapped, or more than once. -/
def Spoilt (s : LoadState) : Prop :=
  ∃ run ∈ s.obtained, (run ∈ s.mapped ∧ run ∈ s.freed) ∨ 2 ≤ s.freed.count run

theorem Spoilt.not_accounted (h : Spoilt s) : ¬ Accounted s := by
  obtain ⟨run, hrun, ⟨hmapped, hfreed⟩ | hcount⟩ := h <;> intro hall
  · have hzero := hall run hrun
    rw [if_pos hmapped] at hzero
    exact count_eq_zero.mp hzero hfreed
  · have hone := hall run hrun
    split at hone <;> omega

theorem Spoilt.pmmFree (h : Spoilt s) : Spoilt (pmmFree run s) := by
  obtain ⟨other, hrun, ⟨hmapped, hfreed⟩ | hcount⟩ := h
  · exact ⟨other, hrun, .inl ⟨hmapped, mem_cons_of_mem _ hfreed⟩⟩
  · exact ⟨other, hrun, .inr (hcount.trans ((sublist_cons_self _ _).count_le _))⟩

/-- Giving a run back spoils the account if it is mapped or gone already. -/
theorem spoilt_pmmFree (hgot : run ∈ s.obtained) (h : run ∈ s.mapped ∨ run ∈ s.freed) : Spoilt (pmmFree run s) := by
  refine ⟨run, hgot, h.imp (fun hmapped => ⟨hmapped, mem_cons_self⟩) fun hfreed => ?_⟩
  have hpos : 0 < s.freed.count run := count_pos_iff.mpr hfreed
  simp only [Process.pmmFree, count_cons_self]
  omega

/-! ## The steps of a load -/

/-- A step that can fail: a test of the image, a request for pages, or a mapping. -/
inductive LoadStep where
  | check (ok : Bool)
  | alloc (pages : Nat)
  | map

/-- All the steps go well, after `a` requests for pages and `m` mappings. -/
def stepsDone (env : LoadEnv) : Nat → Nat → List LoadStep → Bool
  | _, _, [] => true
  | a, m, .check ok :: rest => ok && stepsDone env a m rest
  | a, m, .alloc pages :: rest => env.allocs a pages && stepsDone env (a + 1) m rest
  | a, m, .map :: rest => env.maps m && stepsDone env a (m + 1) rest

def segmentSteps (size : Nat) (phdr : Elf64Phdr) : List LoadStep :=
  [.check (phdr.fits size), .alloc phdr.pageCount, .map]

def loadable (env : LoadEnv) (bytes : List UInt8) : List Elf64Phdr := (programHeaders env bytes).filter (·.loads)

/-- The steps of `vmm_map_code_region` up to the first mapping. -/
def codeSteps (env : LoadEnv) (bytes : List UInt8) : List LoadStep :=
  if isElf bytes then .check (headerOk env bytes) :: ((loadable env bytes).take 1).flatMap (segmentSteps bytes.length)
  else [.check (decide (bytes.length ≤ maxCodeSize)), .map]

/-- The steps of the other segments. -/
def segmentsSteps (env : LoadEnv) (bytes : List UInt8) : List LoadStep :=
  if isElf bytes then ((loadable env bytes).drop 1).flatMap (segmentSteps bytes.length) else []

def stackAndHeapSteps : List LoadStep := [.alloc userStackTotalPages, .map, .alloc userHeapInitialPages, .map]

/-- The steps of a load up to the first mapping. -/
def earlySteps (env : LoadEnv) (hasCabin : Bool) (image : List UInt8) : List LoadStep :=
  [.check (!image.isEmpty && hasCabin), .alloc (codePages image), .check (!(image.take 16).all (· == 0))] ++
    codeSteps env (codeBytes image)

def lateSteps (env : LoadEnv) (image : List UInt8) : List LoadStep :=
  segmentsSteps env (codeBytes image) ++ stackAndHeapSteps

/-- From the stack on every failure gives the code back, which is mapped or gone by then. -/
theorem loadStackAndHeap_spec (hgot : code ∈ s.obtained) (h : code ∈ s.mapped ∨ code ∈ s.freed) :
    let r := loadStackAndHeap env code s
    r.1 = stepsDone env s.allocCalls s.mapCalls stackAndHeapSteps ∧
      (r.1 = false → Spoilt r.2) := by
  have hspoilt : ∀ {s' : LoadState}, s.obtained ⊆ s'.obtained → s.mapped ⊆ s'.mapped → s.freed ⊆ s'.freed →
      Spoilt (pmmFree code s') := fun hgot' hmapped hfreed => spoilt_pmmFree (hgot' hgot) (h.imp (hmapped ·) (hfreed ·))
  unfold loadStackAndHeap pmmAlloc vmmMapPages stackAndHeapSteps
  by_cases hstack : env.allocs s.allocCalls userStackTotalPages
  · by_cases hmap : env.maps s.mapCalls
    · by_cases hheap : env.allocs (s.allocCalls + 1) userHeapInitialPages
      · by_cases hheapMap : env.maps (s.mapCalls + 1)
        · simp [stepsDone, hstack, hmap, hheap, hheapMap]
        · simpa [stepsDone, hstack, hmap, hheap, hheapMap] using
            hspoilt (by simp [pmmFree]) (by simp [pmmFree]) (by simp [pmmFree])
      · simp [stepsDone, hstack, hmap, hheap]
        exact hspoilt (by simp [pmmFree]) (by simp [pmmFree]) (by simp [pmmFree])
    · simp [stepsDone, hstack, hmap]
      exact hspoilt (by simp [pmmFree]) (by simp [pmmFree]) (by simp [pmmFree])
  · simp [stepsDone, hstack]
    exact hspoilt (fun _ h => h) (fun _ h => h) (fun _ h => h)

variable {segs : List Nat}

theorem mapSegments_filter {size : Nat} {phdrs : List Elf64Phdr} :
    mapSegments env size (phdrs.filter (·.loads)) segs s = mapSegments env size phdrs segs s := by
  induction phdrs generalizing segs s with
  | nil => rfl
  | cons phdr rest ih => by_cases hloads : phdr.loads <;> simp [mapSegments, hloads, ih]

theorem Spoilt.foldl_pmmFree (h : Spoilt s) : Spoilt (segs.foldl (fun s run => Process.pmmFree run s) s) := by
  induction segs generalizing s with
  | nil => exact h
  | cons run segs ih => exact ih h.pmmFree

theorem spoilt_foldl_pmmFree (hin : run ∈ segs) (hgot : run ∈ s.obtained) (hmapped : run ∈ s.mapped) :
    Spoilt (segs.foldl (fun s run => pmmFree run s) s) := by
  induction segs generalizing s with
  | nil => exact absurd hin not_mem_nil
  | cons other segs ih =>
    rcases mem_cons.mp hin with rfl | hin
    · exact (spoilt_pmmFree hgot (.inl hmapped)).foldl_pmmFree
    · exact ih hin hgot hmapped

theorem foldl_obtained : (segs.foldl (fun s run => pmmFree run s) s).obtained = s.obtained := by
  induction segs generalizing s with
  | nil => rfl
  | cons run segs ih => exact ih

/-- Behind a segment that is mapped: when another one fails, the first is given back and stays mapped. -/
theorem mapSegments_spec {size : Nat} (tail : List LoadStep) {phdrs : List Elf64Phdr}
    (hloads : ∀ phdr ∈ phdrs, phdr.loads) {segs : List Nat} (hin : run ∈ segs) (hgot : run ∈ s.obtained)
    (hmapped : run ∈ s.mapped) :
    let r := mapSegments env size phdrs segs s
    stepsDone env s.allocCalls s.mapCalls (phdrs.flatMap (segmentSteps size) ++ tail) =
        (r.1 && stepsDone env r.2.allocCalls r.2.mapCalls tail) ∧
      s.obtained ⊆ r.2.obtained ∧ (r.1 = false → Spoilt r.2) := by
  induction phdrs generalizing segs s with
  | nil => simp [mapSegments]
  | cons phdr rest ih =>
    rw [forall_mem_cons] at hloads
    rw [flatMap_cons, segmentSteps]
    cases hfits : phdr.fits size
    · simp only [mapSegments, hloads.1, hfits, cons_append, stepsDone, Bool.not_true, Bool.not_false, if_true, if_false,
        Bool.false_eq_true, Bool.false_and, true_and]
      exact ⟨foldl_obtained.symm ▸ Subset.refl _, fun _ => spoilt_foldl_pmmFree hin hgot hmapped⟩
    cases halloc : env.allocs s.allocCalls phdr.pageCount
    · simp [mapSegments, hloads.1, hfits, halloc, stepsDone, pmmAlloc]
      exact ⟨foldl_obtained.symm ▸ Subset.refl _, spoilt_foldl_pmmFree hin hgot hmapped⟩
    cases hmap : env.maps s.mapCalls
    · simp [mapSegments, hloads.1, hfits, halloc, hmap, stepsDone, pmmAlloc, vmmMapPages]
      exact ⟨foldl_obtained.symm ▸ subset_cons_self _ _, spoilt_foldl_pmmFree hin (mem_cons_of_mem _ hgot) hmapped⟩
    · simp [mapSegments, hloads.1, hfits, halloc, hmap, stepsDone, pmmAlloc, vmmMapPages]
      obtain ⟨hsteps, hmore, hspoilt⟩ := @ih ⟨s.allocCalls + 1, s.mapCalls + 1, s.allocCalls :: s.obtained,
        s.allocCalls :: s.mapped, s.freed⟩ hloads.2 _ (mem_append_left [s.allocCalls] hin) (mem_cons_of_mem _ hgot)
        (mem_cons_of_mem _ hmapped)
      exact ⟨hsteps, subset_of_cons_subset hmore, hspoilt⟩

theorem isElf_of_codeBytes (h : isElf (codeBytes image)) : isElf image := by
  have hmagic : (codeBytes image).take 4 = [0x7F, 0x45, 0x4C, 0x46] := by simpa [isElf] using h
  by_cases hlen : 4 ≤ image.length
  · rw [codeBytes, take_append_of_le_length hlen] at hmagic
    simp [isElf, hmagic]
  · have hlast : (codeBytes image)[3]? = some 0x46 := by rw [← getElem?_take_of_lt (by omega : 3 < 4), hmagic]; rfl
    rw [codeBytes, getElem?_append_right (by omega)] at hlast
    exact absurd (eq_of_mem_replicate (mem_of_getElem? hlast)) (by decide)

/-- The state in which the copy of the image has been taken and nothing else. -/
def codeTaken : LoadState := ⟨1, 0, [0], [], []⟩

/-- `vmm_map_code_region`: what fails before the first mapping leaves the copy only, what fails behind it spoils the
account. -/
theorem vmmMapCodeRegion_spec (tail : List LoadStep) :
    let r := vmmMapCodeRegion env bytes 0 codeTaken
    stepsDone env 1 0 (codeSteps env bytes ++ segmentsSteps env bytes ++ tail) =
        (r.1 && stepsDone env r.2.allocCalls r.2.mapCalls tail) ∧
      (r.1 = false → if stepsDone env 1 0 (codeSteps env bytes) then Spoilt r.2 else Accounted (pmmFree 0 r.2)) ∧
      (r.1 = true → stepsDone env 1 0 (codeSteps env bytes) ∧ 0 ∈ r.2.obtained ∧ (isElf bytes ∨ 0 ∈ r.2.mapped)) := by
  cases helf : isElf bytes
  · by_cases hsize : bytes.length > maxCodeSize
    · simp [vmmMapCodeRegion, codeSteps, segmentsSteps, stepsDone, helf, hsize, not_le.mpr hsize, codeTaken, Accounted,
        pmmFree]
    · cases hmap : env.maps 0 <;>
        simp [vmmMapCodeRegion, vmmMapPages, codeSteps, segmentsSteps, stepsDone, helf, hsize, not_lt.mp hsize, hmap,
          codeTaken, Accounted, pmmFree]
  cases hheader : headerOk env bytes
  · simp [vmmMapCodeRegion, codeSteps, segmentsSteps, stepsDone, helf, hheader, codeTaken, Accounted, pmmFree]
  have hloop :
      vmmMapCodeRegion env bytes 0 codeTaken = mapSegments env bytes.length (loadable env bytes) [] codeTaken := by
    simp [vmmMapCodeRegion, helf, hheader, loadable, mapSegments_filter]
  have hloads : ∀ phdr ∈ loadable env bytes, phdr.loads := fun phdr h => (mem_filter.mp h).2
  rw [hloop]
  cases hsegs : loadable env bytes with
  | nil => simp [mapSegments, codeSteps, segmentsSteps, stepsDone, helf, hheader, hsegs, codeTaken]
  | cons phdr rest =>
    rw [hsegs, forall_mem_cons] at hloads
    cases hfits : phdr.fits bytes.length
    · simp [mapSegments, codeSteps, segmentsSteps, segmentSteps, stepsDone, helf, hheader, hsegs, hloads.1, hfits,
        codeTaken, Accounted, pmmFree]
    cases halloc : env.allocs 1 phdr.pageCount
    · simp [mapSegments, codeSteps, segmentsSteps, segmentSteps, stepsDone, helf, hheader, hsegs, hloads.1, hfits,
        halloc, codeTaken, pmmAlloc, Accounted, pmmFree]
    cases hmap : env.maps 0
    · simp [mapSegments, codeSteps, segmentsSteps, segmentSteps, stepsDone, helf, hheader, hsegs, hloads.1, hfits,
        halloc, hmap, codeTaken, pmmAlloc, vmmMapPages, Accounted, pmmFree]
    · simp [mapSegments, codeSteps, segmentsSteps, segmentSteps, stepsDone, helf, hheader, hsegs, hloads.1, hfits,
        halloc, hmap, codeTaken, pmmAlloc, vmmMapPages]
      obtain ⟨hsteps, hmore, hspoilt⟩ :=
        @mapSegments_spec env ⟨2, 1, [1, 0], [1], []⟩ 1 bytes.length tail rest hloads.2 [1]
          mem_cons_self mem_cons_self mem_cons_self
      exact ⟨hsteps, hspoilt, fun _ => hmore (mem_cons_of_mem _ mem_cons_self)⟩

/-- A load that fails leaves every run accounted for exactly if it fails before the first mapping. -/
theorem failed_load_accounted_iff (env : LoadEnv) (hasCabin : Bool) (image : List UInt8) :
    ((processLoadBinary env hasCabin image).1 = false → Accounted (processLoadBinary env hasCabin image).2) ↔
      stepsDone env 0 0 (earlySteps env hasCabin image) = false ∨
        stepsDone env 0 0 (earlySteps env hasCabin image ++ lateSteps env image) = true := by
  have hfails : ∀ {s : LoadState} {early late : List LoadStep}, stepsDone env 0 0 early = false → Accounted s →
      (((false, s) : Bool × LoadState).1 = false → Accounted s ↔
        stepsDone env 0 0 early = false ∨ stepsDone env 0 0 (early ++ late) = true) :=
    fun hearly hall => ⟨fun _ => .inl hearly, fun _ _ => hall⟩
  unfold processLoadBinary
  cases hargs : image.isEmpty || !hasCabin
  swap
  · exact hfails (by grind [earlySteps, stepsDone]) (by simp [Accounted, LoadState.start])
  have hargs' : (!image.isEmpty && hasCabin) = true := by grind
  cases halloc : env.allocs 0 (codePages image)
  · simpa [pmmAlloc, LoadState.start, halloc] using
      @hfails ⟨1, 0, [], [], []⟩ _ (lateSteps env image) (by simp [earlySteps, stepsDone, halloc]) (by simp [Accounted])
  simp only [pmmAlloc, LoadState.start, halloc, Bool.false_eq_true, if_false, if_true]
  cases hzero : (image.take 16).all (· == 0)
  swap
  · exact hfails (by simp [earlySteps, stepsDone, hzero]) (by simp [Accounted, pmmFree])
  have hearly :
      stepsDone env 0 0 (earlySteps env hasCabin image) = stepsDone env 1 0 (codeSteps env (codeBytes image)) := by
    simp [earlySteps, stepsDone, hargs', halloc, hzero]
  have hall : stepsDone env 0 0 (earlySteps env hasCabin image ++ lateSteps env image) =
      stepsDone env 1 0 (codeSteps env (codeBytes image) ++ segmentsSteps env (codeBytes image) ++
      stackAndHeapSteps) := by
    simp [earlySteps, lateSteps, stepsDone, hargs', halloc, hzero]
  obtain ⟨hsteps, hfail, hdone⟩ := @vmmMapCodeRegion_spec env (codeBytes image) stackAndHeapSteps
  rw [hearly, hall, hsteps]
  simp only [codeTaken, Bool.false_eq_true, if_false] at hfail hdone ⊢
  rcases hregion : vmmMapCodeRegion env (codeBytes image) 0 ⟨1, 0, [0], [], []⟩ with ⟨ok, s⟩
  rw [hregion] at hfail hdone
  cases ok
  · cases hmapped : stepsDone env 1 0 (codeSteps env (codeBytes image))
    · simpa [hmapped] using hfail rfl
    · have hspoilt : Spoilt s := by simpa [hmapped] using hfail rfl
      simpa using hspoilt.pmmFree.not_accounted
  · obtain ⟨hmapped, hgot, hgone⟩ := hdone rfl
    have hcode : ∃ s', (if isElf image then pmmFree 0 s else s) = s' ∧ 0 ∈ s'.obtained ∧
        (0 ∈ s'.mapped ∨ 0 ∈ s'.freed) ∧ s'.allocCalls = s.allocCalls ∧ s'.mapCalls = s.mapCalls := by
      refine ⟨_, rfl, ?_⟩
      split
      · exact ⟨hgot, .inr mem_cons_self, rfl, rfl⟩
      · next hflat => exact ⟨hgot, .inl (hgone.resolve_left fun helf => hflat (isElf_of_codeBytes helf)), rfl, rfl⟩
    obtain ⟨s', hs', hgot', hgone', hallocs, hmaps⟩ := hcode
    obtain ⟨hok, hspoilt⟩ := @loadStackAndHeap_spec env _ _ hgot' hgone'
    dsimp only
    rw [hs', hmapped, ← hallocs, ← hmaps, ← hok]
    cases hr : (loadStackAndHeap env 0 s').1
    · simpa [hr] using (hspoilt hr).not_accounted
    · simp

instance : Decidable (Accounted s) := inferInstanceAs (Decidable (∀ _ ∈ _, _))

/-- A flat image of one byte, and no memory left when the stack is taken. -/
def noStack : LoadEnv := ⟨fun call _ => call == 0, fun _ => true, fun _ => 0⟩

theorem failed_load_frees_mapped_code : (processLoadBinary noStack true [1]).1 = false ∧
    ¬ Accounted (processLoadBinary noStack true [1]).2 := by
  decide +kernel

end BoxOS.Process
