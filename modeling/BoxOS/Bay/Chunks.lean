import BoxOS.Bay.Object

/-!
# The chunks of shared memory

`bay_alloc_chunks_internal` and `brook_alloc_slot_chunks` take the memory of a bay or of a slot chunk by chunk. When a
chunk of 2 MiB is refused, they give back what they have and go on with pages: in brook.c from chunk 0 on, in bay.c from
chunk 1 on, and chunk 0 stays 0 (`chunks_all_or_nothing_iff`).
-/

namespace BoxOS.Bay

open List

/-- What `kmalloc` says to its `n`-th request of some bytes, and the page allocator to the request for the `n`-th chunk
of some pages, in a domain or anywhere; 0 is `NULL`. -/
structure ChunkEnv where
  kmalloc : Nat → Nat → Bool
  pmmAllocInDomain : Nat → Nat → Nat → Nat
  pmmAllocZero : Nat → Nat → Nat

structure Chunks where
  cls : Nat
  size : Nat
  count : Nat
  chunks : List Nat
deriving DecidableEq

/-- What a call returns, and the blocks (address and pages) that it got and that it passed to `pmm_free`. -/
structure Outcome where
  result : Option Chunks
  got : List (Nat × Nat)
  freed : List (Nat × Nat)

/-! ## The code -/

/-- `VMM_LARGE_PAGE_2M_PAGES` -/
def hugePages : Nat := 512

/-- `VMM_LARGE_PAGE_2M_SIZE` -/
def hugeSize : Nat := 2 ^ 21

/-- `ACPI_NUMA_DOMAIN_UNKNOWN` -/
def domainUnknown : Nat := 2 ^ 32 - 1

/-- `(uint32_t)((total_size + cs - 1) / cs)` -/
def chunkCount (total : UInt64) (cs : Nat) : Nat := (total.toNat + cs - 1) % 2 ^ 64 / cs % 2 ^ 32

variable (kmalloc : Nat → Nat → Bool) (alloc : Nat → Nat → Nat) (total : UInt64)

/-- The loop over `n` chunks, of which the first is the `k`-th request; whether all of them were granted. -/
def fill (pages : Nat) : Nat → Nat → List Nat × Bool
  | _, 0 => ([], true)
  | k, n + 1 =>
    if alloc k pages = 0 then ([], false)
    else
      let rest := fill pages (k + 1) n
      (alloc k pages :: rest.1, rest.2)

/-- `pmm_free` of every chunk that is not 0. -/
def freeChunks (chunks : List Nat) (pages : Nat) : List (Nat × Nat) := (chunks.filter (· ≠ 0)).map (·, pages)

/-- The loop over the chunks of one page each from chunk `start` on; the array is the `call`-th request to `kmalloc`. -/
def allocPages (start call k : Nat) : Outcome :=
  let n := chunkCount total pmmPageSize
  if kmalloc call (n * 8) then
    let r := fill alloc 1 k (n - start)
    let chunks := replicate (min start n) 0 ++ r.1
    if r.2 then ⟨some ⟨12, pmmPageSize, n, chunks⟩, r.1.map (·, 1), []⟩
    else ⟨none, r.1.map (·, 1), freeChunks chunks 1⟩
  else ⟨none, [], []⟩

/-- The loop of both files; `start` is the chunk that the rewritten index comes to after a refusal. -/
def allocChunks (force4k : Bool) (start : Nat) : Outcome :=
  if total = 0 then ⟨none, [], []⟩
  else if !force4k && decide (hugeSize ≤ total.toNat) then
    let n := chunkCount total hugeSize
    if kmalloc 0 (n * 8) then
      let r := fill alloc hugePages 0 n
      let got := r.1.map (·, hugePages)
      if r.2 then ⟨some ⟨21, hugeSize, n, r.1⟩, got, []⟩
      else
        let o := allocPages kmalloc alloc total start 1 (r.1.length + 1)
        ⟨o.result, got ++ o.got, freeChunks r.1 hugePages ++ o.freed⟩
    else ⟨none, [], []⟩
  else allocPages kmalloc alloc total 0 0 0

/-- `i = 0; continue` goes on with chunk 1. -/
def bayAllocChunksInternal (env : ChunkEnv) (total : UInt64) (force4k : Bool) : Outcome :=
  allocChunks env.kmalloc env.pmmAllocZero total force4k 1

def brookAllocZeroInDomain (env : ChunkEnv) (domain k pages : Nat) : Nat :=
  if domain = domainUnknown then env.pmmAllocZero k pages
  else if env.pmmAllocInDomain domain k pages = 0 then env.pmmAllocZero k pages
  else env.pmmAllocInDomain domain k pages

/-- `i = (uint32_t)-1; continue` goes on with chunk 0. -/
def brookAllocSlotChunks (env : ChunkEnv) (total : UInt64) (domain : Nat) : Outcome :=
  allocChunks env.kmalloc (brookAllocZeroInDomain env domain) total false 0

/-- The mappings (virtual and physical address) that `bay_map_into_cabin` asks for, up to the first that fails. -/
def bayMapIntoCabin (maps : Nat → Bool) (base size : Nat) : Nat → List Nat → List (Nat × Nat)
  | _, [] => []
  | i,
    pa :: rest => ((base + i * size) % 2 ^ 64, pa) :: if maps i then bayMapIntoCabin maps base size (i + 1) rest else []

/-! ## All or nothing -/

/-- Blocks of some pages that share no byte. -/
def Apart (pages a b : Nat) : Prop := a + pages * pmmPageSize ≤ b ∨ b + pages * pmmPageSize ≤ a

/-- The chunks are there, of the class, and enough. -/
structure Complete (c : Chunks) : Prop where
  enough : total.toNat ≤ c.count * c.size
  length : c.chunks.length = c.count
  cls : c.size = 2 ^ c.cls
  page : ∀ a ∈ c.chunks, a ≠ 0 ∧ a % pmmPageSize = 0
  apart : c.chunks.Pairwise (Apart (c.size / pmmPageSize))

/-- What was got is given back, or is what the call returns. -/
def AllOrNothing (o : Outcome) : Prop :=
  match o.result with
  | none => o.freed.Perm o.got
  | some c => Complete total c ∧ o.got.Perm (o.freed ++ c.chunks.map (·, c.size / pmmPageSize))

/-- The page allocator hands out whole pages, and no block twice while nothing is given back. -/
structure Honest : Prop where
  page : ∀ k pages, alloc k pages % pmmPageSize = 0
  apart : ∀ pages k l, k < l → (∀ j, k ≤ j → j ≤ l → alloc j pages ≠ 0) → Apart pages (alloc k pages) (alloc l pages)

/-- The requests for `n` chunks from the `k`-th on are granted. -/
def Granted (pages k n : Nat) : Prop := ∀ i < n, alloc (k + i) pages ≠ 0

/-- Neither the sum nor the count is cut. -/
def CountFits (cs : Nat) : Prop := total.toNat + cs - 1 < 2 ^ 64 ∧ (total.toNat + cs - 1) / cs < 2 ^ 32

/-- All requests for pages are granted, and the count was cut or the first chunk left out. -/
def SpoiltPages (start call k : Nat) : Prop :=
  kmalloc call (chunkCount total pmmPageSize * 8) = true ∧ Granted alloc 1 k (chunkCount total pmmPageSize - start) ∧
    (0 < start ∨ ¬CountFits total pmmPageSize)

/-- The requests are granted to the end for a count that was cut, or with a refused chunk of 2 MiB before. -/
def Spoilt (force4k : Bool) (start : Nat) : Prop :=
  total ≠ 0 ∧
    if !force4k && decide (hugeSize ≤ total.toNat) then
      kmalloc 0 (chunkCount total hugeSize * 8) = true ∧
        (Granted alloc hugePages 0 (chunkCount total hugeSize) ∧ ¬CountFits total hugeSize ∨
          ∃ f < chunkCount total hugeSize, Granted alloc hugePages 0 f ∧ alloc f hugePages = 0 ∧
            SpoiltPages kmalloc alloc total start 1 (f + 1))
    else SpoiltPages kmalloc alloc total 0 0 0

def blocks (pages k n : Nat) : List Nat := (List.range n).map fun i => alloc (k + i) pages

variable {kmalloc alloc total} {pages k n start call : Nat}

theorem enough_iff {cs : Nat} (htotal : total ≠ 0) (hcs : 0 < cs) (hle : cs ≤ 2 ^ 64) :
    total.toNat ≤ chunkCount total cs * cs ↔ CountFits total cs := by
  have hpos : 0 < total.toNat := Nat.pos_of_ne_zero fun h => htotal (UInt64.toNat_inj.mp h)
  have hlt := total.toNat_lt
  unfold chunkCount CountFits
  by_cases hwrap : total.toNat + cs - 1 < 2 ^ 64
  · rw [Nat.mod_eq_of_lt hwrap]
    have hceil := Nat.lt_mul_div_succ (total.toNat + cs - 1) hcs
    have hfloor := Nat.div_mul_le_self (total.toNat + cs - 1) cs
    generalize (total.toNat + cs - 1) / cs = q at *
    by_cases hq : q < 2 ^ 32
    · rw [Nat.mod_eq_of_lt hq]
      refine iff_of_true ?_ ⟨hwrap, hq⟩
      rw [Nat.mul_succ, Nat.mul_comm] at hceil
      omega
    · -- the count is less than it has to be
      refine iff_of_false ?_ fun h => hq h.2
      have := Nat.mul_le_mul_right cs (show q % 2 ^ 32 ≤ q - 1 by omega)
      rw [Nat.sub_mul] at this
      omega
  · -- the sum wraps to less than a chunk
    refine iff_of_false ?_ fun h => hwrap h.1
    rw [show (total.toNat + cs - 1) % 2 ^ 64 = total.toNat + cs - 1 - 2 ^ 64 by omega, Nat.div_eq_of_lt (by omega)]
    omega

/-! ## The loop -/

@[simp] theorem length_blocks : (blocks alloc pages k n).length = n := by simp [blocks]

/-- The loop gets all chunks, or stops at the first that is refused. -/
theorem fill_cases (alloc : Nat → Nat → Nat) (pages k n : Nat) :
    (Granted alloc pages k n ∧ fill alloc pages k n = (blocks alloc pages k n, true)) ∨
      ∃ f < n, Granted alloc pages k f ∧ alloc (k + f) pages = 0 ∧
        fill alloc pages k n = (blocks alloc pages k f, false) := by
  induction n generalizing k with
  | zero => exact .inl ⟨fun _ hi => absurd hi (Nat.not_lt_zero _), rfl⟩
  | succ n ih =>
    unfold fill
    by_cases h0 : alloc k pages = 0
    · exact .inr ⟨0, n.succ_pos, fun _ hi => absurd hi (Nat.not_lt_zero _), h0, if_pos h0⟩
    have hnext : ∀ i, k + 1 + i = k + (i + 1) := fun i => by omega
    have hstep : ∀ m, Granted alloc pages (k + 1) m → Granted alloc pages k (m + 1) := fun m hg i hi => by
      cases i with
      | zero => exact h0
      | succ i => exact hnext i ▸ hg i (by omega)
    have hmap : ∀ m, alloc k pages :: blocks alloc pages (k + 1) m = blocks alloc pages k (m + 1) := fun m => by
      simp only [blocks, range_succ_eq_map, map_cons, map_map, Function.comp_def, hnext, Nat.add_zero]
    rw [if_neg h0]
    rcases ih (k + 1) with ⟨hg, h⟩ | ⟨f, hf, hg, hz, h⟩
    · exact .inl ⟨hstep n hg, by rw [h, ← hmap]⟩
    · exact .inr ⟨f + 1, Nat.succ_lt_succ hf, hstep f hg, hnext f ▸ hz, by rw [h, ← hmap]⟩

theorem freeChunks_eq {f : Nat} (hg : Granted alloc pages k f) (m : Nat) :
    freeChunks (replicate m 0 ++ blocks alloc pages k f) pages = (blocks alloc pages k f).map (·, pages) := by
  unfold freeChunks
  rw [filter_append, filter_eq_nil_iff.mpr (by simp), nil_append, filter_eq_self.mpr fun a ha => ?_]
  obtain ⟨i, hi, rfl⟩ := mem_map.mp ha
  exact decide_eq_true (hg i (mem_range.mp hi))

theorem granted_iff (h : Honest alloc) (htotal : total ≠ 0) {c size : Nat} (hcls : size = 2 ^ c) (hle : c ≤ 64)
    (hsize : size / pmmPageSize = pages) (hg : Granted alloc pages k (chunkCount total size)) :
    AllOrNothing total ⟨some ⟨c, size, chunkCount total size, blocks alloc pages k (chunkCount total size)⟩,
      (blocks alloc pages k (chunkCount total size)).map (·, pages), []⟩ ↔ CountFits total size := by
  unfold AllOrNothing
  dsimp only
  rw [hsize, nil_append, and_iff_left (Perm.refl _), ← enough_iff htotal (hcls ▸ Nat.two_pow_pos c)
    (hcls ▸ Nat.pow_le_pow_right (by decide) hle)]
  refine ⟨fun hc => hc.enough, fun henough => ⟨henough, length_blocks, hcls, fun a ha => ?_, ?_⟩⟩
  · obtain ⟨i, hi, rfl⟩ := mem_map.mp ha
    exact ⟨hg i (mem_range.mp hi), h.page _ _⟩
  · rw [hsize, blocks, pairwise_map]
    refine pairwise_lt_range.imp_of_mem fun {i j} _ hj hij =>
      h.apart pages (k + i) (k + j) (by omega) fun m hlo hhi => ?_
    have := hg (m - k) (by have := mem_range.mp hj; omega)
    rwa [Nat.add_sub_cancel' (by omega)] at this

theorem allocPages_iff (h : Honest alloc) (htotal : total ≠ 0) :
    AllOrNothing total (allocPages kmalloc alloc total start call k) ↔
    ¬SpoiltPages kmalloc alloc total start call k := by
  unfold allocPages SpoiltPages
  dsimp only
  split
  · rename_i hk
    rcases fill_cases alloc 1 k (chunkCount total pmmPageSize - start) with ⟨hg, hfill⟩ | ⟨f, hf, hg, hz, hfill⟩
    · simp only [hfill, if_true]
      cases start with
      | zero =>
        rw [Nat.zero_min, replicate_zero, nil_append]
        refine (granted_iff (c := 12) h htotal rfl (by decide) rfl hg).trans ?_
        exact ⟨fun hfits hs => hs.2.2.elim (lt_irrefl 0) fun hn => hn hfits,
          fun hno => not_not.mp fun hn => hno ⟨hk, hg, .inr hn⟩⟩
      | succ start =>
        -- chunk 0 stays 0, or there is none
        refine iff_of_false (fun hall => ?_) fun hno => hno ⟨hk, hg, .inl start.succ_pos⟩
        have hc : Complete total ⟨12, pmmPageSize, _, replicate (min (start + 1) _) 0 ++ _⟩ := hall.1
        by_cases h0 : chunkCount total pmmPageSize = 0
        · have henough := hc.enough
          rw [h0, Nat.zero_mul] at henough
          exact htotal (UInt64.toNat_inj.mp (Nat.le_zero.mp henough))
        · exact (hc.page 0 (mem_append_left _ (mem_replicate.mpr ⟨by omega, rfl⟩))).1 rfl
    · rw [hfill]
      exact iff_of_true (Perm.of_eq (freeChunks_eq hg _)) fun hs => hs.2.1 f hf hz
  · rename_i hk
    exact iff_of_true (Perm.refl _) fun hs => hk hs.1

/-- Chunks that were got and given back change nothing. -/
theorem allOrNothing_after (got : List (Nat × Nat)) (o : Outcome) :
    AllOrNothing total ⟨o.result, got ++ o.got, got ++ o.freed⟩ ↔ AllOrNothing total o := by
  unfold AllOrNothing
  cases o.result with
  | none => exact perm_append_left_iff got
  | some c =>
    simp only [append_assoc]
    exact and_congr_right fun _ => perm_append_left_iff got

theorem allocChunks_iff (h : Honest alloc) {force4k : Bool} :
    AllOrNothing total (allocChunks kmalloc alloc total force4k start) ↔ ¬Spoilt kmalloc alloc total force4k start := by
  unfold allocChunks Spoilt
  by_cases htotal : total = 0
  · rw [if_pos htotal]
    exact iff_of_true (Perm.refl _) fun hs => hs.1 htotal
  rw [if_neg htotal, and_iff_right htotal]
  split
  · dsimp only
    split
    · rename_i hk
      rcases fill_cases alloc hugePages 0 (chunkCount total hugeSize) with ⟨hg, hfill⟩ | ⟨f, hf, hg, hz, hfill⟩
      · simp only [hfill, if_true]
        refine (granted_iff (c := 21) h htotal rfl (by decide) rfl hg).trans ?_
        refine ⟨fun hfits hs => ?_, fun hno => not_not.mp fun hn => hno ⟨hk, .inl ⟨hg, hn⟩⟩⟩
        rcases hs.2 with ⟨-, hn⟩ | ⟨f, hf, -, hz, -⟩
        · exact hn hfits
        · exact hg f hf (by rwa [Nat.zero_add])
      · rw [hfill]
        rw [Nat.zero_add] at hz
        have hfree := freeChunks_eq hg 0
        rw [replicate_zero, nil_append] at hfree
        simp only [hfree, length_blocks, Bool.false_eq_true, if_false]
        refine (allOrNothing_after _ _).trans ((allocPages_iff h htotal).trans (not_congr ?_))
        refine ⟨fun hs => ⟨hk, .inr ⟨f, hf, hg, hz, hs⟩⟩, fun hs => ?_⟩
        rcases hs.2 with ⟨hall, -⟩ | ⟨f', hf', hg', hz', hs⟩
        · exact absurd (by rwa [Nat.zero_add]) (hall f hf)
        · rcases Nat.lt_trichotomy f' f with hlt | rfl | hlt
          · exact absurd (by rwa [Nat.zero_add]) (hg f' hlt)
          · exact hs
          · exact absurd (by rwa [Nat.zero_add]) (hg' f hlt)
    · rename_i hk
      exact iff_of_true (Perm.refl _) fun hs => hk hs.1
  · exact allocPages_iff h htotal

theorem mem_bayMapIntoCabin {maps : Nat → Bool} {base size i : Nat} {chunks : List Nat} {m : Nat × Nat}
    (hm : m ∈ bayMapIntoCabin maps base size i chunks) : m.2 ∈ chunks := by
  induction chunks generalizing i with
  | nil => cases hm
  | cons pa rest ih =>
    rcases mem_cons.mp hm with rfl | hm
    · exact mem_cons_self
    · split at hm
      · exact mem_cons_of_mem pa (ih hm)
      · cases hm

/-- Both allocate all or nothing, and a bay maps no page 0, exactly where the requests are not granted to the end for a
count that was cut or, in bay.c, after a refused chunk of 2 MiB. -/
theorem chunks_all_or_nothing_iff (env : ChunkEnv) (hany : Honest env.pmmAllocZero)
    (hdomain : ∀ domain, Honest (brookAllocZeroInDomain env domain)) (total : UInt64) :
    (∀ force4k, (AllOrNothing total (bayAllocChunksInternal env total force4k) ∧
        ∀ c ∈ (bayAllocChunksInternal env total force4k).result, ∀ maps base,
          ∀ m ∈ bayMapIntoCabin maps base c.size 0 c.chunks, m.2 ≠ 0) ↔
      ¬Spoilt env.kmalloc env.pmmAllocZero total force4k 1) ∧
    ∀ domain, AllOrNothing total (brookAllocSlotChunks env total domain) ↔
      ¬Spoilt env.kmalloc (brookAllocZeroInDomain env domain) total false 0 := by
  refine ⟨fun force4k => ?_, fun domain => allocChunks_iff (hdomain domain)⟩
  refine Iff.trans (and_iff_left_of_imp fun hall c hc maps base m hm => ?_) (allocChunks_iff hany)
  unfold AllOrNothing at hall
  rw [Option.mem_def.mp hc] at hall
  exact (hall.1.page _ (mem_bayMapIntoCabin hm)).1

/-- With a count that is right nothing is spoilt when the loop starts again from chunk 0. -/
theorem not_spoilt (hhuge : CountFits total hugeSize) (hpage : CountFits total pmmPageSize) {force4k : Bool} :
    ¬Spoilt kmalloc alloc total force4k 0 := by
  rintro ⟨-, hs⟩
  split at hs
  · rcases hs.2 with ⟨-, hno⟩ | ⟨-, -, -, -, -, -, hno⟩
    · exact hno hhuge
    · exact hno.elim (lt_irrefl 0) fun hno => hno hpage
  · exact hs.2.2.elim (lt_irrefl 0) fun hno => hno hpage

/-- Single pages, each at its own 2 MiB; more pages at once are refused. -/
def onlyPages : ChunkEnv :=
  ⟨fun _ _ => true, fun _ _ _ => 0, fun k pages => if pages = 1 then (k + 1) * hugeSize else 0⟩

theorem honest_onlyPages (domain : Nat) :
    Honest onlyPages.pmmAllocZero ∧ Honest (brookAllocZeroInDomain onlyPages domain) := by
  have hsame : brookAllocZeroInDomain onlyPages domain = onlyPages.pmmAllocZero := by
    funext k pages
    simp [brookAllocZeroInDomain, onlyPages]
  rw [hsame, and_self]
  unfold onlyPages hugeSize
  refine ⟨fun k pages => ?_, fun pages k l hkl hall => ?_⟩
  · dsimp only [pmmPageSize]
    split <;> omega
  · obtain rfl : pages = 1 := by
      by_contra hno
      exact hall k le_rfl hkl.le (if_neg hno)
    dsimp only [Apart, pmmPageSize]
    rw [if_pos rfl, if_pos rfl]
    omega

theorem chunks_all_or_nothing_six : AllOrNothing 0x600000 (brookAllocSlotChunks onlyPages 0x600000 3) := by
  rw [(chunks_all_or_nothing_iff onlyPages (honest_onlyPages 0).1 (fun d => (honest_onlyPages d).2) 0x600000).2 3]
  exact not_spoilt (by unfold CountFits; decide) (by unfold CountFits; decide)

/-- The 2 MiB chunk is refused, and the pages are granted. -/
theorem bay_maps_page_zero : Honest onlyPages.pmmAllocZero ∧
    ∃ c, (bayAllocChunksInternal onlyPages 0x200000 false).result = some c ∧ 0 ∈ c.chunks ∧
      (0x40000000, 0) ∈ bayMapIntoCabin (fun _ => true) 0x40000000 c.size 0 c.chunks := by
  refine ⟨(honest_onlyPages 0).1, ⟨12, pmmPageSize, 512, 0 :: (fill onlyPages.pmmAllocZero 1 1 511).1⟩, ?_,
    mem_cons_self, mem_cons_self⟩
  decide +kernel

end BoxOS.Bay
