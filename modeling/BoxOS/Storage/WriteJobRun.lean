import BoxOS.Storage.WriteJobInv
import BoxOS.TagFS.MetaPoolRun

/-! # Whole write jobs

A job that starts on a `Writable` file comes to an end, and one that ends well leaves the byte-array write. -/

namespace BoxOS.Storage

open Lib TagFS WriteJobData

variable {env : JobEnv} {v₀ v : StoredFile} {s : Nat} {src : List UInt8} {j : WriteJobData}

theorem JobOk.start (hv : v₀.Ok) (hwr : Writable env v₀ s src) (hsrc : src ≠ []) :
    JobOk v₀ s src v₀ (.submitted v₀ s src) := by
  have hlen := List.length_pos_of_ne_nil hsrc
  refine ⟨⟨Written.start hv s src, by simp [submitted], rfl, rfl, rfl, rfl, rfl, fun _ => rfl⟩, ⟨hlen, fun h => ?_,
    fun h => ?_, nofun, fun _ => .inl rfl, fun _ => hwr.gap, fun _ _ _ => rfl⟩⟩
  · exact absurd h (Nat.lt_irrefl 0)
  · exact absurd h (Nat.lt_irrefl 0)

theorem JobOk.pump (hv : v₀.Ok) (hwr : Writable env v₀ s src) (n : Nat) {x : StoredFile × WriteJobData}
    (h : JobOk v₀ s src x.1 x.2) : JobOk v₀ s src (wjobPump env n x).1 (wjobPump env n x).2 := by
  induction n generalizing x with
  | zero => exact h
  | succ n ih => exact ih (h.step hv hwr)

/-! ## The end of a job -/

/-- How far the job is from its end. -/
def remaining (s : Nat) (src : List UInt8) (j : WriteJobData) : Nat :=
  let data := 20 * (src.length - j.bytesDone) + 10 * (nextBlock s j + 1 - (blocksOf j.extents).length)
  match j.state with
  | .locate => data + 8
  | .alloc | .cowBefore => data + 7
  | .cowReadOld => data + 6
  | .dmaFill => data + 5
  | .ahciSubmit => data + 4
  | .ahciDone => data + 3
  | .beginTxn => 9
  | .logMeta => 8
  | .cowAfter => 7
  | .commitTxn => 6
  | .publish => 5
  | .releaseToken => 4
  | .done | .error | .init | .tokenWait => 0

theorem remaining_locateBlock (hstate : j.state = .locate) :
    remaining s src (j.locateBlock env) < remaining s src j := by
  unfold locateBlock
  simp only
  split
  · simp [remaining, hstate, nextBlock]
  split
  · simp [remaining, hstate, nextBlock]
  split
  · simp [remaining, hstate, nextBlock]
  split <;> simp [remaining, hstate, nextBlock]

theorem remaining_allocBlockStep (hstate : j.state = .alloc) (hlen : (blocksOf j.extents).length ≤ nextBlock s j) :
    remaining s src (j.allocBlockStep v).2 < remaining s src j := by
  unfold allocBlockStep
  split
  · simp [remaining, hstate]
  split
  · simp [remaining, hstate]
  split
  · simp [remaining, hstate]
  rename_i extents hgrown
  obtain rfl := growExtents_eq_some hgrown
  simp only [remaining, hstate, nextBlock, blocksOf_append, List.length_append, blocksOf_cons, blocksOf_nil,
    Extent.length_blocks, List.length_nil] at hlen ⊢
  omega

theorem remaining_cowBefore (hstate : j.state = .cowBefore) (hc : Redirectable v₀ j) :
    remaining s src (j.cowBefore v).2 < remaining s src j := by
  obtain ⟨-, -, -, pre, post, hes, hidx⟩ := hc
  unfold cowBefore
  split
  · simp [remaining, hstate]
  rename_i newBlock v' _
  have hgetD : j.extents.getD j.ifExtentIdx ⟨0, 0⟩ = ⟨j.ifDiskBlock, 1⟩ := by
    rw [hes, hidx]
    simp
  have hblocks : (blocksOf (j.extents.set j.ifExtentIdx ⟨newBlock, 1⟩)).length = (blocksOf j.extents).length := by
    rw [hes, hidx]
    simp
  rw [hgetD]
  cases j.ifPartialRmw <;> simp [remaining, hstate, nextBlock, hblocks]

theorem remaining_advance (hstate : j.state = .ahciDone) (hsrc : j.src = src) (ha : Aimed v₀ s src j) :
    remaining s src { j with
      bytesDone := j.bytesDone + j.ifChunk, ifAllocFresh := false
      state := if j.totalBytes ≤ j.bytesDone + j.ifChunk then .beginTxn else .locate } < remaining s src j := by
  obtain ⟨hle, hpos, hend⟩ := ha.chunk_le
  have hlt : nextBlock s j < (blocksOf j.extents).length := (List.getElem?_eq_some_iff.mp ha.block).1
  have htotal : j.totalBytes = src.length := by rw [totalBytes, hsrc]
  have hnext : (s + (j.bytesDone + j.ifChunk)) / tagfsBlockSize ≤ nextBlock s j + 1 := by
    have hoff := ha.off
    unfold nextBlock tagfsBlockSize at *
    omega
  split
  · simp only [remaining, hstate]
    omega
  · simp only [remaining, hstate, nextBlock] at hnext hlt ⊢
    omega

theorem remaining_logMeta (hstate : j.state = .logMeta) : remaining s src (j.logMeta env v).2 < remaining s src j := by
  unfold logMeta
  split
  · simp [remaining, hstate]
  simp only
  split
  · cases j.ifCowRedirected <;> simp [remaining, hstate]
  · simp [remaining, hstate]

theorem remaining_step (h : JobOk v₀ s src v j) (hdone : j.state ≠ .done)
    (herr : j.state ≠ .error) : remaining s src (step env (v, j)).2 < remaining s src j := by
  unfold step
  unfold JobOk at h
  simp only
  split <;> rename_i hstate <;> simp only [hstate] at h
  · exact remaining_locateBlock hstate
  · exact remaining_allocBlockStep hstate h.2.2
  · exact remaining_cowBefore hstate h.2.2
  · simp [remaining, hstate, nextBlock]
  · simp [remaining, hstate, nextBlock]
  · simp [remaining, hstate, nextBlock]
  · exact remaining_advance hstate h.1.src_eq h.2
  · simp [remaining, hstate]
  · exact remaining_logMeta hstate
  · simp [remaining, hstate]
  · simp [remaining, hstate]
  · simp [remaining, hstate]
  · simp [remaining, hstate]
  · exact absurd hstate hdone
  · exact absurd hstate herr

theorem wjobPump_ends (hv : v₀.Ok) (hwr : Writable env v₀ s src) {x : StoredFile × WriteJobData}
    (h : JobOk v₀ s src x.1 x.2) : ∃ n, (wjobPump env n x).2.state = .done ∨ (wjobPump env n x).2.state = .error := by
  induction hm : remaining s src x.2 using Nat.strong_induction_on generalizing x with
  | _ m ih =>
    by_cases hdone : x.2.state = .done
    · exact ⟨0, .inl hdone⟩
    by_cases herr : x.2.state = .error
    · exact ⟨0, .inr herr⟩
    obtain ⟨n, hn⟩ := ih _ (hm ▸ remaining_step h hdone herr) (h.step hv hwr) rfl
    exact ⟨n + 1, hn⟩

/-! ## The byte-array write -/

/-- The file `v'` is `v` with `src` written at `s`. -/
structure Implements (v v' : StoredFile) (s : Nat) (src : List UInt8) : Prop where
  read : readFile v'.disk v'.extents v'.size = some (writeBytes v.bytes s src)
  size : v'.size = max v.size (s + src.length)
  nodup : (blocksOf v'.extents).Nodup
  taken : ∀ b, v'.space.Holds b → ¬ v.space.Holds b → b ∈ blocksOf v'.extents

theorem Published.implements (h : Published v₀ s src v) (hv : v₀.Ok) (hwr : Writable env v₀ s src) (hsrc : src ≠ []) :
    Implements v₀ v s src := by
  obtain ⟨hcov, hbytes⟩ := h.written.bytes hv hsrc hwr.tail
  rw [← h.size] at hcov hbytes
  refine ⟨?_, h.size, h.written.nodup, fun b hb hnot => (h.written.taken b hb).resolve_left hnot⟩
  rw [readFile_eq hcov, hbytes]

/-- A write job ends, and one that ends well has written the bytes. -/
theorem write_job_implements (env : JobEnv) (v : StoredFile) (s : Nat) (src : List UInt8) (hv : v.Ok) (hsrc : src ≠ [])
    (hwr : Writable env v s src) :
    (∃ n, (wjobPump env n (v, .submitted v s src)).2.state = .done ∨
      (wjobPump env n (v, .submitted v s src)).2.state = .error) ∧
    ∀ n, (wjobPump env n (v, .submitted v s src)).2.state = .done →
      Implements v (wjobPump env n (v, .submitted v s src)).1 s src := by
  have hstart := JobOk.start hv hwr hsrc
  refine ⟨wjobPump_ends hv hwr hstart, fun n hdone => ?_⟩
  have hok := JobOk.pump hv hwr n (x := (v, .submitted v s src)) hstart
  unfold JobOk at hok
  rw [hdone] at hok
  exact Published.implements hok hv hwr hsrc

/-- Writing metadata always succeeds, and there is no snapshot. -/
def plainEnv : JobEnv :=
  ⟨false, fun _ _ => true⟩

/-- A file of three bytes in block 1. -/
def threeBytes : StoredFile where
  disk _ _ := 5
  space := eightBlocks
  extents := [⟨1, 1⟩]
  size := 3

theorem eightBlocks_inv : eightBlocks.Inv :=
  (mountSpace_inv (by decide) eightBlocks_mounted).1

theorem threeBytes_ok : threeBytes.Ok :=
  ⟨eightBlocks_inv, by decide, by decide, by decide⟩

theorem writable_inside {v : StoredFile} {s : Nat} {src : List UInt8} (hs : s ≤ v.size)
    (hblocks : s / tagfsBlockSize ≤ (blocksOf v.extents).length) : Writable plainEnv v s src := by
  refine ⟨fun pos h₁ h₂ => ?_, fun b hb => ?_, nofun⟩
  · exact absurd (h₂.trans_le hs) (not_lt.mpr h₁)
  · rw [Nat.sub_eq_zero_of_le hblocks] at hb
    cases hb

theorem write_job_implements_threeBytes :
    (wjobPump plainEnv 11 (threeBytes, .submitted threeBytes 1 [7, 8, 9])).2.state = .done ∧
    Implements threeBytes (wjobPump plainEnv 11 (threeBytes, .submitted threeBytes 1 [7, 8, 9])).1 1 [7, 8, 9] := by
  have hdone : (wjobPump plainEnv 11 (threeBytes, .submitted threeBytes 1 [7, 8, 9])).2.state = .done := by
    decide +kernel
  exact ⟨hdone, (write_job_implements plainEnv threeBytes 1 [7, 8, 9] threeBytes_ok (by decide)
    (writable_inside (by decide) (by decide))).2 11
    hdone⟩

/-- A file with nothing in it, on a disk whose free blocks were used before. -/
def emptyStored : StoredFile where
  disk _ _ := 5
  space := eightBlocks
  extents := []
  size := 0

/-- A write behind the end shows what the blocks in between held before. -/
theorem write_job_shows_old_blocks :
    emptyStored.Ok ∧ (wjobPump plainEnv 14 (emptyStored, .submitted emptyStored tagfsBlockSize [7])).2.state = .done ∧
    ¬ Implements emptyStored (wjobPump plainEnv 14 (emptyStored, .submitted emptyStored tagfsBlockSize [7])).1
      tagfsBlockSize [7] := by
  refine ⟨⟨eightBlocks_inv, by decide, by decide, by decide⟩, by decide +kernel, fun h => ?_⟩
  have hcov : Covered (wjobPump plainEnv 14 (emptyStored, .submitted emptyStored tagfsBlockSize [7])).1.extents
      (wjobPump plainEnv 14 (emptyStored, .submitted emptyStored tagfsBlockSize [7])).1.size := by
    unfold Covered
    decide +kernel
  have hbyte :
      byteOf tagfsBlockSize (wjobPump plainEnv 14 (emptyStored, .submitted emptyStored tagfsBlockSize [7])).1.disk
      (blocksOf (wjobPump plainEnv 14 (emptyStored, .submitted emptyStored tagfsBlockSize [7])).1.extents) 0 =
      some 5 := by
    decide +kernel
  have hread := h.read
  rw [readFile_eq hcov, Option.some.injEq] at hread
  have hfirst := congrArg (fun l : List UInt8 => l[0]?) hread
  rw [getElem?_fileBytes (by rw [h.size]; decide), getElem?_writeBytes (by decide), hbyte] at hfirst
  exact absurd hfirst (by decide)

end BoxOS.Storage
