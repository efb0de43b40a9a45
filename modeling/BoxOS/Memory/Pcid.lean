import BoxOS.Lib.Runs
import Mathlib.Data.List.Perm.Basic

/-!
# Address-space identifiers

`pcid_alloc_safe` and `pcid_release` of `vmm.c`, as `vmm_create_context` and `vmm_destroy_context` call them once PCIDs
are active. Every identifier below `pcid_next` is on the free stack or has a context (`Held`), until a context is made
while `PCID_MAX` are alive: the counter restarts, and the new context shares the identifier of an older one
(`pcid_exclusive_iff`).
-/

namespace BoxOS.Memory.Pcid

open Lib List

/-- `PCID_MAX`. -/
def pcidMax : Nat := 4095

/-- `PCID_KERNEL`. -/
def pcidKernel : Nat := 0

/-- `pcid_next` and the entries of `pcid_free_stack`, its top first. -/
structure Pool where
  next : Nat
  freeStack : List Nat

/-- `OK`, `ERR_INTERNAL` and `ERR_PCID_EXHAUSTED`. -/
inductive Answer where
  | ok
  | internal
  | exhausted
  deriving DecidableEq

/-- The answer of `pcid_alloc_safe`, with what is then in `*out_pcid`, which was 0. -/
def pcidAllocSafe (p : Pool) : Answer × Nat × Pool :=
  match p.freeStack with
  | pcid :: rest =>
    if p.freeStack.length > pcidMax then (.internal, 0, p) else (.ok, pcid, { p with freeStack := rest })
  | [] =>
    if p.next ≤ pcidMax then (.ok, p.next, { p with next := p.next + 1 })
    else (.exhausted, 1, ⟨2, []⟩)

def pcidRelease (p : Pool) (pcid : Nat) : Pool :=
  if pcid = pcidKernel ∨ pcid > pcidMax then p
  else if p.freeStack.length < pcidMax then { p with freeStack := pcid :: p.freeStack }
  else p

/-- The contexts that are alive, the kernel's apart, by their PCIDs. -/
structure World where
  pool : Pool
  contexts : List Nat

/-- The calls. A context is destroyed by its place; whether there is memory for a new one is said by the call. -/
inductive Call where
  | vmmCreateContext (memory : Bool)
  | vmmDestroyContext (i : Nat)

def World.next (w : World) : Call → Option World
  | .vmmCreateContext false => some w
  | .vmmCreateContext true =>
    -- an error of `pcid_alloc_safe` is printed at most
    let (_, pcid, pool) := pcidAllocSafe w.pool
    some ⟨pool, pcid :: w.contexts⟩
  | .vmmDestroyContext i => w.contexts[i]?.map fun pcid => ⟨pcidRelease w.pool pcid, w.contexts.eraseIdx i⟩

def World.Step (w : World) (c : Call) (w' : World) : Prop := w.next c = some w'

/-- When PCIDs become active. -/
def start : World := ⟨⟨1, []⟩, []⟩

/-- No two address spaces have the same identifier. -/
structure World.Exclusive (w : World) : Prop where
  distinct : w.contexts.Nodup
  notKernel : pcidKernel ∉ w.contexts
  free : w.pool.freeStack.Nodup
  apart : ∀ pcid ∈ w.pool.freeStack, pcid ∉ w.contexts
  noInternal : (pcidAllocSafe w.pool).1 ≠ .internal

/-- A context is made only while fewer than `PCID_MAX` others are alive. -/
def World.HasRoom (w : World) : Call → Prop
  | .vmmCreateContext true => w.contexts.length < pcidMax
  | _ => True

/-- The identifiers that have been handed out are on the stack or in use. -/
structure World.Held (w : World) : Prop where
  perm : (w.pool.freeStack ++ w.contexts).Perm (range' 1 (w.pool.next - 1))
  pos : 0 < w.pool.next
  le : w.pool.next ≤ pcidMax + 1

variable {w w' : World} {c : Call} {cs : List Call}

theorem World.Held.length (h : w.Held) : w.pool.freeStack.length + w.contexts.length = w.pool.next - 1 := by
  rw [← length_append, h.perm.length_eq, length_range']

theorem World.Held.mem_iff (h : w.Held) {pcid : Nat} :
    pcid ∈ w.pool.freeStack ∨ pcid ∈ w.contexts ↔ 1 ≤ pcid ∧ pcid < w.pool.next := by
  rw [← mem_append, h.perm.mem_iff, mem_range'_1]
  have := h.pos
  omega

theorem World.Held.exclusive (h : w.Held) : w.Exclusive := by
  obtain ⟨hfree, hdistinct, hapart⟩ := nodup_append.mp (h.perm.nodup_iff.mpr nodup_range')
  refine ⟨hdistinct, fun hmem => ?_, hfree, fun pcid hfree hctx => hapart pcid hfree pcid hctx rfl, ?_⟩
  · exact absurd (h.mem_iff.mp (.inr hmem)).1 (by decide)
  · have hlen := h.length
    have hle := h.le
    unfold pcidAllocSafe
    split
    · rw [if_neg (by omega)]
      nofun
    · split <;> nofun

theorem start_held : start.Held := ⟨.refl _, by decide, by decide⟩

theorem World.Held.create (h : w.Held) (hroom : w.contexts.length < pcidMax)
    (hstep : w.Step (.vmmCreateContext true) w') : w'.Held := by
  obtain rfl := Option.some.inj hstep
  have hlen := h.length
  have hle := h.le
  have hpos := h.pos
  have hperm := h.perm
  cases hstack : w.pool.freeStack with
  | cons pcid rest =>
    rw [hstack] at hlen hperm
    simp only [length_cons] at hlen ⊢
    rw [if_neg (by omega)]
    exact ⟨perm_middle.trans hperm, hpos, hle⟩
  | nil =>
    rw [hstack] at hlen hperm
    simp only [length_nil] at hlen ⊢
    rw [if_pos (by omega)]
    refine ⟨?_, Nat.succ_pos _, by simp only; omega⟩
    -- the counter goes on by the identifier that is handed out
    have hrange : range' 1 (w.pool.next + 1 - 1) = range' 1 (w.pool.next - 1) ++ [w.pool.next] := by
      rw [show w.pool.next + 1 - 1 = w.pool.next - 1 + 1 by omega, range'_concat]
      simp only [show 1 + 1 * (w.pool.next - 1) = w.pool.next by omega]
    simp only [hrange, nil_append]
    exact (hperm.cons _).trans (perm_append_singleton _ _).symm

theorem World.Held.destroy (h : w.Held) {i : Nat} (hstep : w.Step (.vmmDestroyContext i) w') : w'.Held := by
  obtain ⟨pcid, hget, rfl⟩ := Option.map_eq_some_iff.mp hstep
  have hlen := h.length
  have hle := h.le
  have hmem := h.mem_iff.mp (.inr (mem_of_getElem? hget))
  obtain ⟨hi, rfl⟩ := List.getElem?_eq_some_iff.mp hget
  unfold pcidRelease
  rw [if_neg (by unfold pcidKernel; omega), if_pos (by omega)]
  refine ⟨?_, h.pos, h.le⟩
  exact (perm_middle.symm.trans ((getElem_cons_eraseIdx_perm hi).append_left _)).trans h.perm

theorem World.Held.step (h : w.Held) (hroom : w.HasRoom c) (hstep : w.Step c w') : w'.Held := by
  cases c with
  | vmmCreateContext memory =>
    cases memory with
    | false => exact Option.some.inj hstep ▸ h
    | true => exact h.create hroom hstep
  | vmmDestroyContext i => exact h.destroy hstep

/-- Without room the identifier 1 is handed out again. -/
theorem World.Held.shares (h : w.Held) (hno : ¬ w.HasRoom c) (hstep : w.Step c w') : ¬ w'.Exclusive := by
  cases c with
  | vmmDestroyContext i => exact absurd trivial hno
  | vmmCreateContext memory =>
    cases memory with
    | false => exact absurd trivial hno
    | true =>
      have hfull : pcidMax ≤ w.contexts.length := Nat.not_lt.mp hno
      have hlen := h.length
      have hle := h.le
      have hstack : w.pool.freeStack = [] := length_eq_zero_iff.mp (by omega)
      have hone : 1 ∈ w.contexts := by
        have hmem := h.mem_iff.mpr ⟨Nat.le_refl 1, (by unfold pcidMax at hfull; omega : 1 < w.pool.next)⟩
        rw [hstack] at hmem
        exact hmem.resolve_left not_mem_nil
      obtain rfl := Option.some.inj hstep
      intro hex
      have hnodup := hex.distinct
      rw [hstack, length_nil] at hlen
      simp only [hstack, if_neg (show ¬ w.pool.next ≤ pcidMax by unfold pcidMax at *; omega)] at hnodup
      exact (nodup_cons.mp hnodup).1 hone

theorem run_held (run : Run World.Step World.HasRoom start cs w) : w.Held :=
  run.invariant (fun _ _ _ hroom hstep h => h.step hroom hstep) start_held

/-- Identifiers are exclusive in every run that makes its contexts while fewer than `PCID_MAX` are alive, and no longer
after the first call that does otherwise. -/
theorem pcid_exclusive_iff (run : Run World.Step World.HasRoom start cs w) :
    w.Exclusive ∧ ∀ c w', w.Step c w' → (w'.Exclusive ↔ w.HasRoom c) := by
  have h := run_held run
  refine ⟨h.exclusive, fun c w' hstep => ⟨fun hex => ?_, fun hroom => (h.step hroom hstep).exclusive⟩⟩
  by_contra hno
  exact h.shares hno hstep hex

/-- Two contexts, of which the first goes. -/
theorem pcid_exclusive_two : World.Exclusive ⟨⟨3, [1]⟩, [2]⟩ := by
  have run : Run World.Step World.HasRoom start
      [.vmmCreateContext true, .vmmCreateContext true, .vmmDestroyContext 1] ⟨⟨3, [1]⟩, [2]⟩ :=
    .cons (show 0 < pcidMax by decide) rfl (.cons (show 1 < pcidMax by decide) rfl (.cons trivial rfl (.nil _)))
  exact (pcid_exclusive_iff run).1

theorem run_overflows (n : Nat) (h : w.Held) (hn : w.contexts.length + n = pcidMax) :
    ∃ w', Run World.Step (fun _ _ => True) w (replicate (n + 1) (.vmmCreateContext true)) w' ∧ ¬ w'.Exclusive := by
  have hstep : w.Step (.vmmCreateContext true) _ := rfl
  induction n generalizing w with
  | zero =>
    have hno : ¬ w.HasRoom (.vmmCreateContext true) := Nat.not_lt.mpr (Nat.le_of_eq hn.symm)
    exact ⟨_, .cons trivial hstep (.nil _), h.shares hno hstep⟩
  | succ n ih =>
    obtain ⟨w', run, hno⟩ := ih (h.create (by omega) hstep) (by simp only [length_cons]; omega) rfl
    exact ⟨w', .cons trivial hstep run, hno⟩

/-- One context too many. -/
theorem pcid_shared : ∃ cs w, Run World.Step (fun _ _ => True) start cs w ∧ ¬ w.Exclusive :=
  ⟨_, run_overflows pcidMax start_held rfl⟩

end BoxOS.Memory.Pcid
