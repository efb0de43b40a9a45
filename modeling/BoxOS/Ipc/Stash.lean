import BoxOS.Lib.Ring
import Mathlib.Tactic

/-!
# Stashes

A stash is a queue in chunks of a fixed number of slots: entries are put into the last chunk and taken from the first
one. A chunk that has run empty at the front is kept as the spare of the next `stash_reserve`, or freed when there is a
spare.

`Stash.Holds s l` says that the stash holds the entries `l` in order; every operation is one on that list.
-/

namespace BoxOS.Ipc

open List

def mod32 (n : Nat) : Nat := n % 2 ^ 32

/-- `n--` -/
def pred32 (n : Nat) : Nat := mod32 (n + 2 ^ 32 - 1)

structure StashChunk (α : Type) where
  head : Nat
  count : Nat
  entries : Nat → α

open StashChunk

structure Stash (α : Type) where
  /-- from `head` to `tail` -/
  chunks : List (StashChunk α)
  spare : Option (StashChunk α)
  chunkCap : Nat
  count : Nat

section

variable {α : Type}

def stashInit (chunkCap : Nat) : Stash α := ⟨[], none, chunkCap, 0⟩

/-- The slot that `slot_at` finds. -/
def slotAt (cap i : Nat) : Nat := mod32 i % cap

/-- `chunk_take_or_new` and the spare it leaves; `malloc` is the fresh memory, with what is in it. -/
def chunkTakeOrNew (s : Stash α) (malloc : Option (Nat → α)) : Option (StashChunk α × Option (StashChunk α)) :=
  match s.spare with
  | some c => some (⟨0, 0, c.entries⟩, none)
  | none => malloc.map fun entries => (⟨0, 0, entries⟩, none)

/-- Links a new chunk behind the tail. -/
def stashGrow (s : Stash α) (malloc : Option (Nat → α)) : Stash α × Bool :=
  match chunkTakeOrNew s malloc with
  | some (c, spare) => ({ s with chunks := s.chunks ++ [c], spare := spare }, true)
  | none => (s, false)

def stashReserve (s : Stash α) (malloc : Option (Nat → α)) : Stash α × Bool :=
  if s.chunkCap = 0 then (s, false)
  else
    match s.chunks.getLast? with
    | some tail => if tail.count < s.chunkCap then (s, true) else stashGrow s malloc
    | none => stashGrow s malloc

def stashPut (s : Stash α) (entry : α) : Stash α :=
  match s.chunks.getLast? with
  | some c =>
    let entries := Function.update c.entries (slotAt s.chunkCap (c.head + c.count)) entry
    { s with chunks := s.chunks.dropLast ++ [⟨c.head, mod32 (c.count + 1), entries⟩], count := mod32 (s.count + 1) }
  | none => s

def dropEmptyHeads : List (StashChunk α) → Option (StashChunk α) → List (StashChunk α) × Option (StashChunk α)
  | [], spare => ([], spare)
  | [c], spare => ([if c.count = 0 then { c with head := 0 } else c], spare)
  | c :: d :: rest, spare =>
    if c.count = 0 then dropEmptyHeads (d :: rest) (spare.orElse fun _ => some c) else (c :: d :: rest, spare)

def stashTake (s : Stash α) : Stash α × Option α :=
  if s.count = 0 then (s, none)
  else
    let (chunks, spare) := dropEmptyHeads s.chunks s.spare
    match chunks with
    | [] => (s, none)
    | c :: rest =>
      let (chunks, spare) := dropEmptyHeads (⟨(c.head + 1) % s.chunkCap, pred32 c.count, c.entries⟩ :: rest) spare
      ({ s with chunks := chunks, spare := spare, count := pred32 s.count },
      some (c.entries (slotAt s.chunkCap c.head)))

/-! ## The entries of a stash -/

namespace StashChunk

def contents (cap : Nat) (c : StashChunk α) : List α := Lib.window c.entries cap c.head c.count

structure Ok (cap : Nat) (c : StashChunk α) : Prop where
  head_lt : c.head < cap
  count_le : c.count ≤ cap

end StashChunk

/-- The stash holds the entries `l`, the oldest first. -/
structure Stash.Holds (cap : Nat) (s : Stash α) (l : List α) : Prop where
  cap_eq : s.chunkCap = cap
  chunks : ∀ c ∈ s.chunks, c.Ok cap
  contents : s.chunks.flatMap (contents cap) = l
  count : s.count = l.length
  short : l.length < 2 ^ 32

/-- There is room in the last chunk. -/
def Stash.HasRoom (s : Stash α) : Prop := ∃ c, s.chunks.getLast? = some c ∧ c.count < s.chunkCap

variable {cap : Nat} {s : Stash α} {l : List α}

theorem mod32_of_lt {n : Nat} (h : n < 2 ^ 32) : mod32 n = n := Nat.mod_eq_of_lt h

theorem pred32_succ {n : Nat} (h : n < 2 ^ 32) : pred32 (n + 1) = n := by
  unfold pred32 mod32
  omega

theorem contents_of_empty {c : StashChunk α} (h : c.count = 0) : c.contents cap = [] := by
  rw [contents, h, Lib.window_zero]

theorem init_holds : (stashInit cap : Stash α).Holds cap [] where
  cap_eq := rfl
  chunks c hc := by cases hc
  contents := rfl
  count := rfl
  short := Nat.two_pow_pos 32

variable {malloc : Option (Nat → α)}

theorem grow_holds (hcap : 0 < cap) (h : s.Holds cap l) (hok : (stashGrow s malloc).2 = true) :
    (stashGrow s malloc).1.Holds cap l ∧ (stashGrow s malloc).1.HasRoom := by
  obtain ⟨entries, spare, hnew⟩ : ∃ entries spare, chunkTakeOrNew s malloc = some (⟨0, 0, entries⟩, spare) := by
    unfold stashGrow at hok
    unfold chunkTakeOrNew at hok ⊢
    cases hspare : s.spare with
    | some c => exact ⟨_, _, rfl⟩
    | none =>
      cases hmalloc : malloc with
      | some entries => exact ⟨_, _, rfl⟩
      | none => simp [hspare, hmalloc] at hok
  have hgrow : stashGrow s malloc = ({ s with chunks := s.chunks ++ [⟨0, 0, entries⟩], spare := spare }, true) := by
    simp only [stashGrow, hnew]
  rw [hgrow]
  refine ⟨⟨h.cap_eq, fun c hc => ?_, ?_, h.count, h.short⟩, ⟨0, 0, entries⟩, by simp, ?_⟩
  · rcases mem_append.mp hc with hc | hc
    · exact h.chunks c hc
    · rw [mem_singleton.mp hc]
      exact ⟨hcap, Nat.zero_le _⟩
  · rw [flatMap_append, h.contents]
    simp [contents]
  · exact h.cap_eq ▸ hcap

theorem grow_refused (hno : (stashGrow s malloc).2 = false) : (stashGrow s malloc).1 = s := by
  unfold stashGrow at hno ⊢
  split at hno
  · cases hno
  · rfl

theorem reserve_holds (hcap : 0 < cap) (h : s.Holds cap l) (hok : (stashReserve s malloc).2 = true) :
    (stashReserve s malloc).1.Holds cap l ∧ (stashReserve s malloc).1.HasRoom := by
  unfold stashReserve at hok ⊢
  rw [if_neg (by rw [h.cap_eq]; exact Nat.ne_of_gt hcap)] at hok ⊢
  cases htail : s.chunks.getLast? with
  | none =>
    simp only [htail] at hok ⊢
    exact grow_holds hcap h hok
  | some tail =>
    simp only [htail] at hok ⊢
    by_cases hroom : tail.count < s.chunkCap
    · rw [if_pos hroom]
      exact ⟨h, tail, htail, hroom⟩
    · rw [if_neg hroom] at hok ⊢
      exact grow_holds hcap h hok

theorem reserve_refused (hno : (stashReserve s malloc).2 = false) : (stashReserve s malloc).1 = s := by
  unfold stashReserve at hno ⊢
  split
  · rfl
  rename_i hcap
  rw [if_neg hcap] at hno
  split
  · rename_i tail htail
    simp only [htail] at hno
    split
    · rfl
    · rename_i hroom
      rw [if_neg hroom] at hno
      exact grow_refused hno
  · rename_i htail
    simp only [htail] at hno
    exact grow_refused hno

theorem put_holds (hmax : cap ≤ 2 ^ 31) (h : s.Holds cap l) (hroom : s.HasRoom) (hshort : l.length + 1 < 2 ^ 32)
    (e : α) : (stashPut s e).Holds cap (l ++ [e]) := by
  obtain ⟨c, htail, hcount⟩ := hroom
  obtain ⟨front, hfront⟩ := getLast?_eq_some_iff.mp htail
  have hc : c.Ok cap := h.chunks c (hfront ▸ mem_append_right _ (mem_singleton_self _))
  rw [h.cap_eq] at hcount
  have hhead := hc.head_lt
  have hslot : slotAt s.chunkCap (c.head + c.count) = (c.head + c.count) % cap := by
    rw [slotAt, mod32_of_lt (by omega), h.cap_eq]
  have hnext : mod32 (c.count + 1) = c.count + 1 := mod32_of_lt (by omega)
  have hput : stashPut s e = { s with
      chunks := front ++ [⟨c.head, c.count + 1, Function.update c.entries ((c.head + c.count) % cap) e⟩]
      count := mod32 (s.count + 1) } := by
    unfold stashPut
    rw [htail]
    dsimp only
    rw [hslot, hnext, hfront, dropLast_concat]
  rw [hput]
  refine ⟨h.cap_eq, fun c' hc' => ?_, ?_, ?_, ?_⟩
  · rcases mem_append.mp hc' with hc' | hc'
    · exact h.chunks c' (hfront ▸ mem_append_left _ hc')
    · rw [mem_singleton.mp hc']
      exact ⟨hhead, hcount⟩
  · rw [← h.contents, hfront, flatMap_append, flatMap_append, append_assoc]
    simp only [flatMap_cons, flatMap_nil, append_nil, contents, Lib.window_push hcount]
  · rw [h.count, mod32_of_lt hshort, length_append, length_singleton]
  · rw [length_append, length_singleton]
    exact hshort

/-- Dropping the empty chunks in front leaves the entries; then the first chunk has one unless there is none. -/
theorem dropEmptyHeads_spec (hcap : 0 < cap) (chunks : List (StashChunk α)) (spare : Option (StashChunk α))
    (h : ∀ c ∈ chunks, c.Ok cap) : (∀ c ∈ (dropEmptyHeads chunks spare).1, c.Ok cap) ∧
    (dropEmptyHeads chunks spare).1.flatMap (contents cap) = chunks.flatMap (contents cap) ∧
    (chunks.flatMap (contents cap) ≠ [] → ∃ c rest, (dropEmptyHeads chunks spare).1 = c :: rest ∧ 0 < c.count) := by
  induction chunks generalizing spare with
  | nil => exact ⟨h, rfl, fun hne => absurd rfl hne⟩
  | cons c rest ih =>
    cases rest with
    | nil =>
      by_cases hempty : c.count = 0
      · have hdrop : dropEmptyHeads [c] spare = ([{ c with head := 0 }], spare) := by simp [dropEmptyHeads, hempty]
        have hnone : [c].flatMap (contents cap) = [] := by simp [contents_of_empty hempty]
        rw [hdrop]
        refine ⟨fun c' hc' => ?_, ?_, fun hne => absurd hnone hne⟩
        · rw [mem_singleton.mp hc']
          exact ⟨hcap, (h c mem_cons_self).count_le⟩
        · rw [hnone, flatMap_singleton]
          exact contents_of_empty hempty
      · have hdrop : dropEmptyHeads [c] spare = ([c], spare) := by simp [dropEmptyHeads, hempty]
        rw [hdrop]
        exact ⟨h, rfl, fun _ => ⟨c, [], rfl, Nat.pos_of_ne_zero hempty⟩⟩
    | cons d rest =>
      by_cases hempty : c.count = 0
      · rw [dropEmptyHeads, if_pos hempty, flatMap_cons, contents_of_empty hempty, nil_append]
        exact ih _ fun c' hc' => h c' (mem_cons_of_mem _ hc')
      · rw [dropEmptyHeads, if_neg hempty]
        exact ⟨h, rfl, fun _ => ⟨c, d :: rest, rfl, Nat.pos_of_ne_zero hempty⟩⟩

theorem take_holds (hcap : 0 < cap) (hmax : cap ≤ 2 ^ 31) (h : s.Holds cap l) :
    (stashTake s).2 = l.head? ∧ (stashTake s).1.Holds cap l.tail := by
  cases l with
  | nil =>
    have hzero : s.count = 0 := h.count
    rw [stashTake, if_pos hzero]
    exact ⟨rfl, h⟩
  | cons x l =>
    have hcount : s.count ≠ 0 := by simp [h.count]
    obtain ⟨hok, hsame, hfirst⟩ := dropEmptyHeads_spec hcap s.chunks s.spare h.chunks
    obtain ⟨c, rest, hchunks, hpos⟩ := hfirst (by simp [h.contents])
    rw [stashTake, if_neg hcount]
    rcases hdrop : dropEmptyHeads s.chunks s.spare with ⟨chunks, spare⟩
    rw [hdrop] at hok hsame hchunks
    subst hchunks
    have hc := hok c mem_cons_self
    have hcountle := hc.count_le
    have hheadlt := hc.head_lt
    obtain ⟨n, hn⟩ : ∃ n, c.count = n + 1 := ⟨c.count - 1, by omega⟩
    rw [h.contents, flatMap_cons, contents, hn, Lib.window_cons, cons_append] at hsame
    obtain ⟨hx, hl⟩ := List.cons.inj hsame
    have hslot : slotAt s.chunkCap c.head = c.head % cap := by rw [slotAt, mod32_of_lt (by omega), h.cap_eq]
    have hnext : (⟨(c.head + 1) % s.chunkCap, pred32 c.count, c.entries⟩ : StashChunk α).Ok cap := by
      rw [hn, pred32_succ (by omega), h.cap_eq]
      have hless : n ≤ cap := by omega
      exact ⟨Nat.mod_lt _ hcap, hless⟩
    obtain ⟨hok', hsame', -⟩ := dropEmptyHeads_spec hcap
      (⟨(c.head + 1) % s.chunkCap, pred32 c.count, c.entries⟩ :: rest) spare fun c' hc' => by
        rcases mem_cons.mp hc' with rfl | hc'
        · exact hnext
        · exact hok c' (mem_cons_of_mem _ hc')
    have hshort := h.short
    rw [length_cons] at hshort
    refine ⟨by simp [hslot, hx], h.cap_eq, hok', ?_, ?_, by simpa using by omega⟩
    · rw [hsame', flatMap_cons, contents, hn, pred32_succ (by omega), h.cap_eq]
      exact hl
    · change pred32 s.count = l.length
      rw [h.count, length_cons, pred32_succ (by omega)]

/-! ## Runs -/

inductive StashOp (α : Type) where
  | put (malloc : Option (Nat → α)) (entry : α)
  | take

/-- One call; also the entries that were accepted and those that were taken so far. -/
def StashOp.step (x : Stash α × List α × List α) : StashOp α → Stash α × List α × List α
  | .put malloc e =>
    let r := stashReserve x.1 malloc
    if r.2 then (stashPut r.1 e, x.2.1 ++ [e], x.2.2) else (r.1, x.2)
  | .take => ((stashTake x.1).1, x.2.1, x.2.2 ++ (stashTake x.1).2.toList)

/-- What was accepted is what was taken, in order, and then the at most `n` entries of the stash. -/
def Fifo (cap n : Nat) (x : Stash α × List α × List α) : Prop :=
  ∃ l, x.1.Holds cap l ∧ x.2.1 = x.2.2 ++ l ∧ l.length ≤ n

theorem Fifo.step (hcap : 0 < cap) (hmax : cap ≤ 2 ^ 31) {n : Nat} {x : Stash α × List α × List α} (h : Fifo cap n x)
    (hn : n + 1 < 2 ^ 32) (op : StashOp α) : Fifo cap (n + 1) (op.step x) := by
  obtain ⟨l, hl, heq, hlen⟩ := h
  cases op with
  | put malloc e =>
    rw [StashOp.step]
    by_cases hok : (stashReserve x.1 malloc).2 = true
    · obtain ⟨hres, hroom⟩ := reserve_holds hcap hl hok
      simp only [if_pos hok]
      exact ⟨l ++ [e], put_holds hmax hres hroom (by omega) e, by rw [heq, append_assoc], by simpa using hlen⟩
    · simp only [if_neg hok]
      rw [reserve_refused (Bool.eq_false_of_not_eq_true hok)]
      exact ⟨l, hl, heq, by omega⟩
  | take =>
    obtain ⟨htaken, hrest⟩ := take_holds hcap hmax hl
    refine ⟨l.tail, hrest, ?_, by rw [length_tail]; omega⟩
    rw [StashOp.step, htaken, heq]
    cases l <;> simp

def anyMemory : Option (Nat → Nat) := some fun _ => 0

/-- Two chunks of two slots; the first one runs empty and takes the last entry, when there is no memory. -/
def refilling : List (StashOp Nat) :=
  [.put anyMemory 1, .put none 2, .put anyMemory 3, .take, .take, .put none 4, .put none 5, .take]

end

end BoxOS.Ipc
