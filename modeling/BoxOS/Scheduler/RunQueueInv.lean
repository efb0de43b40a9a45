import BoxOS.Scheduler.RunQueue
import Mathlib.Algebra.Order.BigOperators.Group.Finset

/-! # What the operations of a run queue do to its contents

`RqState.Holds s ls` says that the queue of priority `i` holds the processes `ls i` in order and that each of them
knows its slot. Every operation is described by what it does to `ls`; the two that move a queue to another array do
so only when no process changes its slot. -/

set_option linter.unusedSectionVars false
open Function (update update_of_ne update_self)

namespace BoxOS.Scheduler

open Lib List Option SchedQueue

variable {P : Type}

theorem castSigned_of_lt {w n : Nat} (h : 2 * n < 2 ^ w) : castSigned w n = n := by
  rw [castSigned, Int.bmod_eq_of_le] <;> omega

theorem dec32_of_pos {n : Nat} (h : 0 < n) : dec32 n = n - 1 := by
  rw [dec32, if_neg (by omega)]

theorem inc32_of_lt {n : Nat} (h : n < 2 ^ 32 - 1) : inc32 n = n + 1 := by
  rw [inc32, if_neg (by omega)]

theorem testBit_clearMask {prio : Nat} (h : prio < 32) (i : Nat) :
    (clearMask prio).testBit i = decide (i < 32 ∧ i ≠ prio) := by
  rw [clearMask, Nat.testBit_xor, Nat.testBit_two_pow_sub_one, Nat.testBit_two_pow]
  by_cases hi : prio = i
  · subst hi
    simp [h]
  · have hne : i ≠ prio := fun he => hi he.symm
    simp [hi, hne]

theorem testBit_log2_max {b : Nat} (h : b ≠ 0) : b.testBit b.log2 = true ∧ ∀ j, b.log2 < j → b.testBit j = false := by
  refine ⟨Nat.testBit_log2 h, fun j hj => Nat.testBit_lt_two_pow ?_⟩
  exact Nat.lt_of_lt_of_le Nat.lt_log2_self (Nat.pow_le_pow_right (by decide) hj)

def SchedQueue.slots (q : SchedQueue P) : Nat → Option P :=
  q.procs.getD fun _ => none

/-- The processes of a queue, from its head on. -/
def SchedQueue.contents (q : SchedQueue P) : List P :=
  (window q.slots q.capacity q.head q.count).filterMap id

def RqState.contents (s : RqState P) (prio : Nat) : List P :=
  (s.rq.queues prio).contents

/-- The circular buffer is well formed and holds `l`. -/
structure SchedQueue.Holds (q : SchedQueue P) (l : List P) : Prop where
  count : q.count = l.length
  max : q.capacity ≤ runqueueMaxCap
  fits : q.count ≤ q.capacity
  present : q.procs.isSome = true ↔ 0 < q.capacity
  head : 0 < q.capacity → q.head < q.capacity
  tail : q.tail = (q.head + q.count) % q.capacity
  window : window q.slots q.capacity q.head q.count = l.map some

/-- Every process of the queue knows its priority and its slot. -/
def SchedQueue.Named (q : SchedQueue P) (prio : Nat) (proc : P → RqFields) : Prop :=
  ∀ k < q.count, ∀ p, q.slots ((q.head + k) % q.capacity) = some p →
    proc p = ⟨prio, ((q.head + k) % q.capacity : Nat)⟩

structure RqState.Holds (s : RqState P) (ls : Nat → List P) : Prop where
  queues : ∀ i < schedPrioLevels, (s.rq.queues i).Holds (ls i)
  named : ∀ i < schedPrioLevels, (s.rq.queues i).Named i s.proc
  bitmap : ∀ i, s.rq.activeBitmap.testBit i = decide (i < schedPrioLevels ∧ ls i ≠ [])
  total : s.rq.total = ∑ i ∈ Finset.range schedPrioLevels, (ls i).length

/-- `RqState.Holds`, where the processes know their slots only when `known`: a queue that is copied into another array
may put them in other slots. -/
structure RqState.HoldsWhen (known : Prop) (s : RqState P) (ls : Nat → List P) : Prop where
  queues : ∀ i < schedPrioLevels, (s.rq.queues i).Holds (ls i)
  named : known → ∀ i < schedPrioLevels, (s.rq.queues i).Named i s.proc
  bitmap : ∀ i, s.rq.activeBitmap.testBit i = decide (i < schedPrioLevels ∧ ls i ≠ [])
  total : s.rq.total = ∑ i ∈ Finset.range schedPrioLevels, (ls i).length

variable {s : RqState P} {ls : Nat → List P} {q : SchedQueue P} {l : List P}

theorem RqState.Holds.when (h : s.Holds ls) : s.HoldsWhen True ls :=
  ⟨h.queues, fun _ => h.named, h.bitmap, h.total⟩

theorem RqState.HoldsWhen.holds {known : Prop} (h : s.HoldsWhen known ls) (hk : known) : s.Holds ls :=
  ⟨h.queues, h.named hk, h.bitmap, h.total⟩

theorem SchedQueue.Holds.contents_eq (h : q.Holds l) : q.contents = l := by
  rw [contents, h.window, filterMap_map]
  simp

theorem RqState.Holds.contents_eq (h : s.Holds ls) {i : Nat} (hi : i < schedPrioLevels) : s.contents i = ls i :=
  (h.queues i hi).contents_eq

theorem SchedQueue.Holds.slot (h : q.Holds l) {k : Nat} {p : P} :
    l[k]? = some p ↔ k < q.count ∧ q.slots ((q.head + k) % q.capacity) = some p := by
  by_cases hk : k < q.count
  · have hw : (Lib.window q.slots q.capacity q.head q.count)[k]? = some (q.slots ((q.head + k) % q.capacity)) :=
      getElem?_window hk
    rw [h.window, getElem?_map] at hw
    cases hl : l[k]? with
    | none => simp [hl] at hw
    | some x =>
      rw [hl, Option.map_some, some.injEq] at hw
      simp [hk, ← hw]
  · rw [getElem?_eq_none (by rw [← h.count]; omega)]
    simp [hk]

theorem SchedQueue.Holds.mem (h : q.Holds l) {p : P} :
    p ∈ l ↔ ∃ k < q.count, q.slots ((q.head + k) % q.capacity) = some p := by
  rw [mem_iff_getElem?]
  exact exists_congr fun k => h.slot

theorem SchedQueue.Holds.pos (h : q.Holds l) (hl : l ≠ []) : 0 < q.count ∧ 0 < q.capacity := by
  have hlen := length_pos_of_ne_nil hl
  have hc := h.count
  have hf := h.fits
  omega

theorem SchedQueue.Holds.procs (h : q.Holds l) (hcap : 0 < q.capacity) : q.procs = some q.slots := by
  obtain ⟨a, ha⟩ := isSome_iff_exists.mp (h.present.mpr hcap)
  rw [slots, ha]
  rfl

theorem RqState.Holds.fields (h : s.Holds ls) {i : Nat} {p : P} (hi : i < schedPrioLevels) (hp : p ∈ ls i) :
    ∃ k < (s.rq.queues i).count,
      (s.rq.queues i).slots (((s.rq.queues i).head + k) % (s.rq.queues i).capacity) = some p ∧
      s.proc p = ⟨i, (((s.rq.queues i).head + k) % (s.rq.queues i).capacity : Nat)⟩ := by
  obtain ⟨k, hk, hslot⟩ := (h.queues i hi).mem.mp hp
  exact ⟨k, hk, hslot, h.named i hi k hk p hslot⟩

theorem RqState.Holds.prio_unique (h : s.Holds ls) {i j : Nat} {p : P}
    (hi : i < schedPrioLevels) (hj : j < schedPrioLevels) (hpi : p ∈ ls i) (hpj : p ∈ ls j) : i = j := by
  obtain ⟨_, -, -, hfi⟩ := h.fields hi hpi
  obtain ⟨_, -, -, hfj⟩ := h.fields hj hpj
  exact Int.natCast_inj.mp (congrArg RqFields.prio (hfi.symm.trans hfj))

theorem RqState.Holds.nodup (h : s.Holds ls) {i : Nat} (hi : i < schedPrioLevels) : (ls i).Nodup := by
  rw [nodup_iff_getElem?_ne_getElem?]
  intro k l hkl hl heq
  have hq := h.queues i hi
  rw [getElem?_eq_getElem hl] at heq
  obtain ⟨hk', hsk⟩ := hq.slot.mp heq
  obtain ⟨hl', hsl⟩ := hq.slot.mp (getElem?_eq_getElem hl)
  have hidx := (h.named i hi k hk' _ hsk).symm.trans (h.named i hi l hl' _ hsl)
  have hpos : ((s.rq.queues i).head + k) % (s.rq.queues i).capacity =
      ((s.rq.queues i).head + l) % (s.rq.queues i).capacity := by
    exact Int.natCast_inj.mp (congrArg RqFields.index hidx)
  have hf := hq.fits
  have := ring_inj (by omega) (by omega) hpos
  omega

/-! ## One queue -/

section queue

variable [DecidableEq P] {q : SchedQueue P} {l : List P} {prio : Nat} {proc : P → RqFields}

theorem SchedQueue.slots_map (q : SchedQueue P) (hcap : q.procs = some q.slots) (f : (Nat → Option P) → Nat → Option P)
    (q' : SchedQueue P) (hq' : q'.procs = q.procs.map f) : q'.slots = f q.slots := by
  rw [slots, hq', hcap]
  rfl

/-- The queue behind an enqueue. -/
def SchedQueue.pushed (q : SchedQueue P) (p : P) : SchedQueue P :=
  { q with
    procs := q.procs.map fun a => update a q.tail (some p)
    tail := (q.tail + 1) % q.capacity
    count := inc32 q.count }

theorem SchedQueue.Holds.lt_two_pow (h : q.Holds l) : q.count < 2 ^ 32 - 1 := by
  have hm := h.max
  have hf := h.fits
  unfold runqueueMaxCap at hm
  omega

theorem SchedQueue.Holds.push (h : q.Holds l) (hroom : q.count < q.capacity) (p : P) :
    (q.pushed p).Holds (l ++ [p]) := by
  have hprocs := h.procs (by omega)
  have hslots : (q.pushed p).slots = update q.slots q.tail (some p) :=
    q.slots_map hprocs (fun a => Function.update a q.tail (some p)) _ rfl
  have hcount : (q.pushed p).count = q.count + 1 := inc32_of_lt h.lt_two_pow
  refine ⟨?_, h.max, ?_, ?_, h.head, ?_, ?_⟩
  · rw [hcount, h.count, length_append, length_singleton]
  · rw [hcount]
    exact hroom
  · simpa [pushed] using h.present
  · rw [hcount]
    simp only [pushed]
    rw [h.tail, Nat.mod_add_mod, Nat.add_assoc]
  · rw [hcount, hslots, h.tail]
    simp only [pushed]
    rw [window_push hroom, h.window, map_append, map_singleton]

theorem SchedQueue.Named.push (hn : q.Named prio proc) (h : q.Holds l) (hroom : q.count < q.capacity) {p : P}
    (hp : p ∉ l) : (q.pushed p).Named prio (update proc p ⟨prio, q.tail⟩) := by
  have hprocs := h.procs (by omega)
  have hslots : (q.pushed p).slots = update q.slots q.tail (some p) :=
    q.slots_map hprocs (fun a => Function.update a q.tail (some p)) _ rfl
  have hcount : (q.pushed p).count = q.count + 1 := inc32_of_lt h.lt_two_pow
  intro k hk x hx
  rw [hcount] at hk
  rw [hslots] at hx
  simp only [pushed] at hx ⊢
  by_cases hkc : k = q.count
  · rw [hkc, ← h.tail, update_self, some.injEq] at hx
    rw [hkc, ← h.tail, ← hx, update_self]
  have hne : (q.head + k) % q.capacity ≠ q.tail := by
    rw [h.tail]
    exact fun heq => hkc (ring_inj (by omega) (by omega) heq)
  rw [update_of_ne hne] at hx
  have hxl : x ∈ l := h.mem.mpr ⟨k, by omega, hx⟩
  have hxp : x ≠ p := fun hxp => hp (hxp ▸ hxl)
  rw [update_of_ne hxp]
  exact hn k (by omega) x hx

/-- The queue behind a pop. -/
def SchedQueue.popped (q : SchedQueue P) : SchedQueue P :=
  { q with
    procs := q.procs.map fun a => update a q.head none
    head := (q.head + 1) % q.capacity
    count := dec32 q.count }

variable {p z : P}

theorem SchedQueue.Holds.slots_head (h : q.Holds (p :: l)) : q.slots q.head = some p := by
  obtain ⟨hk, hs⟩ := h.slot.mp (getElem?_cons_zero (a := p) (l := l))
  rwa [Nat.add_zero, Nat.mod_eq_of_lt (h.head (h.pos (cons_ne_nil _ _)).2)] at hs

theorem SchedQueue.popped_slots (h : q.Holds (p :: l)) : q.popped.slots = update q.slots q.head none :=
  q.slots_map (h.procs (h.pos (cons_ne_nil _ _)).2) (fun a => Function.update a q.head none) _ rfl

theorem SchedQueue.Holds.popped_count (h : q.Holds (p :: l)) : q.popped.count = l.length := by
  have hc := h.count
  rw [length_cons] at hc
  have hd : q.popped.count = q.count - 1 := dec32_of_pos (by omega)
  omega

theorem SchedQueue.Holds.pop (h : q.Holds (p :: l)) : q.popped.Holds l := by
  obtain ⟨hpos, hcap⟩ := h.pos (cons_ne_nil _ _)
  have hhead := h.head hcap
  have hcount := h.popped_count
  have hc := h.count
  have hf := h.fits
  rw [length_cons] at hc
  refine ⟨hcount, h.max, ?_, ?_, fun _ => Nat.mod_lt _ hcap, ?_, ?_⟩
  · rw [hcount]
    simp only [popped]
    omega
  · simpa [popped] using h.present
  · rw [hcount]
    simp only [popped]
    rw [h.tail, hc, Nat.mod_add_mod, Nat.add_assoc, Nat.add_comm 1]
  · have hw := h.window
    rw [hc, window_cons, map_cons, List.cons.injEq] at hw
    rw [hcount, popped_slots h]
    simp only [popped]
    have hp : Lib.window (update q.slots (q.head % q.capacity) none) q.capacity ((q.head + 1) % q.capacity) l.length =
        Lib.window q.slots q.capacity ((q.head + 1) % q.capacity) l.length := window_pop (by omega)
    rw [Nat.mod_eq_of_lt hhead] at hp
    rw [hp, hw.2]

theorem SchedQueue.Named.pop (hn : q.Named prio proc) (h : q.Holds (p :: l)) (hp : p ∉ l) :
    q.popped.Named prio (update proc p {}) := by
  intro k hk x hx
  have hxl : x ∈ l := h.pop.mem.mpr ⟨k, hk, hx⟩
  have hxp : x ≠ p := fun hxp => hp (hxp ▸ hxl)
  rw [update_of_ne hxp]
  rw [h.popped_count] at hk
  rw [popped_slots h] at hx
  simp only [popped, Nat.mod_add_mod] at hx ⊢
  have hc := h.count
  rw [length_cons] at hc
  rw [Nat.add_assoc, Nat.add_comm 1 k] at hx ⊢
  refine hn (k + 1) (by omega) x ?_
  by_cases heq : (q.head + (k + 1)) % q.capacity = q.head
  · rw [heq, update_self] at hx
    cases hx
  · rwa [update_of_ne heq] at hx

/-! ### Taking a process out of the middle -/

/-- The queue behind the removal of the last process. -/
def SchedQueue.unpushed (q : SchedQueue P) : SchedQueue P :=
  { q with
    procs := q.procs.map fun a => update a q.lastSlot none
    tail := q.lastSlot
    count := dec32 q.count }

section

variable (h : q.Holds (l ++ [z]))

include h

theorem SchedQueue.Holds.lastSlot_eq : q.lastSlot = (q.head + l.length) % q.capacity := by
  have hc := h.count
  have hf := h.fits
  rw [length_append, length_singleton] at hc
  have hcap : 0 < q.capacity := by omega
  rw [lastSlot, h.tail, hc]
  have hsum : q.head + (l.length + 1) = q.head + l.length + 1 := rfl
  rw [hsum, Nat.add_sub_assoc (by omega), Nat.mod_add_mod]
  have hone : q.head + l.length + 1 + (q.capacity - 1) = q.head + l.length + q.capacity := by omega
  rw [hone, Nat.add_mod_right]

theorem SchedQueue.Holds.slots_lastSlot : q.slots q.lastSlot = some z := by
  rw [h.lastSlot_eq]
  refine (h.slot.mp ?_).2
  simp

theorem SchedQueue.Holds.unpushed_count : q.unpushed.count = l.length := by
  have hc := h.count
  rw [length_append, length_singleton] at hc
  have hd : q.unpushed.count = q.count - 1 := dec32_of_pos (by omega)
  omega

theorem SchedQueue.unpushed_slots : q.unpushed.slots = update q.slots q.lastSlot none :=
  q.slots_map (h.procs (h.pos (by simp)).2) (fun a => Function.update a q.lastSlot none) _ rfl

theorem SchedQueue.Holds.unpush : q.unpushed.Holds l := by
  have hcount := h.unpushed_count
  have hc := h.count
  have hf := h.fits
  rw [length_append, length_singleton] at hc
  refine ⟨hcount, h.max, ?_, ?_, h.head, ?_, ?_⟩
  · rw [hcount]
    simp only [unpushed]
    omega
  · simpa [unpushed] using h.present
  · rw [hcount]
    exact h.lastSlot_eq
  · have hw := h.window
    rw [hc, window_succ, map_append, map_singleton] at hw
    rw [hcount, unpushed_slots h]
    simp only [unpushed]
    rw [window_update]
    · exact append_inj_left' hw rfl
    · intro k hk heq
      rw [h.lastSlot_eq] at heq
      have := ring_inj (by omega) (by omega) heq
      omega

end

theorem SchedQueue.Named.unpush (hn : q.Named prio proc) (h : q.Holds (l ++ [z])) {proc' : P → RqFields}
    (hproc : ∀ x ∈ l, proc' x = proc x) : q.unpushed.Named prio proc' := by
  intro k hk x hx
  rw [hproc x (h.unpush.mem.mpr ⟨k, hk, hx⟩)]
  rw [h.unpushed_count] at hk
  rw [unpushed_slots h] at hx
  simp only [unpushed] at hx ⊢
  have hc := h.count
  rw [length_append, length_singleton] at hc
  refine hn k (by omega) x ?_
  by_cases heq : (q.head + k) % q.capacity = q.lastSlot
  · rw [heq, update_self] at hx
    cases hx
  · rwa [update_of_ne heq] at hx

/-- The queue with the process at position `k` overwritten. -/
def SchedQueue.replaced (q : SchedQueue P) (k : Nat) (z : P) : SchedQueue P :=
  { q with procs := q.procs.map fun a => update a ((q.head + k) % q.capacity) (some z) }

theorem SchedQueue.Holds.replace (h : q.Holds l) {k : Nat} (hk : k < l.length) (z : P) :
    (q.replaced k z).Holds (l.set k z) := by
  have hf := h.fits
  have hc := h.count
  have hslots : (q.replaced k z).slots = update q.slots ((q.head + k) % q.capacity) (some z) :=
    q.slots_map (h.procs (by omega)) (fun a => Function.update a ((q.head + k) % q.capacity) (some z)) _ rfl
  refine ⟨?_, h.max, h.fits, ?_, h.head, h.tail, ?_⟩
  · rw [length_set]
    exact h.count
  · simpa [replaced] using h.present
  · rw [hslots]
    simp only [replaced]
    rw [window_set (by omega) hf, h.window, map_set]

/-! ### Another array -/

theorem resizeLoop_eq (procs : Nat → Option P) {capacity : Nat} (n i idx : Nat) (new : Nat → Option P) (j : Nat)
    (hidx : n = 0 ∨ idx < capacity) : resizeLoop procs capacity n i idx new j = if i ≤ j ∧
    j < i + n then procs ((idx + (j - i)) % capacity) else new j := by
  induction n generalizing i idx new with
  | zero =>
    rw [resizeLoop, if_neg (by omega)]
  | succ n ih =>
    have hcap : idx < capacity := by omega
    rw [resizeLoop, ih _ _ _ (.inr (Nat.mod_lt _ (by omega)))]
    by_cases hj : j = i
    · rw [if_neg (by omega), if_pos (by omega), hj, update_self, Nat.sub_self, Nat.add_zero,
        Nat.mod_eq_of_lt hcap]
    rw [update_of_ne hj]
    by_cases hin : i ≤ j ∧ j < i + (n + 1)
    · rw [if_pos (by omega), if_pos hin, Nat.mod_add_mod]
      congr 2
      omega
    · rw [if_neg (by omega), if_neg hin]

theorem schedqueueResize_none (sq : SchedQueue P) (newCap : Nat) : schedqueueResize none sq newCap = none := by
  unfold schedqueueResize
  split <;> rfl

/-- A copy into another array holds the same processes. When the queue starts at the front of its array, or is empty,
they keep their slots. -/
theorem schedqueueResize_holds {kmalloc : Option (Nat → Option P)} {newCap : Nat} {q' : SchedQueue P} (h : q.Holds l)
    (hroom : q.count < newCap) (hres : schedqueueResize kmalloc q newCap = some q') :
    q'.Holds l ∧ (q.head = 0 ∨ q.count = 0 → q.Named prio proc → q'.Named prio proc) ∧ q'.capacity = newCap ∧
    q'.count = q.count := by
  unfold schedqueueResize at hres
  split at hres
  · cases hres
  rename_i hle
  split at hres
  rotate_left
  · cases hres
  rename_i fresh procs hprocs
  cases hres
  have hslots : q.slots = procs := by
    rw [slots, hprocs]
    rfl
  have hcap : 0 < q.capacity := h.present.mp (by rw [hprocs]; rfl)
  -- the first cells of the new array are those of the old one from its head on
  have hcopy : ∀ j < q.count,
      resizeLoop procs q.capacity q.count 0 q.head fresh j = q.slots ((q.head + j) % q.capacity) := by
    intro j hj
    rw [resizeLoop_eq _ _ _ _ _ _ (.inr (h.head hcap)), if_pos (by omega), Nat.sub_zero, hslots]
  refine ⟨⟨h.count, by simp only; omega, by simp only; omega, ?_, fun _ => by simp only; omega, ?_, ?_⟩, ?_, rfl, rfl⟩
  · simp only [isSome_some, true_iff]
    omega
  · simp only [Nat.zero_add]
    rw [Nat.mod_eq_of_lt hroom]
  · rw [← h.window, window_front (by simp only; omega)]
    exact map_congr_left fun j hj => hcopy j (mem_range.mp hj)
  · intro hfront hn k hk x hx
    simp only [Nat.zero_add] at hk hx ⊢
    rw [Nat.mod_eq_of_lt (by omega)] at hx ⊢
    have hf := h.fits
    have hpos : (q.head + k) % q.capacity = k := by
      have h0 : q.head = 0 := by omega
      rw [h0, Nat.zero_add, Nat.mod_eq_of_lt (by omega)]
    have hname := hn k hk x (by rw [← hcopy k hk]; exact hx)
    rwa [hpos] at hname

end queue

/-! ## The whole run queue -/

section ops

variable [DecidableEq P] {s : RqState P} {ls : Nat → List P} {prio : Nat} {known : Prop}

/-- One queue changes: the others keep their contents, as long as their processes keep their fields. -/
theorem RqState.HoldsWhen.update (h : s.HoldsWhen known ls) (hprio : prio < schedPrioLevels) {q' : SchedQueue P}
    {l' : List P} {proc' : P → RqFields} {b t : Nat} (hq : q'.Holds l') (hn : known → q'.Named prio proc')
    (hframe : known → ∀ i < schedPrioLevels, i ≠ prio → ∀ p ∈ ls i, proc' p = s.proc p)
    (hb : ∀ i, b.testBit i = if i = prio then decide (l' ≠ []) else s.rq.activeBitmap.testBit i)
    (ht : t + (ls prio).length = s.rq.total + l'.length) :
    RqState.HoldsWhen known ⟨⟨update s.rq.queues prio q', b, t⟩, proc'⟩ (update ls prio l') := by
  refine ⟨fun i hi => ?_, fun hknown i hi => ?_, fun i => ?_, ?_⟩
  · by_cases hip : i = prio
    · subst hip
      simpa only [update_self] using hq
    · simpa only [update_of_ne hip] using h.queues i hi
  · by_cases hip : i = prio
    · subst hip
      simpa only [update_self] using hn hknown
    · simp only [update_of_ne hip]
      intro k hk p hp
      rw [hframe hknown i hi hip p ((h.queues i hi).mem.mpr ⟨k, hk, hp⟩)]
      exact h.named hknown i hi k hk p hp
  · simp only
    rw [hb]
    by_cases hip : i = prio
    · subst hip
      simp [hprio]
    · rw [if_neg hip, update_of_ne hip, h.bitmap]
  · have hmem : prio ∈ Finset.range schedPrioLevels := Finset.mem_range.mpr hprio
    have hrest : ∑ i ∈ (Finset.range schedPrioLevels).erase prio, (Function.update ls prio l' i).length =
        ∑ i ∈ (Finset.range schedPrioLevels).erase prio, (ls i).length := by
      refine Finset.sum_congr rfl fun i hi => ?_
      rw [update_of_ne (Finset.ne_of_mem_erase hi)]
    have hold := h.total
    rw [← Finset.add_sum_erase _ _ hmem] at hold
    rw [← Finset.add_sum_erase _ _ hmem, hrest, update_self]
    simp only
    omega

/-- A process that is in no queue. -/
def Unqueued (ls : Nat → List P) (p : P) : Prop :=
  ∀ i < schedPrioLevels, p ∉ ls i

section

variable (h : s.HoldsWhen known ls)

include h

theorem RqState.HoldsWhen.length_le {i : Nat} (hi : i < schedPrioLevels) :
    (ls i).length ≤ runqueueMaxCap := by
  have hq := h.queues i hi
  rw [← hq.count]
  exact hq.fits.trans hq.max

theorem RqState.HoldsWhen.total_lt : s.rq.total < 2 ^ 32 - 1 := by
  have hsum := Finset.sum_le_card_nsmul _ _ _ fun i hi => h.length_le (Finset.mem_range.mp hi)
  rw [h.total]
  simp only [Finset.card_range, nsmul_eq_mul, Nat.cast_id, schedPrioLevels, runqueueMaxCap] at hsum ⊢
  omega

theorem RqState.HoldsWhen.total_pos (hprio : prio < schedPrioLevels)
    (hne : ls prio ≠ []) : 0 < s.rq.total := by
  have hlen := length_pos_of_ne_nil hne
  rw [h.total, ← Finset.add_sum_erase _ _ (Finset.mem_range.mpr hprio)]
  omega

/-- `runqueue_enqueue` of a process that is in no queue: it is appended, or nothing happens. -/
theorem RqState.HoldsWhen.enqueue {kmalloc : Option (Nat → Option P)} {p : P} {prio : Int} (hp : known → Unqueued ls p)
    (hfront : known → enqueueRoom kmalloc (s.rq.queues prio.toNat) = none ∨
    (s.rq.queues prio.toNat).count < (s.rq.queues prio.toNat).capacity ∨ (s.rq.queues prio.toNat).head = 0) :
    (runqueueEnqueue kmalloc s p prio = (s, false)) ∨
    (prio.toNat < schedPrioLevels ∧ (runqueueEnqueue kmalloc s p prio).2 = true ∧
    (∀ x, x ≠ p → (runqueueEnqueue kmalloc s p prio).1.proc x = s.proc x) ∧
    (runqueueEnqueue kmalloc s p prio).1.HoldsWhen known (Function.update ls prio.toNat (ls prio.toNat ++ [p]))) := by
  unfold runqueueEnqueue
  split
  · exact .inl rfl
  rename_i hrange
  split
  · exact .inl rfl
  rename_i a hprocs
  have hlt : prio.toNat < schedPrioLevels := by
    unfold schedPrioLevels at hrange ⊢
    omega
  have hq := h.queues prio.toNat hlt
  split
  · exact .inl rfl
  rename_i q hroom
  -- the queue with room holds the same processes
  have hsame : q.Holds (ls prio.toNat) ∧ (known → q.Named prio.toNat s.proc) ∧ q.count < q.capacity := by
    rw [hroom] at hfront
    unfold enqueueRoom at hroom
    by_cases hfull : (s.rq.queues prio.toNat).capacity ≤ (s.rq.queues prio.toNat).count
    · rw [if_pos hfull] at hroom
      generalize (if runqueueMaxCap < (s.rq.queues prio.toNat).capacity * 2 then runqueueMaxCap
        else (s.rq.queues prio.toNat).capacity * 2) = newCap at hroom
      by_cases hnew : newCap ≤ (s.rq.queues prio.toNat).count
      · rw [if_pos hnew] at hroom
        cases hroom
      rw [if_neg hnew] at hroom
      have hzero : known → (s.rq.queues prio.toNat).head = 0 := by
        intro hknown
        rcases hfront hknown with hnone | hlt' | hzero
        · cases hnone
        · omega
        · exact hzero
      obtain ⟨hq', hn', hc, hcount⟩ := schedqueueResize_holds hq (by omega) hroom
      exact ⟨hq', fun hknown => hn' (.inl (hzero hknown)) (h.named hknown _ hlt), by omega⟩
    · rw [if_neg hfull] at hroom
      cases hroom
      exact ⟨hq, fun hknown => h.named hknown _ hlt, by omega⟩
  obtain ⟨hq', hn', hlt'⟩ := hsame
  have hmax := hq'.max
  have htail : q.tail < q.capacity := by
    rw [hq'.tail]
    exact Nat.mod_lt _ (by omega)
  refine .inr ⟨hlt, rfl, fun x hx => update_of_ne hx .., ?_⟩
  have hcast8 : castSigned 8 prio.toNat = prio.toNat := by
    refine castSigned_of_lt ?_
    unfold schedPrioLevels at hlt
    omega
  have hcast16 : castSigned 16 q.tail = q.tail := by
    refine castSigned_of_lt ?_
    unfold runqueueMaxCap at hmax
    omega
  refine h.update hlt (hq'.push hlt' p) ?_ ?_ ?_ ?_
  · intro hknown
    rw [hcast8, hcast16]
    exact (hn' hknown).push hq' hlt' (hp hknown _ hlt)
  · intro hknown i hi hne x hx
    have hxp : x ≠ p := fun hxp => hp hknown i hi (hxp ▸ hx)
    exact update_of_ne hxp ..
  · intro i
    rw [Nat.testBit_or, Nat.testBit_two_pow]
    by_cases hi : i = prio.toNat
    · simp [hi]
    · have hne : ¬ prio.toNat = i := fun he => hi he.symm
      rw [if_neg hi, decide_eq_false hne, Bool.or_false]
  · rw [inc32_of_lt h.total_lt, length_append, length_singleton]
    omega

end

theorem bitmap_clear {b i : Nat} (hprio : prio < schedPrioLevels)
    (hbits : ∀ i, b.testBit i = decide (i < schedPrioLevels ∧ ls i ≠ [])) :
    (b &&& clearMask prio).testBit i = if i = prio then false else b.testBit i := by
  unfold schedPrioLevels at hprio
  rw [Nat.testBit_and, testBit_clearMask (by omega)]
  by_cases hi : i = prio
  · simp [hi]
  rw [if_neg hi, hbits]
  by_cases hi4 : i < schedPrioLevels
  · have : i < 32 := by
      unfold schedPrioLevels at hi4
      omega
    simp [hi, this]
  · simp [hi4]

open scoped List in
theorem RqState.HoldsWhen.less (h : s.HoldsWhen known ls) (hprio : prio < schedPrioLevels) {q' : SchedQueue P} {p : P}
    {l' : List P} {proc' : P → RqFields} (hperm : p :: l' ~ ls prio) (hq : q'.Holds l')
    (hn : known → q'.Named prio proc') (hframe : ∀ x, x ∉ ls prio → proc' x = s.proc x) :
    RqState.HoldsWhen known
      ⟨⟨Function.update s.rq.queues prio q',
          if l' = [] then s.rq.activeBitmap &&& clearMask prio else s.rq.activeBitmap, dec32 s.rq.total⟩, proc'⟩
      (Function.update ls prio l') := by
  have hlen := hperm.length_eq
  rw [length_cons] at hlen
  have hne : ls prio ≠ [] := ne_nil_of_length_eq_add_one hlen.symm
  have hpos := h.total_pos hprio hne
  refine h.update hprio hq hn ?_ (fun i => ?_) (by rw [dec32_of_pos hpos]; omega)
  · intro hknown i hi hip x hx
    exact hframe x fun hxi => hip ((h.holds hknown).prio_unique hi hprio hx hxi)
  · by_cases hnil : l' = []
    · rw [if_pos hnil, bitmap_clear hprio h.bitmap, hnil]
      simp
    · rw [if_neg hnil, h.bitmap]
      by_cases hi : i = prio
      · simp [hi, hprio, hne, hnil]
      · rw [if_neg hi]

/-- The process at the head of a queue is taken, and the others stay as they are. -/
theorem RqState.HoldsWhen.popHead (h : s.HoldsWhen known ls) (hprio : prio < schedPrioLevels) {p : P} {l : List P}
    (hl : ls prio = p :: l) :
    (popHead s prio).2 = some p ∧ (popHead s prio).1.HoldsWhen known (Function.update ls prio l) ∧
    (popHead s prio).1.rq.queues prio = (s.rq.queues prio).popped ∧
    (∀ x, x ≠ p → (popHead s prio).1.proc x = s.proc x) ∧ (popHead s prio).1.proc p = {} := by
  have hq : (s.rq.queues prio).Holds (p :: l) := hl ▸ h.queues prio hprio
  have hhead : ((s.rq.queues prio).procs.bind fun a => a (s.rq.queues prio).head) = some p := by
    rw [hq.procs (hq.pos (cons_ne_nil _ _)).2, bind_some]
    exact hq.slots_head
  have hless := h.less hprio (Perm.of_eq hl.symm) hq.pop
    (fun hknown => (h.named hknown prio hprio).pop hq (nodup_cons.mp (hl ▸ (h.holds hknown).nodup hprio)).1)
    fun x hx => update_of_ne (fun hxp => hx (by rw [hl, hxp]; exact mem_cons_self)) ..
  have hcount : dec32 (s.rq.queues prio).count = l.length := hq.popped_count
  unfold Scheduler.popHead
  simp only [hhead]
  refine ⟨trivial, ?_, update_self .., fun x hx => update_of_ne hx .., update_self ..⟩
  simp only [popped, hcount] at hless
  simpa only [hcount, length_eq_zero_iff] using hless

/-- Shrinking a queue in place changes none of its contents. -/
theorem RqState.HoldsWhen.shrink (h : s.HoldsWhen known ls) (hprio : prio < schedPrioLevels)
    {kmalloc : Option (Nat → Option P)}
    (hfront : known → kmalloc = none ∨ (s.rq.queues prio).capacity / 4 ≤ (s.rq.queues prio).count ∨
    (s.rq.queues prio).capacity ≤ runqueueInitialCap ∨ (s.rq.queues prio).head = 0 ∨ (s.rq.queues prio).count = 0) :
    (s.setQueue prio (shrinkRoom kmalloc (s.rq.queues prio))).HoldsWhen known ls := by
  have hq := h.queues prio hprio
  have hn := fun hknown => h.named hknown prio hprio
  have hroom : (shrinkRoom kmalloc (s.rq.queues prio)).Holds (ls prio) ∧
      (known → (shrinkRoom kmalloc (s.rq.queues prio)).Named prio s.proc) := by
    unfold shrinkRoom
    split
    · rename_i hsmall
      simp only
      generalize hnew : (if (s.rq.queues prio).capacity / 2 < runqueueInitialCap then runqueueInitialCap
        else (s.rq.queues prio).capacity / 2) = newCap
      cases hres : schedqueueResize kmalloc (s.rq.queues prio) newCap with
      | none => exact ⟨hq, hn⟩
      | some q' =>
        have hlt : (s.rq.queues prio).count < newCap := by
          split at hnew <;> omega
        have hzero : known → (s.rq.queues prio).head = 0 ∨ (s.rq.queues prio).count = 0 := by
          intro hknown
          rcases hfront hknown with hnone | hle | hle | hzero
          · rw [hnone, schedqueueResize_none] at hres
            cases hres
          · omega
          · omega
          · exact hzero
        obtain ⟨hq', hn', -, -⟩ := schedqueueResize_holds hq hlt hres
        exact ⟨hq', fun hknown => hn' (hzero hknown) (hn hknown)⟩
    · exact ⟨hq, hn⟩
  have hls : Function.update ls prio (ls prio) = ls := Function.update_eq_self ..
  have hup := h.update hprio hroom.1 hroom.2 (b := s.rq.activeBitmap) (t := s.rq.total) (fun _ _ _ _ _ _ => rfl) ?_ ?_
  · rw [hls] at hup
    exact hup
  · intro i
    by_cases hi : i = prio
    · rw [if_pos hi, h.bitmap, hi]
      simp [hprio]
    · rw [if_neg hi]
  · omega

theorem log2_prio {b : Nat} {keep : Nat → Prop} [DecidablePred keep] (hb : b ≠ 0)
    (hbits : ∀ i, b.testBit i = decide (i < schedPrioLevels ∧ keep i ∧ ls i ≠ [])) : b.log2 < schedPrioLevels ∧
    keep b.log2 ∧ (∃ p l, ls b.log2 = p :: l) ∧ ∀ j < schedPrioLevels, b.log2 < j → keep j → ls j = [] := by
  obtain ⟨hset, habove⟩ := testBit_log2_max hb
  rw [hbits, decide_eq_true_eq] at hset
  refine ⟨hset.1, hset.2.1, exists_cons_of_ne_nil hset.2.2, fun j hj hlt hkeep => ?_⟩
  have hj0 := habove j hlt
  rw [hbits, decide_eq_false_iff_not] at hj0
  by_contra hne
  exact hj0 ⟨hj, hkeep, hne⟩

/-- The shrinking at the end of `runqueue_dequeue_best` keeps every process in its slot. -/
def RqState.shrinksInPlace (s : RqState P) (kmalloc : Option (Nat → Option P)) : Prop :=
  let q := s.rq.queues s.rq.activeBitmap.log2
  kmalloc = none ∨ q.capacity / 4 ≤ q.count - 1 ∨ q.capacity ≤ runqueueInitialCap ∨
    (q.head + 1) % q.capacity = 0 ∨ q.count = 1

/-- `runqueue_dequeue_best` takes the first process of the highest priority that has one. -/
theorem RqState.HoldsWhen.dequeueBest (h : s.HoldsWhen known ls) {kmalloc : Option (Nat → Option P)}
    (hplace : known → s.shrinksInPlace kmalloc) :
    (runqueueDequeueBest kmalloc s = (s, none) ∧ ∀ i < schedPrioLevels, ls i = []) ∨ ∃ prio < schedPrioLevels, ∃ p l,
    ls prio = p :: l ∧ (∀ j < schedPrioLevels, prio < j → ls j = []) ∧ (runqueueDequeueBest kmalloc s).2 = some p ∧
    (runqueueDequeueBest kmalloc s).1.HoldsWhen known (Function.update ls prio l) ∧
    (∀ x, x ≠ p → (runqueueDequeueBest kmalloc s).1.proc x = s.proc x) ∧
    (runqueueDequeueBest kmalloc s).1.proc p = {} := by
  unfold runqueueDequeueBest
  by_cases hb : s.rq.activeBitmap = 0
  · rw [if_pos hb]
    refine .inl ⟨rfl, fun i hi => ?_⟩
    have hbit := h.bitmap i
    rw [hb, Nat.zero_testBit, eq_comm, decide_eq_false_iff_not] at hbit
    by_contra hne
    exact hbit ⟨hi, hne⟩
  rw [if_neg hb]
  obtain ⟨hprio, -, ⟨p, l, hl⟩, habove⟩ := @log2_prio P _ ls _ (fun _ => True) _ hb (by simpa using h.bitmap)
  have hq : (s.rq.queues s.rq.activeBitmap.log2).Holds (p :: l) := hl ▸ h.queues _ hprio
  obtain ⟨hpos, hcap⟩ := hq.pos (cons_ne_nil _ _)
  obtain ⟨hres, hholds, hqueue, hframe, hself⟩ := h.popHead hprio hl
  have hsome : ¬ ((s.rq.queues s.rq.activeBitmap.log2).procs.isNone = true ∨
      (s.rq.queues s.rq.activeBitmap.log2).count = 0) := by
    rw [hq.procs hcap]
    simp
    omega
  rw [if_neg hsome]
  refine .inr ⟨_, hprio, p, l, hl, fun j hj hlt => habove j hj hlt trivial, hres, ?_, hframe, hself⟩
  refine hholds.shrink hprio fun hknown => ?_
  rw [hqueue]
  have hd : (s.rq.queues s.rq.activeBitmap.log2).popped.count = (s.rq.queues s.rq.activeBitmap.log2).count - 1 :=
    dec32_of_pos hpos
  rcases hplace hknown with hnone | hle | hle | hzero | hone
  · exact .inl hnone
  · exact .inr (.inl (by rw [hd]; exact hle))
  · exact .inr (.inr (.inl hle))
  · exact .inr (.inr (.inr (.inl hzero)))
  · exact .inr (.inr (.inr (.inr (by rw [hd, hone]))))

/-- What every pop does: nothing, or the first process of one priority leaves. -/
def RqState.Pops (s : RqState P) (ls : Nat → List P) (r : RqState P × Option P) : Prop :=
  r = (s, none) ∨
  ∃ prio < schedPrioLevels, ∃ p l, ls prio = p :: l ∧ r.2 = some p ∧ r.1.Holds (update ls prio l) ∧
    (∀ x, x ≠ p → r.1.proc x = s.proc x) ∧ r.1.proc p = {}

theorem RqState.Holds.pops_dequeueBest (h : s.Holds ls) {kmalloc : Option (Nat → Option P)}
    (hplace : s.shrinksInPlace kmalloc) : s.Pops ls (runqueueDequeueBest kmalloc s) := by
  rcases h.when.dequeueBest fun _ => hplace with ⟨hnone, -⟩ | ⟨prio, hprio, p, l, hl, -, hres, hholds, hrest⟩
  · exact .inl hnone
  · exact .inr ⟨prio, hprio, p, l, hl, hres, hholds.holds trivial, hrest⟩

theorem RqState.Holds.pops_popHead (h : s.Holds ls) (hprio : prio < schedPrioLevels) {p : P} {l : List P}
    (hl : ls prio = p :: l) : s.Pops ls (Scheduler.popHead s prio) := by
  obtain ⟨hres, hholds, -, hrest⟩ := h.when.popHead hprio hl
  exact .inr ⟨prio, hprio, p, l, hl, hres, hholds.holds trivial, hrest⟩

theorem RqState.HoldsWhen.fair_prio (h : s.HoldsWhen known ls)
    (hb : s.rq.activeBitmap &&& clearMask schedPrioContext ≠ 0) :
    (s.rq.activeBitmap &&& clearMask schedPrioContext).log2 < schedPrioLevels ∧
    (s.rq.activeBitmap &&& clearMask schedPrioContext).log2 ≠ schedPrioContext ∧
    ∃ p l, ls (s.rq.activeBitmap &&& clearMask schedPrioContext).log2 = p :: l :=
    by
  obtain ⟨hprio, hne, hl, -⟩ := @log2_prio P _ ls _ (fun i => i ≠ schedPrioContext) _ hb (by
    intro i
    rw [Nat.testBit_and, h.bitmap, testBit_clearMask (by decide)]
    by_cases hi : i < schedPrioLevels
    · have : i < 32 := by
        unfold schedPrioLevels at hi
        omega
      simp [hi, this, Bool.and_comm]
    · simp [hi])
  exact ⟨hprio, hne, hl⟩

theorem RqState.Holds.pops_selectFair (h : s.Holds ls) {kmalloc : Option (Nat → Option P)}
    (hplace : s.shrinksInPlace kmalloc) : s.Pops ls (selectFair kmalloc s) := by
  unfold selectFair
  split
  · exact h.pops_dequeueBest hplace
  · rename_i hb
    obtain ⟨hprio, -, p, l, hl⟩ := h.when.fair_prio hb
    exact h.pops_popHead hprio hl

theorem RqState.Holds.pops_stealPop (h : s.Holds ls) : s.Pops ls (stealPop s) := by
  have hhead : ∀ i < schedPrioLevels, (s.rq.queues i).count ≠ 0 → ∃ p l, ls i = p :: l := by
    intro i hi hne
    refine exists_cons_of_ne_nil fun hnil => hne ?_
    rw [(h.queues i hi).count, hnil, length_nil]
  unfold stealPop
  split
  · exact .inl rfl
  split
  · rename_i hne
    obtain ⟨p, l, hl⟩ := hhead schedPrioNormal (by decide) hne
    exact h.pops_popHead (by decide) hl
  split
  · rename_i hne
    obtain ⟨p, l, hl⟩ := hhead schedPrioIdle (by decide) hne
    exact h.pops_popHead (by decide) hl
  · exact .inl rfl

theorem RqState.Holds.slotAt (h : s.Holds ls) {i : Nat} {p : P} (hi : i < schedPrioLevels) (hp : p ∈ ls i) :
    slotAt s p = some p := by
  obtain ⟨k, hk, hslot, hfields⟩ := h.fields hi hp
  have hq := h.queues i hi
  have hcap : 0 < (s.rq.queues i).capacity := by
    have hf := hq.fits
    omega
  have hlt := Nat.mod_lt ((s.rq.queues i).head + k) hcap
  unfold Scheduler.slotAt
  simp only [hfields, Int.toNat_natCast]
  rw [if_neg (by omega), hq.procs hcap, bind_some]
  exact hslot

theorem RqState.Holds.contains_of_mem (h : s.Holds ls) {i : Nat} {p : P} (hi : i < schedPrioLevels) (hp : p ∈ ls i) :
    runqueueContains s p = true := by
  obtain ⟨k, hk, hslot, hfields⟩ := h.fields hi hp
  unfold runqueueContains
  rw [if_neg, h.slotAt hi hp, decide_eq_true rfl]
  rw [hfields]
  simp only
  omega

variable {p : P}

theorem contains_of_fields (hp : s.proc p = {}) : runqueueContains s p = false := by
  unfold runqueueContains
  rw [if_pos]
  exact .inl (by rw [hp]; decide)

theorem remove_of_fields (hp : s.proc p = {}) : runqueueRemove s p = s := by
  unfold runqueueRemove
  rw [if_pos]
  exact .inl (by rw [hp]; decide)

/-- The last process of a queue takes the place of the one at position `k`, which leaves. -/
theorem SchedQueue.Named.replace_unpush {q : SchedQueue P} {l : List P} {z : P} {k : Nat} {proc : P → RqFields}
    (hn : q.Named prio proc) (h : q.Holds (l ++ [z])) (hnodup : (l ++ [z]).Nodup) (hk : l[k]? = some p) :
    (q.replaced k z).unpushed.Named prio
      (update (update proc z { proc z with index := ((q.head + k) % q.capacity : Nat) }) p {}) := by
  obtain ⟨hklen, -⟩ := List.getElem?_eq_some_iff.mp hk
  have hset : (l ++ [z]).set k z = l.set k z ++ [z] := set_append_left _ _ hklen
  have hq : (q.replaced k z).Holds (l.set k z ++ [z]) := by
    rw [← hset]
    refine h.replace ?_ z
    rw [length_append]
    omega
  have hc := h.count
  have hf := h.fits
  rw [length_append, length_singleton] at hc
  have hslots : (q.replaced k z).slots = update q.slots ((q.head + k) % q.capacity) (some z) :=
    q.slots_map (h.procs (by omega)) (fun a => Function.update a ((q.head + k) % q.capacity) (some z)) _ rfl
  have hzl : z ∉ l := by
    have hd := (nodup_append.mp hnodup).2.2
    exact fun hz => hd z hz z (mem_singleton_self z) rfl
  have hpl : p ∈ l := mem_of_getElem? hk
  intro j hj x hx
  rw [hq.unpushed_count, length_set] at hj
  have hhead : (q.replaced k z).unpushed.head = q.head := rfl
  have hcap : (q.replaced k z).unpushed.capacity = q.capacity := rfl
  rw [unpushed_slots hq, hslots, hhead, hcap] at hx
  rw [hhead, hcap]
  have hlast : (q.head + j) % q.capacity ≠ (q.replaced k z).lastSlot := by
    rw [hq.lastSlot_eq, length_set]
    intro heq
    have := ring_inj (by omega) (by omega) (show (q.head + j) % q.capacity = (q.head + l.length) % q.capacity from heq)
    omega
  rw [update_of_ne hlast] at hx
  by_cases hjk : j = k
  · rw [hjk, update_self, some.injEq] at hx
    have hzp : z ≠ p := fun hzp => hzl (hzp ▸ hpl)
    rw [hjk, ← hx, update_of_ne hzp, update_self]
    have hz := hn l.length (by omega) z (by rw [← h.lastSlot_eq]; exact h.slots_lastSlot)
    rw [hz]
  rw [update_of_ne fun heq => hjk (ring_inj (by omega) (by omega) heq)] at hx
  -- the process at `j` is neither the one that leaves nor the one that moves
  have hxl : l[j]? = some x := by
    have hxj := h.slot.mpr ⟨by omega, hx⟩
    rwa [getElem?_append_left hj] at hxj
  have hxz : x ≠ z := fun hxz => hzl (hxz ▸ mem_of_getElem? hxl)
  have hxp : x ≠ p := by
    intro hxp
    have hl := (nodup_append.mp hnodup).1
    exact hjk ((Nodup.getElem_inj_iff hl).mp (by
      rw [← some.injEq, ← getElem?_eq_getElem hj, ← getElem?_eq_getElem hklen, hxl, hk, hxp]))
  rw [update_of_ne hxp, update_of_ne hxz]
  exact hn j (by omega) x hx

/-- The queue behind the removal of its only process. -/
def SchedQueue.emptied (q : SchedQueue P) (idx : Nat) : SchedQueue P :=
  { q with procs := q.procs.map fun a => update a idx none, head := 0, tail := 0, count := dec32 q.count }

theorem SchedQueue.Holds.empty {q : SchedQueue P} (h : q.Holds [p]) (idx : Nat) : (q.emptied idx).Holds [] := by
  have hc := h.count
  rw [length_singleton] at hc
  have hcount : (q.emptied idx).count = 0 := by
    simp only [emptied]
    rw [dec32_of_pos (by omega), hc]
  refine ⟨hcount, h.max, by rw [hcount]; exact Nat.zero_le _, ?_, fun hcap => hcap, ?_, ?_⟩
  · simpa [emptied] using h.present
  · rw [hcount]
    simp [emptied]
  · rw [hcount]
    rfl

section remove

open scoped List

/-- The body of `runqueue_remove` on a used slot takes out the process in it. -/
theorem RqState.HoldsWhen.removeSlot (h : s.HoldsWhen known ls) {i k : Nat} {p : P} (hi : i < schedPrioLevels)
    (hlk : (ls i)[k]? = some p) :
    ∃ l', p :: l' ~ ls i ∧
      (removeSlot s p i (((s.rq.queues i).head + k) % (s.rq.queues i).capacity)).HoldsWhen known
        (Function.update ls i l') ∧
      (removeSlot s p i (((s.rq.queues i).head + k) % (s.rq.queues i).capacity)).proc p = {} ∧
      ∀ x, x ∉ ls i → (removeSlot s p i (((s.rq.queues i).head + k) % (s.rq.queues i).capacity)).proc x = s.proc x := by
  have hq := h.queues i hi
  have hn := fun hknown => h.named hknown i hi
  have hp : p ∈ ls i := mem_of_getElem? hlk
  obtain ⟨hk, hslot⟩ := hq.slot.mp hlk
  have hc := hq.count
  have hf := hq.fits
  have hm := hq.max
  have hcap : 0 < (s.rq.queues i).capacity := by omega
  have hhead := hq.head hcap
  have hdec : dec32 (s.rq.queues i).count = (s.rq.queues i).count - 1 := dec32_of_pos (by omega)
  have hnodup := fun hknown => (h.holds hknown).nodup hi
  have hframe : ∀ x, x ∉ ls i → Function.update s.proc p {} x = s.proc x := by
    intro x hx
    have hxp : x ≠ p := fun hxp => hx (hxp ▸ hp)
    exact update_of_ne hxp ..
  unfold Scheduler.removeSlot
  simp only
  split
  · -- it was the only one
    rename_i hzero
    obtain ⟨x, hx⟩ := length_eq_one_iff.mp (show (ls i).length = 1 by omega)
    obtain rfl : p = x := mem_singleton.mp (hx ▸ hp)
    have hperm : p :: [] ~ ls i := Perm.of_eq hx.symm
    have hless := h.less hi hperm ((hx ▸ hq).empty (((s.rq.queues i).head + k) % (s.rq.queues i).capacity))
      (fun _ j hj => ?_) hframe
    · rw [if_pos rfl] at hless
      exact ⟨[], hperm, hless, update_self .., hframe⟩
    · simp only [emptied, hdec] at hj
      omega
  · rename_i hmore
    split
    · -- it was the first
      rename_i hfirst
      have hk0 : k = 0 := by
        refine ring_inj (by omega) hcap (hfirst.trans ?_)
        rw [Nat.add_zero, Nat.mod_eq_of_lt hhead]
      subst hk0
      obtain ⟨l', hl'⟩ : ∃ l', ls i = p :: l' := by
        cases hls : ls i with
        | nil => simp [hls] at hlk
        | cons y l' =>
          rw [hls, getElem?_cons_zero, some.injEq] at hlk
          exact ⟨l', by rw [hlk]⟩
      have hne : l' ≠ [] := by
        intro hnil
        rw [hl', hnil] at hc
        simp only [length_singleton] at hc
        omega
      have hq' : (s.rq.queues i).Holds (p :: l') := hl' ▸ hq
      have hperm : p :: l' ~ ls i := Perm.of_eq hl'.symm
      have hless := h.less hi hperm hq'.pop
        (fun hknown => (hn hknown).pop hq' (nodup_cons.mp (hl' ▸ hnodup hknown)).1) hframe
      rw [if_neg hne] at hless
      rw [hfirst]
      exact ⟨l', hperm, hless, update_self .., hframe⟩
    · -- split off the last process
      obtain ⟨l', z, hl'⟩ : ∃ l' z, ls i = l' ++ [z] := by
        have hne : ls i ≠ [] := ne_nil_of_mem hp
        exact ⟨_, _, (dropLast_append_getLast hne).symm⟩
      have hq' : (s.rq.queues i).Holds (l' ++ [z]) := hl' ▸ hq
      have hlen : (ls i).length = l'.length + 1 := by rw [hl', length_append, length_singleton]
      have hne : l' ≠ [] := by
        intro hnil
        rw [hnil, length_nil] at hlen
        omega
      have hlast : lastSlot { s.rq.queues i with count := dec32 (s.rq.queues i).count } =
          (s.rq.queues i).lastSlot := rfl
      rename_i hfirst
      rw [hlast]
      split
      · -- it was the last
        rename_i hend
        have hkl : k = l'.length := by
          rw [hq'.lastSlot_eq] at hend
          exact ring_inj (by omega) (by omega) hend
        obtain rfl : z = p := by
          rw [hl', hkl] at hlk
          simpa using hlk
        have hperm : z :: l' ~ ls i := hl' ▸ (perm_append_singleton z l').symm
        have hless := h.less hi hperm hq'.unpush (fun hknown => (hn hknown).unpush hq' fun x hx => ?_) hframe
        · rw [if_neg hne] at hless
          rw [hend]
          exact ⟨l', hperm, hless, update_self .., hframe⟩
        · have hxz : x ≠ z := by
            intro hxz
            have hd := (nodup_append.mp (hl' ▸ hnodup hknown)).2.2
            exact hd x hx z (mem_singleton_self z) hxz
          exact update_of_ne hxz ..
      · -- the last process moves into the slot
        rename_i hend
        have hkl : k < l'.length := by
          rw [hq'.lastSlot_eq] at hend
          have hne' : k ≠ l'.length := fun he => hend (by rw [he])
          omega
        have hlk' : l'[k]? = some p := by
          rwa [hl', getElem?_append_left hkl] at hlk
        have hz : ((s.rq.queues i).procs.bind fun a => a (s.rq.queues i).lastSlot) = some z := by
          rw [hq.procs hcap, bind_some]
          exact hq'.slots_lastSlot
        have hperm : p :: l'.set k z ~ ls i := hl' ▸ perm_set_last hlk'
        have hcast : castSigned 16 (((s.rq.queues i).head + k) % (s.rq.queues i).capacity) =
            (((s.rq.queues i).head + k) % (s.rq.queues i).capacity : Nat) := by
          have hlt := Nat.mod_lt ((s.rq.queues i).head + k) hcap
          refine castSigned_of_lt ?_
          unfold runqueueMaxCap at hm
          omega
        have hset : (l' ++ [z]).set k z = l'.set k z ++ [z] := set_append_left _ _ hkl
        have hq'' : ((s.rq.queues i).replaced k z).unpushed.Holds (l'.set k z) := by
          refine SchedQueue.Holds.unpush (z := z) ?_
          rw [← hset]
          refine hq'.replace ?_ z
          rw [length_append]
          omega
        have hsame : ((s.rq.queues i).replaced k z).unpushed =
            { s.rq.queues i with
              procs := (s.rq.queues i).procs.map fun a => Function.update
                (Function.update a (((s.rq.queues i).head + k) % (s.rq.queues i).capacity) (some z))
                (s.rq.queues i).lastSlot none
              tail := (s.rq.queues i).lastSlot
              count := dec32 (s.rq.queues i).count } := by
          simp only [unpushed, replaced, Option.map_map]
          rfl
        rw [hz]
        have hzi : z ∈ ls i := by
          rw [hl']
          exact mem_append_right _ (mem_singleton_self z)
        have hframe' : ∀ x, x ∉ ls i → Function.update (Function.update s.proc z
            { s.proc z with index := castSigned 16 (((s.rq.queues i).head + k) % (s.rq.queues i).capacity) }) p {} x =
            s.proc x := by
          intro x hx
          have hxp : x ≠ p := fun hxp => hx (hxp ▸ hp)
          have hxz : x ≠ z := fun hxz => hx (hxz ▸ hzi)
          rw [update_of_ne hxp, update_of_ne hxz]
        refine ⟨l'.set k z, hperm, ?_, update_self .., hframe'⟩
        have hn' := fun hknown => (hn hknown).replace_unpush hq' (hl' ▸ hnodup hknown) hlk'
        rw [← hcast] at hn'
        rw [hsame] at hq'' hn'
        have hless := h.less hi hperm hq'' hn' hframe'
        rwa [if_neg (by simpa using hne)] at hless

theorem RqState.Holds.remove_eq (h : s.Holds ls) {i k : Nat} {p : P} (hi : i < schedPrioLevels) (hp : p ∈ ls i)
    (hfields : s.proc p = ⟨i, (((s.rq.queues i).head + k) % (s.rq.queues i).capacity : Nat)⟩) :
    runqueueRemove s p = Scheduler.removeSlot s p i (((s.rq.queues i).head + k) % (s.rq.queues i).capacity) := by
  have hpos : ¬ ((s.proc p).prio < 0 ∨ (s.proc p).index < 0) := by
    rw [hfields]
    simp only
    omega
  rw [runqueueRemove, if_neg hpos, if_neg (not_not_intro (h.slotAt hi hp)), hfields]
  simp only [Int.toNat_natCast]

theorem RqState.Holds.remove (h : s.Holds ls) {i : Nat} {p : P} (hi : i < schedPrioLevels) (hp : p ∈ ls i) :
    ∃ l', p :: l' ~ ls i ∧ (runqueueRemove s p).Holds (update ls i l') ∧ (runqueueRemove s p).proc p = {} ∧
      ∀ x, x ∉ ls i → (runqueueRemove s p).proc x = s.proc x := by
  obtain ⟨k, hk, hslot, hfields⟩ := h.fields hi hp
  rw [h.remove_eq hi hp hfields]
  obtain ⟨l', hperm, hholds, hrest⟩ := h.when.removeSlot hi ((h.queues i hi).slot.mpr ⟨hk, hslot⟩)
  exact ⟨l', hperm, hholds.holds trivial, hrest⟩

end remove

end ops

end BoxOS.Scheduler
