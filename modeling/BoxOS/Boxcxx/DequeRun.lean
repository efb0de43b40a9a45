import BoxOS.Lib.Runs
import BoxOS.Boxcxx.DequeOps

/-!
# Runs of deques

Any number of deques over one heap. `SeqStep` says what each operation does to sequences; an event is the operation and
whether it threw. A run in which the map of a deque grows only when no block lies outside its iterators (`Clean`) is a
run of these sequences, and every deque that it reaches is `WellKept`.
-/

namespace BoxOS.Boxcxx.BlockMap

open Lib List Option

variable {α : Type*}

/-- What is allocated, and the deques. -/
structure World (α : Type*) where
  heap : Heap
  deques : List (Deque α)

/-- Nothing yet. -/
def World.init : World α := ⟨⟨[], 0⟩, []⟩

/-- The operations of the container. -/
inductive Op (α : Type*) where
  | create (o : Throws)
  | emplaceBack (i : Nat) (v : α) (o : Throws)
  | emplaceFront (i : Nat) (v : α) (o : Throws)
  | popBack (i : Nat)
  | popFront (i : Nat)
  | insert (i pos : Nat) (vs : List (α × Throws))
  | prependRange (i : Nat) (vs : List (α × Throws))
  | erase (i pos n : Nat)
  | resize (i n : Nat) (v : α) (os : Nat → Throws)
  | shrinkToFit (i : Nat)
  | swap (i j : Nat)
  | moveNew (j : Nat)
  | moveAssign (i j : Nat)
  | clear (i : Nat)
  | destroy (i : Nat)

/-- `size`; without a map it is zero. -/
def sizeOf (k : Nat) (d : Deque α) : Nat := (d.map (Body.size k)).getD 0

/-- An operation on one deque that may throw. -/
def on (w : World α) (i : Nat) (f : Heap → Deque α → Heap × Deque α × Bool) : Option (World α × Bool) :=
  (w.deques[i]?).map fun d => (⟨(f w.heap d).1, w.deques.set i (f w.heap d).2.1⟩, (f w.heap d).2.2)

/-- An operation on one deque that does nothing when there is no map. -/
def quiet (f : Heap → Body α → Heap × Body α) (h : Heap) (d : Deque α) : Heap × Deque α × Bool :=
  match d with
  | none => (h, none, false)
  | some b => ((f h b).1, some (f h b).2, false)

/-- The size of a deque passes a test. -/
def sized (k : Nat) (w : World α) (i : Nat) (p : Nat → Bool) : Bool := (w.deques[i]?).any fun d => p (sizeOf k d)

/-- One operation: the world after it, and whether it threw. An element that is taken out, erased or pointed to exists.
-/
def next (k : Nat) (w : World α) : Op α → Option (World α × Bool)
  | .create o =>
    match initMap w.heap o with
    | (h, none) => some (⟨h, w.deques⟩, true)
    | (h, some b) => some (⟨h, w.deques ++ [some b]⟩, false)
  | .emplaceBack i v o => on w i fun h d => emplaceBack k h d v o
  | .emplaceFront i v o => on w i fun h d => emplaceFront k h d v o
  | .popBack i => if sized k w i (0 < ·) then on w i (quiet (popBack k)) else none
  | .popFront i => if sized k w i (0 < ·) then on w i (quiet (popFront k)) else none
  | .insert i pos vs => if sized k w i (pos ≤ ·) then on w i fun h d => insert k h d pos vs else none
  | .prependRange i vs => on w i fun h d => prependRange k h d vs
  | .erase i pos n =>
    if sized k w i (pos + n ≤ ·) then on w i (quiet fun h b => erase k h b pos n) else none
  | .resize i n v os => on w i fun h d => resize k h d n v os
  | .shrinkToFit i => on w i (quiet shrinkToFit)
  | .swap i j =>
    (w.deques[i]?).bind fun d => (w.deques[j]?).map fun e => ({ w with deques := (w.deques.set i e).set j d }, false)
  | .moveNew j => (w.deques[j]?).map fun d => ({ w with deques := w.deques.set j none ++ [d] }, false)
  | .moveAssign i j =>
    if i = j then some (w, false)
    else (w.deques[i]?).bind fun d => (w.deques[j]?).map fun e =>
      (⟨teardown k w.heap d, (w.deques.set i e).set j none⟩, false)
  | .clear i => on w i (quiet (clear k))
  | .destroy i => (w.deques[i]?).map fun d => (⟨teardown k w.heap d, w.deques.eraseIdx i⟩, false)

/-- One operation, with its outcome. -/
def Step (k : Nat) (w : World α) (e : Op α × Bool) (w' : World α) : Prop := next k w e.1 = some (w', e.2)

/-- Whenever the map of a deque grows, no block lies outside the iterators. -/
def Clean (k : Nat) (w : World α) (e : Op α × Bool) : Prop :=
  match e.1 with
  | .emplaceBack i _ o => ∀ d ∈ w.deques[i]?, EmplaceClean k true d o
  | .emplaceFront i _ o => ∀ d ∈ w.deques[i]?, EmplaceClean k false d o
  | .insert i _ vs => ∀ d ∈ w.deques[i]?, AllClean k true w.heap d vs
  | .prependRange i vs => ∀ d ∈ w.deques[i]?, AllClean k false w.heap d vs
  | .resize i n v os => ∀ d ∈ w.deques[i]?,
    AllClean k true w.heap d ((List.range (n - sizeOf k d)).map fun j => (v, os j))
  | _ => True

/-! ## Sequences -/

/-- What an operation does to the sequences, when it throws and when it does not. -/
def SeqStep (m : List (List α)) (e : Op α × Bool) (m' : List (List α)) : Prop :=
  match e.1 with
  | .create o => if e.2 then o.Any ∧ m' = m else m' = m ++ [[]]
  | .emplaceBack i v o => ∃ s, m[i]? = some s ∧ if e.2 then o.Any ∧ m' = m else m' = m.set i (s ++ [v])
  | .emplaceFront i v o => ∃ s, m[i]? = some s ∧ if e.2 then o.Any ∧ m' = m else m' = m.set i (v :: s)
  | .popBack i => e.2 = false ∧ ∃ s v, m[i]? = some (s ++ [v]) ∧ m' = m.set i s
  | .popFront i => e.2 = false ∧ ∃ s v, m[i]? = some (v :: s) ∧ m' = m.set i s
  | .insert i pos vs => ∃ s, m[i]? = some s ∧ pos ≤ s.length ∧
    if e.2 then (∃ v ∈ vs, v.2.Any) ∧ ∃ c < vs.length, m' = m.set i (s ++ (vs.take c).map Prod.fst)
    else m' = m.set i (s.take pos ++ vs.map Prod.fst ++ s.drop pos)
  | .prependRange i vs => ∃ s, m[i]? = some s ∧
    if e.2 then (∃ v ∈ vs, v.2.Any) ∧ ∃ c < vs.length, m' = m.set i (((vs.take c).map Prod.fst).reverse ++ s)
    else m' = m.set i (vs.map Prod.fst ++ s)
  | .erase i pos n => e.2 = false ∧ ∃ s, m[i]? = some s ∧ pos + n ≤ s.length ∧
    m' = m.set i (s.take pos ++ s.drop (pos + n))
  | .resize i n v os => ∃ s, m[i]? = some s ∧
    if e.2 then (∃ j, (os j).Any) ∧ ∃ c, s.length + c < n ∧ m' = m.set i (s ++ replicate c v)
    else m' = m.set i (s.take n ++ replicate (n - s.length) v)
  | .shrinkToFit i => e.2 = false ∧ i < m.length ∧ m' = m
  | .swap i j => e.2 = false ∧ ∃ s t, m[i]? = some s ∧ m[j]? = some t ∧ m' = (m.set i t).set j s
  | .moveNew j => e.2 = false ∧ ∃ s, m[j]? = some s ∧ m' = m.set j [] ++ [s]
  | .moveAssign i j => e.2 = false ∧
    (i = j ∧ m' = m ∨ i ≠ j ∧ i < m.length ∧ ∃ s, m[j]? = some s ∧ m' = (m.set i s).set j [])
  | .clear i => e.2 = false ∧ i < m.length ∧ m' = m.set i []
  | .destroy i => e.2 = false ∧ i < m.length ∧ m' = m.eraseIdx i

/-- What lies between `begin` and `end`; without a map nothing does. -/
def elements (k : Nat) (d : Deque α) : List (Option α) := d.elim [] (Body.elems k)

/-- The elements, as far as they are constructed. -/
def values (k : Nat) (d : Deque α) : List α := (elements k d).filterMap id

/-- The sequences of the deques. -/
def seqs (k : Nat) (w : World α) : List (List α) := w.deques.map (values k)

section Steps

variable {k n i j : Nat} {w w' : World α} {d e : Deque α} {vs us : List α} {h' : Heap}

theorem elements_of_holds (hd : Holds k d vs) : elements k d = vs.map some := by
  cases d with
  | none =>
    have hvs : vs = [] := hd
    rw [hvs]
    rfl
  | some b => exact Body.Holds.elements hd

theorem values_of_holds (hd : Holds k d vs) : values k d = vs := by
  unfold values
  rw [elements_of_holds hd, filterMap_map]
  exact filterMap_some

theorem holds_values (hd : Holds k d vs) : Holds k d (values k d) := by
  rw [values_of_holds hd]
  exact hd

/-- Every deque has elements, and what is allocated is what the deques own. -/
structure Inv (k : Nat) (w : World α) : Prop where
  holds : ∀ d ∈ w.deques, Holds k d (values k d)
  fresh : w.heap.Fresh
  owned : ∀ x, w.heap.live.count x = total (owns · x) w.deques

theorem inv_init : Inv k (World.init : World α) :=
  ⟨nofun, ⟨nodup_nil, nofun⟩, fun _ => rfl⟩

namespace Inv

theorem at_holds (h : Inv k w) (hi : w.deques[i]? = some d) : Holds k d (values k d) := h.holds d (mem_of_getElem? hi)

theorem owns_le (h : Inv k w) (hi : w.deques[i]? = some d) (x : Nat) : owns d x ≤ w.heap.live.count x := by
  rw [h.owned]
  exact le_total (owns · x) (mem_of_getElem? hi)

theorem holds_set {ds : List (Deque α)} (h : ∀ d ∈ ds, Holds k d (values k d)) (hd : Holds k d vs) :
    ∀ e ∈ ds.set i d, Holds k e (values k e) := by
  intro e he
  rcases mem_or_eq_of_mem_set he with he | rfl
  · exact h e he
  · exact holds_values hd

theorem holds_none (k : Nat) : Holds k (none : Deque α) [] := rfl

theorem set (h : Inv k w) (hi : w.deques[i]? = some d) (hmoves : Moves k w.heap d h' e vs) :
    Inv k ⟨h', w.deques.set i e⟩ ∧ seqs k ⟨h', w.deques.set i e⟩ = (seqs k w).set i vs := by
  obtain ⟨hfresh, hcount⟩ := hmoves.2 h.fresh (h.owns_le hi)
  refine ⟨⟨holds_set h.holds hmoves.1, hfresh, fun x => ?_⟩, ?_⟩
  · have hset := total_set (owns · x) hi e
    have := hcount x
    have := h.owned x
    show h'.live.count x = total (owns · x) (w.deques.set i e)
    omega
  · show (w.deques.set i e).map (values k) = _
    rw [map_set, values_of_holds hmoves.1]
    rfl

theorem seq_at (hi : w.deques[i]? = some d) : (seqs k w)[i]? = some (values k d) := by
  unfold seqs
  rw [getElem?_map, hi]
  rfl

/-- **An operation on one deque** does to its sequence what it does there. -/
theorem on (h : Inv k w) {f : Heap → Deque α → Heap × Deque α × Bool} {t : Bool} (hn : BlockMap.on w i f = some (w', t))
    {Q : List α → Bool → List α → Prop} (hf : ∀ d s, w.deques[i]? = some d → Holds k d s →
    ∃ s', Moves k w.heap d (f w.heap d).1 (f w.heap d).2.1 s' ∧ Q s (f w.heap d).2.2 s') :
    Inv k w' ∧ ∃ s s', (seqs k w)[i]? = some s ∧ Q s t s' ∧ seqs k w' = (seqs k w).set i s' := by
  obtain ⟨d, hi, hw⟩ := map_eq_some_iff.mp hn
  cases hw
  obtain ⟨s', hmoves, hq⟩ := hf d (values k d) hi (h.at_holds hi)
  obtain ⟨hinv, hseqs⟩ := h.set hi hmoves
  exact ⟨hinv, _, s', seq_at hi, hq, hseqs⟩

end Inv

theorem sized_iff {p : Nat → Bool} (hi : w.deques[i]? = some d) (hd : Holds k d vs) : sized k w i p = p vs.length := by
  unfold sized
  rw [hi]
  show p (sizeOf k d) = _
  unfold sizeOf
  rw [size_of_holds hd]

/-- What cannot throw, on one deque; a deque with no map has nothing to go. -/
theorem Inv.onQuiet (h : Inv k w) {f : Heap → Body α → Heap × Body α} {t : Bool}
    (hn : BlockMap.on w i (quiet f) = some (w', t)) {R : List α → List α → Prop}
    (hf : ∀ d s, w.deques[i]? = some d → Holds k d s → ∃ s', R s s' ∧ (s = [] → s' = []) ∧ ∀ b : Body α, b.Holds k s →
    Goes k w.heap b (f w.heap b).1 (f w.heap b).2 s') :
    Inv k w' ∧ t = false ∧ ∃ s s', (seqs k w)[i]? = some s ∧ R s s' ∧ seqs k w' = (seqs k w).set i s' := by
  obtain ⟨hinv, s, s', hs, ⟨ht, hr⟩, hseqs⟩ := h.on (Q := fun s t s' => t = false ∧ R s s') hn fun d s hi hd => by
    obtain ⟨s', hr, hnone, hgoes⟩ := hf d s hi hd
    cases d with
    | none => exact ⟨s', ⟨hnone hd, .refl _ _⟩, rfl, hr⟩
    | some b => exact ⟨s', (hgoes b hd).moves, rfl, hr⟩
  exact ⟨hinv, ht, s, s', hs, hr, hseqs⟩

theorem set_seq {s : List α} (hi : (seqs k w)[i]? = some s) : (seqs k w).set i s = seqs k w := by
  obtain ⟨hlt, hget⟩ := List.getElem?_eq_some_iff.mp hi
  rw [← hget, set_getElem_self hlt]

theorem lt_seqs {s : List α} (hi : (seqs k w)[i]? = some s) : i < (seqs k w).length :=
  (List.getElem?_eq_some_iff.mp hi).1

theorem Inv.of_sized {p : Nat → Bool} {r : Option (World α × Bool)} {x : World α × Bool}
    (hn : (if sized k w i p then r else none) = some x) :
    r = some x ∧ ∀ d s, w.deques[i]? = some d → Holds k d s → p s.length = true := by
  split at hn
  · rename_i hs
    exact ⟨hn, fun d s hi hd => (sized_iff hi hd).symm.trans hs⟩
  · cases hn

theorem Inv.next_emplace (h : Inv k w) (hk : 0 < k) (atBack : Bool) {v : α} {o : Throws} {t : Bool}
    (hn : BlockMap.on w i (fun h d => emplace k atBack h d v o) = some (w', t))
    (hclean : ∀ d ∈ w.deques[i]?, EmplaceClean k atBack d o) : Inv k w' ∧ ∃ s, (seqs k w)[i]? = some s ∧
    if t then o.Any ∧ seqs k w' = seqs k w else seqs k w' = (seqs k w).set i (addAt atBack s v) := by
  obtain ⟨hinv, s, s', hs, hq, hseqs⟩ :=
    h.on (Q := fun s t s' => s' = (if t then s else addAt atBack s v) ∧ (t = true → o.Any)) hn fun d s hi hd => by
      obtain ⟨hmoves, hany⟩ := emplace_moves (h := w.heap) hk atBack o hd (hclean d hi) v
      exact ⟨_, hmoves, rfl, hany⟩
  refine ⟨hinv, s, hs, ?_⟩
  rw [hq.1] at hseqs
  cases t with
  | true => exact ⟨hq.2 rfl, hseqs.trans (set_seq hs)⟩
  | false => exact hseqs

theorem Inv.teardown (h : Inv k w) (hi : w.deques[i]? = some d) (he : e = none) :
    Inv k ⟨BlockMap.teardown k w.heap d, w.deques.set i e⟩ := by
  subst he
  have hmoves : Moves k w.heap d (BlockMap.teardown k w.heap d) none [] := ⟨rfl, teardown_kept (h.at_holds hi)⟩
  exact (h.set hi hmoves).1

theorem Inv.next_create (h : Inv k w) (hk : 0 < k) {o : Throws} {t : Bool}
    (hn : BlockMap.next k w (.create o) = some (w', t)) : Inv k w' ∧ SeqStep (seqs k w) (.create o, t) (seqs k w') := by
  obtain ⟨hmoves, hany, -⟩ := initMap_moves (α := α) hk w.heap o
  have hle : ∀ x, owns (none : Deque α) x ≤ w.heap.live.count x := fun x => Nat.zero_le _
  obtain ⟨hfresh, hcount⟩ := hmoves.2 h.fresh hle
  simp only [BlockMap.next] at hn
  cases hres : initMap (α := α) w.heap o with
  | mk h₁ d₁ =>
    rw [hres] at hn hmoves hany hfresh hcount
    cases d₁ with
    | none =>
      cases hn
      exact ⟨⟨h.holds, hfresh, fun x => (hcount x).trans (h.owned x)⟩, hany rfl, rfl⟩
    | some b =>
      cases hn
      refine ⟨⟨fun d hd => ?_, hfresh, fun x => ?_⟩, ?_⟩
      · rcases mem_append.mp hd with hd | hd
        · exact h.holds d hd
        · rw [mem_singleton.mp hd]
          exact holds_values hmoves.1
      · show h₁.live.count x = total (owns · x) (w.deques ++ [some b])
        rw [total_append, ← h.owned, total_cons]
        exact hcount x
      · show (w.deques ++ [some b]).map (values k) = seqs k w ++ [[]]
        rw [map_append, map_cons, values_of_holds hmoves.1]
        rfl

theorem Inv.next_moveAssign (h : Inv k w) {t : Bool} (hn : BlockMap.next k w (.moveAssign i j) = some (w', t)) :
    Inv k w' ∧ SeqStep (seqs k w) (.moveAssign i j, t) (seqs k w') := by
  simp only [BlockMap.next] at hn
  split at hn
  · rename_i hij
    cases hn
    exact ⟨h, rfl, .inl ⟨hij, rfl⟩⟩
  rename_i hij
  obtain ⟨d, hi, hn⟩ := bind_eq_some_iff.mp hn
  obtain ⟨e, hj, hw⟩ := map_eq_some_iff.mp hn
  cases hw
  have hdown := h.teardown hi rfl
  refine ⟨⟨?_, hdown.fresh, fun x => ?_⟩, rfl, .inr ⟨hij, ?_, _, seq_at hj, ?_⟩⟩
  · exact holds_set (holds_set h.holds (h.at_holds hj)) (holds_none k)
  · have hj' : (w.deques.set i e)[j]? = some e := by
      rw [getElem?_set_ne hij, hj]
    have hset := total_set (owns · x) hj' none
    have hi' : (w.deques.set i none)[i]? = some none := by
      rw [getElem?_set_self (List.getElem?_eq_some_iff.mp hi).1]
    have hset' := total_set (owns · x) hi' e
    rw [set_set] at hset'
    have hzero : owns (none : Deque α) x = 0 := rfl
    show (BlockMap.teardown k w.heap d).live.count x = total (owns · x) ((w.deques.set i e).set j none)
    have hd : (BlockMap.teardown k w.heap d).live.count x = total (owns · x) (w.deques.set i none) :=
      hdown.owned x
    omega
  · exact lt_seqs (seq_at hi)
  · show ((w.deques.set i e).set j none).map (values k) = _
    rw [map_set, map_set]
    rfl

/-- What an operation that may throw does to one sequence, it does to the sequences. -/
theorem tried_seqs {S S' : List (List α)} {s' g : List α} {t : Bool} {T : Prop} {C : Nat → Prop} {F : Nat → List α}
    (hq : if t then T ∧ ∃ c, C c ∧ s' = F c else s' = g) (hseqs : S' = S.set i s') :
    if t then T ∧ ∃ c, C c ∧ S' = S.set i (F c) else S' = S.set i g := by
  cases t with
  | true =>
    obtain ⟨hany, c, hc, rfl⟩ := hq
    exact ⟨hany, c, hc, hseqs⟩
  | false =>
    obtain rfl : s' = g := hq
    exact hseqs

/-- **Every operation** does to the sequences what that operation on sequences does. -/
theorem Inv.next (h : Inv k w) (hk : 0 < k) {op : Op α} {t : Bool} (hn : BlockMap.next k w op = some (w', t))
    (hclean : Clean k w (op, t)) : Inv k w' ∧ SeqStep (seqs k w) (op, t) (seqs k w') := by
  cases op with
  | create o => exact h.next_create hk hn
  | emplaceBack i v o => exact h.next_emplace hk true hn hclean
  | emplaceFront i v o => exact h.next_emplace hk false hn hclean
  | popBack i =>
    obtain ⟨hn, hsize⟩ := Inv.of_sized hn
    obtain ⟨hinv, rfl, s, s', hs, ⟨v, rfl⟩, hseqs⟩ :=
        h.onQuiet (R := fun s s' => ∃ v, s = s' ++ [v]) hn fun d s hi hd => by
      obtain rfl | ⟨us, u, rfl⟩ := eq_nil_or_concat s
      · exact absurd (hsize d _ hi hd) (by simp)
      · rw [concat_eq_append]
        exact ⟨us, ⟨u, rfl⟩, by simp, fun b hb => popBack_goes hb⟩
    exact ⟨hinv, rfl, s', v, hs, hseqs⟩
  | popFront i =>
    obtain ⟨hn, hsize⟩ := Inv.of_sized hn
    obtain ⟨hinv, rfl, s, s', hs, ⟨v, rfl⟩, hseqs⟩ :=
        h.onQuiet (R := fun s s' => ∃ v, s = v :: s') hn fun d s hi hd => by
      cases s with
      | nil => exact absurd (hsize d _ hi hd) (by simp)
      | cons u us => exact ⟨us, ⟨u, rfl⟩, by simp, fun b hb => popFront_goes hb⟩
    exact ⟨hinv, rfl, s', v, hs, hseqs⟩
  | insert i pos vs =>
    obtain ⟨hn, hsize⟩ := Inv.of_sized hn
    obtain ⟨hinv, s, s', hs, ⟨hpos, hq⟩, hseqs⟩ := h.on (Q := fun s t s' => pos ≤ s.length ∧
        if t then (∃ v ∈ vs, v.2.Any) ∧ ∃ c < vs.length, s' = s ++ (vs.take c).map Prod.fst
        else s' = s.take pos ++ vs.map Prod.fst ++ s.drop pos) hn
      fun d s hi hd => by
        have hpos : pos ≤ s.length := of_decide_eq_true (hsize d s hi hd)
        obtain ⟨s', hmoves, hq⟩ := insert_moves (h := w.heap) hk hd (hclean d hi) hpos
        exact ⟨s', hmoves, hpos, hq⟩
    exact ⟨hinv, s, hs, hpos, tried_seqs hq hseqs⟩
  | prependRange i vs =>
    have hn : BlockMap.on w i (fun h d => prependRange k h d vs) = some (w', t) := hn
    obtain ⟨hinv, s, s', hs, hq, hseqs⟩ := h.on (Q := fun s t s' =>
        if t then (∃ v ∈ vs, v.2.Any) ∧ ∃ c < vs.length, s' = ((vs.take c).map Prod.fst).reverse ++ s
        else s' = vs.map Prod.fst ++ s) hn
      fun d s hi hd => prependRange_moves (h := w.heap) hk hd (hclean d hi)
    exact ⟨hinv, s, hs, tried_seqs hq hseqs⟩
  | erase i pos n =>
    obtain ⟨hn, hsize⟩ := Inv.of_sized hn
    obtain ⟨hinv, rfl, s, s', hs, ⟨hpos, rfl⟩, hseqs⟩ := h.onQuiet (R := fun s s' => pos + n ≤ s.length ∧
        s' = s.take pos ++ s.drop (pos + n)) hn
      fun d s hi hd => by
        have hpos : pos + n ≤ s.length := of_decide_eq_true (hsize d s hi hd)
        exact ⟨_, ⟨hpos, rfl⟩, fun hnil => by simp [hnil], fun b hb => erase_goes hb hpos⟩
    exact ⟨hinv, rfl, s, hs, hpos, hseqs⟩
  | resize i n v os =>
    have hn : BlockMap.on w i (fun h d => resize k h d n v os) = some (w', t) := hn
    obtain ⟨hinv, s, s', hs, hq, hseqs⟩ := h.on (Q := fun s t s' =>
        if t then (∃ j, (os j).Any) ∧ ∃ c, s.length + c < n ∧ s' = s ++ replicate c v
        else s' = s.take n ++ replicate (n - s.length) v) hn
      fun d s hi hd => by
        have hall := hclean d hi
        rw [show sizeOf k d = s.length from size_of_holds hd] at hall
        exact resize_moves (h := w.heap) hk hd hall
    exact ⟨hinv, s, hs, tried_seqs hq hseqs⟩
  | shrinkToFit i =>
    obtain ⟨hinv, rfl, s, s', hs, rfl, hseqs⟩ := h.onQuiet (R := fun s s' => s' = s) hn
      fun d s hi hd => ⟨s, rfl, id, fun b hb => shrinkToFit_goes hb⟩
    exact ⟨hinv, rfl, lt_seqs hs, hseqs.trans (set_seq hs)⟩
  | swap i j =>
    obtain ⟨d, hi, hn⟩ := bind_eq_some_iff.mp hn
    obtain ⟨e, hj, hw⟩ := map_eq_some_iff.mp hn
    cases hw
    refine ⟨⟨?_, h.fresh, fun x => ?_⟩, rfl, _, _, seq_at hi, seq_at hj, ?_⟩
    · exact holds_set (holds_set h.holds (h.at_holds hj)) (h.at_holds hi)
    · rw [h.owned]
      exact (total_swap (owns · x) hi hj).symm
    · show ((w.deques.set i e).set j d).map (values k) = _
      rw [map_set, map_set]
      rfl
  | moveNew j =>
    obtain ⟨d, hj, hw⟩ := map_eq_some_iff.mp hn
    cases hw
    refine ⟨⟨fun e he => ?_, h.fresh, fun x => ?_⟩, rfl, _, seq_at hj, ?_⟩
    · rcases mem_append.mp he with he | he
      · exact holds_set h.holds (holds_none k) e he
      · rw [mem_singleton.mp he]
        exact h.at_holds hj
    · have hset := total_set (owns · x) hj none
      rw [h.owned, total_append, total_cons, total_nil]
      exact hset.symm
    · show (w.deques.set j none ++ [d]).map (values k) = _
      rw [map_append, map_set]
      rfl
  | moveAssign i j => exact h.next_moveAssign hn
  | clear i =>
    obtain ⟨hinv, rfl, s, s', hs, rfl, hseqs⟩ := h.onQuiet (R := fun _ s' => s' = []) hn
      fun d s hi hd => ⟨[], rfl, fun _ => rfl, fun b hb => clear_goes hb⟩
    exact ⟨hinv, rfl, lt_seqs hs, hseqs⟩
  | destroy i =>
    obtain ⟨d, hi, hw⟩ := map_eq_some_iff.mp hn
    cases hw
    have hdown := h.teardown hi rfl
    refine ⟨⟨fun e he => h.holds e (mem_of_mem_eraseIdx he), hdown.fresh, fun x => ?_⟩, rfl, lt_seqs (seq_at hi), ?_⟩
    · have hd : (BlockMap.teardown k w.heap d).live.count x = total (owns · x) (w.deques.set i none) := hdown.owned x
      have hset := total_set (owns · x) hi none
      have herase := total_eraseIdx (owns · x) hi
      have hzero : owns (none : Deque α) x = 0 := rfl
      show (BlockMap.teardown k w.heap d).live.count x = total (owns · x) (w.deques.eraseIdx i)
      omega
    · show (w.deques.eraseIdx i).map (values k) = _
      exact (eraseIdx_map ..).symm

end Steps

/-! ## Every run -/

/-- What the deques are for: elements in blocks that the map has, and nothing that is allocated without a place. -/
structure WellKept (k : Nat) (w : World α) : Prop where
  constructed : ∀ d ∈ w.deques, elements k d = (values k d).map some
  iterators : ∀ b, some b ∈ w.deques → b.finish = b.start.add k (b.size k) ∧
    ∀ i n : Int, 0 ≤ i → i ≤ b.size k → 0 ≤ i + n → i + n ≤ b.size k →
      (b.start.add k i).add k n = b.start.add k (i + n) ∧ ((b.start.add k i).add k n).diff k (b.start.add k i) = n
  blocks : ∀ b, some b ∈ w.deques → b.start.off < k ∧ b.finish.off < k ∧ b.start.node ≤ b.finish.node ∧
    b.finish.node < b.map.length ∧ ∀ n, b.start.node ≤ n → n ≤ b.finish.node → (b.slot n).isSome = true
  owned : ∀ x, total (owns · x) w.deques = if x ∈ w.heap.live then 1 else 0
  released : (∀ d ∈ w.deques, d = none) → w.heap.live = []

theorem Inv.wellKept {k : Nat} {w : World α} (h : Inv k w) : WellKept k w where
  constructed := fun d hd => elements_of_holds (h.holds d hd)
  iterators := fun b hb => by
    have hholds : b.Holds k (values k (some b)) := h.holds _ hb
    refine ⟨?_, fun i n hi _ hn _ => hholds.startOk.add_add (by omega) (by omega)⟩
    rw [hholds.add_start, hholds.size, ← hholds.len, hholds.finishOk.ofPos_pos]
  blocks := fun b hb => by
    have hholds : b.Holds k (values k (some b)) := h.holds _ hb
    exact ⟨hholds.startOk, hholds.finishOk, hholds.start_le, hholds.room, hholds.blocks⟩
  owned := fun x => by
    rw [← h.owned]
    split
    · rename_i hx
      exact count_eq_one_of_mem h.fresh.1 hx
    · rename_i hx
      exact count_eq_zero_of_not_mem hx
  released := fun hnone => by
    apply eq_nil_iff_forall_not_mem.mpr
    intro x hx
    have hpos := count_pos_iff.mpr hx
    rw [h.owned, total_eq_zero fun d hd => by rw [hnone d hd]; rfl] at hpos
    exact lt_irrefl 0 hpos

/-- **Deques refine sequences and own their blocks.** A run of deques is a run of sequences, and what it reaches is well
kept, as long as no map grows while a block lies outside its iterators. -/
theorem deque_refines {k : Nat} (hk : 0 < k) {es : List (Op α × Bool)} {w : World α}
    (run : Run (Step k) (Clean k) World.init es w) : Run SeqStep (fun _ _ => True) [] es (seqs k w) ∧ WellKept k w := by
  obtain ⟨hinv, hseqs⟩ := run.simulates (f := seqs k) (P := Inv k)
    (fun s e t h hclean hs => h.next hk hs hclean) inv_init
  exact ⟨hseqs, hinv.wellKept⟩

/-! ## Two runs -/

/-- An operation with its outcome, computed. -/
def stepTo (k : Nat) (w : World α) (e : Op α × Bool) : Option (World α) :=
  (next k w e.1).bind fun r => if r.2 = e.2 then some r.1 else none

theorem step_of_stepTo {k : Nat} {w w' : World α} {e : Op α × Bool} (h : stepTo k w e = some w') : Step k w e w' := by
  obtain ⟨r, hr, hw⟩ := bind_eq_some_iff.mp h
  split at hw
  · rename_i ht
    cases hw
    exact hr.trans (by rw [← ht])
  · cases hw

instance (k : Nat) (atBack : Bool) (d : Deque α) (o : Throws) : Decidable (EmplaceClean k atBack d o) :=
  inferInstanceAs (Decidable (∀ b ∈ d, _ → _))

instance decidableAllClean (k : Nat) (atBack : Bool) : (h : Heap) → (d : Deque α) → (vs : List (α × Throws)) →
    Decidable (AllClean k atBack h d vs)
  | _, _, [] => inferInstanceAs (Decidable True)
  | h, d, v :: vs =>
    have := decidableAllClean k atBack (emplace k atBack h d v.1 v.2).1 (emplace k atBack h d v.1 v.2).2.1 vs
    inferInstanceAs (Decidable (_ ∧ (_ → _)))

instance (k : Nat) (w : World α) : (e : Op α × Bool) → Decidable (Clean k w e)
  | (.emplaceBack i _ o, _) => inferInstanceAs (Decidable (∀ d ∈ w.deques[i]?, EmplaceClean k true d o))
  | (.emplaceFront i _ o, _) => inferInstanceAs (Decidable (∀ d ∈ w.deques[i]?, EmplaceClean k false d o))
  | (.insert i _ vs, _) => inferInstanceAs (Decidable (∀ d ∈ w.deques[i]?, AllClean k true w.heap d vs))
  | (.prependRange i vs, _) => inferInstanceAs (Decidable (∀ d ∈ w.deques[i]?, AllClean k false w.heap d vs))
  | (.resize i n v os, _) => inferInstanceAs (Decidable (∀ d ∈ w.deques[i]?,
      AllClean k true w.heap d ((List.range (n - sizeOf k d)).map fun j => (v, os j))))
  | (.create _, _) | (.popBack _, _) | (.popFront _, _) | (.erase _ _ _, _) | (.shrinkToFit _, _) | (.swap _ _, _)
  | (.moveNew _, _) | (.moveAssign _ _, _) | (.clear _, _) | (.destroy _, _) => inferInstanceAs (Decidable True)

/-- Elements at both ends, a constructor that throws, and a map that grows after the spare block was returned. -/
def bothEnds : List (Op Nat × Bool) :=
  [(.create {}, false), (.emplaceBack 0 1 {}, false), (.prependRange 0 [(2, {}), (3, {})], false),
    (.insert 0 1 [(4, {}), (5, { construct := true })], true), (.insert 0 1 [(6, {}), (7, {})], false),
    (.erase 0 2 1, false),
    (.emplaceFront 0 8 { construct := true }, true), (.shrinkToFit 0, false), (.resize 0 14 9 fun _ => {}, false),
    (.moveNew 0, false), (.popFront 1, false), (.emplaceBack 0 0 { initBlock := true }, true),
    (.resize 1 3 0 fun _ => {}, false), (.swap 0 1, false)]

/-- What the two deques have at the end. -/
theorem deque_refines_bothEnds : ∃ w, Run (Step 2) (Clean 2) World.init bothEnds w ∧ seqs 2 w = [[6, 3, 1], []] ∧
    Run SeqStep (fun _ _ => True) [] bothEnds (seqs 2 w) ∧ WellKept 2 w := by
  obtain ⟨w, run, hend⟩ : ∃ w, Run (Step 2) (Clean 2) World.init bothEnds w ∧ seqs 2 w = [[6, 3, 1], []] :=
    run_reaches step_of_stepTo (by decide +kernel)
  exact ⟨w, run, hend, deque_refines (by omega) run⟩

/-- A constructor throws at the front, and the map grows at the back. -/
def lostBlock : List (Op Nat × Bool) :=
  [(.create {}, false), (.emplaceFront 0 1 { construct := true }, true), (.emplaceBack 0 1 {}, false),
    (.emplaceBack 0 2 {}, false), (.emplaceBack 0 3 {}, false), (.emplaceBack 0 4 {}, false), (.destroy 0, false)]

/-- The block that the exception left is never released. -/
theorem deque_loses_block : ∃ w, Run (Step 1) (fun _ _ => True) World.init lostBlock w ∧ w.deques = [] ∧
    w.heap.live = [2] ∧ ¬WellKept 1 w := by
  obtain ⟨w, run, hempty, hlive⟩ : ∃ w, Run (Step 1) (fun _ _ => True) World.init lostBlock w ∧
      w.deques.isEmpty = true ∧ w.heap.live = [2] := run_reaches step_of_stepTo (by decide +kernel)
  have hnil := List.isEmpty_iff.mp hempty
  refine ⟨w, run, hnil, hlive, fun h => ?_⟩
  have hempty := h.released (by simp [hnil])
  rw [hempty] at hlive
  cases hlive

end BoxOS.Boxcxx.BlockMap
