import BoxOS.Lib.Holdings
import BoxOS.Boxcxx.Deque

/-!
# What a deque keeps

- An iterator is a position (`Iter.pos`), and its arithmetic is that of the positions (`add_eq`, `diff_eq`).
- `Body.Holds` says that a deque has the elements of a list: the blocks between the iterators are there, and so are the
  elements. Every primitive step has one lemma about it.
- `Kept` says that what is allocated changes as what the deque holds. The map grows at this price only: a block outside
  the iterators is lost (`Body.NoSpare`).
-/

namespace BoxOS.Boxcxx.BlockMap

open Lib List Iter

/-! ## Positions -/

namespace Iter

variable {k p : Nat} {it a c : Iter}

/-- The position in the array of all blocks. -/
def pos (k : Nat) (it : Iter) : Nat := it.node * k + it.off

/-- The iterator of a position. -/
def ofPos (k p : Nat) : Iter := ⟨p / k, p % k⟩

/-- The offset is inside the block. -/
def Ok (k : Nat) (it : Iter) : Prop := it.off < k

theorem ok_ofPos (hk : 0 < k) (p : Nat) : (ofPos k p).Ok k := Nat.mod_lt p hk

theorem pos_ofPos (k p : Nat) : (ofPos k p).pos k = p := Nat.div_add_mod' p k

theorem Ok.ofPos_pos (h : it.Ok k) : ofPos k (it.pos k) = it := by
  have hk : 0 < k := lt_of_le_of_lt (Nat.zero_le _) h
  have hdiv : (it.node * k + it.off) / k = it.node := by
    rw [Nat.add_comm, Nat.add_mul_div_right _ _ hk, Nat.div_eq_of_lt h, Nat.zero_add]
  have hmod : (it.node * k + it.off) % k = it.off := by
    rw [Nat.add_comm, Nat.add_mul_mod_self_right, Nat.mod_eq_of_lt h]
  unfold ofPos pos
  rw [hdiv, hmod]

theorem Ok.pos_inj (ha : a.Ok k) (hc : c.Ok k) (h : a.pos k = c.pos k) : a = c := by
  rw [← ha.ofPos_pos, h, hc.ofPos_pos]

theorem Ok.incr (h : it.Ok k) : (it.incr k).Ok k ∧ (it.incr k).pos k = it.pos k + 1 := by
  unfold Iter.incr Ok pos at *
  split
  · rename_i hend
    refine ⟨lt_of_le_of_lt (Nat.zero_le _) h, ?_⟩
    simp only [Nat.succ_mul]
    omega
  · simp only
    constructor <;> omega

theorem Ok.decr (h : it.Ok k) (hpos : 0 < it.pos k) : (it.decr k).Ok k ∧ (it.decr k).pos k + 1 = it.pos k := by
  unfold Iter.decr Ok pos at *
  split
  · rename_i hzero
    rw [hzero, Nat.add_zero] at hpos
    have hnode : 0 < it.node := Nat.pos_of_mul_pos_right hpos
    obtain ⟨m, hm⟩ := Nat.exists_eq_succ_of_ne_zero hnode.ne'
    simp only [hm, hzero, Nat.succ_mul, Nat.succ_sub_one]
    constructor <;> omega
  · simp only
    constructor <;> omega

theorem Ok.node_le (hc : c.Ok k) (h : a.pos k ≤ c.pos k) : a.node ≤ c.node := by
  by_contra hlt
  have hmul : (c.node + 1) * k ≤ a.node * k := Nat.mul_le_mul_right k (by omega)
  rw [Nat.succ_mul] at hmul
  unfold Ok pos at *
  omega

theorem Ok.add_eq (h : it.Ok k) {n : Int} (hn : 0 ≤ (it.pos k : Int) + n) :
    it.add k n = ofPos k ((it.pos k : Int) + n).toNat := by
  have hk : 0 < k := lt_of_le_of_lt (Nat.zero_le _) h
  -- an iterator with the right position is the right one
  have hresult : ∀ (q r : Int), n + it.off = q * k + r → 0 ≤ r → r < k →
      (⟨(it.node + q).toNat, r.toNat⟩ : Iter) = ofPos k ((it.pos k : Int) + n).toNat := by
    intro q r hsplit hr hrk
    have hpos : (it.pos k : Int) + n = (it.node + q) * k + r := by
      unfold pos
      push_cast
      linarith
    have hnode : 0 ≤ (it.node : Int) + q := by
      by_contra hneg
      have : ((it.node : Int) + q) * k ≤ -1 * k := Int.mul_le_mul_of_nonneg_right (by omega) (by omega)
      omega
    obtain ⟨m, hm⟩ := Int.eq_ofNat_of_zero_le hnode
    obtain ⟨s, hs⟩ := Int.eq_ofNat_of_zero_le hr
    have hok : (⟨m, s⟩ : Iter).Ok k := by
      show s < k
      omega
    rw [hpos, hm, hs]
    have : ((m : Int) * k + s).toNat = (⟨m, s⟩ : Iter).pos k := by
      unfold pos
      rw [← Int.natCast_mul, ← Int.natCast_add, Int.toNat_natCast]
    rw [this, hok.ofPos_pos]
    rfl
  unfold add
  simp only
  split
  · rename_i hin
    have := hresult 0 (n + it.off) (by omega) hin.1 hin.2
    rwa [Int.add_zero, Int.toNat_natCast] at this
  rename_i hout
  have hkz : (k : Int) ≠ 0 := by omega
  split
  · apply hresult
    · ring
    · have := Int.emod_nonneg (n + it.off) hkz
      rw [Int.emod_def] at this
      linarith [Int.mul_comm (k : Int) ((n + it.off) / k)]
    · have := Int.emod_lt_of_pos (n + it.off) (show (0 : Int) < k by omega)
      rw [Int.emod_def] at this
      linarith [Int.mul_comm (k : Int) ((n + it.off) / k)]
  rename_i hneg
  have h0 := Int.emod_nonneg (-(n + it.off) - 1) hkz
  have h1 := Int.emod_lt_of_pos (-(n + it.off) - 1) (show (0 : Int) < k by omega)
  rw [Int.emod_def] at h0 h1
  apply hresult
  · ring
  · linarith
  · linarith

theorem diff_eq (a c : Iter) : a.diff k c = (a.pos k : Int) - c.pos k := by
  unfold diff pos
  push_cast
  ring

theorem Ok.add_add (h : it.Ok k) {i n : Int} (hi : 0 ≤ (it.pos k : Int) + i) (hn : 0 ≤ (it.pos k : Int) + i + n) :
    (it.add k i).add k n = it.add k (i + n) ∧ ((it.add k i).add k n).diff k (it.add k i) = n := by
  have hk : 0 < k := lt_of_le_of_lt (Nat.zero_le _) h
  have hpos : ((it.add k i).pos k : Int) = it.pos k + i := by
    rw [h.add_eq hi, pos_ofPos]
    exact Int.toNat_of_nonneg hi
  have hok : (it.add k i).Ok k := by
    rw [h.add_eq hi]
    exact ok_ofPos hk _
  have hsum : ((it.add k i).add k n).pos k = ((it.pos k : Int) + i + n).toNat := by
    rw [hok.add_eq (by omega), pos_ofPos, hpos]
  constructor
  · calc (it.add k i).add k n = ofPos k (((it.add k i).pos k : Int) + n).toNat := hok.add_eq (by omega)
      _ = ofPos k ((it.pos k : Int) + (i + n)).toNat := by rw [hpos, Int.add_assoc]
      _ = it.add k (i + n) := (h.add_eq (by omega)).symm
  · rw [diff_eq, hsum, hpos, Int.toNat_of_nonneg hn]
    ring

end Iter

/-! ## Cells -/

section Cells

variable {α : Type*} {k n p : Nat} {b : Body α} {it : Iter} {x : Option α}

/-- The cell at a position. -/
def Body.cellAt (k : Nat) (b : Body α) (p : Nat) : Option α := b.cell (.ofPos k p)

theorem slot_setCell (b : Body α) (it : Iter) (x : Option α) (n : Nat) : (b.setCell it x).slot n =
    if n = it.node then (b.slot n).map fun blk => { blk with cells := Function.update blk.cells it.off x }
    else b.slot n := by
  unfold Body.slot Body.setCell
  simp only [getD_eq_getElem?_getD, getElem?_modify]
  cases b.map[n]? with
  | none => simp
  | some s =>
    by_cases h : n = it.node
    · simp [h]
    · simp [h, Ne.symm h]

theorem isSome_slot_setCell (b : Body α) (it : Iter) (x : Option α) (n : Nat) :
    ((b.setCell it x).slot n).isSome = (b.slot n).isSome := by
  rw [slot_setCell]
  split
  · rw [Option.isSome_map]
  · rfl

@[simp] theorem length_map_setCell (b : Body α) (it : Iter) (x : Option α) :
    (b.setCell it x).map.length = b.map.length := length_modify ..

theorem cellAt_setCell (hit : it.Ok k) (hs : (b.slot it.node).isSome = true) (p : Nat) :
    (b.setCell it x).cellAt k p = if p = it.pos k then x else b.cellAt k p := by
  obtain ⟨blk, hblk⟩ := Option.isSome_iff_exists.mp hs
  unfold Body.cellAt Body.cell
  rw [slot_setCell]
  by_cases hp : p = it.pos k
  · subst hp
    rw [hit.ofPos_pos, if_pos rfl, if_pos rfl, hblk]
    exact Function.update_self ..
  rw [if_neg hp]
  split
  · rename_i hnode
    have hoff : (ofPos k p).off ≠ it.off := fun hoff => hp <| by
      have heq : ofPos k p = it := by
        cases it
        cases hnode
        cases hoff
        rfl
      rw [← heq, pos_ofPos]
    rw [hnode, hblk]
    exact Function.update_of_ne hoff ..
  · rfl

theorem cellAt_congr {c : Body α} (h : c.slot (p / k) = b.slot (p / k)) : c.cellAt k p = b.cellAt k p := by
  unfold Body.cellAt Body.cell
  rw [show (ofPos k p).node = p / k from rfl, h]

end Cells

/-! ## The elements of a deque -/

section Holds

variable {α : Type*} {k n p q : Nat} {b c : Body α} {vs : List α} {v : α}

/-- The deque has these elements, and the blocks that they and the iterators need. -/
structure Body.Holds (k : Nat) (b : Body α) (vs : List α) : Prop where
  startOk : b.start.Ok k
  finishOk : b.finish.Ok k
  len : b.finish.pos k = b.start.pos k + vs.length
  room : b.finish.node < b.map.length
  big : 8 ≤ b.map.length
  blocks : ∀ n, b.start.node ≤ n → n ≤ b.finish.node → (b.slot n).isSome = true
  elems : ∀ i, i < vs.length → b.cellAt k (b.start.pos k + i) = vs[i]?

namespace Body.Holds

section

variable (h : b.Holds k vs)

include h

theorem pos_k : 0 < k := lt_of_le_of_lt (Nat.zero_le _) h.startOk

theorem start_le : b.start.node ≤ b.finish.node :=
  h.finishOk.node_le (by rw [h.len]; exact Nat.le_add_right _ _)

theorem node_of_pos (hlo : b.start.pos k ≤ p) (hhi : p ≤ b.finish.pos k) :
    b.start.node ≤ p / k ∧ p / k ≤ b.finish.node := by
  have hok := ok_ofPos h.pos_k p
  have hpos := pos_ofPos k p
  constructor
  · exact hok.node_le (by rw [hpos]; exact hlo)
  · exact h.finishOk.node_le (a := .ofPos k p) (by rw [hpos]; exact hhi)

theorem of_slots (hs : c.start = b.start) (hf : c.finish = b.finish) (hlen : c.map.length = b.map.length)
    (hslots : ∀ n, b.start.node ≤ n → n ≤ b.finish.node → c.slot n = b.slot n) : c.Holds k vs where
  startOk := hs ▸ h.startOk
  finishOk := hf ▸ h.finishOk
  len := by rw [hs, hf, h.len]
  room := by rw [hf, hlen]; exact h.room
  big := hlen ▸ h.big
  blocks := fun n hlo hhi => by
    rw [hs] at hlo
    rw [hf] at hhi
    rw [hslots n hlo hhi]
    exact h.blocks n hlo hhi
  elems := fun i hi => by
    have hnode := h.node_of_pos (p := b.start.pos k + i) (Nat.le_add_right _ _) (by rw [h.len]; omega)
    rw [hs, ← h.elems i hi]
    exact cellAt_congr (hslots _ hnode.1 hnode.2)

theorem isSome_slot (hi : n ≤ vs.length) :
    (b.slot (ofPos k (b.start.pos k + n)).node).isSome = true := by
  have hnode := h.node_of_pos (p := b.start.pos k + n) (Nat.le_add_right _ _) (by rw [h.len]; omega)
  exact h.blocks _ hnode.1 hnode.2

/-- **An element behind the last one.** -/
theorem placeBack
    (hnext : b.finish.off + 1 = k → b.finish.node + 1 < b.map.length ∧ (b.slot (b.finish.node + 1)).isSome = true)
    (v : α) : (place k true b v).Holds k (vs ++ [v]) := by
  obtain ⟨hok, hpos⟩ := h.finishOk.incr
  have hslot := h.blocks _ h.start_le le_rfl
  have hnode : (b.finish.incr k).node = b.finish.node ∨
      b.finish.off + 1 = k ∧ (b.finish.incr k).node = b.finish.node + 1 := by
    unfold Iter.incr
    split
    · rename_i hend
      exact .inr ⟨hend, rfl⟩
    · exact .inl rfl
  refine ⟨h.startOk, hok, ?_, ?_, ?_, fun n hlo hhi => ?_, fun i hi => ?_⟩
  · show (b.finish.incr k).pos k = b.start.pos k + _
    rw [hpos, h.len, length_append]
    rfl
  · show (b.finish.incr k).node < (b.setCell b.finish (some v)).map.length
    rw [length_map_setCell]
    rcases hnode with he | ⟨hend, he⟩
    · rw [he]
      exact h.room
    · rw [he]
      exact (hnext hend).1
  · show 8 ≤ (b.setCell b.finish (some v)).map.length
    rw [length_map_setCell]
    exact h.big
  · show ((b.setCell b.finish (some v)).slot n).isSome = true
    have hhi : n ≤ (b.finish.incr k).node := hhi
    rw [isSome_slot_setCell]
    rcases hnode with he | ⟨hend, he⟩
    · exact h.blocks n hlo (he ▸ hhi)
    rcases Nat.lt_or_ge b.finish.node n with hlt | hge
    · rw [show n = b.finish.node + 1 by omega]
      exact (hnext hend).2
    · exact h.blocks n hlo hge
  · show (b.setCell b.finish (some v)).cellAt k (b.start.pos k + i) = _
    rw [cellAt_setCell h.finishOk hslot, h.len]
    rw [length_append, length_singleton] at hi
    by_cases he : i = vs.length
    · rw [he, if_pos rfl, getElem?_concat_length]
    · rw [if_neg (by omega), getElem?_append_left (by omega)]
      exact h.elems i (by omega)

/-- **An element in front of the first one.** -/
theorem placeFront (hnext : b.start.off = 0 → 0 < b.start.node ∧ (b.slot (b.start.node - 1)).isSome = true) (v : α) :
    (place k false b v).Holds k (v :: vs) := by
  have hpos : 0 < b.start.pos k := by
    unfold Iter.pos
    by_cases hzero : b.start.off = 0
    · exact Nat.add_pos_left (Nat.mul_pos (hnext hzero).1 h.pos_k) _
    · exact Nat.add_pos_right _ (Nat.pos_of_ne_zero hzero)
  obtain ⟨hok, hdecr⟩ := h.startOk.decr hpos
  have hnode : (b.start.decr k).node = b.start.node ∨
      b.start.off = 0 ∧ (b.start.decr k).node = b.start.node - 1 := by
    unfold Iter.decr
    split
    · rename_i hzero
      exact .inr ⟨hzero, rfl⟩
    · exact .inl rfl
  have hslot : (b.slot (b.start.decr k).node).isSome = true := by
    rcases hnode with he | ⟨hzero, he⟩
    · rw [he]
      exact h.blocks _ le_rfl h.start_le
    · rw [he]
      exact (hnext hzero).2
  refine ⟨hok, h.finishOk, ?_, ?_, ?_, fun n hlo hhi => ?_, fun i hi => ?_⟩
  · show b.finish.pos k = (b.start.decr k).pos k + _
    rw [h.len, length_cons]
    omega
  · show b.finish.node < (b.setCell (b.start.decr k) (some v)).map.length
    rw [length_map_setCell]
    exact h.room
  · show 8 ≤ (b.setCell (b.start.decr k) (some v)).map.length
    rw [length_map_setCell]
    exact h.big
  · show ((b.setCell (b.start.decr k) (some v)).slot n).isSome = true
    have hlo : (b.start.decr k).node ≤ n := hlo
    rw [isSome_slot_setCell]
    by_cases he : n = (b.start.decr k).node
    · rw [he]
      exact hslot
    · exact h.blocks n (by omega) hhi
  · show (b.setCell (b.start.decr k) (some v)).cellAt k ((b.start.decr k).pos k + i) = _
    rw [cellAt_setCell hok hslot]
    cases i with
    | zero => simp
    | succ i =>
      rw [if_neg (by omega), getElem?_cons_succ, ← h.elems i (by simpa using hi)]
      congr 1
      omega

end

theorem popBack (h : b.Holds k (vs ++ [v])) :
    (({ b with finish := b.finish.decr k } : Body α).setCell (b.finish.decr k) none).Holds k vs := by
  have hlen := h.len
  rw [length_append, length_singleton] at hlen
  obtain ⟨hok, hdecr⟩ := h.finishOk.decr (by omega)
  have hle : (b.finish.decr k).node ≤ b.finish.node := h.finishOk.node_le (by omega)
  have hstart : b.start.node ≤ (b.finish.decr k).node := hok.node_le (by omega)
  have hslot := h.blocks _ hstart hle
  refine ⟨h.startOk, hok, ?_, ?_, ?_, fun n hlo hhi => ?_, fun i hi => ?_⟩
  · show (b.finish.decr k).pos k = b.start.pos k + _
    omega
  · rw [length_map_setCell]
    exact hle.trans_lt h.room
  · rw [length_map_setCell]
    exact h.big
  · rw [isSome_slot_setCell]
    exact h.blocks n hlo (hhi.trans hle)
  · have hcell := cellAt_setCell (b := { b with finish := b.finish.decr k }) (x := none) hok hslot (b.start.pos k + i)
    rw [if_neg (by omega)] at hcell
    have := h.elems i (by rw [length_append]; omega)
    rw [getElem?_append_left hi] at this
    exact hcell.trans this

theorem popFront (h : b.Holds k (v :: vs)) :
    ({ b.setCell b.start none with start := b.start.incr k } : Body α).Holds k vs := by
  have hlen := h.len
  rw [length_cons] at hlen
  obtain ⟨hok, hincr⟩ := h.startOk.incr
  have hslot := h.blocks _ le_rfl h.start_le
  have hge : b.start.node ≤ (b.start.incr k).node := hok.node_le (by omega)
  refine ⟨hok, h.finishOk, ?_, ?_, ?_, fun n hlo hhi => ?_, fun i hi => ?_⟩
  · show b.finish.pos k = (b.start.incr k).pos k + _
    omega
  · show b.finish.node < (b.setCell b.start none).map.length
    rw [length_map_setCell]
    exact h.room
  · show 8 ≤ (b.setCell b.start none).map.length
    rw [length_map_setCell]
    exact h.big
  · show ((b.setCell b.start none).slot n).isSome = true
    rw [isSome_slot_setCell]
    exact h.blocks n (hge.trans hlo) hhi
  · show (b.setCell b.start none).cellAt k ((b.start.incr k).pos k + i) = _
    rw [cellAt_setCell h.startOk hslot, if_neg (by omega)]
    have := h.elems (i + 1) (by simpa using hi)
    rw [getElem?_cons_succ] at this
    rw [← this]
    congr 1
    omega

theorem write (h : b.Holds k vs) (hq : q < vs.length) (v : α) :
    (b.setCell (.ofPos k (b.start.pos k + q)) (some v)).Holds k (vs.set q v) := by
  have hok := ok_ofPos h.pos_k (b.start.pos k + q)
  refine ⟨h.startOk, h.finishOk, ?_, ?_, ?_, fun n hlo hhi => ?_, fun i hi => ?_⟩
  · rw [length_set]
    exact h.len
  · rw [length_map_setCell]
    exact h.room
  · rw [length_map_setCell]
    exact h.big
  · rw [isSome_slot_setCell]
    exact h.blocks n hlo hhi
  · rw [length_set] at hi
    rw [cellAt_setCell hok (h.isSome_slot hq.le), pos_ofPos]
    by_cases he : i = q
    · rw [he, if_pos (by rfl), getElem?_set_self hq]
    · rw [if_neg (by show ¬b.start.pos k + i = _; omega), getElem?_set_ne (Ne.symm he)]
      exact h.elems i hi

theorem writeAll (h : b.Holds k vs) {ws : List α} (hq : q + ws.length ≤ vs.length) :
    (b.writeAll k (.ofPos k (b.start.pos k + q)) (ws.map some)).Holds k
      (vs.take q ++ ws ++ vs.drop (q + ws.length)) := by
  induction ws generalizing b vs q with
  | nil => simpa [Body.writeAll] using h
  | cons w ws ih =>
    rw [length_cons] at hq
    have hincr := (ok_ofPos h.pos_k (b.start.pos k + q)).incr
    have hnext : (ofPos k (b.start.pos k + q)).incr k = .ofPos k (b.start.pos k + (q + 1)) := by
      apply hincr.1.pos_inj (ok_ofPos h.pos_k _)
      rw [hincr.2, pos_ofPos, pos_ofPos, Nat.add_assoc]
    have hwritten := ih (h.write (q := q) (by omega) w) (q := q + 1) (by rw [length_set]; omega)
    rw [map_cons]
    unfold Body.writeAll
    rw [hnext]
    have hlist : (vs.set q w).take (q + 1) ++ ws ++ (vs.set q w).drop (q + 1 + ws.length) =
        vs.take q ++ w :: ws ++ vs.drop (q + (ws.length + 1)) := by
      rw [drop_set_of_lt (by omega), take_add_one, take_set_of_le le_rfl, getElem?_set_self (by omega),
        show q + 1 + ws.length = q + (ws.length + 1) by omega]
      simp
    rw [length_cons, ← hlist]
    exact hwritten

theorem size (h : b.Holds k vs) : b.size k = vs.length := by
  unfold Body.size
  rw [diff_eq, h.len]
  omega

/-- **What lies between `begin` and `end`.** -/
theorem elements (h : b.Holds k vs) : b.elems k = vs.map some := by
  unfold Body.elems
  rw [h.size]
  apply ext_getElem
  · simp
  · intro i hi _
    have hi : i < vs.length := by simpa using hi
    rw [getElem_map, getElem_range, getElem_map, h.startOk.add_eq (by omega)]
    have hcell := h.elems i hi
    rw [getElem?_eq_getElem hi] at hcell
    rw [← hcell]
    unfold Body.cellAt
    congr 2

theorem add_start (h : b.Holds k vs) (q : Nat) : b.start.add k q = .ofPos k (b.start.pos k + q) := by
  rw [h.startOk.add_eq (by omega)]
  congr 1

end Body.Holds

end Holds

end BoxOS.Boxcxx.BlockMap
