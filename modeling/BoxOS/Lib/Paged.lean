import BoxOS.Lib.Extents

/-! # Byte arrays kept in blocks

A byte array is kept in blocks of `ps` bytes of a block device; the blocks are listed as extents. `byteOf` is the byte
at a position, `locate` the walk along the extents to the one that has a position. -/

set_option autoImplicit false
namespace Lib

open List Extent

variable {β : Type}

/-- The blocks of an extent, in order. -/
def Extent.blocks (e : Extent) : List Nat :=
  (List.range e.count).map (e.start + ·)

def blocksOf (es : List Extent) : List Nat :=
  es.flatMap blocks

/-- The byte at position `pos` of the array whose blocks are `bs`. -/
def byteOf (ps : Nat) (disk : Nat → Nat → β) (bs : List Nat) (pos : Nat) : Option β :=
  bs[pos / ps]?.map fun b => disk b (pos % ps)

/-- The first extent that ends behind `pos`, by its index, and where it starts; `start` and `i` are those of the first
extent. -/
def locate (ps : Nat) : List Extent → Nat → Nat → Nat → Option Nat × Nat
  | [], _, start, _ => (none, start)
  | e :: es, pos, start, i =>
    if pos < start + e.count * ps then (some i, start) else locate ps es pos (start + e.count * ps) (i + 1)

/-- A block with `data` copied over it from `off` on. -/
def overlay (page : Nat → β) (off : Nat) (data : List β) : Nat → β :=
  fun o => if off ≤ o then data[o - off]?.getD (page o) else page o

@[simp] theorem Extent.length_blocks (e : Extent) : e.blocks.length = e.count := by
  simp [blocks]

@[simp] theorem blocksOf_nil : blocksOf [] = [] :=
  rfl

@[simp] theorem blocksOf_append (es fs : List Extent) : blocksOf (es ++ fs) = blocksOf es ++ blocksOf fs := by
  simp [blocksOf]

@[simp] theorem blocksOf_cons (e : Extent) (es : List Extent) : blocksOf (e :: es) = e.blocks ++ blocksOf es := by
  simp [blocksOf]

theorem Extent.blocks_one (b : Nat) : blocks ⟨b, 1⟩ = [b] := by
  simp [blocks]

theorem Extent.getElem?_blocks {e : Extent} {k : Nat} (hk : k < e.count) : e.blocks[k]? = some (e.start + k) := by
  simp [blocks, hk]

theorem overlay_of_mem {page : Nat → β} {off o : Nat} {data : List β} (h₁ : off ≤ o) (h₂ : o < off + data.length) :
    some (overlay page off data o) = data[o - off]? := by
  rw [overlay, if_pos h₁, getElem?_eq_getElem (by omega), Option.getD_some]

theorem overlay_of_notMem {page : Nat → β} {off o : Nat} {data : List β} (h : ¬ (off ≤ o ∧ o < off + data.length)) :
    overlay page off data o = page o := by
  unfold overlay
  split
  · rw [getElem?_eq_none (by omega), Option.getD_none]
  · rfl

section locate

variable {ps : Nat}

/-- The walk ends in the extent that has the position, or behind all of them. -/
theorem locate_spec (ps : Nat) (es : List Extent) (i : Nat) {pos start : Nat} (hpos : start ≤ pos) : (∃ pre e post,
    es = pre ++ e :: post ∧ locate ps es pos start i = (some (i + pre.length), start + (blocksOf pre).length * ps) ∧
    start + (blocksOf pre).length * ps ≤ pos ∧ pos < start + ((blocksOf pre).length + e.count) * ps) ∨
    (locate ps es pos start i = (none, start + (blocksOf es).length * ps) ∧
    start + (blocksOf es).length * ps ≤ pos) := by
  induction es generalizing start i with
  | nil => exact .inr ⟨by simp [locate], by simpa using hpos⟩
  | cons e es ih =>
    rw [locate]
    by_cases hlt : pos < start + e.count * ps
    · refine .inl ⟨[], e, es, rfl, ?_, by simpa using hpos, by simpa using hlt⟩
      rw [if_pos hlt]
      simp
    rw [if_neg hlt]
    have hmul : ∀ n, (e.count + n) * ps = e.count * ps + n * ps := fun n => Nat.add_mul _ _ _
    have hpos' : start + e.count * ps ≤ pos := by omega
    rcases ih (i + 1) hpos' with ⟨pre, e', post, rfl, hres, hle, hlt'⟩ | ⟨hres, hle⟩
    · refine .inl ⟨e :: pre, e', post, rfl, ?_, ?_, ?_⟩
      · rw [hres, blocksOf_cons, length_append, length_blocks, length_cons, hmul, Nat.add_assoc,
          Nat.add_assoc, Nat.add_comm 1]
      · rw [blocksOf_cons, length_append, length_blocks, hmul]
        omega
      · rw [blocksOf_cons, length_append, length_blocks, Nat.add_assoc, hmul]
        omega
    refine .inr ⟨?_, ?_⟩
    · rw [hres, blocksOf_cons, length_append, length_blocks, hmul, Nat.add_assoc]
    · rw [blocksOf_cons, length_append, length_blocks, hmul]
      omega

theorem getElem?_blocksOf {pre post : List Extent} {e : Extent} {k : Nat} (hk : k < e.count) :
    (blocksOf (pre ++ e :: post))[(blocksOf pre).length + k]? = some (e.start + k) := by
  rw [blocksOf_append, getElem?_append_right (Nat.le_add_right _ _), Nat.add_sub_cancel_left, blocksOf_cons,
    getElem?_append_left (by rw [length_blocks]; exact hk), getElem?_blocks hk]

theorem locate_some {es : List Extent} {pos : Nat} (hps : 0 < ps) (h : pos / ps < (blocksOf es).length) :
    ∃ pre e post, es = pre ++ e :: post ∧ locate ps es pos 0 0 = (some pre.length, (blocksOf pre).length * ps) ∧
      (pos - (blocksOf pre).length * ps) % ps = pos % ps ∧ (pos - (blocksOf pre).length * ps) / ps < e.count ∧
      (blocksOf pre).length + (pos - (blocksOf pre).length * ps) / ps = pos / ps := by
  rcases locate_spec ps es 0 (Nat.zero_le pos) with ⟨pre, e, post, rfl, hres, hle, hlt⟩ | ⟨-, hle⟩
  · rw [Nat.zero_add] at hle hlt
    have hdiv : (pos - (blocksOf pre).length * ps) / ps = pos / ps - (blocksOf pre).length := by
      rw [Nat.mul_comm, Nat.sub_mul_div]
    have hge : (blocksOf pre).length ≤ pos / ps := (Nat.le_div_iff_mul_le hps).mpr hle
    have hup : pos / ps < (blocksOf pre).length + e.count := (Nat.div_lt_iff_lt_mul hps).mpr hlt
    refine ⟨pre, e, post, rfl, by simpa using hres, ?_, by omega, by omega⟩
    rw [Nat.mul_comm] at hle ⊢
    exact Nat.sub_mul_mod hle
  · rw [Nat.zero_add] at hle
    have := (Nat.le_div_iff_mul_le hps).mpr hle
    omega

theorem locate_none {es : List Extent} {pos : Nat} (hps : 0 < ps) (h : (blocksOf es).length ≤ pos / ps) :
    locate ps es pos 0 0 = (none, (blocksOf es).length * ps) := by
  rcases locate_spec ps es 0 (Nat.zero_le pos) with ⟨pre, e, post, rfl, -, -, hlt⟩ | ⟨hres, -⟩
  · rw [Nat.zero_add] at hlt
    have := (Nat.div_lt_iff_lt_mul hps).mpr hlt
    rw [blocksOf_append, blocksOf_cons, length_append, length_append, length_blocks] at h
    omega
  · rw [hres, Nat.zero_add]

theorem locate_counts {es fs : List Extent} {more : List Nat}
    (h : es.map count = fs.map count ++ more) {pos start : Nat} (i : Nat) (hle : start ≤ pos)
    (hlt : pos < start + (blocksOf fs).length * ps) : locate ps es pos start i = locate ps fs pos start i := by
  induction fs generalizing es start i with
  | nil => simp at hlt; omega
  | cons f fs ih =>
    cases es with
    | nil => simp at h
    | cons e es =>
      simp only [map_cons, cons_append, List.cons.injEq] at h
      rw [locate, locate, h.1]
      split
      · rfl
      · refine ih h.2 (i + 1) (by omega) ?_
        rw [blocksOf_cons, length_append, length_blocks, Nat.add_mul] at hlt
        omega

theorem count_getD {es fs : List Extent} {more : List Nat} (h : es.map count = fs.map count ++ more)
    {i : Nat} (hi : i < fs.length) (d : Extent) : (es.getD i d).count = (fs.getD i d).count := by
  have hes : i < es.length := by
    have := congrArg List.length h
    simp at this
    omega
  have hi' : (es.map count)[i]? = (fs.map count)[i]? := by
    rw [h, getElem?_append_left (by simpa using hi)]
  rw [getElem?_map, getElem?_map, getElem?_eq_getElem hes, getElem?_eq_getElem hi] at hi'
  rw [getD_eq_getElem _ _ hes, getD_eq_getElem _ _ hi]
  simpa using hi'

end locate

section bytes

variable {ps : Nat} {disk : Nat → Nat → β} {bs : List Nat} {pos k b : Nat}

theorem byteOf_isSome : (byteOf ps disk bs pos).isSome = true ↔ pos / ps < bs.length := by
  simp [byteOf]

theorem byteOf_eq (h : bs[pos / ps]? = some b) : byteOf ps disk bs pos = some (disk b (pos % ps)) := by
  rw [byteOf, h, Option.map_some]

theorem byteOf_congr {disk' : Nat → Nat → β} (h : ∀ b ∈ bs, disk' b = disk b) :
    byteOf ps disk' bs pos = byteOf ps disk bs pos := by
  unfold byteOf
  cases hb : bs[pos / ps]? with
  | none => rfl
  | some b => rw [Option.map_some, Option.map_some, h b (mem_of_getElem? hb)]

theorem byteOf_write (hnodup : bs.Nodup) (hb : bs[k]? = some b) (page : Nat → β) :
    byteOf ps (Function.update disk b page) bs pos =
      if pos / ps = k then some (page (pos % ps)) else byteOf ps disk bs pos := by
  split
  · rename_i hk
    rw [byteOf_eq (hk ▸ hb), Function.update_self]
  rename_i hk
  unfold byteOf
  cases hc : bs[pos / ps]? with
  | none => rfl
  | some c =>
    have hcb : c ≠ b := by
      rintro rfl
      have hlt : pos / ps < bs.length := (List.getElem?_eq_some_iff.mp hc).1
      exact hk ((getElem?_inj hlt hnodup).mp (hc.trans hb.symm))
    rw [Option.map_some, Option.map_some, Function.update_of_ne hcb]

theorem byteOf_append_left {more : List Nat} (h : pos / ps < bs.length) :
    byteOf ps disk (bs ++ more) pos = byteOf ps disk bs pos := by
  rw [byteOf, getElem?_append_left h, byteOf]

theorem byteOf_set {c : Nat} (hc : bs[k]? = some c) (hsame : disk b = disk c) :
    byteOf ps disk (bs.set k b) pos = byteOf ps disk bs pos := by
  unfold byteOf
  rw [getElem?_set]
  split
  · rename_i hk
    obtain ⟨hlt, -⟩ := List.getElem?_eq_some_iff.mp hc
    rw [if_pos hlt, ← hk, hc, Option.map_some, Option.map_some, hsame]
  · rfl

end bytes

end Lib
