import BoxOS.Boxcxx.DequeInv

/-!
# What a deque holds of the heap

- `Body.owns b x` counts the places where a deque keeps the address `x`. `Kept` says that what is allocated changes as
  what the deque owns, and `Goes` puts this together with the elements.
- Every operation has one lemma of that shape. The map grows at this price only: a block outside the iterators is lost,
  and `growMap_goes` needs that there is none (`Body.NoSpare`).
-/

namespace BoxOS.Boxcxx.BlockMap

open Lib List Body

variable {α : Type*} {k n : Nat} {h h' h₁ : Heap} {f f' f₁ : Nat → Nat} {b b' c : Body α} {vs ws : List α} {v : α}

/-! ## The heap -/

/-- No address is out twice, and the next one was never out. -/
def Heap.Fresh (h : Heap) : Prop := h.live.Nodup ∧ ∀ x ∈ h.live, x < h.nextId

/-- What is allocated changes as what is owned. -/
def Kept (h : Heap) (f : Nat → Nat) (h' : Heap) (f' : Nat → Nat) : Prop :=
  h.Fresh → (∀ x, f x ≤ h.live.count x) → h'.Fresh ∧ ∀ x, h'.live.count x + f x = h.live.count x + f' x

namespace Kept

theorem refl (h : Heap) (f : Nat → Nat) : Kept h f h f := fun hfresh _ => ⟨hfresh, fun _ => rfl⟩

theorem of_eq (hf : ∀ x, f' x = f x) : Kept h f h f' := fun hfresh _ => ⟨hfresh, fun x => by rw [hf]⟩

theorem trans (first : Kept h f h₁ f₁) (second : Kept h₁ f₁ h' f') : Kept h f h' f' := by
  intro hfresh hle
  obtain ⟨hmid, hcount⟩ := first hfresh hle
  have hle' : ∀ x, f₁ x ≤ h₁.live.count x := fun x => by
    have := hcount x
    have := hle x
    omega
  obtain ⟨hend, hcount'⟩ := second hmid hle'
  refine ⟨hend, fun x => ?_⟩
  have := hcount x
  have := hcount' x
  omega

theorem alloc (hf : ∀ x, f' x = f x + if h.nextId = x then 1 else 0) : Kept h f h.alloc f' := by
  intro hfresh _
  refine ⟨⟨?_, ?_⟩, fun x => ?_⟩
  · exact nodup_cons.mpr ⟨fun hin => absurd (hfresh.2 _ hin) (lt_irrefl _), hfresh.1⟩
  · intro x hx
    rcases mem_cons.mp hx with rfl | hx
    · exact Nat.lt_succ_self _
    · exact Nat.lt_succ_of_lt (hfresh.2 x hx)
  · simp only [Heap.alloc, count_cons, hf x, beq_iff_eq]
    omega

theorem free {a : Nat} (hf : ∀ x, f x = f' x + if a = x then 1 else 0) : Kept h f (h.free a) f' := by
  intro hfresh hle
  refine ⟨⟨hfresh.1.erase a, fun x hx => hfresh.2 x (mem_of_mem_erase hx)⟩, fun x => ?_⟩
  have hx := hle x
  rw [hf x] at hx ⊢
  simp only [Heap.free, count_erase, beq_iff_eq]
  by_cases heq : a = x
  · rw [if_pos heq] at hx
    simp only [if_pos heq]
    omega
  · simp only [if_neg heq]
    omega

end Kept

/-! ## What a deque owns -/

/-- The address of a slot of the map. -/
def slotOwns (x : Nat) (s : Option (Block α)) : Nat := s.elim 0 fun blk => if blk.id = x then 1 else 0

/-- The places where a deque keeps an address. -/
def Body.owns (b : Body α) (x : Nat) : Nat := (if b.arrayId = x then 1 else 0) + total (slotOwns x) b.map

/-- The places where a deque keeps an address; without a map it keeps none. -/
def owns (d : Deque α) (x : Nat) : Nat := d.elim 0 fun b => b.owns x

theorem total_replicate_none (x n : Nat) : total (slotOwns (α := α) x) (replicate n none) = 0 := by
  apply total_eq_zero
  intro s hs
  rw [(mem_replicate.mp hs).2]
  rfl

theorem owns_setCell (b : Body α) (it : Iter) (y : Option α) (x : Nat) : (b.setCell it y).owns x = b.owns x := by
  unfold Body.owns Body.setCell
  congr 1
  unfold total
  congr 1
  apply ext_getElem?
  intro j
  simp only [getElem?_map, getElem?_modify]
  cases b.map[j]? with
  | none => rfl
  | some s =>
    cases s with
    | none | some => split <;> rfl

theorem owns_writeAll (b : Body α) (it : Iter) (ys : List (Option α)) (x : Nat) :
    (b.writeAll k it ys).owns x = b.owns x := by
  induction ys generalizing b it with
  | nil => rfl
  | cons y ys ih =>
    unfold writeAll
    rw [ih, owns_setCell]

theorem owns_set (hn : n < b.map.length) (s : Option (Block α)) (x : Nat) :
    ({ b with map := b.map.set n s } : Body α).owns x + slotOwns x (b.slot n) = b.owns x + slotOwns x s := by
  have hget : b.map[n]? = some (b.slot n) := by
    unfold slot
    rw [getD_eq_getElem?_getD, getElem?_eq_getElem hn]
    rfl
  have := total_set (slotOwns x) hget s
  unfold Body.owns
  simp only
  omega

theorem lt_of_isSome_slot (hs : (b.slot n).isSome = true) : n < b.map.length := by
  by_contra hge
  unfold slot at hs
  rw [getD_eq_getElem?_getD, getElem?_eq_none (by omega)] at hs
  cases hs

theorem slot_set (b : Body α) (m : Nat) (s : Option (Block α)) (n : Nat) :
    ({ b with map := b.map.set m s } : Body α).slot n = if n = m ∧ m < b.map.length then s else b.slot n := by
  unfold slot
  by_cases hnm : m = n
  · subst hnm
    by_cases hlt : m < b.map.length
    · simp [hlt]
    · simp [hlt]
  · simp [hnm, Ne.symm hnm]

/-! ## Growing the map -/

/-- Every block of the map lies between the iterators. -/
def Body.NoSpare (b : Body α) : Prop :=
  ∀ n < b.map.length, (b.slot n).isSome = true → b.start.node ≤ n ∧ n ≤ b.finish.node

instance (b : Body α) : Decidable b.NoSpare :=
  inferInstanceAs (Decidable (∀ n < b.map.length, (b.slot n).isSome = true → b.start.node ≤ n ∧ n ≤ b.finish.node))

/-- The deque has these elements, and what is allocated changed as what the deque owns. -/
def Goes (k : Nat) (h : Heap) (b : Body α) (h' : Heap) (b' : Body α) (vs : List α) : Prop :=
  b'.Holds k vs ∧ Kept h b.owns h' b'.owns

theorem Goes.trans (first : Goes k h b h₁ c ws) (second : Goes k h₁ c h' b' vs) : Goes k h b h' b' vs :=
  ⟨second.1, first.2.trans second.2⟩

theorem total_window (hs : b.NoSpare) (x : Nat) :
    total (slotOwns x) ((b.map.drop b.start.node).take (b.finish.node - b.start.node + 1)) =
    total (slotOwns x) b.map := by
  have hsplit : b.map = b.map.take b.start.node ++ ((b.map.drop b.start.node).take (b.finish.node - b.start.node + 1) ++
      (b.map.drop b.start.node).drop (b.finish.node - b.start.node + 1)) := by
    rw [take_append_drop, take_append_drop]
  -- a slot outside is empty
  have hout : ∀ n, ¬(b.start.node ≤ n ∧ n ≤ b.finish.node) → ∀ s, b.map[n]? = some s → slotOwns x s = 0 := by
    intro n hn s hget
    cases s with
    | none => rfl
    | some blk =>
      have hslot : b.slot n = some blk := by
        unfold slot
        rw [getD_eq_getElem?_getD, hget]
        rfl
      have hin := List.getElem?_eq_some_iff.mp hget
      exact absurd (hs n hin.1 (by rw [hslot]; rfl)) hn
  have hfront : total (slotOwns x) (b.map.take b.start.node) = 0 := by
    apply total_eq_zero
    intro s hs
    obtain ⟨n, hget⟩ := mem_iff_getElem?.mp hs
    rw [getElem?_take] at hget
    split at hget
    · exact hout n (by omega) s hget
    · cases hget
  have hback : total (slotOwns x) ((b.map.drop b.start.node).drop (b.finish.node - b.start.node + 1)) = 0 := by
    apply total_eq_zero
    intro s hs
    obtain ⟨n, hget⟩ := mem_iff_getElem?.mp hs
    rw [getElem?_drop, getElem?_drop] at hget
    exact hout _ (by omega) s hget
  have htotal := congrArg (total (slotOwns x)) hsplit
  rw [total_append, total_append] at htotal
  omega

variable (atBack : Bool)

/-- **The map grows.** The same slots, somewhere in the middle of the map. -/
theorem growMap_goes (o : Throws) (hb : b.Holds k vs) (hs : o.growArray = false → b.NoSpare) :
    Goes k h b (growMap atBack h b o).1 (growMap atBack h b o).2.1 vs ∧
    ((growMap atBack h b o).2.2 = true → o.growArray = true) ∧
    ((growMap atBack h b o).2.2 = false → 0 < (growMap atBack h b o).2.1.start.node ∧
    (growMap atBack h b o).2.1.finish.node + 1 < (growMap atBack h b o).2.1.map.length) := by
  unfold growMap
  cases ho : o.growArray with
  | true => exact ⟨⟨hb, .refl _ _⟩, fun _ => rfl, (nomatch ·)⟩
  | false =>
    have hle := hb.start_le
    have hroom := hb.room
    have hbig := hb.big
    simp only [Bool.false_eq_true, if_false]
    generalize hlo : (b.map.length * 2 - (b.finish.node - b.start.node + 1)) / 2 +
      (if atBack = true then 0 else (b.map.length * 2 - (b.finish.node - b.start.node + 1)) / 4) = lo
    have hlo : 0 < lo ∧ lo + (b.finish.node - b.start.node + 1) < b.map.length * 2 := by
      split at hlo <;> omega
    generalize hd : b.finish.node - b.start.node = d at *
    have hwindow : ((b.map.drop b.start.node).take (d + 1)).length = d + 1 := by
      rw [length_take, length_drop]
      omega
    -- the slots of the new map
    have hslot : ∀ n, lo ≤ n → n ≤ lo + d →
        (replicate lo none ++ (b.map.drop b.start.node).take (d + 1) ++
          replicate (b.map.length * 2 - (d + 1) - lo) none).getD n none = b.slot (b.start.node + (n - lo)) := by
      intro n hn hnd
      unfold slot
      rw [getD_eq_getElem?_getD, getD_eq_getElem?_getD, append_assoc,
        getElem?_append_right (by rw [length_replicate]; exact hn), length_replicate,
        getElem?_append_left (by omega), getElem?_take, if_pos (by omega), getElem?_drop]
    refine ⟨⟨⟨hb.startOk, hb.finishOk, ?_, ?_, ?_, fun n hn hnd => ?_, fun i hi => ?_⟩, ?_⟩, False.elim, ?_⟩
    · have hlen := hb.len
      unfold Iter.pos at hlen ⊢
      simp only at hlen ⊢
      have : b.finish.node = b.start.node + d := by omega
      rw [this, Nat.add_mul] at hlen
      rw [Nat.add_mul]
      omega
    · simp only [length_append, length_replicate, hwindow]
      omega
    · simp only [length_append, length_replicate, hwindow]
      omega
    · have hn : lo ≤ n := hn
      have hnd : n ≤ lo + d := hnd
      unfold slot
      rw [hslot n hn hnd]
      exact hb.blocks _ (by omega) (by omega)
    · have hk := hb.pos_k
      have hnode := hb.node_of_pos (p := b.start.pos k + i) (Nat.le_add_right _ _) (by rw [hb.len]; omega)
      rw [← hb.elems i hi]
      -- the positions differ by a number of blocks
      have hshift : (⟨lo, b.start.off⟩ : Iter).pos k + i + b.start.node * k = b.start.pos k + i + lo * k := by
        unfold Iter.pos
        simp only
        omega
      have hdiv : ((⟨lo, b.start.off⟩ : Iter).pos k + i) / k + b.start.node = (b.start.pos k + i) / k + lo := by
        rw [← Nat.add_mul_div_right _ _ hk, hshift, Nat.add_mul_div_right _ _ hk]
      have hmod : ((⟨lo, b.start.off⟩ : Iter).pos k + i) % k = (b.start.pos k + i) % k := by
        rw [← Nat.add_mul_mod_self_right _ b.start.node k, hshift, Nat.add_mul_mod_self_right]
      unfold cellAt Body.cell Iter.ofPos
      simp only
      rw [hmod]
      congr 1
      unfold slot
      rw [hslot _ (by omega) (by omega)]
      unfold slot
      congr 1
      omega
    · -- the old array goes and the new one comes
      have hgrow : Kept h b.owns h.alloc fun x => b.owns x + if h.nextId = x then 1 else 0 := .alloc fun _ => rfl
      apply hgrow.trans
      apply Kept.free
      intro x
      have hwin := total_window (hs ho) x
      rw [hd] at hwin
      unfold Body.owns
      simp only [total_append, total_replicate_none, hwin]
      omega
    · intro _
      refine ⟨hlo.1, ?_⟩
      simp only [length_append, length_replicate, hwindow]
      omega

/-! ## Adding an element -/

/-- The block that an insertion needs next is there. -/
def NextReady (b : Body α) : Prop :=
  (atBack = false → 0 < b.start.node) ∧ (b.slot (nextSlot atBack b)).isSome = true

/-- A regrowth of the map finds no block outside the iterators. -/
def GrowsClean (b : Body α) (o : Throws) : Prop := atEdge atBack b → o.growArray = false → b.NoSpare

instance (atBack : Bool) (b : Body α) (o : Throws) : Decidable (GrowsClean atBack b o) :=
  inferInstanceAs (Decidable (atEdge atBack b → o.growArray = false → b.NoSpare))

theorem nextSlot_out (hpos : atBack = false → 0 < b.start.node) (hlo : b.start.node ≤ n)
    (hhi : n ≤ b.finish.node) : n ≠ nextSlot atBack b := by
  unfold nextSlot
  cases atBack with
  | true =>
    rw [if_pos rfl]
    omega
  | false =>
    have := hpos rfl
    rw [if_neg (by simp)]
    omega

theorem newBlock_goes (hb : b.Holds k vs) (hpos : atBack = false → 0 < b.start.node)
    (hlt : nextSlot atBack b < b.map.length) (hnone : (b.slot (nextSlot atBack b)).isSome = false) :
    Goes k h b h.alloc { b with map := b.map.set (nextSlot atBack b) (some ⟨h.nextId, fun _ => none⟩) } vs ∧
      NextReady atBack { b with map := b.map.set (nextSlot atBack b) (some ⟨h.nextId, fun _ => none⟩) } := by
  refine ⟨⟨?_, ?_⟩, hpos, ?_⟩
  · refine hb.of_slots (c := { b with map := b.map.set (nextSlot atBack b) _ }) rfl rfl length_set fun n hlo hhi => ?_
    rw [slot_set, if_neg fun hn => nextSlot_out atBack hpos hlo hhi hn.1]
  · apply Kept.alloc
    intro x
    have hset := owns_set hlt (some (⟨h.nextId, fun _ => none⟩ : Block α)) x
    rw [Option.isSome_eq_false_iff, Option.isNone_iff_eq_none] at hnone
    rw [hnone] at hset
    exact hset
  · show (slot _ (nextSlot atBack b)).isSome = true
    rw [slot_set, if_pos ⟨rfl, hlt⟩]
    rfl

theorem reserve_goes (o : Throws) (hb : b.Holds k vs) (hs : GrowsClean atBack b o) :
    Goes k h b (reserve atBack h b o).1 (reserve atBack h b o).2.1 vs ∧
    ((reserve atBack h b o).2.2 = true → o.growArray = true ∨ o.block = true) ∧
    ((reserve atBack h b o).2.2 = false → NextReady atBack (reserve atBack h b o).2.1) := by
  unfold reserve
  dsimp only
  generalize hg : (if atEdge atBack b then growMap atBack h b o else (h, b, false)) = g
  have hgrown : Goes k h b g.1 g.2.1 vs ∧ (g.2.2 = true → o.growArray = true) ∧
      (g.2.2 = false → (atBack = false → 0 < g.2.1.start.node) ∧ nextSlot atBack g.2.1 < g.2.1.map.length) := by
    subst hg
    split
    · rename_i hedge
      obtain ⟨hgoes, hthrew, hroom⟩ := growMap_goes (h := h) atBack o hb (hs hedge)
      refine ⟨hgoes, hthrew, fun hf => ⟨fun _ => (hroom hf).1, ?_⟩⟩
      have := (hroom hf).2
      have := hgoes.1.start_le
      unfold nextSlot
      split <;> omega
    rename_i hedge
    have hlt := hb.room
    have hle := hb.start_le
    refine ⟨⟨hb, .refl _ _⟩, (nomatch ·), fun _ => ?_⟩
    unfold atEdge at hedge
    unfold nextSlot
    cases atBack with
    | true =>
      simp only [if_true] at hedge ⊢
      exact ⟨(nomatch ·), by omega⟩
    | false =>
      simp only [Bool.false_eq_true, if_false] at hedge ⊢
      exact ⟨fun _ => by omega, by omega⟩
  obtain ⟨hgoes, hthrew, hroom⟩ := hgrown
  cases hthrown : g.2.2 with
  | true =>
    rw [if_pos rfl]
    exact ⟨hgoes, fun _ => .inl (hthrew hthrown), fun hf => absurd hf (by simp [hthrown])⟩
  | false =>
    obtain ⟨hpos, hlt⟩ := hroom hthrown
    rw [if_neg (by simp)]
    cases hsome : (g.2.1.slot (nextSlot atBack g.2.1)).isSome with
    | true =>
      rw [if_pos rfl]
      exact ⟨hgoes, fun ht => absurd ht (by simp [hthrown]), fun _ => ⟨hpos, hsome⟩⟩
    | false =>
      rw [if_neg (by simp)]
      cases hblock : o.block with
      | true => exact ⟨hgoes, fun _ => .inr rfl, (nomatch ·)⟩
      | false =>
        obtain ⟨hnew, hready⟩ := newBlock_goes (h := g.1) atBack hgoes.1 hpos hlt hsome
        rw [if_neg (by simp)]
        exact ⟨hgoes.trans hnew, (nomatch ·), fun _ => hready⟩

/-- The element that comes in at an end. -/
def addAt (vs : List α) (v : α) : List α := if atBack then vs ++ [v] else v :: vs

theorem place_goes (hb : b.Holds k vs) (hready : needsBlock k atBack b → NextReady atBack b) (v : α) :
    Goes k h b h (place k atBack b v) (addAt atBack vs v) := by
  unfold needsBlock NextReady nextSlot at hready
  unfold addAt
  cases atBack with
  | true =>
    refine ⟨hb.placeBack (fun hend => ?_) v, .of_eq fun x => owns_setCell b b.finish (some v) x⟩
    have hslot := (hready hend).2
    exact ⟨lt_of_isSome_slot hslot, hslot⟩
  | false =>
    exact ⟨hb.placeFront (fun hzero => ⟨(hready hzero).1 rfl, (hready hzero).2⟩) v,
      .of_eq fun x => owns_setCell b (b.start.decr k) (some v) x⟩

/-- Something may throw. -/
def Throws.Any (o : Throws) : Prop :=
  o.initArray = true ∨ o.initBlock = true ∨ o.growArray = true ∨ o.block = true ∨ o.construct = true

/-- **An element comes in at an end**, or the elements stay. -/
theorem emplaceBody_goes (o : Throws) (hb : b.Holds k vs) (hs : needsBlock k atBack b → GrowsClean atBack b o) (v : α) :
    Goes k h b (emplaceBody k atBack h b v o).1 (emplaceBody k atBack h b v o).2.1
      (if (emplaceBody k atBack h b v o).2.2 then vs else addAt atBack vs v) ∧
    ((emplaceBody k atBack h b v o).2.2 = true → o.Any) := by
  unfold emplaceBody
  generalize hr : (if needsBlock k atBack b then reserve atBack h b o else (h, b, false)) = r
  have hreserved : Goes k h b r.1 r.2.1 vs ∧ (r.2.2 = true → o.Any) ∧
      (r.2.2 = false → needsBlock k atBack r.2.1 → NextReady atBack r.2.1) := by
    subst hr
    split
    · rename_i hneeds
      obtain ⟨hgoes, hthrew, hready⟩ := reserve_goes (h := h) atBack o hb (hs hneeds)
      refine ⟨hgoes, fun ht => ?_, fun hf _ => hready hf⟩
      rcases hthrew ht with hgrow | hblock
      · exact .inr (.inr (.inl hgrow))
      · exact .inr (.inr (.inr (.inl hblock)))
    · rename_i hneeds
      exact ⟨⟨hb, .refl _ _⟩, (nomatch ·), fun _ hin => absurd hin hneeds⟩
  obtain ⟨hgoes, hany, hready⟩ := hreserved
  rcases Bool.eq_false_or_eq_true r.2.2 with hthrown | hthrown
  · simp only [hthrown, if_true]
    exact ⟨hgoes, fun _ => hany hthrown⟩
  simp only [hthrown, Bool.false_eq_true, if_false]
  cases hcons : o.construct with
  | true => exact ⟨hgoes, fun _ => .inr (.inr (.inr (.inr hcons)))⟩
  | false => exact ⟨hgoes.trans (place_goes atBack hgoes.1 (hready hthrown) v), (nomatch ·)⟩

/-! ## Deques with and without a map -/

/-- The elements of a deque; without a map it has none. -/
def Holds (k : Nat) (d : Deque α) (vs : List α) : Prop := d.elim (vs = []) fun b => b.Holds k vs

/-- The deque has these elements, and what is allocated changed as what the deque owns. -/
def Moves (k : Nat) (h : Heap) (d : Deque α) (h' : Heap) (d' : Deque α) (vs : List α) : Prop :=
  Holds k d' vs ∧ Kept h (owns d) h' (owns d')

theorem Moves.trans {d d₁ d' : Deque α} (first : Moves k h d h₁ d₁ ws) (second : Moves k h₁ d₁ h' d' vs) :
    Moves k h d h' d' vs := ⟨second.1, first.2.trans second.2⟩

theorem Goes.moves (hgoes : Goes k h b h' b' vs) : Moves k h (some b) h' (some b') vs := hgoes

theorem initMap_moves (hk : 0 < k) (h : Heap) (o : Throws) :
    Moves k h (none : Deque α) (initMap (α := α) h o).1 (initMap h o).2 [] ∧ ((initMap (α := α) h o).2 = none → o.Any) ∧
      ∀ b ∈ (initMap (α := α) h o).2, ∀ atBack, ¬atEdge atBack b := by
  unfold initMap
  cases harray : o.initArray with
  | true =>
    rw [if_pos rfl]
    exact ⟨⟨rfl, .refl _ _⟩, fun _ => .inl harray, fun _ hb => by cases hb⟩
  | false =>
    rw [if_neg (by simp)]
    have harr : Kept h (owns (none : Deque α)) h.alloc fun x => if h.nextId = x then 1 else 0 :=
      .alloc fun x => (Nat.zero_add _).symm
    cases hblock : o.initBlock with
    | true =>
      rw [if_pos rfl]
      refine ⟨⟨rfl, harr.trans (.free fun x => ?_)⟩, fun _ => .inr (.inl hblock), fun _ hb => by cases hb⟩
      exact (Nat.zero_add _).symm
    | false =>
      rw [if_neg (by simp)]
      refine ⟨⟨⟨hk, hk, rfl, ?_, ?_, fun n hlo hhi => ?_, fun i hi => ?_⟩, harr.trans (.alloc fun x => ?_)⟩,
        (nomatch ·), ?_⟩
      · show 4 < 8
        omega
      · exact le_rfl
      · have hlo : 4 ≤ n := hlo
        have hhi : n ≤ 4 := hhi
        rw [show n = 4 by omega]
        rfl
      · cases hi
      · simp [owns, Body.owns, slotOwns, total, replicate]
      · intro b hb atBack
        cases hb
        unfold atEdge
        cases atBack <;> simp

/-- What an insertion at an end asks of the map. -/
def EmplaceClean (k : Nat) (atBack : Bool) (d : Deque α) (o : Throws) : Prop :=
  ∀ b ∈ d, needsBlock k atBack b → GrowsClean atBack b o

theorem emplace_moves (hk : 0 < k) (atBack : Bool) (o : Throws) {d : Deque α} (hd : Holds k d vs)
    (hs : EmplaceClean k atBack d o) (v : α) :
    Moves k h d (emplace k atBack h d v o).1 (emplace k atBack h d v o).2.1 (if (emplace k atBack h d v o).2.2 then
    vs else addAt atBack vs v) ∧ ((emplace k atBack h d v o).2.2 = true → o.Any) := by
  cases d with
  | some b => exact emplaceBody_goes atBack o hd (hs b rfl) v
  | none =>
    have hvs : vs = [] := hd
    subst hvs
    obtain ⟨hinit, hany, hedge⟩ := initMap_moves (α := α) hk h o
    unfold emplace
    cases hres : initMap (α := α) h o with
    | mk h₁ d₁ =>
      rw [hres] at hinit hany hedge
      cases d₁ with
      | none => exact ⟨hinit, fun _ => hany rfl⟩
      | some b =>
        obtain ⟨hgoes, hthrew⟩ :=
          emplaceBody_goes (h := h₁) atBack o hinit.1 (fun _ he => absurd he (hedge b rfl atBack)) v
        exact ⟨hinit.trans hgoes.moves, hthrew⟩

/-- What several insertions at an end ask of the map. -/
def AllClean (k : Nat) (atBack : Bool) : Heap → Deque α → List (α × Throws) → Prop
  | _, _, [] => True
  | h, d, v :: vs => EmplaceClean k atBack d v.2 ∧
    ((emplace k atBack h d v.1 v.2).2.2 = false →
      AllClean k atBack (emplace k atBack h d v.1 v.2).1 (emplace k atBack h d v.1 v.2).2.1 vs)

/-- Several elements come in at an end. -/
def addAll (vs : List α) (ws : List (α × Throws)) : List α := (ws.map Prod.fst).foldl (addAt atBack) vs

theorem addAll_back (vs : List α) (ws : List (α × Throws)) : addAll true vs ws = vs ++ ws.map Prod.fst := by
  unfold addAll
  generalize ws.map Prod.fst = us
  induction us generalizing vs with
  | nil => simp
  | cons u us ih =>
    rw [foldl_cons, ih]
    simp [addAt]

theorem addAll_front (vs : List α) (ws : List (α × Throws)) : addAll false vs ws = (ws.map Prod.fst).reverse ++ vs := by
  unfold addAll
  generalize ws.map Prod.fst = us
  induction us generalizing vs with
  | nil => simp
  | cons u us ih =>
    rw [foldl_cons, ih]
    simp [addAt]

/-- **Some elements come in**, up to the first that throws. -/
theorem emplaceAll_moves (hk : 0 < k) (atBack : Bool) {d : Deque α} {ws : List (α × Throws)} (hd : Holds k d vs)
    (hs : AllClean k atBack h d ws) : ∃ m ≤ ws.length,
    Moves k h d (emplaceAll k atBack h d ws).1 (emplaceAll k atBack h d ws).2.1 (addAll atBack vs (ws.take m)) ∧
    ((emplaceAll k atBack h d ws).2.2 = true → m < ws.length ∧ ∃ w ∈ ws, w.2.Any) ∧
    ((emplaceAll k atBack h d ws).2.2 = false → m = ws.length) := by
  induction ws generalizing h d vs with
  | nil => exact ⟨0, le_rfl, ⟨hd, .refl _ _⟩, (nomatch ·), fun _ => rfl⟩
  | cons w ws ih =>
    obtain ⟨hclean, hrest⟩ := hs
    obtain ⟨hmoves, hany⟩ := emplace_moves (h := h) hk atBack w.2 hd hclean w.1
    unfold emplaceAll
    rcases Bool.eq_false_or_eq_true (emplace k atBack h d w.1 w.2).2.2 with hthrown | hthrown
    · rw [if_pos hthrown] at hmoves ⊢
      refine ⟨0, Nat.zero_le _, hmoves, fun _ => ⟨Nat.succ_pos _, w, mem_cons_self, hany hthrown⟩, fun hf => ?_⟩
      rw [hthrown] at hf
      cases hf
    rw [if_neg (by simp [hthrown])] at hmoves ⊢
    obtain ⟨m, hm, hgoes, hthrew, hall⟩ := ih hmoves.1 (hrest hthrown)
    refine ⟨m + 1, Nat.succ_le_succ hm, hmoves.trans hgoes, fun ht => ?_, fun hf => congrArg Nat.succ (hall hf)⟩
    obtain ⟨hlt, x, hx, hxany⟩ := hthrew ht
    exact ⟨Nat.succ_lt_succ hlt, x, mem_cons_of_mem _ hx, hxany⟩

/-! ## Taking elements out -/

theorem dropSlot_kept (h : Heap) (b : Body α) (n : Nat) : Kept h b.owns (dropSlot h b n).1 (dropSlot h b n).2.owns := by
  unfold dropSlot
  cases hslot : b.slot n with
  | none => exact .refl _ _
  | some blk =>
    apply Kept.free
    intro x
    have := owns_set (lt_of_isSome_slot (by rw [hslot]; rfl)) none x
    rw [hslot] at this
    exact this.symm

@[simp] theorem dropSlot_start (h : Heap) (b : Body α) (n : Nat) : (dropSlot h b n).2.start = b.start := by
  unfold dropSlot
  split <;> rfl

@[simp] theorem dropSlot_finish (h : Heap) (b : Body α) (n : Nat) : (dropSlot h b n).2.finish = b.finish := by
  unfold dropSlot
  split <;> rfl

@[simp] theorem dropSlot_length (h : Heap) (b : Body α) (n : Nat) : (dropSlot h b n).2.map.length = b.map.length := by
  unfold dropSlot
  split
  · rfl
  · exact length_set

theorem slot_dropSlot (h : Heap) (b : Body α) (n m : Nat) :
    (dropSlot h b n).2.slot m = if m = n then none else b.slot m := by
  unfold dropSlot
  cases hslot : b.slot n with
  | none =>
    by_cases he : m = n
    · rw [if_pos he, he, hslot]
    · rw [if_neg he]
  | some blk =>
    rw [slot_set]
    have hlt := lt_of_isSome_slot (b := b) (n := n) (by rw [hslot]; rfl)
    simp [hlt]

theorem dropSlot_goes (hb : b.Holds k vs) (hout : n < b.start.node ∨ b.finish.node < n) :
    Goes k h b (dropSlot h b n).1 (dropSlot h b n).2 vs := by
  refine ⟨hb.of_slots (by simp) (by simp) (by simp) fun m hlo hhi => ?_, dropSlot_kept h b n⟩
  rw [slot_dropSlot, if_neg (by omega)]

theorem popBack_goes (hb : b.Holds k (vs ++ [v])) : Goes k h b (popBack k h b).1 (popBack k h b).2 vs := by
  have hpopped := hb.popBack
  have hkept : Kept h b.owns h (({ b with finish := b.finish.decr k } : Body α).setCell (b.finish.decr k) none).owns :=
    .of_eq fun x => owns_setCell _ _ _ x
  unfold popBack
  dsimp only
  split
  · exact Goes.trans ⟨hpopped, hkept⟩ (dropSlot_goes hpopped (.inr (Nat.lt_succ_self _)))
  · exact ⟨hpopped, hkept⟩

theorem popFront_goes (hb : b.Holds k (v :: vs)) : Goes k h b (popFront k h b).1 (popFront k h b).2 vs := by
  have hpopped := hb.popFront
  have hkept : Kept h b.owns h ({ b.setCell b.start none with start := b.start.incr k } : Body α).owns :=
    .of_eq fun x => owns_setCell b b.start none x
  unfold popFront
  dsimp only
  split
  · rename_i hpos
    exact Goes.trans ⟨hpopped, hkept⟩ (dropSlot_goes hpopped (.inl (Nat.sub_lt hpos Nat.one_pos)))
  · exact ⟨hpopped, hkept⟩

theorem popBacks_goes (hb : b.Holds k vs) (hn : n ≤ vs.length) :
    Goes k h b (popBacks k n h b).1 (popBacks k n h b).2 (vs.take (vs.length - n)) := by
  induction n generalizing h b vs with
  | zero =>
    rw [Nat.sub_zero, take_length]
    exact ⟨hb, .refl _ _⟩
  | succ n ih =>
    obtain rfl | ⟨us, u, rfl⟩ := eq_nil_or_concat vs
    · cases hn
    rw [concat_eq_append] at hb hn ⊢
    rw [length_append, length_singleton] at hn ⊢
    have hpop := popBack_goes (h := h) hb
    have hrest := ih (h := (popBack k h b).1) hpop.1 (by omega)
    rw [show us.length + 1 - (n + 1) = us.length - n by omega, take_append_of_le_length (by omega)]
    exact hpop.trans hrest

theorem clear_goes (hb : b.Holds k vs) : Goes k h b (clear k h b).1 (clear k h b).2 [] := by
  have := popBacks_goes (h := h) hb (n := vs.length) le_rfl
  rw [Nat.sub_self, take_zero] at this
  unfold clear
  rw [hb.size]
  exact this

theorem dropSlots_goes {p : Nat → Bool} {ns : List Nat} (hb : b.Holds k vs)
    (hp : ∀ n, p n = true → n < b.start.node ∨ b.finish.node < n) :
    Goes k h b (dropSlots p ns h b).1 (dropSlots p ns h b).2 vs := by
  induction ns generalizing h b with
  | nil => exact ⟨hb, .refl _ _⟩
  | cons n ns ih =>
    unfold dropSlots
    split
    · rename_i hn
      have hdrop := dropSlot_goes (h := h) hb (hp n hn)
      exact hdrop.trans (ih hdrop.1 (by simpa using hp))
    · exact ih hb hp

theorem shrinkToFit_goes (hb : b.Holds k vs) : Goes k h b (shrinkToFit h b).1 (shrinkToFit h b).2 vs := by
  apply dropSlots_goes hb
  intro n hn
  simpa using hn

theorem dropSlots_kept (ns : List Nat) (h : Heap) (b : Body α) :
    Kept h b.owns (dropSlots (fun _ => true) ns h b).1 (dropSlots (fun _ => true) ns h b).2.owns ∧
    (dropSlots (fun _ => true) ns h b).2.map.length = b.map.length ∧
    ∀ m, (dropSlots (fun _ => true) ns h b).2.slot m = if m ∈ ns then none else b.slot m := by
  induction ns generalizing h b with
  | nil => exact ⟨.refl _ _, rfl, fun m => by simp [dropSlots]⟩
  | cons n ns ih =>
    obtain ⟨hkept, hlen, hslots⟩ := ih (dropSlot h b n).1 (dropSlot h b n).2
    unfold dropSlots
    rw [if_pos rfl]
    refine ⟨(dropSlot_kept h b n).trans hkept, hlen.trans (dropSlot_length h b n), fun m => ?_⟩
    rw [hslots, slot_dropSlot]
    by_cases hm : m ∈ ns
    · simp [hm]
    · simp [hm]

theorem teardown_kept {d : Deque α} (hd : Holds k d vs) : Kept h (owns d) (teardown k h d) (owns (none : Deque α)) := by
  cases d with
  | none => exact .refl _ _
  | some b =>
    have hclear := clear_goes (h := h) (show b.Holds k vs from hd)
    unfold teardown
    obtain ⟨hkept, hlen, hslots⟩ :=
      dropSlots_kept (List.range (clear k h b).2.map.length) (clear k h b).1 (clear k h b).2
    refine (hclear.2.trans hkept).trans (.free fun x => ?_)
    have hempty : total (slotOwns x)
        (dropSlots (fun _ => true) (List.range (clear k h b).2.map.length) (clear k h b).1 (clear k h b).2).2.map =
        0 := by
      apply total_eq_zero
      intro s hs
      obtain ⟨n, hget⟩ := mem_iff_getElem?.mp hs
      have hn := (List.getElem?_eq_some_iff.mp hget).1
      have hslot := hslots n
      rw [if_pos (by rw [mem_range, ← hlen]; exact hn)] at hslot
      unfold slot at hslot
      rw [getD_eq_getElem?_getD, hget] at hslot
      have hnone : s = none := hslot
      rw [hnone]
      rfl
    unfold Body.owns
    rw [hempty]
    exact Nat.add_comm _ _

/-! ## Elements at other places -/

theorem size_of_holds {d : Deque α} (hd : Holds k d vs) : (d.map (size k)).getD 0 = vs.length := by
  cases d with
  | none =>
    have hvs : vs = [] := hd
    rw [hvs]
    rfl
  | some b => exact Body.Holds.size hd

theorem writeAll_goes (hb : b.Holds k vs) (ws : List α) {q : Nat} (hq : q + ws.length ≤ vs.length) :
    Goes k h b h (b.writeAll k (b.start.add k q) (ws.map some)) (vs.take q ++ ws ++ vs.drop (q + ws.length)) := by
  rw [hb.add_start]
  exact ⟨hb.writeAll hq, .of_eq fun x => owns_writeAll b _ _ x⟩

theorem rotateFrom_goes {pos : Nat} (hb : b.Holds k (vs ++ ws)) (hpos : pos ≤ vs.length) :
    Goes k h b h (rotateFrom k pos vs.length b) (vs.take pos ++ ws ++ vs.drop pos) := by
  have hwritten :
      (b.elems k).drop vs.length ++ ((b.elems k).take vs.length).drop pos = (ws ++ vs.drop pos).map some := by
    rw [hb.elements, map_append, drop_left' (length_map ..), take_left' (length_map ..),
      map_append, map_drop]
  have hlen : pos + (ws ++ vs.drop pos).length = (vs ++ ws).length := by
    rw [length_append, length_append, length_drop]
    omega
  have hgoes := writeAll_goes (h := h) hb (ws ++ vs.drop pos) hlen.le
  unfold rotateFrom
  rw [hwritten]
  rw [hlen, drop_length, append_nil, take_append_of_le_length hpos, ← append_assoc] at hgoes
  exact hgoes

theorem insert_moves (hk : 0 < k) {d : Deque α} {pos : Nat} {us : List (α × Throws)} (hd : Holds k d vs)
    (hs : AllClean k true h d us) (hpos : pos ≤ vs.length) :
    ∃ zs, Moves k h d (insert k h d pos us).1 (insert k h d pos us).2.1 zs ∧
    if (insert k h d pos us).2.2 then (∃ u ∈ us, u.2.Any) ∧
    ∃ m < us.length, zs = vs ++ (us.take m).map Prod.fst else zs = vs.take pos ++ us.map Prod.fst ++ vs.drop pos := by
  obtain ⟨m, -, hmoves, hthrew, hall⟩ := emplaceAll_moves (h := h) hk true hd hs
  rw [addAll_back] at hmoves
  unfold insert
  rcases Bool.eq_false_or_eq_true (emplaceAll k true h d us).2.2 with hthrown | hthrown
  · simp only [hthrown, if_true]
    exact ⟨_, hmoves, (hthrew hthrown).2, m, (hthrew hthrown).1, rfl⟩
  simp only [hthrown, Bool.false_eq_true, if_false]
  rw [hall hthrown, take_length] at hmoves
  refine ⟨_, ?_, rfl⟩
  rw [size_of_holds hd]
  cases hres : (emplaceAll k true h d us).2.1 with
  | none =>
    rw [hres] at hmoves
    have hnil : vs ++ us.map Prod.fst = [] := hmoves.1
    obtain ⟨rfl, hus⟩ := append_eq_nil_iff.mp hnil
    rw [hus] at hmoves ⊢
    simpa using hmoves
  | some c =>
    rw [hres] at hmoves
    exact hmoves.trans (rotateFrom_goes hmoves.1 hpos).moves

theorem prependRange_moves (hk : 0 < k) {d : Deque α} {us : List (α × Throws)} (hd : Holds k d vs)
    (hs : AllClean k false h d us) : ∃ zs, Moves k h d (prependRange k h d us).1 (prependRange k h d us).2.1 zs ∧
    if (prependRange k h d us).2.2 then (∃ u ∈ us, u.2.Any) ∧
    ∃ m < us.length, zs = ((us.take m).map Prod.fst).reverse ++ vs else zs = us.map Prod.fst ++ vs := by
  obtain ⟨m, -, hmoves, hthrew, hall⟩ := emplaceAll_moves (h := h) hk false hd hs
  rw [addAll_front] at hmoves
  unfold prependRange
  rcases Bool.eq_false_or_eq_true (emplaceAll k false h d us).2.2 with hthrown | hthrown
  · simp only [hthrown, if_true]
    exact ⟨_, hmoves, (hthrew hthrown).2, m, (hthrew hthrown).1, rfl⟩
  simp only [hthrown, Bool.false_eq_true, if_false]
  rw [hall hthrown, take_length] at hmoves
  refine ⟨_, ?_, rfl⟩
  cases hres : (emplaceAll k false h d us).2.1 with
  | none =>
    rw [hres] at hmoves
    have hnil : (us.map Prod.fst).reverse ++ vs = [] := hmoves.1
    obtain ⟨hus, rfl⟩ := append_eq_nil_iff.mp hnil
    rw [reverse_eq_nil_iff.mp hus] at hmoves ⊢
    exact hmoves
  | some c =>
    rw [hres] at hmoves
    have hc : c.Holds k ((us.map Prod.fst).reverse ++ vs) := hmoves.1
    have hwritten : ((c.elems k).take us.length).reverse = (us.map Prod.fst).map some := by
      rw [hc.elements, map_append, take_left' (by simp), map_reverse, reverse_reverse]
    have hstart : c.start.add k (0 : Nat) = c.start := by
      rw [hc.add_start, Nat.add_zero, hc.startOk.ofPos_pos]
    have hgoes := writeAll_goes (h := (emplaceAll k false h d us).1) hc (us.map Prod.fst) (q := 0) (by simp)
    rw [hstart, take_zero, nil_append, Nat.zero_add, drop_left' (by simp)] at hgoes
    rw [Option.map_some, hwritten]
    exact hmoves.trans hgoes.moves

theorem erase_goes {pos : Nat} (hb : b.Holds k vs) (hpos : pos + n ≤ vs.length) :
    Goes k h b (erase k h b pos n).1 (erase k h b pos n).2 (vs.take pos ++ vs.drop (pos + n)) := by
  have hlen : pos + (vs.drop (pos + n)).length = vs.length - n := by
    rw [length_drop]
    omega
  have hgoes := writeAll_goes (h := h) hb (vs.drop (pos + n)) (q := pos) (by omega)
  have hpop := popBacks_goes (h := h) hgoes.1 (n := n) (by simp; omega)
  unfold erase
  rw [hb.elements, ← map_drop]
  have hkeep : (vs.take pos ++ vs.drop (pos + n)).length = vs.length - n := by
    rw [length_append, length_take, length_drop]
    omega
  rw [take_left' (by rw [hkeep, length_append, hkeep, length_drop, hlen]; omega)] at hpop
  exact hgoes.trans hpop

theorem resize_moves (hk : 0 < k) {d : Deque α} {os : Nat → Throws} (hd : Holds k d vs)
    (hs : AllClean k true h d ((List.range (n - vs.length)).map fun j => (v, os j))) :
    ∃ zs, Moves k h d (resize k h d n v os).1 (resize k h d n v os).2.1 zs ∧
    if (resize k h d n v os).2.2 then (∃ j, (os j).Any) ∧ ∃ m, vs.length + m < n ∧
    zs = vs ++ replicate m v else zs = vs.take n ++ replicate (n - vs.length) v := by
  obtain ⟨m, hm, hmoves, hthrew, hall⟩ := emplaceAll_moves (h := h) hk true hd hs
  have hvalues : ((((List.range (n - vs.length)).map fun j => (v, os j)).take m).map Prod.fst) = replicate m v := by
    rw [length_map, length_range] at hm
    apply eq_replicate_iff.mpr
    constructor
    · simp [hm]
    · intro x hx
      obtain ⟨y, hy, rfl⟩ := mem_map.mp hx
      obtain ⟨j, -, rfl⟩ := mem_map.mp (mem_of_mem_take hy)
      rfl
  rw [addAll_back, hvalues] at hmoves
  rw [length_map, length_range] at hthrew hall
  -- elements come in
  have hadded : vs.length ≤ n → ∃ zs,
      Moves k h d (emplaceAll k true h d ((List.range (n - vs.length)).map fun j => (v, os j))).1
        (emplaceAll k true h d ((List.range (n - vs.length)).map fun j => (v, os j))).2.1 zs ∧
      if (emplaceAll k true h d ((List.range (n - vs.length)).map fun j => (v, os j))).2.2 then
        (∃ j, (os j).Any) ∧ ∃ m, vs.length + m < n ∧ zs = vs ++ replicate m v
      else zs = vs.take n ++ replicate (n - vs.length) v := by
    intro hle
    refine ⟨_, hmoves, ?_⟩
    split
    · rename_i ht
      obtain ⟨hlt, u, hu, hany⟩ := hthrew ht
      obtain ⟨j, -, rfl⟩ := mem_map.mp hu
      exact ⟨⟨j, hany⟩, m, by omega, rfl⟩
    · rename_i hf
      rw [hall (by simpa using hf), take_of_length_le hle]
  cases d with
  | none =>
    have hvs : vs = [] := hd
    subst hvs
    exact hadded (Nat.zero_le _)
  | some b =>
    have hb : b.Holds k vs := hd
    unfold resize
    simp only [hb.size]
    by_cases hgt : vs.length > n
    · simp only [if_pos hgt]
      have hpop := popBacks_goes (h := h) hb (n := vs.length - n) (by omega)
      rw [show vs.length - (vs.length - n) = n by omega] at hpop
      refine ⟨_, hpop.moves, ?_⟩
      rw [if_neg (by simp), show n - vs.length = 0 by omega, replicate_zero, append_nil]
    · simp only [if_neg hgt]
      exact hadded (by omega)

end BoxOS.Boxcxx.BlockMap
