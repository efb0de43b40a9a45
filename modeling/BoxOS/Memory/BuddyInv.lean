import BoxOS.Lib.Dyadic
import BoxOS.Memory.Buddy
import Mathlib.Data.Finset.Card
import Mathlib.Order.Interval.Finset.Nat

/-!
# What the buddy allocator keeps

`BuddyInv z T`: the free lists hold aligned blocks of the zone that share no page, and a bit is clear exactly for the
pages of these blocks and for the pages of `T`, which are on their way from one list to another. Four steps change it: a
block enters its list (`insert`), a block leaves it (`remove`), pages are marked allocated (`markAllocated`) or free
(`markFree`). Every function of `buddy.c` is a sequence of them. In `buddy_free` a clear bit at the address of a buddy
means that a free block begins there (`BuddyInv.buddy_listed`), so the order byte is the one of that block.
-/

open Function (update update_of_ne update_self)

namespace BoxOS.Memory

open Lib BuddyZone List BuddyZone

namespace BuddyZone

/-- The address of a page of the zone. -/
def addr (z : BuddyZone) (i : Nat) : Nat := z.base + i * buddyPageSize

/-- The block of order `o` at page `i` is on its list. -/
def Listed (z : BuddyZone) (i o : Nat) : Prop := z.addr i ∈ z.freeLists o

end BuddyZone

structure BuddyInv (z : BuddyZone) (T : Set Nat) : Prop where
  listed : ∀ o, ∀ a ∈ z.freeLists o,
    o ≤ buddyMaxOrder ∧ z.nodeOrder a = o ∧ ∃ i, a = z.addr i ∧ 2 ^ o ∣ i ∧ i + 2 ^ o ≤ z.totalPages
  nodup : ∀ o, (z.freeLists o).Nodup
  apart : ∀ i o j o' p, z.Listed i o → z.Listed j o' → p ∈ block i o → p ∈ block j o' → i = j ∧ o = o'
  clear : ∀ p, z.allocMap p = false ↔ p ∈ T ∨ ∃ i o, z.Listed i o ∧ p ∈ block i o
  transit : ∀ p ∈ T, p < z.totalPages ∧ ∀ i o, z.Listed i o → p ∉ block i o
  count : z.freeCount = ((Finset.range z.totalPages).filter fun p => z.allocMap p = false).card

variable {z : BuddyZone} {T : Set Nat} {i j o o' p : Nat}

theorem addr_inj (h : z.addr i = z.addr j) : i = j := by
  unfold BuddyZone.addr buddyPageSize at h
  omega

theorem pageIndex_addr (z : BuddyZone) (i : Nat) : z.pageIndex (z.addr i) = i := by
  unfold pageIndex BuddyZone.addr buddyPageSize
  omega

theorem BuddyInv.block_of (h : BuddyInv z T) (hl : z.Listed i o) :
    o ≤ buddyMaxOrder ∧ z.nodeOrder (z.addr i) = o ∧ 2 ^ o ∣ i ∧ i + 2 ^ o ≤ z.totalPages := by
  obtain ⟨ho, hn, j, hj, hdvd, hle⟩ := h.listed o _ hl
  obtain rfl := addr_inj hj
  exact ⟨ho, hn, hdvd, hle⟩

theorem buddyInit_inv (base totalPages : Nat) : BuddyInv (buddyInit base totalPages) ∅ where
  listed _ _ h := nomatch h
  nodup _ := nodup_nil
  apart _ _ _ _ _ h := nomatch h
  clear p := ⟨nofun, fun h => h.elim (fun h => h.elim) fun ⟨_, _, h, _⟩ => (nomatch h)⟩
  transit _ h := h.elim
  count := by simp [buddyInit]

/-! ## The four steps -/

theorem listed_insert {k q : Nat} : (z.buddyListInsert (z.addr i) o).Listed k q ↔ z.Listed k q ∨ k = i ∧ q = o := by
  unfold BuddyZone.Listed buddyListInsert
  change z.addr k ∈ update z.freeLists o (z.freeLists o ++ [z.addr i]) q ↔ _
  by_cases hq : q = o
  · subst hq
    rw [update_self, mem_append, mem_singleton]
    exact or_congr_right ⟨fun h => ⟨addr_inj h, rfl⟩, fun h => congrArg _ h.1⟩
  · rw [update_of_ne hq]
    exact ⟨.inl, fun h => h.resolve_right fun hno => hq hno.2⟩

theorem BuddyInv.insert (h : BuddyInv z T) (ho : o ≤ buddyMaxOrder) (hi : 2 ^ o ∣ i) (hsub : block i o ⊆ T) :
    BuddyInv (z.buddyListInsert (z.addr i) o) (T \ block i o) := by
  have hnew : ∀ j o', z.Listed j o' → ∀ p, p ∈ block i o → p ∉ block j o' := fun j o' hl p hp =>
    (h.transit p (hsub hp)).2 j o' hl
  have hfresh : ∀ q, z.addr i ∉ z.freeLists q := fun q hq =>
    hnew i q hq i (head_mem_block i o) (head_mem_block i q)
  refine ⟨fun q a ha => ?_, fun q => ?_, fun j q k r p hj hk => ?_, fun p => ?_, fun p hp => ?_, h.count⟩
  · change a ∈ update z.freeLists o (z.freeLists o ++ [z.addr i]) q at ha
    change q ≤ buddyMaxOrder ∧ update z.nodeOrder (z.addr i) o a = q ∧ _
    have hcase : a ∈ z.freeLists q ∨ a = z.addr i ∧ q = o := by
      by_cases hq : q = o
      · subst hq
        rw [update_self, mem_append, mem_singleton] at ha
        exact ha.imp_right fun h => ⟨h, rfl⟩
      · rw [update_of_ne hq] at ha
        exact .inl ha
    rcases hcase with ha | ⟨rfl, rfl⟩
    · have hne : a ≠ z.addr i := by
        rintro rfl
        exact hfresh q ha
      rw [update_of_ne hne]
      exact h.listed q a ha
    rw [update_self]
    refine ⟨ho, rfl, i, rfl, hi, ?_⟩
    have hlast : i + 2 ^ q - 1 ∈ block i q := ⟨by have := Nat.two_pow_pos q; omega, by have := Nat.two_pow_pos q; omega⟩
    have hlt : i + 2 ^ q - 1 < z.totalPages := (h.transit _ (hsub hlast)).1
    change i + 2 ^ q ≤ z.totalPages
    omega
  · change (update z.freeLists o (z.freeLists o ++ [z.addr i]) q).Nodup
    by_cases hq : q = o
    · subst hq
      rw [update_self]
      exact nodup_append.mpr ⟨h.nodup q, nodup_singleton _, by
        rintro a ha b hb rfl
        exact hfresh q (mem_singleton.mp hb ▸ ha)⟩
    · rw [update_of_ne hq]
      exact h.nodup q
  · rcases listed_insert.mp hj with hj' | ⟨hji, hqo⟩
    · rcases listed_insert.mp hk with hk' | ⟨hki, hro⟩
      · exact h.apart j q k r p hj' hk'
      · exact fun hp hp' => absurd hp (hnew j q hj' p (by rwa [hki, hro] at hp'))
    · rcases listed_insert.mp hk with hk' | ⟨hki, hro⟩
      · exact fun hp hp' => absurd hp' (hnew k r hk' p (by rwa [hji, hqo] at hp))
      · exact fun _ _ => ⟨hji.trans hki.symm, hqo.trans hro.symm⟩
  · refine (h.clear p).trans ⟨?_, ?_⟩
    · rintro (hp | ⟨j, q, hj, hp⟩)
      · by_cases hb : p ∈ block i o
        · exact .inr ⟨i, o, listed_insert.mpr (.inr ⟨rfl, rfl⟩), hb⟩
        · exact .inl ⟨hp, hb⟩
      · exact .inr ⟨j, q, listed_insert.mpr (.inl hj), hp⟩
    · rintro (hp | ⟨j, q, hj, hp⟩)
      · exact .inl hp.1
      · rcases listed_insert.mp hj with hj | ⟨rfl, rfl⟩
        · exact .inr ⟨j, q, hj, hp⟩
        · exact .inl (hsub hp)
  · refine ⟨(h.transit p hp.1).1, fun j q hj => ?_⟩
    rcases listed_insert.mp hj with hj | ⟨rfl, rfl⟩
    · exact (h.transit p hp.1).2 j q hj
    · exact hp.2

theorem listed_remove (hnd : (z.freeLists o).Nodup) {k q : Nat} :
    (z.buddyListRemove (z.addr i) o).Listed k q ↔ z.Listed k q ∧ ¬ (k = i ∧ q = o) := by
  unfold BuddyZone.Listed buddyListRemove
  change z.addr k ∈ update z.freeLists o ((z.freeLists o).erase (z.addr i)) q ↔ _
  by_cases hq : q = o
  · subst hq
    rw [update_self, hnd.mem_erase_iff, and_comm]
    refine and_congr_right fun _ => ⟨fun hne h => hne (congrArg _ h.1), fun hne h => hne ⟨addr_inj h, rfl⟩⟩
  · rw [update_of_ne hq]
    exact ⟨fun h => ⟨h, fun hno => hq hno.2⟩, fun h => h.1⟩

theorem BuddyInv.remove (h : BuddyInv z T) (hl : z.Listed i o) :
    BuddyInv (z.buddyListRemove (z.addr i) o) (T ∪ block i o) := by
  have hnd := h.nodup o
  obtain ⟨-, -, -, hle⟩ := h.block_of hl
  have hsub : ∀ q, ∀ a ∈ update z.freeLists o ((z.freeLists o).erase (z.addr i)) q, a ∈ z.freeLists q := by
    intro q a ha
    by_cases hq : q = o
    · subst hq
      rw [update_self] at ha
      exact mem_of_mem_erase ha
    · rwa [update_of_ne hq] at ha
  refine ⟨fun q a ha => h.listed q a (hsub q a ha), fun q => ?_, fun j q k r p hj hk => ?_, fun p => ?_, fun p hp => ?_,
    h.count⟩
  · change (update z.freeLists o ((z.freeLists o).erase (z.addr i)) q).Nodup
    by_cases hq : q = o
    · subst hq
      rw [update_self]
      exact hnd.erase _
    · rw [update_of_ne hq]
      exact h.nodup q
  · exact h.apart j q k r p ((listed_remove hnd).mp hj).1 ((listed_remove hnd).mp hk).1
  · refine (h.clear p).trans ⟨?_, ?_⟩
    · rintro (hp | ⟨j, q, hj, hp⟩)
      · exact .inl (.inl hp)
      · by_cases heq : j = i ∧ q = o
        · obtain ⟨rfl, rfl⟩ := heq
          exact .inl (.inr hp)
        · exact .inr ⟨j, q, (listed_remove hnd).mpr ⟨hj, heq⟩, hp⟩
    · rintro ((hp | hp) | ⟨j, q, hj, hp⟩)
      · exact .inl hp
      · exact .inr ⟨i, o, hl, hp⟩
      · exact .inr ⟨j, q, ((listed_remove hnd).mp hj).1, hp⟩
  · rcases hp with hp | hp
    · exact ⟨(h.transit p hp).1, fun j q hj => (h.transit p hp).2 j q ((listed_remove hnd).mp hj).1⟩
    · refine ⟨hp.2.trans_le hle, fun j q hj hp' => ?_⟩
      obtain ⟨hj, hne⟩ := (listed_remove hnd).mp hj
      exact hne (h.apart j q i o p hj hl hp' hp)

theorem mark_clear (z : BuddyZone) (idx n p : Nat) (b : Bool) :
    (z.allocMapMarkRange idx n b).allocMap p = if p ∈ Set.Ico idx (idx + n) then b else z.allocMap p := by
  unfold allocMapMarkRange
  simp only [Set.mem_Ico]

theorem BuddyInv.markAllocated (h : BuddyInv z T) {idx n : Nat} (hsub : Set.Ico idx (idx + n) ⊆ T) :
    BuddyInv { z.allocMapMarkRange idx n true with freeCount := z.freeCount - n } (T \ Set.Ico idx (idx + n)) := by
  refine ⟨h.listed, h.nodup, h.apart, fun p => ?_, fun p hp => h.transit p hp.1, ?_⟩
  · refine Iff.trans (b := p ∉ Set.Ico idx (idx + n) ∧ z.allocMap p = false) ?_ ?_
    · change (z.allocMapMarkRange idx n true).allocMap p = false ↔ _
      rw [mark_clear]
      split
      · rename_i hp
        exact ⟨nofun, fun hno => absurd hp hno.1⟩
      · rename_i hp
        exact ⟨fun hf => ⟨hp, hf⟩, fun hf => hf.2⟩
    · rw [h.clear p]
      refine ⟨fun ⟨hp, hc⟩ => hc.imp_left fun ht => ⟨ht, hp⟩, ?_⟩
      rintro (hp | ⟨j, q, hj, hp⟩)
      · exact ⟨hp.2, .inl hp.1⟩
      · exact ⟨fun hno => (h.transit p (hsub hno)).2 j q hj hp, .inr ⟨j, q, hj, hp⟩⟩
  · -- the clear bits are those that remain and the `n` that are set
    have hset : (Finset.range z.totalPages).filter (fun p => z.allocMap p = false) =
        (Finset.range z.totalPages).filter (fun p => (z.allocMapMarkRange idx n true).allocMap p = false) ∪
          Finset.Ico idx (idx + n) := by
      ext p
      simp only [Finset.mem_filter, Finset.mem_range, Finset.mem_union, Finset.mem_Ico, mark_clear, Set.mem_Ico]
      by_cases hp : idx ≤ p ∧ p < idx + n
      · have hmem : p ∈ T := hsub hp
        have hc := (h.clear p).mpr (.inl hmem)
        have hlt := (h.transit p hmem).1
        simp [hp, hc, hlt]
      · simp [hp]
    have hdisj : Disjoint ((Finset.range z.totalPages).filter
        (fun p => (z.allocMapMarkRange idx n true).allocMap p = false)) (Finset.Ico idx (idx + n)) := by
      rw [Finset.disjoint_left]
      intro p hp hp'
      have hin : p ∈ Set.Ico idx (idx + n) := Finset.mem_Ico.mp hp'
      rw [Finset.mem_filter, mark_clear, if_pos hin] at hp
      cases hp.2
    have hcount := h.count
    rw [hset, Finset.card_union_of_disjoint hdisj, Nat.card_Ico, Nat.add_sub_cancel_left] at hcount
    change z.freeCount - n = _
    rw [hcount, Nat.add_sub_cancel]
    rfl

theorem BuddyInv.markFree (h : BuddyInv z T) {idx n : Nat} (hset : ∀ p ∈ Set.Ico idx (idx + n), z.allocMap p = true)
    (hle : idx + n ≤ z.totalPages) :
    BuddyInv { z.allocMapMarkRange idx n false with freeCount := z.freeCount + n } (T ∪ Set.Ico idx (idx + n)) := by
  have hno : ∀ p ∈ Set.Ico idx (idx + n), ¬ (p ∈ T ∨ ∃ i o, z.Listed i o ∧ p ∈ block i o) := fun p hp hc =>
    nomatch (hset p hp).symm.trans ((h.clear p).mpr hc)
  refine ⟨h.listed, h.nodup, h.apart, fun p => ?_, fun p hp => ?_, ?_⟩
  · change (z.allocMapMarkRange idx n false).allocMap p = false ↔ _
    rw [mark_clear]
    split
    · rename_i hp
      exact ⟨fun _ => .inl (.inr hp), fun _ => rfl⟩
    · rename_i hp
      rw [h.clear p]
      exact or_congr_left ⟨.inl, fun ht => ht.resolve_right hp⟩
  · rcases hp with hp | hp
    · exact h.transit p hp
    · exact ⟨hp.2.trans_le hle, fun j q hj hp' => hno p hp (.inr ⟨j, q, hj, hp'⟩)⟩
  · have hunion : (Finset.range z.totalPages).filter (fun p => (z.allocMapMarkRange idx n false).allocMap p = false) =
        (Finset.range z.totalPages).filter (fun p => z.allocMap p = false) ∪ Finset.Ico idx (idx + n) := by
      ext p
      simp only [Finset.mem_filter, Finset.mem_range, Finset.mem_union, Finset.mem_Ico, mark_clear, Set.mem_Ico]
      by_cases hp : idx ≤ p ∧ p < idx + n
      · simp [hp, hp.2.trans_le hle]
      · simp [hp]
    have hdisj : Disjoint ((Finset.range z.totalPages).filter (fun p => z.allocMap p = false))
        (Finset.Ico idx (idx + n)) := by
      rw [Finset.disjoint_left]
      intro p hp hp'
      cases (hset p (Finset.mem_Ico.mp hp')).symm.trans (Finset.mem_filter.mp hp).2
    change z.freeCount + n = _
    have hcard := congrArg Finset.card hunion
    rw [Finset.card_union_of_disjoint hdisj, Nat.card_Ico, Nat.add_sub_cancel_left, ← h.count] at hcard
    exact hcard.symm

/-! ## Freeing -/

theorem BuddyInv.buddy_listed (h : BuddyInv z (block i o)) (hi : 2 ^ o ∣ i) (hc : z.allocMap (buddyOf i o) = false) :
    ∃ o' ≤ o, z.Listed (buddyOf i o) o' := by
  have hne : buddyOf i o ∉ block i o := by
    rcases buddyOf_cases hi with ⟨-, hb⟩ | ⟨j, rfl, -, hb⟩
    · rw [hb]
      exact fun hm => Nat.lt_irrefl _ hm.2
    · rw [hb]
      exact fun hm => by have := hm.1; omega
  obtain ⟨j, o', hj, hm⟩ := ((h.clear _).mp hc).resolve_left hne
  have hout := (h.transit i (head_mem_block i o)).2 j o' hj
  obtain ⟨hle, heq⟩ := head_of_buddy hi (h.block_of hj).2.2.1 hm hout
  exact ⟨o', hle, heq ▸ hj⟩

theorem buddyAddress_addr (z : BuddyZone) (i o : Nat) : z.buddyAddress (z.addr i) o = z.addr (buddyOf i o) := by
  have hscale := buddyOf_scaled i o 12
  have hsub : z.addr i - z.base = i * buddyPageSize := by
    unfold BuddyZone.addr
    omega
  rw [buddyAddress, hsub]
  exact congrArg (z.base + ·) hscale

/-- What joining keeps besides the invariant. -/
structure SameMap (z z' : BuddyZone) : Prop where
  base : z'.base = z.base
  totalPages : z'.totalPages = z.totalPages
  allocMap : z'.allocMap = z.allocMap

theorem SameMap.addr {z' : BuddyZone} (h : SameMap z z') (i : Nat) : z'.addr i = z.addr i := by
  rw [BuddyZone.addr, BuddyZone.addr, h.base]

/-- The loop of `buddy_free` takes only free blocks from their lists. -/
theorem coalesce_spec (fuel : Nat) {z : BuddyZone} {i o : Nat} (h : BuddyInv z (block i o)) (hi : 2 ^ o ∣ i)
    (ho : o + fuel ≤ buddyMaxOrder) : ∃ z' i' o', coalesce fuel z (z.addr i) o = .ok (z', z.addr i', o') ∧
    BuddyInv z' (block i' o') ∧ 2 ^ o' ∣ i' ∧ o' ≤ buddyMaxOrder ∧ SameMap z z' := by
  induction fuel generalizing z i o with
  | zero => exact ⟨z, i, o, rfl, h, hi, ho, rfl, rfl, rfl⟩
  | succ fuel ih =>
    have hstop : ∃ z' i' o', (Except.ok (z, z.addr i, o) : Except BuddyFault _) = .ok (z', z.addr i', o') ∧
        BuddyInv z' (block i' o') ∧ 2 ^ o' ∣ i' ∧ o' ≤ buddyMaxOrder ∧ SameMap z z' :=
      ⟨z, i, o, rfl, h, hi, by omega, rfl, rfl, rfl⟩
    rw [coalesce]
    simp only [buddyAddress_addr, pageIndex_addr]
    split
    · exact hstop
    split
    · exact hstop
    split
    · exact hstop
    rename_i hzone hbit horder
    obtain ⟨o', hle, hl⟩ := h.buddy_listed hi (by simpa using hbit)
    obtain rfl : o' = o := (h.block_of hl).2.1.symm.trans (not_not.mp horder)
    have hmem : z.addr (buddyOf i o') ∈ z.freeLists o' := hl
    rw [if_neg (not_not.mpr hmem)]
    obtain ⟨hdvd, hunion⟩ := block_union_buddy hi
    have hblock : (if z.addr (buddyOf i o') < z.addr i then z.addr (buddyOf i o') else z.addr i) =
        z.addr (min i (buddyOf i o')) := by
      unfold BuddyZone.addr buddyPageSize
      split <;> omega
    have hnext := h.remove hl
    rw [hunion] at hnext
    obtain ⟨z', i', o'', heq, hinv, hdvd', ho', hsame⟩ := ih hnext hdvd (by omega)
    rw [hblock]
    exact ⟨z', i', o'', heq, hinv, hdvd', ho', hsame.base, hsame.totalPages, hsame.allocMap⟩

/-- `buddy_free` of a block that is allocated does not panic and makes its pages free. -/
theorem buddyFree_spec (h : BuddyInv z ∅) (hbase : 0 < z.base) {pages : Nat} (hp : pages ≠ 0)
    (horder : pagesToOrder pages = some o) (ho : o ≤ buddyMaxOrder) (hi : 2 ^ o ∣ i) (hle : i + 2 ^ o ≤ z.totalPages)
    (hset : ∀ p ∈ block i o, z.allocMap p = true) :
    ∃ z', buddyFree z (z.addr i) pages = .ok z' ∧ BuddyInv z' ∅ ∧ z'.base = z.base ∧ z'.totalPages = z.totalPages ∧
    ∀ p, z'.allocMap p = if p ∈ block i o then false else z.allocMap p := by
  have haddr : z.addr i ≠ 0 ∧ ¬ (z.addr i < z.base ∨ z.addr i ≥ z.zoneEnd) := by
    unfold BuddyZone.addr zoneEnd buddyPageSize
    omega
  have hany : ¬ (List.range (orderToPages o)).any (fun k => ! z.allocMap (i + k)) = true := by
    simp only [any_eq_true, mem_range, Bool.not_eq_eq_eq_not, Bool.not_true, not_exists, not_and]
    intro k hk hc
    cases (hset (i + k) ⟨Nat.le_add_right .., Nat.add_lt_add_left hk i⟩).symm.trans hc
  have hmark := h.markFree hset hle
  rw [Set.empty_union] at hmark
  obtain ⟨z', i', o', hco, hinv, hdvd, ho', hsame⟩ := coalesce_spec (buddyMaxOrder - o) hmark hi (by omega)
  have hput := hinv.insert ho' hdvd (Set.Subset.refl _)
  rw [sdiff_self] at hput
  refine ⟨z'.buddyListInsert (z'.addr i') o', ?_, hput, hsame.base, hsame.totalPages, fun p => ?_⟩
  · unfold buddyFree
    rw [if_neg (by simp [haddr.1, hp]), horder]
    simp only [pageIndex_addr]
    rw [if_neg (not_lt.mpr ho), if_neg haddr.2, if_neg hany]
    have hco' : coalesce (buddyMaxOrder - o)
        { z.allocMapMarkRange i (orderToPages o) false with
          freeCount := (z.allocMapMarkRange i (orderToPages o) false).freeCount + orderToPages o } (z.addr i) o =
        .ok (z', z'.addr i', o') := by
      rw [hsame.addr]
      exact hco
    rw [hco']
  · change z'.allocMap p = _
    rw [hsame.allocMap]
    exact mark_clear z i (2 ^ o) p false

/-! ## Allocating -/

theorem block_half (i o : Nat) : block i (o + 1) \ block (i + 2 ^ o) o = block i o := by
  ext p
  simp only [Set.mem_sdiff, mem_block]
  omega

/-- Halving leaves the lower part of the block in transit. -/
theorem splitBlock_spec {order : Nat} (o : Nat) {z : BuddyZone} {i : Nat} (h : BuddyInv z (block i o)) (hi : 2 ^ o ∣ i)
    (hle : order ≤ o) (ho : o ≤ buddyMaxOrder) :
    BuddyInv (splitBlock (z.addr i) order o z) (block i order) ∧ SameMap z (splitBlock (z.addr i) order o z) := by
  induction o generalizing z with
  | zero =>
    obtain rfl : order = 0 := Nat.le_zero.mp hle
    exact ⟨h, rfl, rfl, rfl⟩
  | succ o ih =>
    rw [splitBlock]
    by_cases heq : o + 1 > order
    · rw [if_pos heq]
      have hhalf : 2 ^ o ∣ i := (Nat.pow_dvd_pow 2 (Nat.le_succ o)).trans hi
      have hupper : z.addr i + orderToPages o * buddyPageSize = z.addr (i + 2 ^ o) := by
        unfold BuddyZone.addr orderToPages
        rw [Nat.add_mul, Nat.add_assoc]
      have hsub : block (i + 2 ^ o) o ⊆ block i (o + 1) := by
        intro p hp
        rw [mem_block] at hp ⊢
        rw [Nat.pow_succ, Nat.mul_two]
        omega
      have hnext := h.insert (Nat.le_of_succ_le ho) (Nat.dvd_add hhalf (Nat.dvd_refl _)) hsub
      rw [block_half] at hnext
      rw [hupper]
      obtain ⟨hinv, hsame⟩ := ih hnext hhalf (Nat.lt_succ_iff.mp heq) (Nat.le_of_succ_le ho)
      exact ⟨hinv, hsame.base, hsame.totalPages, hsame.allocMap⟩
    · rw [if_neg heq]
      obtain rfl : order = o + 1 := Nat.le_antisymm hle (not_lt.mp heq)
      exact ⟨h, rfl, rfl, rfl⟩

/-- A block of `order` is taken from a free block of order `o`. -/
theorem takeBlock_spec {order : Nat} (h : BuddyInv z ∅) (hl : z.Listed i o) (hle : order ≤ o) :
    let z' := takeBlock z (z.addr i) o order
    BuddyInv z' ∅ ∧ z'.base = z.base ∧ z'.totalPages = z.totalPages ∧
      (∀ p, z'.allocMap p = if p ∈ block i order then true else z.allocMap p) ∧
      (∀ p ∈ block i order, z.allocMap p = false) ∧ 2 ^ order ∣ i ∧ i + 2 ^ order ≤ z.totalPages := by
  obtain ⟨ho, -, hdvd, hend⟩ := h.block_of hl
  have hrem := h.remove hl
  rw [Set.empty_union] at hrem
  obtain ⟨hinv, hsame⟩ := splitBlock_spec o hrem hdvd hle ho
  have hmark := hinv.markAllocated (Set.Subset.refl (block i order))
  have hnone : block i order \ Set.Ico i (i + 2 ^ order) = ∅ := sdiff_self
  rw [hnone] at hmark
  have hpow : 2 ^ order ≤ 2 ^ o := Nat.pow_le_pow_right (by decide) hle
  have hidx : (splitBlock (z.addr i) order o (z.buddyListRemove (z.addr i) o)).pageIndex (z.addr i) = i := by
    have hb : (splitBlock (z.addr i) order o (z.buddyListRemove (z.addr i) o)).base = z.base := hsame.base
    rw [pageIndex, hb]
    exact pageIndex_addr z i
  intro z'
  have hz' :
    z' = { (splitBlock (z.addr i) order o (z.buddyListRemove (z.addr i) o)).allocMapMarkRange i (2 ^ order) true with
      freeCount := (splitBlock (z.addr i) order o (z.buddyListRemove (z.addr i) o)).freeCount - 2 ^ order } := by
    simp only [z', takeBlock, hidx]
    rfl
  rw [hz']
  refine ⟨hmark, hsame.base, hsame.totalPages, fun p => ?_, fun p hp => ?_, ?_, ?_⟩
  · have hmap : (splitBlock (z.addr i) order o (z.buddyListRemove (z.addr i) o)).allocMap = z.allocMap := hsame.allocMap
    exact (mark_clear _ i (2 ^ order) p true).trans (by rw [hmap]; rfl)
  · refine (h.clear p).mpr (.inr ⟨i, o, hl, ?_⟩)
    rw [mem_block] at hp ⊢
    omega
  · exact (Nat.pow_dvd_pow 2 hle).trans hdvd
  · omega

theorem mem_candidates {order : Nat} {c : Nat × Nat} (hc : c ∈ candidates z order) :
    order ≤ c.1 ∧ c.2 ∈ z.freeLists c.1 := by
  unfold candidates at hc
  obtain ⟨o, ho, hc⟩ := mem_flatMap.mp hc
  obtain ⟨a, ha, rfl⟩ := mem_map.mp hc
  exact ⟨(mem_range'_1.mp ho).1, ha⟩

/-- What an allocation that does not fail has done: `2 ^ order` free pages of the zone are taken. -/
structure Allocated (z : BuddyZone) (pages phys : Nat) (z' : BuddyZone) (i order : Nat) : Prop where
  inv : BuddyInv z' ∅
  base : z'.base = z.base
  totalPages : z'.totalPages = z.totalPages
  at_page : phys = z.addr i
  pages_pos : pages ≠ 0
  order_of : pagesToOrder pages = some order
  order_le : order ≤ buddyMaxOrder
  aligned : 2 ^ order ∣ i
  in_zone : i + 2 ^ order ≤ z.totalPages
  free : ∀ p ∈ block i order, z.allocMap p = false
  allocMap : ∀ p, z'.allocMap p = if p ∈ block i order then true else z.allocMap p

theorem takeBlock_allocated (h : BuddyInv z ∅) {pages order : Nat} {c : Nat × Nat} (hp : pages ≠ 0)
    (horder : pagesToOrder pages = some order) (hle : order ≤ buddyMaxOrder) (hc : c ∈ candidates z order) :
    ∃ i, c.2 = z.addr i ∧ Allocated z pages c.2 (takeBlock z c.2 c.1 order) i order := by
  obtain ⟨hco, hmem⟩ := mem_candidates hc
  obtain ⟨-, -, i, hi, -, -⟩ := h.listed _ _ hmem
  rw [hi] at hmem ⊢
  obtain ⟨h₁, h₂, h₃, h₄, h₅, h₆, h₇⟩ := takeBlock_spec h hmem hco
  exact ⟨i, rfl, h₁, h₂, h₃, rfl, hp, horder, hle, h₆, h₇, h₅, h₄⟩

/-- `buddy_alloc` gives nothing and changes nothing, or takes a block. -/
theorem buddyAlloc_spec (h : BuddyInv z ∅) {pages phys : Nat} {z' : BuddyZone}
    (halloc : buddyAlloc z pages = .ok (phys, z')) :
    phys = 0 ∧ z' = z ∨ ∃ i order, Allocated z pages phys z' i order := by
  unfold buddyAlloc at halloc
  split at halloc
  · cases halloc
    exact .inl ⟨rfl, rfl⟩
  rename_i hp
  cases horder : pagesToOrder pages with
  | none =>
    rw [horder] at halloc
    cases halloc
  | some order =>
    rw [horder] at halloc
    simp only [] at halloc
    split at halloc
    · cases halloc
      exact .inl ⟨rfl, rfl⟩
    rename_i hle
    split at halloc
    · cases halloc
      exact .inl ⟨rfl, rfl⟩
    rename_i o a hhead
    obtain ⟨rfl, rfl⟩ := Prod.mk.inj (Except.ok.inj halloc)
    have hc : (o, a) ∈ candidates z order := mem_of_mem_head? hhead
    obtain ⟨i, -, hall⟩ := takeBlock_allocated h hp horder (not_lt.mp hle) hc
    exact .inr ⟨i, order, hall⟩

/-- `buddy_alloc_range`: the block lies in the range. -/
theorem buddyAllocRange_spec (h : BuddyInv z ∅) {pages minPhys maxPhys phys : Nat} {z' : BuddyZone}
    (halloc : buddyAllocRange z pages minPhys maxPhys = .ok (phys, z')) : phys = 0 ∧ z' = z ∨ ∃ i order,
    Allocated z pages phys z' i order ∧ minPhys ≤ phys ∧ phys + 2 ^ order * buddyPageSize ≤ maxPhys := by
  unfold buddyAllocRange at halloc
  split at halloc
  · cases halloc
    exact .inl ⟨rfl, rfl⟩
  rename_i hp
  cases horder : pagesToOrder pages with
  | none =>
    rw [horder] at halloc
    cases halloc
  | some order =>
    rw [horder] at halloc
    simp only [] at halloc
    split at halloc
    · cases halloc
      exact .inl ⟨rfl, rfl⟩
    rename_i hle
    have hlo : minPhys ≤ if minPhys < z.base then z.base else minPhys := by split <;> omega
    have hhi : (if maxPhys > z.zoneEnd then z.zoneEnd else maxPhys) ≤ maxPhys := by split <;> omega
    generalize (if minPhys < z.base then z.base else minPhys) = lo at halloc hlo
    generalize (if maxPhys > z.zoneEnd then z.zoneEnd else maxPhys) = hi at halloc hhi
    split at halloc
    · cases halloc
      exact .inl ⟨rfl, rfl⟩
    split at halloc
    · cases halloc
      exact .inl ⟨rfl, rfl⟩
    rename_i o a hfind
    obtain ⟨rfl, rfl⟩ := Prod.mk.inj (Except.ok.inj halloc)
    have hc : (o, a) ∈ candidates z order := mem_of_find?_eq_some hfind
    obtain ⟨i, -, hall⟩ := takeBlock_allocated h hp horder (not_lt.mp hle) hc
    have hfit := find?_some hfind
    simp only [inRange, decide_eq_true_eq, ge_iff_le, orderToPages] at hfit
    have hpow : 2 ^ order ≤ 2 ^ o := Nat.pow_le_pow_right (by decide) (mem_candidates hc).1
    have hmul : 2 ^ order * buddyPageSize ≤ 2 ^ o * buddyPageSize := Nat.mul_le_mul_right _ hpow
    refine .inr ⟨i, order, hall, ?_, ?_⟩
    · exact hlo.trans hfit.2.1
    · omega

end BoxOS.Memory
