import BoxOS.Memory.BuddyInv

/-!
# Runs of the buddy allocator

Ranges are freed and reserved (`buddyFreeRange_spec`, `buddyReserveRange_spec`), and then blocks are allocated and
freed; `buddy_zone_sound` is about every such run.

The zone is one that `pmm_init` makes: its base is a multiple of the page size and not 0, and it ends below `2 ^ 63`.
The end of a range that is reserved is rounded up without a look at the wrap: `reserve_wraps`.
-/

namespace BoxOS.Memory

open Lib BuddyZone List

variable {z : BuddyZone} {i o p : Nat}

/-- A zone that addresses do not wrap in. -/
structure ZoneOk (z : BuddyZone) : Prop where
  aligned : buddyPageSize ∣ z.base
  pos : 0 < z.base
  bound : z.zoneEnd ≤ 2 ^ 63

variable {z' : BuddyZone} {order : Nat}

theorem ZoneOk.of_same (h : ZoneOk z) (hb : z'.base = z.base) (ht : z'.totalPages = z.totalPages) : ZoneOk z' := by
  refine ⟨hb ▸ h.aligned, hb ▸ h.pos, ?_⟩
  have hend : z'.zoneEnd = z.zoneEnd := by rw [BuddyZone.zoneEnd, BuddyZone.zoneEnd, hb, ht]
  exact hend ▸ h.bound

/-! ## Freeing a range -/

theorem orderAt_spec (z : BuddyZone) {a b : Nat} (fuel : Nat) {order : Nat} (hdvd : 2 ^ order ∣ a)
    (hle : a + 2 ^ order ≤ b) (ho : order + fuel ≤ buddyMaxOrder) :
    let q := orderAt z (z.addr a) (z.addr b) fuel order
    2 ^ q ∣ a ∧ a + 2 ^ q ≤ b ∧ q ≤ buddyMaxOrder := by
  induction fuel generalizing order with
  | zero => exact ⟨hdvd, hle, ho⟩
  | succ fuel ih =>
    have hstop : 2 ^ order ∣ a ∧ a + 2 ^ order ≤ b ∧ order ≤ buddyMaxOrder := ⟨hdvd, hle, by omega⟩
    simp only [orderAt]
    split
    · exact hstop
    split
    · exact hstop
    rename_i hmod hend
    refine ih ?_ ?_ (by omega)
    · have hoff : z.addr a - z.base = a * buddyPageSize := by
        unfold BuddyZone.addr
        omega
      rw [hoff, not_not] at hmod
      exact Nat.dvd_of_mul_dvd_mul_right (by decide : 0 < buddyPageSize) (Nat.dvd_of_mod_eq_zero hmod)
    · unfold BuddyZone.addr orderToPages buddyPageSize at hend
      omega

/-- What freeing the pages from `a` to `b` does. -/
structure Freed (z : BuddyZone) (a b : Nat) (z' : BuddyZone) : Prop where
  inv : BuddyInv z' ∅
  base : z'.base = z.base
  totalPages : z'.totalPages = z.totalPages
  allocMap : ∀ p, z'.allocMap p = if a ≤ p ∧ p < b then false else z.allocMap p
  kept : ∀ i o, z.Listed i o → z'.Listed i o
  added : ∀ i o, z'.Listed i o → z.Listed i o ∨ ∀ p ∈ block i o, a ≤ p ∧ p < b

theorem freeRangeLoop_spec (fuel : Nat) {z : BuddyZone} {a b : Nat} (h : BuddyInv z ∅) (hab : a ≤ b)
    (hb : b ≤ z.totalPages) (hset : ∀ p, a ≤ p → p < b → z.allocMap p = true) (hfuel : b ≤ a + fuel) :
    Freed z a b (freeRangeLoop (z.addr b) fuel z (z.addr a)) := by
  induction fuel generalizing z a with
  | zero =>
    refine ⟨h, rfl, rfl, fun p => ?_, fun i o hl => hl, fun i o hl => .inl hl⟩
    rw [if_neg (by omega)]
    rfl
  | succ fuel ih =>
    rw [freeRangeLoop]
    by_cases hlt : z.addr a < z.addr b
    · rw [if_pos hlt]
      have hlt' : a < b := by
        unfold BuddyZone.addr buddyPageSize at hlt
        omega
      obtain ⟨hdvd, hle, ho⟩ :=
        orderAt_spec z buddyMaxOrder (one_dvd a : 2 ^ 0 ∣ a) (by omega : a + 2 ^ 0 ≤ b) (by decide)
      simp only [pageIndex_addr]
      generalize orderAt z (z.addr a) (z.addr b) buddyMaxOrder 0 = q at hdvd hle ho
      have hpos := Nat.two_pow_pos q
      have hmark := h.markFree (fun p hp => hset p hp.1 (hp.2.trans_le hle)) (hle.trans hb)
      rw [Set.empty_union] at hmark
      have hput := hmark.insert ho hdvd (Set.Subset.refl _)
      have hnone : Set.Ico a (a + 2 ^ q) \ block a q = ∅ := sdiff_self
      rw [hnone] at hput
      have hnext : z.addr a + orderToPages q * buddyPageSize = z.addr (a + 2 ^ q) := by
        unfold BuddyZone.addr orderToPages
        rw [Nat.add_mul, Nat.add_assoc]
      rw [hnext]
      have hmap : ∀ p, (z.allocMapMarkRange a (2 ^ q) false).allocMap p =
          if a ≤ p ∧ p < a + 2 ^ q then false else z.allocMap p := fun p => mark_clear z a (2 ^ q) p false
      have hset' : ∀ p, a + 2 ^ q ≤ p → p < b → (z.allocMapMarkRange a (2 ^ q) false).allocMap p = true := by
        intro p h₁ h₂
        rw [hmap p, if_neg (by omega)]
        exact hset p (by omega) h₂
      have hrest := ih hput hle hb hset' (by omega)
      refine ⟨hrest.inv, hrest.base, hrest.totalPages, fun p => ?_, fun i o hl => ?_, fun i o hl => ?_⟩
      · refine (hrest.allocMap p).trans ?_
        change (if a + 2 ^ q ≤ p ∧ p < b then false else (z.allocMapMarkRange a (2 ^ q) false).allocMap p) = _
        rw [hmap p]
        split
        · rw [if_pos (by omega)]
        · split
          · rw [if_pos (by omega)]
          · rw [if_neg (by omega)]
      · exact hrest.kept i o (listed_insert.mpr (.inl hl))
      · rcases hrest.added i o hl with hl | hin
        · rcases listed_insert.mp hl with hl | ⟨rfl, rfl⟩
          · exact .inl hl
          · exact .inr fun p hp => ⟨hp.1, hp.2.trans_le hle⟩
        · refine .inr fun p hp => ?_
          have := hin p hp
          omega
    · rw [if_neg hlt]
      have hba : b ≤ a := by
        unfold BuddyZone.addr buddyPageSize at hlt
        omega
      refine ⟨h, rfl, rfl, fun p => ?_, fun i o hl => hl, fun i o hl => .inl hl⟩
      rw [if_neg (by omega)]

theorem alignUp_spec {x : Nat} (hx : x + 4095 < 2 ^ 64) :
    buddyPageSize ∣ alignUp x ∧ x ≤ alignUp x ∧ alignUp x < x + 4096 := by
  unfold alignUp buddyPageSize
  rw [Nat.mod_eq_of_lt (by omega)]
  refine ⟨Nat.dvd_mul_left .., ?_, ?_⟩ <;> omega

theorem alignDown_spec (x : Nat) : buddyPageSize ∣ alignDown x ∧ alignDown x ≤ x ∧ x < alignDown x + 4096 := by
  unfold alignDown buddyPageSize
  refine ⟨Nat.dvd_mul_left .., ?_, ?_⟩ <;> omega

/-- `buddy_free_range`: the pages that lie wholly in the range become free. -/
theorem buddyFreeRange_spec (hz : ZoneOk z) (h : BuddyInv z ∅) (start stop : Nat)
    (hset : ∀ p < z.totalPages, start ≤ z.addr p → z.addr p < stop → z.allocMap p = true) :
    ∃ a b, Freed z a b (buddyFreeRange z start stop) ∧
      ∀ p, a ≤ p ∧ p < b ↔ p < z.totalPages ∧ start ≤ z.addr p ∧ z.addr p + buddyPageSize ≤ stop := by
  have hbound := hz.bound
  obtain ⟨m, hm⟩ := hz.aligned
  have hpage : ∀ p, z.addr p = 4096 * (m + p) := fun p => by
    unfold BuddyZone.addr
    rw [hm]
    unfold buddyPageSize
    omega
  have hend : z.zoneEnd = 4096 * (m + z.totalPages) := hpage z.totalPages
  have hbase : z.base = 4096 * m := hm
  have hnothing : (∀ p, ¬ (p < z.totalPages ∧ start ≤ z.addr p ∧ z.addr p + buddyPageSize ≤ stop)) →
      ∃ a b, Freed z a b z ∧
      ∀ p, a ≤ p ∧ p < b ↔ p < z.totalPages ∧ start ≤ z.addr p ∧ z.addr p + buddyPageSize ≤ stop := fun hno =>
    ⟨0, 0, ⟨h, rfl, rfl, fun p => by rw [if_neg (by omega)], fun _ _ hl => hl, fun _ _ hl => .inl hl⟩,
      fun p => ⟨fun hp => absurd hp.2 (Nat.not_lt_zero p), fun hp => absurd hp (hno p)⟩⟩
  unfold buddyFreeRange
  have hlo : (if start < z.base then z.base else start) = max start z.base := by
    rw [Nat.max_def]
    split <;> split <;> omega
  have hhi : (if stop > z.zoneEnd then z.zoneEnd else stop) = min stop z.zoneEnd := by
    rw [Nat.min_def]
    split <;> split <;> omega
  simp only [hlo, hhi]
  split
  · rename_i hge
    refine hnothing fun p hp => ?_
    rw [hpage p] at hp
    unfold buddyPageSize at hp
    omega
  rename_i hlt
  obtain ⟨⟨k, hk⟩, hu₁, hu₂⟩ := alignUp_spec (x := max start z.base) (by omega)
  obtain ⟨⟨l, hl⟩, hd₁, hd₂⟩ := alignDown_spec (min stop z.zoneEnd)
  unfold buddyPageSize at hk hl
  have hiff : ∀ p, k - m ≤ p ∧ p < l - m ↔ p < z.totalPages ∧ start ≤ z.addr p ∧ z.addr p + buddyPageSize ≤ stop := by
    intro p
    rw [hpage p]
    unfold buddyPageSize
    omega
  split
  · rename_i hge
    refine hnothing fun p hp => ?_
    have := (hiff p).mpr hp
    omega
  rename_i hlt'
  have hs : alignUp (max start z.base) = z.addr (k - m) := by
    rw [hpage, hk]
    omega
  have he : alignDown (min stop z.zoneEnd) = z.addr (l - m) := by
    rw [hpage, hl]
    omega
  refine ⟨k - m, l - m, ?_, hiff⟩
  rw [hs, he]
  refine freeRangeLoop_spec _ h (by omega) (by omega) (fun p h₁ h₂ => ?_) ?_
  · obtain ⟨hp₁, hp₂, hp₃⟩ := (hiff p).mp ⟨h₁, h₂⟩
    exact hset p hp₁ hp₂ (by unfold buddyPageSize at hp₃; omega)
  · rw [hpage, hpage]
    unfold buddyPageSize
    omega

/-! ## Reserving a range -/

/-- What reserving the pages from `a` to `b` does to the rest, as far as it has come. -/
structure Reserving (a b : Nat) (z z' : BuddyZone) : Prop where
  inv : BuddyInv z' ∅
  base : z'.base = z.base
  totalPages : z'.totalPages = z.totalPages
  outside : ∀ p, ¬ (a ≤ p ∧ p < b) → z'.allocMap p = z.allocMap p
  old : ∀ i o, z'.Listed i o → (∃ p ∈ block i o, a ≤ p ∧ p < b) → z.Listed i o

variable {b : Nat × Nat}

theorem Reserving.refl {a b : Nat} (h : BuddyInv z ∅) : Reserving a b z z :=
  ⟨h, rfl, rfl, fun _ _ => rfl, fun _ _ hl _ => hl⟩

theorem Reserving.trans {a b : Nat} {z₁ z₂ z₃ : BuddyZone} (h₁ : Reserving a b z₁ z₂) (h₂ : Reserving a b z₂ z₃) :
    Reserving a b z₁ z₃ :=
  ⟨h₂.inv, h₂.base.trans h₁.base, h₂.totalPages.trans h₁.totalPages,
    fun p hp => (h₂.outside p hp).trans (h₁.outside p hp), fun i o hl hp => h₁.old i o (h₂.old i o hl hp) hp⟩

theorem Reserving.addr {a b : Nat} (h : Reserving a b z z') (i : Nat) : z'.addr i = z.addr i := by
  rw [BuddyZone.addr, BuddyZone.addr, h.base]

theorem addr_le_addr {c d : Nat} : z.addr c ≤ z.addr d ↔ c ≤ d := by
  unfold BuddyZone.addr buddyPageSize
  omega

theorem addr_succ (z : BuddyZone) (p : Nat) : z.addr p + buddyPageSize = z.addr (p + 1) := by
  unfold BuddyZone.addr
  rw [Nat.add_mul, Nat.one_mul, Nat.add_assoc]

theorem freePages_spec (hz : ZoneOk z) (h : BuddyInv z ∅) {c d : Nat} (hd : d ≤ z.totalPages)
    (hset : ∀ p, c ≤ p → p < d → z.allocMap p = true) :
    Freed z c d (if c < d then buddyFreeRange z (z.addr c) (z.addr d) else z) := by
  split
  case isFalse hno =>
    exact ⟨h, rfl, rfl, fun p => by rw [if_neg (by omega)], fun _ _ hl => hl, fun _ _ hl => .inl hl⟩
  have hlt : ∀ p, z.addr p < z.addr d → p < d := fun p hp => Nat.lt_of_not_le fun hno =>
    not_le.mpr hp (addr_le_addr.mpr hno)
  obtain ⟨a, b, hfreed, hiff⟩ := buddyFreeRange_spec hz h (z.addr c) (z.addr d) fun p _ h₁ h₂ =>
    hset p (addr_le_addr.mp h₁) (hlt p h₂)
  have hsame : ∀ p, a ≤ p ∧ p < b ↔ c ≤ p ∧ p < d := by
    intro p
    rw [hiff p, addr_succ, addr_le_addr, addr_le_addr]
    omega
  refine ⟨hfreed.inv, hfreed.base, hfreed.totalPages, fun p => ?_, hfreed.kept, fun i o hl => ?_⟩
  · rw [hfreed.allocMap p]
    simp only [hsame]
  · exact (hfreed.added i o hl).imp_right fun hin p hp => (hsame p).mp (hin p hp)

/-- A free block that overlaps the range, after it has left its list. -/
def taken (z : BuddyZone) (i o : Nat) : BuddyZone :=
  { (z.buddyListRemove (z.addr i) o).allocMapMarkRange i (2 ^ o) true with freeCount := z.freeCount - 2 ^ o }

theorem taken_inv (h : BuddyInv z ∅) (hl : z.Listed i o) : BuddyInv (taken z i o) ∅ := by
  have hrem := h.remove hl
  rw [Set.empty_union] at hrem
  have hmark := hrem.markAllocated (Set.Subset.refl (block i o))
  have hnone : block i o \ Set.Ico i (i + 2 ^ o) = ∅ := sdiff_self
  rwa [hnone] at hmark

theorem taken_allocMap (z : BuddyZone) (i o p : Nat) :
    (taken z i o).allocMap p = if i ≤ p ∧ p < i + 2 ^ o then true else z.allocMap p :=
  mark_clear _ i (2 ^ o) p true

theorem taken_listed (h : BuddyInv z ∅) {k q : Nat} :
    (taken z i o).Listed k q ↔ z.Listed k q ∧ ¬ (k = i ∧ q = o) := listed_remove (h.nodup o)

theorem reserveBlock_eq (z : BuddyZone) (s e i o : Nat) :
    reserveBlock (z.addr s) (z.addr e) o z (z.addr i) =
      if i < e ∧ s < i + 2 ^ o then
        let z₄ := if i < s then buddyFreeRange (taken z i o) (z.addr i) (z.addr s) else taken z i o
        if e < i + 2 ^ o then buddyFreeRange z₄ (z.addr e) (z.addr (i + 2 ^ o)) else z₄
      else z := by
  have hblockEnd : z.addr i + orderToPages o * buddyPageSize = z.addr (i + 2 ^ o) := by
    unfold BuddyZone.addr orderToPages
    rw [Nat.add_mul, Nat.add_assoc]
  have hlt : ∀ c d, z.addr c < z.addr d ↔ c < d := fun c d => by
    rw [← Nat.not_le, addr_le_addr, Nat.not_le]
  unfold reserveBlock
  simp only [hblockEnd, pageIndex_addr, gt_iff_lt, hlt]
  rfl

theorem reserveBlock_spec {s e : Nat} (hz : ZoneOk z) (h : BuddyInv z ∅) (hse : s < e) (hl : z.Listed i o) :
    let z' := reserveBlock (z.addr s) (z.addr e) o z (z.addr i)
    Reserving s e z z' ∧ (∀ j, j ≠ i → z.Listed j o → z'.Listed j o) ∧
      ((∃ p ∈ block i o, s ≤ p ∧ p < e) → ¬ z'.Listed i o) := by
  obtain ⟨ho, -, hdvd, hend⟩ := h.block_of hl
  intro z'
  have heq : z' = _ := reserveBlock_eq z s e i o
  by_cases hover : i < e ∧ s < i + 2 ^ o
  · rw [if_pos hover] at heq
    have h₃ := taken_inv h hl
    have hz₃ : ZoneOk (taken z i o) := hz.of_same rfl rfl
    have h₄ : Freed (taken z i o) i s
        (if i < s then buddyFreeRange (taken z i o) (z.addr i) (z.addr s) else taken z i o) := by
      refine freePages_spec hz₃ h₃ (hover.2.le.trans hend) fun p h₁ h₂ => ?_
      rw [taken_allocMap, if_pos (by omega)]
    generalize (if i < s then buddyFreeRange (taken z i o) (z.addr i) (z.addr s) else taken z i o) = z₄ at heq h₄
    have haddr : ∀ c, z₄.addr c = z.addr c := fun c => by
      rw [BuddyZone.addr, BuddyZone.addr, h₄.base]
      rfl
    have hz₄ : ZoneOk z₄ := hz₃.of_same h₄.base h₄.totalPages
    have h₅ : Freed z₄ e (i + 2 ^ o) z' := by
      rw [heq, ← haddr, ← haddr]
      refine freePages_spec hz₄ h₄.inv (by rw [h₄.totalPages]; exact hend) fun p h₁ h₂ => ?_
      rw [h₄.allocMap, if_neg (by omega), taken_allocMap, if_pos (by omega)]
    have hold : ∀ j q, z'.Listed j q → (∃ p ∈ block j q, s ≤ p ∧ p < e) → z.Listed j q ∧ ¬ (j = i ∧ q = o) := by
      rintro j q hj ⟨p, hp, hps, hpe⟩
      rcases h₅.added j q hj with hj | hin
      · rcases h₄.added j q hj with hj | hin
        · exact (taken_listed h).mp hj
        · have := hin p hp
          omega
      · have := hin p hp
        omega
    refine ⟨⟨h₅.inv, h₅.base.trans h₄.base, h₅.totalPages.trans h₄.totalPages, fun p hp => ?_,
      fun j q hj hp => (hold j q hj hp).1⟩, fun j hji hj => ?_, fun hp hno => (hold i o hno hp).2 ⟨rfl, rfl⟩⟩
    · rw [h₅.allocMap, h₄.allocMap, taken_allocMap]
      by_cases hb : i ≤ p ∧ p < i + 2 ^ o
      · have hc : z.allocMap p = false := (h.clear p).mpr (.inr ⟨i, o, hl, hb⟩)
        rw [hc]
        split
        · rfl
        · rw [if_pos (by omega)]
      · rw [if_neg (by omega), if_neg (by omega), if_neg hb]
    · exact h₅.kept j o (h₄.kept j o ((taken_listed h).mpr ⟨hj, fun hno => hji hno.1⟩))
  · rw [if_neg hover] at heq
    rw [heq]
    refine ⟨.refl h, fun j _ hj => hj, ?_⟩
    rintro ⟨p, hp, hs, he⟩
    rw [mem_block] at hp
    omega

/-- One list: afterwards no block on it overlaps the range. -/
theorem reserveList_spec {s e : Nat} (hz : ZoneOk z) (h : BuddyInv z ∅) (hse : s < e) (o : Nat) :
    let z' := reserveList (z.addr s) (z.addr e) z o
    Reserving s e z z' ∧ ∀ i, z'.Listed i o → ¬ ∃ p ∈ block i o, s ≤ p ∧ p < e := by
  have hfold : ∀ (l : List Nat) (w : BuddyZone), BuddyInv w ∅ → w.base = z.base → w.totalPages = z.totalPages →
      (∀ a ∈ l, a ∈ w.freeLists o) → l.Nodup →
      Reserving s e w (l.foldl (reserveBlock (z.addr s) (z.addr e) o) w) ∧
        ∀ i, (l.foldl (reserveBlock (z.addr s) (z.addr e) o) w).Listed i o → (∃ p ∈ block i o, s ≤ p ∧ p < e) →
          z.addr i ∉ l := by
    intro l
    induction l with
    | nil => exact fun w hw _ _ _ _ => ⟨.refl hw, fun i _ _ => not_mem_nil⟩
    | cons a l ih =>
      intro w hw hbase htotal hmem hnd
      rw [nodup_cons] at hnd
      have haddr : ∀ c, w.addr c = z.addr c := fun c => by rw [BuddyZone.addr, BuddyZone.addr, hbase]
      obtain ⟨-, -, i, rfl, -, -⟩ := hw.listed o a (hmem a mem_cons_self)
      obtain ⟨hres, hkept, hgone⟩ := reserveBlock_spec (hz.of_same hbase htotal) hw hse (hmem _ mem_cons_self)
      rw [haddr s, haddr e] at hres hkept hgone
      rw [foldl_cons]
      have hstay : ∀ b ∈ l, b ∈ (reserveBlock (z.addr s) (z.addr e) o w (w.addr i)).freeLists o := by
        intro b hb
        obtain ⟨-, -, j, rfl, -, -⟩ := hw.listed o b (hmem b (mem_cons_of_mem _ hb))
        have hji : j ≠ i := by
          rintro rfl
          exact hnd.1 hb
        have hj := hkept j hji (hmem _ (mem_cons_of_mem _ hb))
        unfold BuddyZone.Listed at hj
        rwa [hres.addr j] at hj
      obtain ⟨hrest, hnone⟩ := ih _ hres.inv (hres.base.trans hbase) (hres.totalPages.trans htotal) hstay hnd.2
      refine ⟨hres.trans hrest, fun j hj hp hin => ?_⟩
      rcases mem_cons.mp hin with heq | hin
      · obtain rfl : j = i := addr_inj ((haddr j).trans heq)
        exact hgone hp (hrest.old j o hj hp)
      · exact hnone j hj hp hin
  obtain ⟨hres, hnone⟩ := hfold (z.freeLists o) z h rfl rfl (fun _ ha => ha) (h.nodup o)
  exact ⟨hres, fun i hi hp => hnone i hi hp (hres.old i o hi hp)⟩

theorem reserveLists_spec {s e : Nat} (hz : ZoneOk z) (h : BuddyInv z ∅) (hse : s < e) (os : List Nat) :
    let z' := os.foldl (reserveList (z.addr s) (z.addr e)) z
    Reserving s e z z' ∧ ∀ o ∈ os, ∀ i, z'.Listed i o → ¬ ∃ p ∈ block i o, s ≤ p ∧ p < e := by
  induction os generalizing z with
  | nil => exact ⟨.refl h, nofun⟩
  | cons o os ih =>
    obtain ⟨hres, hnone⟩ := reserveList_spec hz h hse o
    obtain ⟨hrest, hnone'⟩ := ih (hz.of_same hres.base hres.totalPages) hres.inv
    rw [hres.addr, hres.addr] at hrest hnone'
    refine ⟨hres.trans hrest, fun o' ho' i hi hp => ?_⟩
    rcases mem_cons.mp ho' with rfl | ho'
    · exact hnone i (hrest.old i o' hi hp) hp
    · exact hnone' o' ho' i hi hp

theorem mem_ordersDown : o ∈ ordersDown ↔ o ≤ buddyMaxOrder := by
  rw [ordersDown, mem_reverse, mem_range, Nat.lt_succ_iff]

/-- `buddy_reserve_range`: exactly the pages of the rounded range stop being free. -/
theorem buddyReserveRange_spec (hz : ZoneOk z) (h : BuddyInv z ∅) (start : Nat) {stop : Nat}
    (hstop : stop + 4095 < 2 ^ 64) :
    let z' := buddyReserveRange z start stop
    BuddyInv z' ∅ ∧ z'.base = z.base ∧ z'.totalPages = z.totalPages ∧
      ∀ p < z.totalPages,
      z'.allocMap p = (z.allocMap p || decide (start < z.addr p + buddyPageSize ∧ z.addr p < stop)) := by
  obtain ⟨m, hm⟩ := hz.aligned
  have hpage : ∀ p, z.addr p = 4096 * (m + p) := fun p => by
    unfold BuddyZone.addr
    rw [hm]
    unfold buddyPageSize
    omega
  have hend : z.zoneEnd = 4096 * (m + z.totalPages) := hpage z.totalPages
  have hbase : z.base = 4096 * m := hm
  obtain ⟨⟨k, hk⟩, hd₁, hd₂⟩ := alignDown_spec start
  obtain ⟨⟨l, hl⟩, hu₁, hu₂⟩ := alignUp_spec hstop
  unfold buddyPageSize at hk hl
  have hlo : (if alignDown start < z.base then z.base else alignDown start) = z.addr (k - m) := by
    rw [hpage, hk, hbase]
    split <;> omega
  have hhi : (if alignUp stop > z.zoneEnd then z.zoneEnd else alignUp stop) = 4096 * min l (m + z.totalPages) := by
    rw [hl, hend]
    split <;> omega
  unfold buddyReserveRange
  simp only [hlo, hhi]
  split
  · rename_i hge
    refine ⟨h, rfl, rfl, fun p hp => ?_⟩
    rw [hpage] at hge ⊢
    unfold buddyPageSize
    have hno : ¬ (start < 4096 * (m + p) + 4096 ∧ 4096 * (m + p) < stop) := by omega
    simp [hno]
  rename_i hlt
  have he : 4096 * min l (m + z.totalPages) = z.addr (min l (m + z.totalPages) - m) := by
    rw [hpage] at hlt ⊢
    omega
  rw [he] at hlt ⊢
  have hse : k - m < min l (m + z.totalPages) - m := Nat.lt_of_not_le fun hno => hlt (addr_le_addr.mpr hno)
  obtain ⟨hres, hnone⟩ := reserveLists_spec hz h hse ordersDown
  refine ⟨hres.inv, hres.base, hres.totalPages, fun p hp => ?_⟩
  by_cases hin : k - m ≤ p ∧ p < min l (m + z.totalPages) - m
  · have hset : (ordersDown.foldl (reserveList (z.addr (k - m)) (z.addr (min l (m + z.totalPages) - m))) z).allocMap p =
        true := by
      by_contra hc
      obtain ⟨i, o, hio, hpi⟩ := ((hres.inv.clear p).mp (by simpa using hc)).resolve_left (Set.notMem_empty p)
      exact hnone o (mem_ordersDown.mpr (hres.inv.block_of hio).1) i hio ⟨p, hpi, hin⟩
    rw [hset, hpage]
    unfold buddyPageSize
    have hyes : start < 4096 * (m + p) + 4096 ∧ 4096 * (m + p) < stop := by omega
    simp [hyes]
  · rw [hres.outside p hin, hpage]
    unfold buddyPageSize
    have hno : ¬ (start < 4096 * (m + p) + 4096 ∧ 4096 * (m + p) < stop) := by omega
    simp [hno]

theorem buddyReserveRange_wrap (z : BuddyZone) {start stop : Nat} (hlt : stop < 2 ^ 64) (hwrap : 2 ^ 64 ≤ stop + 4095) :
    buddyReserveRange z start stop = z := by
  have hzero : alignUp stop = 0 := by
    unfold alignUp buddyPageSize
    omega
  unfold buddyReserveRange
  simp only [hzero, gt_iff_lt, Nat.not_lt_zero, if_false, ge_iff_le, Nat.zero_le, if_true]

/-! ## Runs -/

/-- The bytes of the block that `pages` pages are rounded up to. -/
def blockSize (pages : Nat) : Nat := orderToPages ((pagesToOrder pages).getD 0) * buddyPageSize

/-- Two live blocks, as address and page count, do not overlap. -/
def Apart (b b' : Nat × Nat) : Prop := b.1 + blockSize b.2 ≤ b'.1 ∨ b'.1 + blockSize b'.2 ≤ b.1

/-- `buddy_init` and what follows it, with the ranges that were freed and the blocks that are live. A range that is
freed is disjoint from those before it, and a block is freed with the page count it was allocated with. -/
inductive BuddyRun (base totalPages : Nat) : BuddyZone → List (Nat × Nat) → List (Nat × Nat) → Prop
  | init : BuddyRun base totalPages (buddyInit base totalPages) [] []
  | freeRange {z : BuddyZone} {ranges live : List (Nat × Nat)} (start stop : Nat) :
      BuddyRun base totalPages z ranges live → (∀ r ∈ ranges, ∀ x, start ≤ x → x < stop → ¬ (r.1 ≤ x ∧ x < r.2)) →
      BuddyRun base totalPages (buddyFreeRange z start stop) ((start, stop) :: ranges) live
  | reserveRange {z : BuddyZone} {ranges live : List (Nat × Nat)} (start stop : Nat) :
      BuddyRun base totalPages z ranges live → stop + 4095 < 2 ^ 64 →
      BuddyRun base totalPages (buddyReserveRange z start stop) ranges live
  | alloc {z z' : BuddyZone} {ranges live : List (Nat × Nat)} {phys : Nat} (pages : Nat) :
      BuddyRun base totalPages z ranges live → buddyAlloc z pages = .ok (phys, z') →
      BuddyRun base totalPages z' ranges (if phys = 0 then live else (phys, pages) :: live)
  | allocRange {z z' : BuddyZone} {ranges live : List (Nat × Nat)} {phys : Nat} (pages minPhys maxPhys : Nat) :
      BuddyRun base totalPages z ranges live → buddyAllocRange z pages minPhys maxPhys = .ok (phys, z') →
      BuddyRun base totalPages z' ranges (if phys = 0 then live else (phys, pages) :: live)
  | free {z z' : BuddyZone} {ranges live : List (Nat × Nat)} {b : Nat × Nat} :
      BuddyRun base totalPages z ranges live → b ∈ live → buddyFree z b.1 b.2 = .ok z' →
      BuddyRun base totalPages z' ranges (live.erase b)

/-- A live block is an aligned block of the zone, none of whose pages is free. -/
structure LiveAt (z : BuddyZone) (b : Nat × Nat) (i order : Nat) : Prop where
  at_page : b.1 = z.addr i
  pages_pos : b.2 ≠ 0
  order_of : pagesToOrder b.2 = some order
  order_le : order ≤ buddyMaxOrder
  aligned : 2 ^ order ∣ i
  in_zone : i + 2 ^ order ≤ z.totalPages
  taken : ∀ p ∈ block i order, z.allocMap p = true

structure RunInv (base totalPages : Nat) (z : BuddyZone) (ranges live : List (Nat × Nat)) : Prop where
  base : z.base = base
  totalPages : z.totalPages = totalPages
  inv : BuddyInv z ∅
  held : ∀ b ∈ live, ∃ i order, LiveAt z b i order
  apart : live.Pairwise Apart
  /-- what is free or live was freed with one of the ranges -/
  seeded : ∀ p, (z.allocMap p = false ∨ ∃ b ∈ live, b.1 ≤ z.addr p ∧ z.addr p < b.1 + blockSize b.2) →
    ∃ r ∈ ranges, r.1 ≤ z.addr p ∧ z.addr p < r.2

theorem LiveAt.stop_eq (h : LiveAt z b i order) : b.1 + blockSize b.2 = z.addr (i + 2 ^ order) := by
  rw [h.at_page, blockSize, h.order_of]
  unfold BuddyZone.addr orderToPages
  rw [Option.getD_some, Nat.add_mul, Nat.add_assoc]

theorem LiveAt.mem_iff (h : LiveAt z b i order) (p : Nat) :
    b.1 ≤ z.addr p ∧ z.addr p < b.1 + blockSize b.2 ↔ p ∈ block i order := by
  rw [h.stop_eq, h.at_page, addr_le_addr, ← Nat.not_le, addr_le_addr, Nat.not_le]
  rfl

theorem LiveAt.same (h : LiveAt z b i order) (hb : z'.base = z.base)
    (ht : z'.totalPages = z.totalPages) (hset : ∀ p ∈ block i order, z'.allocMap p = true) : LiveAt z' b i order :=
  ⟨by rw [h.at_page, BuddyZone.addr, BuddyZone.addr, hb], h.pages_pos, h.order_of, h.order_le, h.aligned,
    ht ▸ h.in_zone, hset⟩

theorem LiveAt.apart {b' : Nat × Nat} {i' order' : Nat} (h : LiveAt z b i order) (h' : LiveAt z b' i' order') :
    Apart b b' ↔ ∀ p ∈ block i order, p ∉ block i' order' := by
  unfold Apart
  rw [h.stop_eq, h'.stop_eq, h.at_page, h'.at_page, addr_le_addr, addr_le_addr]
  have hpos := Nat.two_pow_pos order
  have hpos' := Nat.two_pow_pos order'
  refine ⟨fun hor p hp hp' => ?_, fun hno => ?_⟩
  · rw [mem_block] at hp hp'
    omega
  · by_contra hc
    refine hno (max i i') ?_ ?_ <;> rw [mem_block] <;> omega

variable {base totalPages : Nat} {ranges live : List (Nat × Nat)}

theorem RunInv.zoneOk (h : RunInv base totalPages z ranges live) (ha : buddyPageSize ∣ base) (hp : 0 < base)
    (hb : base + totalPages * buddyPageSize ≤ 2 ^ 63) : ZoneOk z :=
  ⟨h.base ▸ ha, h.base ▸ hp, by rw [BuddyZone.zoneEnd, h.base, h.totalPages]; exact hb⟩

theorem Apart.symm {b' : Nat × Nat} (h : Apart b b') : Apart b' b := Or.symm h

/-- The pages of a range that is freed now were neither free nor live. -/
theorem RunInv.freeRange (h : RunInv base totalPages z ranges live) (hz : ZoneOk z) {start stop : Nat}
    (hdis : ∀ r ∈ ranges, ∀ x, start ≤ x → x < stop → ¬ (r.1 ≤ x ∧ x < r.2)) :
    RunInv base totalPages (buddyFreeRange z start stop) ((start, stop) :: ranges) live := by
  have hnew : ∀ p, start ≤ z.addr p → z.addr p < stop →
      ¬ (z.allocMap p = false ∨ ∃ b ∈ live, b.1 ≤ z.addr p ∧ z.addr p < b.1 + blockSize b.2) := by
    intro p h₁ h₂ hp
    obtain ⟨r, hr, hin⟩ := h.seeded p hp
    exact hdis r hr _ h₁ h₂ hin
  obtain ⟨a, b, hfreed, hiff⟩ := buddyFreeRange_spec hz h.inv start stop fun p _ h₁ h₂ => by
    simpa using fun hc => hnew p h₁ h₂ (.inl hc)
  have haddr : ∀ p, (buddyFreeRange z start stop).addr p = z.addr p := fun p => by
    rw [BuddyZone.addr, BuddyZone.addr, hfreed.base]
  have hstop : ∀ p, a ≤ p ∧ p < b → start ≤ z.addr p ∧ z.addr p < stop := fun p hp => by
    have := (hiff p).mp hp
    unfold buddyPageSize at this
    omega
  refine ⟨hfreed.base.trans h.base, hfreed.totalPages.trans h.totalPages, hfreed.inv, fun c hc => ?_, h.apart,
    fun p hp => ?_⟩
  · obtain ⟨i, order, hat⟩ := h.held c hc
    refine ⟨i, order, hat.same hfreed.base hfreed.totalPages fun p hp => ?_⟩
    rw [hfreed.allocMap p, if_neg, hat.taken p hp]
    intro hin
    obtain ⟨h₁, h₂⟩ := hstop p hin
    exact hnew p h₁ h₂ (.inr ⟨c, hc, (hat.mem_iff p).mpr hp⟩)
  · simp only [haddr] at hp ⊢
    by_cases hin : a ≤ p ∧ p < b
    · exact ⟨_, mem_cons_self, hstop p hin⟩
    · rw [hfreed.allocMap p, if_neg hin] at hp
      obtain ⟨r, hr, hin⟩ := h.seeded p hp
      exact ⟨r, mem_cons_of_mem _ hr, hin⟩

theorem clear_lt (h : BuddyInv z ∅) (hp : z.allocMap p = false) : p < z.totalPages := by
  obtain ⟨i, o, hl, hin⟩ := ((h.clear p).mp hp).resolve_left (Set.notMem_empty p)
  exact hin.2.trans_le (h.block_of hl).2.2.2

section

variable (h : RunInv base totalPages z ranges live)

include h

theorem RunInv.reserveRange (hz : ZoneOk z) {start stop : Nat}
    (hstop : stop + 4095 < 2 ^ 64) : RunInv base totalPages (buddyReserveRange z start stop) ranges live := by
  obtain ⟨hinv, hb, ht, hmap⟩ := buddyReserveRange_spec hz h.inv start hstop
  have haddr : ∀ p, (buddyReserveRange z start stop).addr p = z.addr p := fun p => by
    rw [BuddyZone.addr, BuddyZone.addr, hb]
  refine ⟨hb.trans h.base, ht.trans h.totalPages, hinv, fun c hc => ?_, h.apart, fun p hp => ?_⟩
  · obtain ⟨i, order, hat⟩ := h.held c hc
    refine ⟨i, order, hat.same hb ht fun p hp => ?_⟩
    rw [hmap p (hp.2.trans_le hat.in_zone), hat.taken p hp, Bool.true_or]
  · simp only [haddr] at hp ⊢
    refine h.seeded p (hp.imp_left fun hc => ?_)
    rw [hmap p (ht ▸ clear_lt hinv hc), Bool.or_eq_false_iff] at hc
    exact hc.1

theorem RunInv.allocated {pages phys order : Nat} {z' : BuddyZone}
    (ha : Allocated z pages phys z' i order) : RunInv base totalPages z' ranges ((phys, pages) :: live) := by
  have haddr : ∀ p, z'.addr p = z.addr p := fun p => by rw [BuddyZone.addr, BuddyZone.addr, ha.base]
  have hnew : LiveAt z' (phys, pages) i order := by
    refine ⟨ha.at_page.trans (haddr i).symm, ha.pages_pos, ha.order_of, ha.order_le, ha.aligned, ?_, fun p hp => ?_⟩
    · rw [ha.totalPages]
      exact ha.in_zone
    · rw [ha.allocMap p, if_pos hp]
  have hold : ∀ c ∈ live, ∃ j q, LiveAt z c j q ∧ LiveAt z' c j q := by
    intro c hc
    obtain ⟨j, q, hat⟩ := h.held c hc
    refine ⟨j, q, hat, hat.same ha.base ha.totalPages fun p hp => ?_⟩
    rw [ha.allocMap p, hat.taken p hp, ite_self]
  refine ⟨ha.base.trans h.base, ha.totalPages.trans h.totalPages, ha.inv, fun c hc => ?_, ?_, fun p hp => ?_⟩
  · rcases mem_cons.mp hc with rfl | hc
    · exact ⟨i, order, hnew⟩
    · obtain ⟨j, q, -, hat⟩ := hold c hc
      exact ⟨j, q, hat⟩
  · refine pairwise_cons.mpr ⟨fun c hc => ?_, h.apart⟩
    obtain ⟨j, q, hat, hat'⟩ := hold c hc
    refine (hnew.apart hat').mpr fun p hp hp' => ?_
    cases (ha.free p hp).symm.trans (hat.taken p hp')
  · rw [haddr] at hp ⊢
    rcases hp with hc | ⟨c, hc, hin⟩
    · rw [ha.allocMap p] at hc
      split at hc
      · cases hc
      · exact h.seeded p (.inl hc)
    rcases mem_cons.mp hc with rfl | hc
    · rw [← haddr, hnew.mem_iff] at hin
      exact h.seeded p (.inl (ha.free p hin))
    · exact h.seeded p (.inr ⟨c, hc, hin⟩)

theorem RunInv.free (hz : ZoneOk z) {b : Nat × Nat} (hb : b ∈ live) :
    ∃ z', buddyFree z b.1 b.2 = .ok z' ∧ RunInv base totalPages z' ranges (live.erase b) := by
  obtain ⟨i, order, hat⟩ := h.held b hb
  obtain ⟨z', hfree, hinv, hbase, htotal, hmap⟩ := buddyFree_spec h.inv hz.pos hat.pages_pos hat.order_of hat.order_le
    hat.aligned hat.in_zone hat.taken
  have haddr : ∀ p, z'.addr p = z.addr p := fun p => by rw [BuddyZone.addr, BuddyZone.addr, hbase]
  have hpair : (b :: live.erase b).Pairwise Apart :=
    (Perm.pairwise_iff Apart.symm (perm_cons_erase hb)).mp h.apart
  refine ⟨z', hat.at_page ▸ hfree, hbase.trans h.base, htotal.trans h.totalPages, hinv, fun c hc => ?_,
    (pairwise_cons.mp hpair).2, fun p hp => ?_⟩
  · obtain ⟨j, q, hc'⟩ := h.held c (mem_of_mem_erase hc)
    refine ⟨j, q, hc'.same hbase htotal fun p hp => ?_⟩
    have hout : p ∉ block i order := fun hin =>
      (hat.apart hc').mp ((pairwise_cons.mp hpair).1 c hc) p hin hp
    rw [hmap p, if_neg hout, hc'.taken p hp]
  · rw [haddr] at hp ⊢
    rcases hp with hc | ⟨c, hc, hin⟩
    · rw [hmap p] at hc
      split at hc
      · rename_i hin
        exact h.seeded p (.inr ⟨b, hb, (hat.mem_iff p).mpr hin⟩)
      · exact h.seeded p (.inl hc)
    · exact h.seeded p (.inr ⟨c, mem_of_mem_erase hc, hin⟩)

end

theorem Allocated.phys_ne_zero {pages phys : Nat} (h : Allocated z pages phys z' i order) (hz : ZoneOk z) :
    phys ≠ 0 := by
  have hpos := hz.pos
  rw [h.at_page]
  unfold BuddyZone.addr
  omega

theorem BuddyRun.inv (ha : buddyPageSize ∣ base) (hp : 0 < base) (hb : base + totalPages * buddyPageSize ≤ 2 ^ 63)
    (hrun : BuddyRun base totalPages z ranges live) : RunInv base totalPages z ranges live := by
  induction hrun with
  | init =>
    exact ⟨rfl, rfl, buddyInit_inv base totalPages, nofun, List.Pairwise.nil,
      fun p h => h.elim nofun fun ⟨_, h, _⟩ => (nomatch h)⟩
  | freeRange start stop _ hdis ih => exact ih.freeRange (ih.zoneOk ha hp hb) hdis
  | reserveRange start stop _ hstop ih => exact ih.reserveRange (ih.zoneOk ha hp hb) hstop
  | alloc pages _ halloc ih =>
    rcases buddyAlloc_spec ih.inv halloc with ⟨rfl, rfl⟩ | ⟨i, order, hall⟩
    · exact ih
    · rw [if_neg (hall.phys_ne_zero (ih.zoneOk ha hp hb))]
      exact ih.allocated hall
  | allocRange pages minPhys maxPhys _ halloc ih =>
    rcases buddyAllocRange_spec ih.inv halloc with ⟨rfl, rfl⟩ | ⟨i, order, hall, -⟩
    · exact ih
    · rw [if_neg (hall.phys_ne_zero (ih.zoneOk ha hp hb))]
      exact ih.allocated hall
  | free _ hmem hfree ih =>
    obtain ⟨z', heq, hinv⟩ := ih.free (ih.zoneOk ha hp hb) hmem
    obtain rfl := Except.ok.inj (heq.symm.trans hfree)
    exact hinv

theorem pagesToOrderFrom_le {pages : Nat} (fuel : Nat) {n order : Nat} (hsum : order + fuel = 64)
    (hn : n = 2 ^ order % 2 ^ 64) (h : pagesToOrderFrom pages fuel n order = some o) : pages ≤ 2 ^ o := by
  induction fuel generalizing n order with
  | zero =>
    obtain rfl : order = 64 := hsum
    rw [Nat.mod_self] at hn
    rw [pagesToOrderFrom] at h
    split at h
    · cases h
    · have := Nat.two_pow_pos o
      omega
  | succ fuel ih =>
    rw [pagesToOrderFrom] at h
    split at h
    · refine ih (by omega) ?_ h
      rw [hn, Nat.mod_mul_mod, ← Nat.pow_succ]
    obtain rfl := Option.some.inj h
    have hlt : 2 ^ order < 2 ^ 64 := Nat.pow_lt_pow_right (by decide) (by omega)
    rw [Nat.mod_eq_of_lt hlt] at hn
    omega

/-- In every run the free lists and the bitmap describe the same pages, in aligned blocks that overlap neither each
other nor a live block; a reservation is exact but for ranges up to the last page of the address space; an allocation
gives free pages; and a live block can be freed. -/
theorem buddy_zone_sound (base totalPages : Nat) (ha : buddyPageSize ∣ base) (hp : 0 < base)
    (hb : base + totalPages * buddyPageSize ≤ 2 ^ 63) {z : BuddyZone} {ranges live : List (Nat × Nat)}
    (hrun : BuddyRun base totalPages z ranges live) :
    BuddyInv z ∅ ∧ (∀ b ∈ live, ∃ i order, LiveAt z b i order) ∧ live.Pairwise Apart ∧
    (∀ start stop, stop < 2 ^ 64 →
      ((∀ p < z.totalPages, (buddyReserveRange z start stop).allocMap p =
          (z.allocMap p || decide (start < z.addr p + buddyPageSize ∧ z.addr p < stop))) ↔
        stop + 4095 < 2 ^ 64 ∨
          ∀ p < z.totalPages, z.allocMap p = false → ¬ (start < z.addr p + buddyPageSize ∧ z.addr p < stop))) ∧
    (∀ pages phys z', buddyAlloc z pages = .ok (phys, z') → phys ≠ 0 →
      ∃ i order, Allocated z pages phys z' i order ∧ pages ≤ 2 ^ order) ∧
    (∀ pages minPhys maxPhys phys z', buddyAllocRange z pages minPhys maxPhys = .ok (phys, z') → phys ≠ 0 →
      ∃ i order, Allocated z pages phys z' i order ∧ pages ≤ 2 ^ order ∧ minPhys ≤ phys ∧
        phys + 2 ^ order * buddyPageSize ≤ maxPhys) ∧
    ∀ b ∈ live, ∃ z', buddyFree z b.1 b.2 = .ok z' := by
  have hinv := hrun.inv ha hp hb
  have hz := hinv.zoneOk ha hp hb
  refine ⟨hinv.inv, hinv.held, hinv.apart, fun start stop hlt => ⟨fun hexact => ?_, fun hor => ?_⟩,
    fun pages phys z' halloc hne => ?_, fun pages minPhys maxPhys phys z' halloc hne => ?_, fun b hmem => ?_⟩
  · by_contra hno
    rw [not_or, Nat.not_lt] at hno
    refine hno.2 fun p hp hc hin => ?_
    have heq := hexact p hp
    rw [buddyReserveRange_wrap z hlt hno.1, hc, Bool.false_or, decide_eq_true hin] at heq
    cases heq
  · by_cases hwrap : stop + 4095 < 2 ^ 64
    · exact (buddyReserveRange_spec hz hinv.inv start hwrap).2.2.2
    · intro p hp
      rw [buddyReserveRange_wrap z hlt (not_lt.mp hwrap)]
      cases hc : z.allocMap p with
      | true => rfl
      | false => rw [Bool.false_or, decide_eq_false (hor.resolve_left hwrap p hp hc)]
  · rcases buddyAlloc_spec hinv.inv halloc with ⟨rfl, -⟩ | ⟨i, order, hall⟩
    · exact absurd rfl hne
    · exact ⟨i, order, hall, pagesToOrderFrom_le 64 rfl rfl hall.order_of⟩
  · rcases buddyAllocRange_spec hinv.inv halloc with ⟨rfl, -⟩ | ⟨i, order, hall, hmin, hmax⟩
    · exact absurd rfl hne
    · exact ⟨i, order, hall, pagesToOrderFrom_le 64 rfl rfl hall.order_of, hmin, hmax⟩
  · obtain ⟨z', hfree, -⟩ := hinv.free hz hmem
    exact ⟨z', hfree⟩

/-- Three pages are freed and one of them is allocated: it can be freed. -/
theorem buddy_zone_sound_three :
    ∃ z', buddyFree (takeBlock (buddyFreeRange (buddyInit 4096 3) 0 20000) 12288 0 0) 12288 1 = .ok z' := by
  have hhead : (candidates (buddyFreeRange (buddyInit 4096 3) 0 20000) 0).head? = some (0, 12288) := by decide +kernel
  have halloc : buddyAlloc (buddyFreeRange (buddyInit 4096 3) 0 20000) 1 =
      .ok (12288, takeBlock (buddyFreeRange (buddyInit 4096 3) 0 20000) 12288 0 0) := by
    have horder : pagesToOrder 1 = some 0 := rfl
    simp only [buddyAlloc, horder, hhead]
    rfl
  have hrun :
    BuddyRun 4096 3 (takeBlock (buddyFreeRange (buddyInit 4096 3) 0 20000) 12288 0 0) [(0, 20000)] [(12288, 1)] :=
    BuddyRun.alloc 1 (.freeRange 0 20000 .init nofun) halloc
  exact (buddy_zone_sound 4096 3 (by decide) (by decide) (by decide) hrun).2.2.2.2.2.2 (12288, 1) mem_cons_self

/-- A range up to the last byte of the address space covers the zone, and nothing of it is reserved. -/
theorem reserve_wraps :
    let z := buddyFreeRange (buddyInit 4096 3) 0 20000
    let z' := buddyReserveRange z 0 (2 ^ 64 - 1)
    z.addr 0 < 2 ^ 64 - 1 ∧ z'.allocMap 0 = false ∧ z'.freeCount = 3 := by
  decide +kernel

end BoxOS.Memory
