import BoxOS.Lib.Runs
import BoxOS.Memory.TlbProtocol

/-!
# No core uses a stale translation

A stale entry is one that the tables no longer agree with. As long as the cores that keep stale entries are told of them
and stay where they are (`Clean`), every stale entry is owed a flush by an operation that has not returned (`Owes`), and
so none is left when no operation on its page is going on. The shootdown protocol itself needs no condition.
-/

namespace BoxOS.Memory.Tlb

open Lib List Option World

variable {n i j k p : Nat} {pcid : Bool} {w w' : World} {e : Nat × Leaf}

/-! ## What is owed -/

/-- The operation has changed a page of a context, and has not returned. -/
def Op.Affects : Op → Nat → Nat → Prop
  | .idle, _, _ => False
  | .protecting ctx base _ done _, c, p => ctx = c ∧ base ≤ p ∧ p < base + done
  | .splitting ctx base span _, c, p => ctx = c ∧ base ≤ p ∧ p < base + span
  | .scanning r _ _, c, p | .flushing r _, c, p | .locking r _, c, p | .asking r _ _, c, p | .waiting r _, c, p =>
    r.ctx = c ∧ r.addr ≤ p ∧ p < r.addr + r.span

/-- A core is asked to flush, or has claimed and is about to. -/
def Asked (w : World) (j : Nat) : Prop := (w.core j).req = w.shoot.gen ∨ (j, .claimed) ∈ w.handlers

/-- The operation of the core `i` will still flush an entry of the core `j`. -/
def Reaches (w : World) (i j : Nat) (l : Leaf) : Op → Prop
  | .idle => False
  | .protecting ctx _ _ _ _ => Told w i ctx j
  | .splitting _ _ _ page => j = i ∧ l.Covers page
  | .scanning r next targets => l.Meets r.addr r.count ∧ (j = i ∨ (next ≤ j ∧ Selected w r j) ∨ j ∈ targets)
  | .flushing r targets => l.Meets r.addr r.count ∧ (j = i ∨ j ∈ targets)
  | .locking r targets => l.Meets r.addr r.count ∧ j ∈ targets
  | .asking r _ rest => l.Meets r.addr r.count ∧ (j ∈ rest ∨ Asked w j)
  | .waiting r _ => l.Meets r.addr r.count ∧ Asked w j

/-- The operation of the core `i` has made an entry stale and will still flush it. -/
def Owes (w : World) (i j : Nat) (e : Nat × Leaf) (p : Nat) : Prop :=
  (w.core i).op.Affects e.1 p ∧ Reaches w i j e.2 (w.core i).op

/-- An entry of a core that is stale at a page. -/
def StaleAt (w : World) (j : Nat) (e : Nat × Leaf) (p : Nat) : Prop :=
  e ∈ (w.core j).tlb ∧ e.2.Covers p ∧ ¬Agrees (w.tables e.1) e.2 p

/-- Every stale entry is one of the context that its core has loaded, and is owed a flush. -/
structure Kept (n : Nat) (w : World) : Prop where
  few : ∀ j, n ≤ j → (w.core j).tlb = []
  shaped : ∀ j, ∀ e ∈ (w.core j).tlb, Shaped (w.tables e.1) e.2
  owed : ∀ j e p, StaleAt w j e p → (w.core j).loaded = e.1 ∧ ∃ i, Owes w i j e p

theorem kept_init (n : Nat) (tables : Nat → Tables) (loaded : Nat → Nat) (current : Nat → Option Nat) :
    Kept n (init tables loaded current) :=
  ⟨fun _ _ => rfl, fun _ _ he => (nomatch he), fun _ _ _ hs => (nomatch hs.1)⟩

theorem Reaches.imp {l : Leaf} {o : Op} (h : Reaches w i j l o) (hcur : (w'.core j).current = (w.core j).current)
    (hasked : o.armed.isSome = true → Asked w j → Asked w' j) : Reaches w' i j l o := by
  cases o with
  | idle | splitting | flushing | locking => exact h
  | protecting ctx base count done flags =>
    unfold Reaches Told at h ⊢
    rw [hcur]
    exact h
  | scanning r next targets =>
    unfold Reaches Selected at h ⊢
    rw [hcur]
    exact h
  | asking r targets rest => exact ⟨h.1, h.2.imp id (hasked rfl)⟩
  | waiting r targets => exact ⟨h.1, hasked rfl h.2⟩

theorem Owes.imp (h : Owes w i j e p) (hop : (w'.core i).op = (w.core i).op)
    (hcur : (w'.core j).current = (w.core j).current)
    (hasked : (w.core i).op.armed.isSome = true → Asked w j → Asked w' j) : Owes w' i j e p := by
  unfold Owes
  rw [hop]
  exact ⟨h.1, h.2.imp hcur hasked⟩

theorem NoneStale.agrees (h : NoneStale w j) (he : e ∈ (w.core j).tlb) (hp : e.2.Covers p) :
    Agrees (w.tables e.1) e.2 p := by
  have := h e he (p - e.2.base) (by have := hp.1; have := hp.2; omega)
  rwa [Nat.add_sub_cancel' hp.1] at this

theorem StaleOnly.of_stale {ctx : Nat} {T : Tables} {P : Nat → Prop} (h : StaleOnly n w ctx T P) (hj : j < n)
    (he : e ∈ (w.core j).tlb) (hc : e.1 = ctx) (hp : e.2.Covers p) (hold : Agrees (w.tables ctx) e.2 p)
    (hnew : ¬Agrees T e.2 p) : (w.core j).loaded = ctx ∧ P j := by
  have hk : p - e.2.base < e.2.span := by
    have := hp.1
    have := hp.2
    omega
  apply h j hj e he hc _ hk
  · rwa [Nat.add_sub_cancel' hp.1]
  · rwa [Nat.add_sub_cancel' hp.1]

theorem meets_of_covers {l : Leaf} {addr count : Nat} (hp : l.Covers p) (hlo : addr ≤ p) (hhi : p < addr + count) :
    l.Meets addr count := by
  unfold Leaf.Covers at hp
  unfold Leaf.Meets
  omega

namespace Kept

theorem lt_of_mem (h : Kept n w) (he : e ∈ (w.core j).tlb) : j < n := by
  by_contra hge
  rw [h.few j (by omega)] at he
  cases he

theorem frame (h : Kept n w) (w' : World) (htables : w'.tables = w.tables)
    (htlb : ∀ j, ∀ e ∈ (w'.core j).tlb, e ∈ (w.core j).tlb ∨ j < n ∧ Shaped (w.tables e.1) e.2 ∧ ∀ p, e.2.Covers p →
    Agrees (w.tables e.1) e.2 p) (howed : ∀ j e p, StaleAt w' j e p → StaleAt w j e p → (w.core j).loaded = e.1 →
    ∀ i, Owes w i j e p → (w'.core j).loaded = (w.core j).loaded ∧ ∃ i, Owes w' i j e p) : Kept n w' where
  few := fun j hj => eq_nil_iff_forall_not_mem.mpr fun e he => by
    rcases htlb j e he with he | he
    · rw [h.few j hj] at he
      cases he
    · exact absurd he.1 (by omega)
  shaped := fun j e he => by
    rw [htables]
    rcases htlb j e he with he | he
    · exact h.shaped j e he
    · exact he.2.1
  owed := fun j e p hs => by
    obtain ⟨he, hp, hne⟩ := id hs
    rw [htables] at hne
    rcases htlb j e he with he | he
    · obtain ⟨hl, i, ho⟩ := h.owed j e p ⟨he, hp, hne⟩
      obtain ⟨hsame, howes⟩ := howed j e p hs ⟨he, hp, hne⟩ hl i ho
      exact ⟨hsame.trans hl, howes⟩
    · exact absurd (he.2.2 p hp) hne

/-- The tables of a context change, and the change is owed. -/
theorem change (h : Kept n w) (w' : World) {c : Nat} {T : Tables} (htables : w'.tables = Function.update w.tables c T)
    (hgrows : Grows (w.tables c) T) (htlb : ∀ j, (w'.core j).tlb = (w.core j).tlb)
    (hloaded : ∀ j, (w'.core j).loaded = (w.core j).loaded) (hold : ∀ i j e p, Owes w i j e p → Owes w' i j e p)
    (hnew : ∀ j e p, e ∈ (w.core j).tlb → e.1 = c → e.2.Covers p → Agrees (w.tables c) e.2 p → ¬Agrees T e.2 p →
    (w.core j).loaded = c ∧ ∃ i, Owes w' i j e p) : Kept n w' where
  few := fun j hj => by
    rw [htlb]
    exact h.few j hj
  shaped := fun j e he => by
    rw [htlb] at he
    have hs := h.shaped j e he
    rw [htables]
    by_cases hc : e.1 = c
    · rw [hc] at hs ⊢
      rw [Function.update_self]
      exact hs.grows hgrows
    · rw [Function.update_of_ne hc]
      exact hs
  owed := fun j e p hs => by
    obtain ⟨he, hp, hne⟩ := hs
    rw [htlb] at he
    rw [htables] at hne
    rw [hloaded]
    by_cases hagree : Agrees (w.tables e.1) e.2 p
    · by_cases hc : e.1 = c
      · rw [hc, Function.update_self] at hne
        rw [hc] at hagree ⊢
        exact hnew j e p he hc hp hagree hne
      · rw [Function.update_of_ne hc] at hne
        exact absurd hagree hne
    · obtain ⟨hl, i, ho⟩ := h.owed j e p ⟨he, hp, hagree⟩
      exact ⟨hl, i, hold i j e p ho⟩

theorem map (h : Kept n w) {c : Nat} {T : Tables} (hext : Extends (w.tables c) T) : Kept n (w.setTables c T) := by
  apply h.change (w.setTables c T) rfl hext.1 (fun _ => rfl) (fun _ => rfl)
  · exact fun i j e p ho => ho.imp rfl rfl fun _ ha => ha
  · intro j e p _ _ _ hagree hne
    -- a page that an entry agrees with was mapped
    refine absurd ?_ hne
    unfold Agrees at hagree ⊢
    cases hl : leafAt (w.tables c) p with
    | none =>
      rw [hl] at hagree
      cases hagree
    | some l =>
      rw [hext.2 p l hl]
      rw [hl] at hagree
      exact hagree

/-- The core `i` changes tables and goes to an operation that owes what became stale. -/
theorem changeBy (h : Kept n w) (w' : World) {c : Nat} {T : Tables} {o : Op}
    (htables : w'.tables = Function.update w.tables c T)
    (hcore : ∀ m, w'.core m = if m = i then setOp o (w.core m) else w.core m) (hs : w'.shoot = w.shoot)
    (hh : w'.handlers = w.handlers) (hgrows : Grows (w.tables c) T) (hmono : ∀ j (e : Nat × Leaf) p,
    (w.core i).op.Affects e.1 p → Reaches w i j e.2 (w.core i).op → o.Affects e.1 p ∧ Reaches w i j e.2 o)
    (hnew : ∀ j, j < n → ∀ e ∈ (w.core j).tlb, ∀ p, e.1 = c → e.2.Covers p → Agrees (w.tables c) e.2 p →
    ¬Agrees T e.2 p → (w.core j).loaded = c ∧ o.Affects c p ∧ Reaches w i j e.2 o) : Kept n w' := by
  have hsame : ∀ m, (w'.core m).tlb = (w.core m).tlb ∧ (w'.core m).loaded = (w.core m).loaded ∧
      (w'.core m).current = (w.core m).current ∧ (w'.core m).req = (w.core m).req := fun m => by
    rw [hcore]
    split <;> exact ⟨rfl, rfl, rfl, rfl⟩
  have hasked : ∀ m, Asked w m → Asked w' m := fun m ha => by
    unfold Asked at ha ⊢
    rwa [(hsame m).2.2.2, hs, hh]
  have hop : (w'.core i).op = o := by
    rw [hcore, if_pos rfl]
    rfl
  apply h.change w' htables hgrows (fun m => (hsame m).1) (fun m => (hsame m).2.1)
  · intro a m e p ho
    by_cases ha : a = i
    · subst ha
      obtain ⟨haff, hreach⟩ := hmono m e p ho.1 ho.2
      unfold Owes
      rw [hop]
      exact ⟨haff, hreach.imp (hsame m).2.2.1 fun _ => hasked m⟩
    apply ho.imp
    · rw [hcore, if_neg ha]
    · exact (hsame m).2.2.1
    · exact fun _ => hasked m
  · intro m e p he hec hp hagree hne
    obtain ⟨hl, haff, hreach⟩ := hnew m (h.lt_of_mem he) e he p hec hp hagree hne
    refine ⟨hl, i, ?_⟩
    unfold Owes
    rw [hop, hec]
    exact ⟨haff, hreach.imp (hsame m).2.2.1 fun _ => hasked m⟩

theorem leaf_ne {T T' : Tables} {l : Leaf} (hold : Agrees T l p) (hnew : ¬Agrees T' l p) : leafAt T' p ≠ leafAt T p :=
  fun he =>
  hnew <| by
    unfold Agrees at hold ⊢
    rw [he]
    exact hold

theorem unmap (h : Kept n w) {c : Nat} {T : Tables} {r : Request} (hidle : (w.core i).op = .idle) (hr : r.ctx = c)
    (hgrows : Grows (w.tables c) T) (hclean : StaleOnly n w c T (Told w i c))
    (hpages : ∀ l, Shaped (w.tables c) l → ∀ p, l.Covers p → leafAt T p ≠ leafAt (w.tables c) p →
    (r.addr ≤ p ∧ p < r.addr + r.span) ∧ l.Meets r.addr r.count) :
    Kept n ((w.setTables c T).setCore i (setOp (.scanning r 0 []))) := by
  apply h.changeBy _ rfl ((w.setTables c T).core_setCore i _) rfl rfl hgrows
  · intro j e p haff
    rw [hidle] at haff
    exact haff.elim
  · intro j hj e he p hec hp hold hnew
    obtain ⟨hl, htold⟩ := hclean.of_stale hj he hec hp hold hnew
    have hshape := h.shaped j e he
    rw [hec] at hshape
    obtain ⟨hin, hmeets⟩ := hpages e.2 hshape p hp (leaf_ne hold hnew)
    refine ⟨hl, ⟨hr, hin⟩, hmeets, ?_⟩
    rcases htold with rfl | hc | hcur
    · exact .inl rfl
    · exact .inr (.inl ⟨Nat.zero_le _, .inr (.inl (hr.trans hc))⟩)
    · exact .inr (.inl ⟨Nat.zero_le _, .inr (.inr (hr.symm ▸ hcur))⟩)

/-- The core `i` flushes some of its entries and goes to another operation. -/
theorem flushOwn (h : Kept n w) (L : Nat → Bool) {o : Op} {f : Core → Core} (hf : ∀ c : Core, (f c).loaded = c.loaded ∧
    (f c).current = c.current ∧ (f c).req = c.req ∧ ∀ e ∈ (f c).tlb, e ∈ c.tlb)
    (hreach : ∀ j e p, StaleAt w j e p → (w.core j).loaded = e.1 → (j = i → e ∈ (f (w.core i)).tlb) →
    (w.core i).op.Affects e.1 p → Reaches w i j e.2 (w.core i).op → o.Affects e.1 p ∧ Reaches w i j e.2 o) :
    Kept n (({ w with ctxLock := L } : World).setCore i fun c => setOp o (f c)) := by
  generalize hw : (({ w with ctxLock := L } : World).setCore i fun c => setOp o (f c)) = w'
  have hcore : ∀ m, w'.core m = if m = i then setOp o (f (w.core m)) else w.core m := fun m => by
    subst hw
    exact core_setCore _ i _ m
  have hrest : w'.tables = w.tables ∧ w'.shoot = w.shoot ∧ w'.handlers = w.handlers := by
    subst hw
    exact ⟨rfl, rfl, rfl⟩
  obtain ⟨htables, hs, hh⟩ := hrest
  have hsame : ∀ m, (w'.core m).loaded = (w.core m).loaded ∧ (w'.core m).current = (w.core m).current ∧
      (w'.core m).req = (w.core m).req := fun m => by
    rw [hcore]
    split
    · exact ⟨(hf _).1, (hf _).2.1, (hf _).2.2.1⟩
    · exact ⟨rfl, rfl, rfl⟩
  have hasked : ∀ m, Asked w m → Asked w' m := fun m ha => by
    unfold Asked at ha ⊢
    rwa [(hsame m).2.2, hs, hh]
  have hleft : ∀ m, ∀ e ∈ (w'.core m).tlb, e ∈ (w.core m).tlb ∧ (m = i → e ∈ (f (w.core i)).tlb) := fun m e he => by
    rw [hcore] at he
    split at he
    · rename_i hm
      subst hm
      exact ⟨(hf _).2.2.2 e he, fun _ => he⟩
    · rename_i hm
      exact ⟨he, fun hm' => absurd hm' hm⟩
  apply h.frame w' htables
  · exact fun m e he => .inl (hleft m e he).1
  · intro m e p hs' hstale hl a ho
    refine ⟨(hsame m).1, a, ?_⟩
    by_cases ha : a = i
    · subst ha
      have hop : (w'.core a).op = o := by
        rw [hcore, if_pos rfl]
        rfl
      obtain ⟨haff, hreach'⟩ := hreach m e p hstale hl (hleft m e hs'.1).2 ho.1 ho.2
      unfold Owes
      rw [hop]
      exact ⟨haff, hreach'.imp (hsame m).2.1 fun _ => hasked m⟩
    apply ho.imp
    · rw [hcore, if_neg ha]
    · exact (hsame m).2.1
    · exact fun _ => hasked m

theorem goTo (h : Kept n w) (L : Nat → Bool) (o : Op) (hreach : ∀ j e p, StaleAt w j e p → (w.core i).op.Affects e.1 p →
    Reaches w i j e.2 (w.core i).op → o.Affects e.1 p ∧ Reaches w i j e.2 o) :
    Kept n (({ w with ctxLock := L } : World).setCore i (setOp o)) :=
  h.flushOwn L (f := fun c => c) (fun _ => ⟨rfl, rfl, rfl, fun _ he => he⟩) fun j e p hs _ _ => hreach j e p hs

/-! ### The steps of an operation -/

theorem protecting (h : Kept n w) {ctx base count done : Nat} {flags : BitVec 64}
    (hop : (w.core i).op = .protecting ctx base count done flags) (hclean : CleanAdvance n w i)
    (ha : Tlb.advance n pcid w i = some w') : Kept n w' := by
  unfold Tlb.advance at ha
  unfold CleanAdvance at hclean
  rw [hop] at ha hclean
  dsimp only at ha hclean
  split at ha
  · rename_i hdone
    cases ha
    apply h.goTo
    intro j e p hs haff hreach
    rw [hop] at haff hreach
    obtain ⟨hc, hlo, hhi⟩ := haff
    rw [hdone] at hhi
    refine ⟨⟨hc, hlo, hhi⟩, meets_of_covers hs.2.1 hlo hhi, ?_⟩
    rcases hreach with hi | hc | hcur
    · exact .inl hi
    · exact .inr (.inl ⟨Nat.zero_le _, .inr (.inl hc)⟩)
    · exact .inr (.inl ⟨Nat.zero_le _, .inr (.inr hcur)⟩)
  · rename_i hdone
    rw [if_neg hdone] at hclean
    cases hprot : protectPage (w.tables ctx) (base + done) flags with
    | none =>
      rw [hprot] at ha hclean
      cases ha
      apply h.goTo
      -- what was changed before the failure made nothing stale
      intro j e p hs haff _
      rw [hop] at haff
      obtain ⟨hc, hlo, hhi⟩ := haff
      obtain ⟨he, hp, hne⟩ := hs
      have hk : p - e.2.base < e.2.span := by
        have := hp.1
        have := hp.2
        omega
      have hpage : e.2.base + (p - e.2.base) = p := Nat.add_sub_cancel' hp.1
      have hagree := hclean j (h.lt_of_mem he) e he hc.symm _ hk (by rw [hpage]; exact hlo) (by rw [hpage]; exact hhi)
      rw [hpage, hc] at hagree
      exact absurd hagree hne
    | some T =>
      rw [hprot] at ha hclean
      cases ha
      obtain ⟨hgrows, hpages⟩ := protectPage_changes hprot
      apply h.changeBy _ rfl ((w.setTables ctx T).core_setCore i _) rfl rfl hgrows
      · intro j e p haff hreach
        rw [hop] at haff hreach
        obtain ⟨hc, hlo, hhi⟩ := haff
        exact ⟨⟨hc, hlo, by omega⟩, hreach⟩
      · intro j hj e he p hec hp hold hnew
        obtain ⟨hl, htold⟩ := hclean.of_stale hj he hec hp hold hnew
        have hpage : p = base + done := by
          by_contra hne
          exact leaf_ne hold hnew (hpages p hne)
        exact ⟨hl, ⟨rfl, by omega, by omega⟩, htold⟩

theorem splitting (h : Kept n w) {ctx base span page : Nat} (hop : (w.core i).op = .splitting ctx base span page) :
    Kept n ((w.setCtxLock ctx false).setCore i fun c => setOp .idle (invlpg c page 1)) := by
  apply h.flushOwn (Function.update w.ctxLock ctx false) (f := fun c => invlpg c page 1)
  · exact fun c => ⟨rfl, rfl, rfl, fun e he => (mem_filter.mp he).1⟩
  · intro j e p hs hl hleft _ hreach
    rw [hop] at hreach
    obtain ⟨rfl, hcov⟩ := hreach
    have hin := (mem_filter.mp (hleft rfl)).2
    have hmeets : e.2.Meets page 1 := meets_of_covers hcov le_rfl (Nat.lt_succ_self page)
    simp [hl, hmeets] at hin

theorem scanning (h : Kept n w) {r : Request} {next : Nat} {targets : List Nat}
    (hop : (w.core i).op = .scanning r next targets) (ha : Tlb.advance n pcid w i = some w') : Kept n w' := by
  unfold Tlb.advance at ha
  rw [hop] at ha
  dsimp only at ha
  split at ha
  · split at ha
    · cases ha
      apply h.goTo
      intro j e p _ haff hreach
      rw [hop] at haff hreach
      refine ⟨haff, hreach.1, ?_⟩
      rcases hreach.2 with hi | ⟨hle, hsel⟩ | hin
      · exact .inl hi
      · rcases Nat.eq_or_lt_of_le hle with rfl | hlt
        · exact .inr (.inr (mem_append_right _ (mem_singleton_self _)))
        · exact .inr (.inl ⟨hlt, hsel⟩)
      · exact .inr (.inr (mem_append_left _ hin))
    · rename_i hskip
      cases ha
      apply h.goTo
      intro j e p _ haff hreach
      rw [hop] at haff hreach
      refine ⟨haff, hreach.1, ?_⟩
      rcases hreach.2 with hi | ⟨hle, hsel⟩ | hin
      · exact .inl hi
      · rcases Nat.eq_or_lt_of_le hle with rfl | hlt
        · -- the core is the one that scans
          by_cases hi : next = i
          · exact .inl hi
          · exact absurd ⟨hi, hsel⟩ hskip
        · exact .inr (.inl ⟨hlt, hsel⟩)
      · exact .inr (.inr hin)
  · rename_i hend
    cases ha
    apply h.goTo
    intro j e p hs haff hreach
    rw [hop] at haff hreach
    refine ⟨haff, hreach.1, ?_⟩
    rcases hreach.2 with hi | ⟨hle, -⟩ | hin
    · exact .inl hi
    · exact absurd (h.lt_of_mem hs.1) (by omega)
    · exact .inr hin

theorem not_mem_localFlush {r : Request} {c : Core} (hl : c.loaded = e.1) (hm : e.2.Meets r.addr r.count) :
    e ∉ (localFlush n pcid r c).tlb := by
  unfold localFlush
  split
  · intro he
    have := (mem_filter.mp he).2
    simp [hl, hm] at this
  unfold loadCr3
  intro he
  cases pcid with
  | true =>
    have := (mem_filter.mp he).2
    simp [hl] at this
  | false => cases he

theorem localFlush_keeps (r : Request) (c : Core) :
    (localFlush n pcid r c).loaded = c.loaded ∧ (localFlush n pcid r c).current = c.current ∧
    (localFlush n pcid r c).req = c.req ∧ ∀ e ∈ (localFlush n pcid r c).tlb, e ∈ c.tlb := by
  unfold localFlush
  split
  · exact ⟨rfl, rfl, rfl, fun e he => (mem_filter.mp he).1⟩
  refine ⟨rfl, rfl, rfl, fun e he => ?_⟩
  cases pcid with
  | true => exact (mem_filter.mp he).1
  | false => cases he

theorem flushing (h : Kept n w) {r : Request} {targets : List Nat} (hop : (w.core i).op = .flushing r targets) :
    Kept n
      (w.setCore i fun c => setOp (if targets = [] then .idle else .locking r targets) (localFlush n pcid r c)) := by
  apply h.flushOwn w.ctxLock (f := localFlush n pcid r) (localFlush_keeps r)
  intro j e p hs hl hleft haff hreach
  rw [hop] at haff hreach
  obtain ⟨hmeets, hj⟩ := hreach
  rcases hj with rfl | hj
  · exact absurd (hleft rfl) (not_mem_localFlush hl hmeets)
  · rw [if_neg (ne_nil_of_mem hj)]
    exact ⟨haff, hmeets, hj⟩

theorem askOwn (h : Kept n w) (w' : World) {o : Op} (htables : w'.tables = w.tables)
    (hcore : ∀ m, (w'.core m).tlb = (w.core m).tlb ∧ (w'.core m).loaded = (w.core m).loaded ∧
    (w'.core m).current = (w.core m).current) (hop : ∀ m, (w'.core m).op = if m = i then o else (w.core m).op)
    (hother : ∀ m, m ≠ i → (w.core m).op.armed = none) (hreach : ∀ j e p, StaleAt w j e p →
    (w.core i).op.Affects e.1 p → Reaches w i j e.2 (w.core i).op → o.Affects e.1 p ∧ Reaches w' i j e.2 o) :
    Kept n w' := by
  apply h.frame w' htables
  · intro m e he
    rw [(hcore m).1] at he
    exact .inl he
  · intro m e p _ hstale _ a ho
    refine ⟨(hcore m).2.1, a, ?_⟩
    by_cases ha : a = i
    · subst ha
      unfold Owes
      rw [hop, if_pos rfl]
      exact hreach m e p hstale ho.1 ho.2
    apply ho.imp
    · rw [hop, if_neg ha]
    · exact (hcore m).2.2
    · intro harmed
      rw [hother a ha] at harmed
      cases harmed

theorem others_not_armed (hp : Proto n w) (hl : w.lock = none ∨ w.lock = some i) {m : Nat} (hm : m ≠ i) :
    (w.core m).op.armed = none := by
  cases harm : (w.core m).op.armed with
  | none => rfl
  | some x =>
    have hlock := hp.armedLock m (by rw [harm]; rfl)
    rcases hl with hl | hl
    · rw [hl] at hlock
      cases hlock
    · rw [hl] at hlock
      exact absurd (some.inj hlock).symm hm

theorem not_asked (hp : Proto n w) {r : Request} {targets : List Nat} (hop : (w.core i).op = .waiting r targets)
    (hzero : w.shoot.pending = 0) (j : Nat) : ¬Asked w j := by
  have harm : (w.core i).op.armed = some (r, targets, []) := by
    rw [hop]
    rfl
  obtain ⟨x, hx, hround⟩ := hp.busy i (hp.armedLock i (by rw [harm]; rfl))
  rw [harm] at hx
  cases hx
  intro hask
  have hopen : 0 < openAt w [] j := by
    unfold openAt
    rcases hask with hreq | hin
    · rw [if_pos hreq]
      omega
    · have hle := le_total (holdsAt j) hin
      have hone : holdsAt j (j, Phase.claimed) = 1 := if_pos ⟨rfl, rfl⟩
      omega
  have hle : openAt w [] j ≤ total (openAt w []) targets := le_total (openAt w []) (hround.mem hopen)
  have hpend : w.shoot.pending = total (openAt w []) targets := hround.pending
  omega

theorem advance (h : Kept n w) (hp : Proto n w) (hclean : CleanAdvance n w i) (ha : Tlb.advance n pcid w i = some w') :
    Kept n w' := by
  cases hop : (w.core i).op with
  | idle =>
    unfold Tlb.advance at ha
    rw [hop] at ha
    cases ha
  | protecting ctx base count done flags => exact h.protecting hop hclean ha
  | splitting ctx base span page =>
    unfold Tlb.advance at ha
    rw [hop] at ha
    cases ha
    exact h.splitting hop
  | scanning r next targets => exact h.scanning hop ha
  | flushing r targets =>
    unfold Tlb.advance at ha
    rw [hop] at ha
    cases ha
    exact h.flushing hop
  | locking r targets =>
    unfold Tlb.advance at ha
    rw [hop] at ha
    dsimp only at ha
    split at ha
    · rename_i hl
      cases ha
      generalize hw : ({ w with lock := some i, shoot := armWith w.shoot r targets }.setCore i
        (setOp (.asking r targets targets))).mark (.armed (w.shoot.gen + 1) targets) = w'
      have hcore : ∀ m,
          w'.core m = if m = i then setOp (.asking r targets targets) (w.core m) else w.core m := fun m => by
        subst hw
        exact core_setCore _ i _ m
      apply h.askOwn (i := i) (o := .asking r targets targets) w' (by subst hw; rfl)
      · intro m
        rw [hcore]
        split <;> exact ⟨rfl, rfl, rfl⟩
      · intro m
        rw [hcore]
        split <;> rfl
      · exact fun m hm => others_not_armed hp (.inl hl) hm
      · intro j e p _ haff hreach
        rw [hop] at haff hreach
        exact ⟨haff, hreach.1, .inl hreach.2⟩
    · cases ha
  | asking r targets rest =>
    have hlock : w.lock = some i := hp.armedLock i (by rw [hop]; rfl)
    unfold Tlb.advance at ha
    rw [hop] at ha
    cases rest with
    | nil =>
      cases ha
      apply h.goTo w.ctxLock
      intro j e p _ haff hreach
      rw [hop] at haff hreach
      exact ⟨haff, hreach.1, hreach.2.resolve_left (by simp)⟩
    | cons a rest =>
      cases ha
      generalize hw : (w.setCore a fun c => { c with req := w.shoot.gen }).setCore i (setOp (.asking r targets rest)) =
        w'
      have hcore : ∀ m, w'.core m = if m = i then setOp (.asking r targets rest)
            (if m = a then { w.core m with req := w.shoot.gen } else w.core m)
          else if m = a then { w.core m with req := w.shoot.gen } else w.core m := fun m => by
        subst hw
        rw [core_setCore, core_setCore]
      have hrest : w'.tables = w.tables ∧ w'.shoot = w.shoot ∧ w'.handlers = w.handlers := by
        subst hw
        exact ⟨rfl, rfl, rfl⟩
      obtain ⟨htables, hs, hh⟩ := hrest
      apply h.askOwn (i := i) (o := .asking r targets rest) w' htables
      · intro m
        rw [hcore]
        split
        · split <;> exact ⟨rfl, rfl, rfl⟩
        · split <;> exact ⟨rfl, rfl, rfl⟩
      · intro m
        rw [hcore]
        split
        · rfl
        · split <;> rfl
      · exact fun m hm => others_not_armed hp (.inr hlock) hm
      · intro j e p _ haff hreach
        rw [hop] at haff hreach
        have hreq : ∀ m, (m = a ∨ (w.core m).req = w.shoot.gen) → (w'.core m).req = w.shoot.gen := fun m hm => by
          rw [hcore]
          split
          · split
            · rfl
            · rename_i hne
              exact hm.resolve_left hne
          split
          · rfl
          · rename_i hne
            exact hm.resolve_left hne
        obtain ⟨hmeets, hreach⟩ := hreach
        refine ⟨haff, hmeets, ?_⟩
        unfold Asked at hreach ⊢
        rw [hs, hh]
        rcases hreach with hin | hask
        · rcases mem_cons.mp hin with rfl | hin
          · exact .inr (.inl (hreq j (.inl rfl)))
          · exact .inl hin
        · exact .inr (hask.imp (fun hr => hreq j (.inr hr)) id)
  | waiting r targets =>
    have hlock : w.lock = some i := hp.armedLock i (by rw [hop]; rfl)
    unfold Tlb.advance at ha
    rw [hop] at ha
    dsimp only at ha
    split at ha
    · rename_i hzero
      cases ha
      generalize hw : ({ w with lock := none, shoot := { w.shoot with active := false } }.setCore i (setOp .idle)).mark
        (.returned w.shoot.gen) = w'
      have hcore : ∀ m, w'.core m = if m = i then setOp .idle (w.core m) else w.core m := fun m => by
        subst hw
        exact core_setCore _ i _ m
      apply h.askOwn (i := i) (o := .idle) w' (by subst hw; rfl)
      · intro m
        rw [hcore]
        split <;> exact ⟨rfl, rfl, rfl⟩
      · intro m
        rw [hcore]
        split <;> rfl
      · exact fun m hm => others_not_armed hp (.inr hlock) hm
      · intro j e p _ _ hreach
        rw [hop] at hreach
        exact absurd hreach.2 (not_asked hp hop hzero j)
    · cases ha

/-! ### The handler -/

theorem mem_set_of_ne {α : Type*} {l : List α} {x y z : α} (hx : x ∈ l) (hk : l[k]? = some y) (hne : x ≠ y) :
    x ∈ l.set k z := by
  obtain ⟨m, hm⟩ := mem_iff_getElem?.mp hx
  have hkm : k ≠ m := fun he => hne <| by
    rw [he, hm] at hk
    exact some.inj hk
  exact mem_iff_getElem?.mpr ⟨m, by rw [getElem?_set_ne hkm]; exact hm⟩

theorem mem_eraseIdx_of_ne {α : Type*} {l : List α} {x y : α} (hx : x ∈ l) (hk : l[k]? = some y) (hne : x ≠ y) :
    x ∈ l.eraseIdx k := by
  obtain ⟨m, hm⟩ := mem_iff_getElem?.mp hx
  have hkm : m ≠ k := fun he => hne <| by
    rw [← he, hm] at hk
    exact some.inj hk
  exact mem_eraseIdx_iff_getElem?.mpr ⟨m, hkm, hm⟩

theorem setHandlers (h : Kept n w) (w' : World) (htables : w'.tables = w.tables) (hcore : w'.core = w.core)
    (hgen : w'.shoot.gen = w.shoot.gen) (hin : ∀ j, (j, .claimed) ∈ w.handlers → (j, .claimed) ∈ w'.handlers) :
    Kept n w' := by
  apply h.frame w' htables
  · intro m e he
    rw [hcore] at he
    exact .inl he
  · intro m e p _ _ _ a ho
    refine ⟨by rw [hcore], a, ho.imp (by rw [hcore]) (by rw [hcore]) fun _ hask => ?_⟩
    unfold Asked at hask ⊢
    rw [hcore, hgen]
    exact hask.imp id (hin m)

/-- One core changes itself and keeps its operation, and stays where a stale entry of it is owed a flush. -/
theorem oneCore (h : Kept n w) (w' : World) {f : Core → Core} (htables : w'.tables = w.tables)
    (hcore : ∀ m, w'.core m = if m = j then f (w.core m) else w.core m) (hgen : w'.shoot.gen = w.shoot.gen)
    (hin : ∀ m, m ≠ j → (m, .claimed) ∈ w.handlers → (m, .claimed) ∈ w'.handlers) (hop : ∀ c, (f c).op = c.op)
    (htlb : ∀ e ∈ (f (w.core j)).tlb, e ∈ (w.core j).tlb ∨ j < n ∧ Shaped (w.tables e.1) e.2 ∧ ∀ p, e.2.Covers p →
    Agrees (w.tables e.1) e.2 p) (hself : ∀ e p, StaleAt w j e p → e ∈ (f (w.core j)).tlb → (w.core j).loaded = e.1 →
    (f (w.core j)).loaded = (w.core j).loaded ∧ (f (w.core j)).current = (w.core j).current ∧ ∀ a, Owes w a j e p →
    (w.core a).op.armed.isSome = true → Asked w j → Asked w' j) : Kept n w' := by
  have hopm : ∀ m, (w'.core m).op = (w.core m).op := fun m => by
    rw [hcore]
    split
    · exact hop _
    · rfl
  apply h.frame w' htables
  · intro m e he
    rw [hcore] at he
    split at he
    · rename_i hm
      subst hm
      exact htlb e he
    · exact .inl he
  · intro m e p hs hstale hl a ho
    by_cases hm : m = j
    · subst hm
      have hself' := hcore m
      have hmem := hs.1
      rw [if_pos rfl] at hself'
      rw [hself'] at hmem ⊢
      obtain ⟨hload, hcur, hasked⟩ := hself e p hstale hmem hl
      exact ⟨hload, a, ho.imp (hopm a) (by rw [hself']; exact hcur) (hasked a ho)⟩
    · have hsame : w'.core m = w.core m := by rw [hcore, if_neg hm]
      rw [hsame]
      refine ⟨rfl, a, ho.imp (hopm a) (by rw [hsame]) fun _ hask => ?_⟩
      unfold Asked at hask ⊢
      rw [hsame, hgen]
      exact hask.imp id (hin m hm)

theorem not_mem_handlerFlush (hp : Proto n w) {r : Request} {targets rest : List Nat}
    (harm : (w.core i).op.armed = some (r, targets, rest)) {c : Core} (hl : c.loaded = e.1)
    (hm : e.2.Meets r.addr r.count) : e ∉ (handlerFlush w.shoot c).tlb := by
  obtain ⟨x, hx, hround⟩ := hp.busy i (hp.armedLock i (by rw [harm]; rfl))
  rw [harm] at hx
  cases hx
  have haddr := hround.addr
  have hcount := hround.count
  unfold armWith at haddr hcount
  unfold handlerFlush
  split
  · exact nofun
  rename_i hsome
  intro he
  simp only at haddr hcount
  split at haddr
  · rename_i hc
    rw [if_pos hc] at hcount
    have hin := (mem_filter.mp he).2
    rw [haddr, hcount] at hin
    simp [hl, hm] at hin
  · exact absurd (.inl haddr) hsome

theorem handle (h : Kept n w) (hp : Proto n w) (hclean : CleanHandle w k) (hh : Tlb.handle pcid w k = some w') :
    Kept n w' := by
  unfold Tlb.handle at hh
  cases hk : w.handlers[k]? with
  | none =>
    rw [hk] at hh
    cases hh
  | some x =>
    obtain ⟨j, phase⟩ := x
    rw [hk] at hh
    have hset : ∀ p', phase ≠ .claimed → ∀ m, (m, Phase.claimed) ∈ w.handlers →
      (m, Phase.claimed) ∈ w.handlers.set k (j, p') :=
      fun p' hne m hm => mem_set_of_ne hm hk fun he => hne (Prod.mk.inj he).2.symm
    have hother : ∀ p' m, m ≠ j → (m, Phase.claimed) ∈ w.handlers → (m, Phase.claimed) ∈ w.handlers.set k (j, p') :=
      fun p' m hne hm => mem_set_of_ne hm hk fun he => hne (Prod.mk.inj he).1
    have hleave : phase ≠ .claimed → ∀ m, (m, Phase.claimed) ∈ w.handlers →
      (m, Phase.claimed) ∈ w.handlers.eraseIdx k :=
      fun hne m hm => mem_eraseIdx_of_ne hm hk fun he => hne (Prod.mk.inj he).2.symm
    cases phase with
    | start =>
      cases hh
      split
      · exact h.setHandlers (w.goto k j .active) rfl rfl rfl (hset _ (by simp))
      · exact h.setHandlers (w.leave k) rfl rfl rfl (hleave (by simp))
    | active =>
      cases hh
      exact h.setHandlers (w.goto k j (.read w.shoot.gen)) rfl rfl rfl (hset _ (by simp))
    | read gen =>
      cases hh
      split
      · exact h.setHandlers (w.goto k j (.asked gen)) rfl rfl rfl (hset _ (by simp))
      · exact h.setHandlers (w.leave k) rfl rfl rfl (hleave (by simp))
    | asked gen =>
      cases hh
      split
      · -- the claim takes the place of the request
        exact h.oneCore (f := fun c => { c with req := 0 }) _ rfl (core_setCore _ j _) rfl (hother _) (fun _ => rfl)
          (fun _ he => .inl he) fun _ _ _ _ _ =>
            ⟨rfl, rfl, fun _ _ _ _ => .inr (mem_set (List.getElem?_eq_some_iff.mp hk).1 _)⟩
      · exact h.setHandlers (w.leave k) rfl rfl rfl (hleave (by simp))
    | claimed =>
      cases hh
      have hflush : ∀ c, (handlerFlush w.shoot c).loaded = c.loaded ∧ (handlerFlush w.shoot c).current = c.current ∧
          (handlerFlush w.shoot c).op = c.op ∧ ∀ e ∈ (handlerFlush w.shoot c).tlb, e ∈ c.tlb := fun c => by
        unfold handlerFlush
        split
        · exact ⟨rfl, rfl, rfl, fun _ he => (nomatch he)⟩
        · exact ⟨rfl, rfl, rfl, fun e he => (mem_filter.mp he).1⟩
      refine h.oneCore _ rfl (core_setCore _ j _) rfl (hother _) (fun c => (hflush c).2.2.1)
        (fun e he => .inl ((hflush _).2.2.2 e he)) fun e p _ hin hl =>
        ⟨(hflush _).1, (hflush _).2.1, fun a ho harm _ => ?_⟩
      -- what an armed operation owes this core is gone
      obtain ⟨⟨r, targets, rest⟩, harm⟩ := isSome_iff_exists.mp harm
      refine absurd hin (not_mem_handlerFlush hp harm hl ?_)
      have hreach := ho.2
      cases hop : (w.core a).op with
      | asking r' ts rest' =>
        rw [hop] at harm hreach
        cases harm
        exact hreach.1
      | waiting r' ts =>
        rw [hop] at harm hreach
        cases harm
        exact hreach.1
      | idle | protecting | splitting | scanning | flushing | locking => rw [hop] at harm; cases harm
    | flushed =>
      cases hh
      have hevict : ∀ c, (handlerEvict pcid w.shoot c).current = c.current ∧ (handlerEvict pcid w.shoot c).op = c.op ∧
          (handlerEvict pcid w.shoot c).req = c.req ∧ (∀ e ∈ (handlerEvict pcid w.shoot c).tlb, e ∈ c.tlb) ∧
          (w.shoot.evict ≠ some c.loaded → (handlerEvict pcid w.shoot c).loaded = c.loaded) := fun c => by
        unfold handlerEvict
        split
        · rename_i hev
          refine ⟨rfl, rfl, rfl, fun e he => ?_, fun hne => absurd hev hne⟩
          cases pcid with
          | true => exact (mem_filter.mp he).1
          | false => cases he
        · exact ⟨rfl, rfl, rfl, fun _ he => he, fun _ => rfl⟩
      refine h.oneCore _ rfl (core_setCore _ j _) rfl (hother _) (fun c => (hevict c).2.1)
        (fun e he => .inl ((hevict _).2.2.2.1 e he)) fun e p hstale _ _ =>
          ⟨(hevict _).2.2.2.2 fun hev => ?_, (hevict _).1, fun a _ _ hask => hask.imp ?_ (hset _ (by simp) j)⟩
      · exact hstale.2.2 (NoneStale.agrees (hclean _ hk rfl hev) hstale.1 hstale.2.1)
      · rw [core_setCore, if_pos rfl]
        exact (hevict _).2.2.1.trans
    | evicted =>
      cases hh
      exact h.setHandlers
        (({ w.leave k with shoot := { w.shoot with pending := fetchSub w.shoot.pending } } : World).mark
        (.acked w.shoot.gen j)) rfl rfl rfl (hleave (by simp))

/-! ### Every step -/

theorem fill (h : Kept n w) {page : Nat} (hj : j < n) {l : Leaf}
    (hl : leafAt (w.tables (w.core j).loaded) page = some l) :
    Kept n (w.setCore j fun c => { c with tlb := (c.loaded, l) :: c.tlb }) := by
  refine h.oneCore (f := fun c => { c with tlb := (c.loaded, l) :: c.tlb }) _ rfl (core_setCore _ j _) rfl
    (fun _ _ hm => hm) (fun _ => rfl) (fun e he => ?_) fun _ _ _ _ _ => ⟨rfl, rfl, fun _ _ _ hask => hask.imp ?_ id⟩
  · rcases mem_cons.mp he with rfl | he
    · -- the tables have just been read
      refine .inr ⟨hj, leafAt_shaped hl, fun p hp => ?_⟩
      unfold Agrees
      rw [(leafAt_covers hl).2 p hp]
      rfl
    · exact .inl he
  · rw [core_setCore, if_pos rfl]
    exact id

theorem moveCore (h : Kept n w) {f : Core → Core}
    (hf : ∀ c : Core, (f c).req = c.req ∧ (f c).op = c.op ∧ ∀ e ∈ (f c).tlb, e ∈ c.tlb)
    (hstay : ∀ e p, StaleAt w j e p → e ∈ (f (w.core j)).tlb → (f (w.core j)).loaded = (w.core j).loaded ∧
    (f (w.core j)).current = (w.core j).current) : Kept n (w.setCore j f) := by
  refine h.oneCore _ rfl (core_setCore _ j _) rfl (fun _ _ hm => hm) (fun c => (hf c).2.1)
    (fun e he => .inl ((hf _).2.2 e he)) fun e p hstale hin _ =>
      ⟨(hstay e p hstale hin).1, (hstay e p hstale hin).2, fun _ _ _ hask => hask.imp ?_ id⟩
  rw [core_setCore, if_pos rfl]
  exact (hf _).1.trans

theorem step (h : Kept n w) (hp : Proto n w) {ev : Event} (hc : Clean n pcid w ev) (hs : Step n pcid w ev w') :
    Kept n w' := by
  unfold Step next at hs
  cases ev with
  | fill j page =>
    dsimp only at hs
    split at hs
    · rename_i hj
      obtain ⟨l, hl, hw⟩ := map_eq_some_iff.mp hs
      cases hw
      exact h.fill hj hl
    · cases hs
  | setCurrent j ctx =>
    cases hs
    apply h.moveCore (f := fun c => { c with current := ctx }) (fun c => ⟨rfl, rfl, fun _ he => he⟩)
    intro e p hstale _
    refine ⟨rfl, ?_⟩
    rcases hc with he | hnone
    · exact he
    · exact absurd (hnone.agrees hstale.1 hstale.2.1) hstale.2.2
  | loadCr3 j ctx noflush =>
    cases hs
    apply h.moveCore (f := loadCr3 pcid ctx noflush)
    · refine fun c => ⟨rfl, rfl, fun e he => ?_⟩
      unfold loadCr3 at he
      cases pcid with
      | true =>
        cases noflush with
        | true => exact he
        | false => exact (mem_filter.mp he).1
      | false => cases he
    · intro e p hstale hin
      refine ⟨?_, rfl⟩
      cases pcid with
      | true =>
        rcases hc rfl with he | hnone
        · exact he
        · exact absurd (hnone.agrees hstale.1 hstale.2.1) hstale.2.2
      | false => cases hin
  | mapPage i ctx page frame flags =>
    dsimp only at hs
    split at hs
    · obtain ⟨T, hT, hw⟩ := map_eq_some_iff.mp hs
      cases hw
      exact h.map (mapPage_extends hT)
    · cases hs
  | mapHuge i ctx page frame flags =>
    dsimp only at hs
    split at hs
    · obtain ⟨T, hT, hw⟩ := map_eq_some_iff.mp hs
      cases hw
      exact h.map (mapHuge_extends hT)
    · cases hs
  | demote i ctx page =>
    dsimp only at hs
    split at hs
    · rename_i hb
      obtain ⟨⟨T, base, span⟩, hT, hw⟩ := map_eq_some_iff.mp hs
      cases hw
      obtain ⟨⟨hgrows, hpages, hcovers⟩, hin⟩ := demote_changes hT
      have hclean := hc _ hT
      apply h.changeBy (i := i) (o := .splitting ctx base span page)
        (((w.setTables ctx T).setCtxLock ctx true).setCore i (setOp (.splitting ctx base span page))) rfl
        (core_setCore _ i _) rfl rfl hgrows
      · intro j e p haff
        rw [hb.2.1] at haff
        exact haff.elim
      · intro j hj e he p hec hcov hold hnew
        obtain ⟨hl, hji⟩ := hclean.of_stale hj he hec hcov hold hnew
        have hrange : base ≤ p ∧ p < base + span := by
          by_contra hout
          exact leaf_ne hold hnew (hpages p hout)
        have hshape := h.shaped j e he
        rw [hec] at hshape
        exact ⟨hl, ⟨rfl, hrange⟩, hji, hcovers e.2 hshape p hcov hrange page hin⟩
    · cases hs
  | unmapPage i ctx page =>
    dsimp only at hs
    split at hs
    · rename_i hb
      obtain ⟨T, hT, hw⟩ := map_eq_some_iff.mp hs
      cases hw
      obtain ⟨hgrows, hpages⟩ := unmapPage_changes hT
      apply h.unmap (c := ctx) (r := ⟨ctx, page, 1, 1, false, none⟩) hb.2.1 rfl hgrows (hc _ hT)
      intro l _ p hcov hne
      have hpage : p = page := by
        by_contra hp
        exact hne (hpages p hp)
      exact ⟨⟨hpage.ge, by show p < page + 1; omega⟩, meets_of_covers hcov hpage.ge (by show p < page + 1; omega)⟩
    · cases hs
  | unmapHuge i ctx page =>
    dsimp only at hs
    split at hs
    · rename_i hb
      obtain ⟨T, hT, hw⟩ := map_eq_some_iff.mp hs
      cases hw
      obtain ⟨hgrows, hpages, hcovers⟩ := unmapHuge_changes hT
      apply h.unmap (c := ctx) (r := ⟨ctx, page, 1, 512, false, none⟩) hb.2.1 rfl hgrows (hc _ hT)
      intro l hl p hcov hne
      have hrange : page ≤ p ∧ p < page + 512 := by
        by_contra hout
        exact hne (hpages p hout)
      have hfirst := hcovers l hl p hcov hrange page ⟨le_rfl, by omega⟩
      exact ⟨hrange, meets_of_covers hfirst le_rfl (by show page < page + 1; omega)⟩
    · cases hs
  | protect i ctx base count flags =>
    dsimp only at hs
    split at hs
    · rename_i hb
      cases hs
      apply h.goTo
      intro j e p _ haff
      rw [hb.2.1] at haff
      exact haff.elim
    · cases hs
  | flushAll i evict =>
    dsimp only at hs
    split at hs
    · rename_i hb
      cases hs
      apply h.goTo w.ctxLock
      intro j e p _ haff
      rw [hb.2] at haff
      exact haff.elim
    · cases hs
  | advance i => exact h.advance hp hc hs
  | call j =>
    cases hs
    exact h.setHandlers { w with handlers := w.handlers ++ [(j, .start)] } rfl rfl rfl fun m hm => mem_append_left _ hm
  | handle k => exact h.handle hp hc hs

end Kept

/-! ## Every run -/

/-- No core keeps a stale entry of a page that no operation is changing. -/
def NoStale (w : World) : Prop := ∀ j, ∀ e ∈ (w.core j).tlb, ∀ p, e.2.Covers p →
  Agrees (w.tables e.1) e.2 p ∨ ∃ i, (w.core i).op.Affects e.1 p

/-- The counter of acknowledgements does not wrap, and the history is in order. -/
def ProtocolKept (w : World) : Prop := (∀ j, (j, .evicted) ∈ w.handlers → 0 < w.shoot.pending) ∧ Ordered w.history

/-- **No core uses a stale translation**, when all steps are clean; **the shootdown protocol** is kept in every run. -/
theorem tlb_coherent (hn : n < 256) {tables : Nat → Tables} {loaded : Nat → Nat} {current : Nat → Option Nat}
    {es : List Event} (run : Run (Step n pcid) (fun _ _ => True) (init tables loaded current) es w) :
    ProtocolKept w ∧ (Run (Step n pcid) (Clean n pcid) (init tables loaded current) es w → NoStale w) := by
  have hproto : Proto n w :=
    run.invariant (fun s e t _ hs h => Proto.step h hn hs) (proto_init n tables loaded current)
  refine ⟨⟨fun j hj => ?_, hproto.ordered⟩, fun hclean => ?_⟩
  · obtain ⟨k, hk⟩ := mem_iff_getElem?.mp hj
    exact hproto.pending_pos hk
  · have hkept : Proto n w ∧ Kept n w := hclean.invariant (P := fun w => Proto n w ∧ Kept n w)
      (fun s e t hc hs h => ⟨Proto.step h.1 hn hs, h.2.step h.1 hc hs⟩)
      ⟨proto_init n tables loaded current, kept_init n tables loaded current⟩
    intro j e he p hp
    by_cases hagree : Agrees (w.tables e.1) e.2 p
    · exact .inl hagree
    · obtain ⟨-, i, hi, -⟩ := hkept.2.owed j e p ⟨he, hp, hagree⟩
      exact .inr ⟨i, hi⟩

/-- What `vmm_protect` asks for at its next page. -/
instance decidableCleanPage (n : Nat) (w : World) (i ctx base done : Nat) : (o : Option Tables) →
    Decidable (match o with
      | none => NoneStaleIn n w ctx base done
      | some T => StaleOnly n w ctx T (Told w i ctx))
  | none => inferInstanceAs (Decidable (NoneStaleIn n w ctx base done))
  | some T => inferInstanceAs (Decidable (StaleOnly n w ctx T (Told w i ctx)))

instance decidableCleanOp (n : Nat) (w : World) (i : Nat) : (o : Op) →
    Decidable (match o with
      | .protecting ctx base count done flags =>
        if done = count then True
        else match protectPage (w.tables ctx) (base + done) flags with
          | none => NoneStaleIn n w ctx base done
          | some T => StaleOnly n w ctx T (Told w i ctx)
      | _ => True)
  | .protecting ctx base count done flags =>
    inferInstanceAs (Decidable (
      if done = count then True
        else match protectPage (w.tables ctx) (base + done) flags with
          | none => NoneStaleIn n w ctx base done
          | some T => StaleOnly n w ctx T (Told w i ctx)))
  | .idle | .splitting _ _ _ _ | .scanning _ _ _ | .flushing _ _ | .locking _ _ | .asking _ _ _ | .waiting _ _ =>
    inferInstanceAs (Decidable True)

instance (n : Nat) (w : World) (i : Nat) : Decidable (CleanAdvance n w i) := decidableCleanOp n w i (w.core i).op

instance (w : World) (k : Nat) : Decidable (CleanHandle w k) :=
  inferInstanceAs (Decidable (∀ x ∈ w.handlers[k]?,
    x.2 = .flushed → w.shoot.evict = some (w.core x.1).loaded → NoneStale w x.1))

instance (n : Nat) (pcid : Bool) (w : World) : (ev : Event) → Decidable (Clean n pcid w ev)
  | .demote i ctx page => inferInstanceAs (Decidable (∀ r ∈ demote (w.tables ctx) page, StaleOnly n w ctx r.1 (· = i)))
  | .unmapPage i ctx page =>
    inferInstanceAs (Decidable (∀ T ∈ unmapPage (w.tables ctx) page, StaleOnly n w ctx T (Told w i ctx)))
  | .unmapHuge i ctx page =>
    inferInstanceAs (Decidable (∀ T ∈ unmapHuge (w.tables ctx) page, StaleOnly n w ctx T (Told w i ctx)))
  | .setCurrent j ctx => inferInstanceAs (Decidable (ctx = (w.core j).current ∨ NoneStale w j))
  | .loadCr3 j ctx _ => inferInstanceAs (Decidable (pcid = true → ctx = (w.core j).loaded ∨ NoneStale w j))
  | .advance i => inferInstanceAs (Decidable (CleanAdvance n w i))
  | .handle k => inferInstanceAs (Decidable (CleanHandle w k))
  | .fill _ _ | .mapPage _ _ _ _ _ | .mapHuge _ _ _ _ _ | .protect _ _ _ _ _ | .flushAll _ _ | .call _ =>
    inferInstanceAs (Decidable True)

/-- Two cores without any tables. -/
def twoCores : World := .init (fun _ _ => .empty) (fun _ => 0) fun _ => none

/-- A page is unmapped while the core that has used it stays where it is. -/
def stayed : List Event :=
  [.mapPage 0 1 5 77 3#64, .loadCr3 1 1 false, .setCurrent 1 (some 1), .fill 1 5, .unmapPage 0 1 5] ++
    replicate 7 (.advance 0) ++ [.call 1] ++ replicate 7 (.handle 0) ++ [.advance 0, .loadCr3 1 2 true]

/-- Nothing stale is left. -/
theorem tlb_coherent_stayed : ∃ w, Run (Step 2 true) (Clean 2 true) twoCores stayed w ∧ ProtocolKept w ∧ NoneStale w 1 ∧
    NoStale w := by
  obtain ⟨w, run, hend⟩ : ∃ w, Run (Step 2 true) (Clean 2 true) twoCores stayed w ∧ NoneStale w 1 :=
    run_reaches (fun h => h) (by decide +kernel)
  obtain ⟨hkept, hstale⟩ := tlb_coherent (n := 2) (by omega) (run.imp fun _ _ _ => trivial)
  exact ⟨w, run, hkept, hend, hstale run⟩

/-- The core that has used the page runs another process when the page is unmapped. -/
def moved : List Event :=
  [.mapPage 0 1 5 77 3#64, .loadCr3 1 1 false, .setCurrent 1 (some 1), .fill 1 5, .setCurrent 1 (some 2),
    .loadCr3 1 2 true, .unmapPage 0 1 5] ++ replicate 4 (.advance 0)

theorem moved_idle (i : Nat) :
    (exec (next 2 true) (fun _ _ => true) twoCores moved).map (fun w => (w.core i).op) = some .idle := by
  match i with
  | 0 | 1 | _ + 2 => rfl

/-- The core keeps its entry of the unmapped page. -/
theorem tlb_keeps_stale : ∃ w, Run (Step 2 true) (fun _ _ => True) twoCores moved w ∧ (∀ i, (w.core i).op = .idle) ∧
    leafAt (w.tables 1) 5 = none ∧ (w.core 1).tlb = [(1, ⟨5, 1, 77, 3#64⟩)] ∧ ¬NoStale w := by
  have hcheck : ((exec (next 2 true) (fun _ _ => true) twoCores moved).any fun w : World =>
      decide (leafAt (w.tables 1) 5 = none ∧ (w.core 1).tlb = [(1, ⟨5, 1, 77, 3#64⟩)])) = true := by decide +kernel
  obtain ⟨w, hw, hend⟩ := (Option.any_eq_true _ _).mp hcheck
  obtain ⟨hleaf, htlb⟩ := of_decide_eq_true hend
  have hidle : ∀ i, (w.core i).op = .idle := fun i => by
    have := moved_idle i
    rw [hw] at this
    exact some.inj this
  refine ⟨w, exec_run (fun {_ _ _} h => h) (fun {_ _} _ => trivial) hw, hidle, hleaf, htlb, fun h => ?_⟩
  rcases h 1 (1, ⟨5, 1, 77, 3#64⟩) (htlb ▸ mem_singleton_self _) 5 (by decide) with hagree | ⟨i, hi⟩
  · unfold Agrees at hagree
    rw [hleaf] at hagree
    cases hagree
  · rw [hidle i] at hi
    exact hi

end BoxOS.Memory.Tlb
