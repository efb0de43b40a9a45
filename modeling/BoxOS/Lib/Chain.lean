import Mathlib.Tactic

/-!
# Chains of blocks

A medium is a function from block numbers to block contents. A `ChainFormat` says which contents belong to a chain and
where each of them links to; zero ends the chain. `walk` follows the links (`walk_eq_some_iff`), `Linked` says that a
list of blocks is such a chain.

A writer with the codec `enc` lays pages out over a list of blocks: `pageWrites` are its writes in order, `PagesAt` says
that they are on the medium. `pagesAt_take` is what a writer leaves that stops after any number of its writes over a
chain that already has a page in each block: the new pages first, the old ones after them.
-/

open Function (update update_of_ne update_self)

namespace Lib

open List Option

variable {β P : Type}

/-! ## Writes -/

/-- The medium after a list of writes, the first one first. -/
def applyWrites (d : Nat → β) (ws : List (Nat × β)) : Nat → β := ws.foldl (fun d w => update d w.1 w.2) d

@[simp] theorem applyWrites_nil (d : Nat → β) : applyWrites d [] = d := rfl

theorem applyWrites_cons (d : Nat → β) (w : Nat × β) (ws : List (Nat × β)) :
    applyWrites d (w :: ws) = applyWrites (update d w.1 w.2) ws := rfl

theorem applyWrites_of_notMem {d : Nat → β} {ws : List (Nat × β)} {b : Nat} (h : b ∉ ws.map Prod.fst) :
    applyWrites d ws b = d b := by
  induction ws generalizing d with
  | nil => rfl
  | cons w ws ih =>
    rw [map_cons, mem_cons, not_or] at h
    rw [applyWrites_cons, ih h.2, update_of_ne h.1]

/-! ## Walking a chain -/

/-- Which contents belong to a chain, and the block each of them links to: zero in the last one. -/
structure ChainFormat (β : Type) where
  good : β → Bool
  next : β → Nat

namespace ChainFormat

variable (F : ChainFormat β)

/-- The blocks of the chain from `b`: at most `fuel` of them, each below `run` and with contents of the chain. -/
def walk (run : Nat) (d : Nat → β) : Nat → Nat → Option (List Nat)
  | 0, _ => none
  | fuel + 1, b =>
    if b ≥ run then none
    else if F.good (d b) = false then none
    else if F.next (d b) = 0 then some [b]
    else (walk run d fuel (F.next (d b))).map (b :: ·)

/-- Each block of the list links to the one after it, the last one to nothing. -/
def Linked (d : Nat → β) : List Nat → Prop
  | [] => True
  | b :: bs => F.good (d b) = true ∧ F.next (d b) = bs.headD 0 ∧ Linked d bs

variable {F}

variable {d : Nat → β} {bs : List Nat} {b : Nat}

variable {d' : Nat → β} {as : List Nat}

theorem Linked.congr (h : F.Linked d bs) (heq : ∀ b ∈ bs, d' b = d b) : F.Linked d' bs := by
  induction bs with
  | nil => trivial
  | cons b bs ih =>
    obtain ⟨hgood, hnext, hrest⟩ := h
    rw [Linked, heq b mem_cons_self]
    exact ⟨hgood, hnext, ih hrest fun c hc => heq c (mem_cons_of_mem b hc)⟩

theorem Linked.congr_links {γ : Type} {G : ChainFormat γ} {d' : Nat → γ} (h : F.Linked d bs)
    (heq : ∀ b ∈ bs, G.good (d' b) = F.good (d b) ∧ G.next (d' b) = F.next (d b)) : G.Linked d' bs := by
  induction bs with
  | nil => trivial
  | cons b bs ih =>
    obtain ⟨hgood, hnext, hrest⟩ := h
    obtain ⟨hg, hn⟩ := heq b mem_cons_self
    exact ⟨hg.trans hgood, hn.trans hnext, ih hrest fun c hc => heq c (mem_cons_of_mem b hc)⟩

theorem Linked.good_of_mem (h : F.Linked d bs) {b : Nat} (hb : b ∈ bs) : F.good (d b) = true := by
  induction bs with
  | nil => exact absurd hb not_mem_nil
  | cons c bs ih =>
    rcases mem_cons.mp hb with rfl | hb
    · exact h.1
    · exact ih h.2.2 hb

variable (F) in
/-- Each block of the list links to the one after it, the last one to `c`. -/
def LinkedTo (d : Nat → β) : List Nat → Nat → Prop
  | [], _ => True
  | b :: bs, c => F.good (d b) = true ∧ F.next (d b) = bs.headD c ∧ LinkedTo d bs c

theorem LinkedTo.congr {c : Nat} (h : F.LinkedTo d bs c) (heq : ∀ b ∈ bs, d' b = d b) : F.LinkedTo d' bs c := by
  induction bs with
  | nil => trivial
  | cons b bs ih =>
    obtain ⟨hgood, hnext, hrest⟩ := h
    rw [LinkedTo, heq b mem_cons_self]
    exact ⟨hgood, hnext, ih hrest fun c hc => heq c (mem_cons_of_mem b hc)⟩

theorem linked_append : F.Linked d (as ++ b :: bs) ↔ F.LinkedTo d as b ∧ F.Linked d (b :: bs) := by
  induction as with
  | nil => simp [LinkedTo]
  | cons a as ih =>
    have hhead : (as ++ b :: bs).headD 0 = as.headD b := by cases as <;> rfl
    rw [cons_append, Linked, LinkedTo, ih, hhead]
    tauto

theorem Linked.snoc {c : Nat} (h : F.Linked d (as ++ [b])) (heq : ∀ a ∈ as, d' a = d a)
    (hb : F.good (d' b) = true ∧ F.next (d' b) = c) (hc : F.good (d' c) = true ∧ F.next (d' c) = 0) :
    F.Linked d' (as ++ [b] ++ [c]) := by
  rw [append_assoc]
  exact linked_append.mpr ⟨(linked_append.mp h).1.congr heq, hb.1, hb.2, hc.1, hc.2, trivial⟩

theorem Linked.unlink {prev next : Nat} (h : F.Linked d (as ++ prev :: b :: next :: bs))
    (heq : ∀ a ∈ as ++ next :: bs, d' a = d a) (hprev : F.good (d' prev) = true ∧ F.next (d' prev) = next) :
    F.Linked d' (as ++ prev :: next :: bs) := by
  obtain ⟨has, -, -, -, -, hrest⟩ := linked_append.mp h
  refine linked_append.mpr ⟨has.congr fun a ha => heq a (mem_append_left _ ha), hprev.1, hprev.2, ?_⟩
  exact Linked.congr hrest fun a ha => heq a (mem_append_right _ ha)

theorem Linked.unique {xs ys : List Nat} (hx : F.Linked d (b :: xs)) (hy : F.Linked d (b :: ys))
    (hx0 : 0 ∉ xs) (hy0 : 0 ∉ ys) : xs = ys := by
  induction xs generalizing b ys with
  | nil =>
    cases ys with
    | nil => rfl
    | cons y ys =>
      have : y = 0 := hy.2.1.symm.trans hx.2.1
      exact absurd (this ▸ mem_cons_self) hy0
  | cons x xs ih =>
    cases ys with
    | nil =>
      have : x = 0 := hx.2.1.symm.trans hy.2.1
      exact absurd (this ▸ mem_cons_self) hx0
    | cons y ys =>
      obtain rfl : x = y := hx.2.1.symm.trans hy.2.1
      rw [ih hx.2.2 hy.2.2 (fun h => hx0 (mem_cons_of_mem x h)) fun h => hy0 (mem_cons_of_mem x h)]

theorem Linked.nodup (h : F.Linked d (b :: bs)) (h0 : 0 ∉ bs) : (b :: bs).Nodup := by
  induction bs generalizing b with
  | nil => simp
  | cons c bs ih =>
    refine nodup_cons.mpr ⟨fun hb => ?_, ih h.2.2 fun h' => h0 (mem_cons_of_mem c h')⟩
    -- the chain behind the second occurrence is shorter than the one behind the first
    obtain ⟨us, vs, hsplit⟩ := append_of_mem hb
    have hrest : F.Linked d (b :: vs) := by
      have := h.2.2
      rw [hsplit] at this
      exact (linked_append.mp this).2
    have hv0 : 0 ∉ vs := fun h' => h0 (by rw [hsplit]; simp [h'])
    have hlen := congrArg List.length (h.unique hrest h0 hv0)
    rw [hsplit, length_append, length_cons] at hlen
    omega

/-- A walk lists a chain that starts at its block, and lists every such chain that is not too long. -/
theorem walk_eq_some_iff {run : Nat} {fuel : Nat} :
    F.walk run d fuel b = some bs ↔
      ∃ rest, bs = b :: rest ∧ F.Linked d bs ∧ 0 ∉ rest ∧ (∀ c ∈ bs, c < run) ∧ bs.length ≤ fuel := by
  induction fuel generalizing b bs with
  | zero =>
    refine ⟨nofun, ?_⟩
    rintro ⟨rest, rfl, -, -, -, hlen⟩
    simp at hlen
  | succ fuel ih =>
    rw [walk]
    by_cases hrun : b ≥ run
    · rw [if_pos hrun]
      refine ⟨nofun, ?_⟩
      rintro ⟨rest, rfl, -, -, hlt, -⟩
      exact absurd (hlt b mem_cons_self) (not_lt.mpr hrun)
    rw [if_neg hrun]
    by_cases hgood : F.good (d b) = false
    · rw [if_pos hgood]
      refine ⟨nofun, ?_⟩
      rintro ⟨rest, rfl, hlinked, -, -, -⟩
      exact absurd hlinked.1 (by rw [hgood]; decide)
    rw [if_neg hgood]
    rw [Bool.not_eq_false] at hgood
    by_cases hend : F.next (d b) = 0
    · rw [if_pos hend]
      constructor
      · rintro h
        obtain rfl := some.inj h
        exact ⟨[], rfl, ⟨hgood, hend, trivial⟩, by simp, by simpa using hrun, by simp⟩
      · rintro ⟨rest, rfl, ⟨-, hnext, -⟩, hzero, -, -⟩
        cases rest with
        | nil => rfl
        | cons c rest =>
          rw [hend, headD_cons] at hnext
          exact absurd (hnext ▸ mem_cons_self) hzero
    rw [if_neg hend, map_eq_some_iff]
    constructor
    · rintro ⟨cs, hwalk, rfl⟩
      obtain ⟨rest, rfl, hlinked, hzero, hlt, hlen⟩ := ih.mp hwalk
      refine ⟨_, rfl, ⟨hgood, rfl, hlinked⟩, ?_, ?_, by simpa using hlen⟩
      · rw [mem_cons, not_or]
        exact ⟨Ne.symm hend, hzero⟩
      · intro c hc
        rcases mem_cons.mp hc with rfl | hc
        · exact not_le.mp hrun
        · exact hlt c hc
    · rintro ⟨rest, rfl, ⟨-, hnext, hlinked⟩, hzero, hlt, hlen⟩
      cases rest with
      | nil => exact absurd hnext hend
      | cons c rest =>
        rw [headD_cons] at hnext
        refine ⟨c :: rest, ih.mpr ⟨rest, by rw [hnext], hlinked, ?_, ?_, by simpa using hlen⟩, rfl⟩
        · exact fun hc => hzero (mem_cons_of_mem c hc)
        · exact fun x hx => hlt x (mem_cons_of_mem b hx)

theorem walk_eq_none_of_bad {run : Nat} {c : Nat} (hbad : F.good (d c) = false) {b fuel : Nat}
    (hhead : b = (bs ++ [c]).headD 0) (hlinked : ∀ i x, bs[i]? = some x → F.next (d x) = (bs ++ [c]).getD (i + 1) 0)
    (hzero : 0 ∉ (bs ++ [c]).tail) : F.walk run d fuel b = none := by
  induction bs generalizing b fuel with
  | nil =>
    subst hhead
    cases fuel with
    | zero => rfl
    | succ fuel =>
      rw [walk]
      simp [hbad]
  | cons x bs ih =>
    obtain rfl : b = x := hhead
    cases fuel with
    | zero => rfl
    | succ fuel =>
      have hnext : F.next (d b) = (bs ++ [c]).headD 0 := by
        rw [hlinked 0 b rfl]
        cases bs <;> rfl
      have hne : F.next (d b) ≠ 0 := by
        intro h0
        apply hzero
        rw [hnext] at h0
        rw [cons_append, tail_cons, ← h0]
        cases bs <;> simp
      rw [walk, if_neg hne]
      split
      · rfl
      split
      · rfl
      rw [ih hnext]
      · rfl
      · intro i y hy
        exact hlinked (i + 1) y hy
      · intro h
        exact hzero (mem_of_mem_tail h)

end ChainFormat

/-! ## Laying out pages -/

section Pages

variable (enc : P → Nat → β)

/-- The writes of `ps` over the blocks `bs`, each page linked to the block after it. -/
def pageWrites : List Nat → List P → List (Nat × β)
  | b :: bs, p :: ps => (b, enc p (bs.headD 0)) :: pageWrites bs ps
  | _, _ => []

/-- The blocks `bs` hold the pages `ps`, each linked to the block after it. -/
def PagesAt (d : Nat → β) : List Nat → List P → Prop
  | [], [] => True
  | b :: bs, p :: ps => d b = enc p (bs.headD 0) ∧ PagesAt d bs ps
  | _, _ => False

variable {enc}

variable {bs : List Nat} {ps : List P}

theorem mem_pageWrites_fst {b : Nat} (h : b ∈ (pageWrites enc bs ps).map Prod.fst) : b ∈ bs := by
  induction bs generalizing ps with
  | nil => simp [pageWrites] at h
  | cons c bs ih =>
    cases ps with
    | nil => simp [pageWrites] at h
    | cons p ps =>
      rw [pageWrites, map_cons, mem_cons] at h
      rcases h with rfl | h
      · exact mem_cons_self
      · exact mem_cons_of_mem c (ih h)

variable {d : Nat → β}

theorem PagesAt.length (h : PagesAt enc d bs ps) : bs.length = ps.length := by
  induction bs generalizing ps with
  | nil => cases ps with
    | nil => rfl
    | cons p ps => exact h.elim
  | cons b bs ih => cases ps with
    | nil => exact h.elim
    | cons p ps => simpa using ih h.2

theorem PagesAt.congr {d' : Nat → β} (h : PagesAt enc d bs ps) (heq : ∀ b ∈ bs, d' b = d b) : PagesAt enc d' bs ps := by
  induction bs generalizing ps with
  | nil => cases ps with
    | nil => trivial
    | cons p ps => exact h.elim
  | cons b bs ih => cases ps with
    | nil => exact h.elim
    | cons p ps =>
      exact ⟨(heq b mem_cons_self).trans h.1, ih h.2 fun c hc => heq c (mem_cons_of_mem b hc)⟩

theorem pagesAt_applyWrites (hlen : bs.length = ps.length) (hnd : bs.Nodup)
    (d : Nat → β) : PagesAt enc (applyWrites d (pageWrites enc bs ps)) bs ps := by
  induction bs generalizing ps d with
  | nil => cases ps with
    | nil => trivial
    | cons p ps => simp at hlen
  | cons b bs ih => cases ps with
    | nil => simp at hlen
    | cons p ps =>
      obtain ⟨hb, hnd'⟩ := nodup_cons.mp hnd
      rw [pageWrites, applyWrites_cons]
      refine ⟨?_, ih (by simpa using hlen) hnd' _⟩
      rw [applyWrites_of_notMem fun h => hb (mem_pageWrites_fst h), update_self]

/-- A writer that stops after `k` writes over a chain with a page in each block leaves `k` new pages and the old ones
after them. -/
theorem pagesAt_take {old new : List P} (hlen : bs.length = new.length) (hnd : bs.Nodup) (k : Nat) {d : Nat → β}
    (h : PagesAt enc d bs old) :
    PagesAt enc (applyWrites d ((pageWrites enc bs new).take k)) bs (new.take k ++ old.drop k) := by
  induction bs generalizing old new d k with
  | nil => cases new with
    | nil => cases old with
      | nil => simp [pageWrites, PagesAt]
      | cons q old => exact h.elim
    | cons p new => simp at hlen
  | cons b bs ih => cases new with
    | nil => simp at hlen
    | cons p new => cases old with
      | nil => exact h.elim
      | cons q old => cases k with
        | zero => simpa using h
        | succ k =>
          obtain ⟨hb, hnd'⟩ := nodup_cons.mp hnd
          have hrest : PagesAt enc (update d b (enc p (bs.headD 0))) bs old :=
            h.2.congr fun c hc => update_of_ne (fun hcb : c = b => hb (hcb ▸ hc)) _ _
          rw [pageWrites, take_succ_cons, applyWrites_cons]
          refine ⟨?_, ih (by simpa using hlen) hnd' k hrest⟩
          rw [applyWrites_of_notMem, update_self]
          intro hmem
          rw [map_take] at hmem
          exact hb (mem_pageWrites_fst (mem_of_mem_take hmem))

theorem pageWrites_take_pages (enc : P → Nat → β) (bs : List Nat) (ps : List P) :
    pageWrites enc bs (ps.take bs.length) = pageWrites enc bs ps := by
  induction bs generalizing ps with
  | nil => cases ps <;> simp [pageWrites]
  | cons b bs ih =>
    cases ps with
    | nil => simp
    | cons p ps => simp [pageWrites, ih]

theorem pageWrites_take_blocks (enc : P → Nat → β) {k n : Nat} (h : k < n) (bs : List Nat) (ps : List P) :
    (pageWrites enc (bs.take n) ps).take k = (pageWrites enc bs ps).take k := by
  induction bs generalizing k n ps with
  | nil => simp
  | cons b bs ih =>
    obtain ⟨n, rfl⟩ : ∃ m, n = m + 1 := ⟨n - 1, by omega⟩
    cases ps with
    | nil => simp [pageWrites]
    | cons p ps =>
      cases k with
      | zero => simp
      | succ k =>
        have hhead : (bs.take n).headD 0 = bs.headD 0 := by
          obtain ⟨n, rfl⟩ : ∃ m, n = m + 1 := ⟨n - 1, by omega⟩
          cases bs <;> rfl
        rw [take_succ_cons, pageWrites, pageWrites, take_succ_cons, take_succ_cons, ih (by omega), hhead]

theorem applyWrites_take_of_lt (hnd : bs.Nodup) {ps : List P} {k i b : Nat} {p : P} (hik : i < k) (hb : bs[i]? = some b)
    (hp : ps[i]? = some p) (d : Nat → β) :
    applyWrites d ((pageWrites enc bs ps).take k) b = enc p (bs.getD (i + 1) 0) := by
  induction bs generalizing ps k i d with
  | nil => cases hb
  | cons c bs ih =>
    cases ps with
    | nil => cases hp
    | cons q ps =>
      obtain ⟨k, rfl⟩ : ∃ m, k = m + 1 := ⟨k - 1, by omega⟩
      obtain ⟨hc, hnd'⟩ := nodup_cons.mp hnd
      rw [pageWrites, take_succ_cons, applyWrites_cons]
      cases i with
      | zero =>
        obtain rfl := some.inj hb
        obtain rfl := some.inj hp
        rw [applyWrites_of_notMem, update_self]
        · cases bs <;> rfl
        · intro hmem
          rw [map_take] at hmem
          exact hc (mem_pageWrites_fst (mem_of_mem_take hmem))
      | succ i => exact ih hnd' (by omega) hb hp _

theorem applyWrites_take_of_le (hnd : bs.Nodup) {ps : List P} {k i b : Nat} (hik : k ≤ i)
    (hb : bs[i]? = some b) (d : Nat → β) : applyWrites d ((pageWrites enc bs ps).take k) b = d b := by
  induction bs generalizing ps k i d with
  | nil => cases hb
  | cons c bs ih =>
    cases k with
    | zero => simp
    | succ k =>
      cases ps with
      | nil => simp [pageWrites]
      | cons q ps =>
        obtain ⟨i, rfl⟩ : ∃ m, i = m + 1 := ⟨i - 1, by omega⟩
        obtain ⟨hc, hnd'⟩ := nodup_cons.mp hnd
        rw [getElem?_cons_succ] at hb
        have hbc : b ≠ c := fun h => hc (h ▸ mem_of_getElem? hb)
        rw [pageWrites, take_succ_cons, applyWrites_cons, ih hnd' (by omega) hb, update_of_ne hbc]

theorem PagesAt.linked {F : ChainFormat β} (h : PagesAt enc d bs ps) {bound : Nat}
    (hgood : ∀ p n, F.good (enc p n) = true) (hnext : ∀ p n, n < bound → F.next (enc p n) = n) (hbound : 0 < bound)
    (hbs : ∀ b ∈ bs, b < bound) : F.Linked d bs := by
  induction bs generalizing ps with
  | nil => trivial
  | cons b bs ih => cases ps with
    | nil => exact h.elim
    | cons p ps =>
      rw [ChainFormat.Linked, h.1]
      refine ⟨hgood _ _, hnext _ _ ?_, ih h.2 fun c hc => hbs c (mem_cons_of_mem b hc)⟩
      cases bs with
      | nil => exact hbound
      | cons c bs => exact hbs c (by simp)

end Pages

end Lib
