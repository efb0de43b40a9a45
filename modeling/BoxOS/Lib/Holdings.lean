import Mathlib.Tactic

/-!
# Holdings and shared objects

- `total w l` adds up what the members of a list hold; `total_set` says what a change of one member does to it. A law
  "counter = total" is kept by a step as soon as the counter changes by what the moving member gains or loses.
- `Trade` says what a step gives up and takes of the stakes that it can see; `outstanding` counts a kind of stake over
  the shared state and all members, and `outstanding_set` says how a trade of one member changes it.
- `Registry` is a table of shared objects, at most one for each tag, which live as long as they are referenced.
  `Registry.Inv R H` says that `H p` references to the object `p` are out and that exactly the referenced objects are
  linked; `find`, `create`, `addRef` and `dropRef` keep it.
-/

namespace Lib

open List

/-! ## Totals -/

section Total

variable {ω : Type*}

/-- What the members of a list hold together. -/
def total (w : ω → Nat) (l : List ω) : Nat := (l.map w).sum

@[simp] theorem total_nil (w : ω → Nat) : total w [] = 0 := rfl

@[simp] theorem total_cons (w : ω → Nat) (x : ω) (l : List ω) : total w (x :: l) = w x + total w l := by
  simp [total]

@[simp] theorem total_append (w : ω → Nat) (l l' : List ω) : total w (l ++ l') = total w l + total w l' := by
  simp [total]

theorem total_set (w : ω → Nat) {l : List ω} {i : Nat} {x : ω} (hx : l[i]? = some x) (y : ω) :
    total w (l.set i y) + w x = total w l + w y := by
  induction l generalizing i with
  | nil => cases hx
  | cons z l ih =>
    cases i with
    | zero =>
      cases hx
      simp only [set_cons_zero, total_cons]
      omega
    | succ i =>
      have := ih (i := i) (by simpa using hx)
      simp only [set_cons_succ, total_cons]
      omega

theorem le_total (w : ω → Nat) {l : List ω} {x : ω} (hx : x ∈ l) : w x ≤ total w l := by
  induction l with
  | nil => cases hx
  | cons z l ih =>
    rw [total_cons]
    rcases mem_cons.mp hx with rfl | hx
    · omega
    · have := ih hx
      omega

theorem add_le_total (w : ω → Nat) {l : List ω} {i j : Nat} {x y : ω} (hi : l[i]? = some x) (hj : l[j]? = some y)
    (hne : i ≠ j) : w x + w y ≤ total w l := by
  induction l generalizing i j with
  | nil => cases hi
  | cons z l ih =>
    rw [total_cons]
    cases i with
    | zero =>
      cases j with
      | zero => exact absurd rfl hne
      | succ j =>
        cases hi
        have := le_total w (mem_of_getElem? (l := l) (i := j) (by simpa using hj))
        omega
    | succ i =>
      cases j with
      | zero =>
        cases hj
        have := le_total w (mem_of_getElem? (l := l) (i := i) (by simpa using hi))
        omega
      | succ j =>
        have := ih (i := i) (j := j) (by simpa using hi) (by simpa using hj) (by omega)
        omega

variable {w : ω → Nat} {l : List ω}

theorem total_congr {w' : ω → Nat} (h : ∀ x ∈ l, w x = w' x) : total w l = total w' l := by
  unfold total
  rw [map_congr_left h]

theorem total_eraseP (w : ω → Nat) {l : List ω} {q : ω → Bool} {x : ω} (hx : l.find? q = some x) :
    total w (l.eraseP q) + w x = total w l := by
  induction l with
  | nil => cases hx
  | cons z l ih =>
    rw [find?_cons] at hx
    cases hz : q z with
    | true =>
      rw [hz] at hx
      cases hx
      rw [eraseP_cons_of_pos hz, total_cons]
      omega
    | false =>
      rw [hz] at hx
      have := ih hx
      rw [eraseP_cons_of_neg (by simp [hz]), total_cons, total_cons]
      omega

theorem total_eraseIdx (w : ω → Nat) {l : List ω} {i : Nat} {x : ω} (hx : l[i]? = some x) :
    total w (l.eraseIdx i) + w x = total w l := by
  induction l generalizing i with
  | nil => cases hx
  | cons z l ih =>
    cases i with
    | zero =>
      cases hx
      simp only [eraseIdx_cons_zero, total_cons]
      omega
    | succ i =>
      have := ih (i := i) (by simpa using hx)
      simp only [eraseIdx_cons_succ, total_cons]
      omega

theorem total_swap (w : ω → Nat) {l : List ω} {i j : Nat} {x y : ω} (hx : l[i]? = some x) (hy : l[j]? = some y) :
    total w ((l.set i y).set j x) = total w l := by
  have hfirst := total_set w hx y
  have hmid : (l.set i y)[j]? = some y := by
    by_cases hij : i = j
    · subst hij
      rw [getElem?_set_self (List.getElem?_eq_some_iff.mp hx).1]
    · rw [getElem?_set_ne hij, hy]
  have hsecond := total_set w hmid x
  omega

theorem total_change (w w' : ω → Nat) {l : List ω} {x : ω} (hl : l.Nodup) (hx : x ∈ l) (h : ∀ y, y ≠ x → w' y = w y) :
    total w' l + w x = total w l + w' x := by
  induction l with
  | nil => cases hx
  | cons z l ih =>
    obtain ⟨hz, hl⟩ := nodup_cons.mp hl
    rw [total_cons, total_cons]
    rcases mem_cons.mp hx with rfl | hx
    · have : total w' l = total w l := total_congr fun y hy => h y fun he => hz (he ▸ hy)
      omega
    · have := ih hl hx
      have := h z fun he => hz (he ▸ hx)
      omega

theorem total_filter (w : ω → Nat) (q : ω → Bool) (l : List ω) :
    total w (l.filter q) + total w (l.filter fun x => !q x) = total w l := by
  induction l with
  | nil => rfl
  | cons x l ih =>
    rw [filter_cons, filter_cons, total_cons]
    cases q x <;> simp only [Bool.not_true, Bool.not_false, Bool.false_eq_true, if_true, if_false, total_cons] <;> omega

theorem total_erase [DecidableEq ω] (w : ω → Nat) {l : List ω} {x : ω} (hx : x ∈ l) :
    total w (l.erase x) + w x = total w l := by
  have := ((perm_cons_erase hx).map w).sum_nat
  simp only [map_cons, sum_cons] at this
  unfold total
  omega

theorem total_eq_countP {q : ω → Bool} (h : ∀ x ∈ l, w x = if q x then 1 else 0) : total w l = l.countP q := by
  induction l with
  | nil => rfl
  | cons x l ih =>
    rw [total_cons, countP_cons, ih fun y hy => h y (mem_cons_of_mem x hy), h x mem_cons_self]
    omega

theorem total_mono {w' : ω → Nat} (h : ∀ x, w x ≤ w' x) (l : List ω) : total w l ≤ total w' l := by
  induction l with
  | nil => exact le_rfl
  | cons x l ih =>
    rw [total_cons, total_cons]
    exact Nat.add_le_add (h x) ih

theorem total_eq_zero (h : ∀ x ∈ l, w x = 0) : total w l = 0 := by
  have hzero : total w l = total (fun _ => 0) l := total_congr h
  rw [hzero]
  simp [total]

theorem countP_flatMap {τ : Type*} (q : τ → Bool) (st : ω → List τ) (l : List ω) :
    (l.flatMap st).countP q = total (fun x => (st x).countP q) l := List.countP_flatMap

end Total

/-! ## Stakes -/

section Stakes

variable {τ ω : Type*}

/-- What a step sees of the stakes before and after: it gives up some and takes others. -/
def Trade (before after given taken : List τ) : Prop :=
  ∀ q : τ → Bool, after.countP q + given.countP q = before.countP q + taken.countP q

/-- The stakes of a kind, over the shared state and all members. -/
def outstanding (q : τ → Bool) (shared : List τ) (st : ω → List τ) (l : List ω) : Nat :=
  shared.countP q + total (fun x => (st x).countP q) l

theorem outstanding_set {st : ω → List τ} {l : List ω} {i : Nat} {x y : ω} {shared shared' given taken : List τ}
    (hx : l[i]? = some x) (h : Trade (shared ++ st x) (shared' ++ st y) given taken) (q : τ → Bool) :
    outstanding q shared' st (l.set i y) + given.countP q = outstanding q shared st l + taken.countP q := by
  have htrade := h q
  have hset := total_set (fun x => (st x).countP q) hx y
  simp only [countP_append] at htrade
  unfold outstanding
  omega

theorem outstanding_append {st : ω → List τ} {x : ω} (hx : st x = []) (q : τ → Bool) (shared : List τ) (l : List ω) :
    outstanding q shared st (l ++ [x]) = outstanding q shared st l := by
  unfold outstanding
  simp [hx]

end Stakes

/-! ## Shared objects -/

/-- A shared object: its tag, its 32-bit count of references, and what else it has. -/
structure Entry (τ α : Type*) where
  tag : τ
  refs : Nat
  data : α

/-- `ref_count++` and `ref_count--` in 32 bits. -/
def Entry.incr {τ α : Type*} (e : Entry τ α) : Entry τ α := { e with refs := (e.refs + 1) % 2 ^ 32 }

@[inherit_doc Entry.incr]
def Entry.decr {τ α : Type*} (e : Entry τ α) : Entry τ α := 
  { e with refs := if e.refs = 0 then 0xFFFFFFFF else e.refs - 1 }

theorem Entry.tag_incr {τ α : Type*} (e : Entry τ α) : e.incr.tag = e.tag := rfl

theorem Entry.tag_decr {τ α : Type*} (e : Entry τ α) : e.decr.tag = e.tag := rfl

/-- Every object that was ever made, and the ones that can be found, the newest first. -/
structure Registry (τ α : Type*) where
  entries : List (Entry τ α)
  linked : List Nat

namespace Registry

variable {τ α : Type*} {R : Registry τ α} {H H' : Nat → Nat} {t : τ} {p q : Nat}

def empty : Registry τ α := ⟨[], []⟩

def tagOf (R : Registry τ α) (p : Nat) : Option τ := R.entries[p]?.map (·.tag)

def refsOf (R : Registry τ α) (p : Nat) : Nat := (R.entries[p]?.map (·.refs)).getD 0

/-- The object of a tag. -/
def find [DecidableEq τ] (R : Registry τ α) (t : τ) : Option Nat := R.linked.find? fun p => decide (R.tagOf p = some t)

/-- A new object without references, linked first. -/
def insert (R : Registry τ α) (t : τ) (d : α) : Registry τ α :=
  ⟨R.entries ++ [⟨t, 0, d⟩], R.entries.length :: R.linked⟩

def modify (R : Registry τ α) (p : Nat) (f : Entry τ α → Entry τ α) : Registry τ α :=
  { R with entries := R.entries.modify p f }

/-- A reference is taken. -/
def addRef (R : Registry τ α) (p : Nat) : Registry τ α := R.modify p .incr

/-- A reference is given up, and the object is unlinked when there is none left. -/
def dropRef (R : Registry τ α) (p : Nat) : Registry τ α :=
  if (R.modify p .decr).refsOf p = 0 then { R.modify p .decr with linked := R.linked.erase p } else R.modify p .decr

/-- `H p` references to the object `p` are out; the referenced objects are those that are linked, one for each tag. -/
structure Inv (R : Registry τ α) (H : Nat → Nat) : Prop where
  refs : ∀ p, R.refsOf p = H p
  linked : ∀ p, p ∈ R.linked ↔ 0 < H p
  tags : (R.linked.map R.tagOf).Nodup

theorem empty_inv : (empty : Registry τ α).Inv fun _ => 0 := ⟨fun _ => rfl, fun p => by simp [empty], .nil⟩

theorem Inv.congr (h : R.Inv H) (hH : ∀ p, H' p = H p) : R.Inv H' :=
  ⟨fun p => (h.refs p).trans (hH p).symm, fun p => by rw [hH]; exact h.linked p, h.tags⟩

theorem refsOf_of_le (h : R.entries.length ≤ p) : R.refsOf p = 0 := by
  unfold refsOf
  rw [getElem?_eq_none h]
  rfl

theorem Inv.lt (h : R.Inv H) (hp : 0 < H p) : p < R.entries.length := by
  by_contra hge
  have := refsOf_of_le (R := R) (not_lt.mp hge)
  have := h.refs p
  omega

theorem Inv.nodup (h : R.Inv H) : R.linked.Nodup := Nodup.of_map _ h.tags

theorem find_some [DecidableEq τ] (hf : R.find t = some p) : p ∈ R.linked ∧ R.tagOf p = some t :=
  ⟨mem_of_find?_eq_some hf, by simpa using find?_some hf⟩

theorem find_none [DecidableEq τ] (hf : R.find t = none) : some t ∉ R.linked.map R.tagOf := by
  intro hmem
  obtain ⟨p, hp, htag⟩ := mem_map.mp hmem
  have := find?_eq_none.mp hf p hp
  simp [htag] at this

theorem tagOf_modify (f : Entry τ α → Entry τ α) (hf : ∀ e, (f e).tag = e.tag) (p q : Nat) :
    (R.modify p f).tagOf q = R.tagOf q := by
  unfold tagOf modify
  simp only [getElem?_modify]
  cases R.entries[q]? with
  | none => rfl
  | some e =>
    split
    · exact congrArg some (hf e)
    · rfl

theorem refsOf_modify (f : Entry τ α → Entry τ α) (p q : Nat) :
    (R.modify p f).refsOf q = if q = p then (R.entries[q]?.map fun e => (f e).refs).getD 0 else R.refsOf q := by
  unfold refsOf modify
  simp only [getElem?_modify]
  by_cases h : q = p
  · rw [if_pos h, h]
    cases R.entries[p]? <;> simp
  · rw [if_neg h]
    have hne : ¬p = q := Ne.symm h
    simp [hne]

theorem Inv.modify (h : R.Inv H) {f : Entry τ α → Entry τ α} (htag : ∀ e, (f e).tag = e.tag)
    (hrefs : ∀ e, (f e).refs = e.refs) (p : Nat) : (R.modify p f).Inv H := by
  refine ⟨fun q => ?_, h.linked, ?_⟩
  · rw [refsOf_modify, ← h.refs q]
    split
    · unfold refsOf
      simp only [hrefs]
    · rfl
  · rw [show (R.modify p f).linked = R.linked from rfl, funext (tagOf_modify f htag p)]
    exact h.tags

theorem Inv.addRef (h : R.Inv H) (hp : 0 < H p) (hbound : H p + 1 < 2 ^ 32)
    (hH : ∀ q, H' q = H q + if q = p then 1 else 0) : (R.addRef p).Inv H' := by
  have hlt := h.lt hp
  refine ⟨fun q => ?_, fun q => ?_, ?_⟩
  · unfold Registry.addRef
    rw [refsOf_modify, hH]
    split
    · rename_i hq
      subst hq
      have hrefs := h.refs q
      unfold refsOf at hrefs
      rw [getElem?_eq_getElem hlt, Option.map_some, Option.getD_some] at hrefs ⊢
      unfold Entry.incr
      rw [hrefs, Nat.mod_eq_of_lt hbound]
    · exact h.refs q
  · rw [show (R.addRef p).linked = R.linked from rfl, h.linked, hH]
    split
    · rename_i hq
      subst hq
      exact ⟨fun _ => Nat.succ_pos _, fun _ => hp⟩
    · rw [Nat.add_zero]
  · rw [show (R.addRef p).linked = R.linked from rfl]
    have htag : (R.addRef p).tagOf = R.tagOf := funext (tagOf_modify .incr Entry.tag_incr p)
    rw [htag]
    exact h.tags

/-- A new object with its first reference, for a tag that has none. -/
theorem Inv.create [DecidableEq τ] (h : R.Inv H) (hf : R.find t = none) (d : α)
    (hH : ∀ q, H' q = H q + if q = R.entries.length then 1 else 0) :
    ((R.insert t d).addRef R.entries.length).Inv H' := by
  have hold : ∀ q < R.entries.length, (R.insert t d).entries[q]? = R.entries[q]? := fun q hq => by
    simp only [insert]
    rw [getElem?_append_left hq]
  have hnew : (R.insert t d).entries[R.entries.length]? = some ⟨t, 0, d⟩ := by simp [insert]
  have hzero : H R.entries.length = 0 := by rw [← h.refs]; exact refsOf_of_le le_rfl
  have htagNew : ((R.insert t d).addRef R.entries.length).tagOf R.entries.length = some t := by
    unfold Registry.addRef
    rw [tagOf_modify .incr Entry.tag_incr]
    unfold tagOf
    rw [hnew]
    rfl
  have htagOld : ∀ q ∈ R.linked, ((R.insert t d).addRef R.entries.length).tagOf q = R.tagOf q := by
    intro q hq
    unfold Registry.addRef
    rw [tagOf_modify .incr Entry.tag_incr]
    unfold tagOf
    rw [hold q (h.lt ((h.linked q).mp hq))]
  refine ⟨fun q => ?_, fun q => ?_, ?_⟩
  · unfold Registry.addRef
    rw [refsOf_modify, hH]
    split
    · rename_i hq
      subst hq
      rw [hnew, hzero]
      rfl
    rename_i hq
    rw [Nat.add_zero, ← h.refs q]
    by_cases hlt : q < R.entries.length
    · unfold refsOf
      rw [hold q hlt]
    · rw [refsOf_of_le (not_lt.mp hlt), refsOf_of_le]
      simp only [insert, length_append, length_singleton]
      omega
  · rw [show ((R.insert t d).addRef R.entries.length).linked = R.entries.length :: R.linked from rfl, mem_cons,
      h.linked, hH]
    split
    · rename_i hq
      exact ⟨fun _ => Nat.succ_pos _, fun _ => .inl hq⟩
    · rename_i hq
      rw [Nat.add_zero]
      exact ⟨fun hor => hor.resolve_left hq, .inr⟩
  · rw [show ((R.insert t d).addRef R.entries.length).linked = R.entries.length :: R.linked from rfl, map_cons,
      htagNew, map_congr_left htagOld]
    exact nodup_cons.mpr ⟨find_none hf, h.tags⟩

/-- A reference is given up; it was the last one exactly when the object is unlinked. -/
theorem Inv.dropRef (h : R.Inv H) (hH : ∀ q, H' q + (if q = p then 1 else 0) = H q) : (R.dropRef p).Inv H' := by
  have hp : 0 < H p := by
    have := hH p
    rw [if_pos rfl] at this
    omega
  have hlt := h.lt hp
  have hself := hH p
  rw [if_pos rfl] at hself
  have hrefs : ∀ q, (R.modify p .decr).refsOf q = H' q := by
    intro q
    rw [refsOf_modify]
    have hq := hH q
    have hr := h.refs q
    split
    · rename_i he
      subst he
      unfold refsOf at hr
      rw [getElem?_eq_getElem hlt, Option.map_some, Option.getD_some] at hr ⊢
      unfold Entry.decr
      simp only
      rw [if_neg (by omega)]
      omega
    · rename_i he
      rw [if_neg he] at hq
      omega
  have htags : (R.modify p .decr).tagOf = R.tagOf := funext (tagOf_modify .decr Entry.tag_decr p)
  unfold Registry.dropRef
  rw [hrefs p]
  split
  · rename_i hzero
    refine ⟨hrefs, fun q => ?_, ?_⟩
    · simp only
      rw [h.nodup.mem_erase_iff, h.linked]
      have hq := hH q
      constructor
      · rintro ⟨hne, hpos⟩
        rw [if_neg hne] at hq
        omega
      · intro hpos
        refine ⟨fun he => ?_, by omega⟩
        rw [he] at hpos
        omega
    · have hsame : (⟨(R.modify p .decr).entries, R.linked.erase p⟩ : Registry τ α).tagOf = R.tagOf := htags
      simp only [hsame]
      exact h.tags.sublist (erase_sublist.map _)
  · rename_i hpos
    refine ⟨hrefs, fun q => ?_, ?_⟩
    · rw [show (R.modify p .decr).linked = R.linked from rfl, h.linked]
      have hq := hH q
      by_cases he : q = p
      · subst he
        exact ⟨fun _ => Nat.pos_of_ne_zero hpos, fun _ => hp⟩
      · rw [if_neg he] at hq
        omega
    · rw [show (R.modify p .decr).linked = R.linked from rfl, htags]
      exact h.tags

theorem Inv.unique (h : R.Inv H) (hp : p ∈ R.linked) (hq : q ∈ R.linked) (htag : R.tagOf p = R.tagOf q) : p = q :=
  inj_on_of_nodup_map h.tags hp hq htag

end Registry

end Lib
