import Mathlib.Tactic

/-!
# Linked lists in a memory

A cell of the memory links to the next one by `next`; the value `stop` ends a list. `Threaded next stop h l` says that
the list from `h` on is `l`. `Threads` is a family of such lists that have no cell in common: a cell is put in front of
one of them (`Threads.push`) or taken out of it (`Threads.unlink`), and the others stay as they are.

`seek` is the walk of a pointer to the link that names a cell: `none` is the head of the list, `some q` the link of `q`.
-/

open Function (update update_of_ne update_self)

namespace Lib

open List

variable {α ι : Type} {next next' : α → α} {stop h a : α} {l : List α}

/-- The list from `h` on. -/
def Threaded (next : α → α) (stop : α) : α → List α → Prop
  | h, [] => h = stop
  | h, a :: l => h = a ∧ a ≠ stop ∧ Threaded next stop (next a) l

theorem Threaded.congr (ht : Threaded next stop h l) (heq : ∀ x ∈ l, next' x = next x) : Threaded next' stop h l := by
  induction l generalizing h with
  | nil => exact ht
  | cons x l ih =>
    obtain ⟨hx, hstop, hrest⟩ := ht
    refine ⟨hx, hstop, ?_⟩
    rw [heq x mem_cons_self]
    exact ih hrest fun y hy => heq y (mem_cons_of_mem x hy)

theorem Threaded.ne_stop (ht : Threaded next stop h l) {x : α} (hx : x ∈ l) : x ≠ stop := by
  induction l generalizing h with
  | nil => cases hx
  | cons y l ih =>
    rcases mem_cons.mp hx with rfl | hx
    · exact ht.2.1
    · exact ih ht.2.2 hx

theorem Threaded.eq_nil (ht : Threaded next stop stop l) : l = [] := by
  cases l with
  | nil => rfl
  | cons x l => exact absurd ht.1.symm ht.2.1

theorem Threaded.exists_cons (ht : Threaded next stop h l) (hh : h ≠ stop) : ∃ rest, l = h :: rest := by
  cases l with
  | nil => exact absurd ht hh
  | cons x l => exact ⟨l, by rw [ht.1]⟩

section push

variable [DecidableEq α]

theorem Threaded.push (ht : Threaded next stop h l) (ha : a ∉ l) (hstop : a ≠ stop) :
    Threaded (update next a h) stop a (a :: l) := by
  refine ⟨rfl, hstop, ?_⟩
  rw [update_self]
  exact ht.congr fun x hx => update_of_ne (ne_of_mem_of_not_mem hx ha) _ _

end push

/-! ## Taking a cell out -/

/-- What the link `prev` holds. -/
def cell (next : α → α) (h : α) : Option α → α
  | none => h
  | some q => next q

/-- `while (*prev && *prev != a) prev = &(*prev)->next`, for `fuel` steps at most. -/
def seek [DecidableEq α] (next : α → α) (stop h a : α) : Nat → Option α → Option α
  | 0, prev => prev
  | fuel + 1, prev =>
    if cell next h prev ≠ stop ∧ cell next h prev ≠ a then seek next stop h a fuel (some (cell next h prev)) else prev

section unlink

variable [DecidableEq α]

theorem seek_spec {l₁ l₂ : List α} (prev : Option α) {fuel : Nat}
    (ht : Threaded next stop (cell next h prev) (l₁ ++ a :: l₂)) (ha : a ∉ l₁) (hfuel : l₁.length ≤ fuel) :
    seek next stop h a fuel prev = (l₁.getLast?).or prev := by
  induction l₁ generalizing prev fuel with
  | nil =>
    have hcell : cell next h prev = a := ht.1
    cases fuel with
    | zero => rfl
    | succ fuel => rw [seek, if_neg (by simp [hcell])]; rfl
  | cons x l₁ ih =>
    obtain ⟨hx, hstop, hrest⟩ := ht
    rw [mem_cons, not_or] at ha
    cases fuel with
    | zero => simp at hfuel
    | succ fuel =>
      rw [seek, if_pos ⟨by rw [hx]; exact hstop, by rw [hx]; exact Ne.symm ha.1⟩, hx,
        ih (some x) hrest ha.2 (by simpa using hfuel)]
      cases l₁ with
      | nil => rfl
      | cons y l₁ => rw [getLast?_cons_cons]; simp [getLast?_cons]

/-- The head of a list after a write to the link `prev`. -/
def headAfter (prev : Option α) (h v : α) : α :=
  match prev with
  | none => v
  | some _ => h

/-- The links after a write to the link `prev`. -/
def nextAfter (next : α → α) (prev : Option α) (v : α) : α → α :=
  match prev with
  | none => next
  | some q => update next q v

theorem Threaded.unlink {l₁ l₂ : List α} (ht : Threaded next stop h (l₁ ++ a :: l₂)) (hnd : (l₁ ++ a :: l₂).Nodup) :
    cell next h l₁.getLast? = a ∧
      Threaded (nextAfter next l₁.getLast? (next a)) stop (headAfter l₁.getLast? h (next a)) (l₁ ++ l₂) := by
  induction l₁ generalizing h with
  | nil => exact ⟨ht.1, ht.2.2⟩
  | cons x l₁ ih =>
    obtain ⟨hx, hstop, hrest⟩ := ht
    obtain ⟨hnew, hnd⟩ := nodup_cons.mp hnd
    obtain ⟨hcell, hthread⟩ := ih hrest hnd
    cases l₁ with
    | nil =>
      refine ⟨hrest.1, hx, hstop, ?_⟩
      show Threaded (update next x (next a)) stop (update next x (next a) x) l₂
      rw [update_self]
      exact hrest.2.2.congr fun y hy => update_of_ne (fun e => hnew (by simp [← e, hy])) _ _
    | cons y l₁ =>
      have hlast : (x :: y :: l₁).getLast? = (y :: l₁).getLast? := getLast?_cons_cons
      obtain ⟨q, hq⟩ : ∃ q, (y :: l₁).getLast? = some q := ⟨_, getLast?_eq_some_getLast (by simp)⟩
      have hqmem : q ∈ y :: l₁ := mem_of_getLast? hq
      rw [hlast]
      rw [hq] at hcell hthread ⊢
      refine ⟨hcell, hx, hstop, ?_⟩
      -- the head of the rest is the link of `x`, which is not written
      have hsame : nextAfter next (some q) (next a) x = next x :=
        update_of_ne (fun e => hnew (by rw [e]; exact mem_append_left _ hqmem)) _ _
      rw [hsame]
      exact hthread

end unlink

/-! ## Families of lists -/

/-- Lists that have no cell in common. -/
structure Threads (next : α → α) (stop : α) (heads : ι → α) (lists : ι → List α) : Prop where
  threaded : ∀ i, Threaded next stop (heads i) (lists i)
  nodup : ∀ i, (lists i).Nodup
  apart : ∀ i j x, x ∈ lists i → x ∈ lists j → i = j

section threads

variable [DecidableEq ι] {heads : ι → α} {lists : ι → List α}

theorem Threads.pop (hs : Threads next stop heads lists) {i : ι} {rest : List α} (hl : lists i = a :: rest) :
    heads i = a ∧ Threads next stop (update heads i (next a)) (update lists i rest) := by
  have ht := hs.threaded i
  have hnd := hs.nodup i
  rw [hl] at ht hnd
  refine ⟨ht.1, fun j => ?_, fun j => ?_, fun j k x hj hk => ?_⟩
  · rcases eq_or_ne j i with rfl | hj
    · rw [update_self, update_self]
      exact ht.2.2
    · rw [update_of_ne hj, update_of_ne hj]
      exact hs.threaded j
  · rcases eq_or_ne j i with rfl | hj
    · rw [update_self]
      exact (nodup_cons.mp hnd).2
    · rw [update_of_ne hj]
      exact hs.nodup j
  · have hold : ∀ {m : ι}, x ∈ update lists i rest m → x ∈ lists m := by
      intro m hm
      rcases eq_or_ne m i with rfl | hne
      · rw [update_self] at hm
        rw [hl]
        exact mem_cons_of_mem a hm
      · rwa [update_of_ne hne] at hm
    exact hs.apart j k x (hold hj) (hold hk)

variable [DecidableEq α]

theorem Threads.push (hs : Threads next stop heads lists) (i : ι) (ha : ∀ j, a ∉ lists j) (hstop : a ≠ stop) :
    Threads (update next a (heads i)) stop (update heads i a) (update lists i (a :: lists i)) := by
  refine ⟨fun j => ?_, fun j => ?_, fun j k x hj hk => ?_⟩
  · rcases eq_or_ne j i with rfl | hj
    · rw [update_self, update_self]
      exact (hs.threaded j).push (ha j) hstop
    · rw [update_of_ne hj, update_of_ne hj]
      exact (hs.threaded j).congr fun x hx => update_of_ne (ne_of_mem_of_not_mem hx (ha j)) _ _
  · rcases eq_or_ne j i with rfl | hj
    · rw [update_self]
      exact nodup_cons.mpr ⟨ha j, hs.nodup j⟩
    · rw [update_of_ne hj]
      exact hs.nodup j
  · have hold : ∀ {m : ι}, x ∈ update lists i (a :: lists i) m → (x = a ∧ m = i) ∨ (x ≠ a ∧ x ∈ lists m) := by
      intro m hm
      rcases eq_or_ne m i with rfl | hne
      · rw [update_self, mem_cons] at hm
        rcases eq_or_ne x a with heq | hxa
        · exact .inl ⟨heq, rfl⟩
        · exact .inr ⟨hxa, hm.resolve_left hxa⟩
      · rw [update_of_ne hne] at hm
        exact .inr ⟨fun e => ha m (e ▸ hm), hm⟩
    rcases hold hj with ⟨hxa, hji⟩ | ⟨hxa, hj⟩ <;> rcases hold hk with ⟨hxa', hki⟩ | ⟨hxa', hk⟩
    · rw [hji, hki]
    · exact absurd hxa hxa'
    · exact absurd hxa' hxa
    · exact hs.apart j k x hj hk

theorem Threads.unlink (hs : Threads next stop heads lists) {i : ι} (ha : a ∈ lists i) {fuel : Nat}
    (hfuel : (lists i).length ≤ fuel) :
    cell next (heads i) (seek next stop (heads i) a fuel none) = a ∧
    Threads (nextAfter next (seek next stop (heads i) a fuel none) (next a)) stop
      (update heads i (headAfter (seek next stop (heads i) a fuel none) (heads i) (next a)))
      (update lists i ((lists i).erase a)) := by
  obtain ⟨l₁, l₂, hsplit, hnot⟩ : ∃ l₁ l₂, lists i = l₁ ++ a :: l₂ ∧ a ∉ l₁ := by
    obtain ⟨l₁, l₂, hsplit⟩ := append_of_mem ha
    have hnd := hs.nodup i
    rw [hsplit] at hnd
    exact ⟨l₁, l₂, hsplit, fun hin => (nodup_append.mp hnd).2.2 a hin a mem_cons_self rfl⟩
  have ht := hs.threaded i
  have hnd := hs.nodup i
  rw [hsplit] at ht hnd hfuel
  have hseek : seek next stop (heads i) a fuel none = l₁.getLast? := by
    rw [seek_spec none ht hnot (by simp at hfuel; omega), Option.or_none]
  have herase : (lists i).erase a = l₁ ++ l₂ := by
    rw [hsplit, erase_append_right _ hnot, erase_cons_head]
  obtain ⟨hcell, hthread⟩ := ht.unlink hnd
  rw [hseek, herase]
  refine ⟨hcell, fun j => ?_, fun j => ?_, fun j k x hj hk => ?_⟩
  · rcases eq_or_ne j i with rfl | hj
    · rw [update_self, update_self]
      exact hthread
    · rw [update_of_ne hj, update_of_ne hj]
      refine (hs.threaded j).congr fun x hx => ?_
      cases hlast : l₁.getLast? with
      | none => rfl
      | some q =>
        -- the link that is written is one of the list `i`
        have hq : q ∈ lists i := by
          rw [hsplit]
          exact mem_append_left _ (mem_of_getLast? hlast)
        exact update_of_ne (fun e => hj (hs.apart j i x hx (by rw [e]; exact hq))) _ _
  · rcases eq_or_ne j i with rfl | hj
    · rw [update_self]
      exact (nodup_append.mp hnd).1.append (nodup_cons.mp (nodup_append.mp hnd).2.1).2 (fun x h₁ h₂ =>
        (nodup_append.mp hnd).2.2 x h₁ x (mem_cons_of_mem a h₂) rfl)
    · rw [update_of_ne hj]
      exact hs.nodup j
  · have hold : ∀ {m : ι}, x ∈ update lists i (l₁ ++ l₂) m → x ∈ lists m := by
      intro m hm
      rcases eq_or_ne m i with rfl | hne
      · rw [update_self] at hm
        rw [hsplit]
        simp only [mem_append, mem_cons] at hm ⊢
        tauto
      · rwa [update_of_ne hne] at hm
    exact hs.apart j k x (hold hj) (hold hk)

end threads

end Lib
