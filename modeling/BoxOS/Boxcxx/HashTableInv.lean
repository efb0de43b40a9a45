import Mathlib.Data.List.TakeWhile
import BoxOS.Lib.Grouped
import BoxOS.Boxcxx.HashTable

/-!
# What every hash table keeps

`Table.Inv`: each node is in the chain of its cached hash, which is the table's hash of its key; nodes with equal keys
stand together in their chain; a unique table has no two of them; the count is right, and so is the number of buckets.

The loops have one lemma each: `eraseKeyLoop_spec`, `mergeUniqueLoop_spec`, `mergeMultiLoop_spec`.
-/

namespace BoxOS.Boxcxx

open Lib List Option

namespace Table

variable {κ ν : Type*} {keyOf : ν → κ} {t : Table κ ν}

/-- Nodes with equal keys. -/
def Same (keyOf : ν → κ) (t : Table κ ν) (a b : Node ν) : Prop := t.hasher.eq (keyOf a.value) (keyOf b.value) = true

theorem same_equivalence (keyOf : ν → κ) (t : Table κ ν) : Equivalence (t.Same keyOf) where
  refl := fun a => t.hasher.equiv.refl (keyOf a.value)
  symm := fun h => t.hasher.equiv.symm h
  trans := fun h h' => t.hasher.equiv.trans h h'

/-- A number of buckets. -/
def Sized (n : Nat) : Prop := n = 0 ∨ ∃ k, n = 2 ^ k

variable {n : Node ν} {c : List (Node ν)} {f : List (Node ν) → List (Node ν)} {bs : List (List (Node ν))}
  {r : Node ν → Node ν → Prop}

theorem slotOf_lt {n : Nat} (hs : Sized n) (hn : n ≠ 0) (h : Nat) : slotOf n h < n := by
  rcases hs with hz | ⟨k, rfl⟩
  · exact absurd hz hn
  · unfold slotOf
    rw [Nat.and_two_pow_sub_one_eq_mod]
    exact Nat.mod_lt _ (Nat.two_pow_pos k)

theorem roundBuckets_sized {want n : Nat} (h : roundBuckets want = some n) : Sized n ∧ n ≠ 0 := by
  unfold roundBuckets at h
  obtain ⟨k, -, rfl⟩ := map_eq_some_iff.mp h
  exact ⟨.inr ⟨k, rfl⟩, (Nat.two_pow_pos k).ne'⟩

/-- What every table keeps. -/
structure Inv (keyOf : ν → κ) (t : Table κ ν) : Prop where
  sized : Sized t.buckets.length
  placed : ∀ i c, t.buckets[i]? = some c → ∀ n ∈ c, t.indexOf n.hash = i ∧ n.hash = t.hasher.hash (keyOf n.value)
  grouped : ∀ c ∈ t.buckets, Grouped (t.Same keyOf) c
  distinct : t.unique = true → t.nodes.Pairwise fun a b => ¬t.Same keyOf a b
  ids : (t.nodes.map (·.id)).Nodup
  count : t.count = t.nodes.length

theorem empty_inv (h : Hasher κ) (u : Bool) (lf : LoadFactor) : (empty h u lf : Table κ ν).Inv keyOf where
  sized := .inl rfl
  placed := fun _ _ h => by simp [empty] at h
  grouped := fun _ h => by simp [empty] at h
  distinct := fun _ => .nil
  ids := .nil
  count := rfl

/-! ## Nodes and chains -/

theorem mem_nodes : n ∈ t.nodes ↔ ∃ (i : Nat) (c : List (Node ν)), t.buckets[i]? = some c ∧ n ∈ c := by
  unfold nodes
  rw [mem_flatten]
  constructor
  · rintro ⟨c, hc, hn⟩
    obtain ⟨i, hi⟩ := mem_iff_getElem?.mp hc
    exact ⟨i, c, hi, hn⟩
  · rintro ⟨i, c, hi, hn⟩
    exact ⟨c, mem_of_getElem? hi, hn⟩

theorem inv_of_nil (hs : Sized t.buckets.length) (hnone : t.nodes = []) (hcount : t.count = 0) : t.Inv keyOf where
  sized := hs
  placed := fun i c hc n hn => by
    have : n ∈ t.nodes := mem_nodes.mpr ⟨i, c, hc, hn⟩
    rw [hnone] at this
    cases this
  grouped := fun c hc => by
    rw [flatten_eq_nil_iff.mp hnone c hc]
    exact grouped_nil _
  distinct := fun _ => by
    rw [hnone]
    exact .nil
  ids := by
    rw [hnone]
    exact .nil
  count := by
    rw [hnone]
    exact hcount

theorem Inv.hash (h : t.Inv keyOf) {n : Node ν} (hn : n ∈ t.nodes) : n.hash = t.hasher.hash (keyOf n.value) := by
  obtain ⟨i, c, hc, hn⟩ := mem_nodes.mp hn
  exact (h.placed i c hc n hn).2

variable {i : Nat} {t' src src' : Table κ ν} {l : List (Node ν)}

theorem chain_eq (hc : t.buckets[i]? = some c) : t.chain i = c := by
  unfold chain
  rw [getD_eq_getElem?_getD, hc]
  rfl

theorem Inv.chain_of_mem (h : t.Inv keyOf) {n : Node ν} (hn : n ∈ t.nodes) :
    t.buckets[t.indexOf n.hash]? = some (t.chain (t.indexOf n.hash)) ∧ n ∈ t.chain (t.indexOf n.hash) := by
  obtain ⟨i, c, hc, hn⟩ := mem_nodes.mp hn
  rw [(h.placed i c hc n hn).1, chain_eq hc]
  exact ⟨hc, hn⟩

theorem Inv.index_same (h : t.Inv keyOf) {a b : Node ν} (ha : a ∈ t.nodes) (hb : b ∈ t.nodes)
    (hab : t.Same keyOf a b) : t.indexOf a.hash = t.indexOf b.hash := by
  rw [h.hash ha, h.hash hb, t.hasher.compat _ _ hab]

theorem Inv.grouped_nodes (h : t.Inv keyOf) : Grouped (t.Same keyOf) t.nodes := by
  have hmem : ∀ c ∈ t.buckets, ∀ n ∈ c, n ∈ t.nodes := fun c hc n hn => mem_flatten.mpr ⟨c, hc, hn⟩
  have hplaced := h.placed
  have hgrouped := h.grouped
  unfold nodes at hmem ⊢
  -- the chains up to one of them
  suffices hpre : ∀ bs l, t.buckets = l ++ bs → Grouped (t.Same keyOf) bs.flatten from hpre t.buckets [] rfl
  intro bs
  induction bs with
  | nil => exact fun _ _ => grouped_nil _
  | cons c bs ih =>
    intro l hl
    rw [flatten_cons]
    have hc : t.buckets[l.length]? = some c := by rw [hl]; simp
    apply Grouped.append (hgrouped c (mem_of_getElem? hc)) (ih (l ++ [c]) (by rw [hl]; simp))
    intro x hx y hy hxy
    obtain ⟨d, hd, hyd⟩ := mem_flatten.mp hy
    obtain ⟨j, hj⟩ := mem_iff_getElem?.mp hd
    have hjd : t.buckets[l.length + 1 + j]? = some d := by
      rw [hl, getElem?_append_right (by omega), show l.length + 1 + j - l.length = j + 1 by omega]
      exact hj
    have hxn := hmem c (mem_of_getElem? hc) x hx
    have hyn := hmem d (mem_of_getElem? hjd) y hyd
    have hidx := h.index_same hxn hyn hxy
    rw [(hplaced _ _ hc x hx).1, (hplaced _ _ hjd y hyd).1] at hidx
    omega

theorem flatten_modify_perm (p q : List (Node ν)) (hc : bs[i]? = some c) (hf : (p ++ f c).Perm (q ++ c)) :
    (p ++ (bs.modify i f).flatten).Perm (q ++ bs.flatten) := by
  induction bs generalizing i with
  | nil => cases hc
  | cons b bs ih =>
    cases i with
    | zero =>
      cases hc
      simpa only [modify_zero_cons, flatten_cons, append_assoc] using hf.append_right bs.flatten
    | succ i =>
      exact (perm_append_comm_assoc ..).trans (((ih hc).append_left b).trans (perm_append_comm_assoc ..))

theorem modify_some {k : Nat} {c' : List (Node ν)}
    (h : (bs.modify k f)[i]? = some c') : ∃ c, bs[i]? = some c ∧ (k = i ∧ c' = f c ∨ k ≠ i ∧ c' = c) := by
  rw [getElem?_modify] at h
  obtain ⟨c, hc, rfl⟩ := map_eq_some_iff.mp h
  by_cases he : k = i
  · exact ⟨c, hc, .inl ⟨he, by simp [he]⟩⟩
  · exact ⟨c, hc, .inr ⟨he, by simp [he]⟩⟩

/-! ## Linking a node -/

/-- A place in a chain for a node: behind nodes with other keys, and in front of the nodes with its key if there are
any. -/
structure Place (r : Node ν → Node ν → Prop) (n : Node ν) (c c' : List (Node ν)) : Prop where
  split : ∃ pre suf, c = pre ++ suf ∧ c' = pre ++ n :: suf ∧ (∀ m ∈ pre, ¬r n m) ∧
    ((∃ s ∈ suf.head?, r n s) ∨ (∀ m ∈ c, ¬r n m) ∧ (pre = [] ∨ suf = []))

theorem Place.perm {c' : List (Node ν)} (h : Place r n c c') : c'.Perm (n :: c) := by
  obtain ⟨pre, suf, rfl, rfl, -⟩ := h.split
  exact perm_middle

theorem Place.grouped (hr : Equivalence r) {n : Node ν} {c c' : List (Node ν)}
    (h : Place r n c c') (hc : Grouped r c) : Grouped r c' := by
  obtain ⟨pre, suf, rfl, rfl, hpre, hsuf⟩ := h.split
  rcases hsuf with ⟨s, hs, hns⟩ | ⟨hnone, rfl | rfl⟩
  · refine hc.insert hr hpre fun s' hs' => ?_
    rw [mem_def] at hs hs'
    rw [hs] at hs'
    cases hs'
    exact hns
  · exact hc.cons hr fun m hm hnm => absurd hnm (hnone m hm)
  · exact hc.insert hr hpre fun s' hs' => by cases hs'

/-- A node that is new is linked at a place for it. -/
theorem Inv.link (h : t.Inv keyOf) (hne : t.buckets ≠ []) {n : Node ν} (hhash : n.hash = t.hasher.hash (keyOf n.value))
    (hid : ∀ m ∈ t.nodes, m.id ≠ n.id) (hdistinct : t.unique = true → ∀ m ∈ t.nodes, ¬t.Same keyOf n m)
    {place : List (Node ν) → List (Node ν)}
    (hplace : ∀ c, t.buckets[t.indexOf n.hash]? = some c → Place (t.Same keyOf) n c (place c)) :
    (t.link place n.hash).Inv keyOf ∧ (t.link place n.hash).nodes.Perm (n :: t.nodes) := by
  have hlt : t.indexOf n.hash < t.buckets.length :=
    slotOf_lt h.sized (fun he => hne (length_eq_zero_iff.mp he)) n.hash
  have hc := getElem?_eq_getElem hlt
  have hperm : (t.link place n.hash).nodes.Perm (n :: t.nodes) := flatten_modify_perm [] [n] hc (hplace _ hc).perm
  have hlen : (t.link place n.hash).buckets.length = t.buckets.length := length_modify ..
  have hindex : ∀ x, (t.link place n.hash).indexOf x = t.indexOf x := fun x => by
    unfold indexOf
    rw [hlen]
  refine ⟨⟨hlen ▸ h.sized, fun i c hi m hm => ?_, fun c hmem => ?_, fun hu => ?_, ?_, ?_⟩, hperm⟩
  · rw [hindex]
    obtain ⟨d, hd, ⟨he, rfl⟩ | ⟨-, rfl⟩⟩ := modify_some hi
    · subst he
      rcases mem_cons.mp ((hplace _ hd).perm.subset hm) with rfl | hm
      · exact ⟨rfl, hhash⟩
      · exact h.placed _ _ hd m hm
    · exact h.placed i _ hd m hm
  · obtain ⟨i, hi⟩ := mem_iff_getElem?.mp hmem
    obtain ⟨d, hd, ⟨he, rfl⟩ | ⟨-, rfl⟩⟩ := modify_some hi
    · subst he
      exact (hplace _ hd).grouped (same_equivalence keyOf t) (h.grouped _ (mem_of_getElem? hd))
    · exact h.grouped _ (mem_of_getElem? hd)
  · have hpair : (n :: t.nodes).Pairwise fun a b => ¬t.Same keyOf a b :=
      pairwise_cons.mpr ⟨hdistinct hu, h.distinct hu⟩
    exact (hperm.pairwise_iff fun hab hba => hab ((same_equivalence keyOf t).symm hba)).mpr hpair
  · refine (hperm.map _).nodup_iff.mpr (nodup_cons.mpr ⟨fun hin => ?_, h.ids⟩)
    obtain ⟨m, hm, hmid⟩ := List.mem_map.mp hin
    exact hid m hm hmid
  · rw [hperm.length_eq, length_cons, ← h.count]
    rfl

/-! ## Taking a node out -/

theorem perm_eraseP {z : Node ν} (hz : z ∈ c) (hids : (c.map (·.id)).Nodup) :
    c.Perm (z :: c.eraseP fun n => n.id == z.id) := by
  obtain ⟨a, l₁, l₂, hnot, ha, hc, herase⟩ := exists_of_eraseP hz (p := fun n : Node ν => n.id == z.id) (by simp)
  have haz : a = z := by
    apply inj_on_of_nodup_map hids _ hz
    · simpa using ha
    · rw [hc]
      simp
  rw [herase, hc, haz]
  exact perm_middle

theorem Inv.chain_ids (h : t.Inv keyOf) {i : Nat} {c : List (Node ν)} (hc : t.buckets[i]? = some c) :
    (c.map (·.id)).Nodup :=
  h.ids.sublist ((sublist_flatten_of_mem (mem_of_getElem? hc)).map _)

theorem Inv.unlink (h : t.Inv keyOf) {z : Node ν} (hz : z ∈ t.nodes) :
    (t.unlink z).Inv keyOf ∧ t.nodes.Perm (z :: (t.unlink z).nodes) := by
  obtain ⟨hc, hin⟩ := h.chain_of_mem hz
  have hperm : t.nodes.Perm (z :: (t.unlink z).nodes) :=
    (flatten_modify_perm [z] [] hc (perm_eraseP hin (h.chain_ids hc)).symm).symm
  have hlen : (t.unlink z).buckets.length = t.buckets.length := length_modify ..
  have hindex : ∀ x, (t.unlink z).indexOf x = t.indexOf x := fun x => by
    unfold indexOf
    rw [hlen]
  have hsub : ∀ (i : Nat) (c' : List (Node ν)), (t.unlink z).buckets[i]? = some c' →
      ∃ c, t.buckets[i]? = some c ∧ c'.Sublist c := by
    intro i c' hi
    obtain ⟨c, hci, ⟨-, rfl⟩ | ⟨-, rfl⟩⟩ := modify_some hi
    · exact ⟨c, hci, eraseP_sublist⟩
    · exact ⟨_, hci, Sublist.refl _⟩
  refine ⟨⟨hlen ▸ h.sized, fun i c' hi m hm => ?_, fun c' hmem => ?_, fun hu => ?_, ?_, ?_⟩, hperm⟩
  · obtain ⟨c, hci, hs⟩ := hsub i c' hi
    rw [hindex]
    exact h.placed i c hci m (hs.subset hm)
  · obtain ⟨i, hi⟩ := mem_iff_getElem?.mp hmem
    obtain ⟨c, hci, hs⟩ := hsub i c' hi
    exact (h.grouped c (mem_of_getElem? hci)).sublist hs
  · have := (hperm.pairwise_iff fun {a b} hab hba => hab ((same_equivalence keyOf t).symm hba)).mp (h.distinct hu)
    exact (pairwise_cons.mp this).2
  · exact (nodup_cons.mp ((hperm.map _).nodup_iff.mp h.ids)).2
  · have hlen := hperm.length_eq
    have hcount := h.count
    rw [length_cons] at hlen
    show t.count - 1 = _
    omega

/-! ## Growing -/

theorem getElem?_relinkLoop (target : Nat) (nodes : List (Node ν)) {bs : List (List (Node ν))} {i : Nat}
    {c : List (Node ν)} (hc : bs[i]? = some c) :
    (nodes.foldl (fun bs n => bs.modify (slotOf target n.hash) (n :: ·)) bs)[i]? =
    some ((nodes.filter fun n => decide (slotOf target n.hash = i)).reverse ++ c) := by
  induction nodes generalizing bs c with
  | nil => simpa using hc
  | cons n nodes ih =>
    rw [foldl_cons]
    by_cases he : slotOf target n.hash = i
    · have hstep : (bs.modify (slotOf target n.hash) (n :: ·))[i]? = some (n :: c) := by
        rw [getElem?_modify, hc]
        simp [he]
      rw [ih hstep, filter_cons_of_pos (by simpa using he)]
      simp
    have hstep : (bs.modify (slotOf target n.hash) (n :: ·))[i]? = some c := by
      rw [getElem?_modify, hc]
      simp [he]
    rw [ih hstep, filter_cons_of_neg (by simpa using he)]

theorem length_relinkLoop (target : Nat) (nodes : List (Node ν)) (bs : List (List (Node ν))) :
    (nodes.foldl (fun bs n => bs.modify (slotOf target n.hash) (n :: ·)) bs).length = bs.length := by
  induction nodes generalizing bs with
  | nil => rfl
  | cons n nodes ih =>
    rw [foldl_cons, ih, length_modify]

theorem flatten_relinkLoop {target : Nat} (hs : Sized target) (hpos : target ≠ 0) (nodes : List (Node ν))
    {bs : List (List (Node ν))} (hlen : bs.length = target) :
    (nodes.foldl (fun bs n => bs.modify (slotOf target n.hash) (n :: ·)) bs).flatten.Perm (nodes ++ bs.flatten) := by
  induction nodes generalizing bs with
  | nil => exact Perm.refl _
  | cons n nodes ih =>
    rw [foldl_cons]
    have hlt : slotOf target n.hash < bs.length := hlen ▸ slotOf_lt hs hpos n.hash
    refine (ih (by rw [length_modify, hlen])).trans ?_
    refine ((flatten_modify_perm [] [n] (getElem?_eq_getElem hlt) (Perm.refl _)).append_left nodes).trans ?_
    exact perm_middle

theorem getElem?_relink {target : Nat} {nodes : List (Node ν)} (hc : (relink target nodes)[i]? = some c) :
    c = (nodes.filter fun n => decide (slotOf target n.hash = i)).reverse := by
  have hi : i < target := by
    have := (List.getElem?_eq_some_iff.mp hc).1
    unfold relink at this
    rwa [length_relinkLoop, length_replicate] at this
  have hempty : (replicate target ([] : List (Node ν)))[i]? = some [] := by simp [hi]
  have := getElem?_relinkLoop target nodes hempty
  unfold relink at hc
  rw [this, append_nil] at hc
  exact (some.inj hc).symm

theorem Inv.relink (h : t.Inv keyOf) {target : Nat} (hs : Sized target) (hpos : target ≠ 0) :
    ({ t with buckets := Table.relink target t.nodes } : Table κ ν).Inv keyOf ∧
      ({ t with buckets := Table.relink target t.nodes } : Table κ ν).nodes.Perm t.nodes := by
  have hlen : (Table.relink target t.nodes).length = target := by
    unfold Table.relink
    rw [length_relinkLoop, length_replicate]
  have hperm : (Table.relink target t.nodes).flatten.Perm t.nodes := by
    have hlen : (replicate target ([] : List (Node ν))).length = target := length_replicate
    have := flatten_relinkLoop hs hpos t.nodes hlen
    simpa [Table.relink] using this
  refine ⟨⟨?_, fun i c hi n hn => ?_, fun c hmem => ?_, fun hu => ?_, ?_, ?_⟩, hperm⟩
  · rw [hlen]
    exact hs
  · rw [getElem?_relink hi, mem_reverse, mem_filter] at hn
    refine ⟨?_, h.hash hn.1⟩
    unfold indexOf
    rw [hlen]
    exact of_decide_eq_true hn.2
  · obtain ⟨i, hi⟩ := mem_iff_getElem?.mp hmem
    rw [getElem?_relink hi]
    exact (h.grouped_nodes.sublist filter_sublist).reverse (same_equivalence keyOf t)
  · exact (hperm.pairwise_iff fun hab hba => hab ((same_equivalence keyOf t).symm hba)).mpr (h.distinct hu)
  · exact (hperm.map _).nodup_iff.mpr h.ids
  · exact h.count.trans hperm.length_eq.symm

/-- A table with other buckets and the same nodes. -/
structure Grown (t t' : Table κ ν) : Prop where
  hasher : t'.hasher = t.hasher
  unique : t'.unique = t.unique
  maxLf : t'.maxLf = t.maxLf
  nodes : t'.nodes.Perm t.nodes

theorem Grown.refl (t : Table κ ν) : t.Grown t := ⟨rfl, rfl, rfl, .refl _⟩

theorem Inv.rehash (h : t.Inv keyOf) {want : Nat} {t' : Table κ ν} (hr : t.rehash want = some t') :
    t'.Inv keyOf ∧ t.Grown t' ∧ t'.buckets ≠ [] := by
  unfold Table.rehash at hr
  split at hr
  · cases hr
  rename_i target htarget
  obtain ⟨hs, hpos⟩ := roundBuckets_sized htarget
  split at hr
  · rename_i hsame
    cases hr
    refine ⟨h, .refl t, fun he => hpos ?_⟩
    rw [hsame, he]
    rfl
  cases hr
  obtain ⟨hinv, hperm⟩ := h.relink hs hpos
  refine ⟨hinv, ⟨rfl, rfl, rfl, hperm⟩, fun he => hpos ?_⟩
  have hlen : (Table.relink target t.nodes).length = target := by
    unfold Table.relink
    rw [length_relinkLoop, length_replicate]
  have hzero : Table.relink target t.nodes = [] := he
  rw [← hlen, hzero]
  rfl

theorem Inv.maybeGrow (h : t.Inv keyOf) {t' : Table κ ν} (hg : t.maybeGrow = some t') :
    t'.Inv keyOf ∧ t.Grown t' ∧ t'.buckets ≠ [] := by
  unfold Table.maybeGrow at hg
  split at hg
  · rename_i hempty
    have hnil : t.buckets = [] := List.isEmpty_iff.mp hempty
    cases hg
    have hnodes : t.nodes = [] := by
      unfold nodes
      rw [hnil]
      rfl
    have hcount : t.count = 0 := by
      rw [h.count, hnodes]
      rfl
    refine ⟨inv_of_nil (.inr ⟨3, rfl⟩) rfl hcount, ⟨rfl, rfl, rfl, ?_⟩, nofun⟩
    rw [hnodes]
    exact .refl _
  · rename_i hne
    have hne : t.buckets ≠ [] := fun he => hne (by rw [he]; rfl)
    split at hg
    · exact h.rehash hg
    · cases hg
      exact ⟨h, .refl t, hne⟩

/-! ## Inserting -/

theorem Inv.hits_iff (h : t.Inv keyOf) (key : κ) {n : Node ν} (hn : n ∈ t.nodes) :
    t.hits keyOf (t.hasher.hash key) key n = true ↔ t.hasKey keyOf key n = true := by
  unfold hits
  rw [Bool.and_eq_true, beq_iff_eq]
  refine ⟨And.right, fun hk => ⟨?_, hk⟩⟩
  rw [h.hash hn]
  exact t.hasher.compat _ _ hk

theorem Inv.present_iff (h : t.Inv keyOf) (key : κ) :
    t.present keyOf (t.hasher.hash key) key = true ↔ ∃ m ∈ t.nodes, t.hasKey keyOf key m = true := by
  unfold present
  rw [Bool.and_eq_true, List.any_eq_true]
  constructor
  · rintro ⟨-, m, hm, hhit⟩
    have hnode : m ∈ t.nodes := by
      unfold chain at hm
      rw [getD_eq_getElem?_getD] at hm
      cases hc : t.buckets[t.indexOf (t.hasher.hash key)]? with
      | none =>
        rw [hc] at hm
        cases hm
      | some c =>
        rw [hc] at hm
        exact mem_nodes.mpr ⟨_, c, hc, hm⟩
    exact ⟨m, hnode, (h.hits_iff key hnode).mp hhit⟩
  · rintro ⟨m, hm, hk⟩
    have hhit := (h.hits_iff key hm).mpr hk
    obtain ⟨hc, hin⟩ := h.chain_of_mem hm
    have hhash : m.hash = t.hasher.hash key := by
      rw [h.hash hm]
      exact t.hasher.compat _ _ hk
    refine ⟨?_, m, hhash ▸ hin, hhit⟩
    cases hb : t.buckets with
    | nil =>
      rw [hb] at hc
      simp at hc
    | cons c cs => rfl

/-- A node as it is linked. -/
def rehashed (keyOf : ν → κ) (t : Table κ ν) (n : Node ν) : Node ν := { n with hash := t.hasher.hash (keyOf n.value) }

theorem Grown.same (h : t.Grown t') : t'.Same keyOf = t.Same keyOf := by
  unfold Same
  rw [h.hasher]

theorem place_front (h : ∀ m ∈ c, ¬r n m) :
    Place r n c (n :: c) := ⟨[], c, rfl, rfl, nofun, .inr ⟨h, .inl rfl⟩⟩

theorem Inv.place_beforeGroup (h : t.Inv keyOf) (n : Node ν) {c : List (Node ν)} (hc : ∀ m ∈ c, m ∈ t.nodes) :
    Place (t.Same keyOf) (t.rehashed keyOf n) c (t.beforeGroup keyOf (t.hasher.hash (keyOf n.value)) n c) := by
  have hsame : ∀ m ∈ c, (t.Same keyOf (t.rehashed keyOf n) m ↔
      t.hits keyOf (t.hasher.hash (keyOf n.value)) (keyOf n.value) m = true) := fun _ hm => by
    rw [h.hits_iff _ (hc _ hm)]
    exact ⟨fun hs => t.hasher.equiv.symm hs, fun hs => t.hasher.equiv.symm hs⟩
  unfold beforeGroup
  generalize hq : (fun e => !t.hits keyOf (t.hasher.hash (keyOf n.value)) (keyOf n.value) e) = q
  have hnot : ∀ m, q m = true ↔ ¬t.hits keyOf (t.hasher.hash (keyOf n.value)) (keyOf n.value) m = true := fun m => by
    rw [← hq]
    simp
  have hpre : ∀ m ∈ c.takeWhile q, ¬t.Same keyOf (t.rehashed keyOf n) m := fun m hm hs =>
    (hnot m).mp (mem_takeWhile_imp hm) ((hsame m ((takeWhile_sublist q).subset hm)).mp hs)
  refine ⟨c.takeWhile q, c.dropWhile q, (takeWhile_append_dropWhile).symm, rfl, hpre, ?_⟩
  cases hd : c.dropWhile q with
  | nil =>
    have hall : c.takeWhile q = c := by
      have := takeWhile_append_dropWhile (p := q) (l := c)
      rwa [hd, append_nil] at this
    exact .inr ⟨hall ▸ hpre, .inr rfl⟩
  | cons s suf =>
    refine .inl ⟨s, rfl, ?_⟩
    have hs : ¬q s = true := by
      have := head_dropWhile_not q (l := c) (by rw [hd]; exact cons_ne_nil _ _)
      simp only [hd, head_cons] at this
      simp [this]
    have hin : s ∈ c := (dropWhile_sublist q).subset (by rw [hd]; exact mem_cons_self)
    exact (hsame s hin).mpr (not_not.mp fun hnh => hs ((hnot s).mpr hnh))

/-- What an insertion does: the other nodes stay. -/
structure Linked (keyOf : ν → κ) (t t' : Table κ ν) (n : Node ν) : Prop where
  inv : t'.Inv keyOf
  hasher : t'.hasher = t.hasher
  unique : t'.unique = t.unique
  maxLf : t'.maxLf = t.maxLf
  nodes : t'.nodes.Perm (t.rehashed keyOf n :: t.nodes)

theorem Inv.link_grown (h : t.Inv keyOf) {g : Table κ ν} (hg : t.maybeGrow = some g) {n : Node ν}
    (hid : ∀ m ∈ t.nodes, m.id ≠ n.id)
    (hdistinct : t.unique = true → ∀ m ∈ t.nodes, ¬t.hasKey keyOf (keyOf n.value) m = true)
    {place : List (Node ν) → List (Node ν)}
    (hplace : ∀ c, (∀ m ∈ c, m ∈ g.nodes) → Place (g.Same keyOf) (g.rehashed keyOf n) c (place c)) :
    Linked keyOf t (g.link place (t.hasher.hash (keyOf n.value))) n := by
  obtain ⟨hinv, hgrown, hne⟩ := h.maybeGrow hg
  have hsame : g.rehashed keyOf n = t.rehashed keyOf n := by
    unfold rehashed
    rw [hgrown.hasher]
  have hlink := hinv.link hne (n := g.rehashed keyOf n) rfl (fun m hm => hid m (hgrown.nodes.subset hm))
    (fun hu m hm hs => by
      rw [hgrown.same] at hs
      exact hdistinct (hgrown.unique ▸ hu) m (hgrown.nodes.subset hm) (t.hasher.equiv.symm hs))
    (fun c hc => hplace c fun m hm => mem_nodes.mpr ⟨_, c, hc, hm⟩)
  have hhash : (g.rehashed keyOf n).hash = t.hasher.hash (keyOf n.value) := by
    rw [hsame]
    rfl
  rw [hhash] at hlink
  refine ⟨hlink.1, hgrown.hasher, hgrown.unique, hgrown.maxLf, hlink.2.trans ?_⟩
  rw [hsame]
  exact hgrown.nodes.cons _

theorem Inv.link_front (h : t.Inv keyOf) {g : Table κ ν} (hg : t.maybeGrow = some g) {n : Node ν}
    (hid : ∀ m ∈ t.nodes, m.id ≠ n.id) (hnone : ∀ m ∈ t.nodes, ¬t.hasKey keyOf (keyOf n.value) m = true) :
    Linked keyOf t (g.link (t.rehashed keyOf n :: ·) (t.hasher.hash (keyOf n.value))) n := by
  obtain ⟨-, hgrown, -⟩ := h.maybeGrow hg
  have hnew : t.rehashed keyOf n = g.rehashed keyOf n := by
    unfold rehashed
    rw [hgrown.hasher]
  refine h.link_grown hg hid (fun _ => hnone) fun c hc => ?_
  rw [hnew]
  apply place_front
  intro m hm hs
  rw [hgrown.same] at hs
  exact hnone m (hgrown.nodes.subset (hc m hm)) (t.hasher.equiv.symm hs)

theorem Inv.link_group (h : t.Inv keyOf) {g : Table κ ν} (hg : t.maybeGrow = some g) {n : Node ν}
    (hid : ∀ m ∈ t.nodes, m.id ≠ n.id)
    (hdistinct : t.unique = true → ∀ m ∈ t.nodes, ¬t.hasKey keyOf (keyOf n.value) m = true) :
    Linked keyOf t (g.link (g.beforeGroup keyOf (t.hasher.hash (keyOf n.value)) n) (t.hasher.hash (keyOf n.value)))
      n := by
  obtain ⟨hinv, hgrown, -⟩ := h.maybeGrow hg
  refine h.link_grown hg hid hdistinct fun c hc => ?_
  have := hinv.place_beforeGroup n hc
  rwa [hgrown.hasher] at this

/-- `ReinsertUnique` links the node exactly when no node has its key. -/
theorem Inv.reinsertUnique (h : t.Inv keyOf) {n : Node ν} (hid : ∀ m ∈ t.nodes, m.id ≠ n.id) {t' : Table κ ν} {b : Bool}
    (hr : t.reinsertUnique keyOf n = some (t', b)) :
    (b = true ↔ ∀ m ∈ t.nodes, ¬t.hasKey keyOf (keyOf n.value) m = true) ∧ (b = false → t' = t) ∧
    (b = true → Linked keyOf t t' n) := by
  unfold Table.reinsertUnique at hr
  simp only at hr
  have hpresent := h.present_iff (keyOf n.value)
  split at hr
  · rename_i hp
    cases hr
    obtain ⟨m, hm, hk⟩ := hpresent.mp hp
    exact ⟨⟨nofun, fun hall => absurd hk (hall m hm)⟩, fun _ => rfl, nofun⟩
  rename_i hp
  obtain ⟨g, hg, heq⟩ := map_eq_some_iff.mp hr
  cases heq
  have hnone : ∀ m ∈ t.nodes, ¬t.hasKey keyOf (keyOf n.value) m = true := fun m hm hk => hp (hpresent.mpr ⟨m, hm, hk⟩)
  exact ⟨⟨fun _ => hnone, fun _ => rfl⟩, nofun, fun _ => h.link_front hg hid hnone⟩

theorem Inv.reinsertMulti (h : t.Inv keyOf) {n : Node ν} (hid : ∀ m ∈ t.nodes, m.id ≠ n.id)
    (hdistinct : t.unique = true → ∀ m ∈ t.nodes, ¬t.hasKey keyOf (keyOf n.value) m = true) {t' : Table κ ν}
    (hr : t.reinsertMulti keyOf n = some t') : Linked keyOf t t' n := by
  unfold Table.reinsertMulti at hr
  obtain ⟨g, hg, rfl⟩ := map_eq_some_iff.mp hr
  exact h.link_group hg hid hdistinct

/-! ## Iterators -/

/-- An iterator, and the nodes from it on. -/
def Ahead (t : Table κ ν) (c : Cursor ν) (l : List (Node ν)) : Prop :=
  c = [] ∧ l = [] ∨
    c ≠ [] ∧ ∃ i pre, t.buckets[i]? = some (pre ++ c) ∧ l = c ++ (t.buckets.drop (i + 1)).flatten

theorem Ahead.mem {c : Cursor ν} (h : t.Ahead c l) {n : Node ν} (hn : n ∈ l) : n ∈ t.nodes := by
  rcases h with ⟨-, rfl⟩ | ⟨-, i, pre, hc, rfl⟩
  · cases hn
  rcases mem_append.mp hn with hn | hn
  · exact mem_nodes.mpr ⟨i, _, hc, mem_append_right pre hn⟩
  · obtain ⟨d, hd, hn⟩ := mem_flatten.mp hn
    exact mem_flatten.mpr ⟨d, mem_of_mem_drop hd, hn⟩

theorem ahead_nextBucketHead (t : Table κ ν) (i : Nat) : t.Ahead (t.nextBucketHead i) (t.buckets.drop i).flatten := by
  suffices hall : ∀ l j, t.buckets.drop j = l →
      t.Ahead ((l.find? fun c => !c.isEmpty).getD []) l.flatten from hall _ i rfl
  intro l
  induction l with
  | nil => exact fun _ _ => .inl ⟨rfl, rfl⟩
  | cons c l ih =>
    intro j hj
    have hc : t.buckets[j]? = some c := by
      have : (t.buckets.drop j)[0]? = t.buckets[j + 0]? := getElem?_drop
      rw [hj] at this
      simpa using this.symm
    have hrest : t.buckets.drop (j + 1) = l := by
      rw [← drop_drop, hj]
      rfl
    cases c with
    | nil =>
      rw [find?_cons_of_neg (by simp)]
      exact ih (j + 1) hrest
    | cons n rest =>
      rw [find?_cons_of_pos (by simp)]
      refine .inr ⟨cons_ne_nil n rest, j, [], hc, ?_⟩
      rw [hrest]
      rfl

theorem ahead_first (t : Table κ ν) : t.Ahead t.first t.nodes := ahead_nextBucketHead t 0

theorem Inv.ahead_advance (h : t.Inv keyOf) {n : Node ν} {rest : List (Node ν)} {l : List (Node ν)}
    (ha : t.Ahead (n :: rest) l) : ∃ l', l = n :: l' ∧ t.Ahead (t.advance (n :: rest)) l' := by
  rcases ha with ⟨hnil, -⟩ | ⟨-, i, pre, hc, rfl⟩
  · cases hnil
  refine ⟨rest ++ (t.buckets.drop (i + 1)).flatten, rfl, ?_⟩
  have hidx := (h.placed i _ hc n (by simp)).1
  cases rest with
  | nil =>
    show t.Ahead (t.nextBucketHead (t.indexOf n.hash + 1)) _
    rw [hidx]
    exact ahead_nextBucketHead t (i + 1)
  | cons m rest =>
    show t.Ahead (m :: rest) _
    refine .inr ⟨cons_ne_nil m rest, i, pre ++ [n], ?_, rfl⟩
    rw [hc]
    simp

theorem Ahead.eq_nil {c : Cursor ν} (h : t.Ahead c []) : c = [] := by
  rcases h with ⟨hc, -⟩ | ⟨hne, i, pre, -, heq⟩
  · exact hc
  · exact absurd (append_eq_nil_iff.mp heq.symm).1 hne

theorem Ahead.cons {c : Cursor ν} (h : t.Ahead c (n :: l)) : ∃ rest, c = n :: rest := by
  rcases h with ⟨-, hnil⟩ | ⟨hne, i, pre, -, heq⟩
  · cases hnil
  cases c with
  | nil => exact absurd rfl hne
  | cons m rest =>
    cases heq
    exact ⟨rest, rfl⟩

theorem Inv.ahead_step (h : t.Inv keyOf) {c : Cursor ν} (ha : t.Ahead c (n :: l)) {fuel : Nat}
    (hfuel : (n :: l).length ≤ fuel) :
    ∃ k rest, fuel = k + 1 ∧ l.length ≤ k ∧ c = n :: rest ∧ t.Ahead (t.advance (n :: rest)) l := by
  obtain ⟨rest, rfl⟩ := ha.cons
  obtain ⟨l', heq, ha'⟩ := h.ahead_advance ha
  cases heq
  rw [length_cons] at hfuel
  exact ⟨fuel - 1, rest, by omega, by omega, rfl, ha'⟩

theorem Inv.walkWhile (h : t.Inv keyOf) (q : Node ν → Bool) {fuel : Nat} {c : Cursor ν} {l : List (Node ν)}
    (ha : t.Ahead c l) (hfuel : l.length ≤ fuel) : (t.walkWhile q fuel c).1 = l.takeWhile q ∧
      t.Ahead (t.walkWhile q fuel c).2 (l.dropWhile q) := by
  induction l generalizing c fuel with
  | nil =>
    rw [ha.eq_nil]
    cases fuel <;> exact ⟨rfl, .inl ⟨rfl, rfl⟩⟩
  | cons n l ih =>
    obtain ⟨fuel, rest, rfl, hlen, rfl, ha'⟩ := h.ahead_step ha hfuel
    unfold Table.walkWhile
    cases hq : q n with
    | true =>
      have := ih ha' hlen
      rw [takeWhile_cons_of_pos hq, dropWhile_cons_of_pos hq]
      exact ⟨congrArg _ this.1, this.2⟩
    | false =>
      rw [takeWhile_cons_of_neg (by simp [hq]), dropWhile_cons_of_neg (by simp [hq])]
      exact ⟨rfl, ha⟩

theorem Inv.walk_all (h : t.Inv keyOf) {fuel : Nat} (hfuel : t.count ≤ fuel) :
    t.walkWhile (fun _ => true) fuel t.first = (t.nodes, []) := by
  obtain ⟨hnodes, hend⟩ := h.walkWhile (fun _ => true) (ahead_first t) (h.count.ge.trans hfuel)
  rw [takeWhile_eq_self_iff.mpr fun _ _ => rfl] at hnodes
  rw [dropWhile_eq_nil_iff.mpr fun _ _ => rfl] at hend
  exact Prod.ext hnodes hend.eq_nil

theorem Inv.visited (h : t.Inv keyOf) : t.visited = t.nodes := congrArg Prod.fst (h.walk_all le_rfl)

/-! ## Looking up a key -/

theorem Inv.not_hasKey (h : t.Inv keyOf) {key : κ} {j : Nat} {c : List (Node ν)} (hc : t.buckets[j]? = some c)
    (hj : j ≠ t.indexOf (t.hasher.hash key)) {n : Node ν} (hn : n ∈ c) : t.hasKey keyOf key n = false := by
  by_contra hk
  have hk : t.hasher.eq (keyOf n.value) key = true := by simpa [hasKey] using hk
  obtain ⟨hidx, hhash⟩ := h.placed j c hc n hn
  rw [hhash, t.hasher.compat _ _ hk] at hidx
  exact hj hidx.symm

theorem nodes_split (hc : t.buckets[i]? = some c) :
    t.nodes = (t.buckets.take i).flatten ++ (c ++ (t.buckets.drop (i + 1)).flatten) := by
  obtain ⟨hlt, hget⟩ := List.getElem?_eq_some_iff.mp hc
  unfold nodes
  conv => lhs; rw [← take_append_drop i t.buckets, drop_eq_getElem_cons hlt]
  rw [flatten_append, flatten_cons, hget]

theorem Inv.filter_eq_nil (h : t.Inv keyOf) (key : κ) {l : List (List (Node ν))}
    (hl : ∀ c ∈ l, ∃ (j : Nat), t.buckets[j]? = some c ∧ j ≠ t.indexOf (t.hasher.hash key)) :
    l.flatten.filter (t.hasKey keyOf key) = [] := by
  apply filter_eq_nil_iff.mpr
  intro n hn
  obtain ⟨c, hc, hn⟩ := mem_flatten.mp hn
  obtain ⟨j, hj, hne⟩ := hl c hc
  rw [h.not_hasKey hj hne hn]
  exact Bool.false_ne_true

theorem Inv.filter_chain (h : t.Inv keyOf) (key : κ) {c : List (Node ν)}
    (hc : t.buckets[t.indexOf (t.hasher.hash key)]? = some c) :
    t.nodes.filter (t.hasKey keyOf key) = c.filter (t.hasKey keyOf key) ∧
    (t.buckets.drop (t.indexOf (t.hasher.hash key) + 1)).flatten.filter (t.hasKey keyOf key) = [] := by
  have hbefore := h.filter_eq_nil key (l := t.buckets.take (t.indexOf (t.hasher.hash key))) fun d hd => by
    obtain ⟨j, hj⟩ := mem_iff_getElem?.mp hd
    obtain ⟨hlt, -⟩ := List.getElem?_eq_some_iff.mp hj
    rw [length_take] at hlt
    rw [getElem?_take_of_lt (by omega)] at hj
    exact ⟨j, hj, by omega⟩
  have hafter := h.filter_eq_nil key (l := t.buckets.drop (t.indexOf (t.hasher.hash key) + 1)) fun d hd => by
    obtain ⟨j, hj⟩ := mem_iff_getElem?.mp hd
    rw [getElem?_drop] at hj
    exact ⟨_, hj, by omega⟩
  refine ⟨?_, hafter⟩
  rw [nodes_split hc, filter_append, filter_append, hbefore, hafter]
  simp

/-- Where `Find` stops: behind nodes with other keys, at the first with the key. -/
theorem Inv.find_split (h : t.Inv keyOf) (key : κ) (hne : t.nodes ≠ []) :
    ∃ c pre, t.buckets[t.indexOf (t.hasher.hash key)]? = some c ∧ c = pre ++ t.find keyOf key ∧
      (∀ n ∈ pre, t.hasKey keyOf key n = false) ∧ ∀ n ∈ (t.find keyOf key).head?, t.hasKey keyOf key n = true := by
  have hcount : t.count ≠ 0 := by
    rw [h.count]
    exact fun hz => hne (length_eq_zero_iff.mp hz)
  have hbuckets : t.buckets.length ≠ 0 := fun hz => hne (by
    unfold nodes
    rw [length_eq_zero_iff.mp hz]
    rfl)
  have hlt : t.indexOf (t.hasher.hash key) < t.buckets.length := slotOf_lt h.sized hbuckets _
  have hc := getElem?_eq_getElem hlt
  have hmem : ∀ n ∈ t.buckets[t.indexOf (t.hasher.hash key)], n ∈ t.nodes := fun n hn => mem_nodes.mpr ⟨_, _, hc, hn⟩
  unfold find
  rw [if_neg hcount, chain_eq hc]
  generalize hq : (fun n => !t.hits keyOf (t.hasher.hash key) key n) = q
  have hkey : ∀ n ∈ t.nodes, q n = !t.hasKey keyOf key n := fun n hn => by
    rw [← hq]
    simp only
    rw [Bool.eq_iff_iff.mpr (h.hits_iff key hn)]
  refine ⟨_, (t.buckets[t.indexOf (t.hasher.hash key)]).takeWhile q, hc, takeWhile_append_dropWhile.symm,
    fun n hn => ?_, fun n hn => ?_⟩
  · have := mem_takeWhile_imp hn
    rw [hkey n (hmem n ((takeWhile_subset q) hn))] at this
    simpa using this
  · have hmemDrop := mem_of_mem_head? hn
    have hnot := head?_dropWhile_not q t.buckets[t.indexOf (t.hasher.hash key)]
    rw [mem_def] at hn
    rw [hn] at hnot
    have hval : q n = false := by simpa using hnot
    rw [hkey n (hmem n ((dropWhile_subset q) hmemDrop))] at hval
    simpa using hval

/-- The nodes from `Find` on begin with the nodes of the key. -/
theorem Inv.find_spec (h : t.Inv keyOf) (key : κ) : ∃ l, t.Ahead (t.find keyOf key) l ∧ l.length ≤ t.count ∧
    l.takeWhile (t.hasKey keyOf key) = t.nodes.filter (t.hasKey keyOf key) ∧
    (t.find keyOf key = [] ↔ ∀ n ∈ t.nodes, t.hasKey keyOf key n = false) := by
  by_cases hne : t.nodes = []
  · have hfind : t.find keyOf key = [] := by
      unfold find
      rw [h.count, hne]
      rfl
    rw [hfind, hne]
    exact ⟨[], .inl ⟨rfl, rfl⟩, Nat.zero_le _, rfl, nofun, fun _ => rfl⟩
  obtain ⟨c, pre, hc, hsplit, hpre, hhead⟩ := h.find_split key hne
  obtain ⟨hall, hafter⟩ := h.filter_chain key hc
  have hnone : pre.filter (t.hasKey keyOf key) = [] :=
    filter_eq_nil_iff.mpr fun n hn => by rw [hpre n hn]; exact Bool.false_ne_true
  rw [hsplit, filter_append, hnone, nil_append] at hall
  -- the nodes of the key are a group of the chain
  have hgroup : (t.find keyOf key).filter (t.hasKey keyOf key) = (t.find keyOf key).takeWhile (t.hasKey keyOf key) := by
    refine filter_eq_takeWhile (r := t.Same keyOf) ?_ (fun x _ y _ hx => ?_) hhead
    · exact (h.grouped c (mem_of_getElem? hc)).sublist (by rw [hsplit]; exact sublist_append_right _ _)
    · exact ⟨fun hxy => t.hasher.equiv.trans (t.hasher.equiv.symm hxy) hx,
        fun hy => t.hasher.equiv.trans hx (t.hasher.equiv.symm hy)⟩
  rw [hall, hgroup]
  cases hfind : t.find keyOf key with
  | nil =>
    refine ⟨[], .inl ⟨rfl, rfl⟩, Nat.zero_le _, rfl, fun _ n hn => ?_, fun _ => rfl⟩
    rw [hfind] at hall
    simpa using filter_eq_nil_iff.mp hall n hn
  | cons s suf =>
    rw [hfind] at hsplit hhead hall
    refine ⟨s :: suf ++ (t.buckets.drop (t.indexOf (t.hasher.hash key) + 1)).flatten,
      .inr ⟨cons_ne_nil s suf, _, pre, by rw [hc, hsplit], rfl⟩, ?_, ?_, ?_⟩
    · rw [h.count, nodes_split hc, hsplit]
      simp only [length_append]
      omega
    · rw [takeWhile_append]
      split
      · rename_i hlen
        have hrest :
          ((t.buckets.drop (t.indexOf (t.hasher.hash key) + 1)).flatten).takeWhile (t.hasKey keyOf key) = [] :=
          eq_nil_of_subset_nil (hafter ▸ fun n hn => mem_filter.mpr
            ⟨(takeWhile_subset _) hn, mem_takeWhile_imp hn⟩)
        rw [hrest, append_nil]
        exact ((List.takeWhile_prefix _).eq_of_length hlen).symm
      · rfl
    · refine ⟨nofun, fun hno => ?_⟩
      have hin : s ∈ t.nodes := mem_nodes.mpr ⟨_, c, hc, by rw [hsplit]; simp⟩
      have := hhead s rfl
      rw [hno s hin] at this
      cases this

theorem Inv.countKey (h : t.Inv keyOf) (key : κ) : t.countKey keyOf key = t.nodes.countP (t.hasKey keyOf key) := by
  obtain ⟨l, ha, hlen, htake, -⟩ := h.find_spec key
  unfold Table.countKey
  rw [(h.walkWhile _ ha hlen).1, htake, countP_eq_length_filter]

/-- What lies between an iterator and the one at which a loop with a test stops. -/
theorem Inv.walkTo (h : t.Inv keyOf) (q : Node ν → Bool) {last : Cursor ν} {fuel : Nat} {c : Cursor ν}
    {l : List (Node ν)} (ha : t.Ahead c l) (hlast : t.Ahead last (l.dropWhile q)) (hids : (l.map (·.id)).Nodup)
    (hfuel : l.length ≤ fuel) : t.walkTo last fuel c = l.takeWhile q := by
  induction l generalizing c fuel with
  | nil =>
    rw [ha.eq_nil]
    cases fuel <;> rfl
  | cons n l ih =>
    obtain ⟨fuel, rest, rfl, hlen, rfl, ha'⟩ := h.ahead_step ha hfuel
    unfold Table.walkTo
    cases hq : q n with
    | true =>
      rw [dropWhile_cons_of_pos hq] at hlast
      rw [map_cons, nodup_cons] at hids
      have hne : ¬last.head?.map (·.id) = some n.id := by
        intro he
        obtain ⟨m, hm, hid⟩ := map_eq_some_iff.mp he
        have hin : m ∈ l := by
          cases hd : l.dropWhile q with
          | nil =>
            rw [hd] at hlast
            rw [hlast.eq_nil] at hm
            cases hm
          | cons a as =>
            rw [hd] at hlast
            obtain ⟨rest', rfl⟩ := hlast.cons
            cases hm
            exact (dropWhile_subset q) (by rw [hd]; exact mem_cons_self)
        exact hids.1 (List.mem_map.mpr ⟨m, hin, hid⟩)
      rw [if_neg hne, takeWhile_cons_of_pos hq, ih ha' hlast hids.2 hlen]
    | false =>
      rw [dropWhile_cons_of_neg (by simp [hq])] at hlast
      obtain ⟨rest', rfl⟩ := hlast.cons
      rw [takeWhile_cons_of_neg (by simp [hq])]
      exact if_pos rfl

theorem Inv.equalRange (h : t.Inv keyOf) (key : κ) {fuel : Nat} (hfuel : t.count ≤ fuel) :
    t.walkTo (t.equalRange keyOf key).2 fuel (t.equalRange keyOf key).1 = t.nodes.filter (t.hasKey keyOf key) := by
  obtain ⟨l, ha, hlen, htake, -⟩ := h.find_spec key
  have hids : (l.map (·.id)).Nodup := by
    rcases ha with ⟨-, rfl⟩ | ⟨-, i, pre, hc, rfl⟩
    · exact .nil
    · refine h.ids.sublist ?_
      rw [nodes_split hc, append_assoc pre]
      exact ((sublist_append_right pre _).trans (sublist_append_right _ _)).map _
  unfold Table.equalRange
  rw [h.walkTo _ ha (h.walkWhile _ ha hlen).2 hids (hlen.trans hfuel), htake]

/-! ## Erasing -/

theorem Inv.ahead_unlink (h : t.Inv keyOf) {n : Node ν} {rest l : List (Node ν)} (ha : t.Ahead (n :: rest) (n :: l)) :
    (t.unlink n).Ahead (t.advance (n :: rest)) l := by
  rcases ha with ⟨hnil, -⟩ | ⟨-, i, pre, hc, heq⟩
  · cases hnil
  have hl : l = rest ++ (t.buckets.drop (i + 1)).flatten := (List.cons.inj heq).2
  have hidx := (h.placed i _ hc n (by simp)).1
  have hids := h.chain_ids hc
  rw [map_append, map_cons, nodup_append] at hids
  have herase : (pre ++ n :: rest).eraseP (fun m => m.id == n.id) = pre ++ rest := by
    rw [eraseP_append_right, eraseP_cons_of_pos (by simp)]
    intro m hm
    have := hids.2.2 m.id (List.mem_map.mpr ⟨m, hm, rfl⟩) n.id mem_cons_self
    simpa using this
  have hdrop : (t.unlink n).buckets.drop (i + 1) = t.buckets.drop (i + 1) := by
    show (t.buckets.modify (t.indexOf n.hash) _).drop (i + 1) = _
    rw [hidx, drop_modify_of_lt]
    exact Nat.lt_succ_self i
  have hchain : (t.unlink n).buckets[i]? = some (pre ++ rest) := by
    show (t.buckets.modify (t.indexOf n.hash) _)[i]? = _
    rw [hidx, getElem?_modify, hc]
    simp [herase]
  rw [hl]
  cases rest with
  | nil =>
    have hnext : t.advance [n] = (t.unlink n).nextBucketHead (i + 1) := by
      show t.nextBucketHead (t.indexOf n.hash + 1) = _
      unfold nextBucketHead
      rw [hidx, hdrop]
    rw [hnext, nil_append, ← hdrop]
    exact ahead_nextBucketHead _ _
  | cons m rest =>
    refine .inr ⟨cons_ne_nil m rest, i, pre, hchain, ?_⟩
    rw [hdrop]
    rfl

/-- The loop of `EraseKey` takes out the nodes up to the first with another key. -/
theorem Inv.eraseKeyLoop_spec (h : t.Inv keyOf) (key : κ) {fuel : Nat} {c : Cursor ν} {l : List (Node ν)}
    (ha : t.Ahead c l) (hfuel : l.length ≤ fuel) (removed : Nat) :
    (eraseKeyLoop keyOf key fuel t c removed).1.Inv keyOf ∧
    t.nodes.Perm (l.takeWhile (t.hasKey keyOf key) ++ (eraseKeyLoop keyOf key fuel t c removed).1.nodes) ∧
    (eraseKeyLoop keyOf key fuel t c removed).2 = removed + (l.takeWhile (t.hasKey keyOf key)).length ∧
    (eraseKeyLoop keyOf key fuel t c removed).1.hasher = t.hasher ∧
    (eraseKeyLoop keyOf key fuel t c removed).1.unique = t.unique := by
  induction l generalizing t c fuel removed with
  | nil =>
    rw [ha.eq_nil]
    cases fuel <;> exact ⟨h, .refl _, rfl, rfl, rfl⟩
  | cons n l ih =>
    obtain ⟨fuel, rest, rfl, hlen, rfl, -⟩ := h.ahead_step ha hfuel
    unfold eraseKeyLoop
    cases hq : t.hasKey keyOf key n with
    | true =>
      simp only [if_true, erase]
      obtain ⟨hinv, hperm⟩ := h.unlink (ha.mem mem_cons_self)
      obtain ⟨h1, h2, h3, h4, h5⟩ := ih hinv (h.ahead_unlink ha) hlen (removed + 1)
      rw [takeWhile_cons_of_pos hq]
      refine ⟨h1, hperm.trans (h2.cons n), ?_, h4, h5⟩
      rw [h3, length_cons]
      have hsame : (t.unlink n).hasKey keyOf key = t.hasKey keyOf key := rfl
      rw [hsame]
      omega
    | false =>
      simp only [Bool.false_eq_true, if_false]
      rw [takeWhile_cons_of_neg (by simp [hq])]
      exact ⟨h, .refl _, rfl, trivial, trivial⟩

theorem Inv.eraseKey (h : t.Inv keyOf) (key : κ) : (t.eraseKey keyOf key).1.Inv keyOf ∧
    (t.eraseKey keyOf key).1.nodes.Perm (t.nodes.filter fun n => !t.hasKey keyOf key n) ∧
    (t.eraseKey keyOf key).2 = t.nodes.countP (t.hasKey keyOf key) ∧ (t.eraseKey keyOf key).1.hasher = t.hasher ∧
    (t.eraseKey keyOf key).1.unique = t.unique := by
  obtain ⟨l, ha, hlen, htake, -⟩ := h.find_spec key
  obtain ⟨h1, h2, h3, h4, h5⟩ := h.eraseKeyLoop_spec key ha hlen 0
  rw [htake] at h2 h3
  refine ⟨h1, ?_, ?_, h4, h5⟩
  · have hboth := (filter_append_perm (t.hasKey keyOf key) t.nodes).trans h2
    exact ((perm_append_left_iff _).mp hboth).symm
  · rw [countP_eq_length_filter]
    exact h3.trans (Nat.zero_add _)

theorem nodes_clear (t : Table κ ν) : t.clear.nodes = [] := by
  unfold nodes Table.clear
  simp

theorem Inv.clear (h : t.Inv keyOf) : t.clear.Inv keyOf := by
  refine inv_of_nil ?_ (nodes_clear t) rfl
  unfold Table.clear
  rw [length_map]
  exact h.sized

/-! ## Merging and copying -/

/-- No node of one table is a node of the other. -/
def Apart (t src : Table κ ν) : Prop := ∀ m ∈ t.nodes, ∀ n ∈ src.nodes, m.id ≠ n.id

/-- What merging does: some nodes go from the source to the target. -/
structure Merged (keyOf : ν → κ) (t src t' src' : Table κ ν) (moved : List (Node ν)) : Prop where
  inv : t'.Inv keyOf
  srcInv : src'.Inv keyOf
  hasher : t'.hasher = t.hasher
  unique : t'.unique = t.unique
  srcHasher : src'.hasher = src.hasher
  srcUnique : src'.unique = src.unique
  nodes : t'.nodes.Perm (moved.map (t.rehashed keyOf) ++ t.nodes)
  srcNodes : src.nodes.Perm (moved ++ src'.nodes)

theorem Merged.refl (h : t.Inv keyOf) (hsrc : src.Inv keyOf) : Merged keyOf t src t src [] :=
  ⟨h, hsrc, rfl, rfl, rfl, rfl, .refl _, .refl _⟩

theorem Merged.cons {t₁ : Table κ ν} {moved : List (Node ν)} (hlink : Linked keyOf t t₁ n)
    (hperm : src.nodes.Perm (n :: (src.unlink n).nodes)) (h : Merged keyOf t₁ (src.unlink n) t' src' moved) :
    Merged keyOf t src t' src' (n :: moved) where
  inv := h.inv
  srcInv := h.srcInv
  hasher := h.hasher.trans hlink.hasher
  unique := h.unique.trans hlink.unique
  srcHasher := h.srcHasher
  srcUnique := h.srcUnique
  nodes := by
    have hsame : t₁.rehashed keyOf = t.rehashed keyOf := by
      funext m
      unfold rehashed
      rw [hlink.hasher]
    refine h.nodes.trans ?_
    rw [hsame, map_cons, cons_append]
    exact (hlink.nodes.append_left _).trans perm_middle
  srcNodes := hperm.trans (h.srcNodes.cons n)

theorem Apart.link {t₁ : Table κ ν} (h : t.Apart src) (hsrc : src.Inv keyOf) {n : Node ν} (hlink : Linked keyOf t t₁ n)
    (hperm : src.nodes.Perm (n :: (src.unlink n).nodes)) : t₁.Apart (src.unlink n) := by
  intro m hm x hx
  have hxs : x ∈ src.nodes := hperm.symm.subset (mem_cons_of_mem n hx)
  rcases mem_cons.mp (hlink.nodes.subset hm) with rfl | hm
  · have hids := (hperm.map (·.id)).nodup_iff.mp hsrc.ids
    exact fun he => (nodup_cons.mp hids).1 (List.mem_map.mpr ⟨x, hx, he.symm⟩)
  · exact h m hm x hxs

/-- `MergeUnique` moves the first node with each key that the target does not have. -/
theorem Inv.mergeUniqueLoop_spec {fuel : Nat} {c : Cursor ν} (h : t.Inv keyOf) (hsrc : src.Inv keyOf)
    (happart : t.Apart src) (ha : src.Ahead c l) (hfuel : l.length ≤ fuel)
    (hr : mergeUniqueLoop keyOf fuel t src c = some (t', src')) : ∃ moved, Merged keyOf t src t' src' moved ∧
    moved.Sublist l ∧ (∀ n ∈ moved, ∀ m ∈ t.nodes, ¬t.hasKey keyOf (keyOf n.value) m = true) ∧
    ∀ n ∈ l, n ∈ moved ∨ ∃ m ∈ t'.nodes, t.hasKey keyOf (keyOf n.value) m = true := by
  induction l generalizing t src c fuel with
  | nil =>
    rw [ha.eq_nil] at hr
    cases fuel <;> cases hr <;> exact ⟨[], .refl h hsrc, .slnil, nofun, nofun⟩
  | cons n l ih =>
    have hn : n ∈ src.nodes := ha.mem mem_cons_self
    obtain ⟨fuel, rest, rfl, hlen, rfl, ha'⟩ := hsrc.ahead_step ha hfuel
    have hpresent := h.present_iff (keyOf n.value)
    unfold mergeUniqueLoop at hr
    simp only at hr
    split at hr
    · -- the target has the key: the node stays
      rename_i hp
      obtain ⟨moved, hm, hsub, hnew, hstay⟩ := ih h hsrc happart ha' hlen hr
      refine ⟨moved, hm, hsub.cons n, hnew, fun x hx => ?_⟩
      rcases mem_cons.mp hx with rfl | hx
      · obtain ⟨m, hmem, hk⟩ := hpresent.mp hp
        exact .inr ⟨m, hm.nodes.symm.subset (mem_append_right _ hmem), hk⟩
      · exact hstay x hx
    rename_i hp
    split at hr
    · cases hr
    rename_i g hg
    have hnone : ∀ m ∈ t.nodes, ¬t.hasKey keyOf (keyOf n.value) m = true :=
      fun m hm hk => hp (hpresent.mpr ⟨m, hm, hk⟩)
    have hlink := h.link_front hg (fun m hm => happart m hm n hn) hnone
    obtain ⟨hsrc', hperm⟩ := hsrc.unlink hn
    obtain ⟨moved, hm, hsub, hnew, hstay⟩ :=
      ih hlink.inv hsrc' (happart.link hsrc hlink hperm) (hsrc.ahead_unlink ha) hlen hr
    have hkey : ∀ k m, hasKey keyOf (g.link (t.rehashed keyOf n :: ·) (t.hasher.hash (keyOf n.value))) k m =
        t.hasKey keyOf k m := fun k m => by
      unfold hasKey
      rw [hlink.hasher]
    refine ⟨n :: moved, hm.cons hlink hperm, hsub.cons_cons n, fun x hx m hmem hk => ?_, fun x hx => ?_⟩
    · rcases mem_cons.mp hx with rfl | hx
      · exact hnone m hmem hk
      · exact hnew x hx m (hlink.nodes.symm.subset (mem_cons_of_mem _ hmem)) ((hkey _ m).trans hk)
    · rcases mem_cons.mp hx with rfl | hx
      · exact .inl mem_cons_self
      · rcases hstay x hx with hin | ⟨m, hmem, hk⟩
        · exact .inl (mem_cons_of_mem n hin)
        · exact .inr ⟨m, hmem, (hkey _ m).symm.trans hk⟩

theorem Inv.mergeMultiLoop_spec {fuel : Nat} {c : Cursor ν} (h : t.Inv keyOf) (hmulti : t.unique = false)
    (hsrc : src.Inv keyOf) (happart : t.Apart src) (ha : src.Ahead c l) (hfuel : l.length ≤ fuel)
    (hr : mergeMultiLoop keyOf fuel t src c = some (t', src')) : Merged keyOf t src t' src' l := by
  induction l generalizing t src c fuel with
  | nil =>
    rw [ha.eq_nil] at hr
    cases fuel <;> cases hr <;> exact .refl h hsrc
  | cons n l ih =>
    have hn : n ∈ src.nodes := ha.mem mem_cons_self
    obtain ⟨fuel, rest, rfl, hlen, rfl, -⟩ := hsrc.ahead_step ha hfuel
    unfold mergeMultiLoop at hr
    split at hr
    · cases hr
    rename_i g hg
    have hlink := h.link_group hg (fun m hm => happart m hm n hn) fun hu => by rw [hmulti] at hu; cases hu
    obtain ⟨hsrc', hperm⟩ := hsrc.unlink hn
    have hm := ih hlink.inv (hlink.unique.trans hmulti) hsrc' (happart.link hsrc hlink hperm) (hsrc.ahead_unlink ha)
      hlen hr
    exact hm.cons hlink hperm

theorem Inv.mergeUnique (h : t.Inv keyOf) (hsrc : src.Inv keyOf) (happart : t.Apart src)
    (hr : t.mergeUnique keyOf src = some (t', src')) :
    ∃ moved, Merged keyOf t src t' src' moved ∧ (∀ n ∈ moved, ∀ m ∈ t.nodes, ¬t.hasKey keyOf (keyOf n.value) m = true) ∧
    ∀ n ∈ src.nodes, n ∈ moved ∨ ∃ m ∈ t'.nodes, t.hasKey keyOf (keyOf n.value) m = true := by
  obtain ⟨moved, hm, -, hnew, hstay⟩ := h.mergeUniqueLoop_spec hsrc happart (ahead_first src) hsrc.count.ge hr
  exact ⟨moved, hm, hnew, hstay⟩

theorem Inv.mergeMulti (h : t.Inv keyOf) (hmulti : t.unique = false) (hsrc : src.Inv keyOf)
    (happart : t.Apart src) (hr : t.mergeMulti keyOf src = some (t', src')) : Merged keyOf t src t' src' src.nodes :=
  h.mergeMultiLoop_spec hmulti hsrc happart (ahead_first src) hsrc.count.ge hr

/-- The values of the nodes. -/
def values (t : Table κ ν) : List ν := t.nodes.map (·.value)

/-- `EmplaceMulti` of some values, none of which a unique table has; the new nodes have new addresses. -/
theorem Inv.emplaceAll {vs : List ν} {id : Nat} (h : t.Inv keyOf) (hid : ∀ m ∈ t.nodes, m.id < id)
    (hnew : t.unique = true → ∀ v ∈ vs, ∀ m ∈ t.nodes, ¬t.hasKey keyOf (keyOf v) m = true)
    (hdistinct : t.unique = true → vs.Pairwise fun a b => ¬t.hasher.eq (keyOf a) (keyOf b) = true)
    (hr : t.emplaceAll keyOf id vs = some t') : t'.Inv keyOf ∧ t'.values.Perm (vs ++ t.values) ∧ t'.hasher = t.hasher ∧
    t'.unique = t.unique ∧ ∀ m ∈ t'.nodes, m ∈ t.nodes ∨ id ≤ m.id ∧ m.id < id + vs.length := by
  induction vs generalizing t id with
  | nil =>
    cases hr
    exact ⟨h, .refl _, rfl, rfl, fun m hm => .inl hm⟩
  | cons v vs ih =>
    unfold Table.emplaceAll at hr
    obtain ⟨t₁, h₁, hr⟩ := bind_eq_some_iff.mp hr
    have hlink := h.reinsertMulti (n := ⟨id, 0, v⟩) (fun m hm => (hid m hm).ne)
      (fun hu m hm hk => hnew hu v mem_cons_self m hm hk) h₁
    have hmem : ∀ m ∈ t₁.nodes, m = t.rehashed keyOf ⟨id, 0, v⟩ ∨ m ∈ t.nodes := fun m hm =>
      mem_cons.mp (hlink.nodes.subset hm)
    obtain ⟨hinv, hvalues, hhasher, hunique, hids⟩ := ih hlink.inv
      (fun m hm => by
        rcases hmem m hm with rfl | hm
        · exact Nat.lt_succ_self id
        · exact (hid m hm).trans (Nat.lt_succ_self id))
      (fun hu w hw m hm hk => by
        rw [hlink.unique] at hu
        have hk : t.hasher.eq (keyOf m.value) (keyOf w) = true := by
          unfold hasKey at hk
          rwa [hlink.hasher] at hk
        rcases hmem m hm with rfl | hm
        · exact (pairwise_cons.mp (hdistinct hu)).1 w hw hk
        · exact hnew hu w (mem_cons_of_mem v hw) m hm hk)
      (fun hu => by
        rw [hlink.hasher]
        exact (pairwise_cons.mp (hdistinct (hlink.unique ▸ hu))).2) hr
    refine ⟨hinv, ?_, hhasher.trans hlink.hasher, hunique.trans hlink.unique, fun m hm => ?_⟩
    · have hone : t₁.values.Perm (v :: t.values) := hlink.nodes.map _
      exact (hvalues.trans (hone.append_left vs)).trans perm_middle
    · rw [length_cons]
      rcases hids m hm with hm | ⟨hlo, hhi⟩
      · rcases hmem m hm with rfl | hm
        · exact .inr ⟨le_rfl, by show id < _; omega⟩
        · exact .inl hm
      · exact .inr ⟨by omega, by omega⟩

theorem nodes_allocateBuckets (t : Table κ ν) (n : Nat) : (t.allocateBuckets n).nodes = [] := by
  unfold nodes allocateBuckets
  simp

theorem allocateBuckets_inv (h : Hasher κ) (u : Bool) (lf : LoadFactor) {n : Nat} (hs : Sized n) :
    ((empty h u lf : Table κ ν).allocateBuckets n).Inv keyOf := by
  refine inv_of_nil ?_ (nodes_allocateBuckets _ n) rfl
  unfold allocateBuckets
  rw [length_replicate]
  exact hs

/-- `EmplaceMulti` of all elements of another table, into one that is empty and has its hasher. -/
theorem Inv.emplaceVisited {other : Table κ ν} {id : Nat} (h : other.Inv keyOf)
    (hr : t.emplaceAll keyOf id (other.visited.map (·.value)) = some t') (hs : Sized t.buckets.length)
    (hnone : t.nodes = []) (hcount : t.count = 0) (hhasher : t.hasher = other.hasher)
    (hunique : t.unique = other.unique) : t'.Inv keyOf ∧ t'.values.Perm other.values ∧ t'.hasher = other.hasher ∧
    t'.unique = other.unique ∧ ∀ m ∈ t'.nodes, id ≤ m.id ∧ m.id < id + other.count := by
  rw [h.visited] at hr
  have hempty : ∀ m, m ∉ t.nodes := fun m hm => by
    rw [hnone] at hm
    cases hm
  have hbase : t.Inv keyOf := inv_of_nil hs hnone hcount
  obtain ⟨h1, h2, h3, h4, h5⟩ := hbase.emplaceAll
    (fun m hm => absurd hm (hempty m)) (fun _ v _ m hm => absurd hm (hempty m))
    (fun hu => by
      rw [pairwise_map, hhasher]
      exact h.distinct (hunique ▸ hu)) hr
  refine ⟨h1, ?_, h3.trans hhasher, h4.trans hunique, fun m hm => ?_⟩
  · have hzero : t.values = [] := by
      unfold values
      rw [hnone]
      rfl
    rwa [hzero, append_nil] at h2
  · rcases h5 m hm with hm | hbound
    · exact absurd hm (hempty m)
    · rwa [length_map, ← h.count] at hbound

theorem Inv.copyFrom {other : Table κ ν} (h : other.Inv keyOf) {lf : LoadFactor} {id : Nat}
    (hr : (empty other.hasher other.unique lf).copyFrom keyOf other id = some t') :
    t'.Inv keyOf ∧ t'.values.Perm other.values ∧ t'.hasher = other.hasher ∧ t'.unique = other.unique ∧
    ∀ m ∈ t'.nodes, id ≤ m.id ∧ m.id < id + other.count := by
  unfold Table.copyFrom at hr
  split at hr
  · rename_i hzero
    cases hr
    have hnone : other.nodes = [] := length_eq_zero_iff.mp (h.count.symm.trans hzero)
    refine ⟨empty_inv _ _ _, ?_, rfl, rfl, nofun⟩
    unfold values
    rw [hnone]
    exact .refl _
  refine h.emplaceVisited hr ?_ ?_ rfl rfl rfl
  · show Sized (replicate other.buckets.length []).length
    rw [length_replicate]
    exact h.sized
  · exact nodes_allocateBuckets (empty other.hasher other.unique lf) other.buckets.length

end Table

end BoxOS.Boxcxx
