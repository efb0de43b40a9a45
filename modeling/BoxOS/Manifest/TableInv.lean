import BoxOS.Manifest.Table

/-!
# The table and its books

`TableInv` says how the free chain, the slots, the reference counts and the cleanups go with the books. Every section
keeps it (`TableInv.grown`, `TableInv.compiled`, `TableInv.resolved`, `TableInv.dropped`).
-/

open Function (update update_of_ne update_self)

namespace BoxOS.Manifest

open Option

/-! ## Handles -/

theorem handleSlot_makeHandle {slot gen : Nat} (h : slot < 2 ^ 32) : handleSlot (makeHandle slot gen) = slot := by
  unfold handleSlot makeHandle
  omega

theorem handleGen_makeHandle {slot gen : Nat} (h : slot < 2 ^ 32) (hg : gen < 2 ^ 32) :
    handleGen (makeHandle slot gen) = gen := by
  unfold handleGen makeHandle
  omega

theorem makeHandle_parts {h : Nat} (hh : h < 2 ^ 64) : makeHandle (handleSlot h) (handleGen h) = h := by
  unfold handleSlot handleGen makeHandle
  omega

/-! ## Chains -/

/-- The slots of the list link from `first` to the end. -/
def FreeChain (next : Nat → Option Nat) : Option Nat → List Nat → Prop
  | none, [] => True
  | some i, j :: rest => i = j ∧ FreeChain next (next i) rest
  | _, _ => False

variable {next : Nat → Option Nat} {chain : List Nat}

theorem FreeChain.congr {next' : Nat → Option Nat} {first : Option Nat}
    (h : FreeChain next first chain) (heq : ∀ i ∈ chain, next' i = next i) : FreeChain next' first chain := by
  induction chain generalizing first with
  | nil =>
    cases first with
    | none => trivial
    | some i => exact h
  | cons j rest ih =>
    cases first with
    | none => exact h
    | some i =>
      obtain ⟨rfl, hrest⟩ := h
      refine ⟨rfl, ?_⟩
      rw [heq i List.mem_cons_self]
      exact ih hrest fun k hk => heq k (List.mem_cons_of_mem _ hk)

theorem FreeChain.nil_of_none (h : FreeChain next none chain) : chain = [] := by
  cases chain with
  | nil => rfl
  | cons j rest => cases h

theorem FreeChain.cons_of_some {i : Nat} (h : FreeChain next (some i) chain) :
    ∃ rest, chain = i :: rest ∧ FreeChain next (next i) rest := by
  cases chain with
  | nil => cases h
  | cons j rest =>
    obtain ⟨rfl, hrest⟩ := h
    exact ⟨rest, rfl, hrest⟩

theorem FreeChain.range (next : Nat → Option Nat) {to_ : Nat} (n from_ : Nat) (hto : from_ + n = to_)
    (hnext : ∀ i, from_ ≤ i → i < to_ → next i = if i + 1 < to_ then some (i + 1) else none) :
    FreeChain next (if n = 0 then none else some from_) (List.range' from_ n) := by
  induction n generalizing from_ with
  | zero => trivial
  | succ n ih =>
    refine ⟨rfl, ?_⟩
    have hrest := ih (from_ + 1) (by omega) fun i hi hlt => hnext i (by omega) hlt
    rw [hnext from_ (le_refl _) (by omega)]
    by_cases hn : n = 0
    · rw [if_neg (by omega)]
      rw [if_pos hn] at hrest
      exact hrest
    · rw [if_pos (by omega)]
      rw [if_neg hn] at hrest
      exact hrest

/-! ## The invariant -/

namespace TableState

def Held (s : TableState) (id : Nat) : Prop := s.ownerRef id = .held

/-- The references in the books: one for the owner, and one for each retain and execution. -/
def refsOf (s : TableState) (id : Nat) : Nat :=
  (if s.ownerRef id = .held then 1 else 0) + s.pins.countP fun p => decide (p.2 = id)

/-- Where a manifest is that is not destroyed. -/
def At (s : TableState) (i id : Nat) : Prop := i < s.capacity ∧ (s.slots i).manifest = some id

end TableState

open TableState

/-- The slots, the chain and the objects in them. -/
structure SlotsOk (s : TableState) : Prop where
  chain : ∃ chain, FreeChain (fun i => (s.slots i).nextFree) s.firstFree chain ∧ chain.Nodup ∧
    ∀ i, i ∈ chain ↔ i < s.capacity ∧ (s.slots i).manifest = none
  cap : s.capacity ≤ tableMaxCap
  gens : ∀ i, i < s.capacity → (s.slots i).generation < 2 ^ 32
  inTable : ∀ i id, s.At i id → id < s.nextObject ∧ id ∉ s.destroyed ∧
    s.handleOf id = makeHandle i (s.slots i).generation
  live : ∀ id, id < s.nextObject → id ∉ s.destroyed → ∃ i, s.At i id
  gone : ∀ id, id ∈ s.destroyed → id < s.nextObject ∧ handleSlot (s.handleOf id) < s.capacity ∧
    handleGen (s.handleOf id) < (s.slots (handleSlot (s.handleOf id))).generation
  once : s.destroyed.Nodup
  word : ∀ id, id < s.nextObject → s.handleOf id < 2 ^ 64

/-- The references. -/
structure RefsOk (s : TableState) : Prop where
  count : ∀ id, id < s.nextObject → id ∉ s.destroyed → (s.objects id).refCount = s.refsOf id
  pos : ∀ id, id < s.nextObject → id ∉ s.destroyed → 0 < s.refsOf id
  bound : ∀ id, s.refsOf id < 2 ^ 32
  gone : ∀ id, id ∈ s.destroyed → s.refsOf id = 0
  fresh : ∀ id, s.nextObject ≤ id → s.refsOf id = 0 ∧ s.drops id = 0
  pinned : ∀ h id, (h, id) ∈ s.pins → h = s.handleOf id
  drops : ∀ id, s.drops id = if s.ownerRef id = .cleaned then 1 else 0

/-- A batch has handles of manifests the owner still holds, and all of them if it is the last. -/
def CleanupOk (s : TableState) (pid : Nat) : Cleanup → Prop
  | .release batch collected => batch.Nodup ∧
    (∀ h ∈ batch, ∃ id, s.handleOf id = h ∧ s.Held id ∧ (s.objects id).ownerPid = pid) ∧
    (collected ≠ batchSize → ∀ id, s.Held id → (s.objects id).ownerPid = pid → s.handleOf id ∈ batch)
  | _ => True

structure TableInv (s : TableState) : Prop where
  slots : SlotsOk s
  refs : RefsOk s
  cleanup : ∀ pid, CleanupOk s pid (s.cleanup pid)

variable {s t : TableState} {h i id pid : Nat}

theorem Held.live (hr : RefsOk s) (hid : s.Held id) : id < s.nextObject ∧ id ∉ s.destroyed := by
  have hpos : s.refsOf id ≠ 0 := by
    unfold refsOf
    rw [if_pos (show s.ownerRef id = .held from hid)]
    omega
  refine ⟨Nat.lt_of_not_le fun hle => hpos (hr.fresh id hle).1, fun hgone => hpos (hr.gone id hgone)⟩

theorem pinned_live (hr : RefsOk s) (hp : (h, id) ∈ s.pins) : id < s.nextObject ∧ id ∉ s.destroyed := by
  have hpos : s.refsOf id ≠ 0 := by
    have : 0 < s.pins.countP fun p => decide (p.2 = id) := List.countP_pos_iff.mpr ⟨(h, id), hp, by simp⟩
    unfold refsOf
    omega
  refine ⟨Nat.lt_of_not_le fun hle => hpos (hr.fresh id hle).1, fun hgone => hpos (hr.gone id hgone)⟩

theorem lookup_iff (hs : SlotsOk s) (hh : h < 2 ^ 64) :
    s.lookup h = some id ↔ id < s.nextObject ∧ id ∉ s.destroyed ∧ s.handleOf id = h := by
  have hcap := hs.cap
  unfold tableMaxCap at hcap
  unfold lookup
  constructor
  · intro hl
    split at hl
    · rename_i hin
      obtain ⟨hlt, hgone, hhandle⟩ := hs.inTable (handleSlot h) id ⟨hin.1, hl⟩
      refine ⟨hlt, hgone, ?_⟩
      rw [hhandle, hin.2, makeHandle_parts hh]
    · cases hl
  · rintro ⟨hlt, hgone, rfl⟩
    obtain ⟨i, hi⟩ := hs.live id hlt hgone
    have hhandle := (hs.inTable i id hi).2.2
    have hslot : handleSlot (s.handleOf id) = i := by
      rw [hhandle]
      exact handleSlot_makeHandle (by have := hi.1; omega)
    have hgen : handleGen (s.handleOf id) = (s.slots i).generation := by
      rw [hhandle]
      exact handleGen_makeHandle (by have := hi.1; omega) (hs.gens i hi.1)
    rw [hslot, hgen, if_pos ⟨hi.1, rfl⟩]
    exact hi.2

theorem handleOf_inj (hs : SlotsOk s) {id' : Nat} (hlt : id < s.nextObject) (hgone : id ∉ s.destroyed)
    (hlt' : id' < s.nextObject) (hgone' : id' ∉ s.destroyed) (he : s.handleOf id = s.handleOf id') : id = id' := by
  have h1 := (lookup_iff hs (hs.word _ hlt)).mpr ⟨hlt, hgone, rfl⟩
  have h2 := (lookup_iff hs (hs.word _ hlt)).mpr ⟨hlt', hgone', he.symm⟩
  exact some.inj (h1.symm.trans h2)

/-! ## Growing and compiling -/

theorem SlotsOk.grown (hs : SlotsOk s) (hfull : s.firstFree = none) {newCap : Nat} (hcap : s.capacity < newCap)
    (hmax : newCap ≤ tableMaxCap) :
    SlotsOk { s with
      slots := fun i => if i < s.capacity then s.slots i else slotInit newCap i
      capacity := newCap, firstFree := some s.capacity } := by
  obtain ⟨chain, hchain, -, hmem⟩ := hs.chain
  rw [hfull] at hchain
  obtain rfl := hchain.nil_of_none
  obtain ⟨t, ht⟩ : ∃ t, t = { s with
    slots := fun i => if i < s.capacity then s.slots i else slotInit newCap i
    capacity := newCap, firstFree := some s.capacity } := ⟨_, rfl⟩
  rw [← ht]
  have hold : ∀ i, i < s.capacity → t.slots i = s.slots i := fun i hi => by
    rw [ht]
    exact if_pos hi
  have hnew : ∀ i, ¬i < s.capacity → t.slots i = slotInit newCap i := fun i hi => by
    rw [ht]
    exact if_neg hi
  have hcapt : t.capacity = newCap := by rw [ht]
  have hhandles : t.handleOf = s.handleOf := by rw [ht]
  have hat : ∀ i id, t.At i id → s.At i id := by
    rintro i id ⟨-, hm⟩
    by_cases hi : i < s.capacity
    · rw [hold i hi] at hm
      exact ⟨hi, hm⟩
    · rw [hnew i hi] at hm
      cases hm
  refine ⟨⟨List.range' s.capacity (newCap - s.capacity), ?_, List.nodup_range', fun i => ?_⟩, hcapt.trans_le hmax,
    fun i hi => ?_, fun i id hi => ?_, fun id hlt hgone => ?_,
    fun id hid => ?_, by rw [ht]; exact hs.once, by rw [ht]; exact hs.word⟩
  · have hrange := FreeChain.range (fun i => (t.slots i).nextFree) (newCap - s.capacity) s.capacity
      (Nat.add_sub_of_le hcap.le) fun i hle _ => by
        rw [hnew i (not_lt.mpr hle)]
        rfl
    rw [if_neg (by omega)] at hrange
    have hfirst : t.firstFree = some s.capacity := by rw [ht]
    rw [hfirst]
    exact hrange
  · rw [List.mem_range'_1, hcapt]
    by_cases hi : i < s.capacity
    · rw [hold i hi]
      constructor
      · intro hr
        omega
      · rintro ⟨-, hm⟩
        exact absurd ((hmem i).mpr ⟨hi, hm⟩) List.not_mem_nil
    rw [hnew i hi]
    constructor
    · intro hr
      exact ⟨by omega, rfl⟩
    · intro hr
      omega
  · by_cases hlt : i < s.capacity
    · rw [hold i hlt]
      exact hs.gens i hlt
    · rw [hnew i hlt]
      change 1 < 2 ^ 32
      decide
  · obtain ⟨hlt, hgone, hhandle⟩ := hs.inTable i id (hat i id hi)
    rw [hold i (hat i id hi).1, hhandles]
    rw [ht]
    exact ⟨hlt, hgone, hhandle⟩
  · rw [ht] at hlt hgone
    obtain ⟨i, hi⟩ := hs.live id hlt hgone
    refine ⟨i, hcapt.symm ▸ hi.1.trans hcap, ?_⟩
    rw [hold i hi.1]
    exact hi.2
  · rw [ht] at hid
    obtain ⟨hlt, hslot, hgen⟩ := hs.gone id hid
    rw [hhandles, hcapt, hold _ hslot]
    exact ⟨by rw [ht]; exact hlt, hslot.trans hcap, hgen⟩

theorem tableGrow_ok (hs : SlotsOk s) (hfree : s.firstFree = none) {newCap : Nat} {kmallocOk : Bool}
    (hg : s.tableGrow newCap kmallocOk = some t) : SlotsOk t ∧
    ∃ capacity firstFree slots, t = { s with capacity := capacity, firstFree := firstFree, slots := slots } := by
  unfold tableGrow at hg
  split at hg
  · cases hg
  split at hg
  · cases hg
  split at hg
  · obtain rfl := some.inj hg
    exact ⟨hs, _, _, _, rfl⟩
  split at hg
  · rw [hfree] at hg
    obtain rfl := some.inj hg
    exact ⟨hs.grown hfree (by omega) (by omega), _, _, _, rfl⟩
  · cases hg

theorem growIfFull_ok (hs : SlotsOk s) {kmallocOk : Bool} (hg : s.growIfFull kmallocOk = some t) : SlotsOk t ∧
    ∃ capacity firstFree slots, t = { s with capacity := capacity, firstFree := firstFree, slots := slots } := by
  unfold growIfFull at hg
  cases hfree : s.firstFree with
  | some first =>
    rw [hfree] at hg
    obtain rfl := some.inj hg
    exact ⟨hs, _, _, _, rfl⟩
  | none =>
    rw [hfree] at hg
    exact tableGrow_ok hs hfree hg

/-- What a compilation does to a table with a free slot. -/
def compiledAt (u : TableState) (slot pid : Nat) : TableState :=
  { u with
    firstFree := (u.slots slot).nextFree
    slots := update u.slots slot ⟨some u.nextObject, (u.slots slot).generation, none⟩
    objects := update u.objects u.nextObject ⟨1, pid⟩
    nextObject := u.nextObject + 1
    handleOf := update u.handleOf u.nextObject (makeHandle slot (u.slots slot).generation)
    ownerRef := update u.ownerRef u.nextObject .held }

theorem manifestCompile_eq (s : TableState) (pid : Nat) (kmallocOk : Bool) :
    s.manifestCompile pid kmallocOk = s ∨ ∃ u slot, s.growIfFull kmallocOk = some u ∧ u.firstFree = some slot ∧
    s.manifestCompile pid kmallocOk = compiledAt u slot pid := by
  unfold TableState.manifestCompile
  cases ha : s.allocSlot kmallocOk with
  | none => exact .inl rfl
  | some p =>
    obtain ⟨slot, t⟩ := p
    unfold allocSlot at ha
    simp only [bind, bind_eq_some_iff, pure, some.injEq, Prod.mk.injEq] at ha
    obtain ⟨u, hu, slot', hslot, rfl, rfl⟩ := ha
    refine .inr ⟨u, slot', hu, hslot, ?_⟩
    dsimp only
    unfold compiledAt
    rw [update_self, Function.update_idem]

theorem SlotsOk.compiled (hs : SlotsOk s) {slot : Nat} (hfree : s.firstFree = some slot) (pid : Nat) :
    SlotsOk (compiledAt s slot pid) := by
  obtain ⟨chain, hchain, hnodup, hmem⟩ := hs.chain
  rw [hfree] at hchain
  obtain ⟨rest, rfl, hrest⟩ := hchain.cons_of_some
  obtain ⟨hslot, hnodup⟩ := List.nodup_cons.mp hnodup
  obtain ⟨hcap, hempty⟩ := (hmem slot).mp List.mem_cons_self
  obtain ⟨t, ht⟩ : ∃ t, t = compiledAt s slot pid := ⟨_, rfl⟩
  rw [← ht]
  have hself : t.slots slot = ⟨some s.nextObject, (s.slots slot).generation, none⟩ := by
    rw [ht]
    exact update_self ..
  have hother : ∀ i, i ≠ slot → t.slots i = s.slots i := fun i hi => by
    rw [ht]
    exact update_of_ne hi ..
  have hgen : ∀ i, (t.slots i).generation = (s.slots i).generation := fun i => by
    by_cases hi : i = slot
    · rw [hi, hself]
    · rw [hother i hi]
  have hcapt : t.capacity = s.capacity := by rw [ht]; rfl
  have hnext : t.nextObject = s.nextObject + 1 := by rw [ht]; rfl
  have hdestroyed : t.destroyed = s.destroyed := by rw [ht]; rfl
  have hnew : t.handleOf s.nextObject = makeHandle slot (s.slots slot).generation := by
    rw [ht]
    exact update_self ..
  have hhandle : ∀ id, id < s.nextObject → t.handleOf id = s.handleOf id := fun id hid => by
    rw [ht]
    exact update_of_ne (Nat.ne_of_lt hid) ..
  refine ⟨⟨rest, ?_, hnodup, fun i => ?_⟩, hcapt.trans_le hs.cap, fun i hi => ?_, fun i id hi => ?_,
    fun id hlt hgone => ?_, fun id hid => ?_, hdestroyed ▸ hs.once,
    fun id hlt => ?_⟩
  · have hfirst : t.firstFree = (s.slots slot).nextFree := by rw [ht]; rfl
    rw [hfirst]
    refine hrest.congr fun i hi => ?_
    rw [hother i fun e => hslot (e ▸ hi)]
  · rw [hcapt]
    by_cases hi : i = slot
    · rw [hi, hself]
      exact ⟨fun hr => absurd hr hslot, fun hr => (nomatch hr.2)⟩
    · rw [hother i hi, ← hmem i, List.mem_cons]
      exact ⟨.inr, fun hr => hr.resolve_left hi⟩
  · rw [hgen]
    exact hs.gens i (hcapt ▸ hi)
  · rw [hnext, hdestroyed, hgen]
    by_cases he : i = slot
    · have hid : id = s.nextObject := by
        have := hi.2
        rw [he, hself] at this
        exact (some.inj this).symm
      rw [hid, he, hnew]
      exact ⟨Nat.lt_succ_self _, fun hd => Nat.lt_irrefl _ (hs.gone _ hd).1, rfl⟩
    have hat : s.At i id := ⟨hcapt ▸ hi.1, hother i he ▸ hi.2⟩
    obtain ⟨hlt, hgone, hh⟩ := hs.inTable i id hat
    rw [hhandle id hlt]
    exact ⟨hlt.trans (Nat.lt_succ_self _), hgone, hh⟩
  · rw [hnext] at hlt
    rw [hdestroyed] at hgone
    by_cases hid : id = s.nextObject
    · refine ⟨slot, hcapt.symm ▸ hcap, ?_⟩
      rw [hself, hid]
    obtain ⟨i, hi⟩ := hs.live id (by omega) hgone
    refine ⟨i, hcapt.symm ▸ hi.1, ?_⟩
    rw [hother i fun e => ?_]
    · exact hi.2
    · rw [e] at hi
      cases hempty.symm.trans hi.2
  · rw [hdestroyed] at hid
    obtain ⟨hlt, hslot', hgen'⟩ := hs.gone id hid
    rw [hnext, hhandle id hlt, hgen, hcapt]
    exact ⟨hlt.trans (Nat.lt_succ_self _), hslot', hgen'⟩
  · rw [hnext] at hlt
    by_cases hid : id = s.nextObject
    · have hmax := hs.cap
      have hg := hs.gens slot hcap
      unfold tableMaxCap at hmax
      rw [hid, hnew]
      unfold makeHandle
      omega
    · have hlt' : id < s.nextObject := by omega
      rw [hhandle id hlt']
      exact hs.word id hlt'

theorem refsOf_compiled (hr : RefsOk s) (slot pid id : Nat) :
    (compiledAt s slot pid).refsOf id = if id = s.nextObject then 1 else s.refsOf id := by
  by_cases hid : id = s.nextObject
  · have hzero := (hr.fresh id hid.ge).1
    rw [if_pos hid]
    unfold refsOf at hzero ⊢
    have hheld : (compiledAt s slot pid).ownerRef id = .held := by
      rw [hid]
      exact update_self ..
    rw [if_pos hheld]
    change 1 + (s.pins.countP fun p => decide (p.2 = id)) = 1
    omega
  · rw [if_neg hid]
    unfold refsOf
    rw [show (compiledAt s slot pid).ownerRef id = s.ownerRef id from update_of_ne hid ..]
    rfl

theorem RefsOk.compiled (hr : RefsOk s) (hs : SlotsOk s) (slot pid : Nat) : RefsOk (compiledAt s slot pid) := by
  have hrefs := refsOf_compiled hr slot pid
  have hobj : ∀ id, id ≠ s.nextObject → (compiledAt s slot pid).objects id = s.objects id :=
    fun id hid => update_of_ne hid ..
  have hnew : (compiledAt s slot pid).objects s.nextObject = ⟨1, pid⟩ := update_self ..
  refine ⟨fun id hlt hgone => ?_, fun id hlt hgone => ?_, fun id => ?_, fun id hid => ?_, fun id hle => ?_,
    fun h id hp => ?_, fun id => ?_⟩
  · rw [hrefs]
    by_cases hid : id = s.nextObject
    · rw [if_pos hid, hid, hnew]
    · rw [if_neg hid, hobj id hid]
      exact hr.count id (Nat.lt_of_le_of_ne (Nat.lt_succ_iff.mp hlt) hid) hgone
  · rw [hrefs]
    split
    · exact Nat.one_pos
    · rename_i hid
      exact hr.pos id (Nat.lt_of_le_of_ne (Nat.lt_succ_iff.mp hlt) hid) hgone
  · rw [hrefs]
    split
    · decide
    · exact hr.bound id
  · rw [hrefs, if_neg (Nat.ne_of_lt (hs.gone id hid).1)]
    exact hr.gone id hid
  · change s.nextObject + 1 ≤ id at hle
    rw [hrefs, if_neg (by omega)]
    exact hr.fresh id (by omega)
  · have hlt := (pinned_live hr hp).1
    rw [show (compiledAt s slot pid).handleOf id = s.handleOf id from update_of_ne (Nat.ne_of_lt hlt) ..]
    exact hr.pinned h id hp
  · change s.drops id = if (compiledAt s slot pid).ownerRef id = .cleaned then 1 else 0
    by_cases hid : id = s.nextObject
    · have hheld : (compiledAt s slot pid).ownerRef id = .held := by
        rw [hid]
        exact update_self ..
      rw [hheld, (hr.fresh id hid.ge).2]
      rfl
    · rw [show (compiledAt s slot pid).ownerRef id = s.ownerRef id from update_of_ne hid ..]
      exact hr.drops id

theorem CleanupOk.ofHeld {c : Cleanup} (hc : CleanupOk s pid c) (hkeep : ∀ id, s.Held id →
    (s.objects id).ownerPid = pid → t.handleOf id = s.handleOf id ∧ t.Held id ∧ (t.objects id).ownerPid = pid)
    (hback : ∀ id, t.Held id → (t.objects id).ownerPid = pid → s.Held id ∧ (s.objects id).ownerPid = pid) :
    CleanupOk t pid c := by
  cases c with
  | idle => trivial
  | collect => trivial
  | release batch collected =>
    obtain ⟨hnodup, hbatch, hall⟩ := hc
    refine ⟨hnodup, fun h hh => ?_, fun hlast id hheld howner => ?_⟩
    · obtain ⟨id, hhandle, hheld, howner⟩ := hbatch h hh
      obtain ⟨he, hheld', howner'⟩ := hkeep id hheld howner
      exact ⟨id, he.trans hhandle, hheld', howner'⟩
    · obtain ⟨hheld', howner'⟩ := hback id hheld howner
      rw [(hkeep id hheld' howner').1]
      exact hall hlast id hheld' howner'

theorem TableInv.compiled (hi : TableInv s) (kmallocOk : Bool) (hidle : s.cleanup pid = .idle) :
    TableInv (s.manifestCompile pid kmallocOk) := by
  rcases manifestCompile_eq s pid kmallocOk with he | ⟨u, slot, hu, hslot, he⟩
  · rw [he]
    exact hi
  rw [he]
  obtain ⟨hs, capacity, firstFree, slots, hrest⟩ := growIfFull_ok hi.slots hu
  have hr : RefsOk u := by
    rw [hrest]
    exact ⟨hi.refs.count, hi.refs.pos, hi.refs.bound, hi.refs.gone, hi.refs.fresh, hi.refs.pinned, hi.refs.drops⟩
  have hclean : ∀ p, CleanupOk u p (u.cleanup p) := fun p => by
    rw [hrest]
    exact (hi.cleanup p).ofHeld (fun id hh ho => ⟨rfl, hh, ho⟩) fun id hh ho => ⟨hh, ho⟩
  have hidle' : u.cleanup pid = .idle := by
    rw [hrest]
    exact hidle
  refine ⟨hs.compiled hslot pid, hr.compiled hs slot pid, fun p => ?_⟩
  by_cases hp : p = pid
  · change CleanupOk _ p (u.cleanup p)
    rw [hp, hidle']
    trivial
  refine (hclean p).ofHeld (fun id hh ho => ?_) fun id hh ho => ?_
  · have hne : id ≠ u.nextObject := Nat.ne_of_lt (Held.live hr hh).1
    refine ⟨update_of_ne hne .., ?_, ?_⟩
    · exact (update_of_ne hne ..).trans hh
    · rw [show (compiledAt u slot pid).objects id = u.objects id from update_of_ne hne ..]
      exact ho
  · have hne : id ≠ u.nextObject := fun e => hp (by
      rw [← ho, e]
      rw [show (compiledAt u slot pid).objects u.nextObject = ⟨1, pid⟩ from update_self ..])
    refine ⟨(update_of_ne hne ..).symm.trans hh, ?_⟩
    rw [← show (compiledAt u slot pid).objects id = u.objects id from update_of_ne hne ..]
    exact ho

/-! ## Resolving -/

theorem refsOf_pinned (s : TableState) (h id refCount j : Nat) :
    ({ s.setRefCount id refCount with pins := (h, id) :: s.pins } : TableState).refsOf j =
      s.refsOf j + if id = j then 1 else 0 := by
  unfold refsOf
  change (if s.ownerRef j = .held then 1 else 0) + ((h, id) :: s.pins).countP (fun p => decide (p.2 = j)) = _
  rw [List.countP_cons]
  simp only [decide_eq_true_eq]
  omega

theorem TableInv.resolved (hi : TableInv s) (hh : h < 2 ^ 64)
    (hbound : ∀ id, s.lookup h = some id → s.refsOf id + 1 < 2 ^ 32) : TableInv (s.manifestResolve h) := by
  unfold manifestResolve
  cases hl : s.lookup h with
  | none => exact hi
  | some id =>
    obtain ⟨hlt, hgone, hhandle⟩ := (lookup_iff hi.slots hh).mp hl
    have hb := hbound id hl
    have hcount := hi.refs.count id hlt hgone
    dsimp only
    rw [hcount, Nat.mod_eq_of_lt hb]
    have hrefs := refsOf_pinned s h id (s.refsOf id + 1)
    obtain ⟨t, ht⟩ : ∃ t, t = ({ s.setRefCount id (s.refsOf id + 1) with pins := (h, id) :: s.pins } : TableState) :=
      ⟨_, rfl⟩
    rw [← ht] at hrefs ⊢
    have hobj : ∀ j, j ≠ id → t.objects j = s.objects j := fun j hj => by
      rw [ht]
      exact update_of_ne hj ..
    have hself : t.objects id = { s.objects id with refCount := s.refsOf id + 1 } := by
      rw [ht]
      exact update_self ..
    have howner : ∀ j, (t.objects j).ownerPid = (s.objects j).ownerPid := fun j => by
      by_cases hj : j = id
      · rw [hj, hself]
      · rw [hobj j hj]
    refine ⟨?_, ⟨fun j hj hjg => ?_, fun j hj hjg => ?_, fun j => ?_, fun j hjg => ?_, fun j hj => ?_,
      fun h' j hp => ?_, ?_⟩, fun p => ?_⟩
    · rw [ht]
      exact ⟨hi.slots.chain, hi.slots.cap, hi.slots.gens, hi.slots.inTable, hi.slots.live, hi.slots.gone, hi.slots.once,
        hi.slots.word⟩
    · rw [ht] at hj hjg
      rw [hrefs]
      by_cases he : j = id
      · rw [he, hself, if_pos rfl]
      · rw [hobj j he, if_neg (Ne.symm he)]
        exact hi.refs.count j hj hjg
    · rw [ht] at hj hjg
      rw [hrefs]
      have := hi.refs.pos j hj hjg
      omega
    · rw [hrefs]
      have := hi.refs.bound j
      split
      · rename_i he
        rw [← he]
        exact hb
      · exact this
    · rw [ht] at hjg
      rw [hrefs, if_neg fun e : id = j => hgone (e ▸ hjg)]
      exact hi.refs.gone j hjg
    · rw [ht] at hj
      rw [hrefs, if_neg fun e : id = j => Nat.lt_irrefl _ (hlt.trans_le (e ▸ hj))]
      rw [ht]
      exact hi.refs.fresh j hj
    · rw [ht] at hp ⊢
      rcases List.mem_cons.mp hp with he | hp
      · cases he
        exact hhandle.symm
      · exact hi.refs.pinned h' j hp
    · rw [ht]
      exact hi.refs.drops
    · have hc : t.cleanup p = s.cleanup p := by
        rw [ht]
        rfl
      have hheld : ∀ j, t.Held j ↔ s.Held j := fun j => by
        rw [ht]
        exact Iff.rfl
      rw [hc]
      refine (hi.cleanup p).ofHeld (fun j hj ho => ⟨by rw [ht]; rfl, (hheld j).mpr hj, (howner j).trans ho⟩)
        fun j hj ho => ⟨(hheld j).mp hj, (howner j).symm.trans ho⟩

/-! ## Releasing -/

theorem manifestRelease_rest (hl : s.lookup h = some id) : ∃ firstFree slots, s.manifestRelease h = { s with
    firstFree := firstFree, slots := slots
    objects := update s.objects id
      { s.objects id with refCount := ((s.objects id).refCount + (2 ^ 32 - 1)) % 2 ^ 32 }
    destroyed := if (s.objects id).refCount = 1 then id :: s.destroyed else s.destroyed } := by
  unfold manifestRelease
  rw [hl]
  dsimp only
  split
  · exact ⟨_, _, rfl⟩
  · exact ⟨_, _, rfl⟩

theorem SlotsOk.released (hs : SlotsOk s) (hh : h < 2 ^ 64) (hl : s.lookup h = some id)
    (hgen : (s.slots (handleSlot h)).generation + 1 < 2 ^ 32) : SlotsOk (s.manifestRelease h) := by
  obtain ⟨hlt, hgone, hhandle⟩ := (lookup_iff hs hh).mp hl
  obtain ⟨slot, hslot⟩ : ∃ slot, slot = handleSlot h := ⟨_, rfl⟩
  have hat : s.At slot id := by
    rw [hslot]
    unfold lookup at hl
    split at hl
    · rename_i hin
      exact ⟨hin.1, hl⟩
    · cases hl
  unfold manifestRelease
  rw [hl]
  dsimp only
  rw [← hslot] at hgen ⊢
  split
  · obtain ⟨t, ht⟩ : ∃ t,
      t = ({ (s.setRefCount id (((s.objects id).refCount + (2 ^ 32 - 1)) % 2 ^ 32)).freeSlot slot with
      destroyed := id :: s.destroyed } : TableState) := ⟨_, rfl⟩
    change SlotsOk { (s.setRefCount id (((s.objects id).refCount + (2 ^ 32 - 1)) % 2 ^ 32)).freeSlot slot with
      destroyed := id :: s.destroyed }
    rw [← ht]
    have hself : t.slots slot = ⟨none, (s.slots slot).generation + 1, s.firstFree⟩ := by
      rw [ht]
      refine (update_self slot _ s.slots).trans ?_
      change (⟨none, ((s.slots slot).generation + 1) % 2 ^ 32, s.firstFree⟩ : ManifestSlot) = _
      rw [Nat.mod_eq_of_lt hgen]
    have hother : ∀ i, i ≠ slot → t.slots i = s.slots i := fun i hi => by
      rw [ht]
      exact update_of_ne hi ..
    have hcapt : t.capacity = s.capacity := by rw [ht]; rfl
    have hnext : t.nextObject = s.nextObject := by rw [ht]; rfl
    have hdestroyed : t.destroyed = id :: s.destroyed := by rw [ht]
    have hhandles : t.handleOf = s.handleOf := by rw [ht]; rfl
    obtain ⟨chain, hchain, hnodup, hmem⟩ := hs.chain
    have hnot : slot ∉ chain := fun hc => by
      have := ((hmem slot).mp hc).2
      rw [hat.2] at this
      cases this
    have hcap := hs.cap
    unfold tableMaxCap at hcap
    have hslots := hat.1
    refine ⟨⟨slot :: chain, ?_, List.nodup_cons.mpr ⟨hnot, hnodup⟩, fun i => ?_⟩, hcapt.trans_le hs.cap,
      fun i hi => ?_, fun i j hj => ?_, fun j hj hjg => ?_, fun j hj => ?_, ?_, ?_⟩
    · have hfirst : t.firstFree = some slot := by rw [ht]; rfl
      rw [hfirst]
      refine ⟨rfl, ?_⟩
      dsimp only
      rw [hself]
      refine hchain.congr fun i hi => ?_
      rw [hother i fun e => hnot (e ▸ hi)]
    · rw [hcapt, List.mem_cons]
      by_cases hi : i = slot
      · rw [hi, hself]
        exact ⟨fun _ => ⟨hat.1, rfl⟩, fun _ => .inl rfl⟩
      · rw [hother i hi, ← hmem i]
        exact ⟨fun hr => hr.resolve_left hi, .inr⟩
    · by_cases he : i = slot
      · rw [he, hself]
        exact hgen
      · rw [hother i he]
        exact hs.gens i (hcapt ▸ hi)
    · have he : i ≠ slot := fun e => by
        have := hj.2
        rw [e, hself] at this
        cases this
      have hj' : s.At i j := ⟨hcapt ▸ hj.1, hother i he ▸ hj.2⟩
      obtain ⟨hjl, hjg, hjh⟩ := hs.inTable i j hj'
      rw [hnext, hdestroyed, hhandles, hother i he]
      refine ⟨hjl, fun hd => ?_, hjh⟩
      rcases List.mem_cons.mp hd with hd | hd
      · -- the manifest lies in one slot only
        have h1 := (hs.inTable slot id hat).2.2
        rw [← hd, hjh] at h1
        have h2 : handleSlot (makeHandle i (s.slots i).generation) = i :=
          handleSlot_makeHandle (by have := hj'.1; omega)
        rw [h1, handleSlot_makeHandle (by omega)] at h2
        exact he h2.symm
      · exact hjg hd
    · rw [hnext] at hj
      rw [hdestroyed, List.mem_cons, not_or] at hjg
      obtain ⟨i, hi⟩ := hs.live j hj hjg.2
      refine ⟨i, hcapt.symm ▸ hi.1, ?_⟩
      rw [hother i fun e => ?_]
      · exact hi.2
      · rw [e] at hi
        exact hjg.1 (some.inj (hi.2.symm.trans hat.2))
    · rw [hdestroyed] at hj
      rw [hnext, hcapt, hhandles]
      rcases List.mem_cons.mp hj with rfl | hj
      · have h1 := (hs.inTable slot j hat).2.2
        have hg := hs.gens slot hat.1
        rw [h1, handleSlot_makeHandle (by omega), handleGen_makeHandle (by omega) hg, hself]
        exact ⟨hlt, hat.1, Nat.lt_succ_self _⟩
      obtain ⟨hjl, hjs, hjg⟩ := hs.gone j hj
      refine ⟨hjl, hjs, ?_⟩
      by_cases he : handleSlot (s.handleOf j) = slot
      · rw [he] at hjg ⊢
        rw [hself]
        exact hjg.trans (Nat.lt_succ_self _)
      · rw [hother _ he]
        exact hjg
    · rw [hdestroyed]
      exact List.nodup_cons.mpr ⟨hgone, hs.once⟩
    · rw [hnext, hhandles]
      exact hs.word
  · exact ⟨hs.chain, hs.cap, hs.gens, hs.inTable, hs.live, hs.gone, hs.once, hs.word⟩

/-- One reference fewer of one manifest, in the table and in the books. -/
theorem RefsOk.dropped (hr : RefsOk s) (hs : SlotsOk s) (hh : h < 2 ^ 64) (hl : s.lookup h = some id)
    {t : TableState} (ht : ∃ ownerRef pins drops cleanup, t = { s.manifestRelease h with
      ownerRef := ownerRef, pins := pins, drops := drops, cleanup := cleanup })
    (hdrop : t.refsOf id + 1 = s.refsOf id) (hsame : ∀ j, j ≠ id → t.refsOf j = s.refsOf j)
    (hpins : ∀ p ∈ t.pins, p ∈ s.pins) (hdrops : ∀ j, t.drops j = if t.ownerRef j = .cleaned then 1 else 0)
    (hfresh : ∀ j, s.nextObject ≤ j → t.drops j = 0) : RefsOk t := by
  obtain ⟨hlt, hgone, hhandle⟩ := (lookup_iff hs hh).mp hl
  obtain ⟨firstFree, slots, hrest⟩ := manifestRelease_rest hl
  have hcount := hr.count id hlt hgone
  have hb := hr.bound id
  have hpred : (s.refsOf id + (2 ^ 32 - 1)) % 2 ^ 32 = t.refsOf id := by omega
  have hnext : t.nextObject = s.nextObject := by
    obtain ⟨o, p, d, c, rfl⟩ := ht
    rw [hrest]
  have hhandles : t.handleOf = s.handleOf := by
    obtain ⟨o, p, d, c, rfl⟩ := ht
    rw [hrest]
  have hobj : t.objects = update s.objects id { s.objects id with refCount := t.refsOf id } := by
    rw [← hpred, ← hcount]
    obtain ⟨o, p, d, c, rfl⟩ := ht
    rw [hrest]
  have hdestroyed : t.destroyed = if s.refsOf id = 1 then id :: s.destroyed else s.destroyed := by
    rw [← hcount]
    obtain ⟨o, p, d, c, rfl⟩ := ht
    rw [hrest]
  have hold : ∀ j, j ∉ t.destroyed → j ∉ s.destroyed := fun j hj hd => hj (by
    rw [hdestroyed]
    split
    · exact List.mem_cons_of_mem _ hd
    · exact hd)
  refine ⟨fun j hj hjg => ?_, fun j hj hjg => ?_, fun j => ?_, fun j hj => ?_, fun j hj => ?_,
    fun h' j hp => ?_, hdrops⟩
  · rw [hobj]
    by_cases he : j = id
    · rw [he, update_self]
    · rw [update_of_ne he, hsame j he]
      exact hr.count j (hnext ▸ hj) (hold j hjg)
  · by_cases he : j = id
    · rw [he] at hjg ⊢
      have hne : s.refsOf id ≠ 1 := fun h1 => hjg (by
        rw [hdestroyed, if_pos h1]
        exact List.mem_cons_self)
      omega
    · rw [hsame j he]
      exact hr.pos j (hnext ▸ hj) (hold j hjg)
  · by_cases he : j = id
    · rw [he]
      omega
    · rw [hsame j he]
      exact hr.bound j
  · rw [hdestroyed] at hj
    by_cases he : j = id
    · rw [he] at hj ⊢
      split at hj
      · omega
      · exact absurd hj hgone
    rw [hsame j he]
    refine hr.gone j ?_
    split at hj
    · exact (List.mem_cons.mp hj).resolve_left he
    · exact hj
  · rw [hnext] at hj
    refine ⟨?_, hfresh j hj⟩
    rw [hsame j fun e => Nat.lt_irrefl _ (hlt.trans_le (e ▸ hj))]
    exact (hr.fresh j hj).1
  · rw [hhandles]
    exact hr.pinned h' j (hpins _ hp)

theorem SlotsOk.ghosts (hs : SlotsOk s) (ownerRef : Nat → OwnerRef) (pins : List (Nat × Nat)) (drops : Nat → Nat)
    (cleanup : Nat → Cleanup) :
    SlotsOk { s with ownerRef := ownerRef, pins := pins, drops := drops, cleanup := cleanup } :=
  ⟨hs.chain, hs.cap, hs.gens, hs.inTable, hs.live, hs.gone, hs.once, hs.word⟩

theorem manifestRelease_same (hl : s.lookup h = some id) : (s.manifestRelease h).handleOf = s.handleOf ∧
    (∀ j, ((s.manifestRelease h).objects j).ownerPid = (s.objects j).ownerPid) ∧
    (s.manifestRelease h).ownerRef = s.ownerRef ∧ (s.manifestRelease h).pins = s.pins ∧
    (s.manifestRelease h).drops = s.drops ∧ (s.manifestRelease h).cleanup = s.cleanup ∧
    (s.manifestRelease h).nextObject = s.nextObject := by
  obtain ⟨firstFree, slots, hrest⟩ := manifestRelease_rest hl
  rw [hrest]
  refine ⟨rfl, fun j => ?_, rfl, rfl, rfl, rfl, rfl⟩
  by_cases hj : j = id
  · rw [hj]
    dsimp only
    rw [update_self]
  · dsimp only
    rw [update_of_ne hj]

theorem countP_erase_pin {pins : List (Nat × Nat)} {h id : Nat} (hp : (h, id) ∈ pins) (j : Nat) :
    ((pins.erase (h, id)).countP fun p => decide (p.2 = j)) + (if j = id then 1 else 0) =
      pins.countP fun p => decide (p.2 = j) := by
  have hperm := (List.perm_cons_erase hp).countP_eq fun p => decide (p.2 = j)
  rw [hperm, List.countP_cons]
  by_cases hj : j = id
  · simp [hj]
  · simp [hj, Ne.symm hj]

theorem TableInv.unpinned (hi : TableInv s) (hp : (h, id) ∈ s.pins)
    (hgen : (s.slots (handleSlot h)).generation + 1 < 2 ^ 32) :
    TableInv { s.manifestRelease h with pins := s.pins.erase (h, id) } := by
  obtain ⟨hlt, hgone⟩ := pinned_live hi.refs hp
  have hhandle := hi.refs.pinned h id hp
  have hh : h < 2 ^ 64 := hhandle ▸ hi.slots.word _ hlt
  have hl := (lookup_iff hi.slots hh).mpr ⟨hlt, hgone, hhandle.symm⟩
  obtain ⟨hhandles, howner, href, -, hdrops, hcleanup, -⟩ := manifestRelease_same hl
  have hrefs : ∀ j, ({ s.manifestRelease h with pins := s.pins.erase (h, id) } : TableState).refsOf j +
      (if j = id then 1 else 0) = s.refsOf j := fun j => by
    unfold refsOf
    rw [← countP_erase_pin hp j, ← href]
    exact Nat.add_assoc ..
  refine ⟨(hi.slots.released hh hl hgen).ghosts _ _ _ _, ?_, fun p => ?_⟩
  · refine hi.refs.dropped hi.slots hh hl ⟨_, _, _, _, rfl⟩ ?_ (fun j hj => ?_)
      (fun p hmem => List.mem_of_mem_erase hmem) (fun j => ?_) fun j hj => ?_
    · have := hrefs id
      rw [if_pos rfl] at this
      exact this
    · have := hrefs j
      rw [if_neg hj] at this
      exact this
    · change (s.manifestRelease h).drops j = if (s.manifestRelease h).ownerRef j = .cleaned then 1 else 0
      rw [hdrops, href]
      exact hi.refs.drops j
    · change (s.manifestRelease h).drops j = 0
      rw [hdrops]
      exact (hi.refs.fresh j hj).2
  · change CleanupOk _ p ((s.manifestRelease h).cleanup p)
    rw [hcleanup]
    refine (hi.cleanup p).ofHeld (fun j hj ho => ⟨congrFun hhandles j, ?_, (howner j).trans ho⟩)
      fun j hj ho => ⟨?_, (howner j).symm.trans ho⟩
    · exact (congrFun href j).trans hj
    · exact (congrFun href j).symm.trans hj

/-- The owner's reference is dropped: what is left to show is about the cleanup of this owner. -/
theorem TableInv.ownerDropped (hi : TableInv s) (ref : OwnerRef) (drops : Nat → Nat) (cleanup : Nat → Cleanup)
    (hheld : s.Held id) (href : ref ≠ .held)
    (hdrops : ∀ j, drops j = if update s.ownerRef id ref j = .cleaned then 1 else 0)
    (hfresh : ∀ j, s.nextObject ≤ j → drops j = 0)
    (hgen : (s.slots (handleSlot (s.handleOf id))).generation + 1 < 2 ^ 32)
    (hothers : ∀ p, p ≠ (s.objects id).ownerPid → cleanup p = s.cleanup p)
    (hown : ∀ t : TableState, t.handleOf = s.handleOf → (∀ j, (t.objects j).ownerPid = (s.objects j).ownerPid) →
      (∀ j, t.Held j ↔ s.Held j ∧ j ≠ id) → CleanupOk t (s.objects id).ownerPid (cleanup (s.objects id).ownerPid)) :
    TableInv { s.manifestRelease (s.handleOf id) with
      ownerRef := update s.ownerRef id ref, drops := drops, cleanup := cleanup } := by
  obtain ⟨hlt, hgone⟩ := Held.live hi.refs hheld
  have hh := hi.slots.word _ hlt
  have hl := (lookup_iff hi.slots hh).mpr ⟨hlt, hgone, rfl⟩
  obtain ⟨hhandles, howner, -, hpins, -, -, -⟩ := manifestRelease_same hl
  obtain ⟨t, ht⟩ : ∃ t, t = ({ s.manifestRelease (s.handleOf id) with
    ownerRef := update s.ownerRef id ref, drops := drops, cleanup := cleanup } : TableState) := ⟨_, rfl⟩
  have hslots : SlotsOk t := by
    rw [ht]
    exact (hi.slots.released hh hl hgen).ghosts _ _ _ _
  have hownerRef : t.ownerRef = update s.ownerRef id ref := by rw [ht]
  have hpins' : t.pins = s.pins := by
    rw [ht]
    exact hpins
  have hhandles' : t.handleOf = s.handleOf := by
    rw [ht]
    exact hhandles
  have howner' : ∀ j, (t.objects j).ownerPid = (s.objects j).ownerPid := by
    rw [ht]
    exact howner
  have hheld' : ∀ j, t.Held j ↔ s.Held j ∧ j ≠ id := fun j => by
    unfold Held
    rw [hownerRef]
    by_cases hj : j = id
    · rw [hj, update_self]
      exact ⟨fun he => absurd he href, fun he => absurd rfl he.2⟩
    · rw [update_of_ne hj]
      exact ⟨fun he => ⟨he, hj⟩, fun he => he.1⟩
  have hrefs : ∀ j, t.refsOf j + (if j = id then 1 else 0) = s.refsOf j := fun j => by
    unfold refsOf
    rw [hpins', hownerRef]
    by_cases hj : j = id
    · rw [hj, update_self, if_neg href, if_pos (show s.ownerRef id = .held from hheld), if_pos rfl]
      omega
    · rw [update_of_ne hj, if_neg hj]
      rfl
  rw [← ht]
  refine ⟨hslots, ?_, fun p => ?_⟩
  · refine hi.refs.dropped hi.slots hh hl ⟨_, _, _, _, ht⟩ ?_ (fun j hj => ?_) (fun p hmem => hpins' ▸ hmem) ?_ ?_
    · have := hrefs id
      rw [if_pos rfl] at this
      exact this
    · have := hrefs j
      rw [if_neg hj] at this
      exact this
    · rw [hownerRef, ht]
      exact hdrops
    · rw [ht]
      exact hfresh
  · have hc : t.cleanup p = cleanup p := by rw [ht]
    rw [hc]
    by_cases hp : p = (s.objects id).ownerPid
    · rw [hp]
      exact hown t hhandles' howner' hheld'
    rw [hothers p hp]
    refine (hi.cleanup p).ofHeld (fun j hj ho => ⟨congrFun hhandles' j, (hheld' j).mpr ⟨hj, fun e => ?_⟩,
      (howner' j).trans ho⟩) fun j hj ho => ⟨((hheld' j).mp hj).1, (howner' j).symm.trans ho⟩
    rw [e] at ho
    exact hp ho.symm

theorem TableInv.ownerReleased (hi : TableInv s) (hheld : s.Held id) (hidle : s.cleanup (s.objects id).ownerPid = .idle)
    (hgen : (s.slots (handleSlot (s.handleOf id))).generation + 1 < 2 ^ 32) :
    TableInv (s.releaseOwned (s.handleOf id) .released) := by
  obtain ⟨hlt, hgone⟩ := Held.live hi.refs hheld
  have hl := (lookup_iff hi.slots (hi.slots.word _ hlt)).mpr ⟨hlt, hgone, rfl⟩
  obtain ⟨-, -, -, -, hdrops, hcleanup, -⟩ := manifestRelease_same hl
  unfold releaseOwned
  rw [hl]
  have hfinal := hi.ownerDropped .released s.drops s.cleanup hheld nofun (fun j => ?_)
    (fun j hj => (hi.refs.fresh j hj).2) hgen (fun _ _ => rfl) fun t _ _ _ => ?_
  · rw [← hdrops, ← hcleanup] at hfinal
    exact hfinal
  · by_cases hj : j = id
    · have hd := hi.refs.drops id
      rw [if_neg (by rw [show s.ownerRef id = .held from hheld]; nofun)] at hd
      rw [hj, update_self, hd]
      rfl
    · rw [update_of_ne hj]
      exact hi.refs.drops j
  · rw [hidle]
    trivial

/-! ## The cleanup of an owner -/

theorem TableInv.setCleanup (hi : TableInv s) {c : Cleanup} (hc : CleanupOk s pid c) :
    TableInv (s.setCleanup pid c) := by
  refine ⟨hi.slots.ghosts _ _ _ _, ⟨hi.refs.count, hi.refs.pos, hi.refs.bound, hi.refs.gone, hi.refs.fresh,
    hi.refs.pinned, hi.refs.drops⟩, fun p => ?_⟩
  change CleanupOk _ p (update s.cleanup pid c p)
  by_cases hp : p = pid
  · rw [hp, update_self]
    exact hc.ofHeld (fun j hj ho => ⟨rfl, hj, ho⟩) fun j hj ho => ⟨hj, ho⟩
  · rw [update_of_ne hp]
    exact (hi.cleanup p).ofHeld (fun j hj ho => ⟨rfl, hj, ho⟩) fun j hj ho => ⟨hj, ho⟩

theorem ownedBy_iff :
    s.ownedBy pid i = true ↔ ∃ id, (s.slots i).manifest = some id ∧ (s.objects id).ownerPid = pid := by
  unfold ownedBy
  rw [any_eq_true]
  simp only [decide_eq_true_eq]

/-- A batch is collected while the owner still holds all its manifests. -/
theorem collectBatch_ok (hs : SlotsOk s) (hr : RefsOk s)
    (hall : ∀ i id, s.At i id → (s.objects id).ownerPid = pid → s.Held id) :
    CleanupOk s pid (.release (s.collectBatch pid) (s.collectBatch pid).length) := by
  have hcap := hs.cap
  unfold tableMaxCap at hcap
  refine ⟨?_, fun h hh => ?_, fun hlast id hheld howner => ?_⟩
  · refine List.Nodup.map_on (fun i hi j hj he => ?_) ((List.nodup_range.filter _).take)
    have hlt : ∀ k, k ∈ ((List.range s.capacity).filter (s.ownedBy pid)).take batchSize → k < s.capacity := fun k hk =>
      List.mem_range.mp (List.mem_of_mem_filter (List.mem_of_mem_take hk))
    have h1 := hlt i hi
    have h2 := hlt j hj
    unfold makeHandle at he
    omega
  · obtain ⟨i, hi, rfl⟩ := List.mem_map.mp hh
    obtain ⟨hrange, howned⟩ := List.mem_filter.mp (List.mem_of_mem_take hi)
    obtain ⟨id, hid, howner⟩ := ownedBy_iff.mp howned
    have hat : s.At i id := ⟨List.mem_range.mp hrange, hid⟩
    exact ⟨id, (hs.inTable i id hat).2.2, hall i id hat howner, howner⟩
  · obtain ⟨hlt, hgone⟩ := Held.live hr hheld
    obtain ⟨i, hi⟩ := hs.live id hlt hgone
    have hlen : ((List.range s.capacity).filter (s.ownedBy pid)).length ≤ batchSize := by
      unfold collectBatch at hlast
      rw [List.length_map, List.length_take] at hlast
      omega
    unfold collectBatch
    rw [List.take_of_length_le hlen, (hs.inTable i id hi).2.2]
    refine List.mem_map.mpr ⟨i, List.mem_filter.mpr ⟨List.mem_range.mpr hi.1, ?_⟩, rfl⟩
    exact ownedBy_iff.mpr ⟨id, hi.2, howner⟩

theorem TableInv.cleaned (hi : TableInv s) {rest : List Nat} {collected : Nat}
    (hc : s.cleanup pid = .release (h :: rest) collected) (hgen : (s.slots (handleSlot h)).generation + 1 < 2 ^ 32) :
    ∃ id t, s.cleanupStep pid = some t ∧ TableInv t ∧ s.Held id ∧ (s.objects id).ownerPid = pid ∧ s.handleOf id = h ∧
    (∀ j, t.Held j ↔ s.Held j ∧ j ≠ id) ∧ (∀ j, (t.objects j).ownerPid = (s.objects j).ownerPid) ∧
    t.nextObject = s.nextObject ∧ t.cleanup = update s.cleanup pid (.release rest collected) := by
  have hbatch := hi.cleanup pid
  rw [hc] at hbatch
  obtain ⟨hnodup, hmem, hlast⟩ := hbatch
  obtain ⟨hnot, hnodup⟩ := List.nodup_cons.mp hnodup
  obtain ⟨id, hhandle, hheld, howner⟩ := hmem h List.mem_cons_self
  obtain ⟨hlt, hgone⟩ := Held.live hi.refs hheld
  have hl := (lookup_iff hi.slots (hi.slots.word _ hlt)).mpr ⟨hlt, hgone, rfl⟩
  obtain ⟨-, hpid, -, -, hdrops, hcleanup, hnext⟩ := manifestRelease_same hl
  have hd := hi.refs.drops
  have hdid := hd id
  rw [if_neg (by rw [show s.ownerRef id = .held from hheld]; nofun)] at hdid
  have hfinal := hi.ownerDropped .cleaned (update s.drops id (s.drops id + 1))
    (update s.cleanup pid (.release rest collected)) hheld nofun (fun j => ?_) (fun j hj => ?_)
    (hhandle ▸ hgen) (fun p hp => update_of_ne (howner ▸ hp) ..) fun t hth hto hheldt => ?_
  · rw [← hhandle] at hc
    refine ⟨id, _, ?_, hfinal, hheld, howner, hhandle, fun j => ?_, hpid, hnext, rfl⟩
    · unfold cleanupStep
      rw [hc]
      dsimp only
      rw [hl]
      unfold releaseOwned
      rw [hl]
      dsimp only [TableState.setCleanup]
      rw [hdrops, hcleanup]
    · unfold Held
      dsimp only
      by_cases hj : j = id
      · rw [hj, update_self]
        exact ⟨nofun, fun he => absurd rfl he.2⟩
      · rw [update_of_ne hj]
        exact ⟨fun he => ⟨he, hj⟩, fun he => he.1⟩
  · by_cases hj : j = id
    · rw [hj, update_self, update_self, hdid]
      rfl
    · rw [update_of_ne hj, update_of_ne hj]
      exact hd j
  · rw [update_of_ne fun e : j = id => Nat.lt_irrefl _ (hlt.trans_le (e ▸ hj))]
    exact (hi.refs.fresh j hj).2
  · rw [howner, update_self]
    refine ⟨hnodup, fun h' hh' => ?_, fun hl' j hj ho => ?_⟩
    · obtain ⟨j, hjh, hj, ho⟩ := hmem h' (List.mem_cons_of_mem _ hh')
      refine ⟨j, (congrFun hth j).trans hjh, (hheldt j).mpr ⟨hj, fun e => hnot ?_⟩, (hto j).trans ho⟩
      rw [← hhandle, ← e, hjh]
      exact hh'
    · obtain ⟨hj', hne⟩ := (hheldt j).mp hj
      have hin := hlast hl' j hj' ((hto j).symm.trans ho)
      rw [hth]
      rcases List.mem_cons.mp hin with he | hin
      · obtain ⟨hjl, hjg⟩ := Held.live hi.refs hj'
        exact absurd (handleOf_inj hi.slots hjl hjg hlt hgone (he.trans hhandle.symm)) hne
      · exact hin

end BoxOS.Manifest
