import BoxOS.Memory.GuardInv

/-!
# Runs with guard tags

An attachment of a live process's cabin is active exactly when the mask of the cabin holds every guard tag of the
region, as long as every call meets its condition (`Meets`): `MemTagApply`, `MemTagClear` and `MemRegionAttachCabin` do
not look at the attachments or at the mask (`apply_leaves_active`), and a sweep reaches a bounded number of them.
-/

namespace BoxOS.Memory

open Lib MemTagBitmapIndex List

/-! ## Processes -/

namespace ProcTable

/-- A live process has the cabin. -/
def Live (tbl : ProcTable) (ctx : Nat) : Prop := ∃ p ∈ tbl.procs, p.cabin = some ctx

instance (tbl : ProcTable) (ctx : Nat) : Decidable (tbl.Live ctx) := inferInstanceAs (Decidable (∃ p ∈ _, _))

theorem find_mem {tbl : ProcTable} {p : Proc} (hp : p ∈ tbl.procs) : tbl.find p.pid = some p := by
  obtain ⟨q, hq⟩ : ∃ q, tbl.find p.pid = some q :=
    Option.isSome_iff_exists.mp (find?_isSome.mpr ⟨p, hp, decide_eq_true rfl⟩)
  have hpid : q.pid = p.pid := by simpa using find?_some hq
  rw [hq, eq_of_key tbl.pids (mem_of_find?_eq_some hq) hp hpid]

end ProcTable

namespace GuardState

open MemTagState

variable {physDomain : Nat → Nat} {tbl : ProcTable} {s s' : GuardState} {t : UInt16} {id : Nat} {r : MemRegion}
  {a : MemRegionAttach}

/-! ## The policy -/

/-- The attachment is active exactly when the mask of its cabin holds every guard tag of the region. -/
def Right (s : GuardState) (r : MemRegion) (a : MemRegionAttach) : Prop :=
  a.state = .active ↔ s.mem.HoldsGuards (s.mask a.ctx) r

theorem right_iff (h : s.mem.Ready) (hr : s.mem.region id = some r) (a : MemRegionAttach) :
    s.Right r a ↔ a.state = s.mem.target (s.mask a.ctx) id := by
  unfold Right target
  rw [← satisfies_iff hr (h.coherent.sorted id r hr) (h.seen id r hr)]
  cases a.state <;> cases s.mem.cabinSatisfiesRegion (s.mask a.ctx) id <;> simp

/-- What holds after every call. -/
structure Inv (tbl : ProcTable) (s : GuardState) : Prop where
  ready : s.mem.Ready
  right : ∀ id r, s.mem.region id = some r → ∀ a ∈ r.attaches, tbl.Live a.ctx → s.Right r a

/-- An active attachment loses the region when the tag becomes one of its guards. -/
def Loses (s : GuardState) (t : UInt16) (a : MemRegionAttach) : Prop :=
  a.state = .active ∧ maskHas (s.mask a.ctx) t = false

/-- A revoked attachment gains the region when the tag is none of its guards any more, or is granted. -/
def Gains (s : GuardState) (t : UInt16) (r : MemRegion) (a : MemRegionAttach) : Prop :=
  a.state = .revoked ∧ s.mem.HoldsOthers (s.mask a.ctx) r t

/-- The sweep for the tag gets to the attachment of the region. -/
def Near (s : GuardState) (t : UInt16) (id : Nat) (r : MemRegion) (a : MemRegionAttach) : Prop :=
  s.mem.Listed t id ∧ a ∈ r.attaches.take enforceAttachesPerRegion

/-- The sweep over the processes gets to the cabin, and its query can be computed. -/
def Visited (tbl : ProcTable) (al : Nat → Allocs) (ctx : Nat) : Prop :=
  ∃ p ∈ tbl.procs.take sweepPidsPerCall, p.cabin = some ctx ∧ (al p.pid).workspace = true

/-- `MemTagBitmapSet` gets the memory it asks for. -/
def sets (al : Allocs) : Bool := al.array && al.bitmap && al.bits

theorem addCounted_of_sets {al : Allocs} (h : sets al = true) (m : MemTagState) (id : Nat) (t : UInt16) :
    m.addCounted id t al = m.addCounted id t := by
  simp only [sets, Bool.and_eq_true] at h
  obtain ⟨⟨harray, hbitmap⟩, hbits⟩ := h
  unfold MemTagState.addCounted MemTagState.bitmapSet memTagBitmapSet ensureArray ensureSlot setIn
  rw [harray, hbitmap, hbits]

/-- Where a call keeps the policy: the generation of the index does not wrap and `MemTagBitmapSet` gets its memory;
applying and clearing a tag makes no live attachment lose or gain its region, and a sweep gets to those that do; a guard
tag is among the first tags of its regions; and a cabin is attached to regions whose guard tags it holds. -/
def Meets (tbl : ProcTable) (s : GuardState) : Op → Prop
  | .create _ _ _ _ al => s.mem.index.generation + 1 < 2 ^ 64 ∧ sets al = true
  | .apply id name al =>
    s.mem.index.generation + 1 < 2 ^ 64 ∧ sets al = true ∧
      ∀ t ∈ (s.mem.internStr name).1, ∀ r ∈ s.mem.region id, t ∉ r.tagIds →
        (∀ g ∈ t :: r.tagIds, s.mem.isGuard g = true →
          (t :: r.tagIds).countP (fun x => decide (x < g)) < guardsPerRegion) ∧
        (s.mem.isGuard t = true → ∀ a ∈ r.attaches, tbl.Live a.ctx → ¬s.Loses t a)
  | .clear id name =>
    s.mem.index.generation + 1 < 2 ^ 64 ∧
      ∀ t ∈ s.mem.lookupStr name, ∀ r ∈ s.mem.region id, t ∈ r.tagIds → s.mem.isGuard t = true →
        ∀ a ∈ r.attaches, tbl.Live a.ctx → ¬s.Gains t r a
  | .setGuard name guard al =>
    ∀ t ∈ (s.mem.internStr name).1, s.mem.isGuard t ≠ guard →
      s.mem.EachRegion fun id r => t ∈ r.tagIds →
        (guard = true → Seen r t) ∧
        ∀ a ∈ r.attaches, tbl.Live a.ctx → (if guard then s.Loses t a else s.Gains t r a) →
          s.Near t id r a ∧ Visited tbl al a.ctx
  | .grant pid t al =>
    ∀ ctx ∈ (tbl.find pid).bind (·.cabin), maskHas (s.mask ctx) t = false → s.mem.isGuard t = true →
      s.mem.EachRegion fun id r => t ∈ r.tagIds → ∀ a ∈ r.attaches, a.ctx = ctx → s.Gains t r a →
        s.Near t id r a ∧ al.workspace = true
  | .revoke pid t al =>
    ∀ ctx ∈ (tbl.find pid).bind (·.cabin), maskHas (s.mask ctx) t = true → s.mem.isGuard t = true →
      s.mem.EachRegion fun id r => t ∈ r.tagIds → ∀ a ∈ r.attaches, a.ctx = ctx → a.state = .active →
        s.Near t id r a ∧ al.workspace = true
  | .attach id ctx _ pages =>
    ctx ≠ 0 → pages ≠ 0 → tbl.Live ctx → ∀ r ∈ s.mem.region id, s.mem.HoldsGuards (s.mask ctx) r
  | .detach _ _ _ => True
  | .destroy id => s.mem.index.generation + s.mem.tagCount id < 2 ^ 64

instance (s : GuardState) (t : UInt16) (a : MemRegionAttach) : Decidable (s.Loses t a) :=
  inferInstanceAs (Decidable (_ ∧ _))

instance (s : GuardState) (t : UInt16) (r : MemRegion) (a : MemRegionAttach) : Decidable (s.Gains t r a) :=
  inferInstanceAs (Decidable (_ ∧ _))

instance (s : GuardState) (t : UInt16) (id : Nat) (r : MemRegion) (a : MemRegionAttach) : Decidable (s.Near t id r a) :=
  inferInstanceAs (Decidable (_ ∧ _))

instance (tbl : ProcTable) (al : Nat → Allocs) (ctx : Nat) : Decidable (Visited tbl al ctx) :=
  inferInstanceAs (Decidable (∃ p ∈ _, _))

instance (tbl : ProcTable) (s : GuardState) : (op : Op) → Decidable (s.Meets tbl op)
  | .create _ _ _ _ _ => inferInstanceAs (Decidable (_ ∧ _))
  | .apply _ _ _ => inferInstanceAs (Decidable (_ ∧ _))
  | .clear _ _ => inferInstanceAs (Decidable (_ ∧ _))
  | .setGuard _ _ _ => inferInstanceAs (Decidable (∀ t ∈ _, _))
  | .grant _ _ _ => inferInstanceAs (Decidable (∀ ctx ∈ _, _))
  | .revoke _ _ _ => inferInstanceAs (Decidable (∀ ctx ∈ _, _))
  | .attach _ _ _ _ => inferInstanceAs (Decidable (_ → _ → _ → ∀ r ∈ _, _))
  | .detach _ _ _ => inferInstanceAs (Decidable True)
  | .destroy _ => inferInstanceAs (Decidable (_ < _))

/-! ## Sweeps -/

theorem right_of_adjusts (h : s.mem.Ready) (h' : s'.mem.Ready) (hmask : s'.mask = s.mask)
    (hadj : Adjusts s.mask s.mem s'.mem) (hset : ∀ id r, s.mem.region id = some r → ∀ a ∈ r.attaches, tbl.Live a.ctx →
    ¬s.Right r a → s'.mem.Settled s.mask (id, a.key)) : ∀ id r, s'.mem.region id = some r →
    ∀ a ∈ r.attaches, tbl.Live a.ctx → s'.Right r a := by
  intro id r' hr' a' ha' hlive
  rw [right_iff h' hr', hmask]
  obtain ⟨r, hr, -, -, hall⟩ := hadj.region hr'
  obtain ⟨a, ha, hk, rfl | hst⟩ := hall a' ha'
  · by_cases hright : s.Right r a'
    · rw [hadj.same.target]
      exact (right_iff h hr a').mp hright
    · exact hset id r hr a' ha hlive hright r' hr' a' ha' rfl
  · rw [hadj.same.target]
    exact hst

theorem enforce_spec (h : s.mem.Ready) (ctx : Nat) (t : UInt16) (revoke : Bool) (al : Allocs) :
    (s.enforce ctx t revoke al).mem.Ready ∧ Adjusts s.mask s.mem (s.enforce ctx t revoke al).mem ∧
    (al.workspace = true → ∀ id k, s.mem.Listed t id → Swept s.mask ctx revoke s.mem id k →
    (s.enforce ctx t revoke al).mem.Settled s.mask (id, k)) :=
  enforceForCabinTag_spec h s.mask ctx t revoke al

theorem memTagSweepGuard_spec (tbl : ProcTable) (h : s.mem.Ready) (t : UInt16) (guardOn : Bool) (al : Nat → Allocs) :
    (s.memTagSweepGuard tbl t guardOn al).mem.Ready ∧ (s.memTagSweepGuard tbl t guardOn al).mask = s.mask ∧
    Adjusts s.mask s.mem (s.memTagSweepGuard tbl t guardOn al).mem ∧ ∀ ctx, Visited tbl al ctx →
    ∀ id k, s.mem.Listed t id → Swept s.mask ctx guardOn s.mem id k →
    (s.memTagSweepGuard tbl t guardOn al).mem.Settled s.mask (id, k) := by
  have hpid : ∀ {s : GuardState}, s.mem.Ready → ∀ pid, (sweepPid tbl t guardOn al s pid).mem.Ready ∧
      (sweepPid tbl t guardOn al s pid).mask = s.mask ∧
      Adjusts s.mask s.mem (sweepPid tbl t guardOn al s pid).mem := by
    intro s h pid
    unfold sweepPid
    split
    · exact ⟨h, rfl, .refl s.mask s.mem⟩
    · obtain ⟨h1, h2, -⟩ := enforce_spec h _ t guardOn (al pid)
      exact ⟨h1, rfl, h2⟩
  obtain ⟨hready, ⟨hmask, hadj⟩, hset⟩ := Lib.foldl_settles (G := fun s : GuardState => s.mem.Ready)
    (A := fun s s' => s'.mask = s.mask ∧ Adjusts s.mask s.mem s'.mem)
    (C := fun s pid (x : Nat × Nat × Nat) => ∃ ctx, (tbl.find pid).bind (·.cabin) = some ctx ∧
      (al pid).workspace = true ∧ s.mem.Listed t x.1 ∧ Swept s.mask ctx guardOn s.mem x.1 x.2)
    (D := fun s x => s.mem.Settled s.mask x) (f := sweepPid tbl t guardOn al)
    (fun s => ⟨rfl, .refl s.mask s.mem⟩)
    (fun h h' => ⟨h'.1.trans h.1, h.2.trans (h.1 ▸ h'.2)⟩)
    (fun h pid => ⟨(hpid h pid).1, (hpid h pid).2⟩)
    (fun {s} h pid x hc => by
      obtain ⟨ctx, hctx, hw, hlisted, hswept⟩ := hc
      unfold sweepPid
      simp only [hctx]
      exact (enforce_spec h ctx t guardOn (al pid)).2.2 hw x.1 x.2 hlisted hswept)
    (fun {s s'} hadj pid x hc => by
      obtain ⟨ctx, hctx, hw, hlisted, hswept⟩ := hc
      rw [hadj.1]
      exact ⟨ctx, hctx, hw, hadj.2.listed hlisted, hswept.adjusts hadj.2⟩)
    (fun {s s'} hadj x hd => by
      rw [hadj.1]
      exact hadj.2.settled hd)
    (tbl.snapshotPids sweepPidsPerCall) h
  refine ⟨hready, hmask, hadj, fun ctx hvisit id k hlisted hswept => ?_⟩
  obtain ⟨p, hp, hcabin, hw⟩ := hvisit
  have hfind : (tbl.find p.pid).bind (·.cabin) = some ctx := by
    rw [ProcTable.find_mem (mem_of_mem_take hp)]
    exact hcabin
  have := hset p.pid (mem_map.mpr ⟨p, hp, rfl⟩) (id, k) ⟨ctx, hfind, hw, hlisted, hswept⟩
  unfold memTagSweepGuard
  rwa [hmask] at this

theorem swept_of_near (h : s.mem.Ready) (hr : s.mem.region id = some r) (hnear : s.Near t id r a) {revoke : Bool}
    (hdir : ∀ b ∈ r.attaches, b.ctx = a.ctx → s.Right r b ∨ b.state = if revoke then .active else .revoked) :
    Swept s.mask a.ctx revoke s.mem id a.key := by
  refine ⟨⟨r, hr, mem_map.mpr ⟨a, hnear.2, rfl⟩, fun b hb hctx => ?_⟩, rfl⟩
  rcases hdir b hb hctx with hright | hst
  · exact .inl (hctx ▸ (right_iff h hr b).mp hright)
  · exact .inr hst

/-! ## One call -/

theorem more_guards {st : AttachState} {P Q q : Prop} (h : st = .active ↔ P) (hQ : Q ↔ P ∧ q) :
    (st = .active ↔ Q) ∨ st = .active ∧ ¬q := by
  by_cases hq : q
  · exact .inl (h.trans ⟨fun hp => hQ.mpr ⟨hp, hq⟩, fun hx => (hQ.mp hx).1⟩)
  · by_cases hst : st = .active
    · exact .inr ⟨hst, hq⟩
    · exact .inl ⟨fun hs => absurd hs hst, fun hx => absurd (hQ.mp hx).2 hq⟩

theorem fewer_guards {st : AttachState} {P Q : Prop} (h : st = .active ↔ P) (hQ : P → Q) :
    (st = .active ↔ Q) ∨ st = .revoked ∧ Q := by
  cases st with
  | active => exact .inl ⟨fun hs => hQ (h.mp hs), fun _ => rfl⟩
  | revoked =>
    by_cases hq : Q
    · exact .inr ⟨rfl, hq⟩
    · exact .inl ⟨nofun, fun hx => absurd hx hq⟩

theorem holdsOthers_of_holds {m : MemTagState} {mask : TagMask} (h : m.HoldsGuards mask r) (t : UInt16) :
    m.HoldsOthers mask r t := fun g hg hgd _ => h g hg hgd

theorem Inv.of_same (h : Inv tbl s) {m : MemTagState} (hready : m.Ready)
    (hregion : ∀ j q, m.region j = some q → s.mem.region j = some q ∨ q.attaches = [])
    (hguard : ∀ g, m.isGuard g = s.mem.isGuard g) : Inv tbl { s with mem := m } := by
  refine ⟨hready, fun id r hr a ha hlive => ?_⟩
  rcases hregion id r hr with hr | hempty
  · have hright := h.right id r hr a ha hlive
    unfold Right HoldsGuards at hright ⊢
    simp only [hguard]
    exact hright
  · rw [hempty] at ha
    cases ha

theorem Inv.internStr (h : Inv tbl s) (name : String) : Inv tbl { s with mem := (s.mem.internStr name).2 } :=
  h.of_same (h.ready.internStr name) (fun j _ hr => .inl ((region_internStr h.ready.coherent name j).symm.trans hr))
    (isGuard_internStr h.ready.coherent name)

theorem Inv.apply (h : Inv tbl s) {name : String} {al : Allocs} (hm : s.Meets tbl (.apply id name al)) :
    Inv tbl (s.next physDomain tbl (.apply id name al)) := by
  obtain ⟨hgen, hsets, hm⟩ := hm
  have hi := h.internStr name
  have hc := h.ready.coherent
  have hregion := region_internStr hc name
  have hguard := isGuard_internStr hc name
  have hlt := (internStr_spec hc name).2.2
  have hindex : (s.mem.internStr name).2.index = s.mem.index := by
    obtain ⟨⟨es, heq, -⟩, -⟩ := internStr_spec hc name
    rw [heq]
  unfold next MemTagState.memTagApply
  simp only [addCounted_of_sets hsets]
  split
  · exact h
  split
  · rename_i m he
    rw [he] at hi
    exact hi
  rename_i t m he
  rw [he] at hi hregion hguard hlt hindex
  have hm := hm t (by rw [he]; rfl)
  split
  · exact hi
  rename_i m' hadd
  obtain ⟨-, r, r', hadded⟩ := addCounted_added hi.ready.coherent (hlt t rfl) hadd
  have hbefore : s.mem.region id = some r := (hregion id).symm.trans hadded.before
  refine ⟨hi.ready.addCounted (hlt t rfl) (hindex ▸ hgen) hadd fun q hq hnot g hg hgd => ?_,
    fun j q hq a ha hlive => ?_⟩
  · exact (hm q ((hregion id).symm.trans hq) hnot).1 g hg ((hguard g).symm.trans hgd)
  · simp only at hq
    rw [hadded.after] at hq
    split at hq
    · cases hq
      have ha := hadded.attaches ▸ ha
      have hright := hi.right id r hadded.before a ha hlive
      rcases more_guards hright (holds_added hadded) with hok | ⟨hst, hnot⟩
      · exact hok
      -- the tag is a guard that the mask lacks, so the region had it before
      have hgd : m.isGuard t = true := by
        by_contra hno
        exact hnot fun hyes => absurd hyes hno
      have hlacks : maskHas (s.mask a.ctx) t = false := by
        by_contra hhas
        exact hnot fun _ => by simpa using hhas
      by_cases hin : t ∈ r.tagIds
      · have := hright.mp hst t hin hgd
        rw [hlacks] at this
        cases this
      · exact absurd ⟨hst, hlacks⟩ ((hm r hbefore hin).2 ((hguard t).symm.trans hgd) a ha hlive)
    · have hright := hi.right j q hq a ha hlive
      unfold Right HoldsGuards at hright ⊢
      simp only [hadded.guards]
      exact hright

theorem Inv.clear (h : Inv tbl s) {name : String} (hm : s.Meets tbl (.clear id name)) :
    Inv tbl (s.next physDomain tbl (.clear id name)) := by
  obtain ⟨hgen, hm⟩ := hm
  unfold next MemTagState.memTagClear
  simp only
  split
  · exact h
  split
  · exact h
  rename_i t ht
  split
  · exact h
  rename_i m hrem
  obtain ⟨-, r, hremoved⟩ := removeCounted_removed h.ready.coherent hrem
  refine ⟨(h.ready.removeCounted hgen hrem).1, fun j q hq a ha hlive => ?_⟩
  rw [hremoved.after] at hq
  split at hq
  · cases hq
    have ha := hremoved.attaches ▸ ha
    have hright := h.right id r hremoved.before a ha hlive
    unfold Right
    by_cases hguard : t ∈ r.tagIds ∧ s.mem.isGuard t = true
    · rcases fewer_guards hright (fun hh => (holds_removed hremoved).mpr (holdsOthers_of_holds hh t)) with
        hok | ⟨hst, hh⟩
      · exact hok
      · exact absurd ⟨hst, (holds_removed hremoved).mp hh⟩ (hm t ht r hremoved.before hguard.1 hguard.2 a ha hlive)
    · exact hright.trans ((holds_others hguard).symm.trans (holds_removed hremoved).symm)
  · have hright := h.right j q hq a ha hlive
    unfold Right HoldsGuards at hright ⊢
    simp only [hremoved.guards]
    exact hright

theorem Inv.attach (h : Inv tbl s) {ctx va pages : Nat} (hm : s.Meets tbl (.attach id ctx va pages)) :
    Inv tbl (s.next physDomain tbl (.attach id ctx va pages)) := by
  unfold next MemTagState.registryAttach
  simp only
  split
  · exact h
  rename_i hvalid
  have hsame := modifyAttaches_sameTags s.mem id (attachAt ctx va)
  have hguards := hsame.isGuard
  refine ⟨h.ready.modifyAttaches id fun as hnodup => attachAt_keys hnodup, fun j q hq a ha hlive => ?_⟩
  rw [region_modifyAttaches] at hq
  split at hq
  · obtain ⟨r, hr, rfl⟩ := Option.map_eq_some_iff.mp hq
    have hright : s.Right r a := by
      rcases mem_attachAt (h.ready.keys id r hr) ha with ha | ⟨hctx, hst⟩
      · exact h.right id r hr a ha hlive
      · have hholds := hm (fun he => hvalid (.inl he)) (fun he => hvalid (.inr he)) (hctx ▸ hlive) r hr
        exact ⟨fun _ => hctx ▸ hholds, fun _ => hst⟩
    unfold Right HoldsGuards at hright ⊢
    simp only [hguards]
    exact hright
  · have hright := h.right j q hq a ha hlive
    unfold Right HoldsGuards at hright ⊢
    simp only [hguards]
    exact hright

theorem Inv.detach (h : Inv tbl s) (id ctx va : Nat) : Inv tbl (s.next physDomain tbl (.detach id ctx va)) := by
  unfold next MemTagState.registryDetach
  simp only
  split
  · exact h
  have hsame := modifyAttaches_sameTags s.mem id (detachAt ctx va)
  have hguards := hsame.isGuard
  refine ⟨h.ready.modifyAttaches id fun as hnodup => ?_, fun j q hq a ha hlive => ?_⟩
  · exact hnodup.sublist ((eraseP_sublist).map _)
  · simp only at hq
    obtain ⟨r, hr, hids, ha⟩ : ∃ r, s.mem.region j = some r ∧ q.tagIds = r.tagIds ∧ a ∈ r.attaches := by
      rw [region_modifyAttaches] at hq
      split at hq
      · rename_i hj
        obtain ⟨r, hr, rfl⟩ := Option.map_eq_some_iff.mp hq
        exact ⟨r, hj ▸ hr, rfl, mem_of_mem_eraseP ha⟩
      · exact ⟨q, hq, rfl, ha⟩
    have hright := h.right j r hr a ha hlive
    unfold Right HoldsGuards at hright ⊢
    simp only [hguards, hids]
    exact hright

theorem Inv.destroy (h : Inv tbl s) (hm : s.Meets tbl (.destroy id)) :
    Inv tbl (s.next physDomain tbl (.destroy id)) := by
  obtain ⟨hready, hothers, hgone⟩ := h.ready.memRegionDestroy id hm
  refine h.of_same hready (fun j r hr => .inl ?_) hothers.guards
  by_cases hj : j = id
  · by_cases hinvalid : id = invalidRegionId
    · unfold MemTagState.memRegionDestroy at hr
      rwa [if_pos hinvalid] at hr
    · rw [hj, hgone hinvalid] at hr
      cases hr
  · exact (hothers.regions j hj).symm.trans hr

theorem Inv.setGuard (h : Inv tbl s) {name : String} {guard : Bool} {al : Nat → Allocs}
    (hm : s.Meets tbl (.setGuard name guard al)) : Inv tbl (s.next physDomain tbl (.setGuard name guard al)) := by
  have hc := h.ready.coherent
  have hi := h.internStr name
  have hregion := region_internStr hc name
  have hguard := isGuard_internStr hc name
  have hlt := (internStr_spec hc name).2.2
  unfold next memTagSetGuard
  simp only
  split
  · rename_i m he
    rw [he] at hi
    exact hi
  rename_i t m he
  rw [he] at hi hregion hguard hlt
  have ht := hlt t rfl
  split
  · rename_i hsame
    refine hi.of_same (hi.ready.markGuard ht fun hg id r hr hin => ?_) (fun j r hr => .inl hr) fun g => ?_
    · exact hi.ready.seen id r hr t hin (hsame.trans hg)
    · rw [isGuard_markGuard ht]
      split
      · rename_i hg
        exact hg ▸ hsame.symm
      · rfl
  rename_i hne
  have hm := hm t (by rw [he]; rfl) fun heq => hne ((hguard t).trans heq)
  have h1 : (m.markGuard t guard).Ready := hi.ready.markGuard ht fun hg id r hr hin =>
    (hm id r ((hregion id).symm.trans hr) hin).1 hg
  -- what the flag makes wrong is on a region with the tag
  have hcases : ∀ id r, m.region id = some r → ∀ b ∈ r.attaches, tbl.Live b.ctx →
      Right ⟨m.markGuard t guard, s.mask⟩ r b ∨ t ∈ r.tagIds ∧ if guard then s.Loses t b else s.Gains t r b := by
    intro id r hr b hb hlive
    have hright := hi.right id r hr b hb hlive
    cases guard with
    | true =>
      refine (more_guards hright (holds_marked ht)).imp_right fun ⟨hst, hnot⟩ => ?_
      obtain ⟨hin, hlacks⟩ := Classical.not_imp.mp hnot
      exact ⟨hin, hst, by simpa using hlacks⟩
    | false =>
      by_cases hin : t ∈ r.tagIds
      · refine (fewer_guards hright fun hh => (holds_unmarked ht).mpr (holdsOthers_of_holds hh t)).imp_right
          fun ⟨hst, hh⟩ => ⟨hin, hst, fun g hg hgd hgt => ?_⟩
        exact (holds_unmarked ht).mp hh g hg ((hguard g).trans hgd) hgt
      · exact .inl (hright.trans ((holds_others fun hh => hin hh.1).symm.trans (holds_unmarked ht).symm))
  obtain ⟨hready, hmask, hadj, hset⟩ := memTagSweepGuard_spec tbl (s := ⟨m.markGuard t guard, s.mask⟩) h1 t guard al
  refine ⟨hready, right_of_adjusts h1 hready hmask hadj fun id r hr a ha hlive hnot => ?_⟩
  obtain ⟨hin, hchange⟩ := (hcases id r hr a ha hlive).resolve_left hnot
  obtain ⟨hnear, hvisit⟩ := (hm id r ((hregion id).symm.trans hr) hin).2 a ha hlive hchange
  have hcarries : (m.markGuard t guard).carries = s.mem.carries := carries_lists fun j => by
    rw [← hregion j]
    rfl
  have hlisted : (m.markGuard t guard).Listed t id := by
    have hlisted := hnear.1
    unfold Listed at hlisted ⊢
    rw [hcarries]
    exact hlisted
  refine hset a.ctx hvisit id a.key hlisted (swept_of_near h1 hr ⟨hlisted, hnear.2⟩ fun b hb hctx => ?_)
  refine (hcases id r hr b hb (hctx ▸ hlive)).imp_right fun hb => ?_
  cases guard with
  | true => exact hb.2.1
  | false => exact hb.2.1

theorem Inv.remask (h : Inv tbl s) {ctx : Nat} {mask : TagMask} (revoke : Bool) (t : UInt16) (al : Allocs)
    (hcases : ∀ id r, s.mem.region id = some r → ∀ b ∈ r.attaches, tbl.Live b.ctx →
    (s.setMask ctx mask).Right r b ∨ b.ctx = ctx ∧ s.mem.isGuard t = true ∧
    (b.state = if revoke then .active else .revoked) ∧ s.Near t id r b ∧ al.workspace = true) :
    Inv tbl (if s.mem.isGuard t then (s.setMask ctx mask).enforce ctx t revoke al else s.setMask ctx mask) := by
  have h1 : (s.setMask ctx mask).mem.Ready := h.ready
  split
  · obtain ⟨hready, hadj, hset⟩ := enforce_spec h1 ctx t revoke al
    refine ⟨hready, right_of_adjusts h1 hready rfl hadj fun id r hr a ha hlive hnot => ?_⟩
    obtain ⟨hctx, -, -, hnear, hw⟩ := (hcases id r hr a ha hlive).resolve_left hnot
    refine hset hw id a.key hnear.1 (hctx ▸ swept_of_near h1 hr hnear fun b hb hbctx => ?_)
    exact (hcases id r hr b hb (hbctx ▸ hlive)).imp_right fun hb => hb.2.2.1
  · rename_i hguard
    refine ⟨h.ready, fun id r hr a ha hlive => ?_⟩
    exact (hcases id r hr a ha hlive).resolve_right fun hc => hguard hc.2.1

theorem Inv.grant (h : Inv tbl s) {pid : Nat} {al : Allocs} (hm : s.Meets tbl (.grant pid t al)) :
    Inv tbl (s.next physDomain tbl (.grant pid t al)) := by
  unfold next memCabinGrant
  simp only
  split
  · exact h
  split
  · exact h
  rename_i hbits
  split
  · exact h
  rename_i ctx hctx
  split
  · exact h
  rename_i hnot
  have hm := hm ctx hctx (by simpa using hnot)
  refine h.remask false t al fun id r hr b hb hlive => ?_
  have hright := h.right id r hr b hb hlive
  unfold Right at hright ⊢
  unfold setMask
  simp only
  by_cases hbctx : b.ctx = ctx
  · have hholds : s.mem.HoldsGuards (maskSet (s.mask ctx) t) r ↔ s.mem.HoldsOthers (s.mask ctx) r t :=
      holds_maskSet (not_le.mp hbits)
    rw [if_pos hbctx, hholds]
    rw [hbctx] at hright
    by_cases hin : t ∈ r.tagIds ∧ s.mem.isGuard t = true
    · refine (fewer_guards hright fun hh => holdsOthers_of_holds hh t).imp_right fun ⟨hst, hh⟩ => ?_
      exact ⟨hbctx, hin.2, hst, hm hin.2 id r hr hin.1 b hb hbctx ⟨hst, hbctx ▸ hh⟩⟩
    · exact .inl (hright.trans (holds_others hin).symm)
  · rw [if_neg hbctx]
    exact .inl hright

theorem Inv.revoke (h : Inv tbl s) {pid : Nat} {al : Allocs} (hm : s.Meets tbl (.revoke pid t al)) :
    Inv tbl (s.next physDomain tbl (.revoke pid t al)) := by
  unfold next memCabinRevoke
  simp only
  split
  · exact h
  split
  · exact h
  split
  · exact h
  rename_i ctx hctx
  split
  · rename_i hheld
    have hm := hm ctx hctx hheld
    refine h.remask true t al fun id r hr b hb hlive => ?_
    have hright := h.right id r hr b hb hlive
    unfold Right at hright ⊢
    unfold setMask
    simp only
    by_cases hbctx : b.ctx = ctx
    · rw [if_pos hbctx]
      rw [hbctx] at hright
      refine (more_guards hright holds_maskClear).imp_right fun ⟨hst, hnot⟩ => ?_
      obtain ⟨hin, hgd⟩ := not_not.mp hnot
      exact ⟨hbctx, hgd, hst, hm hgd id r hr hin b hb hbctx hst⟩
    · rw [if_neg hbctx]
      exact .inl hright
  · exact h

theorem next_inv (h : Inv tbl s) (op : Op) (hm : s.Meets tbl op) : Inv tbl (s.next physDomain tbl op) := by
  cases op with
  | create basePhys pages kernel heapSlots al =>
    obtain ⟨hready, hnew⟩ := h.ready.memRegionCreate physDomain basePhys pages kernel heapSlots hm.1
    unfold next MemTagState.memRegionCreate applyDerivedTags
    simp only [addCounted_of_sets hm.2]
    exact h.of_same hready hnew.regions hnew.guards
  | apply id name al => exact h.apply hm
  | clear id name => exact h.clear hm
  | setGuard name guard al => exact h.setGuard hm
  | grant pid t al => exact h.grant hm
  | revoke pid t al => exact h.revoke hm
  | attach id ctx va pages => exact h.attach hm
  | detach id ctx va => exact h.detach id ctx va
  | destroy id => exact h.destroy hm

/-! ## The start -/

/-- The registries while they are seeded: there are no guards and no attachments, and the cache is empty. -/
structure Quiet (m : MemTagState) : Prop where
  coherent : m.Coherent
  guards : ∀ g, m.isGuard g = false
  attaches : ∀ j q, m.region j = some q → q.attaches = []
  cache : ∀ e ∈ m.index.cache, e.used = false

variable {m : MemTagState}

theorem Quiet.ready (h : Quiet m) : m.Ready := by
  refine ⟨h.coherent, fun e he hused => ?_, fun e he hused => ?_, fun j q hq => ?_, fun j q hq g hg hgd => ?_⟩
  · rw [h.cache e he] at hused
    cases hused
  · rw [h.cache e he] at hused
    cases hused
  · rw [h.attaches j q hq]
    exact .nil
  · rw [h.guards] at hgd
    cases hgd

theorem Quiet.internStr (h : Quiet m) (name : String) : Quiet (m.internStr name).2 := by
  refine ⟨((h.coherent.good 0).internStr name).coherent, fun g => ?_, fun j q hq => ?_, ?_⟩
  · rw [isGuard_internStr h.coherent]
    exact h.guards g
  · exact h.attaches j q ((region_internStr h.coherent name j).symm.trans hq)
  · obtain ⟨⟨es, heq, -⟩, -⟩ := internStr_spec h.coherent name
    rw [heq]
    exact h.cache

theorem Quiet.addCounted (h : Quiet m) (ht : t.toNat < m.tags.length) {m' : MemTagState}
    (hadd : m.addCounted id t = some m') : Quiet m' := by
  obtain ⟨hc, q, q', hadded⟩ := addCounted_added h.coherent ht hadd
  refine ⟨hc, fun g => (hadded.guards g).trans (h.guards g), fun j p hp => ?_, ?_⟩
  · rw [hadded.after] at hp
    split at hp
    · cases hp
      exact hadded.attaches.trans (h.attaches id q hadded.before)
    · exact h.attaches j p hp
  · rw [addCounted_index hadd]
    rcases memTagBitmapSet_spec h.coherent.index t id {} with ⟨-, -, hb⟩ | ⟨-, -, hs⟩
    · exact hb.cache ▸ h.cache
    · exact hs.cache ▸ h.cache

theorem Quiet.of_refInc (h : Quiet (m.refInc t)) : Quiet m :=
  ⟨h.coherent.of_refInc, fun g => (isGuard_congr (guards_refInc m t) g).symm.trans (h.guards g), h.attaches, h.cache⟩

theorem Quiet.seedRegionTag (h : Quiet m) (id : Nat) (name : String) : Quiet (m.seedRegionTag id name) := by
  have hi := h.internStr name
  have hlt := (internStr_spec h.coherent name).2.2
  unfold MemTagState.seedRegionTag
  split
  · rename_i m1 he
    rw [he] at hi
    exact hi
  rename_i u m1 he
  rw [he] at hi hlt
  split
  · exact hi
  rename_i m2 hadd
  have hcounted : m1.addCounted id u = some ((m2.bitmapSet u id).refInc u) := by
    unfold MemTagState.addCounted
    rw [hadd]
    rfl
  exact (hi.addCounted (hlt u rfl) hcounted).of_refInc

theorem Quiet.seedRegion (h : Quiet m) (heapSlots : Nat) (seed : Seed) : Quiet (seedRegion heapSlots m seed) := by
  unfold MemTagState.seedRegion
  split
  · exact h
  rename_i id m1 hc
  obtain ⟨h1, hnew⟩ := h.ready.registryCreate hc
  have hindex := (registryCreate_frame h.coherent hc).1
  have hq1 : Quiet m1 := ⟨h1.coherent, fun g => (hnew.guards g).trans (h.guards g), fun j q hq =>
    (hnew.regions j q hq).elim (h.attaches j q) fun he => he, hindex ▸ h.cache⟩
  exact List.foldlRecOn seed.tags
    (fun m name => m.seedRegionTag id name) hq1 fun m hm name _ => hm.seedRegionTag id name

theorem memTagInit_quiet (pageCount heapSlots : Nat) (seeds : List Seed) :
    Quiet (memTagInit pageCount heapSlots seeds) := by
  have hempty : Quiet (empty pageCount) := by
    refine ⟨empty_coherent pageCount, fun g => rfl, fun j q hq => ?_, fun e he => ?_⟩
    · rw [show (empty pageCount).region j = none from rfl] at hq
      cases hq
    · rw [(mem_replicate.mp he).2]
      rfl
  have hreserved : Quiet (reservedNames.foldl (fun s name => (s.internStr name).2) (empty pageCount)) :=
    List.foldlRecOn reservedNames _ hempty fun m hm name _ => hm.internStr name
  exact List.foldlRecOn seeds _ hreserved fun m hm seed _ => hm.seedRegion heapSlots seed

/-- After `MemTagInit`, whatever the masks of the cabins are. -/
def init (pageCount heapSlots : Nat) (seeds : List Seed) (mask : Nat → TagMask) : GuardState :=
  ⟨memTagInit pageCount heapSlots seeds, mask⟩

theorem init_inv (tbl : ProcTable) (pageCount heapSlots : Nat) (seeds : List Seed) (mask : Nat → TagMask) :
    Inv tbl (init pageCount heapSlots seeds mask) := by
  have hq := memTagInit_quiet pageCount heapSlots seeds
  refine ⟨hq.ready, fun id r hr a ha _ => ?_⟩
  rw [hq.attaches id r hr] at ha
  cases ha

/-! ## Runs -/

theorem accessAllowed_eq {p : Proc} (hp : p ∈ tbl.procs) {ctx : Nat} (hcabin : p.cabin = some ctx)
    (hid : id ≠ invalidRegionId) :
    s.memRegionAccessAllowed tbl p.pid id = s.mem.cabinSatisfiesRegion (s.mask ctx) id := by
  unfold memRegionAccessAllowed cabinSatisfiesRegion
  rw [if_neg hid, ProcTable.find_mem hp]
  simp only [hcabin]
  split
  · rename_i hnone
    rw [hnone]
    rfl
  · rfl

end GuardState

open GuardState

/-- In every run whose calls meet their condition, an attachment of a live cabin is active exactly when its mask holds
every guard tag of the region, which is what `MemRegionAccessAllowed` says. -/
theorem guards_enforced {physDomain : Nat → Nat} {tbl : ProcTable} {pageCount heapSlots : Nat}
    {seeds : List MemTagState.Seed} {mask : Nat → TagMask} {ops : List Op} {s : GuardState}
    (run : Run (Step physDomain tbl) (Meets tbl) (init pageCount heapSlots seeds mask) ops s) :
    ∀ p ∈ tbl.procs, ∀ ctx, p.cabin = some ctx → ∀ id r, s.mem.region id = some r → ∀ a ∈ r.attaches, a.ctx = ctx →
      (a.state = .active ↔ ∀ g ∈ r.tagIds, s.mem.isGuard g = true → maskHas (s.mask ctx) g = true) ∧
      (a.state = .active ↔ s.memRegionAccessAllowed tbl p.pid id = true) := by
  have hinv : Inv tbl s :=
    run.invariant (fun s op t hc hs h => hs ▸ next_inv h op hc) (init_inv tbl pageCount heapSlots seeds mask)
  rintro p hp ctx hcabin id r hr a ha rfl
  have hright := hinv.right id r hr a ha ⟨p, hp, hcabin⟩
  have hid : id ≠ invalidRegionId := by
    have := MemTagState.region_lt hr
    have := hinv.ready.coherent.slots
    have := hinv.ready.coherent.cap
    unfold invalidRegionId
    omega
  refine ⟨hright, hright.trans ?_⟩
  rw [accessAllowed_eq hp hcabin hid]
  exact (MemTagState.satisfies_iff hr (hinv.ready.coherent.sorted id r hr) (hinv.ready.seen id r hr)).symm

theorem step_of_next {physDomain : Nat → Nat} {tbl : ProcTable} {s t : GuardState} {op : Op}
    (h : some (s.next physDomain tbl op) = some t) : Step physDomain tbl s op t :=
  (Option.some.inj h).symm

/-- One process. -/
def oneProc : ProcTable := ⟨[⟨1, some 7⟩], by decide⟩

/-- A region with a tag is attached, the tag becomes a guard, and the process is granted it. -/
def guardedRun : List Op :=
  [.create 0x5000 1 false 1024 {}, .apply 0 "vault:key" {}, .attach 0 7 0x1000 1,
    .setGuard "vault:key" true fun _ => {}, .attach 0 8 0x1000 1, .grant 1 84 {}, .revoke 1 84 {}]

/-- The start of the two runs: no cabin holds a tag. -/
def noTags : GuardState := init 16 1024 [] fun _ _ => false

theorem noTags_eq :
    noTags = ⟨{ MemTagState.empty 16 with tags := MemTagState.reservedNames.map (⟨·, 0, false⟩) }, fun _ _ => false⟩ :=
  congrArg (GuardState.mk · _) (MemTagState.memTagInit_nil 16 1024)

/-- The attachments of a region. -/
def attachesOf (s : GuardState) (id : Nat) : List MemRegionAttach := ((s.mem.region id).map (·.attaches)).getD []

/-- The process's attachment is revoked by the first sweep and by the last, and the policy says so. -/
theorem guards_enforced_one : ∃ s, Run (Step MemTagState.noDomains oneProc) (Meets oneProc) noTags guardedRun s ∧
    (∃ r, s.mem.region 0 = some r ∧ ⟨7, 0x1000, .revoked⟩ ∈ r.attaches) ∧
    s.memRegionAccessAllowed oneProc 1 0 = false := by
  obtain ⟨s, run, hmem⟩ : ∃ s, Run (Step MemTagState.noDomains oneProc) (Meets oneProc) noTags guardedRun s ∧
      ⟨7, 0x1000, .revoked⟩ ∈ attachesOf s 0 := by
    rw [noTags_eq]
    exact run_reaches step_of_next (by decide +kernel)
  obtain ⟨r, hr, hin⟩ : ∃ r, s.mem.region 0 = some r ∧ (⟨7, 0x1000, .revoked⟩ : MemRegionAttach) ∈ r.attaches := by
    unfold attachesOf at hmem
    cases hr : s.mem.region 0 with
    | none =>
      rw [hr] at hmem
      cases hmem
    | some r =>
      rw [hr] at hmem
      exact ⟨r, rfl, hmem⟩
  refine ⟨s, run, ⟨r, hr, hin⟩, ?_⟩
  have hiff := (guards_enforced run ⟨1, some 7⟩ mem_cons_self 7 rfl 0 r hr _ hin rfl).2
  by_contra hallowed
  have hactive := hiff.mpr (by simpa using hallowed)
  cases hactive

/-- A region is attached first and gets a guard tag afterwards. -/
def lateGuard : List Op :=
  [.create 0x5000 1 false 1024 {}, .setGuard "vault:key" true fun _ => {}, .attach 0 7 0x1000 1,
    .apply 0 "vault:key" {}]

/-- `MemTagApply` leaves the attachment active, though the mask lacks the guard tag and access is not allowed. -/
theorem apply_leaves_active : ∃ s, Run (Step MemTagState.noDomains oneProc) (fun _ _ => True) noTags lateGuard s ∧
    ∃ r, s.mem.region 0 = some r ∧ ⟨7, 0x1000, .active⟩ ∈ r.attaches ∧
      (84 ∈ r.tagIds ∧ s.mem.isGuard 84 = true ∧ maskHas (s.mask 7) 84 = false) ∧
      s.memRegionAccessAllowed oneProc 1 0 = false := by
  rw [noTags_eq]
  exact run_reaches step_of_next (by decide +kernel)

end BoxOS.Memory
