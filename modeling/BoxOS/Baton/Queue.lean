import BoxOS.Lib.Adjacent
import Mathlib.Data.List.Nodup
import Mathlib.Logic.Function.Basic
import Mathlib.Logic.Relation

/-!
# The baton queue

`baton_link` and `baton_pop` of `baton.c`: an intrusive queue with any number of producers `π` and one consumer. A step
is one atomic access; the producer that has exchanged the tail has not linked its node yet, so the chain from `head` to
`tail` may be broken there. The consumer links the stub of the queue behind the last node before it takes that one.

`busy` is true of a node from the call of `baton_link` until `baton_pop` returns it, `linked` are the nodes in the order
of the exchanges, and `returned` is what `baton_pop` has returned; no step reads them, but a node that is busy is not
linked again.
-/

set_option linter.unusedSectionVars false

open Function (update update_of_ne update_self)

namespace BoxOS.Baton

open Lib List Option

/-- `Baton *`, not `NULL`: the stub of the queue or a node. -/
inductive Ref (ν : Type) where
  | stub
  | node (n : ν)
deriving DecidableEq

open Ref

/-- Where a producer is in `baton_link`. -/
inductive LinkPc (ν : Type) where
  | idle
  /-- `n->next = NULL` comes next -/
  | clear (n : ν)
  /-- the exchange of the tail comes next -/
  | swap (n : ν)
  /-- `prev->next = n` comes next -/
  | join (n : ν) (prev : Ref ν)
deriving DecidableEq

/-- Where the consumer is in `baton_pop`; its `head` is `q->head`. -/
inductive PopPc (ν : Type) where
  | idle
  | start
  /-- the stub has been passed -/
  | skipped
  | checkTail
  | clearStub
  | swapStub
  | joinStub (prev : Ref ν)
  | recheck
deriving DecidableEq

structure QueueState (π ν : Type) where
  next : Ref ν → Option (Ref ν)
  tail : Ref ν
  head : Ref ν
  link : π → LinkPc ν
  pop : PopPc ν
  busy : ν → Bool
  linked : List ν
  returned : List (Ref ν)

/-- How a step of `baton_pop` ends. -/
inductive Popped (ν : Type) where
  | running
  /-- `NULL` -/
  | nothing
  | got (r : Ref ν)
deriving DecidableEq

section

variable {π ν : Type} [DecidableEq π] [DecidableEq ν]

def batonInit : QueueState π ν :=
  ⟨fun _ => none, .stub, .stub, fun _ => .idle, .idle, fun _ => false, [], []⟩

/-- A producer is called with a node. -/
def QueueState.beginLink (s : QueueState π ν) (p : π) (n : ν) : QueueState π ν :=
  { s with link := update s.link p (.clear n), busy := update s.busy n true }

/-- One access of `baton_link`. -/
def QueueState.linkStep (s : QueueState π ν) (p : π) : QueueState π ν :=
  match s.link p with
  | .idle => s
  | .clear n => { s with next := update s.next (.node n) none, link := update s.link p (.swap n) }
  | .swap n =>
    { s with
      tail := .node n
      link := update s.link p (.join n s.tail)
      linked := s.linked ++ [n] }
  | .join n prev =>
    { s with next := update s.next prev (some (.node n)), link := update s.link p .idle }

/-- The node that is no longer the queue's. -/
def release (busy : ν → Bool) : Ref ν → ν → Bool
  | .stub => busy
  | .node n => update busy n false

/-- `q->head = next; return head`. -/
def QueueState.take (s : QueueState π ν) (next : Ref ν) : QueueState π ν × Popped ν :=
  ({ s with head := next, pop := .idle, busy := release s.busy s.head, returned := s.returned ++ [s.head] },
  .got s.head)

/-- One access of `baton_pop`. -/
def QueueState.popStep (s : QueueState π ν) : QueueState π ν × Popped ν :=
  match s.pop with
  | .idle => (s, .running)
  | .start =>
    match s.next s.head with
    | none => if s.head = .stub then ({ s with pop := .idle }, .nothing) else ({ s with pop := .checkTail }, .running)
    | some next => if s.head = .stub then ({ s with head := next, pop := .skipped }, .running) else s.take next
  | .skipped =>
    match s.next s.head with
    | none => ({ s with pop := .checkTail }, .running)
    | some next => s.take next
  | .checkTail => if s.head ≠ s.tail then ({ s with pop := .idle }, .nothing) else
    ({ s with pop := .clearStub }, .running)
  | .clearStub => ({ s with next := update s.next .stub none, pop := .swapStub }, .running)
  | .swapStub => ({ s with tail := .stub, pop := .joinStub s.tail }, .running)
  | .joinStub prev => ({ s with next := update s.next prev (some .stub), pop := .recheck }, .running)
  | .recheck =>
    match s.next s.head with
    | none => ({ s with pop := .idle }, .nothing)
    | some next => s.take next

/-! ## The chain of nodes -/

/-- Neighbours of the chain: linked, or somebody is about to link them. -/
def QueueState.Joined (s : QueueState π ν) (a b : Ref ν) : Prop :=
  s.next a = some b ∨ s.next a = none ∧ ((∃ p n, s.link p = .join n a ∧ b = .node n) ∨ s.pop = .joinStub a ∧ b = .stub)

/-- What the consumer knows where it is. -/
def PopOk (next : Ref ν → Option (Ref ν)) (head : Ref ν) (chain : List (Ref ν)) : PopPc ν → Prop
  | .idle => True
  | .start => True
  | .skipped => head ≠ .stub
  | .checkTail => head ≠ .stub
  | .clearStub => head ≠ .stub ∧ stub ∉ chain
  | .swapStub => head ≠ .stub ∧ stub ∉ chain ∧ next .stub = none
  | .joinStub prev => head ≠ .stub ∧ Adj chain prev .stub ∧ next prev = none
  | .recheck => head ≠ .stub ∧ stub ∈ chain

/-- What a producer knows where it is. -/
def LinkOk (next : Ref ν → Option (Ref ν)) (busy : ν → Bool) (chain : List (Ref ν)) : LinkPc ν → Prop
  | .idle => True
  | .clear n => busy n = true ∧ node n ∉ chain
  | .swap n => busy n = true ∧ node n ∉ chain ∧ next (.node n) = none
  | .join n prev => Adj chain prev (.node n) ∧ next prev = none

/-- The node a producer links. -/
def LinkPc.links : LinkPc ν → Option ν
  | .idle => none
  | .clear n => some n
  | .swap n => some n
  | .join n _ => some n

/-- No node is linked by two producers. -/
def Alone (link : π → LinkPc ν) : Prop := ∀ p q n, (link p).links = some n → (link q).links = some n → p = q

/-- The nodes of the chain, without the stub. -/
def nodesOf (chain : List (Ref ν)) : List (Ref ν) := chain.filter (· ≠ .stub)

/-- `chain` are the nodes of the queue in the order of the exchanges. -/
structure QueueInv (s : QueueState π ν) (chain : List (Ref ν)) : Prop where
  head : chain.head? = some s.head
  tail : chain.getLast? = some s.tail
  nodup : chain.Nodup
  joined : ∀ a b, Adj chain a b → s.Joined a b
  open_end : s.next s.tail = none
  busy : ∀ n, node n ∈ chain → s.busy n = true
  used : ∀ n, s.busy n = true → (∃ p, (s.link p).links = some n) ∨ node n ∈ chain
  link : ∀ p, LinkOk s.next s.busy chain (s.link p)
  alone : Alone s.link
  pop : PopOk s.next s.head chain s.pop
  order : s.linked.map node = s.returned ++ nodesOf chain

theorem batonInit_inv : QueueInv (batonInit : QueueState π ν) [.stub] where
  head := rfl
  tail := rfl
  nodup := nodup_singleton _
  joined _ _ h := h.elim
  open_end := rfl
  busy _ h := nomatch mem_singleton.mp h
  used _ h := nomatch h
  link _ := trivial
  alone _ _ _ h := nomatch h
  pop := trivial
  order := rfl

variable {s : QueueState π ν} {chain : List (Ref ν)} {p : π} {n : ν}

theorem stub_ne_node (n : ν) : stub ≠ node n := nofun

theorem Alone.update {link : π → LinkPc ν} (h : Alone link) {pc : LinkPc ν}
    (hpc : ∀ n, pc.links = some n → ∀ q, q ≠ p → (link q).links ≠ some n) : Alone (update link p pc) := by
  intro q r m hq hr
  by_cases hqp : q = p
  · by_cases hrp : r = p
    · rw [hqp, hrp]
    · rw [hqp, update_self] at hq
      rw [update_of_ne hrp] at hr
      exact absurd hr (hpc m hq r hrp)
  rw [update_of_ne hqp] at hq
  by_cases hrp : r = p
  · rw [hrp, update_self] at hr
    exact absurd hq (hpc m hr q hqp)
  · rw [update_of_ne hrp] at hr
    exact h q r m hq hr

theorem links_update {link : π → LinkPc ν} {pc : LinkPc ν} (hpc : ∀ m, (link p).links = some m → pc.links = some m)
    (h : ∃ q, (link q).links = some n) : ∃ q, (update link p pc q).links = some n := by
  obtain ⟨q, hq⟩ := h
  refine ⟨q, ?_⟩
  by_cases hqp : q = p
  · subst hqp
    rw [update_self]
    exact hpc n hq
  · rwa [update_of_ne hqp]

theorem QueueInv.busy_links (h : QueueInv s chain) (hn : (s.link p).links = some n) : s.busy n = true := by
  have hp := h.link p
  generalize s.link p = pc at hn hp
  cases pc with
  | idle => cases hn
  | clear | swap =>
    obtain rfl := some.inj hn
    exact hp.1
  | join m prev =>
    obtain rfl := some.inj hn
    exact h.busy m hp.1.mem_right

theorem joined_update {a b : Ref ν} (h : s.Joined a b) (hp : ∀ n prev, s.link p ≠ .join n prev) {pc : LinkPc ν}
    {s' : QueueState π ν} (hnext : s'.next a = s.next a) (hlink : s'.link = update s.link p pc)
    (hpop : s'.pop = s.pop) : s'.Joined a b := by
  rcases h with h | ⟨h₁, ⟨q, m, hq, hb⟩ | h₂⟩
  · exact .inl (hnext.trans h)
  · have hne : q ≠ p := by
      rintro rfl
      exact hp m a hq
    refine .inr ⟨hnext.trans h₁, .inl ⟨q, m, ?_, hb⟩⟩
    rw [hlink, update_of_ne hne, hq]
  · exact .inr ⟨hnext.trans h₁, .inr ⟨hpop.trans h₂.1, h₂.2⟩⟩

/-- Where the consumer is about to link nothing, the chain needs what is linked in it. -/
theorem QueueInv.joined_of_pop {a b : Ref ν} {s' : QueueState π ν} (h : QueueInv s chain) (hab : Adj chain a b)
    (hs : s.pop ≠ .joinStub a) (hnext : s'.next a = s.next a) (hlink : s'.link = s.link) : s'.Joined a b := by
  rcases h.joined a b hab with hj | ⟨h₁, hj | ⟨h₂, -⟩⟩
  · exact .inl (hnext.trans hj)
  · exact .inr ⟨hnext.trans h₁, .inl (hlink ▸ hj)⟩
  · exact absurd h₂ hs

section kept

variable {next next' : Ref ν → Option (Ref ν)} {chain' : List (Ref ν)}

theorem stays_none {a b : Ref ν} (h : next a = none) : update next b none a = none := by
  rw [Function.update_apply]
  split
  · rfl
  · exact h

theorem none_of_ne {a b : Ref ν} {x : Option (Ref ν)} (hne : a ≠ b) (h : next a = none) : update next b x a = none :=
  (update_of_ne hne ..).trans h

theorem LinkOk.mono {busy busy' : ν → Bool} {pc : LinkPc ν} (h : LinkOk next busy chain pc)
    (hout : ∀ n, pc.links = some n → node n ∉ chain → busy n = true → busy' n = true ∧ node n ∉ chain' ∧
    (next (.node n) = none → next' (.node n) = none)) (hjoin : ∀ n prev, pc.links = some n → Adj chain prev (.node n) →
    next prev = none → Adj chain' prev (.node n) ∧ next' prev = none) : LinkOk next' busy' chain' pc := by
  cases pc with
  | idle => trivial
  | clear n =>
    obtain ⟨hb, hn, -⟩ := hout n rfl h.2 h.1
    exact ⟨hb, hn⟩
  | swap n =>
    obtain ⟨hb, hn, hnone⟩ := hout n rfl h.2.1 h.1
    exact ⟨hb, hn, hnone h.2.2⟩
  | join n prev => exact hjoin n prev rfl h.1 h.2

theorem PopOk.mono {head : Ref ν} {pc : PopPc ν} (h : PopOk next head chain pc) (hstub : stub ∈ chain ↔ stub ∈ chain')
    (hnone : stub ∉ chain → next .stub = none → next' .stub = none)
    (hjoin : ∀ prev, Adj chain prev .stub → next prev = none → Adj chain' prev .stub ∧ next' prev = none) :
    PopOk next' head chain' pc := by
  cases pc with
  | clearStub => exact ⟨h.1, hstub.not.mp h.2⟩
  | swapStub => exact ⟨h.1, hstub.not.mp h.2.1, hnone h.2.1 h.2.2⟩
  | joinStub prev => exact ⟨h.1, hjoin prev h.2.1 h.2.2⟩
  | recheck => exact ⟨h.1, hstub.mp h.2⟩
  | _ => exact h

end kept

/-! ## Linking -/

theorem QueueInv.beginLink (h : QueueInv s chain) (hp : s.link p = .idle) (hn : s.busy n = false) :
    QueueInv (s.beginLink p n) chain := by
  have hout : node n ∉ chain := fun hmem => by
    rw [h.busy n hmem] at hn
    cases hn
  have hbusy : ∀ m, s.busy m = true → update s.busy n true m = true := fun m hm => by
    by_cases hmn : m = n
    · rw [hmn, update_self]
    · rwa [update_of_ne hmn]
  refine ⟨h.head, h.tail, h.nodup, fun a b hab => ?_, h.open_end, fun m hm => hbusy m (h.busy m hm), fun m hm => ?_, ?_,
    ?_, h.pop, h.order⟩
  · exact joined_update (h.joined a b hab) (fun m prev hj => nomatch hp.symm.trans hj) rfl rfl rfl
  · by_cases hmn : m = n
    · refine .inl ⟨p, ?_⟩
      rw [QueueState.beginLink, hmn]
      simp only [update_self]
      rfl
    · rcases h.used m ((update_of_ne hmn _ _).symm.trans hm) with hl | hin
      · exact .inl (links_update (fun k hk => by rw [hp] at hk; exact nomatch hk) hl)
      · exact .inr hin
  · refine (Function.forall_update_iff s.link _).mpr ⟨⟨update_self .., hout⟩, fun q _ => ?_⟩
    exact (h.link q).mono (fun m _ hm hb => ⟨hbusy m hb, hm, id⟩) fun _ _ _ hadj hnone => ⟨hadj, hnone⟩
  · refine h.alone.update fun m hm q _ hq => ?_
    obtain rfl := some.inj hm
    rw [h.busy_links hq] at hn
    cases hn

theorem linkStep_clear (hp : s.link p = .clear n) :
    s.linkStep p = { s with next := update s.next (.node n) none, link := update s.link p (.swap n) } := by
  rw [QueueState.linkStep, hp]

theorem linkStep_swap (hp : s.link p = .swap n) :
    s.linkStep p = { s with tail := .node n, link := update s.link p (.join n s.tail), linked := s.linked ++ [n] } := by
  rw [QueueState.linkStep, hp]

theorem linkStep_join {prev : Ref ν} (hp : s.link p = .join n prev) :
    s.linkStep p = { s with next := update s.next prev (some (.node n)), link := update s.link p .idle } := by
  rw [QueueState.linkStep, hp]

theorem QueueInv.clear (h : QueueInv s chain) (hp : s.link p = .clear n) : QueueInv (s.linkStep p) chain := by
  have hok := h.link p
  rw [hp] at hok
  have hne : ∀ a ∈ chain, a ≠ node n := fun a ha heq => hok.2 (heq ▸ ha)
  rw [linkStep_clear hp]
  refine ⟨h.head, h.tail, h.nodup, fun a b hab => ?_, ?_, h.busy, fun m hm => ?_, ?_, ?_, ?_, h.order⟩
  · refine joined_update (h.joined a b hab) (fun m prev hj => nomatch hp.symm.trans hj) ?_ rfl rfl
    exact update_of_ne (hne a hab.mem_left) _ _
  · exact stays_none h.open_end
  · exact (h.used m hm).imp_left (links_update fun k hk => by rw [hp] at hk; exact hk)
  · refine (Function.forall_update_iff s.link _).mpr ⟨⟨hok.1, hok.2, update_self ..⟩, fun q _ => ?_⟩
    exact (h.link q).mono (fun _ _ hm hb => ⟨hb, hm, fun hnone => stays_none hnone⟩) fun _ _ _ hadj hnone => ⟨hadj,
      stays_none hnone⟩
  · refine h.alone.update fun m hm q hqp hq => ?_
    exact hqp (h.alone q p m hq (hp.symm ▸ hm))
  · exact h.pop.mono Iff.rfl (fun _ hnone => stays_none (b := node n) hnone) fun _ hadj hnone => ⟨hadj,
      stays_none hnone⟩

theorem nodesOf_append (l : List (Ref ν)) (r : Ref ν) (hr : r ≠ .stub) : nodesOf (l ++ [r]) = nodesOf l ++ [r] := by
  simp [nodesOf, hr]

theorem head?_append_of_head? {l : List (Ref ν)} {a : Ref ν} (h : l.head? = some a) (x : Ref ν) :
    (l ++ [x]).head? = some a := by
  rw [head?_append, h]
  rfl

theorem nodup_concat {l : List (Ref ν)} {x : Ref ν} (h : l.Nodup) (hx : x ∉ l) : (l ++ [x]).Nodup := by
  refine nodup_append.mpr ⟨h, nodup_singleton x, ?_⟩
  rintro a ha b hb rfl
  exact hx (mem_singleton.mp hb ▸ ha)

theorem QueueInv.swap (h : QueueInv s chain) (hp : s.link p = .swap n) :
    QueueInv (s.linkStep p) (chain ++ [.node n]) := by
  have hok := h.link p
  rw [hp] at hok
  rw [linkStep_swap hp]
  refine ⟨head?_append_of_head? h.head _, getLast?_concat, nodup_concat h.nodup hok.2.1, fun a b hab => ?_, hok.2.2,
    fun m hm => ?_, fun m hm => ?_, ?_, ?_, ?_, ?_⟩
  · rcases adj_append_singleton.mp hab with hab | ⟨ha, rfl⟩
    · exact joined_update (h.joined a b hab) (fun m prev hj => nomatch hp.symm.trans hj) rfl rfl rfl
    · obtain rfl := some.inj (h.tail.symm.trans ha)
      exact .inr ⟨h.open_end, .inl ⟨p, n, update_self .., rfl⟩⟩
  · rcases mem_append.mp hm with hm | hm
    · exact h.busy m hm
    · obtain rfl := node.inj (mem_singleton.mp hm)
      exact hok.1
  · rcases h.used m hm with hl | hin
    · exact .inl (links_update (fun k hk => by rw [hp] at hk; exact hk) hl)
    · exact .inr (mem_append_left _ hin)
  · refine (Function.forall_update_iff s.link _).mpr ⟨⟨adj_append_singleton.mpr (.inr ⟨h.tail, rfl⟩), h.open_end⟩,
      fun q hqp => ?_⟩
    refine (h.link q).mono (fun m hm hmem hb => ⟨hb, fun hin => (mem_append.mp hin).elim hmem fun hin => ?_, id⟩)
      fun _ _ _ hadj hnone => ⟨adj_append_singleton.mpr (.inl hadj), hnone⟩
    obtain rfl := node.inj (mem_singleton.mp hin)
    exact hqp (h.alone q p m hm (by rw [hp]; rfl))
  · refine h.alone.update fun m hm q hqp hq => ?_
    exact hqp (h.alone q p m hq (hp.symm ▸ hm))
  · have hstub : stub ∈ chain ++ [node n] → stub ∈ chain := fun hin =>
      (mem_append.mp hin).elim id fun hin => nomatch mem_singleton.mp hin
    exact h.pop.mono ⟨mem_append_left _, hstub⟩ (fun _ => id) fun _ hadj hnone =>
      ⟨adj_append_singleton.mpr (.inl hadj), hnone⟩
  · rw [map_append, h.order, nodesOf_append _ _ (stub_ne_node n).symm, append_assoc]
    rfl

theorem QueueInv.join (h : QueueInv s chain) {prev : Ref ν} (hp : s.link p = .join n prev) :
    QueueInv (s.linkStep p) chain := by
  have hok := h.link p
  rw [hp] at hok
  rw [linkStep_join hp]
  have hmem := hok.1.mem_left
  refine ⟨h.head, h.tail, h.nodup, fun a b hab => ?_, ?_, h.busy, fun m hm => ?_, ?_, ?_, ?_, h.order⟩
  · by_cases ha : a = prev
    · subst ha
      rw [hab.right_unique h.nodup hok.1]
      exact .inl (update_self ..)
    · have hother : ∀ q m, s.link q = .join m a → q ≠ p := by
        rintro q m hq rfl
        rw [hp] at hq
        exact ha (LinkPc.join.inj hq).2.symm
      have hnext : update s.next prev (some (node n)) a = s.next a := update_of_ne ha _ _
      rcases h.joined a b hab with hj | ⟨h₁, ⟨q, m, hq, hb⟩ | h₂⟩
      · exact .inl (hnext.trans hj)
      · exact .inr ⟨hnext.trans h₁, .inl ⟨q, m, (update_of_ne (hother q m hq) _ _).trans hq, hb⟩⟩
      · exact .inr ⟨hnext.trans h₁, .inr h₂⟩
  · exact (update_of_ne (hok.1.ne_last h.nodup h.tail).symm _ _).trans h.open_end
  · by_cases hmn : m = n
    · exact .inr (hmn ▸ hok.1.mem_right)
    · refine (h.used m hm).imp_left fun ⟨q, hq⟩ => ⟨q, ?_⟩
      have hqp : q ≠ p := by
        rintro rfl
        rw [hp] at hq
        exact hmn (some.inj hq).symm
      simp only [update_of_ne hqp, hq]
  · refine (Function.forall_update_iff s.link _).mpr ⟨trivial, fun q hqp => ?_⟩
    refine (h.link q).mono (fun _ _ hm hb => ⟨hb, hm, fun hnone => none_of_ne (fun heq => hm (heq ▸ hmem)) hnone⟩)
      fun m prev' hm hadj hnone => ⟨hadj, none_of_ne (fun heq => ?_) hnone⟩
    subst heq
    obtain rfl := node.inj (hadj.right_unique h.nodup hok.1)
    exact hqp (h.alone q p m hm (by rw [hp]; rfl))
  · exact h.alone.update nofun
  · refine h.pop.mono Iff.rfl (fun hno hnone => none_of_ne (fun heq => hno (heq ▸ hmem)) hnone)
      fun prev' hadj hnone => ⟨hadj, none_of_ne (fun heq => ?_) hnone⟩
    subst heq
    cases hadj.right_unique h.nodup hok.1

theorem QueueInv.linkStep (h : QueueInv s chain) (p : π) : ∃ chain', QueueInv (s.linkStep p) chain' := by
  cases hp : s.link p with
  | idle =>
    refine ⟨chain, ?_⟩
    rw [QueueState.linkStep, hp]
    exact h
  | clear n => exact ⟨chain, h.clear hp⟩
  | swap n => exact ⟨chain ++ [.node n], h.swap hp⟩
  | join n prev => exact ⟨chain, h.join hp⟩

/-! ## Popping -/

theorem QueueInv.setPop (h : QueueInv s chain) (hs : ∀ prev, s.pop ≠ .joinStub prev) {pc : PopPc ν}
    (hpc : PopOk s.next s.head chain pc) : QueueInv { s with pop := pc } chain := by
  exact ⟨h.head, h.tail, h.nodup, fun a b hab => h.joined_of_pop hab (hs a) rfl rfl, h.open_end, h.busy, h.used, h.link,
    h.alone, hpc, h.order⟩

theorem QueueInv.head_linked (h : QueueInv s chain) {x : Ref ν} (hx : s.next s.head = some x) :
    ∃ rest, chain = s.head :: x :: rest := by
  have hne : s.head ≠ s.tail := fun heq => by
    rw [heq, h.open_end] at hx
    cases hx
  obtain ⟨b, hb⟩ := exists_adj_head h.head h.tail hne
  have hbx : b = x := by
    rcases h.joined _ _ hb with hj | ⟨hj, -⟩
    · exact some.inj (hj.symm.trans hx)
    · cases hj.symm.trans hx
  exact hbx ▸ hb.head_eq h.nodup h.head

theorem QueueInv.advance {x : Ref ν} {rest : List (Ref ν)} (h : QueueInv s (s.head :: x :: rest))
    (hx : s.next s.head = some x) (hs : ∀ prev, s.pop ≠ .joinStub prev) {pc : PopPc ν} {ret : List (Ref ν)}
    (hpc : PopOk s.next x (x :: rest) pc) (hret : s.linked.map node = ret ++ nodesOf (x :: rest)) :
    QueueInv { s with head := x, pop := pc, busy := release s.busy s.head, returned := ret } (x :: rest) := by
  have hnd := nodup_cons.mp h.nodup
  have hadj : ∀ a b, Adj (s.head :: x :: rest) a b → a ≠ s.head → Adj (x :: rest) a b := fun a b hab hne =>
    hab.elim (fun heq => absurd heq.1.symm hne) id
  have hbusy : ∀ m, s.busy m = true → node m ≠ s.head → release s.busy s.head m = true := by
    intro m hm hne
    generalize s.head = r at hne ⊢
    cases r with
    | stub => exact hm
    | node k => exact (update_of_ne (fun heq => hne (congrArg node heq)) _ _).trans hm
  have hfree : ∀ m, release s.busy s.head m = true → s.busy m = true ∧ node m ≠ s.head := by
    intro m hm
    generalize s.head = r at hm ⊢
    cases r with
    | stub => exact ⟨hm, (stub_ne_node m).symm⟩
    | node k =>
      by_cases hmk : m = k
      · rw [release, hmk, update_self] at hm
        cases hm
      · rw [release, update_of_ne hmk] at hm
        exact ⟨hm, fun heq => hmk (node.inj heq)⟩
  refine ⟨rfl, ?_, hnd.2, fun a b hab => ?_, h.open_end, fun m hm => ?_, fun m hm => ?_, fun q => ?_,
    h.alone, hpc, hret⟩
  · rw [← h.tail, getLast?_cons_cons]
  · exact h.joined_of_pop (hab.cons _) (hs a) rfl rfl
  · exact hbusy m (h.busy m (mem_cons_of_mem _ hm)) fun heq => hnd.1 (heq ▸ hm)
  · obtain ⟨hb, hne⟩ := hfree m hm
    exact (h.used m hb).imp_right fun hin => (mem_cons.mp hin).elim (fun heq => absurd heq hne) id
  · refine (h.link q).mono (fun m _ hm hb =>
        ⟨hbusy m hb fun heq => hm (heq ▸ mem_cons_self), fun hin => hm (mem_cons_of_mem _ hin), id⟩)
      fun m prev _ hprev hnone => ⟨hadj _ _ hprev ?_, hnone⟩
    rintro rfl
    cases hx.symm.trans hnone

theorem QueueInv.take (h : QueueInv s chain) {x : Ref ν} (hx : s.next s.head = some x)
    (hs : ∀ prev, s.pop ≠ .joinStub prev) (hhead : s.head ≠ .stub) : QueueInv (s.take x).1 chain.tail := by
  obtain ⟨rest, rfl⟩ := h.head_linked hx
  refine h.advance hx hs trivial ?_
  rw [h.order, append_assoc]
  simp [nodesOf, hhead]

theorem QueueInv.skip (h : QueueInv s chain) {x : Ref ν} (hx : s.next s.head = some x)
    (hs : ∀ prev, s.pop ≠ .joinStub prev) (hhead : s.head = .stub) :
    QueueInv { s with head := x, pop := .skipped } chain.tail := by
  obtain ⟨rest, rfl⟩ := h.head_linked hx
  have hne : x ≠ .stub := fun heq => (nodup_cons.mp h.nodup).1 (by rw [hhead, heq]; exact mem_cons_self)
  have hadv : QueueInv { s with head := x, pop := .skipped, busy := release s.busy s.head } (x :: rest) :=
    h.advance hx hs hne (by rw [h.order]; simp [nodesOf, hhead])
  rw [hhead] at hadv
  exact hadv

theorem QueueInv.clearStub (h : QueueInv s chain) (hpop : s.pop = .clearStub) :
    QueueInv { s with next := update s.next .stub none, pop := .swapStub } chain := by
  have hok := h.pop
  rw [hpop] at hok
  have hne : ∀ a ∈ chain, a ≠ stub := fun a ha heq => hok.2 (heq ▸ ha)
  refine ⟨h.head, h.tail, h.nodup, fun a b hab => ?_, ?_, h.busy, h.used, fun q => ?_, h.alone,
    ⟨hok.1, hok.2, ?_⟩, h.order⟩
  · exact h.joined_of_pop hab (by rw [hpop]; exact nofun) (update_of_ne (hne a hab.mem_left) _ _) rfl
  · exact stays_none h.open_end
  · exact (h.link q).mono (fun _ _ hm hb =>
      ⟨hb, hm, fun hnone => stays_none (b := stub) hnone⟩) fun _ _ _ hadj hnone => ⟨hadj, stays_none hnone⟩
  · exact update_self (stub : Ref ν) none s.next

theorem QueueInv.swapStub (h : QueueInv s chain) (hpop : s.pop = .swapStub) :
    QueueInv { s with tail := .stub, pop := .joinStub s.tail } (chain ++ [.stub]) := by
  have hok := h.pop
  rw [hpop] at hok
  refine ⟨head?_append_of_head? h.head _, getLast?_concat, nodup_concat h.nodup hok.2.1, fun a b hab => ?_, hok.2.2,
    fun m hm => ?_, fun m hm => (h.used m hm).imp_right (mem_append_left _), fun q => ?_, h.alone,
    ⟨hok.1, adj_append_singleton.mpr (.inr ⟨h.tail, rfl⟩), h.open_end⟩, ?_⟩
  · rcases adj_append_singleton.mp hab with hab | ⟨ha, rfl⟩
    · exact h.joined_of_pop hab (by rw [hpop]; exact nofun) rfl rfl
    · obtain rfl := some.inj (h.tail.symm.trans ha)
      exact .inr ⟨h.open_end, .inr ⟨rfl, rfl⟩⟩
  · rcases mem_append.mp hm with hm | hm
    · exact h.busy m hm
    · cases mem_singleton.mp hm
  · have hout : ∀ m, node m ∉ chain → node m ∉ chain ++ [stub] := fun m hm hin =>
      (mem_append.mp hin).elim hm fun hin => nomatch mem_singleton.mp hin
    exact (h.link q).mono (fun m _ hm hb => ⟨hb, hout m hm, id⟩) fun _ _ _ hadj hnone =>
      ⟨adj_append_singleton.mpr (.inl hadj), hnone⟩
  · rw [h.order]
    simp [nodesOf]

theorem QueueInv.joinStub (h : QueueInv s chain) {prev : Ref ν} (hpop : s.pop = .joinStub prev) :
    QueueInv { s with next := update s.next prev (some .stub), pop := .recheck } chain := by
  have hok := h.pop
  rw [hpop] at hok
  have hmem := hok.2.1.mem_left
  refine ⟨h.head, h.tail, h.nodup, fun a b hab => ?_, ?_, h.busy, h.used, fun q => ?_, h.alone,
    ⟨hok.1, hok.2.1.mem_right⟩, h.order⟩
  · by_cases ha : a = prev
    · subst ha
      rw [hab.right_unique h.nodup hok.2.1]
      exact .inl (update_self ..)
    · exact h.joined_of_pop hab (fun h₂ => ha (PopPc.joinStub.inj (hpop.symm.trans h₂)).symm) (update_of_ne ha _ _) rfl
  · exact (update_of_ne (hok.2.1.ne_last h.nodup h.tail).symm _ _).trans h.open_end
  · refine (h.link q).mono (fun _ _ hm hb => ⟨hb, hm, fun hnone => none_of_ne (fun heq => hm (heq ▸ hmem)) hnone⟩)
      fun m prev' _ hadj hnone => ⟨hadj, none_of_ne (fun heq => ?_) hnone⟩
    subst heq
    cases hadj.right_unique h.nodup hok.2.1

theorem QueueInv.single (h : QueueInv s chain) (heq : s.head = s.tail) : chain = [s.head] := by
  have hhead := h.head
  have htail := h.tail
  cases chain with
  | nil => cases hhead
  | cons a l =>
    obtain rfl := some.inj hhead
    cases l with
    | nil => rfl
    | cons b l =>
      rw [getLast?_cons_cons, ← heq] at htail
      exact absurd (mem_of_getLast? htail) (nodup_cons.mp h.nodup).1

theorem QueueInv.popStep (h : QueueInv s chain) : ∃ chain', QueueInv s.popStep.1 chain' := by
  have hok := h.pop
  cases hpc : s.pop with
  | idle =>
    rw [QueueState.popStep, hpc]
    exact ⟨chain, h⟩
  | start =>
    have hs : ∀ prev, s.pop ≠ .joinStub prev := fun prev heq => nomatch hpc.symm.trans heq
    simp only [QueueState.popStep, hpc]
    cases hx : s.next s.head with
    | none =>
      simp only []
      split
      · exact ⟨chain, h.setPop hs trivial⟩
      · rename_i hne
        exact ⟨chain, h.setPop hs hne⟩
    | some x =>
      simp only []
      split
      · rename_i heq
        exact ⟨_, h.skip hx hs heq⟩
      · rename_i hne
        exact ⟨_, h.take hx hs hne⟩
  | skipped =>
    have hs : ∀ prev, s.pop ≠ .joinStub prev := fun prev heq => nomatch hpc.symm.trans heq
    rw [hpc] at hok
    simp only [QueueState.popStep, hpc]
    cases hx : s.next s.head with
    | none => exact ⟨chain, h.setPop hs hok⟩
    | some x => exact ⟨_, h.take hx hs hok⟩
  | checkTail =>
    have hs : ∀ prev, s.pop ≠ .joinStub prev := fun prev heq => nomatch hpc.symm.trans heq
    rw [hpc] at hok
    simp only [QueueState.popStep, hpc]
    split
    · exact ⟨chain, h.setPop hs trivial⟩
    rename_i heq
    have hsingle := h.single (not_not.mp heq)
    refine ⟨chain, h.setPop hs ⟨hok, fun hmem => ?_⟩⟩
    rw [hsingle] at hmem
    exact hok (mem_singleton.mp hmem).symm
  | clearStub =>
    simp only [QueueState.popStep, hpc]
    exact ⟨chain, h.clearStub hpc⟩
  | swapStub =>
    simp only [QueueState.popStep, hpc]
    exact ⟨_, h.swapStub hpc⟩
  | joinStub prev =>
    simp only [QueueState.popStep, hpc]
    exact ⟨chain, h.joinStub hpc⟩
  | recheck =>
    have hs : ∀ prev, s.pop ≠ .joinStub prev := fun prev heq => nomatch hpc.symm.trans heq
    rw [hpc] at hok
    simp only [QueueState.popStep, hpc]
    cases hx : s.next s.head with
    | none => exact ⟨chain, h.setPop hs trivial⟩
    | some x => exact ⟨_, h.take hx hs hok.1⟩

end

end BoxOS.Baton
