import BoxOS.Ipc.Ring

/-!
# What every access of a ring keeps

`RingInv` holds of the empty ring and is kept by every step of a push (`RingInv.pushStep`) and of the consumer
(`RingInv.popStep`), as long as the free-running `tail` has not reached `2 ^ 64`.
-/

set_option linter.unusedSectionVars false

open Function (update update_apply update_eq_self update_of_ne update_self)

namespace BoxOS.Ipc

open Lib List

/-! ## Sequence numbers -/

theorem seqFree_ne_full {cap a b : Nat} : seqFree cap a ≠ seqFull cap b := by
  unfold seqFree seqFull u64
  omega

theorem seqFree_ne_taken {cap pos : Nat} : seqFree cap pos ≠ seqTaken cap pos := by
  unfold seqFree seqTaken u64
  omega

theorem seqTaken_eq {cap : Nat} (hcap : 0 < cap) (pos : Nat) : seqTaken cap pos = seqFree cap (pos + cap) := by
  unfold seqTaken seqFree
  rw [Nat.add_div_right _ hcap]
  rfl

theorem u64_of_lt {n : Nat} (h : n < 2 ^ 64) : u64 n = n :=
  Nat.mod_eq_of_lt h

section

variable {π β : Type} {w : Nat} [DecidableEq π] {cap : Nat} {limit : (Fin w → β) → Nat} {s : RingState π β w}

theorem ringInit_inv (data : Nat → Fin w → β) (out : Fin w → β) :
    RingInv cap limit (ringInit data out : RingState π β w) where
  le := Nat.le_refl 0
  room := Nat.zero_le _
  bound := Nat.two_pow_pos 64
  length := rfl
  taken := rfl
  free pos _ hpos := by
    have : pos < cap := by simpa [ringInit] using hpos
    simp [ringInit, seqFree, Nat.div_eq_of_lt this, u64]
  used pos _ hpos := absurd hpos (Nat.not_lt_zero pos)
  pushes _ := trivial
  alone _ _ _ _ _ h := by rcases h with h | ⟨k, h⟩ <;> cases h
  consumer := trivial
  held pos r h := by simp [ringInit] at h
  unbroken := rfl

/-! ## The window of positions -/

namespace RingInv

theorem slot_eq (h : RingInv cap limit s) {i j : Nat} (hi : s.head ≤ i) (hi' : i < s.tail) (hj : s.head ≤ j)
    (hj' : j < s.tail) (hij : i % cap = j % cap) : i = j :=
  slot_inj hi (by have := h.room; omega) hj (by have := h.room; omega) hij

theorem claimed_of_writes (h : RingInv cap limit s) {p : π} {r : Fin w → β} {pos : Nat}
    (hp : (s.push p).Writes r pos) : s.Claimed cap r pos := by
  have hok := h.pushes p
  rcases hp with hp | ⟨k, hp⟩
  · rw [hp] at hok
    exact hok
  · rw [hp] at hok
    exact hok.1

end RingInv

variable {pc : PushPc (Fin w → β)}

theorem PushPc.Writes.inj {ρ : Type} {pc : PushPc ρ} {r r' : ρ} {i j : Nat} (h : pc.Writes r i) (h' : pc.Writes r' j) :
    r = r' ∧ i = j := by
  rcases h with rfl | ⟨k, rfl⟩
  · rcases h' with h' | ⟨l, h'⟩
    · cases h'
      exact ⟨rfl, rfl⟩
    · cases h'
  rcases h' with h' | ⟨l, h'⟩
  · cases h'
  · cases h'
    exact ⟨rfl, rfl⟩

theorem RingState.PushOk.mono {t : RingState π β w} (hok : s.PushOk cap limit pc) (hhead : s.head ≤ t.head)
    (hc : ∀ r pos, pc.Writes r pos → s.Claimed cap r pos →
    t.Claimed cap r pos ∧ t.data (pos % cap) = s.data (pos % cap)) : t.PushOk cap limit pc := by
  cases pc with
  | returned ok => trivial
  | loadHead r => trivial
  | loadTail r head => exact hok.trans hhead
  | claim r pos => exact hok.trans_le (Nat.add_le_add_right hhead _)
  | checkSeq r pos => exact (hc r pos (.inl rfl) hok).1
  | copy r pos k =>
    obtain ⟨hclaimed, hdata⟩ := hc r pos (.inr ⟨k, rfl⟩) hok.1
    exact ⟨hclaimed, fun i hi => by rw [hdata]; exact hok.2 i hi⟩

/-! ## Steps of a push -/

theorem RingState.goto_push_self {p : π} : (s.goto p pc).push p = pc :=
  update_self ..

theorem RingState.goto_push_of_ne {p q : π} (h : q ≠ p) : (s.goto p pc).push q = s.push q :=
  update_of_ne h ..

namespace RingInv

theorem goto (h : RingInv cap limit s) {p : π} (pc : PushPc (Fin w → β)) (hok : s.PushOk cap limit pc)
    (hw : ∀ r pos, pc.Writes r pos ↔ (s.push p).Writes r pos) : RingInv cap limit (s.goto p pc) := by
  have hiff : ∀ q r pos, ((s.goto p pc).push q).Writes r pos ↔ (s.push q).Writes r pos := by
    intro q r pos
    by_cases hq : q = p
    · rw [hq, ← hw, RingState.goto_push_self]
    · rw [RingState.goto_push_of_ne hq]
  have hsame : ∀ {pc'}, s.PushOk cap limit pc' → (s.goto p pc).PushOk cap limit pc' :=
    fun hs => hs.mono le_rfl fun r pos _ hc => ⟨⟨hc.ge, hc.lt, hc.record, hc.seq⟩, rfl⟩
  refine ⟨h.le, h.room, h.bound, h.length, h.taken, h.free, fun pos hge hlt => ?_, fun q => hsame ?_,
    fun q q' r r' pos hq hq' => ?_, h.consumer, h.held, h.unbroken⟩
  · rcases h.used pos hge hlt with ⟨q, r, hq⟩ | hpub
    · exact .inl ⟨q, r, (hiff q r pos).mpr hq⟩
    · exact .inr hpub
  · by_cases hq : q = p
    · rw [hq, RingState.goto_push_self]
      exact hok
    · rw [RingState.goto_push_of_ne hq]
      exact h.pushes q
  · exact h.alone q q' r r' pos ((hiff q r pos).mp hq) ((hiff q' r' pos).mp hq')

section

variable (h : RingInv cap limit s)

include h

theorem drop (l : List (Fin w → β)) : RingInv cap limit { s with dropped := l } where
  le := h.le
  room := h.room
  bound := h.bound
  length := h.length
  taken := h.taken
  free := h.free
  used := h.used
  pushes p := (h.pushes p).mono le_rfl fun _ _ _ hc => ⟨⟨hc.ge, hc.lt, hc.record, hc.seq⟩, rfl⟩
  alone := h.alone
  consumer := h.consumer
  held := h.held
  unbroken := h.unbroken

theorem slot_ne {p q : π} {r r' : Fin w → β} {i j : Nat} (hp : (s.push p).Writes r i)
    (hq : (s.push q).Writes r' j) (hne : q ≠ p) : j % cap ≠ i % cap := by
  intro hslot
  have hi := h.claimed_of_writes hp
  have hj := h.claimed_of_writes hq
  obtain rfl := h.slot_eq hj.ge hj.lt hi.ge hi.lt hslot
  exact hne (h.alone q p r' r j hq hp)

theorem not_published {p : π} {r : Fin w → β} {i : Nat} (hp : (s.push p).Writes r i) :
    s.seq (i % cap) ≠ seqFull cap i := by
  rw [(h.claimed_of_writes hp).seq]
  exact seqFree_ne_full

theorem published_ne {p : π} {r : Fin w → β} {i j : Nat} (hp : (s.push p).Writes r i)
    (hj : s.head ≤ j) (hj' : j < s.tail) (hpub : s.seq (j % cap) = seqFull cap j) : j % cap ≠ i % cap := by
  intro hslot
  have hi := h.claimed_of_writes hp
  obtain rfl := h.slot_eq hj hj' hi.ge hi.lt hslot
  exact h.not_published hp hpub

end

theorem claim (h : RingInv cap limit s) (hlimit : ∀ r, limit r ≤ cap) {p : π} {r : Fin w → β}
    (hp : s.push p = .claim r s.tail) (hb : s.tail + 1 < 2 ^ 64) :
    RingInv cap limit { s with
      push := update s.push p (.checkSeq r s.tail), tail := u64 (s.tail + 1), claimed := s.claimed ++ [r] } := by
  rw [u64_of_lt hb]
  have hunder : s.tail < s.head + limit r := by
    have := h.pushes p
    rwa [hp] at this
  have hroom : s.tail < s.head + cap := hunder.trans_le (Nat.add_le_add_left (hlimit r) _)
  have hold : ∀ {pos : Nat}, pos < s.tail → (s.claimed ++ [r])[pos]? = s.claimed[pos]? := fun hpos =>
    getElem?_append_left (by rwa [h.length])
  have hnew : (s.claimed ++ [r])[s.tail]? = some r := by
    rw [getElem?_append_right (by rw [h.length]), h.length, Nat.sub_self]
    rfl
  have hpw : ∀ r' pos, ¬(s.push p).Writes r' pos := by
    rintro r' pos (hw | ⟨k, hw⟩) <;> cases hp.symm.trans hw
  refine ⟨Nat.le_succ_of_le h.le, hroom, hb, by simp [h.length], ?_,
    fun pos hpos => h.free pos (Nat.le_of_succ_le hpos), ?_, ?_, ?_, ?_, ?_, h.unbroken⟩
  · rw [take_append_of_le_length (by rw [h.length]; exact h.le)]
    exact h.taken
  · intro pos hge hlt
    by_cases hpos : pos = s.tail
    · exact .inl ⟨p, r, by rw [hpos]; exact .inl (update_self ..)⟩
    have hlt' : pos < s.tail := Nat.lt_of_le_of_ne (Nat.le_of_lt_succ hlt) hpos
    rcases h.used pos hge hlt' with ⟨q, r', hq⟩ | hpub | hadv
    · have hqp : q ≠ p := by
        rintro rfl
        exact hpw r' pos hq
      refine .inl ⟨q, r', ?_⟩
      simpa only [update_of_ne hqp] using hq
    · exact .inr (.inl ⟨hpub.1, (hold hlt').trans hpub.2⟩)
    · exact .inr (.inr hadv)
  · intro q
    by_cases hq : q = p
    · simp only [hq, update_self]
      exact ⟨h.le, Nat.lt_succ_self _, hnew, h.free _ le_rfl hroom⟩
    · simp only [update_of_ne hq]
      exact (h.pushes q).mono le_rfl fun r' pos _ hc =>
        ⟨⟨hc.ge, Nat.lt_succ_of_lt hc.lt, (hold hc.lt).trans hc.record, hc.seq⟩, rfl⟩
  · intro q q' r₁ r₂ pos hq hq'
    by_cases hqp : q = p
    · by_cases hqp' : q' = p
      · rw [hqp, hqp']
      · simp only [hqp, update_self, update_of_ne hqp'] at hq hq'
        have := (h.claimed_of_writes hq').lt
        have hpos := (hq.inj (.inl rfl)).2
        omega
    by_cases hqp' : q' = p
    · simp only [hqp', update_self, update_of_ne hqp] at hq hq'
      have := (h.claimed_of_writes hq).lt
      have hpos := (hq'.inj (.inl rfl)).2
      omega
    · simp only [update_of_ne hqp, update_of_ne hqp'] at hq hq'
      exact h.alone q q' r₁ r₂ pos hq hq'
  · have hc := h.consumer
    unfold RingState.PopOk at hc ⊢
    dsimp only
    split at hc
    · trivial
    · trivial
    · exact ⟨hc.1, by omega⟩
    · exact ⟨hc.1, by omega⟩
    · obtain ⟨h₁, h₂, h₃, h₄⟩ := hc
      exact ⟨h₁, by omega, ⟨h₃.1, (hold (by omega)).trans h₃.2⟩, h₄⟩
    · obtain ⟨h₁, h₂, h₃, h₄⟩ := hc
      exact ⟨h₁, by omega, h₃, (hold (by omega)).trans h₄⟩
  · intro pos r' hr'
    rcases Nat.lt_trichotomy pos s.tail with hpos | hpos | hpos
    · exact h.held pos r' ((hold hpos).symm.trans hr')
    · rw [hpos] at hr' ⊢
      obtain rfl := Option.some.inj (hnew.symm.trans hr')
      exact hunder
    · have : (s.claimed ++ [r]).length ≤ pos := by
        simp only [length_append, length_singleton, h.length]
        omega
      rw [getElem?_eq_none this] at hr'
      cases hr'

/-- A push that has claimed `pos` changes the slot of `pos` only, and goes on or has published the record. -/
theorem inSlot (h : RingInv cap limit s) {p : π} {r : Fin w → β} {pos : Nat} (hpw : (s.push p).Writes r pos)
    (pc : PushPc (Fin w → β)) {n : Nat} {d : Fin w → β} {t : RingState π β w} (ht : t = { s with
      push := update s.push p pc, seq := update s.seq (pos % cap) n, data := update s.data (pos % cap) d })
    (hok : t.PushOk cap limit pc) (hback : ∀ r' j, pc.Writes r' j → (s.push p).Writes r' j)
    (hnext : pc.Writes r pos ∨ n = seqFull cap pos ∧ d = r) : RingInv cap limit t := by
  subst ht
  have hclaimed := h.claimed_of_writes hpw
  have hpub : ∀ j, s.head ≤ j → j < s.tail → s.Published cap j → j % cap ≠ pos % cap := fun j hj hj' hj'' =>
    h.published_ne hpw hj hj' hj''.1
  refine ⟨h.le, h.room, h.bound, h.length, h.taken, ?_, ?_, ?_, ?_, ?_, h.held, h.unbroken⟩
  · intro j hge hlt
    change s.tail ≤ j at hge
    have hpos := hclaimed.lt
    have hne : j % cap ≠ pos % cap := by
      intro hslot
      have := slot_inj (h.le.trans hge) hlt hclaimed.ge (hpos.trans_le h.room) hslot
      omega
    exact (update_of_ne hne ..).trans (h.free j hge hlt)
  · intro j hge hlt
    rcases h.used j hge hlt with ⟨q, r', hq⟩ | hj | hadv
    · by_cases hqp : q = p
      · rw [hqp] at hq
        obtain ⟨rfl, rfl⟩ := hq.inj hpw
        rcases hnext with hnext | ⟨rfl, rfl⟩
        · exact .inl ⟨p, r', by simpa only [update_self] using hnext⟩
        · refine .inr (.inl ⟨update_self .., hclaimed.record.trans ?_⟩)
          simp only [update_self]
      · refine .inl ⟨q, r', ?_⟩
        simpa only [update_of_ne hqp] using hq
    · have hne := hpub j hge hlt hj
      exact .inr (.inl ⟨(update_of_ne hne ..).trans hj.1, hj.2.trans (congrArg some (update_of_ne hne ..).symm)⟩)
    · exact .inr (.inr hadv)
  · intro q
    by_cases hq : q = p
    · simp only [hq, update_self]
      exact hok
    · simp only [update_of_ne hq]
      exact (h.pushes q).mono le_rfl fun r' j hj hc =>
        have hne := h.slot_ne hpw hj hq
        ⟨⟨hc.ge, hc.lt, hc.record, (update_of_ne hne ..).trans hc.seq⟩, update_of_ne hne ..⟩
  · have hback : ∀ q r' j, (update s.push p pc q).Writes r' j → (s.push q).Writes r' j := by
      intro q r' j hq
      by_cases hqp : q = p
      · rw [hqp, update_self] at hq
        exact hqp ▸ hback r' j hq
      · rwa [update_of_ne hqp] at hq
    intro q q' r₁ r₂ j hq hq'
    exact h.alone q q' r₁ r₂ j (hback q r₁ j hq) (hback q' r₂ j hq')
  · have hc := h.consumer
    unfold RingState.PopOk at hc ⊢
    dsimp only
    split at hc
    · trivial
    · trivial
    · exact hc
    · exact hc
    · obtain ⟨h₁, h₂, h₃, h₄⟩ := hc
      have hne := hpub _ (Nat.le_of_eq h₁.symm) (by omega) h₃
      rw [update_of_ne hne]
      exact ⟨h₁, h₂, ⟨(update_of_ne hne ..).trans h₃.1, h₃.2.trans (congrArg some (update_of_ne hne ..).symm)⟩, h₄⟩
    · obtain ⟨h₁, h₂, h₃, h₄⟩ := hc
      have hne : _ % cap ≠ pos % cap := fun hslot => by
        obtain rfl := h.slot_eq (Nat.le_of_eq h₁.symm) (by omega) hclaimed.ge hclaimed.lt hslot
        rw [hclaimed.seq] at h₃
        exact absurd h₃ seqFree_ne_taken
      exact ⟨h₁, h₂, (update_of_ne hne ..).trans h₃, h₄⟩

theorem copyCell (h : RingInv cap limit s) {p : π} {r : Fin w → β} {pos k : Nat} (hp : s.push p = .copy r pos k)
    (hk : k < w) :
    RingInv cap limit { s with
      push := update s.push p (.copy r pos (k + 1))
      data := update s.data (pos % cap) (update (s.data (pos % cap)) ⟨k, hk⟩ (r ⟨k, hk⟩)) } := by
  have hok := h.pushes p
  rw [hp] at hok
  obtain ⟨hclaimed, hcopied⟩ := hok
  refine h.inSlot (.inr ⟨k, hp⟩) (.copy r pos (k + 1)) (by rw [update_eq_self])
    ⟨⟨hclaimed.ge, hclaimed.lt, hclaimed.record, hclaimed.seq⟩, fun i hi => ?_⟩ (fun r' j hw => ?_)
    (.inl (.inr ⟨k + 1, rfl⟩))
  · simp only [update_self, update_apply]
    split
    · rename_i hik
      rw [hik]
    · rename_i hik
      have : i.val ≠ k := fun hv => hik (Fin.ext hv)
      exact hcopied i (by omega)
  · obtain ⟨rfl, rfl⟩ := hw.inj (.inr ⟨k + 1, rfl⟩)
    exact .inr ⟨k, hp⟩

theorem publish (h : RingInv cap limit s) {p : π} {r : Fin w → β} {pos k : Nat} (hp : s.push p = .copy r pos k)
    (hk : w ≤ k) :
    RingInv cap limit { s with
      push := update s.push p (.returned true)
      seq := update s.seq (pos % cap) (seqFull cap pos) } := by
  have hok := h.pushes p
  rw [hp] at hok
  obtain ⟨-, hcopied⟩ := hok
  refine h.inSlot (.inr ⟨k, hp⟩) (.returned true) (by rw [update_eq_self]) trivial (fun r' j hw => ?_)
    (.inr ⟨rfl, funext fun i => hcopied i (i.isLt.trans_le hk)⟩)
  rcases hw with hw | ⟨l, hw⟩ <;> cases hw

theorem pushStep (h : RingInv cap limit s) (hlimit : ∀ r, limit r ≤ cap) (hb : s.tail + 1 < 2 ^ 64) (p : π)
    (weak : Bool) : RingInv cap limit (s.pushStep cap limit p weak) := by
  have hok := h.pushes p
  unfold RingState.pushStep
  split
  · exact h
  · rename_i r hp
    refine h.goto _ le_rfl fun r' pos => ?_
    rw [hp]
    simp [PushPc.Writes]
  · rename_i r head hp
    rw [hp] at hok
    have hnot : ∀ pc r' pos, (∀ r pos, pc ≠ .checkSeq r pos) → (∀ r pos k, pc ≠ .copy r pos k) →
        (PushPc.Writes pc r' pos ↔ (s.push p).Writes r' pos) := by
      intro pc r' pos h₁ h₂
      rw [hp]
      simp [PushPc.Writes, h₁, h₂]
    have hsub : u64 (s.tail + 2 ^ 64 - head) = s.tail - head := by
      have hle : head ≤ s.tail := hok.trans h.le
      unfold u64
      omega
    split
    · exact (h.goto (.returned false) trivial fun r' pos => hnot _ r' pos nofun nofun).drop _
    refine h.goto _ ?_ fun r' pos => hnot _ r' pos nofun nofun
    change s.tail < s.head + limit r
    have : head ≤ s.head := hok
    omega
  · rename_i r pos hp
    split
    · rename_i hcas
      obtain ⟨rfl, -⟩ := hcas
      exact h.claim hlimit hp hb
    · refine h.goto _ trivial fun r' pos => ?_
      rw [hp]
      simp [PushPc.Writes]
  · rename_i r pos hp
    rw [hp] at hok
    rw [if_pos hok.seq]
    refine h.goto (.copy r pos 0) ⟨hok, fun i hi => absurd hi (Nat.not_lt_zero _)⟩ fun r' j => ?_
    rw [hp]
    simp [PushPc.Writes]
  · rename_i r pos k hp
    split
    · rename_i hk
      exact h.copyCell hp hk
    · rename_i hk
      exact h.publish hp (Nat.le_of_not_lt hk)

end RingInv

/-! ## Steps of the consumer -/

namespace RingInv

theorem turn (h : RingInv cap limit s) {pc : PopPc} {out : Fin w → β}
    (hok : RingState.PopOk cap { s with pop := pc, out := out })
    (hadv : ∀ pos, s.pop = .advance pos → pc = .advance pos) : RingInv cap limit { s with pop := pc, out := out } where
  le := h.le
  room := h.room
  bound := h.bound
  length := h.length
  taken := h.taken
  free := h.free
  used pos hge hlt := (h.used pos hge hlt).imp_right (Or.imp_right (hadv pos))
  pushes p := (h.pushes p).mono le_rfl fun _ _ _ hc => ⟨⟨hc.ge, hc.lt, hc.record, hc.seq⟩, rfl⟩
  alone := h.alone
  consumer := hok
  held := h.held
  unbroken := h.unbroken

theorem published_head (h : RingInv cap limit s) {pos : Nat} (hge : s.head ≤ pos) (hlt : pos < s.tail)
    (hseq : s.seq (pos % cap) = seqFull cap pos) (hadv : s.pop ≠ .advance pos) : s.Published cap pos := by
  rcases h.used pos hge hlt with ⟨p, r, hp⟩ | hpub | hpop
  · exact absurd hseq (h.not_published hp)
  · exact hpub
  · exact absurd hpop hadv

theorem release (h : RingInv cap limit s) {pos k : Nat} (hp : s.pop = .copy pos k) (hk : w ≤ k) :
    RingInv cap limit { s with pop := .advance pos, seq := update s.seq (pos % cap) (seqTaken cap pos) } := by
  have hc := h.consumer
  simp only [RingState.PopOk, hp] at hc
  obtain ⟨rfl, hlt, hpub, hcopied⟩ := hc
  have hout : s.out = s.data (s.head % cap) := funext fun i => hcopied i (i.isLt.trans_le hk)
  have hne : ∀ j, s.head ≤ j → j < s.head + cap → j ≠ s.head → j % cap ≠ s.head % cap := fun j hj hj' hjne hslot =>
    hjne (slot_inj hj hj' le_rfl (by have := h.room; omega) hslot)
  refine ⟨h.le, h.room, h.bound, h.length, h.taken, ?_, ?_, ?_, h.alone, ?_, h.held, h.unbroken⟩
  · intro j hge hj
    change s.tail ≤ j at hge
    exact (update_of_ne (hne j (by omega) hj (by omega)) ..).trans (h.free j hge hj)
  · intro j hge hj
    by_cases hjh : j = s.head
    · exact .inr (.inr (by rw [hjh]))
    rcases h.used j hge hj with hw | hj' | hadv
    · exact .inl hw
    · refine .inr (.inl ⟨(update_of_ne (hne j hge (hj.trans_le h.room) hjh) ..).trans hj'.1, hj'.2⟩)
    · cases hp.symm.trans hadv
  · intro p
    refine (h.pushes p).mono le_rfl fun r j hj hc => ⟨⟨hc.ge, hc.lt, hc.record, ?_⟩, rfl⟩
    have hjh : j ≠ s.head := by
      rintro rfl
      exact h.not_published hj hpub.1
    exact (update_of_ne (hne j hc.ge (hc.lt.trans_le h.room) hjh) ..).trans hc.seq
  · exact ⟨rfl, hlt, update_self .., hpub.2.trans (congrArg some hout.symm)⟩

theorem advance (h : RingInv cap limit s) {pos : Nat} (hp : s.pop = .advance pos) :
    RingInv cap limit { s with pop := .idle, head := u64 (pos + 1), popped := s.popped ++ [s.out] } := by
  have hc := h.consumer
  simp only [RingState.PopOk, hp] at hc
  obtain ⟨rfl, hlt, hseq, hout⟩ := hc
  have hb := h.bound
  rw [u64_of_lt (by omega)]
  have hroom := h.room
  have hcap : 0 < cap := by omega
  refine ⟨hlt, ?_, h.bound, h.length, ?_, ?_, ?_, ?_, h.alone, trivial, ?_, h.unbroken⟩
  · change s.tail ≤ s.head + 1 + cap
    omega
  · rw [take_add_one, hout, h.taken]
    rfl
  · intro j hge hj
    change j < s.head + 1 + cap at hj
    by_cases hjc : j = s.head + cap
    · rw [hjc, Nat.add_mod_right, ← seqTaken_eq hcap]
      exact hseq
    · exact h.free j hge (by omega)
  · intro j hge hj
    change s.head + 1 ≤ j at hge
    rcases h.used j (by omega) hj with hw | hj' | hadv
    · exact .inl hw
    · exact .inr (.inl hj')
    · cases hp.symm.trans hadv
      omega
  · intro p
    refine (h.pushes p).mono (Nat.le_succ _) fun r j hj hc => ⟨⟨?_, hc.lt, hc.record, hc.seq⟩, rfl⟩
    have hjh : j ≠ s.head := by
      rintro rfl
      exact seqFree_ne_taken (hc.seq.symm.trans hseq)
    exact Nat.lt_of_le_of_ne hc.ge (Ne.symm hjh)
  · intro j r hr
    change j < s.head + 1 + limit r
    have := h.held j r hr
    omega

theorem popStep (h : RingInv cap limit s) : RingInv cap limit (s.popStep cap) := by
  have hc := h.consumer
  unfold RingState.PopOk at hc
  unfold RingState.popStep
  split
  · exact h
  · rename_i hp
    exact h.turn ⟨h.le, le_rfl⟩ fun pos hadv => (nomatch hp.symm.trans hadv)
  · rename_i tail hp
    simp only [hp] at hc
    refine h.turn ?_ fun pos hadv => (nomatch hp.symm.trans hadv)
    by_cases heq : s.head = tail
    · rw [if_pos heq]
      trivial
    · rw [if_neg heq]
      exact ⟨rfl, by change s.head < s.tail; omega⟩
  · rename_i pos hp
    simp only [hp] at hc
    obtain ⟨rfl, hlt⟩ := hc
    refine h.turn ?_ fun pos hadv => (nomatch hp.symm.trans hadv)
    by_cases heq : s.seq (s.head % cap) = seqFull cap s.head
    · rw [if_pos heq]
      refine ⟨rfl, hlt, h.published_head le_rfl hlt heq ?_, fun i hi => absurd hi (Nat.not_lt_zero _)⟩
      rw [hp]
      exact nofun
    · rw [if_neg heq]
      trivial
  · rename_i pos k hp
    simp only [hp] at hc
    obtain ⟨h₁, h₂, h₃, h₄⟩ := hc
    split
    · rename_i hk
      refine h.turn ⟨h₁, h₂, h₃, fun i hi => ?_⟩ fun pos hadv => (nomatch hp.symm.trans hadv)
      simp only [update_apply]
      split
      · rename_i hik
        rw [hik]
      · rename_i hik
        have : i.val ≠ k := fun hv => hik (Fin.ext hv)
        exact h₄ i (by omega)
    · rename_i hk
      exact h.release hp (Nat.le_of_not_lt hk)
  · rename_i pos hp
    exact h.advance hp

theorem step (hlimit : ∀ r, limit r ≤ cap) {t : RingState π β w} {e : RingEvent π β w}
    (h : RingInv cap limit s) (hb : s.tail + 1 < 2 ^ 64) (hs : RingStep cap limit s e t) : RingInv cap limit t := by
  cases hs with
  | begin p r ok hp =>
    refine h.goto _ trivial fun r' pos => ?_
    rw [hp]
    simp [PushPc.Writes]
  | push p weak => exact h.pushStep hlimit hb p weak
  | beginPop hp => exact h.turn trivial fun pos hadv => (nomatch hp.symm.trans hadv)
  | pop => exact h.popStep

/-! ## From publication to pop -/

section

variable (h : RingInv cap limit s)

include h

theorem pushStep_published (p : π) (weak : Bool) {pos : Nat} (hge : s.head ≤ pos) (hlt : pos < s.tail)
    (hpub : s.Published cap pos) : (s.pushStep cap limit p weak).data (pos % cap) = s.data (pos % cap) ∧
    (s.pushStep cap limit p weak).Published cap pos := by
  unfold RingState.pushStep
  split
  · exact ⟨rfl, hpub⟩
  · exact ⟨rfl, hpub⟩
  · split
    · exact ⟨rfl, hpub⟩
    · exact ⟨rfl, hpub⟩
  · split
    · refine ⟨rfl, hpub.1, ?_⟩
      exact (getElem?_append_left (by rwa [h.length])).trans hpub.2
    · exact ⟨rfl, hpub⟩
  · exact ⟨rfl, hpub⟩
  · rename_i r i k hp
    have hne := h.published_ne (.inr ⟨k, hp⟩) hge hlt hpub.1
    split
    · have hdata := update_of_ne hne
        (update (s.data (i % cap)) ⟨k, ‹k < w›⟩ (r ⟨k, ‹k < w›⟩)) s.data
      exact ⟨hdata, hpub.1, hpub.2.trans (congrArg some hdata.symm)⟩
    · exact ⟨rfl, (update_of_ne hne ..).trans hpub.1, hpub.2⟩

theorem popStep_published {pos : Nat} (hge : s.head ≤ pos) (hlt : pos < s.tail) (hpub : s.Published cap pos) :
    (s.popStep cap).data (pos % cap) = s.data (pos % cap) ∧
    ((s.popStep cap).Published cap pos ∨ (s.popStep cap).pop = .advance pos) := by
  have hc := h.consumer
  unfold RingState.PopOk at hc
  unfold RingState.popStep
  split
  · exact ⟨rfl, .inl hpub⟩
  · exact ⟨rfl, .inl hpub⟩
  · exact ⟨rfl, .inl hpub⟩
  · exact ⟨rfl, .inl hpub⟩
  · rename_i i k hp
    simp only [hp] at hc
    obtain ⟨rfl, -⟩ := hc
    split
    · exact ⟨rfl, .inl hpub⟩
    by_cases hpos : pos = s.head
    · exact ⟨rfl, .inr (by rw [hpos])⟩
    · have hne : pos % cap ≠ s.head % cap := fun hslot =>
        hpos (h.slot_eq hge hlt le_rfl (hge.trans_lt hlt) hslot)
      exact ⟨rfl, .inl ⟨(update_of_ne hne ..).trans hpub.1, hpub.2⟩⟩
  · exact ⟨rfl, .inl hpub⟩

theorem step_published {t : RingState π β w} {e : RingEvent π β w}
    (hs : RingStep cap limit s e t) {pos : Nat} (hge : s.head ≤ pos) (hlt : pos < s.tail) (hpub : s.Published cap pos) :
    t.data (pos % cap) = s.data (pos % cap) ∧ (t.Published cap pos ∨ t.pop = .advance pos) := by
  cases hs with
  | begin | beginPop => exact ⟨rfl, .inl hpub⟩
  | push p weak =>
    obtain ⟨hdata, hpub'⟩ := h.pushStep_published p weak hge hlt hpub
    exact ⟨hdata, .inl hpub'⟩
  | pop => exact h.popStep_published hge hlt hpub

theorem popSteps (n : Nat) : RingInv cap limit ((RingState.popStep cap)^[n] s) := by
  induction n generalizing s with
  | zero => exact h
  | succ n ih => exact ih h.popStep

end

theorem copy_ends (cap : Nat) {pos : Nat} (d : Nat) : ∀ {k : Nat} {u : RingState π β w}, u.pop = .copy pos k →
    w - k = d →
    ∃ n, ((RingState.popStep cap)^[n] u).pop = .advance pos ∧ ((RingState.popStep cap)^[n] u).claimed = u.claimed := by
  induction d with
  | zero =>
    intro k u hu hk
    refine ⟨1, ?_⟩
    have hk' : ¬k < w := by omega
    simp only [Function.iterate_one, RingState.popStep, hu, hk', dite_false, and_self]
  | succ d ih =>
    intro k u hu hk
    have hk' : k < w := by omega
    have hstep : (u.popStep cap).pop = .copy pos (k + 1) ∧ (u.popStep cap).claimed = u.claimed := by
      simp only [RingState.popStep, hu, hk', dite_true, and_self]
    obtain ⟨n, hpop, hclaimed⟩ := ih hstep.1 (by omega)
    exact ⟨n + 1, hpop, hclaimed.trans hstep.2⟩

/-- What is published at the head is what the next call of the consumer returns. -/
theorem pop_next (h : RingInv cap limit s) (hidle : s.pop = .idle) (hlt : s.head < s.tail)
    (hfree : ∀ p r, ¬(s.push p).Writes r s.head) :
    ∃ n, ((RingState.popStep cap)^[n] { s with pop := .loadTail }).popped = s.claimed.take (s.head + 1) := by
  have hpub : s.Published cap s.head := by
    rcases h.used s.head le_rfl hlt with ⟨p, r, hp⟩ | hpub | hadv
    · exact absurd hp (hfree p r)
    · exact hpub
    · cases hidle.symm.trans hadv
  have hstart : RingInv cap limit { s with pop := .loadTail } :=
    h.turn trivial fun pos hadv => (nomatch hidle.symm.trans hadv)
  have hne : s.head ≠ s.tail := by omega
  have hcopy : ((RingState.popStep cap)^[3] { s with pop := .loadTail }) = { s with pop := .copy s.head 0 } := by
    simp only [Function.iterate_succ, Function.iterate_zero, Function.comp_apply, id_eq, RingState.popStep, hne,
      if_false, hpub.1, if_true]
  obtain ⟨n, hpop, hclaimed⟩ := copy_ends cap w (u := { s with pop := .copy s.head 0 }) rfl (by omega)
  have hinv := hstart.popSteps (1 + n + 3)
  have hsplit : (RingState.popStep cap)^[1 + n + 3] { s with pop := .loadTail } =
      ((RingState.popStep cap)^[n] { s with pop := .copy s.head 0 }).popStep cap := by
    rw [Function.iterate_add_apply, hcopy, Function.iterate_add_apply, Function.iterate_one]
  have hn : RingInv cap limit ((RingState.popStep cap)^[n] { s with pop := .copy s.head 0 }) := by
    have := hstart.popSteps (n + 3)
    rwa [Function.iterate_add_apply, hcopy] at this
  have hok := hn.consumer
  refine ⟨1 + n + 3, ?_⟩
  rw [hinv.taken, hsplit]
  simp only [RingState.popStep, hpop, hclaimed]
  rw [u64_of_lt (by have := h.bound; omega)]

end RingInv

end

end BoxOS.Ipc
