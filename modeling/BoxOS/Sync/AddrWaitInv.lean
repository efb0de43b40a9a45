import BoxOS.Sync.AddrWait

/-!
# Where every park is

The park of a strand is open until somebody claims its entry; from then on exactly one, the strand itself or one thread,
owes its answer.
-/

set_option linter.unusedSectionVars false

open Function (update update_of_ne update_self)

namespace BoxOS.Sync

open List

/-! ## The loop of a wake -/

section

variable {σ : Type}

theorem wakeLoop_eq (claims : σ → Bool) (count : Nat) (l : List σ) (n : Nat) :
    wakeLoop claims count l n = if count = 0 then l.filter claims else (l.filter claims).take (count - n) := by
  induction l generalizing n with
  | nil => split <;> simp [wakeLoop]
  | cons p rest ih =>
    unfold wakeLoop
    by_cases h0 : count = 0
    · rw [if_pos (.inl h0), if_pos h0, ih, ih, if_pos h0, if_pos h0, filter_cons]
    rw [if_neg h0]
    by_cases hn : n < count
    · rw [if_pos (.inr hn), ih, ih, if_neg h0, if_neg h0, filter_cons]
      split
      · have : count - n = (count - (n + 1)) + 1 := by omega
        rw [this, take_succ_cons]
      · rfl
    · rw [if_neg (by omega)]
      have : count - n = 0 := by omega
      rw [this, take_zero]

end

/-! ## The standing of a park -/

/-- What the books say of a strand's last park. -/
inductive Standing where
  /-- every park is answered -/
  | settled
  | pending (cookie : Nat)
  /-- completed, and not answered -/
  | owed (cookie : Nat) (code : Code)

/-- The strands whose answer a thread owes. -/
def ThreadPc.owes {σ : Type} : ThreadPc σ → List σ
  | .answer claimed => claimed
  | .rouse _ _ claimed => claimed
  | .timeoutAnswer p _ => [p]
  | _ => []

/-- The thread owes `p` an answer with this cookie and code; `entryCookie`: what `p`'s entry holds. -/
def ThreadPc.Owes {σ : Type} (entryCookie : Nat) (p : σ) (cookie : Nat) (code : Code) : ThreadPc σ → Prop
  | .answer claimed => p ∈ claimed ∧ entryCookie = cookie ∧ code = .ok
  | .rouse _ _ claimed => p ∈ claimed ∧ entryCookie = cookie ∧ code = .ok
  | .timeoutAnswer q c => q = p ∧ c = cookie ∧ code = .timeout
  | _ => False

/-- The thread has answered `p`, and sets it to `PROC_WORKING` next. -/
def ThreadPc.Rouses {σ : Type} (p : σ) : ThreadPc σ → Prop
  | .rouse q _ _ => q = p
  | _ => False

theorem ThreadPc.Owes.mem {σ : Type} {entryCookie cookie : Nat} {p : σ} {code : Code} {pc : ThreadPc σ}
    (h : pc.Owes entryCookie p cookie code) : p ∈ pc.owes := by
  cases pc with
  | answer | rouse => exact h.1
  | timeoutAnswer q c =>
    rw [← h.1]
    exact mem_singleton_self q
  | _ => exact h.elim

section

variable {σ α : Type} [DecidableEq σ] [DecidableEq α]

namespace WaitState

variable (s : WaitState σ α)

def Stands (p : σ) : Standing → Prop
  | .settled => s.parks p = (s.answers p).map (·.1) ∧ s.completions p = (s.answers p).map (·.2)
  | .pending cookie => s.parks p = (s.answers p).map (·.1) ++ [cookie] ∧ s.completions p = (s.answers p).map (·.2)
  | .owed cookie code => s.parks p = (s.answers p).map (·.1) ++ [cookie] ∧
      s.completions p = (s.answers p).map (·.2) ++ [code]

/-- No thread owes `p` an answer. -/
def NotHeld (p : σ) : Prop := ∀ a, p ∉ (s.thread a).owes

/-- `p` is on its way to its bucket. -/
structure Arriving (s : WaitState σ α) (p : σ) (c : ParkCall) : Prop where
  stands : s.Stands p (.pending c.cookie)
  unlinked : (s.entry p).linked = false
  free : s.NotHeld p

/-- `p` itself returns with its answer. -/
structure Returning (s : WaitState σ α) (p : σ) (cookie : Nat) (code : Code) : Prop where
  stands : s.Stands p (.owed cookie code)
  unlinked : (s.entry p).linked = false
  free : s.NotHeld p

/-- `p` is in its bucket, or a thread owes it an answer, or all is answered. -/
def Rests (p : σ) : Prop :=
  ((s.entry p).linked = true ∧ (s.entry p).done = false ∧ s.Stands p (.pending (s.entry p).cookie) ∧ s.NotHeld p) ∨
  ((s.entry p).linked = false ∧ ∃ a cookie code, (s.thread a).Owes (s.entry p).cookie p cookie code ∧
    s.Stands p (.owed cookie code)) ∨
  ((s.entry p).linked = false ∧ s.Stands p .settled ∧ s.NotHeld p)

/-- The entry of `p` is that of the call, and in its bucket or claimed. -/
structure Entered (space : σ → Nat) (s : WaitState σ α) (p : σ) (c : ParkCall) : Prop where
  space : (s.entry p).space = space p
  va : (s.entry p).va = c.va
  expected : (s.entry p).expected = c.expected
  cookie : (s.entry p).cookie = c.cookie
  claimed : (s.entry p).linked = false → (s.entry p).done = true

/-- What holds of a strand that is at `pc`. -/
def PcOk (space : σ → Nat) (s : WaitState σ α) (p : σ) : ParkPc → Prop
  | .idle => s.Rests p
  | .load c => s.Arriving p c
  | .unlink c => s.Arriving p c
  | .prepare c => s.Arriving p c
  | .link c _ => s.Arriving p c
  | .rest c => s.Entered space p c ∧ s.Rests p
  | .recheck c => s.Entered space p c ∧ s.Rests p
  | .loadDone c _ => s.Entered space p c ∧ s.Rests p
  | .claim c => s.Entered space p c ∧ s.Rests p
  | .resume => s.Rests p
  | .resumeChanged c => s.Returning p c.cookie .valueMismatch
  | .reply cookie code => s.Returning p cookie code

def StrandOk (space : σ → Nat) (s : WaitState σ α) (p : σ) : Prop := s.PcOk space p (s.pc p)

/-- A strand that got all its answers works, or is about to. -/
def Awake (p : σ) : Prop :=
  s.pc p = .idle → s.Stands p .settled → s.waiting p = true → ∃ a, (s.thread a).Rouses p

/-- A deadline that `p` sets after `now` is later than `now`. -/
structure Later (s : WaitState σ α) (p : σ) (now : Nat) : Prop where
  entry : (s.entry p).linked = true → (s.entry p).timed = true → now < (s.entry p).fireAt
  call : ∀ c fireAt, s.pc p = .link c fireAt → 0 < c.timeoutMs → now < fireAt

/-- The bucket a timeout is about to lock is that of the entry, unless the entry is not due. -/
def TimeoutOk (p : σ) (now b : Nat) : Prop :=
  ((s.entry p).linked = true ∧ bucketIndex (s.entry p).space (s.entry p).va = b) ∨ s.Later p now

end WaitState

structure WaitInv (space : σ → Nat) (s : WaitState σ α) : Prop where
  strand : ∀ p, s.StrandOk space p
  alone : ∀ a a' p, p ∈ (s.thread a).owes → p ∈ (s.thread a').owes → a = a'
  distinct : ∀ a, (s.thread a).owes.Nodup
  mem_bucket : ∀ b p, p ∈ s.bucket b ↔ (s.entry p).linked = true ∧ bucketIndex (s.entry p).space (s.entry p).va = b
  nodup : ∀ b, (s.bucket b).Nodup
  awake : ∀ p, s.Awake p
  look : ∀ a p now, s.thread a = .timeoutLook p now → now ≤ s.tick
  due : ∀ a p now b, s.thread a = .timeoutDue p now b → now ≤ s.tick ∧ s.TimeoutOk p now b

variable {space : σ → Nat} {s t : WaitState σ α} {p : σ} {a : α}

theorem waitInit_inv (mem : Nat → Nat) : WaitInv space (waitInit mem : WaitState σ α) where
  strand _ := .inr (.inr ⟨rfl, ⟨rfl, rfl⟩, fun _ h => (nomatch h)⟩)
  alone _ _ _ h := nomatch h
  distinct _ := nodup_nil
  mem_bucket _ _ := ⟨nofun, fun h => (nomatch h.1)⟩
  nodup _ := nodup_nil
  awake _ _ _ h := nomatch h
  look _ _ _ h := nomatch h
  due _ _ _ _ h := nomatch h

/-! ## The books -/

theorem stands_length {st : Standing} (h : s.Stands p st) :
    (s.parks p).length = (s.answers p).length + (match st with | .settled => 0 | _ => 1) ∧
      (s.completions p).length = (s.answers p).length + (match st with | .owed _ _ => 1 | _ => 0) := by
  cases st with
  | settled | pending | owed => exact ⟨by rw [h.1]; simp, by rw [h.2]; simp⟩

/-- What a strand has does not change: its place, its entry, its books and who owes it. -/
structure Same (s t : WaitState σ α) (p : σ) : Prop where
  pc : t.pc p = s.pc p
  entry : t.entry p = s.entry p
  parks : t.parks p = s.parks p
  completions : t.completions p = s.completions p
  answers : t.answers p = s.answers p
  held : ∀ a, p ∈ (t.thread a).owes ↔ p ∈ (s.thread a).owes
  owed : ∀ a cookie code, (s.thread a).Owes (s.entry p).cookie p cookie code →
    (t.thread a).Owes (s.entry p).cookie p cookie code

section

variable (h : Same s t p)

include h

theorem Same.stands_iff {st : Standing} : t.Stands p st ↔ s.Stands p st := by
  cases st <;> simp only [WaitState.Stands, h.parks, h.answers, h.completions]

theorem Same.stands {st : Standing} (hs : s.Stands p st) : t.Stands p st := h.stands_iff.mpr hs

theorem Same.notHeld (hs : s.NotHeld p) : t.NotHeld p := fun a hp => hs a ((h.held a).mp hp)

theorem Same.rests (hs : s.Rests p) : t.Rests p := by
  unfold WaitState.Rests at hs ⊢
  rw [h.entry]
  rcases hs with ⟨hl, hd, hst, hfree⟩ | ⟨hl, a, c, k, howes, hst⟩ | ⟨hl, hst, hfree⟩
  · exact .inl ⟨hl, hd, h.stands hst, h.notHeld hfree⟩
  · exact .inr (.inl ⟨hl, a, c, k, h.owed a c k howes, h.stands hst⟩)
  · exact .inr (.inr ⟨hl, h.stands hst, h.notHeld hfree⟩)

theorem Same.strandOk (hs : s.StrandOk space p) : t.StrandOk space p := by
  have harriving : ∀ {c}, s.Arriving p c → t.Arriving p c := fun hc =>
    ⟨h.stands hc.stands, by rw [h.entry]; exact hc.unlinked, h.notHeld hc.free⟩
  have hreturning : ∀ {c k}, s.Returning p c k → t.Returning p c k := fun hc =>
    ⟨h.stands hc.stands, by rw [h.entry]; exact hc.unlinked, h.notHeld hc.free⟩
  have hentered : ∀ {c}, s.Entered space p c → t.Entered space p c := fun hc =>
    ⟨by rw [h.entry]; exact hc.space, by rw [h.entry]; exact hc.va, by rw [h.entry]; exact hc.expected,
      by rw [h.entry]; exact hc.cookie, by rw [h.entry]; exact hc.claimed⟩
  unfold WaitState.StrandOk at hs ⊢
  rw [h.pc]
  generalize s.pc p = pc at hs
  cases pc with
  | idle | resume => exact h.rests hs
  | load | unlink | prepare | link => exact harriving hs
  | rest | recheck | loadDone | claim => exact ⟨hentered hs.1, h.rests hs.2⟩
  | resumeChanged | reply => exact hreturning hs

theorem Same.timeoutOk {now b : Nat} (hs : s.TimeoutOk p now b) : t.TimeoutOk p now b := by
  unfold WaitState.TimeoutOk at hs ⊢
  rw [h.entry]
  rcases hs with hs | hs
  · exact .inl hs
  · exact .inr ⟨by rw [h.entry]; exact hs.entry, by rw [h.pc]; exact hs.call⟩

end

/-! ## Steps of a strand -/

/-- A step that concerns strand `p` only. -/
structure StepOf (space : σ → Nat) (s t : WaitState σ α) (p : σ) : Prop where
  other : ∀ q, q ≠ p → Same s t q
  strand : t.StrandOk space p
  mem_bucket : ∀ b q, q ∈ t.bucket b ↔ (t.entry q).linked = true ∧ bucketIndex (t.entry q).space (t.entry q).va = b
  nodup : ∀ b, (t.bucket b).Nodup
  awake : t.Awake p
  tick : t.tick = s.tick
  timeout : ∀ now b, now ≤ s.tick → s.TimeoutOk p now b → t.TimeoutOk p now b

theorem StepOf.strands (w : StepOf space s t p) (h : WaitInv space s) (q : σ) : t.StrandOk space q := by
  by_cases hq : q = p
  · rw [hq]
    exact w.strand
  · exact (w.other q hq).strandOk (h.strand q)

theorem StepOf.due (w : StepOf space s t p) {q : σ} {now b : Nat} (h : now ≤ s.tick ∧ s.TimeoutOk q now b) :
    now ≤ t.tick ∧ t.TimeoutOk q now b := by
  refine ⟨by rw [w.tick]; exact h.1, ?_⟩
  by_cases hq : q = p
  · rw [hq] at h ⊢
    exact w.timeout now b h.1 h.2
  · exact (w.other q hq).timeoutOk h.2

/-- A step of strand `p`: what speaks of the other strands stays. -/
theorem WaitInv.ofStrand (h : WaitInv space s) (w : StepOf space s t p) (hthread : t.thread = s.thread)
    (hwaiting : ∀ q, q ≠ p → t.waiting q = s.waiting q) : WaitInv space t where
  strand := w.strands h
  alone := by
    rw [hthread]
    exact h.alone
  distinct := by
    rw [hthread]
    exact h.distinct
  mem_bucket := w.mem_bucket
  nodup := w.nodup
  awake q hpc hst hw := by
    by_cases hq : q = p
    · rw [hq] at hpc hst hw ⊢
      exact w.awake hpc hst hw
    · rw [hwaiting q hq] at hw
      rw [hthread]
      exact h.awake q ((w.other q hq).pc.symm.trans hpc) ((w.other q hq).stands_iff.mp hst) hw
  look := by
    rw [hthread, w.tick]
    exact h.look
  due a q now b hd := by
    rw [hthread] at hd
    exact w.due (h.due a q now b hd)

/-- A step of strand `p` that leaves its entry and the buckets alone. -/
theorem WaitInv.ofPc (h : WaitInv space s) (p : σ) (hpc : ∀ q, q ≠ p → t.pc q = s.pc q) (hentry : t.entry = s.entry)
    (hbucket : t.bucket = s.bucket) (hthread : t.thread = s.thread) (hparks : ∀ q, q ≠ p → t.parks q = s.parks q)
    (hcompletions : ∀ q, q ≠ p → t.completions q = s.completions q) (hanswers : ∀ q, q ≠ p → t.answers q = s.answers q)
    (hp : t.StrandOk space p) (hawake : t.Awake p) (hwaiting : ∀ q, q ≠ p → t.waiting q = s.waiting q)
    (htick : t.tick = s.tick)
    (hlink : ∀ c fireAt now, t.pc p = .link c fireAt → 0 < c.timeoutMs → now ≤ s.tick → now < fireAt) :
    WaitInv space t := by
  refine h.ofStrand ⟨fun q hq => ?_, hp, by rw [hbucket, hentry]; exact h.mem_bucket, by rw [hbucket]; exact h.nodup,
    hawake, htick, fun now b hle hok => ?_⟩ hthread hwaiting
  · exact ⟨hpc q hq, by rw [hentry], hparks q hq, hcompletions q hq, hanswers q hq, fun a => by rw [hthread],
      fun a c k ho => by rw [hthread]; exact ho⟩
  · unfold WaitState.TimeoutOk at hok ⊢
    rw [hentry]
    rcases hok with hok | hok
    · exact .inl hok
    · exact .inr ⟨by rw [hentry]; exact hok.entry, fun c f hc hms => hlink c f now hc hms hle⟩

theorem WaitState.NotHeld.of_thread (h : s.NotHeld p) (ht : t.thread = s.thread) : t.NotHeld p := by
  unfold WaitState.NotHeld
  rw [ht]
  exact h

variable {c : ParkCall}

theorem WaitState.Arriving.frame (h : s.Arriving p c) (hparks : t.parks p = s.parks p)
    (hcompletions : t.completions p = s.completions p) (hanswers : t.answers p = s.answers p)
    (hentry : t.entry p = s.entry p) (hthread : t.thread = s.thread) : t.Arriving p c where
  stands := ⟨by rw [hparks, hanswers]; exact h.stands.1, by rw [hcompletions, hanswers]; exact h.stands.2⟩
  unlinked := by
    rw [hentry]
    exact h.unlinked
  free := h.free.of_thread hthread

theorem WaitState.Arriving.completed (h : s.Arriving p c) (code : Code) (pc : ParkPc) :
    ((s.complete p code).goto p pc).Returning p c.cookie code where
  stands := by
    refine ⟨h.stands.1, ?_⟩
    change update s.completions p _ p = _
    rw [update_self, h.stands.2]
    rfl
  unlinked := h.unlinked
  free := h.free

theorem WaitState.Rests.settled (h : s.Rests p) (hlen : (s.answers p).length = (s.parks p).length) :
    (s.entry p).linked = false ∧ s.Stands p .settled ∧ s.NotHeld p := by
  rcases h with ⟨-, -, hst, -⟩ | ⟨-, a, c, k, -, hst⟩ | hrest
  · have := (stands_length hst).1
    simp only at this
    omega
  · have := (stands_length hst).1
    simp only at this
    omega
  · exact hrest

theorem WaitInv.park (h : WaitInv space s) (c : ParkCall) (hpc : s.pc p = .idle)
    (hlen : (s.answers p).length = (s.parks p).length) :
    WaitInv space { s with
      pc := update s.pc p (.load c), parks := update s.parks p (s.parks p ++ [c.cookie]) } := by
  have hs := h.strand p
  unfold WaitState.StrandOk at hs
  rw [hpc] at hs
  obtain ⟨hl, hst, hfree⟩ := hs.settled hlen
  refine h.ofPc p (fun q hq => update_of_ne hq ..) rfl rfl rfl (fun q hq => update_of_ne hq ..)
    (fun _ _ => rfl) (fun _ _ => rfl) ?_ ?_ (fun _ _ => rfl) rfl ?_
  · simp only [WaitState.StrandOk, update_self]
    refine ⟨⟨?_, hst.2⟩, hl, hfree⟩
    rw [← hst.1]
    exact update_self ..
  · intro hidle
    simp only [update_self] at hidle
    cases hidle
  · intro c' f now hlink
    simp only [update_self] at hlink
    cases hlink

theorem WaitInv.link (h : WaitInv space s) {c : ParkCall} {fireAt : Nat} (hpc : s.pc p = .link c fireAt) :
    WaitInv space { s with
      pc := update s.pc p (.rest c)
      entry := update s.entry p
        ⟨space p, c.va, c.expected, c.cookie, decide (0 < c.timeoutMs), fireAt, false, true⟩
      bucket := update s.bucket (bucketIndex (space p) c.va)
        (p :: s.bucket (bucketIndex (space p) c.va)) } := by
  have hs := h.strand p
  unfold WaitState.StrandOk at hs
  rw [hpc] at hs
  have hnot : ∀ b, p ∉ s.bucket b := fun b hb => by
    have := ((h.mem_bucket b p).mp hb).1
    cases hs.unlinked.symm.trans this
  refine h.ofStrand (p := p) ⟨fun q hq => ?_, ?_, fun b q => ?_, fun b => ?_, ?_, rfl, fun now b hle hok => ?_⟩ rfl
    fun _ _ => rfl
  · exact ⟨update_of_ne hq .., update_of_ne hq .., rfl, rfl, rfl, fun _ => Iff.rfl, fun _ _ _ ho => ho⟩
  · simp only [WaitState.StrandOk, update_self]
    refine ⟨⟨?_, ?_, ?_, ?_, ?_⟩, .inl ⟨?_, ?_, ?_, hs.free⟩⟩ <;> simp only [update_self]
    · exact nofun
    · exact hs.stands
  · by_cases hb : b = bucketIndex (space p) c.va
    · rw [hb]
      simp only [update_self, mem_cons]
      by_cases hq : q = p
      · simp only [hq, update_self, true_or, and_self]
      · simp only [hq, false_or, update_of_ne hq]
        exact h.mem_bucket _ q
    · simp only [update_of_ne hb]
      by_cases hq : q = p
      · simp only [hq, update_self, hnot b, false_iff]
        exact fun hk => hb hk.2.symm
      · simp only [update_of_ne hq]
        exact h.mem_bucket b q
  · by_cases hb : b = bucketIndex (space p) c.va
    · rw [hb]
      simp only [update_self]
      exact nodup_cons.mpr ⟨hnot _, h.nodup _⟩
    · simp only [update_of_ne hb]
      exact h.nodup b
  · intro hidle
    simp only [update_self] at hidle
    cases hidle
  · -- a deadline of this call was set after the timeout looked at the clock
    rcases hok with ⟨hl, -⟩ | hlater
    · cases hs.unlinked.symm.trans hl
    refine .inr ⟨fun _ htimed => ?_, fun c' f hl => ?_⟩
    · simp only [update_self, decide_eq_true_eq] at htimed ⊢
      exact hlater.call c fireAt hpc htimed
    · simp only [update_self] at hl
      cases hl

/-! ## Claims -/

theorem claim_entry_self (b : Nat) (code : Code) :
    (s.claim b p code).entry p = { s.entry p with done := true, linked := false } := by
  simp only [WaitState.claim, WaitState.unlink, WaitState.complete, update_self]

theorem claim_entry_of_ne (b : Nat) (code : Code) {q : σ} (hq : q ≠ p) : (s.claim b p code).entry q = s.entry q := by
  simp only [WaitState.claim, WaitState.unlink, WaitState.complete, update_of_ne hq]

theorem claim_completions_self (b : Nat) (code : Code) : (s.claim b p code).completions p = s.completions p ++ [code] :=
  update_self ..

theorem claim_completions_of_ne (b : Nat) (code : Code) {q : σ} (hq : q ≠ p) :
    (s.claim b p code).completions q = s.completions q :=
  update_of_ne hq ..

/-- The buckets after the claim of an entry of bucket `b`. -/
theorem WaitInv.claim_bucket (h : WaitInv space s) {b : Nat} (hb : bucketIndex (s.entry p).space (s.entry p).va = b)
    (code : Code) : (∀ b' q, q ∈ (s.claim b p code).bucket b' ↔ ((s.claim b p code).entry q).linked = true ∧
    bucketIndex ((s.claim b p code).entry q).space ((s.claim b p code).entry q).va = b') ∧
    ∀ b', ((s.claim b p code).bucket b').Nodup := by
  have hbucket : (s.claim b p code).bucket = update s.bucket b ((s.bucket b).erase p) := rfl
  refine ⟨fun b' q => ?_, fun b' => ?_⟩
  · rw [hbucket]
    by_cases hq : q = p
    · rw [hq, claim_entry_self]
      have hno : p ∉ update s.bucket b ((s.bucket b).erase p) b' := by
        by_cases hb' : b' = b
        · rw [hb', update_self]
          exact (h.nodup b).not_mem_erase
        · rw [update_of_ne hb']
          intro hmem
          exact hb' (((h.mem_bucket b' p).mp hmem).2.symm.trans hb)
      exact ⟨fun hmem => absurd hmem hno, fun hk => (nomatch hk.1)⟩
    · rw [claim_entry_of_ne b code hq, ← h.mem_bucket b' q]
      by_cases hb' : b' = b
      · rw [hb', update_self, mem_erase_of_ne hq]
      · rw [update_of_ne hb']
  · rw [hbucket]
    by_cases hb' : b' = b
    · rw [hb', update_self]
      exact (h.nodup b).erase p
    · rw [update_of_ne hb']
      exact h.nodup b'

theorem claim_stands (b : Nat) (code : Code) {cookie : Nat} (h : s.Stands p (.pending cookie)) :
    (s.claim b p code).Stands p (.owed cookie code) :=
  ⟨h.1, by rw [claim_completions_self, h.2]; rfl⟩

/-- A strand rests unless it comes to its bucket or returns by itself. -/
theorem WaitInv.rests (h : WaitInv space s) (p : σ) : s.Rests p ∨ (s.entry p).linked = false ∧ s.NotHeld p := by
  have hs := h.strand p
  unfold WaitState.StrandOk at hs
  generalize s.pc p = pc at hs
  cases pc with
  | idle | resume => exact .inl hs
  | rest | recheck | loadDone | claim => exact .inl hs.2
  | _ => exact .inr ⟨hs.unlinked, hs.free⟩

theorem WaitInv.linked (h : WaitInv space s) (hl : (s.entry p).linked = true) :
    (s.entry p).done = false ∧ s.Stands p (.pending (s.entry p).cookie) ∧ s.NotHeld p := by
  rcases h.rests p with (hr | hr | hr) | hr
  · exact hr.2
  all_goals cases hl.symm.trans hr.1

theorem WaitInv.claimSelf (h : WaitInv space s) {c : ParkCall} (hl : (s.entry p).linked = true)
    (hcookie : (s.entry p).cookie = c.cookie) :
    WaitInv space
      ((s.claim (bucketIndex (s.entry p).space (s.entry p).va) p .valueMismatch).goto p (.resumeChanged c)) := by
  obtain ⟨-, hst, hfree⟩ := h.linked hl
  obtain ⟨hmem, hnodup⟩ := h.claim_bucket rfl .valueMismatch
  have hself : ((s.claim (bucketIndex (s.entry p).space (s.entry p).va) p .valueMismatch).goto p
      (.resumeChanged c)).pc p = .resumeChanged c := update_self ..
  have hun : ((s.claim (bucketIndex (s.entry p).space (s.entry p).va) p .valueMismatch).entry p).linked = false := by
    rw [claim_entry_self]
  refine h.ofStrand (p := p) ⟨fun q hq => ?_, ?_, hmem, hnodup, ?_, rfl, fun now b hle hok => ?_⟩ rfl fun _ _ => rfl
  · exact ⟨update_of_ne hq .., claim_entry_of_ne (bucketIndex (s.entry p).space (s.entry p).va) .valueMismatch hq,
      rfl, claim_completions_of_ne (bucketIndex (s.entry p).space (s.entry p).va) .valueMismatch hq, rfl,
      fun _ => Iff.rfl, fun _ _ _ ho => ho⟩
  · unfold WaitState.StrandOk
    rw [hself]
    refine ⟨?_, ?_, hfree⟩
    · have := claim_stands (bucketIndex (s.entry p).space (s.entry p).va) .valueMismatch hst
      rw [hcookie] at this
      exact this
    · exact hun
  · intro hidle
    cases hself.symm.trans hidle
  · refine .inr ⟨fun hl' => ?_, fun c' f hl' => (nomatch hself.symm.trans hl')⟩
    cases hun.symm.trans hl'

/-! ## Every access of `SysAddrPark` -/

theorem WaitInv.goto (h : WaitInv space s) {pc : ParkPc} (hp : (s.goto p pc).StrandOk space p)
    (hidle : pc = .idle → ¬s.Stands p .settled) (hlink : ∀ c fireAt, pc ≠ .link c fireAt) :
    WaitInv space (s.goto p pc) := by
  have hself : (s.goto p pc).pc p = pc := update_self ..
  refine h.ofPc p (fun q hq => update_of_ne hq ..) rfl rfl rfl (fun _ _ => rfl) (fun _ _ => rfl)
    (fun _ _ => rfl) hp (fun hi hst => ?_) (fun _ _ => rfl) rfl fun c f now hl => ?_
  · exact absurd hst (hidle (hself.symm.trans hi))
  · exact absurd (hself.symm.trans hl) (hlink c f)

theorem WaitInv.refuse (h : WaitInv space s) {c : ParkCall} (hs : s.Arriving p c) (code : Code) :
    WaitInv space ((s.complete p code).goto p (.reply c.cookie code)) := by
  have hself : ((s.complete p code).goto p (.reply c.cookie code)).pc p = .reply c.cookie code := update_self ..
  refine h.ofPc p (fun q hq => update_of_ne hq ..) rfl rfl rfl (fun _ _ => rfl)
    (fun q hq => update_of_ne hq ..) (fun _ _ => rfl) ?_ (fun hi => (nomatch hself.symm.trans hi))
    (fun _ _ => rfl) rfl fun c f now hl => (nomatch hself.symm.trans hl)
  unfold WaitState.StrandOk
  rw [hself]
  exact hs.completed code _

theorem strandOk_of_pc {pc : ParkPc} (h : t.pc p = pc) (ht : t.PcOk space p pc) : t.StrandOk space p := by
  unfold WaitState.StrandOk
  rw [h]
  exact ht

theorem goto_pc_self {pc : ParkPc} : (s.goto p pc).pc p = pc :=
  update_self ..

theorem WaitState.Rests.goto (h : s.Rests p) (pc : ParkPc) : (s.goto p pc).Rests p := h

theorem WaitState.Arriving.goto (h : s.Arriving p c) (pc : ParkPc) : (s.goto p pc).Arriving p c :=
  h.frame rfl rfl rfl rfl rfl

theorem WaitState.Entered.goto (h : s.Entered space p c) (pc : ParkPc) : (s.goto p pc).Entered space p c :=
  ⟨h.space, h.va, h.expected, h.cookie, h.claimed⟩

theorem WaitInv.gotoWaiting (h : WaitInv space s) {pc : ParkPc} {waiting : Bool}
    (hp : ((s.setWaiting p waiting).goto p pc).StrandOk space p) (hidle : pc = .idle → waiting = false)
    (hlink : ∀ c fireAt, pc ≠ .link c fireAt) : WaitInv space ((s.setWaiting p waiting).goto p pc) := by
  refine h.ofPc p (fun q hq => update_of_ne hq ..) rfl rfl rfl (fun _ _ => rfl) (fun _ _ => rfl)
    (fun _ _ => rfl) hp (fun hi _ hw => ?_) (fun q hq => update_of_ne hq ..) rfl fun c f now hl => ?_
  · have hself : ((s.setWaiting p waiting).goto p pc).waiting p = waiting := update_self ..
    cases (hidle (goto_pc_self.symm.trans hi)).symm.trans (hself.symm.trans hw)
  · exact absurd (goto_pc_self.symm.trans hl) (hlink c f)

theorem WaitInv.parkStep (h : WaitInv space s) (translate : Nat → Nat → Nat) (p : σ) {found : Bool}
    (hroom : ∀ cookie code, s.pc p = .reply cookie code → found = true) :
    WaitInv space (s.parkStep translate space p found) := by
  have hs := h.strand p
  unfold WaitState.StrandOk at hs
  unfold WaitState.parkStep
  generalize hpc : s.pc p = pc at hs
  cases pc with
  | idle => exact h
  | load c =>
    dsimp only
    split
    · exact h.refuse hs _
    · split
      · exact h.refuse hs _
      · exact h.goto (strandOk_of_pc goto_pc_self (hs.goto _)) (nofun) (fun _ _ => nofun)
  | unlink c =>
    dsimp only
    rw [hs.unlinked, if_neg Bool.false_ne_true]
    exact h.goto (strandOk_of_pc goto_pc_self (hs.goto _)) (nofun) (fun _ _ => nofun)
  | prepare c =>
    dsimp only
    split
    · -- the deadline is later than every look at the clock so far
      refine h.ofPc p (fun q hq => update_of_ne hq ..) rfl rfl rfl (fun _ _ => rfl) (fun _ _ => rfl)
        (fun _ _ => rfl) (strandOk_of_pc goto_pc_self (hs.goto _)) (fun hi => (nomatch goto_pc_self.symm.trans hi))
        (fun _ _ => rfl) rfl fun c' f now hl hms hle => ?_
      obtain ⟨rfl, rfl⟩ := ParkPc.link.inj (goto_pc_self.symm.trans hl)
      have hdelay : 0 < c.delay := by
        unfold ParkCall.delay
        dsimp only
        split <;> omega
      rw [if_pos hms]
      omega
    · exact h.refuse hs _
  | link c f => exact h.link hpc
  | rest c =>
    refine h.gotoWaiting (strandOk_of_pc goto_pc_self ⟨?_, hs.2⟩) (nofun) (fun _ _ => nofun)
    exact ⟨hs.1.space, hs.1.va, hs.1.expected, hs.1.cookie, hs.1.claimed⟩
  | recheck c =>
    exact h.goto (strandOk_of_pc goto_pc_self ⟨hs.1.goto _, hs.2.goto _⟩) (nofun) (fun _ _ => nofun)
  | loadDone c changed =>
    dsimp only
    split
    · exact h.goto (strandOk_of_pc goto_pc_self (hs.2.goto _)) (nofun) (fun _ _ => nofun)
    rename_i hdone
    split
    · exact h.goto (strandOk_of_pc goto_pc_self ⟨hs.1.goto _, hs.2.goto _⟩) (nofun)
        (fun _ _ => nofun)
    -- the entry is still in its bucket, so the park is open
    refine h.goto (strandOk_of_pc goto_pc_self (hs.2.goto _)) (fun _ hst => ?_) (fun _ _ => nofun)
    have hl : (s.entry p).linked = true := by
      by_contra hl
      exact hdone (hs.1.claimed (by simpa using hl))
    have h₁ := (stands_length (h.linked hl).2.1).1
    have h₂ := (stands_length hst).1
    simp only at h₁ h₂
    omega
  | claim c =>
    dsimp only
    split
    · rename_i hl
      exact h.claimSelf hl.1 hs.1.cookie
    · exact h.goto (strandOk_of_pc goto_pc_self (hs.2.goto _)) (nofun) (fun _ _ => nofun)
  | resume =>
    exact h.gotoWaiting (strandOk_of_pc goto_pc_self hs) (fun _ => rfl) (fun _ _ => nofun)
  | resumeChanged c =>
    exact h.gotoWaiting (strandOk_of_pc goto_pc_self ⟨hs.stands, hs.unlinked, hs.free⟩) (fun _ => rfl)
      (fun _ _ => nofun)
  | reply cookie code =>
    dsimp only
    rw [if_pos (hroom cookie code hpc)]
    refine h.ofPc p (fun q hq => update_of_ne hq ..) rfl rfl rfl (fun _ _ => rfl) (fun _ _ => rfl)
      (fun q hq => update_of_ne hq ..) (strandOk_of_pc goto_pc_self (.inr (.inr ⟨hs.unlinked, ?_, hs.free⟩)))
      (fun hi => (nomatch goto_pc_self.symm.trans hi)) (fun _ _ => rfl) rfl
      (fun c' f now hl => (nomatch goto_pc_self.symm.trans hl))
    have hanswers : ((s.answerTo p cookie code).goto p .resume).answers p = s.answers p ++ [(cookie, code)] :=
      update_self ..
    refine ⟨?_, ?_⟩
    · rw [hanswers, map_append]
      exact hs.stands.1
    · rw [hanswers, map_append]
      exact hs.stands.2

end

end BoxOS.Sync
