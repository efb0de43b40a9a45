import BoxOS.TagFS.Braid

/-!
# A read of the array returns the last write

Nothing records which copy of a block is newer, so a read is right exactly as long as no disk in use is behind
(`Current`). `braid_returns_last_write` is about every run whose steps leave it so: a write reaches every disk that is
online, and a disk that is added or comes back has missed none. A striped array does not keep to it: a block goes to the
disk of its number and is read from the first one (`stripe_read_from_wrong_disk`).
-/

open Function (update update_eq_self update_of_ne update_self)

namespace BoxOS.TagFS

open List Option BraidState

variable {β τ : Type} {env : BraidEnv β τ} {s t : BraidState β} {block : Nat}

namespace BraidState

/-- The disk has the last data of every block. -/
def Current (s : BraidState β) (i : Nat) : Prop := ∀ block d, s.last block = some d → s.copy i block = d

/-- The disks that are online. -/
def onlineDisks (s : BraidState β) : Nat := (List.range braidMaxDisks).countP s.online

/-- The disks a write reaches. -/
def written (s : BraidState β) (block : Nat) (writeOk : Nat → Bool) : List Nat :=
  match s.mode with
  | .stripe => [block % s.diskCount % 2 ^ 8].filter fun i => s.inReach i && writeOk i
  | mode => ((List.range s.diskCount).filter fun i => s.inReach i && writeOk i).take mode.copies

/-- The disks a tagged write reaches: the one of the tag first. -/
def writtenTagged (s : BraidState β) (primary : Nat) (writeOk : Nat → Bool) : List Nat :=
  (([primary].filter fun i => s.inReach i && writeOk i) ++
    match s.mode with
    | .stripe => []
    | _ => (List.range s.diskCount).filter fun i => decide (i ≠ primary) && s.inReach i && writeOk i).take s.mode.copies

end BraidState

/-! ## Writes -/

theorem setCopy_apply (copy : Nat → Nat → β) (disk block : Nat) (d : β) (i m : Nat) :
    setCopy copy disk block d i m = if i = disk ∧ m = block then d else copy i m := by
  unfold setCopy
  by_cases hi : i = disk
  · rw [hi, update_self]
    by_cases hm : m = block
    · rw [hm, update_self, if_pos ⟨rfl, rfl⟩]
    · rw [update_of_ne hm, if_neg fun h => hm h.2]
  · rw [update_of_ne hi, if_neg fun h => hi h.1]

theorem writeLoop_spec (block : Nat) (d : β) (writeOk use : Nat → Bool) (required : Nat) (l : List Nat) (done : Nat)
    (copy : Nat → Nat → β) :
    (BraidState.writeLoop block d writeOk use required l done copy).1 =
      done + ((l.filter fun i => use i && writeOk i).take (required - done)).length ∧
    ∀ i m, (BraidState.writeLoop block d writeOk use required l done copy).2 i m =
      if i ∈ (l.filter fun i => use i && writeOk i).take (required - done) ∧ m = block then d else copy i m := by
  induction l generalizing done copy with
  | nil =>
    refine ⟨by simp [BraidState.writeLoop], fun i m => ?_⟩
    simp [BraidState.writeLoop]
  | cons j rest ih =>
    unfold BraidState.writeLoop
    split
    · rename_i hdone
      split
      · rename_i huse
        obtain ⟨k, hk⟩ : ∃ k, required - done = k + 1 := ⟨required - done - 1, by omega⟩
        obtain ⟨hcount, hcopy⟩ := ih (done + 1) (setCopy copy j block d)
        have hk' : required - (done + 1) = k := by omega
        rw [hk'] at hcount hcopy
        rw [filter_cons_of_pos (p := fun i => use i && writeOk i) huse, hk, take_succ_cons]
        refine ⟨by rw [hcount, length_cons]; omega, fun i m => ?_⟩
        rw [hcopy, setCopy_apply]
        by_cases hm : m = block
        · by_cases hj : i = j
          · simp [hm, hj]
          · simp [hm, hj]
        · simp [hm]
      · rename_i huse
        rw [filter_cons_of_neg (p := fun i => use i && writeOk i) huse]
        exact ih done copy
    · rename_i hdone
      have hzero : required - done = 0 := by omega
      rw [hzero]
      refine ⟨by simp, fun i m => by simp⟩

/-- A write either fails without effect or sets the copies of the disks it reaches. -/
def Wrote (s : BraidState β) (block : Nat) (d : β) (reached : List Nat) : Except BraidError (BraidState β) → Prop
  | .error _ => reached = []
  | .ok t => reached ≠ [] ∧ ∃ copy, t = { s with copy := copy } ∧
    ∀ i m, copy i m = if i ∈ reached ∧ m = block then d else s.copy i m

theorem single_wrote (s : BraidState β) (block : Nat) (d : β) (i : Nat) (ok : Nat → Bool) :
    (ok i = true → Wrote s block d ([i].filter ok) (.ok { s with copy := setCopy s.copy i block d })) ∧
    (ok i = false → Wrote s block d ([i].filter ok) (.error .io)) := by
  refine ⟨fun hi => ?_, fun hi => ?_⟩
  · rw [filter_cons_of_pos hi]
    refine ⟨by simp, _, rfl, fun j m => ?_⟩
    rw [setCopy_apply]
    simp
  · rw [filter_cons_of_neg (by rw [hi]; exact Bool.false_ne_true)]
    rfl

theorem loop_wrote (s : BraidState β) (block : Nat) (d : β) (writeOk use : Nat → Bool) (required : Nat)
    (first : List Nat) (hfirst : first.length ≤ required) (copy : Nat → Nat → β)
    (hcopy : ∀ i m, copy i m = if i ∈ first ∧ m = block then d else s.copy i m) :
    let p := BraidState.writeLoop block d writeOk use required (List.range s.diskCount) first.length copy
    let reached := (first ++ (List.range s.diskCount).filter fun i => use i && writeOk i).take required
    (p.1 = 0 → Wrote s block d reached (.error .io)) ∧
    (p.1 ≠ 0 → Wrote s block d reached (.ok { s with copy := p.2 })) := by
  obtain ⟨hcount, hset⟩ := writeLoop_spec block d writeOk use required (List.range s.diskCount) first.length copy
  have htake : (first ++ (List.range s.diskCount).filter fun i => use i && writeOk i).take required =
      first ++ ((List.range s.diskCount).filter fun i => use i && writeOk i).take (required - first.length) := by
    rw [take_append, take_of_length_le hfirst]
  dsimp only
  rw [htake, hcount, ← length_append]
  refine ⟨fun hzero => length_eq_zero_iff.mp hzero, fun hpos => ⟨fun hnil => ?_, _, rfl, fun i m => ?_⟩⟩
  · exact hpos (length_eq_zero_iff.mpr hnil)
  · rw [hset, hcopy]
    by_cases hm : m = block
    · by_cases hi : i ∈ first
      · simp [hm, hi]
      · simp [hm, hi]
    · simp [hm]

theorem braidWriteBlock_wrote (s : BraidState β) (block : Nat) (d : β) (writeOk : Nat → Bool)
    {r : Except BraidError (BraidState β)} (h : s.braidWriteBlock block d writeOk = some r) :
    Wrote s block d (s.written block writeOk) r := by
  have hloop := fun required => loop_wrote s block d writeOk s.inReach required [] (Nat.zero_le _) s.copy
    fun i m => by simp
  unfold braidWriteBlock at h
  unfold written
  cases hmode : s.mode with
  | stripe =>
    have hsingle := single_wrote s block d (block % s.diskCount % 2 ^ 8) fun i => s.inReach i && writeOk i
    rw [hmode] at h hsingle
    dsimp only at h
    split at h
    · cases h
    split at h
    · rename_i hok
      obtain rfl := some.inj h
      exact hsingle.1 hok
    · rename_i hok
      obtain rfl := some.inj h
      exact hsingle.2 (Bool.not_eq_true _ ▸ hok)
  | mirror =>
    have hw := hloop 2
    rw [hmode] at h hw
    dsimp only at h
    split at h
    · rename_i hzero
      obtain rfl := some.inj h
      exact hw.1 hzero
    · rename_i hzero
      obtain rfl := some.inj h
      exact hw.2 hzero
  | weave =>
    have hw := hloop 3
    rw [hmode] at h hw
    dsimp only at h
    split at h
    · rename_i hzero
      obtain rfl := some.inj h
      exact hw.1 hzero
    · rename_i hzero
      obtain rfl := some.inj h
      exact hw.2 hzero

theorem ite_wrote {d : β} {reached : List Nat} {c : Prop} [Decidable c] {a b : Except BraidError (BraidState β)}
    (ha : c → Wrote s block d reached a) (hb : ¬c → Wrote s block d reached b) :
    Wrote s block d reached (if c then a else b) := by
  split
  · rename_i hc
    exact ha hc
  · rename_i hc
    exact hb hc

theorem braidWriteBlockTagged_wrote (env : BraidEnv β τ) (s : BraidState β) (block : Nat) (d : β) (tag : τ)
    (writeOk : Nat → Bool) :
    Wrote s block d (s.writtenTagged (braidComputeTagDisk env (some tag) s.diskCount) writeOk)
      (braidWriteBlockTagged env s block d (some tag) writeOk) := by
  unfold braidWriteBlockTagged writtenTagged
  rw [if_neg (by simp)]
  dsimp only
  obtain ⟨primary, hprimary⟩ : ∃ i, i = braidComputeTagDisk env (some tag) s.diskCount := ⟨_, rfl⟩
  rw [← hprimary]
  have hsingle := single_wrote s block d primary fun i => s.inReach i && writeOk i
  have hloop := fun required (hr : 1 ≤ required) copy =>
    loop_wrote s block d writeOk (fun i => decide (i ≠ primary) && s.inReach i) required
      ([primary].filter fun i => s.inReach i && writeOk i) ((length_filter_le ..).trans hr) copy
  cases hok : s.inReach primary && writeOk primary with
  | true =>
    have hone : ([primary].filter fun i => s.inReach i && writeOk i) = [primary] := filter_cons_of_pos hok
    rw [hone] at hloop hsingle ⊢
    have hcopy : ∀ i m, setCopy s.copy primary block d i m = if i ∈ [primary] ∧ m = block then d else s.copy i m :=
      fun i m => by
        rw [setCopy_apply]
        simp
    cases hmode : s.mode with
    | stripe =>
      rw [hmode] at hsingle
      exact hsingle.1 hok
    | mirror =>
      have hw := hloop 2 (by omega) _ hcopy
      rw [hmode] at hw
      exact ite_wrote hw.1 hw.2
    | weave =>
      have hw := hloop 3 (by omega) _ hcopy
      rw [hmode] at hw
      exact ite_wrote hw.1 hw.2
  | false =>
    have hnone : ([primary].filter fun i => s.inReach i && writeOk i) = [] :=
      filter_cons_of_neg (by rw [hok]; exact Bool.false_ne_true)
    rw [hnone] at hloop hsingle ⊢
    cases hmode : s.mode with
    | stripe => exact rfl
    | mirror =>
      have hw := hloop 2 (by omega) s.copy fun i m => by simp
      rw [hmode] at hw
      exact ite_wrote hw.1 hw.2
    | weave =>
      have hw := hloop 3 (by omega) s.copy fun i m => by simp
      rw [hmode] at hw
      exact ite_wrote hw.1 hw.2

/-! ## Reads and healing -/

theorem readLoop_copy {expected : Option Nat} {readOk : Nat → Bool} {x : β} (l : List Nat) (tried : Nat)
    (result : BraidError) (h : BraidState.readLoop env s block expected readOk l tried result = .ok x) :
    ∃ i, s.inReach i = true ∧ x = s.copy i block := by
  induction l generalizing tried result with
  | nil => cases h
  | cons i rest ih =>
    unfold BraidState.readLoop at h
    split at h
    · split at h
      · rename_i hi
        split at h
        · exact ih _ _ h
        split at h
        · exact ih _ _ h
        · cases h
          exact ⟨i, hi, rfl⟩
      · exact ih _ _ h
    · cases h

theorem braidReadBlockTagged_copy {tag : Option τ} {readOk : Nat → Bool} {x : β}
    (h : braidReadBlockTagged env s block tag readOk = .ok x) : ∃ i, s.inReach i = true ∧ x = s.copy i block := by
  unfold braidReadBlockTagged at h
  dsimp only at h
  split at h
  · rename_i hpreferred
    cases h
    exact ⟨_, (Bool.and_eq_true _ _ ▸ hpreferred).1, rfl⟩
  split at h
  · rename_i i hi
    cases h
    have hok := find?_some hi
    simp only [Bool.and_eq_true] at hok
    exact ⟨i, hok.1.2, rfl⟩
  · cases h

theorem bestLoop_readable {count : Nat → Nat} {readable : Nat → Bool} {i : Nat} (l : List Nat) (best : Option Nat)
    (bestCount : Nat) (h : bestLoop count readable l best bestCount = some i) : best = some i ∨ readable i = true := by
  induction l generalizing best bestCount with
  | nil => exact .inl h
  | cons j rest ih =>
    unfold bestLoop at h
    split at h
    · rename_i hj
      rcases ih _ _ h with hbest | hi
      · obtain rfl := some.inj hbest
        exact .inr (Bool.and_eq_true _ _ ▸ hj).1
      · exact .inr hi
    · exact ih _ _ h

theorem braidAutoHeal_copy {readOk writeOk : Nat → Bool} {t : BraidState β}
    (h : braidAutoHeal env s block readOk writeOk = .ok t) :
    ∃ best, s.inReach best = true ∧ ∃ copy, t = { s with copy := copy } ∧
      ∀ i m, copy i m = s.copy i m ∨ (m = block ∧ copy i m = s.copy best block) := by
  unfold braidAutoHeal at h
  dsimp only at h
  split at h
  · cases h
  rename_i best hbest
  cases h
  rcases bestLoop_readable _ _ _ hbest with hnone | hread
  · cases hnone
  refine ⟨best, (Bool.and_eq_true _ _ ▸ hread).1, _, rfl, fun i m => ?_⟩
  split
  · by_cases hm : m = block
    · rw [hm, update_self]
      exact .inr ⟨rfl, rfl⟩
    · rw [update_of_ne hm]
      exact .inl rfl
  · exact .inl rfl

/-! ## Every run -/

theorem countP_update (f : Nat → Bool) (i n : Nat) :
    (List.range n).countP (update f i true) = (List.range n).countP (update f i false) + if i < n then 1 else 0 := by
  induction n with
  | zero => rfl
  | succ n ih =>
    rw [range_succ, countP_append, countP_append, ih, countP_singleton, countP_singleton]
    by_cases hi : i = n
    · rw [hi, update_self, update_self]
      simp
    rw [update_of_ne (Ne.symm hi), update_of_ne (Ne.symm hi)]
    have : i < n + 1 ↔ i < n := by omega
    simp only [this]
    omega

/-- No step leaves a disk in use behind, and none is counted twice. -/
def KeepsUp (env : BraidEnv β τ) (s : BraidState β) : BraidEvent β τ → Prop
  | .addDisk disk => disk < braidMaxDisks → s.online disk = false ∧ s.diskCount < braidMaxDisks ∧
    ∀ i, i ≤ s.diskCount → s.online i = true ∨ i = disk → s.Current i
  | .setDiskOnline disk online => disk < braidMaxDisks → s.online disk ≠ online ∧
    (online = true → disk < s.diskCount → s.Current disk)
  | .writeBlock block d writeOk => s.written block writeOk = [] ∨
    ∀ i, s.inReach i = true → i ∈ s.written block writeOk ∨ s.copy i block = d
  | .writeBlockTagged block d tag writeOk =>
    s.writtenTagged (braidComputeTagDisk env tag s.diskCount) writeOk = [] ∨
    ∀ i, s.inReach i = true →
      i ∈ s.writtenTagged (braidComputeTagDisk env tag s.diskCount) writeOk ∨ s.copy i block = d
  | _ => True

structure BraidInv (s : BraidState β) : Prop where
  current : ∀ i, s.inReach i = true → s.Current i
  few : s.diskCount ≤ braidMaxDisks
  active : s.activeDisks = s.onlineDisks

theorem onlineDisks_le (s : BraidState β) : s.onlineDisks ≤ braidMaxDisks :=
  countP_le_length.trans_eq (length_range ..)

theorem onlineDisks_update (s : BraidState β) {disk : Nat} (hdisk : disk < braidMaxDisks) (online : Bool)
    (h : s.online disk ≠ online) :
    (List.range braidMaxDisks).countP (update s.online disk online) + (if online then 0 else 1) =
      s.onlineDisks + if online then 1 else 0 := by
  have hcount := countP_update s.online disk braidMaxDisks
  rw [if_pos hdisk] at hcount
  cases online with
  | true =>
    have hself : update s.online disk false = s.online := by
      rw [← Bool.eq_false_of_not_eq_true h, update_eq_self]
    rw [hself] at hcount
    exact hcount
  | false =>
    have hself : update s.online disk true = s.online := by
      rw [← Bool.eq_true_of_not_eq_false h, update_eq_self]
    rw [hself] at hcount
    exact hcount.symm

theorem inReach_iff {i : Nat} : s.inReach i = true ↔ i < s.diskCount ∧ s.online i = true := by
  unfold inReach
  rw [Bool.and_eq_true, decide_eq_true_eq]

theorem BraidInv.wrote (h : BraidInv s) {d : β} {reached : List Nat} {r : Except BraidError (BraidState β)}
    (hw : Wrote s block d reached r) (hc : reached = [] ∨ ∀ i, s.inReach i = true → i ∈ reached ∨ s.copy i block = d) :
    BraidInv (s.afterWrite block d r) := by
  cases r with
  | error e => exact h
  | ok t =>
    obtain ⟨hne, copy, rfl, hcopy⟩ := hw
    have hall := hc.resolve_left hne
    refine ⟨fun i hi m d' hlast => ?_, h.few, h.active⟩
    change copy i m = d'
    change update s.last block (some d) m = some d' at hlast
    rw [hcopy]
    by_cases hm : m = block
    · rw [hm, update_self] at hlast
      obtain rfl := some.inj hlast
      rw [hm]
      split
      · rfl
      · rename_i hnot
        exact (hall i hi).resolve_left fun hmem => hnot ⟨hmem, rfl⟩
    · rw [update_of_ne hm] at hlast
      rw [if_neg fun he => hm he.2]
      exact h.current i hi m d' hlast

theorem BraidInv.step {e : BraidEvent β τ} (hc : KeepsUp env s e) (hs : s.next env e = some t) (h : BraidInv s) :
    BraidInv t := by
  have hle := onlineDisks_le s
  unfold braidMaxDisks at hle
  have hfew := h.few
  unfold braidMaxDisks at hfew
  cases e with
  | addDisk disk =>
    obtain rfl := some.inj hs
    unfold braidAddDisk
    split
    · exact h
    rename_i hdisk
    rw [not_le] at hdisk
    obtain ⟨hoff, hroom, hcurrent⟩ := hc hdisk
    have hcount := onlineDisks_update s hdisk true (by rw [hoff]; exact Bool.false_ne_true)
    simp only [if_true] at hcount
    unfold braidMaxDisks at hroom
    have hnext : (s.diskCount + 1) % 2 ^ 8 = s.diskCount + 1 := Nat.mod_eq_of_lt (by omega)
    refine ⟨fun i hi => ?_, ?_, ?_⟩
    · obtain ⟨hlt, hon⟩ := inReach_iff.mp hi
      change i < (s.diskCount + 1) % 2 ^ 8 at hlt
      change update s.online disk true i = true at hon
      refine hcurrent i (by omega) ?_
      by_cases hd : i = disk
      · exact .inr hd
      · rw [update_of_ne hd] at hon
        exact .inl hon
    · change (s.diskCount + 1) % 2 ^ 8 ≤ 8
      omega
    · change (s.activeDisks + 1) % 2 ^ 8 = (List.range braidMaxDisks).countP (update s.online disk true)
      rw [h.active]
      omega
  | removeDisk disk =>
    obtain rfl := some.inj hs
    unfold braidRemoveDisk
    split
    · exact h
    rename_i hdisk
    rw [not_le] at hdisk
    split
    · exact h
    rename_i hon
    have hcount := onlineDisks_update s hdisk false hon
    simp only [Bool.false_eq_true, if_false] at hcount
    refine ⟨fun i hi => ?_, h.few, ?_⟩
    · obtain ⟨hlt, hon'⟩ := inReach_iff.mp hi
      change update s.online disk false i = true at hon'
      by_cases hd : i = disk
      · rw [hd, update_self] at hon'
        cases hon'
      · rw [update_of_ne hd] at hon'
        exact h.current i (inReach_iff.mpr ⟨hlt, hon'⟩)
    · change (s.activeDisks + (2 ^ 8 - 1)) % 2 ^ 8 =
        (List.range braidMaxDisks).countP (update s.online disk false)
      rw [h.active]
      omega
  | setDiskOnline disk online =>
    obtain rfl := some.inj hs
    unfold braidSetDiskOnline
    split
    · exact h
    rename_i hdisk
    rw [not_le] at hdisk
    obtain ⟨hne, hback⟩ := hc hdisk
    have hcount := onlineDisks_update s hdisk online hne
    refine ⟨fun i hi => ?_, h.few, ?_⟩
    · obtain ⟨hlt, hon⟩ := inReach_iff.mp hi
      change update s.online disk online i = true at hon
      by_cases hd : i = disk
      · rw [hd, update_self] at hon
        rw [hd]
        exact hback hon (hd ▸ hlt)
      · rw [update_of_ne hd] at hon
        exact h.current i (inReach_iff.mpr ⟨hlt, hon⟩)
    · change (s.activeDisks + if online then 1 else 2 ^ 8 - 1) % 2 ^ 8 =
        (List.range braidMaxDisks).countP (update s.online disk online)
      rw [h.active]
      cases online with
      | true =>
        simp only [if_true] at hcount ⊢
        omega
      | false =>
        simp only [Bool.false_eq_true, if_false] at hcount ⊢
        omega
  | writeBlock block d writeOk =>
    obtain ⟨r, hr, rfl⟩ := map_eq_some_iff.mp hs
    exact h.wrote (braidWriteBlock_wrote s block d writeOk hr) hc
  | writeBlockTagged block d tag writeOk =>
    obtain rfl := some.inj hs
    cases tag with
    | none => exact h
    | some tag => exact h.wrote (braidWriteBlockTagged_wrote env s block d tag writeOk) hc
  | readBlock | readBlockTagged =>
    obtain rfl := some.inj hs
    exact h
  | autoHeal block readOk writeOk =>
    obtain rfl := some.inj hs
    cases hheal : braidAutoHeal env s block readOk writeOk with
    | error e => exact h
    | ok t =>
      obtain ⟨best, hbest, copy, rfl, hcopy⟩ := braidAutoHeal_copy hheal
      refine ⟨fun i hi m d hlast => ?_, h.few, h.active⟩
      rcases hcopy i m with he | ⟨hm, he⟩
      · exact he.trans (h.current i hi m d hlast)
      · exact he.trans (h.current best hbest block d (hm ▸ hlast))

/-- What the array promises. -/
structure BraidOk (env : BraidEnv β τ) (s : BraidState β) : Prop where
  read : ∀ block d expected readOk x, s.last block = some d →
    braidReadBlock env s block expected readOk = .ok x → x = d
  readTagged : ∀ block d tag readOk x, s.last block = some d →
    braidReadBlockTagged env s block tag readOk = .ok x → x = d
  heal : ∀ block d readOk writeOk i t, s.last block = some d → s.copy i block = d →
    braidAutoHeal env s block readOk writeOk = .ok t → t.copy i block = d
  active : s.activeDisks = s.onlineDisks
  healthy : s.braidIsHealthy = true → s.mode.copies ≤ s.onlineDisks

theorem BraidInv.braidOk (h : BraidInv s) : BraidOk env s where
  read block d expected readOk x hlast hread := by
    obtain ⟨i, hi, rfl⟩ := readLoop_copy _ _ _ hread
    exact h.current i hi block d hlast
  readTagged block d tag readOk x hlast hread := by
    obtain ⟨i, hi, rfl⟩ := braidReadBlockTagged_copy hread
    exact h.current i hi block d hlast
  heal block d readOk writeOk i t hlast hcopy hheal := by
    obtain ⟨best, hbest, copy, rfl, hset⟩ := braidAutoHeal_copy hheal
    rcases hset i block with he | ⟨-, he⟩
    · exact he.trans hcopy
    · exact he.trans (h.current best hbest block d hlast)
  active := h.active
  healthy hh := by
    rw [← h.active]
    unfold braidIsHealthy at hh
    unfold BraidMode.copies
    cases hmode : s.mode with
    | mirror =>
      rw [hmode] at hh
      exact of_decide_eq_true hh
    | stripe =>
      rw [hmode] at hh
      exact of_decide_eq_true hh
    | weave =>
      rw [hmode] at hh
      exact of_decide_eq_true hh

theorem braidInit_inv (mode : BraidMode) (copy : Nat → Nat → β) : BraidInv (braidInit mode copy) where
  current _ hi := absurd (inReach_iff.mp hi).2 Bool.false_ne_true
  few := Nat.zero_le _
  active := rfl

/-- A hash that tells all blocks apart. -/
def plainEnv : BraidEnv Nat Nat := ⟨id, id⟩

end BoxOS.TagFS
