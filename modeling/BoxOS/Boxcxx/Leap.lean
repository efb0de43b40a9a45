import Mathlib

/-!
# Leap seconds

`LeapElapsedAtSys` counts the insertions at or before an instant, and `LeapAtUtc` those at or before a UTC reading. They
undo each other, and the readings between are the inserted seconds, as long as `LeapAt` finds its entries:
`unsigned(i) * 16` comes back to the first entry at 2^28, and `Validate` accepts longer tables
(`leap_conversions_inverse_iff`).
-/

namespace BoxOS.Boxcxx

/-- The leap seconds of a table: `n_leaps`, `off_leaps`, and `when` and `value` of the entries of 16 bytes each from
there on. -/
structure LeapTable where
  nLeaps : UInt32
  offLeaps : UInt32
  entry : Nat → Int × Int

namespace LeapTable

/-- `kForever` -/
def forever : Int := 2 ^ 62

/-- `static_cast<int>(t.head.n_leaps)`; a negative count is no round of a loop. -/
def leapCount (tab : LeapTable) : Nat := if tab.nLeaps.toNat < 2 ^ 31 then tab.nLeaps.toNat else 0

def leapAt (tab : LeapTable) (i : Nat) : Int × Int := tab.entry (i * 16 % 2 ^ 32 / 16)

/-- The rounds from the `i`-th on. -/
def elapsedLoop (tab : LeapTable) (t : Int) : Nat → Nat → Int → Int
  | 0, _, elapsed => elapsed
  | rounds + 1, i, elapsed =>
    if (tab.leapAt i).1 > t then elapsed else elapsedLoop tab t rounds (i + 1) (elapsed + (tab.leapAt i).2)

def leapElapsedAtSys (tab : LeapTable) (t : Int) : Int := elapsedLoop tab t tab.leapCount 0 0

/-- The rounds from the `i`-th on; `is_leap` and `elapsed`. -/
def utcLoop (tab : LeapTable) (u : Int) : Nat → Nat → Int → Bool × Int
  | 0, _, elapsed => (false, elapsed)
  | rounds + 1, i, elapsed =>
    let (leapWhen, value) := tab.leapAt i
    let starts := leapWhen + elapsed
    if u ≥ starts + value then utcLoop tab u rounds (i + 1) (elapsed + value)
    else if value > 0 ∧ u ≥ starts then (true, elapsed + value)
    else (false, elapsed)

def leapAtUtc (tab : LeapTable) (u : Int) : Bool × Int := utcLoop tab u tab.leapCount 0 0

/-- What `Validate` asks of the leap seconds of a blob of `size` bytes. -/
structure Accepted (tab : LeapTable) (size : Nat) : Prop where
  fits : tab.offLeaps.toNat + tab.nLeaps.toNat * 16 ≤ size
  bounded : ∀ i < tab.nLeaps.toNat, -forever ≤ (tab.entry i).1 ∧ (tab.entry i).1 ≤ forever
  sorted : ∀ i < tab.nLeaps.toNat, 0 < i → (tab.entry (i - 1)).1 < (tab.entry i).1
  unit : ∀ i < tab.nLeaps.toNat, (tab.entry i).2 = 1 ∨ (tab.entry i).2 = -1

/-- The instant after the insertions at or before it. -/
def toUtc (tab : LeapTable) (t : Int) : Int := t + tab.leapElapsedAtSys t

/-- To UTC and back is the identity, and the readings between are the inserted seconds, one of each insertion. -/
structure Inverse (tab : LeapTable) : Prop where
  back : ∀ t, tab.leapAtUtc (tab.toUtc t) = (false, tab.leapElapsedAtSys t)
  mono : StrictMono tab.toUtc
  missed : ∀ u, u ∉ Set.range tab.toUtc ↔ (tab.leapAtUtc u).1 = true
  inserted : ∀ u, (tab.leapAtUtc u).1 = true ↔ ∃ k < tab.nLeaps.toNat, (tab.entry k).1 + k = u
  one : ∀ j < tab.nLeaps.toNat, ∀ k < tab.nLeaps.toNat, (tab.entry j).1 + j = (tab.entry k).1 + k → j = k

variable {tab : LeapTable} {size : Nat} {t u : Int} {rounds i : Nat}

/-- The instant of the insertion that the `i`-th round looks at. -/
def seen (tab : LeapTable) (i : Nat) : Int := (tab.leapAt i).1

/-- The loop stops at the first insertion that is still to come. -/
theorem elapsedLoop_spec (hone : ∀ k, i ≤ k → k < i + rounds → (tab.leapAt k).2 = 1) : ∃ m : Nat, m ≤ i + rounds ∧
    tab.elapsedLoop t rounds i i = m ∧ (∀ k, i ≤ k → k < m → tab.seen k ≤ t) ∧ (m < i + rounds → t < tab.seen m) := by
  induction rounds generalizing i with
  | zero => exact ⟨i, le_rfl, rfl, fun k hk hki => absurd hki (not_lt_of_ge hk), fun h => absurd h (lt_irrefl i)⟩
  | succ rounds ih =>
    unfold elapsedLoop
    split
    · rename_i hlater
      exact ⟨i, Nat.le_add_right .., rfl, fun k hk hki => absurd hki (not_lt_of_ge hk), fun _ => hlater⟩
    · rename_i hpast
      obtain ⟨m, hm, heq, hbefore, hnext⟩ := @ih (i + 1) fun k hk hlt => hone k (by omega) (by omega)
      rw [hone i le_rfl (by omega)]
      refine ⟨m, by omega, heq, fun k hk hlt => ?_, fun h => hnext (by omega)⟩
      rcases hk.eq_or_lt with rfl | hk
      · exact not_lt.mp hpast
      · exact hbefore k hk hlt

theorem utcLoop_succ (hone : (tab.leapAt i).2 = 1) :
    tab.utcLoop u (rounds + 1) i i =
      if u ≥ tab.seen i + i + 1 then tab.utcLoop u rounds (i + 1) (i + 1 : Nat)
      else if u ≥ tab.seen i + i then (true, i + 1) else (false, (i : Int)) := by
  rw [utcLoop]
  simp only [hone, seen, Int.one_pos, true_and]
  rfl

/-- The loop stops at the first insertion that is still to come, or inside it. -/
theorem utcLoop_spec (hone : ∀ k, i ≤ k → k < i + rounds → (tab.leapAt k).2 = 1) : ∃ m : Nat, m ≤ i + rounds ∧
    (∀ k, i ≤ k → k < m → tab.seen k + k + 1 ≤ u) ∧
    (tab.utcLoop u rounds i i = (false, (m : Int)) ∧ (m < i + rounds → u < tab.seen m + m) ∨
      (tab.utcLoop u rounds i i).1 = true ∧ m < i + rounds ∧ tab.seen m + m = u) := by
  induction rounds generalizing i with
  | zero =>
    exact ⟨i, le_rfl, fun k hk hki => absurd hki (not_lt_of_ge hk), .inl ⟨rfl, fun h => absurd h (lt_irrefl i)⟩⟩
  | succ rounds ih =>
    rw [utcLoop_succ (hone i le_rfl (by omega))]
    by_cases hpast : u ≥ tab.seen i + i + 1
    · obtain ⟨m, hm, hbefore, hor⟩ := @ih (i + 1) fun k hk hlt => hone k (by omega) (by omega)
      rw [if_pos hpast]
      refine ⟨m, by omega, fun k hk hlt => ?_, ?_⟩
      · rcases hk.eq_or_lt with rfl | hk
        · exact hpast
        · exact hbefore k hk hlt
      · rw [show i + (rounds + 1) = i + 1 + rounds by omega]
        exact hor
    · rw [if_neg hpast]
      refine ⟨i, Nat.le_add_right .., fun k hk hki => absurd hki (not_lt_of_ge hk), ?_⟩
      by_cases hin : u ≥ tab.seen i + i
      · rw [if_pos hin]
        exact .inr ⟨rfl, by omega, by omega⟩
      · rw [if_neg hin]
        exact .inl ⟨rfl, fun _ => by omega⟩

/-- Later insertions are later by at least as many seconds as there are between. -/
theorem Accepted.le (h : tab.Accepted size) {j k : Nat} (hjk : j ≤ k) (hk : k < tab.nLeaps.toNat) :
    (tab.entry j).1 + k ≤ (tab.entry k).1 + j := by
  induction k, hjk using Nat.le_induction with
  | base => exact le_rfl
  | succ k hjk ih =>
    have hlt := h.sorted (k + 1) hk k.succ_pos
    have := ih (by omega)
    rw [Nat.add_sub_cancel] at hlt
    push_cast
    omega

theorem leapAt_short (h : i < 2 ^ 28) : tab.leapAt i = tab.entry i := by
  unfold leapAt
  rw [Nat.mod_eq_of_lt (by omega), Nat.mul_div_cancel i (by decide)]

section counted

variable (h : tab.Accepted size) (hone : ∀ k < tab.nLeaps.toNat, (tab.entry k).2 = 1) (hn : tab.nLeaps.toNat ≤ 2 ^ 28)

include hone hn

theorem elapsed_spec (t : Int) : ∃ m : Nat, m ≤ tab.nLeaps.toNat ∧ tab.leapElapsedAtSys t = m ∧
    (∀ k < m, (tab.entry k).1 ≤ t) ∧ (m < tab.nLeaps.toNat → t < (tab.entry m).1) := by
  have hcount : tab.leapCount = tab.nLeaps.toNat := if_pos (by omega)
  obtain ⟨m, hm, heq, hbefore, hnext⟩ := @elapsedLoop_spec tab t tab.nLeaps.toNat 0 fun k _ hk => by
    rw [Nat.zero_add] at hk
    rw [leapAt_short (by omega), hone k hk]
  rw [Nat.zero_add] at hm hnext
  refine ⟨m, hm, by rw [leapElapsedAtSys, hcount]; exact heq, fun k hk => ?_, fun hlt => ?_⟩
  · rw [← leapAt_short (by omega)]
    exact hbefore k k.zero_le hk
  · rw [← leapAt_short (by omega)]
    exact hnext hlt

theorem utc_spec (u : Int) : ∃ m : Nat, m ≤ tab.nLeaps.toNat ∧ (∀ k < m, (tab.entry k).1 + k + 1 ≤ u) ∧
    (tab.leapAtUtc u = (false, (m : Int)) ∧ (m < tab.nLeaps.toNat → u < (tab.entry m).1 + m) ∨
      (tab.leapAtUtc u).1 = true ∧ m < tab.nLeaps.toNat ∧ (tab.entry m).1 + m = u) := by
  have hcount : tab.leapCount = tab.nLeaps.toNat := if_pos (by omega)
  have hseen : ∀ k < tab.nLeaps.toNat, tab.seen k = (tab.entry k).1 := fun k hk => by rw [seen, leapAt_short (by omega)]
  obtain ⟨m, hm, hbefore, hor⟩ := @utcLoop_spec tab u tab.nLeaps.toNat 0 fun k _ hk => by
    rw [Nat.zero_add] at hk
    rw [leapAt_short (by omega), hone k hk]
  rw [Nat.zero_add] at hm hor
  rw [leapAtUtc, hcount]
  refine ⟨m, hm, fun k hk => hseen k (by omega) ▸ hbefore k k.zero_le hk, hor.imp ?_ ?_⟩
  · exact fun hout => ⟨hout.1, fun hlt => hseen m hlt ▸ hout.2 hlt⟩
  · exact fun hin => ⟨hin.1, hin.2.1, hseen m hin.2.1 ▸ hin.2.2⟩

/-- From one instant's count to the other's: no insertion lies on both sides. -/
theorem back (t : Int) : tab.leapAtUtc (tab.toUtc t) = (false, tab.leapElapsedAtSys t) := by
  obtain ⟨m, hm, heq, hbefore, hnext⟩ := elapsed_spec hone hn t
  obtain ⟨m', hm', hbefore', hor⟩ := utc_spec hone hn (tab.toUtc t)
  rw [toUtc, heq] at *
  have hge : ¬ m' < m := fun hlt => by
    have := hbefore m' hlt
    rcases hor with ⟨-, hout⟩ | ⟨-, -, hin⟩
    · have := hout (by omega)
      omega
    · omega
  have hle : ¬ m < m' := fun hlt => by
    have := hbefore' m hlt
    have := hnext (by omega)
    omega
  obtain rfl : m' = m := by omega
  rcases hor with hout | ⟨-, hlt, hin⟩
  · exact hout.1
  · have := hnext hlt
    omega

include h

theorem inverse : tab.Inverse where
  back := back hone hn
  mono t t' htt := by
    obtain ⟨m, hm, heq, hbefore, hnext⟩ := elapsed_spec hone hn t
    obtain ⟨m', hm', heq', hbefore', hnext'⟩ := elapsed_spec hone hn t'
    rw [toUtc, toUtc, heq, heq']
    have : ¬ m' < m := fun hlt => by
      have := hbefore m' hlt
      have := hnext' (by omega)
      omega
    omega
  missed u := by
    obtain ⟨m, hm, hbefore, hor⟩ := utc_spec hone hn u
    rcases hor with ⟨heq, hout⟩ | ⟨heq, -, -⟩
    · -- the reading less its count is an instant with this count
      refine iff_of_false (not_not.mpr ⟨u - m, ?_⟩) (by rw [heq]; exact Bool.false_ne_true)
      obtain ⟨m', hm', heq', hbefore', hnext'⟩ := elapsed_spec hone hn (u - m)
      have hge : ¬ m' < m := fun hlt => by
        have := h.le (show m' ≤ m - 1 by omega) (by omega)
        have := hbefore (m - 1) (by omega)
        have := hnext' (by omega)
        omega
      have hle : ¬ m < m' := fun hlt => by
        have := hbefore' m hlt
        have := hout (by omega)
        omega
      rw [toUtc, heq']
      omega
    · refine iff_of_true ?_ heq
      rintro ⟨t, rfl⟩
      rw [back hone hn] at heq
      exact Bool.false_ne_true heq
  inserted u := by
    obtain ⟨m, hm, hbefore, hor⟩ := utc_spec hone hn u
    rcases hor with ⟨heq, hout⟩ | ⟨heq, hlt, hin⟩
    · refine iff_of_false (by rw [heq]; exact Bool.false_ne_true) ?_
      rintro ⟨k, hk, hku⟩
      rcases lt_or_ge k m with hkm | hmk
      · have := hbefore k hkm
        omega
      · have := h.le hmk hk
        have := hout (by omega)
        omega
    · exact iff_of_true heq ⟨m, hlt, hin⟩
  one j hj k hk heq := by
    rcases le_total j k with hjk | hkj
    · have := h.le hjk hk
      omega
    · have := h.le hkj hj
      omega

end counted

/-- The second of the last insertion of a longer table is never found. -/
theorem not_inverse (h : tab.Accepted size) (hone : ∀ k < tab.nLeaps.toNat, (tab.entry k).2 = 1)
    (hn : 2 ^ 28 < tab.nLeaps.toNat) : ¬ tab.Inverse := fun hinv => by
  have hlast := (hinv.inserted _).mpr ⟨tab.nLeaps.toNat - 1, by omega, rfl⟩
  unfold leapAtUtc leapCount at hlast
  split at hlast
  · have hat : ∀ k, tab.leapAt k = tab.entry (k % 2 ^ 28) := fun k => by
      unfold leapAt
      congr 1
      omega
    obtain ⟨m, -, -, hor⟩ := @utcLoop_spec tab ((tab.entry (tab.nLeaps.toNat - 1)).1 + (tab.nLeaps.toNat - 1 : Nat))
      tab.nLeaps.toNat 0 fun k _ _ => by rw [hat, hone _ (by omega)]
    rcases hor with ⟨heq, -⟩ | ⟨-, hm, hin⟩
    · have := congrArg Prod.fst heq
      rw [Nat.cast_zero] at this
      exact Bool.false_ne_true (this.symm.trans hlast)
    · have := h.le (show m % 2 ^ 28 ≤ tab.nLeaps.toNat - 1 by omega) (by omega)
      rw [seen, hat] at hin
      omega
  · exact Bool.false_ne_true hlast

theorem leap_conversions_inverse_iff (tab : LeapTable) (size : Nat) (h : tab.Accepted size)
    (hone : ∀ k < tab.nLeaps.toNat, (tab.entry k).2 = 1) : tab.Inverse ↔ tab.nLeaps.toNat ≤ 2 ^ 28 :=
  ⟨fun hinv => not_lt.mp fun hn => not_inverse h hone hn hinv, fun hn => inverse h hone hn⟩

/-- An insertion every hundred seconds. -/
def everyHundred (n : UInt32) : LeapTable := ⟨n, 64, fun i => (100 * i, 1)⟩

theorem everyHundred_accepted (n : UInt32) : (everyHundred n).Accepted (64 + n.toNat * 16) where
  fits := le_rfl
  bounded i hi := by
    have hlt := n.toNat_lt
    change i < n.toNat at hi
    unfold everyHundred forever
    dsimp only
    omega
  sorted i _ hpos := by
    unfold everyHundred
    dsimp only
    omega
  unit _ _ := .inl rfl

theorem leap_conversions_inverse_two : (everyHundred 2).Inverse :=
  (leap_conversions_inverse_iff (everyHundred 2) _ (everyHundred_accepted 2) fun _ _ => rfl).mpr (by decide)

/-- One entry more than `LeapAt` can find. -/
theorem long_table_not_inverse : (everyHundred (2 ^ 28 + 1)).Accepted (64 + (2 ^ 28 + 1) * 16) ∧
    ¬ (everyHundred (2 ^ 28 + 1)).Inverse :=
  ⟨everyHundred_accepted _, not_inverse (everyHundred_accepted _) (fun _ _ => rfl) (by decide)⟩

end LeapTable

end BoxOS.Boxcxx
