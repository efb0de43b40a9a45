import BoxOS.Lib.Bits

/-!
# Words in byte arrays

Little-endian numbers over byte lists: `leNat` reads one, `leBytes` writes one (`leNat_leBytes`), and bit `i` of the
number is bit `i` of the bytes (`testBit_leNat`, `bitAt_leBytes`). `patch` overwrites a stretch of an array; `load64`
and `store64` are the aligned 64-bit accesses through it. `ctz` is the lowest set bit of a word and `w &&& (w - 1)`
the word without it (`testBit_and_pred`), which gives `setBits_eq_cons`, the step of every bit-scanning loop.
-/

namespace Lib

open List

/-! ## Little-endian numbers -/

/-- The number whose little-endian bytes are `bs`. -/
def leNat : List UInt8 → Nat
  | [] => 0
  | b :: bs => b.toNat + 256 * leNat bs

/-- The `n` low bytes of `v`, low byte first. -/
def leBytes : Nat → Nat → List UInt8
  | 0, _ => []
  | n + 1, v => UInt8.ofNat v :: leBytes n (v / 256)

@[simp] theorem length_leBytes (n v : Nat) : (leBytes n v).length = n := by
  induction n generalizing v with
  | zero => rfl
  | succ n ih => simp [leBytes, ih]

theorem leNat_leBytes_mod (n v : Nat) : leNat (leBytes n v) = v % 256 ^ n := by
  induction n generalizing v with
  | zero => simp [leBytes, leNat, Nat.mod_one]
  | succ n ih =>
    have hb : (UInt8.ofNat v).toNat = v % 256 := rfl
    rw [leBytes, leNat, ih, hb, pow_succ, mul_comm (256 ^ n) 256, Nat.mod_mul]

theorem leNat_leBytes {n v : Nat} (h : v < 256 ^ n) : leNat (leBytes n v) = v := by
  rw [leNat_leBytes_mod, Nat.mod_eq_of_lt h]

variable (bs : List UInt8)

theorem leNat_lt : leNat bs < 256 ^ bs.length := by
  induction bs with
  | nil => simp [leNat]
  | cons b bs ih =>
    have := UInt8.toNat_lt b
    rw [leNat, length_cons, pow_succ]
    omega

/-! ## Bits of concatenated arrays -/

theorem bitAt_cons (b : UInt8) (bs : List UInt8) (i : Nat) :
    bitAt (b :: bs) i = if i < 8 then b.toNat.testBit i else bitAt bs (i - 8) := by
  unfold bitAt
  by_cases h : i < 8
  · rw [if_pos h]
    have h0 : i / 8 = 0 := by omega
    have h1 : i % 8 = i := by omega
    rw [h0, h1]; rfl
  rw [if_neg h]
  obtain ⟨k, hk⟩ : ∃ k, i / 8 = k + 1 := ⟨i / 8 - 1, by omega⟩
  have h1 : (i - 8) / 8 = k := by omega
  have h2 : (i - 8) % 8 = i % 8 := by omega
  rw [hk, h1, h2, getD_cons_succ]

theorem bitAt_append (as bs : List UInt8) (i : Nat) :
    bitAt (as ++ bs) i = if i < 8 * as.length then bitAt as i else bitAt bs (i - 8 * as.length) := by
  induction as generalizing i with
  | nil => simp
  | cons a as ih =>
    rw [cons_append, bitAt_cons, ih, bitAt_cons]
    simp only [length_cons]
    by_cases h : i < 8
    · rw [if_pos h, if_pos h, if_pos (by omega)]
    rw [if_neg h, if_neg h]
    by_cases h' : i - 8 < 8 * as.length
    · rw [if_pos h', if_pos (by omega)]
    · rw [if_neg h', if_neg (by omega)]
      congr 1
      omega

theorem bitAt_replicate_zero (n i : Nat) : bitAt (replicate n 0) i = false := by
  have : (replicate n (0 : UInt8)).getD (i / 8) 0 = 0 := by
    rw [getD_eq_getElem?_getD, getElem?_replicate]
    split <;> rfl
  unfold bitAt
  rw [this]
  exact testBit_empty rfl _

theorem testBit_leNat (i : Nat) : (leNat bs).testBit i = bitAt bs i := by
  induction bs generalizing i with
  | nil => simp [leNat, bitAt]
  | cons b bs ih =>
    have hb : b.toNat < 2 ^ 8 := UInt8.toNat_lt b
    rw [bitAt_cons, leNat, add_comm, show (256 : Nat) = 2 ^ 8 from rfl, Nat.testBit_two_pow_mul_add _ hb, ih]

theorem bitAt_leBytes (n v i : Nat) : bitAt (leBytes n v) i = (decide (i < 8 * n) && v.testBit i) := by
  rw [← testBit_leNat, leNat_leBytes_mod, show (256 : Nat) = 2 ^ 8 from rfl, ← pow_mul, Nat.testBit_mod_two_pow]

/-! ## Stretches of an array -/

/-- `bs` with the bytes from `off` on replaced by `new`. -/
def patch (off : Nat) (new : List UInt8) : List UInt8 :=
  bs.take off ++ new ++ bs.drop (off + new.length)

theorem length_patch {bs new : List UInt8} {off : Nat} (h : off + new.length ≤ bs.length) :
    (patch bs off new).length = bs.length := by
  simp only [patch, length_append, length_take, length_drop]
  omega

theorem bitAt_take (n i : Nat) : bitAt (bs.take n) i = (decide (i < 8 * n) && bitAt bs i) := by
  unfold bitAt
  by_cases h : i / 8 < n
  · simp [h, show i < 8 * n by omega]
  · simp [h, show ¬ i < 8 * n by omega]

theorem bitAt_drop (n i : Nat) : bitAt (bs.drop n) i = bitAt bs (8 * n + i) := by
  unfold bitAt
  simp only [getD_eq_getElem?_getD, getElem?_drop]
  have h1 : (8 * n + i) / 8 = n + i / 8 := by omega
  have h2 : (8 * n + i) % 8 = i % 8 := by omega
  rw [h1, h2]

theorem bitAt_patch {bs new : List UInt8} {off : Nat} (h : off + new.length ≤ bs.length) (i : Nat) :
    bitAt (patch bs off new) i = if 8 * off ≤ i ∧
    i < 8 * (off + new.length) then bitAt new (i - 8 * off) else bitAt bs i := by
  have hlen : (bs.take off ++ new).length = off + new.length := by simp; omega
  have hlen' : (bs.take off).length = off := by simp; omega
  rw [patch, bitAt_append, hlen, bitAt_append, hlen', bitAt_take, bitAt_drop]
  by_cases h1 : i < 8 * off
  · rw [if_pos (by omega), if_pos h1, if_neg (by omega)]
    simp [h1]
  by_cases h2 : i < 8 * (off + new.length)
  · rw [if_pos h2, if_neg h1, if_pos ⟨by omega, h2⟩]
  · rw [if_neg h2, if_neg (by omega)]
    congr 1
    omega

/-- The 64-bit word `w` of a byte array. -/
def load64 (w : Nat) : Nat := leNat ((bs.drop (8 * w)).take 8)

def store64 (w v : Nat) : List UInt8 := patch bs (8 * w) (leBytes 8 v)

theorem testBit_load64 (w i : Nat) :
    (load64 bs w).testBit i = (decide (i < 64) && bitAt bs (64 * w + i)) := by
  rw [load64, testBit_leNat, bitAt_take, bitAt_drop]
  congr 2
  omega

theorem load64_lt (w : Nat) : load64 bs w < 2 ^ 64 := by
  have h := leNat_lt ((bs.drop (8 * w)).take 8)
  have hle : ((bs.drop (8 * w)).take 8).length ≤ 8 := by simp
  calc load64 bs w < 256 ^ ((bs.drop (8 * w)).take 8).length := h
    _ ≤ 256 ^ 8 := Nat.pow_le_pow_right (by decide) hle
    _ = 2 ^ 64 := by norm_num

theorem length_store64 {bs : List UInt8} {w : Nat} (h : 8 * (w + 1) ≤ bs.length) (v : Nat) :
    (store64 bs w v).length = bs.length := by
  apply length_patch
  rw [length_leBytes]
  omega

theorem bitAt_store64 {bs : List UInt8} {w : Nat} (h : 8 * (w + 1) ≤ bs.length) (v i : Nat) :
    bitAt (store64 bs w v) i = if i / 64 = w then v.testBit (i % 64) else bitAt bs i := by
  rw [store64, bitAt_patch (by rw [length_leBytes]; omega), length_leBytes]
  by_cases hi : i / 64 = w
  · rw [if_pos hi, if_pos (by omega), bitAt_leBytes]
    have : i - 8 * (8 * w) = i % 64 := by omega
    have hlt : i % 64 < 8 * 8 := by omega
    simp [this, hlt]
  · rw [if_neg hi, if_neg (by omega)]

/-! ## Fields -/

/-- The `n`-byte number at offset `off`. -/
def fieldAt (n off : Nat) (bs : List UInt8) : Nat := leNat ((bs.drop off).take n)

theorem fieldAt_drop (n off k : Nat) (bs : List UInt8) : fieldAt n k (bs.drop off) = fieldAt n (off + k) bs := by
  rw [fieldAt, fieldAt, drop_drop]

theorem fieldAt_append {n v off : Nat} (pre post : List UInt8) (h : v < 256 ^ n) (hoff : pre.length = off) :
    fieldAt n off (pre ++ (leBytes n v ++ post)) = v := by
  have htake : (leBytes n v ++ post).take n = leBytes n v := by
    rw [take_append_of_le_length (by simp), take_of_length_le (by simp)]
  rw [fieldAt, ← hoff, drop_left, htake, leNat_leBytes h]

theorem fieldAt_lt (n off : Nat) (bs : List UInt8) : fieldAt n off bs < 256 ^ n := by
  have hle : ((bs.drop off).take n).length ≤ n := by simp
  exact (leNat_lt _).trans_le (Nat.pow_le_pow_right (by decide) hle)

theorem slice_patch_of_disjoint {bs new : List UInt8} {off k n : Nat} (h : off + new.length ≤ bs.length)
    (hdis : k + n ≤ off ∨ off + new.length ≤ k) : ((patch bs off new).drop k).take n = (bs.drop k).take n := by
  apply ext_getElem?
  intro i
  rw [getElem?_take, getElem?_take]
  by_cases hi : i < n
  · rw [if_pos hi, if_pos hi, getElem?_drop, getElem?_drop, patch, append_assoc]
    have hlen : (bs.take off).length = off := by rw [length_take, min_eq_left (by omega)]
    rcases hdis with hlt | hge
    · rw [getElem?_append_left (by omega), getElem?_take_of_lt (by omega)]
    · rw [getElem?_append_right (by omega), getElem?_append_right (by omega), getElem?_drop, hlen]
      congr 1
      omega
  · rw [if_neg hi, if_neg hi]

theorem slice_patch_self {bs new : List UInt8} {off : Nat} (h : off ≤ bs.length) :
    ((patch bs off new).drop off).take new.length = new := by
  have hlen : (bs.take off).length = off := by rw [length_take, min_eq_left h]
  rw [patch, append_assoc, drop_append, drop_of_length_le (by omega), hlen, Nat.sub_self, drop_zero,
    nil_append, take_left]

theorem patch_middle {pre old new : List UInt8} {off : Nat} (hpre : pre.length = off) (hlen : new.length = old.length)
    (post : List UInt8) : patch (pre ++ (old ++ post)) off new = pre ++ (new ++ post) := by
  have hdrop : (pre ++ (old ++ post)).drop (off + new.length) = post := by
    rw [← append_assoc, drop_left' (by simp [hpre, hlen])]
  rw [patch, hdrop, take_left' hpre, append_assoc]

theorem fieldAt_patch_of_disjoint {bs new : List UInt8} {off k n : Nat} (h : off + new.length ≤ bs.length)
    (hdis : k + n ≤ off ∨ off + new.length ≤ k) : fieldAt n k (patch bs off new) = fieldAt n k bs := by
  rw [fieldAt, fieldAt, slice_patch_of_disjoint h hdis]

theorem fieldAt_of_slice {bs r : List UInt8} {off k n : Nat} (h : (bs.drop off).take r.length = r)
    (hk : k + n ≤ r.length) : fieldAt n (off + k) bs = fieldAt n k r := by
  have hsplit : bs.drop off = r ++ (bs.drop off).drop r.length := by
    conv_lhs => rw [← take_append_drop r.length (bs.drop off), h]
  rw [← fieldAt_drop, hsplit, fieldAt, fieldAt, drop_append_of_le_length (by omega),
    take_append_of_le_length (by rw [length_drop]; omega)]

/-! ## Records of fields -/

theorem fieldAt_append_left {pre : List UInt8} {k : Nat} (h : pre.length = k) (n off : Nat) (bs : List UInt8) :
    fieldAt n (k + off) (pre ++ bs) = fieldAt n off bs := by
  rw [← fieldAt_drop, ← h, drop_left]

/-- Fields, each a width and a value, one behind the other. -/
def packFields (fs : List (Nat × Nat)) : List UInt8 := fs.flatMap fun f => leBytes f.1 f.2

theorem length_packFields (fs : List (Nat × Nat)) : (packFields fs).length = (fs.map Prod.fst).sum := by
  simp [packFields, length_flatMap]

theorem fieldAt_packFields {fs : List (Nat × Nat)} {i n v off : Nat} (hi : fs[i]? = some (n, v))
    (hoff : ((fs.take i).map Prod.fst).sum = off) (hv : v < 256 ^ n) (rest : List UInt8) :
    fieldAt n off (packFields fs ++ rest) = v := by
  have hlt : i < fs.length := (List.getElem?_eq_some_iff.mp hi).1
  have hsplit : fs = fs.take i ++ (n, v) :: fs.drop (i + 1) := by
    conv_lhs => rw [← take_append_drop i fs, drop_eq_getElem_cons hlt, (List.getElem?_eq_some_iff.mp hi).2]
  have hpack : packFields fs ++ rest =
      packFields (fs.take i) ++ (leBytes n v ++ (packFields (fs.drop (i + 1)) ++ rest)) := by
    conv_lhs => rw [hsplit]
    simp [packFields]
  rw [hpack]
  exact fieldAt_append _ _ hv ((length_packFields _).trans hoff)

/-! ## The lowest set bit -/

/-- The lowest set bit of a word of `width` bits. -/
def ctz (width v : Nat) : Nat := ((List.range width).find? (fun k => v.testBit k)).getD width

/-- The set bits of a word of `width` bits, in increasing order. -/
def setBits (width v : Nat) : List Nat := (List.range width).filter (fun k => v.testBit k)

theorem setBits_zero (width : Nat) : setBits width 0 = [] := by simp [setBits]

theorem mem_setBits {width v k : Nat} : k ∈ setBits width v ↔ k < width ∧ v.testBit k = true := by
  simp [setBits]

theorem setBits_sorted (width v : Nat) : (setBits width v).Pairwise (· < ·) :=
  pairwise_lt_range.filter _

theorem exists_odd_mul {v : Nat} (h : v ≠ 0) : ∃ c m, v = 2 ^ c * (2 * m + 1) := by
  induction v using Nat.strong_induction_on with
  | _ v ih =>
    rcases Nat.even_or_odd' v with ⟨k, rfl | rfl⟩
    · obtain ⟨c, m, hk⟩ := ih k (by omega) (by omega)
      exact ⟨c + 1, m, by rw [hk, pow_succ]; ring⟩
    · exact ⟨0, k, by simp⟩

theorem testBit_odd_mul (c m k : Nat) :
    (2 ^ c * (2 * m + 1)).testBit k = (decide (c ≤ k) && (2 * m + 1).testBit (k - c)) := by
  rw [Nat.testBit_two_pow_mul]

theorem testBit_odd_mul_pred (c m k : Nat) :
    (2 ^ c * (2 * m + 1) - 1).testBit k = if k < c then true else (2 * m).testBit (k - c) := by
  have hpos : 0 < 2 ^ c := by positivity
  have hlt : 2 ^ c - 1 < 2 ^ c := by omega
  have : 2 ^ c * (2 * m + 1) - 1 = 2 ^ c * (2 * m) + (2 ^ c - 1) := by
    rw [mul_add, mul_one]
    omega
  rw [this, Nat.testBit_two_pow_mul_add _ hlt]
  by_cases hk : k < c
  · rw [if_pos hk, if_pos hk, Nat.testBit_two_pow_sub_one]
    simpa using hk
  · rw [if_neg hk, if_neg hk]

theorem ctz_spec {width v : Nat} (h : v ≠ 0) (hv : v < 2 ^ width) :
    ctz width v < width ∧ v.testBit (ctz width v) = true ∧ ∀ k < ctz width v, v.testBit k = false := by
  obtain ⟨j, hj⟩ := Nat.exists_testBit_of_ne_zero h
  have hjw : j < width := by
    by_contra hc
    have hge : 2 ^ width ≤ 2 ^ j := Nat.pow_le_pow_right (by decide) (by omega)
    rw [Nat.testBit_lt_two_pow (by omega)] at hj
    exact Bool.noConfusion hj
  cases hf : (List.range width).find? (fun k => v.testBit k) with
  | none =>
    have := find?_eq_none.mp hf j (mem_range.mpr hjw)
    exact absurd hj this
  | some c =>
    have hc : ctz width v = c := by simp [ctz, hf]
    have hmem := mem_of_find?_eq_some hf
    obtain ⟨hset, -⟩ := find?_eq_some_iff_append.mp hf
    rw [hc]
    refine ⟨mem_range.mp hmem, hset, ?_⟩
    intro k hk
    have := find?_range_eq_some.mp hf
    simpa using this.2.2 k hk

theorem testBit_and_pred {width v : Nat} (h : v ≠ 0) (hv : v < 2 ^ width) (k : Nat) :
    (v &&& (v - 1)).testBit k = (v.testBit k && !decide (k = ctz width v)) := by
  obtain ⟨-, hset, hlow⟩ := ctz_spec h hv
  obtain ⟨c, m, rfl⟩ := exists_odd_mul h
  have hc : ctz width (2 ^ c * (2 * m + 1)) = c := by
    rcases lt_trichotomy (ctz width (2 ^ c * (2 * m + 1))) c with hlt | heq | hgt
    · rw [testBit_odd_mul, decide_eq_false (by omega)] at hset
      exact Bool.noConfusion hset
    · exact heq
    · have := hlow c hgt
      rw [testBit_odd_mul] at this
      simp at this
  rw [hc, Nat.testBit_and, testBit_odd_mul, testBit_odd_mul_pred]
  rcases lt_trichotomy k c with hlt | rfl | hgt
  · simp [show ¬ c ≤ k by omega]
  · simp
  · obtain ⟨d, hd⟩ : ∃ d, k - c = d + 1 := ⟨k - c - 1, by omega⟩
    have hdiv : (2 * m + 1) / 2 = m := by omega
    have hdiv' : 2 * m / 2 = m := by omega
    rw [hd, if_neg (by omega), Nat.testBit_succ, Nat.testBit_succ, hdiv, hdiv']
    simp [show c ≤ k by omega, show k ≠ c by omega]

theorem setBits_eq_cons {width v : Nat} (h : v ≠ 0) (hv : v < 2 ^ width) :
    setBits width v = ctz width v :: setBits width (v &&& (v - 1)) := by
  obtain ⟨hlt, hset, hlow⟩ := ctz_spec h hv
  have hmem : ∀ k, k ∈ setBits width (v &&& (v - 1)) ↔ (k < width ∧ v.testBit k = true) ∧ k ≠ ctz width v := by
    intro k
    rw [mem_setBits, testBit_and_pred h hv]
    simp [and_assoc]
  have hsorted : (ctz width v :: setBits width (v &&& (v - 1))).Pairwise (· < ·) := by
    refine pairwise_cons.mpr ⟨?_, setBits_sorted _ _⟩
    intro k hk
    obtain ⟨⟨-, hk⟩, hne⟩ := (hmem k).mp hk
    by_contra hc
    rw [hlow k (by omega)] at hk
    exact Bool.noConfusion hk
  apply Perm.eq_of_pairwise' (setBits_sorted width v) hsorted
  rw [perm_ext_iff_of_nodup ((setBits_sorted width v).imp ne_of_lt) (hsorted.imp ne_of_lt)]
  intro k
  rw [mem_cons, hmem, mem_setBits]
  by_cases hk : k = ctz width v
  · subst hk
    simp [hlt, hset]
  · simp [hk]

end Lib
