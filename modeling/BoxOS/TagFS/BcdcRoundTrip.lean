import BoxOS.TagFS.Bcdc
import Mathlib.Data.List.GetD
import Mathlib.Data.Fintype.Basic

/-! # What the block codec reads back

The decoders undo the encoders on inputs whose bytes they can tell from their own tokens: for the Lempel-Ziv encoder
bytes below `0x80` and no three of them in the dictionary, for the run-length encoder no three `0xFE` in a row. Every
other block that the encoders shorten is read back as something else or not at all, and nothing notices. -/

namespace BoxOS.TagFS

open List

variable {input rest out : List UInt8} {pos osize : Nat} {b : UInt8}

theorem take_succ_byteAt (h : pos < input.length) : input.take (pos + 1) = input.take pos ++ [byteAt input pos] := by
  rw [byteAt, getD_eq_getElem _ _ h, take_append_getElem h]

theorem byteAt_take {i n : Nat} (h : i < n) : byteAt (input.take n) i = byteAt input i := by
  simp [byteAt, getD_eq_getElem?_getD, h]

/-! ## Lempel-Ziv -/

theorem and_high_of_lt (h : b < 0x80) : b &&& 0x80 = 0 := by
  have hb : b.toNat < 128 := h
  apply UInt8.toNat_inj.mp
  rw [UInt8.toNat_and]
  apply Nat.eq_of_testBit_eq
  intro i
  rw [Nat.testBit_and, show (0x80 : UInt8).toNat = 2 ^ 7 from rfl, Nat.testBit_two_pow]
  by_cases hi : 7 = i
  · rw [← hi, Nat.testBit_lt_two_pow hb]
    rfl
  · simp [hi]

theorem lzToken_length : ∀ encLen < 256, (UInt8.ofNat (0x80 ||| (encLen &&& 0x7F)) &&& 0x80 ≠ 0) ∧
    (encLen >>> 7) &&& 1 < 2 ∧
    ((UInt8.ofNat (0x80 ||| (encLen &&& 0x7F))).toNat &&& 0x7F) ||| (((encLen >>> 7) &&& 1) <<< 7) = encLen := by
  decide +kernel

theorem lzToken_high : ∀ bit < 2, ∀ high < 32, (UInt8.ofNat ((bit <<< 7) ||| high)).toNat >>> 7 = bit ∧
    (UInt8.ofNat ((bit <<< 7) ||| high)).toNat &&& 0x1F = high := by
  decide +kernel

theorem offset_bytes {high low : Nat} (hhigh : high < 32) (hlow : low < 256) :
    ((UInt8.ofNat ((high * 256 + low) &&& 0xFF)).toNat ||| ((((high * 256 + low) >>> 8) &&& 0x1F) <<< 8)) =
      high * 256 + low := by
  rw [Nat.and_two_pow_sub_one_eq_mod _ 8, Nat.shiftRight_eq_div_pow, Nat.and_two_pow_sub_one_eq_mod _ 5,
    UInt8.toNat_ofNat', show (high * 256 + low) % 2 ^ 8 % 2 ^ 8 = low by omega,
    show (high * 256 + low) / 2 ^ 8 % 2 ^ 5 = high by omega, Nat.or_comm,
    ← Nat.shiftLeft_add_eq_or_of_lt (show low < 2 ^ 8 from hlow), Nat.shiftLeft_eq]

theorem lzToken_read {encLen offset : Nat} (hlen : encLen < 256) (hoff : offset ≤ bcdcLzMaxOffset) :
    ∃ token lo byte2, lzToken encLen offset = [token, lo, byte2] ∧ token &&& 0x80 ≠ 0 ∧
      matchLen token byte2 = encLen + bcdcLzMinMatch ∧ matchOffset lo byte2 = offset := by
  have hhigh : (offset >>> 8) &&& 0x1F < 32 := Nat.lt_succ_of_le Nat.and_le_right
  obtain ⟨hmark, hbit, hlow⟩ := lzToken_length encLen hlen
  obtain ⟨hshift, hmask⟩ := lzToken_high _ hbit _ hhigh
  refine ⟨_, _, _, rfl, hmark, ?_, ?_⟩
  · rw [matchLen, hshift, hlow]
  · rw [matchOffset, hmask]
    unfold bcdcLzMaxOffset at hoff
    have hbytes := @offset_bytes (offset / 256) (offset % 256) (by omega) (Nat.mod_lt _ (by decide))
    rwa [Nat.div_add_mod'] at hbytes

theorem lzDecode_literal {dict : Option (List UInt8)} (hb : b &&& 0x80 = 0) (hroom : out.length < osize) :
    lzDecode dict osize (b :: rest) out = lzDecode dict osize rest (out ++ [b]) := by
  match rest with
  | [] => simp [lzDecode, hb, hroom]
  | [_] => simp [lzDecode, hb, hroom]
  | _ :: _ :: _ => rw [lzDecode, if_pos hroom, if_neg (not_not_intro hb)]

theorem lzDecode_literals {dict : Option (List UInt8)} {lits more : List UInt8} (hlits : ∀ b ∈ lits, b &&& 0x80 = 0)
    (hroom : out.length + lits.length ≤ osize) :
    lzDecode dict osize (lits ++ more) out = lzDecode dict osize more (out ++ lits) := by
  induction lits generalizing out with
  | nil => simp
  | cons b lits ih =>
    rw [length_cons] at hroom
    rw [cons_append, lzDecode_literal (hlits b mem_cons_self) (by omega),
      ih (fun x hx => hlits x (mem_cons_of_mem b hx)) (by simp; omega)]
    simp

theorem copyBack_take {offset n : Nat} (hoff : 0 < offset) (hpos : offset ≤ pos)
    (hroom : pos + n ≤ input.length)
    (hsame : ∀ k < n, byteAt input (pos - offset + k) = byteAt input (pos + k)) :
    copyBack offset input.length n (input.take pos) = input.take (pos + n) := by
  induction n generalizing pos with
  | zero => rfl
  | succ n ih =>
    have hlen : (input.take pos).length = pos := length_take_of_le (by omega)
    have h0 := hsame 0 (by omega)
    simp only [Nat.add_zero] at h0
    rw [copyBack, hlen, if_pos (by omega), byteAt_take (by omega), h0, ← take_succ_byteAt (by omega),
      ih (by omega) (by omega)]
    · congr 1
      omega
    · intro k hk
      have := hsame (k + 1) (by omega)
      rw [show pos + 1 - offset + k = pos - offset + (k + 1) by omega, this]
      congr 1
      omega

theorem lzDecode_token {dict : Option (List UInt8)} {more : List UInt8} {encLen offset : Nat}
    (hlen : encLen < 256) (hoff : 0 < offset) (hmax : offset ≤ bcdcLzMaxOffset) (hpos : offset ≤ pos)
    (hroom : pos + (encLen + bcdcLzMinMatch) ≤ input.length)
    (hsame : ∀ k < encLen + bcdcLzMinMatch, byteAt input (pos - offset + k) = byteAt input (pos + k)) :
    lzDecode dict input.length (lzToken encLen offset ++ more) (input.take pos) =
      lzDecode dict input.length more (input.take (pos + (encLen + bcdcLzMinMatch))) := by
  obtain ⟨token, lo, byte2, htok, hhigh, hml, hmo⟩ := lzToken_read hlen hmax
  have hl : (input.take pos).length = pos := length_take_of_le (by omega)
  have hmin : 0 < encLen + bcdcLzMinMatch := by
    unfold bcdcLzMinMatch
    omega
  rw [htok, cons_append, cons_append, cons_append, nil_append, lzDecode, hl, if_pos (by omega),
    if_pos hhigh]
  simp only [hml, hmo]
  rw [if_neg (by omega), if_neg (by omega), copyBack_take hoff hpos hroom hsame]

theorem matchLength_spec (a b : List UInt8) (i j max n len : Nat) :
    len ≤ matchLength a b i j max n len ∧ (len ≤ max → matchLength a b i j max n len ≤ max) ∧
      ∀ k, len ≤ k → k < matchLength a b i j max n len → byteAt a (i + k) = byteAt b (j + k) := by
  induction n generalizing len with
  | zero => exact ⟨le_rfl, id, fun k h1 h2 => by simp only [matchLength] at h2; omega⟩
  | succ n ih =>
    rw [matchLength]
    split
    · rename_i hcond
      obtain ⟨h1, h2, h3⟩ := ih (len + 1)
      refine ⟨by omega, fun _ => h2 (by omega), fun k hk hlt => ?_⟩
      by_cases hkl : k = len
      · rw [hkl]
        exact hcond.2
      · exact h3 k (by omega) hlt
    · exact ⟨le_rfl, id, fun k h1 h2 => by omega⟩

/-- A match within the block: it lies in what the decoder already has, and the bytes agree. -/
structure LzBest.Good (input : List UInt8) (inPos : Nat) (best : LzBest) : Prop where
  max : best.length ≤ bcdcLzMaxMatch
  pos : bcdcLzMinMatch ≤ best.length → 0 < best.offset
  back : best.offset ≤ inPos
  room : inPos + best.length ≤ input.length
  same : ∀ k < best.length, byteAt input (inPos - best.offset + k) = byteAt input (inPos + k)

theorem chainLoop_good {chain : Nat → Int} {inPos : Nat} (hpos : inPos ≤ input.length) (budget : Nat) (cur : Int)
    (best : LzBest) (h : best.Good input inPos) : (chainLoop input chain inPos budget cur best).Good input inPos := by
  induction budget generalizing cur best with
  | zero => exact h
  | succ budget ih =>
    rw [chainLoop]
    split
    · rename_i hcur
      simp only
      split
      · exact h
      generalize hmax : min (min (input.length - inPos) bcdcLzMaxMatch) (inPos - cur.toNat) = maxLen
      obtain ⟨-, hle, hsame⟩ := matchLength_spec input input cur.toNat inPos maxLen maxLen 0
      generalize matchLength input input cur.toNat inPos maxLen maxLen 0 = len at hle hsame
      have hle := hle (Nat.zero_le _)
      have hgood : LzBest.Good input inPos ⟨len, inPos - cur.toNat⟩ := by
        refine ⟨by simp only; omega, fun _ => by simp only; omega, by simp only; omega, by simp only; omega, ?_⟩
        intro k hk
        rw [show inPos - (inPos - cur.toNat) + k = cur.toNat + k by omega]
        exact hsame k (Nat.zero_le _) hk
      split
      · split
        · exact hgood
        · exact ih _ _ hgood
      · exact ih _ _ h
    · exact h

/-- No three bytes of the input occur in the dictionary where the offset of a match reaches. -/
def Unmatched (input dict : List UInt8) : Prop :=
  ∀ i p, i + 3 ≤ input.length → p + 3 ≤ dict.length → i + (dict.length - p) ≤ bcdcLzMaxOffset →
    ¬ (byteAt dict p = byteAt input i ∧ byteAt dict (p + 1) = byteAt input (i + 1) ∧
      byteAt dict (p + 2) = byteAt input (i + 2))

theorem dictLoop_unmatched {dict : List UInt8} (h : Unmatched input dict) {inPos : Nat}
    (hpos : inPos + 3 ≤ input.length) (n p : Nat) (best : LzBest) : dictLoop input dict inPos n p best = best := by
  induction n generalizing p with
  | zero => rfl
  | succ n ih =>
    rw [dictLoop]
    split
    · exact ih (p + 1)
    simp only
    split
    · exact ih (p + 1)
    rename_i hoff
    generalize hcap : min (dict.length - p) (min (input.length - inPos) bcdcLzMaxMatch) = cap
    obtain ⟨-, hle, hsame⟩ := matchLength_spec dict input p inPos cap cap 0
    have hle := hle (Nat.zero_le _)
    rw [if_neg]
    · exact ih (p + 1)
    · rintro ⟨hmin, -⟩
      unfold bcdcLzMinMatch at hmin
      refine h inPos p hpos (by omega) (by omega) ⟨?_, ?_, ?_⟩
      · exact hsame 0 (Nat.zero_le _) (by omega)
      · exact hsame 1 (Nat.zero_le _) (by omega)
      · exact hsame 2 (Nat.zero_le _) (by omega)

theorem findBest_good {dict : Option (List UInt8)} (hdict : ∀ d ∈ dict, Unmatched input d) (w : BcdcLzWork)
    {inPos : Nat} (hpos : inPos + 3 ≤ input.length) : (findBest input dict w inPos).Good input inPos := by
  have hchain : (chainLoop input w.chain inPos 64 (w.head (bcdcLzHash input inPos)) {}).Good input inPos := by
    refine chainLoop_good (by omega) _ _ _ ⟨Nat.zero_le _, fun h => ?_,
      Nat.zero_le _, by simp only; omega, fun k hk => ?_⟩
    · exact absurd h (by decide)
    · exact absurd hk (Nat.not_lt_zero k)
  unfold findBest
  simp only
  split
  · exact hchain
  rename_i d
  split
  · rw [dictLoop_unmatched (hdict d rfl) hpos]
    exact hchain
  · exact hchain

/-- The match is long enough, and its offset can be written. -/
def LzBest.Taken (best : LzBest) : Prop :=
  bcdcLzMinMatch ≤ best.length ∧ 0 < best.offset ∧ best.offset ≤ bcdcLzMaxOffset

instance (best : LzBest) : Decidable best.Taken := inferInstanceAs (Decidable (_ ∧ _ ∧ _))

theorem LzBest.sub_lt {best : LzBest} (h : best.length ≤ bcdcLzMaxMatch) : best.length - bcdcLzMinMatch < 256 := by
  unfold bcdcLzMaxMatch at h
  unfold bcdcLzMinMatch
  omega

theorem LzBest.Good.decode {best : LzBest} (h : best.Good input pos) (ht : best.Taken) (dict : Option (List UInt8))
    (more : List UInt8) :
    lzDecode dict input.length (lzToken (best.length - bcdcLzMinMatch) best.offset ++ more) (input.take pos) =
    lzDecode dict input.length more (input.take (pos + best.length)) := by
  obtain ⟨hmin, hoff, hmax⟩ := ht
  have hback : best.length - bcdcLzMinMatch + bcdcLzMinMatch = best.length := Nat.sub_add_cancel hmin
  have := @lzDecode_token input pos dict more _ _ (LzBest.sub_lt h.max) hoff hmax h.back (by rw [hback]; exact h.room)
    (by rw [hback]; exact h.same)
  rwa [hback] at this

/-- The main loop writes tokens that are read back as the bytes it consumed, when every match it takes is and every
literal is below `0x80`. `I` is what is known where the loop comes to. -/
theorem lzLoop_along {dict dict' : Option (List UInt8)} {I : Nat → BcdcLzWork → Prop}
    (htaken : ∀ pos w, I pos w → pos + 3 ≤ input.length → (findBest input dict w pos).Taken →
      (findBest input dict w pos).length ≤ bcdcLzMaxMatch ∧ pos + (findBest input dict w pos).length ≤ input.length ∧
      (∀ more, lzDecode dict' input.length
        (lzToken ((findBest input dict w pos).length - bcdcLzMinMatch) (findBest input dict w pos).offset ++ more)
        (input.take pos) =
        lzDecode dict' input.length more (input.take (pos + (findBest input dict w pos).length))) ∧
      I (pos + (findBest input dict w pos).length) (insertLoop input (findBest input dict w pos).length pos w))
    (hliteral : ∀ pos w, I pos w → pos + 3 ≤ input.length →
      ¬ (findBest input dict w pos).Taken → byteAt input pos &&& 0x80 = 0 ∧ I (pos + 1) (bcdcLzChainInsert input w pos))
    (htail : ∀ pos w, I pos w → input.length < pos + 3 → ∀ b ∈ input.drop pos, b &&& 0x80 = 0) (n inPos : Nat)
    (out : List UInt8) (w : BcdcLzWork) (hpos : inPos ≤ input.length) (hI : I inPos w) :
    (lzLoop input dict n inPos out w).1 ≤ input.length ∧
    ∃ toks, (lzLoop input dict n inPos out w).2 = out ++ toks ∧
      ∀ more, lzDecode dict' input.length (toks ++ more) (input.take inPos) =
        lzDecode dict' input.length more (input.take (lzLoop input dict n inPos out w).1) := by
  induction n generalizing inPos out w with
  | zero => exact ⟨hpos, [], by simp [lzLoop], fun _ => rfl⟩
  | succ n ih =>
    have hlen : (input.take inPos).length = inPos := length_take_of_le hpos
    have hstop : ∃ toks, out = out ++ toks ∧ ∀ more,
        lzDecode dict' input.length (toks ++ more) (input.take inPos) =
          lzDecode dict' input.length more (input.take inPos) := ⟨[], by simp, fun _ => rfl⟩
    rw [lzLoop]
    split
    · rename_i hmore
      split
      · -- the last one or two bytes
        rename_i hlast
        simp only
        generalize hrest : (input.drop inPos).take (bcdcMaxCompressed - out.length) = rest
        have hle : rest.length = min (bcdcMaxCompressed - out.length) (input.length - inPos) := by
          rw [← hrest, length_take, length_drop]
        have htake : input.take (inPos + rest.length) = input.take inPos ++ rest := by
          rw [take_add, hle, ← length_drop, ← take_eq_take_min, hrest]
        refine ⟨by omega, rest, rfl, fun more => ?_⟩
        rw [htake]
        refine lzDecode_literals (fun b hb => htail inPos w hI hlast b ?_) (by omega)
        rw [← hrest] at hb
        exact mem_of_mem_take hb
      · rename_i hthree
        have hmatch := htaken inPos w hI (by omega)
        have hplain := hliteral inPos w hI (by omega)
        simp only
        generalize findBest input dict w inPos = best at hmatch hplain
        split
        · rename_i ht
          obtain ⟨hmax, hroom, hread, hnext⟩ := hmatch ht
          have hmin : min (best.length - bcdcLzMinMatch) 255 = best.length - bcdcLzMinMatch := by
            have := LzBest.sub_lt hmax
            omega
          have hconsumed :
              min (bcdcLzMinMatch + (best.length - bcdcLzMinMatch)) (input.length - inPos) = best.length := by
            omega
          split
          · exact ⟨hpos, hstop⟩
          rw [hmin, hconsumed]
          obtain ⟨hle, toks, hout, hdec⟩ := ih (inPos + best.length)
            (out ++ lzToken (best.length - bcdcLzMinMatch) best.offset)
            (insertLoop input best.length inPos w) hroom hnext
          refine ⟨hle, _, by rw [hout, append_assoc], fun more => ?_⟩
          rw [append_assoc, ← hdec more]
          exact hread (toks ++ more)
        · rename_i ht
          obtain ⟨hb, hnext⟩ := hplain ht
          split
          · exact ⟨hpos, hstop⟩
          obtain ⟨hle, toks, hout, hdec⟩ := ih (inPos + 1) (out ++ [byteAt input inPos])
            (bcdcLzChainInsert input w inPos) hmore.1 hnext
          refine ⟨hle, byteAt input inPos :: toks, by rw [hout, append_assoc]; rfl, fun more => ?_⟩
          rw [cons_append, lzDecode_literal hb (by omega), ← take_succ_byteAt hmore.1, hdec more]
    · exact ⟨hpos, hstop⟩

theorem lzLoop_decode {dict : Option (List UInt8)} (hdict : ∀ d ∈ dict, Unmatched input d)
    (hascii : ∀ b ∈ input, b &&& 0x80 = 0) (dict' : Option (List UInt8)) (n : Nat) (w : BcdcLzWork) :
    (lzLoop input dict n 0 [] w).1 ≤ input.length ∧
      ∃ toks, (lzLoop input dict n 0 [] w).2 = [] ++ toks ∧ ∀ more,
        lzDecode dict' input.length (toks ++ more) (input.take 0) =
          lzDecode dict' input.length more (input.take (lzLoop input dict n 0 [] w).1) := by
  refine lzLoop_along (I := fun _ _ => True) ?_ ?_ ?_ n 0 [] w (Nat.zero_le _) trivial
  · intro pos w _ hthree ht
    have hgood : (findBest input dict w pos).Good input pos := findBest_good hdict w hthree
    exact ⟨hgood.max, hgood.room, hgood.decode ht dict', trivial⟩
  · intro pos w _ hthree _
    refine ⟨hascii _ ?_, trivial⟩
    rw [byteAt, getD_eq_getElem _ _ (by omega)]
    exact getElem_mem _
  · exact fun pos w _ _ b hb => hascii b (mem_of_mem_drop hb)

theorem lzDecode_compress {kmalloc : Option (Nat → Int)} {cdata : List UInt8} {dict : Option (List UInt8)}
    (hdict : ∀ d ∈ dict, Unmatched input d) (hascii : ∀ b ∈ input, b &&& 0x80 = 0)
    (h : bcdcLzCompress kmalloc input dict = some cdata) (dict' : Option (List UInt8)) :
    lzDecode dict' input.length cdata [] = some input := by
  unfold bcdcLzCompress at h
  split at h
  · cases h
  split at h
  · cases h
  rename_i fresh
  simp only at h
  obtain ⟨hle, toks, hout, hdec⟩ := lzLoop_decode hdict hascii dict' input.length ⟨fun _ => -1, fresh⟩
  split at h
  · cases h
  rename_i hdone
  cases h
  have hall := hdec []
  rw [append_nil, take_zero, take_of_length_le (by omega)] at hall
  rw [hout, nil_append, hall, lzDecode]

/-! ## Run lengths -/

theorem runLength_spec (input : List UInt8) (pos : Nat) (b : UInt8) (n len : Nat) :
    len ≤ runLength input pos b n len ∧ (len ≤ 255 → runLength input pos b n len ≤ 255) ∧
    (pos + len ≤ input.length → pos + runLength input pos b n len ≤ input.length) ∧ ∀ k, len ≤ k →
    k < runLength input pos b n len → byteAt input (pos + k) = b := by
  induction n generalizing len with
  | zero => exact ⟨le_rfl, id, id, fun k h1 h2 => by simp only [runLength] at h2; omega⟩
  | succ n ih =>
    rw [runLength]
    split
    · rename_i hcond
      obtain ⟨h1, h2, h3, h4⟩ := ih (len + 1)
      refine ⟨by omega, fun _ => h2 (by omega), fun _ => h3 (by omega), fun k hk hlt => ?_⟩
      by_cases hkl : k = len
      · rw [hkl]
        exact hcond.2.1
      · exact h4 k (by omega) hlt
    · exact ⟨le_rfl, id, id, fun k h1 h2 => by omega⟩

theorem take_run {n : Nat} (hroom : pos + n ≤ input.length)
    (hsame : ∀ k < n, byteAt input (pos + k) = b) : input.take (pos + n) = input.take pos ++ replicate n b := by
  induction n with
  | zero => simp
  | succ n ih =>
    rw [← Nat.add_assoc, take_succ_byteAt (by omega), ih (by omega) fun k hk => hsame k (by omega),
      hsame n (by omega), append_assoc, ← replicate_succ']

theorem rleDecode_plain (hb : b ≠ bcdcRleEscape)
    (hroom : out.length < osize) : rleDecode osize (b :: rest) out = rleDecode osize rest (out ++ [b]) := by
  match rest with
  | [] => simp [rleDecode, hb, hroom]
  | [_] => simp [rleDecode, hb, hroom]
  | _ :: _ :: _ => simp [rleDecode, hb, hroom]

theorem rleDecode_escape (hroom : out.length < osize) :
    rleDecode osize (bcdcRleEscape :: bcdcRleEscape :: rest) out = rleDecode osize rest (out ++ [bcdcRleEscape]) := by
  match rest with
  | [] => simp [rleDecode, hroom]
  | _ :: _ => simp [rleDecode, hroom]

theorem rleDecode_run {run : UInt8} (hb : b ≠ bcdcRleEscape) (hroom : out.length + run.toNat ≤ osize)
    (hrun : 0 < run.toNat) :
    rleDecode osize (bcdcRleEscape :: b :: run :: rest) out = rleDecode osize rest (out ++ replicate run.toNat b) := by
  have hlt : out.length < osize := by omega
  have hmin : min run.toNat (osize - out.length) = run.toNat := by omega
  simp [rleDecode, hb, hlt, hmin]

/-- No three escape bytes in a row. -/
def EscapeFree (input : List UInt8) : Prop :=
  ∀ i, i + 3 ≤ input.length → ¬ (byteAt input i = bcdcRleEscape ∧ byteAt input (i + 1) = bcdcRleEscape ∧
    byteAt input (i + 2) = bcdcRleEscape)

theorem rleLoop_decode (hfree : EscapeFree input) (n inPos : Nat) (out : List UInt8) (hpos : inPos ≤ input.length) :
    (rleLoop input n inPos out).1 ≤ input.length ∧
    ∃ toks, (rleLoop input n inPos out).2 = out ++ toks ∧
      ∀ more, rleDecode input.length (toks ++ more) (input.take inPos) =
        rleDecode input.length more (input.take (rleLoop input n inPos out).1) := by
  induction n generalizing inPos out with
  | zero => exact ⟨hpos, [], by simp [rleLoop], fun _ => rfl⟩
  | succ n ih =>
    have hlen : (input.take inPos).length = inPos := length_take_of_le hpos
    have hstop : ∃ toks, out = out ++ toks ∧ ∀ more,
        rleDecode input.length (toks ++ more) (input.take inPos) =
          rleDecode input.length more (input.take inPos) := ⟨[], by simp, fun _ => rfl⟩
    rw [rleLoop]
    split
    · rename_i hmore
      simp only
      obtain ⟨hge, h255, hroom, hsame⟩ := runLength_spec input inPos (byteAt input inPos) 255 1
      generalize runLength input inPos (byteAt input inPos) 255 1 = run at hge h255 hroom hsame
      have h255 := h255 (by decide)
      have hroom := hroom (by omega)
      split
      · rename_i hrun
        unfold bcdcRleMinRun at hrun
        split
        · exact ⟨hpos, hstop⟩
        have hall : ∀ k < run, byteAt input (inPos + k) = byteAt input inPos := by
          intro k hk
          by_cases hk0 : k = 0
          · rw [hk0, Nat.add_zero]
          · exact hsame k (by omega) hk
        have hb : byteAt input inPos ≠ bcdcRleEscape := by
          intro hesc
          refine hfree inPos (by omega) ⟨hesc, ?_, ?_⟩
          · rw [hall 1 (by omega), hesc]
          · rw [hall 2 (by omega), hesc]
        have hnat : (UInt8.ofNat run).toNat = run := UInt8.toNat_ofNat_of_lt' (Nat.lt_succ_of_le h255)
        obtain ⟨hle, toks, hout, hdec⟩ :=
          ih (inPos + run) (out ++ [bcdcRleEscape, byteAt input inPos, .ofNat run]) hroom
        refine ⟨hle, _, by rw [hout, append_assoc], fun more => ?_⟩
        rw [append_assoc, cons_append, cons_append, cons_append, nil_append,
          rleDecode_run hb (by omega) (by omega), hnat, ← take_run hroom hall, hdec more]
      · split
        · rename_i hesc
          split
          · exact ⟨hpos, hstop⟩
          obtain ⟨hle, toks, hout, hdec⟩ := ih (inPos + 1) (out ++ [bcdcRleEscape, bcdcRleEscape]) hmore.1
          refine ⟨hle, _, by rw [hout, append_assoc], fun more => ?_⟩
          rw [append_assoc, cons_append, cons_append, nil_append, rleDecode_escape (by omega),
            ← hdec more, take_succ_byteAt hmore.1, hesc]
        · rename_i hesc
          split
          · exact ⟨hpos, hstop⟩
          · obtain ⟨hle, toks, hout, hdec⟩ := ih (inPos + 1) (out ++ [byteAt input inPos]) hmore.1
            refine ⟨hle, byteAt input inPos :: toks, by rw [hout, append_assoc]; rfl, fun more => ?_⟩
            rw [cons_append, rleDecode_plain hesc (by omega), ← take_succ_byteAt hmore.1, hdec more]
    · exact ⟨hpos, hstop⟩

theorem rleDecode_compress {cdata : List UInt8} (hfree : EscapeFree input)
    (h : bcdcRleCompress input = some cdata) : rleDecode input.length cdata [] = some input := by
  unfold bcdcRleCompress at h
  split at h
  · cases h
  simp only at h
  obtain ⟨hle, toks, hout, hdec⟩ := rleLoop_decode hfree input.length 0 [] (Nat.zero_le _)
  split at h
  · cases h
  cases h
  have hall := hdec []
  rw [append_nil, take_zero, take_of_length_le (by omega)] at hall
  rw [hout, nil_append, hall, rleDecode]

/-! ## Runs -/

inductive BcdcOp where
  | createDictionary (tagId : UInt16) (now : UInt64) (mem : Bool)
  | evictDictionary (id : Nat)
  | compress (kmalloc : Option (Nat → Int)) (now : UInt64) (input : List UInt8) (type : UInt8) (id : Nat)

/-- A frame that was produced, with the bytes and the dictionary id it was made from. -/
structure BcdcRecord where
  frame : BcdcFrame
  input : List UInt8
  id : Nat

structure BcdcRun where
  state : BcdcState
  records : List BcdcRecord := []

open BcdcRun

def BcdcRun.step (r : BcdcRun) : BcdcOp → BcdcRun
  | .createDictionary tagId now mem => { r with state := (bcdcCreateDictionary r.state tagId now mem).1 }
  | .evictDictionary id => { r with state := (bcdcEvictDictionary r.state id).1 }
  | .compress kmalloc now input type id =>
    match bcdcCompress r.state kmalloc now input type id with
    | (s, none) => { r with state := s }
    | (s, some frame) => { state := s, records := ⟨frame, input, id⟩ :: r.records }

def BcdcRun.run (now : UInt64) (ops : List BcdcOp) : BcdcRun :=
  ops.foldl step { state := bcdcInit now }

/-- Every frame of the run is read back as the bytes it was made from, or not at all. -/
def BcdcRun.NeverWrong (r : BcdcRun) : Prop :=
  ∀ rec ∈ r.records, bcdcDecompress r.state rec.frame rec.id = none ∨
    bcdcDecompress r.state rec.frame rec.id = some rec.input

/-- The block is stored, because its type has no encoder or the encoder does not shorten it, or the encoder's tokens
cannot be mistaken: no three escape bytes in a row for run lengths; for Lempel-Ziv bytes below `0x80`, no three of
which are in reach in the dictionary. -/
def BcdcState.readable (s : BcdcState) : BcdcOp → Prop
  | .compress kmalloc _ input type id =>
    ((bcdcEncode kmalloc type input ((activeDict s id).map (·.data))).filter fun c => c.length < input.length) = none ∨
    (type = bcdcTypeRle ∧ EscapeFree input) ∨
    (type = bcdcTypeLz ∧ (∀ b ∈ input, b < 0x80) ∧ ∀ d ∈ (activeDict s id).map (·.data), Unmatched input d)
  | _ => True

def BcdcRun.allReadable (r : BcdcRun) : List BcdcOp → Prop
  | [] => True
  | op :: ops => r.state.readable op ∧ (r.step op).allReadable ops

/-- A frame that is read back right in every state and under every id. -/
def BcdcFrame.Reads (f : BcdcFrame) (input : List UInt8) : Prop :=
  ∀ s id, bcdcDecompress s f id = some input

/-- The frame with the given data and a right checksum. -/
def frameOf (input : List UInt8) (type : UInt8) (compressedSize : Nat) (cdata : List UInt8) (id : Nat) : BcdcFrame :=
  { magic := bcdcMagic, version := bcdcVersion, compressionType := type, flags := 0
    originalSize := input.length, compressedSize, checksum := bcdcComputeChecksum cdata
    originalChecksum := bcdcComputeChecksum input, dictionaryId := .ofNat id, cdata }

theorem stored_reads (input : List UInt8) (id : Nat) : (frameOf input bcdcTypeNone 0 input id).Reads input := by
  intro s id'
  simp [bcdcDecompress, frameOf]

theorem coded_reads {cdata : List UInt8} {type : UInt8} (hnil : cdata ≠ []) (id : Nat)
    (hlz : type = bcdcTypeLz → ∀ dict, lzDecode dict input.length cdata [] = some input)
    (hrle : type = bcdcTypeRle → rleDecode input.length cdata [] = some input)
    (htype : type = bcdcTypeLz ∨ type = bcdcTypeRle) : (frameOf input type cdata.length cdata id).Reads input := by
  intro s id'
  have hlen : cdata.length ≠ 0 := by simpa using hnil
  unfold bcdcDecompress frameOf
  simp only [ne_eq, not_true_eq_false, or_self, if_false, hlen, take_length]
  rcases htype with rfl | rfl
  · rw [if_neg (by decide), if_pos rfl, if_neg hnil]
    exact hlz rfl _
  · rw [if_neg (by decide), if_neg (by decide), if_pos rfl, if_neg hnil]
    exact hrle rfl

theorem compress_reads {s s' : BcdcState} {kmalloc : Option (Nat → Int)} {now : UInt64} {type : UInt8} {id : Nat}
    {frame : BcdcFrame} (hread : s.readable (.compress kmalloc now input type id))
    (h : bcdcCompress s kmalloc now input type id = (s', some frame)) : frame.Reads input := by
  unfold bcdcCompress at h
  split at h
  · cases h
  rename_i hsize
  have hdata : ((activeDict s id).map fun d => { d with usageCount := d.usageCount + 1, lastUsed := now }).map
      (fun d => d.data) = (activeDict s id).map fun d => d.data := by
    rw [Option.map_map]
    rfl
  simp only at h
  rw [hdata] at h
  split at h
  · cases h
    exact stored_reads input id
  rename_i cdata hcdata
  have hframe : frame = frameOf input type cdata.length cdata id := by
    simp only [Prod.mk.injEq, Option.some.injEq] at h
    exact h.2.symm
  rw [hframe]
  have henc : bcdcEncode kmalloc type input ((activeDict s id).map fun d => d.data) = some cdata :=
    (Option.filter_eq_some_iff.mp hcdata).1
  have hne : input ≠ [] := by
    intro hnil
    exact hsize (.inl (by rw [hnil]; rfl))
  rcases hread with hstored | ⟨rfl, hfree⟩ | ⟨rfl, hascii, hdict⟩
  · cases hstored.symm.trans hcdata
  · rw [bcdcEncode, if_neg (by decide), if_pos rfl] at henc
    have hdec := rleDecode_compress hfree henc
    refine coded_reads (fun hnil => hne ?_) id (fun ht => absurd ht (by decide)) (fun _ => hdec) (.inr rfl)
    rw [hnil, rleDecode, Option.some.injEq] at hdec
    exact hdec.symm
  · rw [bcdcEncode, if_pos rfl] at henc
    have hdec := lzDecode_compress hdict (fun b hb => and_high_of_lt (hascii b hb)) henc
    refine coded_reads (fun hnil => hne ?_) id (fun _ => hdec) (fun ht => absurd ht (by decide)) (.inl rfl)
    have hdec := hdec none
    rw [hnil, lzDecode, Option.some.injEq] at hdec
    exact hdec.symm

theorem BcdcRun.reads_step {r : BcdcRun} (h : ∀ rec ∈ r.records, rec.frame.Reads rec.input) (op : BcdcOp)
    (hread : r.state.readable op) : ∀ rec ∈ (r.step op).records, rec.frame.Reads rec.input := by
  cases op
  case createDictionary => exact h
  case evictDictionary => exact h
  case compress kmalloc now input type id =>
    rw [step]
    split
    · exact h
    rename_i s frame hcomp
    intro rec hrec
    rcases mem_cons.mp hrec with rfl | hrec
    · exact compress_reads hread hcomp
    · exact h rec hrec

theorem BcdcRun.reads_run {r : BcdcRun} {ops : List BcdcOp} (h : ∀ rec ∈ r.records, rec.frame.Reads rec.input)
    (hread : r.allReadable ops) : ∀ rec ∈ (ops.foldl step r).records, rec.frame.Reads rec.input := by
  induction ops generalizing r with
  | nil => exact h
  | cons op ops ih => exact ih (reads_step h op hread.1) hread.2

/-- When every compression is of a block that the decoder can read, no frame is ever read back wrong. -/
theorem bcdc_never_wrong (now : UInt64) (ops : List BcdcOp)
    (hread : allReadable { state := bcdcInit now } ops) : (run now ops).NeverWrong := by
  have hreads := reads_run (r := { state := bcdcInit now }) (fun _ hrec => (nomatch hrec)) hread
  exact fun rec hrec => .inr (hreads rec hrec _ _)

/-- Ten equal bytes in a run under a dictionary of its own, and a text with a repetition under the first dictionary,
which is still all zeros. -/
def readableOps : List BcdcOp :=
  [.createDictionary 7 0 true, .compress none 1 (replicate 10 0xFF) bcdcTypeRle 1, .evictDictionary 1,
    .compress (some fun _ => 0) 2 [1, 2, 3, 4, 5, 1, 2, 3, 4, 5] bcdcTypeLz 0]

theorem escapeFree_readableOps : EscapeFree (replicate 10 0xFF) := by
  rintro i hi ⟨h, -, -⟩
  rw [byteAt, getD_eq_getElem _ _ (by omega), getElem_replicate] at h
  exact absurd h (by decide)

theorem unmatched_zeros (h : ∀ b ∈ input, b ≠ 0) (n : Nat) :
    Unmatched input (replicate n 0) := by
  rintro i p hi hp - ⟨h0, -, -⟩
  rw [length_replicate] at hp
  have hz : byteAt (replicate n 0) p = 0 := by
    rw [byteAt, getD_eq_getElem _ _ (by rw [length_replicate]; omega), getElem_replicate]
  rw [hz, byteAt, getD_eq_getElem _ _ (by omega)] at h0
  exact h _ (getElem_mem _) h0.symm

theorem bcdc_never_wrong_readableOps :
    allReadable { state := bcdcInit 0 } readableOps ∧ (run 0 readableOps).NeverWrong := by
  have hread : allReadable { state := bcdcInit 0 } readableOps := by
    refine ⟨trivial, .inr (.inl ⟨rfl, escapeFree_readableOps⟩), trivial,
      .inr (.inr ⟨rfl, by decide +kernel, ?_⟩), trivial⟩
    intro d hd
    obtain rfl : replicate bcdcDefaultDictSize 0 = d := Option.some.inj hd
    exact unmatched_zeros (by decide +kernel) _
  exact ⟨hread, bcdc_never_wrong 0 readableOps hread⟩

/-- One block of four escape bytes under the run-length encoder. -/
def escapeOps : List BcdcOp :=
  [.compress none 0 [0xFE, 0xFE, 0xFE, 0xFE] bcdcTypeRle 0]

/-- They are coded as a run, which the decoder takes for one of them and a byte `4`. -/
theorem bcdc_escapes_wrong :
    (run 0 escapeOps).records.map (fun rec =>
      (rec.input, bcdcDecompress (run 0 escapeOps).state rec.frame rec.id)) =
        [([0xFE, 0xFE, 0xFE, 0xFE], some [0xFE, 4])] ∧
      ¬ (run 0 escapeOps).NeverWrong := by
  have hread : (run 0 escapeOps).records.map (fun rec =>
      (rec.input, bcdcDecompress (run 0 escapeOps).state rec.frame rec.id)) =
        [([0xFE, 0xFE, 0xFE, 0xFE], some [0xFE, 4])] := by decide +kernel
  refine ⟨hread, fun hnever => ?_⟩
  obtain ⟨rec, hrec, heq⟩ := mem_map.mp (hread ▸ mem_singleton_self _)
  rw [Prod.mk.injEq] at heq
  rcases hnever rec hrec with hnone | hsome
  · exact nomatch hnone.symm.trans heq.2
  · rw [heq.1, heq.2] at hsome
    exact absurd hsome (by decide)

end BoxOS.TagFS
