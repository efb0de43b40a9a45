import BoxOS.TagFS.BcdcRoundTrip

/-! # The Lempel-Ziv codec and its dictionary

`BcdcLZ_Decompress` with the dictionary `BcdcLZ_Compress` had. Matches in the dictionary and in the block come back; a
literal of `0x80` or more is read as the first byte of a match (`bcdcLz_roundtrip`). -/

namespace BoxOS.TagFS

open List

/-- `BcdcLZ_Decompress`, for `osize` bytes of output. -/
def bcdcLzDecompress (dict : Option (List UInt8)) (osize : Nat) (cdata : List UInt8) : Option (List UInt8) :=
  if cdata.length = 0 then none else lzDecode dict osize cdata []

/-! ## Matches in the dictionary -/

/-- A match within the dictionary, at its position `p`. -/
structure LzBest.InDict (input d : List UInt8) (inPos : Nat) (best : LzBest) (p : Nat) : Prop where
  max : best.length ≤ bcdcLzMaxMatch
  room : inPos + best.length ≤ input.length
  offset : best.offset = inPos + (d.length - p)
  start : p < d.length
  stop : p + best.length ≤ d.length
  same : ∀ k < best.length, byteAt d (p + k) = byteAt input (inPos + k)

variable {input d : List UInt8} {w w' : BcdcLzWork}

theorem dictLoop_sound {inPos : Nat} (hpos : inPos ≤ input.length) (n p : Nat) (best : LzBest) (hp : p + n ≤ d.length)
    (h : best.Good input inPos ∨ ∃ q, best.InDict input d inPos q) :
    (dictLoop input d inPos n p best).Good input inPos ∨ ∃ q,
    (dictLoop input d inPos n p best).InDict input d inPos q := by
  induction n generalizing p best with
  | zero => exact h
  | succ n ih =>
    rw [dictLoop]
    split
    · exact ih (p + 1) best (by omega) h
    simp only
    split
    · exact ih (p + 1) best (by omega) h
    generalize hcap : min (d.length - p) (min (input.length - inPos) bcdcLzMaxMatch) = cap
    obtain ⟨-, hle, hsame⟩ := matchLength_spec d input p inPos cap cap 0
    generalize matchLength d input p inPos cap cap 0 = len at hle hsame
    have hle := hle (Nat.zero_le _)
    have hfound : LzBest.InDict input d inPos ⟨len, inPos + (d.length - p)⟩ p :=
      ⟨by simp only; omega, by simp only; omega, rfl, by omega, by simp only; omega,
        fun k hk => hsame k (Nat.zero_le _) hk⟩
    split
    · split
      · exact .inr ⟨p, hfound⟩
      · exact ih (p + 1) _ (by omega) (.inr ⟨p, hfound⟩)
    · exact ih (p + 1) best (by omega) h

theorem findBest_sound (dict : Option (List UInt8)) (w : BcdcLzWork) {inPos : Nat} (hpos : inPos ≤ input.length) :
    (findBest input dict w inPos).Good input inPos ∨ ∃ d, dict = some d ∧
    ∃ p, (findBest input dict w inPos).InDict input d inPos p :=
    by
  have hnone : LzBest.Good input inPos {} :=
    ⟨Nat.zero_le _, fun h => absurd h (by decide), Nat.zero_le _, hpos, fun k hk => absurd hk (Nat.not_lt_zero k)⟩
  have hchain := @chainLoop_good input w.chain inPos hpos 64 (w.head (bcdcLzHash input inPos)) {} hnone
  unfold findBest
  simp only
  split
  · exact .inl hchain
  rename_i d
  split
  · rename_i hsearch
    rcases dictLoop_sound (d := d) hpos (d.length - 1) 0 _ (by omega) (.inl hchain) with hgood | hdict
    · exact .inl hgood
    · exact .inr ⟨d, rfl, hdict⟩
  · exact .inl hchain

theorem copyDict_take {n src pos : Nat} (hsrc : src + n ≤ d.length) (hroom : pos + n ≤ input.length)
    (hsame : ∀ k < n, byteAt d (src + k) = byteAt input (pos + k)) :
    copyDict d input.length n src (input.take pos) = some (input.take (pos + n)) := by
  induction n generalizing src pos with
  | zero => rfl
  | succ n ih =>
    have hlen : (input.take pos).length = pos := length_take_of_le (by omega)
    have h0 := hsame 0 (by omega)
    simp only [Nat.add_zero] at h0
    rw [copyDict, hlen, if_pos (by omega), if_pos (by omega), h0, ← take_succ_byteAt (by omega),
      ih (by omega) (by omega)]
    · congr 2
      omega
    · intro k hk
      have := hsame (k + 1) (by omega)
      rw [show src + 1 + k = src + (k + 1) by omega, this]
      congr 1
      omega

theorem lzDecode_dictToken {more : List UInt8} {encLen offset pos p : Nat} (hlen : encLen < 256)
    (hmax : offset ≤ bcdcLzMaxOffset) (hoff : offset = pos + (d.length - p)) (hp : p < d.length)
    (hstop : p + (encLen + bcdcLzMinMatch) ≤ d.length) (hroom : pos + (encLen + bcdcLzMinMatch) ≤ input.length)
    (hsame : ∀ k < encLen + bcdcLzMinMatch, byteAt d (p + k) = byteAt input (pos + k)) :
    lzDecode (some d) input.length (lzToken encLen offset ++ more) (input.take pos) =
      lzDecode (some d) input.length more (input.take (pos + (encLen + bcdcLzMinMatch))) := by
  obtain ⟨token, lo, byte2, htok, hhigh, hml, hmo⟩ := lzToken_read hlen hmax
  have hl : (input.take pos).length = pos := length_take_of_le (by omega)
  have hmin : 0 < encLen + bcdcLzMinMatch := by
    unfold bcdcLzMinMatch
    omega
  have hsrc : d.length - (offset - pos) = p := by omega
  rw [htok, cons_append, cons_append, cons_append, nil_append, lzDecode, hl, if_pos (by omega),
    if_pos hhigh]
  simp only [hml, hmo]
  rw [if_neg (by omega), if_pos (by omega), if_neg (by omega), hsrc, copyDict_take hstop hroom hsame]

/-! ## The search only depends on the block -/

/-- Two encoders whose heads and chains agree on the positions `known` to both. -/
structure LzAgree (w w' : BcdcLzWork) (known : Nat → Prop) : Prop where
  head : ∀ h, w.head h = w'.head h
  heads : ∀ h, w.head h = -1 ∨ ∃ c : Nat, known c ∧ w.head h = c
  chain : ∀ c, known c → w.chain c = w'.chain c
  chains : ∀ c, known c → w.chain c = -1 ∨ ∃ c' : Nat, known c' ∧ w.chain c = c'

theorem LzAgree.insert {known : Nat → Prop} (h : LzAgree w w' known) (input : List UInt8) (pos : Nat) :
    LzAgree (bcdcLzChainInsert input w pos) (bcdcLzChainInsert input w' pos) fun c => c = pos ∨ known c := by
  have hmore : ∀ z : Int, (z = -1 ∨ ∃ c : Nat, known c ∧ z = c) → z = -1 ∨ ∃ c : Nat, (c = pos ∨ known c) ∧ z = c := by
    rintro z (hz | ⟨c, hc, hz⟩)
    · exact .inl hz
    · exact .inr ⟨c, .inr hc, hz⟩
  constructor
  · intro k
    simp only [bcdcLzChainInsert, Function.update_apply]
    split
    · rfl
    · exact h.head k
  · intro k
    simp only [bcdcLzChainInsert, Function.update_apply]
    split
    · exact .inr ⟨pos, .inl rfl, rfl⟩
    · exact hmore _ (h.heads k)
  · intro c hc
    simp only [bcdcLzChainInsert, Function.update_apply]
    split
    · exact h.head _
    · rename_i hne
      exact h.chain c (hc.resolve_left hne)
  · intro c hc
    simp only [bcdcLzChainInsert, Function.update_apply]
    split
    · exact hmore _ (h.heads _)
    · rename_i hne
      exact hmore _ (h.chains c (hc.resolve_left hne))

/-- Some positions are known, the same to both. -/
def LzSame (w w' : BcdcLzWork) : Prop := ∃ known, LzAgree w w' known

theorem LzSame.insertLoop (h : LzSame w w') (input : List UInt8) (n pos : Nat) :
    LzSame (insertLoop input n pos w) (insertLoop input n pos w') := by
  induction n generalizing pos w w' with
  | zero => exact h
  | succ n ih =>
    obtain ⟨known, h⟩ := h
    simp only [BoxOS.TagFS.insertLoop]
    split
    · exact ih ⟨_, h.insert input pos⟩ (pos + 1)
    · exact ih ⟨known, h⟩ (pos + 1)

theorem LzAgree.chainLoop {known : Nat → Prop} (h : LzAgree w w' known) (input : List UInt8)
    (inPos budget : Nat) (cur : Int) (best : LzBest) (hcur : cur = -1 ∨ ∃ c : Nat, known c ∧ cur = c) :
    chainLoop input w.chain inPos budget cur best = chainLoop input w'.chain inPos budget cur best := by
  induction budget generalizing cur best with
  | zero => rfl
  | succ budget ih =>
    rcases hcur with rfl | ⟨c, hc, rfl⟩
    · simp only [BoxOS.TagFS.chainLoop]
      rfl
    · have hchain := h.chain c hc
      have hnext := fun best => ih (w'.chain c) best (hchain ▸ h.chains c hc)
      simp only [BoxOS.TagFS.chainLoop, Int.toNat_natCast, hchain, hnext]

theorem LzSame.findBest (h : LzSame w w') (input : List UInt8) (dict : Option (List UInt8))
    (inPos : Nat) : findBest input dict w inPos = findBest input dict w' inPos := by
  obtain ⟨known, h⟩ := h
  have hchain := h.chainLoop input inPos 64 (w.head (bcdcLzHash input inPos)) {} (h.heads _)
  rw [h.head] at hchain
  simp only [BoxOS.TagFS.findBest, h.head, hchain]

theorem insertLoop_add (input : List UInt8) (a b pos : Nat) (w : BcdcLzWork) :
    insertLoop input (a + b) pos w = insertLoop input b (pos + a) (insertLoop input a pos w) := by
  induction a generalizing pos w with
  | zero => rw [Nat.zero_add, Nat.add_zero, insertLoop]
  | succ a ih =>
    rw [show a + 1 + b = (a + b) + 1 by omega, insertLoop, ih, insertLoop]
    congr 1
    omega

/-! ## The encoder's way through a block -/

/-- The heads and chains when the encoder comes to a position: every position before it was inserted. -/
def lzWorkAt (input : List UInt8) (i : Nat) : BcdcLzWork := insertLoop input i 0 ⟨fun _ => -1, fun _ => -1⟩

/-- The match the encoder finds at a position. -/
def bestAt (input : List UInt8) (dict : Option (List UInt8)) (i : Nat) : LzBest :=
  findBest input dict (lzWorkAt input i) i

/-- The positions the encoder comes to. -/
inductive Visited (input : List UInt8) (dict : Option (List UInt8)) : Nat → Prop where
  | start : Visited input dict 0
  | matched {i : Nat} : Visited input dict i → i + 3 ≤ input.length → (bestAt input dict i).Taken →
      Visited input dict (i + (bestAt input dict i).length)
  | literal {i : Nat} : Visited input dict i → i + 3 ≤ input.length → ¬ (bestAt input dict i).Taken →
      Visited input dict (i + 1)

/-- Every byte the encoder writes as it stands is below `0x80`: those where it finds no match, and the last two. -/
def LiteralsPlain (input : List UInt8) (dict : Option (List UInt8)) : Prop :=
  ∀ i, Visited input dict i →
    (i + 3 ≤ input.length → ¬ (bestAt input dict i).Taken → byteAt input i < 0x80) ∧
    (input.length < i + 3 → ∀ j, i ≤ j → j < input.length → byteAt input j < 0x80)

variable {dict : Option (List UInt8)}

/-- The token of a match is read back as the bytes it stands for. -/
theorem lzDecode_best {pos : Nat} (hpos : pos ≤ input.length) (htaken : (findBest input dict w pos).Taken) :
    (findBest input dict w pos).length ≤ bcdcLzMaxMatch ∧ pos + (findBest input dict w pos).length ≤ input.length ∧
    ∀ more, lzDecode dict input.length
      (lzToken ((findBest input dict w pos).length - bcdcLzMinMatch) (findBest input dict w pos).offset ++ more)
      (input.take pos) =
      lzDecode dict input.length more (input.take (pos + (findBest input dict w pos).length)) := by
  have hsound := findBest_sound dict w hpos
  generalize findBest input dict w pos = best at htaken hsound
  have hback : best.length - bcdcLzMinMatch + bcdcLzMinMatch = best.length := Nat.sub_add_cancel htaken.1
  rcases hsound with hgood | ⟨d, rfl, p, hdict⟩
  · exact ⟨hgood.max, hgood.room, hgood.decode htaken dict⟩
  refine ⟨hdict.max, hdict.room, fun more => ?_⟩
  have := @lzDecode_dictToken input d more _ _ pos p (LzBest.sub_lt hdict.max) htaken.2.2 hdict.offset hdict.start
    (by rw [hback]; exact hdict.stop) (by rw [hback]; exact hdict.room) (by rw [hback]; exact hdict.same)
  rwa [hback] at this

/-- What the main loop writes is read back, with the same dictionary, as the bytes it consumed. -/
theorem lzLoop_reads (hplain : LiteralsPlain input dict) (n : Nat) (w : BcdcLzWork)
    (hsame : LzSame w (lzWorkAt input 0)) :
    (lzLoop input dict n 0 [] w).1 ≤ input.length ∧
    ∃ toks, (lzLoop input dict n 0 [] w).2 = [] ++ toks ∧
      ∀ more, lzDecode dict input.length (toks ++ more) (input.take 0) =
        lzDecode dict input.length more (input.take (lzLoop input dict n 0 [] w).1) := by
  refine lzLoop_along (I := fun pos w => Visited input dict pos ∧ LzSame w (lzWorkAt input pos)) ?_ ?_ ?_ n 0 [] w
    (Nat.zero_le _) ⟨.start, hsame⟩
  · rintro pos w ⟨hvisit, hsame⟩ hthree htaken
    obtain ⟨hmax, hroom, hread⟩ := lzDecode_best (by omega) htaken
    have hbest : findBest input dict w pos = bestAt input dict pos := hsame.findBest input dict pos
    refine ⟨hmax, hroom, hread, ?_⟩
    rw [hbest] at htaken ⊢
    refine ⟨hvisit.matched hthree htaken, ?_⟩
    rw [lzWorkAt, insertLoop_add, Nat.zero_add]
    exact hsame.insertLoop input _ _
  · rintro pos w ⟨hvisit, hsame⟩ hthree htaken
    have hbest : findBest input dict w pos = bestAt input dict pos := hsame.findBest input dict pos
    rw [hbest] at htaken
    have hone : bcdcLzChainInsert input w pos = insertLoop input 1 pos w := by
      rw [insertLoop, insertLoop, if_pos (by omega)]
    refine ⟨and_high_of_lt ((hplain pos hvisit).1 hthree htaken), hvisit.literal hthree htaken, ?_⟩
    rw [lzWorkAt, insertLoop_add, Nat.zero_add, hone]
    exact hsame.insertLoop input _ _
  · rintro pos w ⟨hvisit, -⟩ hlast b hb
    obtain ⟨k, hk, rfl⟩ := getElem_of_mem hb
    rw [length_drop] at hk
    have hbyte := (hplain pos hvisit).2 hlast (pos + k) (by omega) (by omega)
    rw [byteAt, getD_eq_getElem _ _ (by omega)] at hbyte
    rw [getElem_drop]
    exact and_high_of_lt hbyte

/-! ## What can be read back at all -/

theorem lt_of_and_high {b : UInt8} (h : b &&& 0x80 = 0) : b < 0x80 := by
  have hall : ∀ n < 256, UInt8.ofNat n &&& 0x80 = 0 → n < 128 := by decide +kernel
  have hb := hall b.toNat (UInt8.toNat_lt b) (by rwa [UInt8.ofNat_toNat])
  exact hb

theorem byteAt_lt {l : List UInt8} (h : ∀ b ∈ l, b < 0x80) (i : Nat) : byteAt l i < 0x80 := by
  unfold byteAt
  rw [getD_eq_getElem?_getD]
  cases hi : l[i]? with
  | none => decide
  | some b => exact h b (mem_of_getElem? hi)

theorem forall_mem_concat {l : List UInt8} (h : ∀ b ∈ l, b < 0x80) {a : UInt8} (ha : a < 0x80) :
    ∀ b ∈ l ++ [a], b < 0x80 := by
  intro b hb
  rcases mem_append.mp hb with hb | hb
  · exact h b hb
  · rwa [mem_singleton.mp hb]

theorem copyBack_plain (offset osize n : Nat) {out : List UInt8} (h : ∀ b ∈ out, b < 0x80) :
    ∀ b ∈ copyBack offset osize n out, b < 0x80 := by
  induction n generalizing out with
  | zero => exact h
  | succ n ih =>
    rw [copyBack]
    split
    · exact ih (forall_mem_concat h (byteAt_lt h _))
    · exact h

theorem copyDict_plain (hd : ∀ b ∈ d, b < 0x80) (osize n src : Nat) {out r : List UInt8}
    (h : ∀ b ∈ out, b < 0x80) (hr : copyDict d osize n src out = some r) : ∀ b ∈ r, b < 0x80 := by
  induction n generalizing src out with
  | zero =>
    cases hr
    exact h
  | succ n ih =>
    rw [copyDict] at hr
    split at hr
    · split at hr
      · exact ih _ (forall_mem_concat h (byteAt_lt hd _)) hr
      · split at hr
        · cases hr
        · exact ih _ (forall_mem_concat h (byteAt_lt h _)) hr
    · cases hr
      exact h

theorem lzDecode_plain (hdict : ∀ d ∈ dict, ∀ b ∈ d, b < 0x80) {osize : Nat}
    {s out r : List UInt8} (h : ∀ b ∈ out, b < 0x80) (hr : lzDecode dict osize s out = some r) : ∀ b ∈ r, b < 0x80 := by
  fun_induction lzDecode dict osize s out with
  | case1 out =>
    cases hr
    exact h
  | case2 | case3 | case4 | case5 | case8 => cases hr
  | case6 =>
    rename_i d hsome _ out' hcopy ih
    subst hsome
    exact ih (copyDict_plain (hdict d rfl) osize _ _ h hcopy) hr
  | case7 =>
    rename_i ih
    exact ih (copyBack_plain _ osize _ h) hr
  | case9 token _ _ _ htoken ih => exact ih (forall_mem_concat h (lt_of_and_high (not_not.mp htoken))) hr
  | case10 =>
    cases hr
    exact h

/-- **Round trip.** With the dictionary it was packed with, a block comes back when every byte written as it stands is
below `0x80`; and, unless the dictionary has such bytes, only then. -/
theorem bcdcLz_roundtrip {fresh : Nat → Int} {input cdata : List UInt8} {dict : Option (List UInt8)}
    (h : bcdcLzCompress (some fresh) input dict = some cdata) :
    (LiteralsPlain input dict → bcdcLzDecompress dict input.length cdata = some input) ∧
    ((∀ d ∈ dict, ∀ b ∈ d, b < 0x80) → bcdcLzDecompress dict input.length cdata = some input →
    LiteralsPlain input dict) := by
  have hne : input.length ≠ 0 := by
    intro hzero
    rw [bcdcLzCompress, if_pos hzero] at h
    exact nomatch h
  rw [bcdcLzCompress, if_neg hne] at h
  simp only at h
  split at h
  · exact nomatch h
  rename_i hdone
  cases h
  set out := (lzLoop input dict input.length 0 [] ⟨fun _ => -1, fresh⟩).2 with hout
  constructor
  · intro hplain
    have hstart : LzSame ⟨fun _ => -1, fresh⟩ (lzWorkAt input 0) := by
      refine ⟨fun _ => False, fun _ => rfl, fun _ => .inl rfl, ?_, ?_⟩
      · exact fun c hc => hc.elim
      · exact fun c hc => hc.elim
    obtain ⟨hle, toks, htoks, hdec⟩ := lzLoop_reads hplain input.length ⟨fun _ => -1, fresh⟩ hstart
    have hall := hdec []
    rw [append_nil, take_zero, take_of_length_le (by omega), lzDecode] at hall
    rw [nil_append, ← hout] at htoks
    rw [← htoks] at hall
    have hcdata : out.length ≠ 0 := by
      intro hzero
      rw [length_eq_zero_iff.mp hzero, lzDecode, Option.some.injEq] at hall
      exact hne (by rw [← hall]; rfl)
    rw [bcdcLzDecompress, if_neg hcdata, hall]
  · intro hdict hback
    have hinput : ∀ b ∈ input, b < 0x80 := by
      rw [bcdcLzDecompress] at hback
      split at hback
      · exact nomatch hback
      · exact lzDecode_plain hdict (by simp) hback
    intro i _
    exact ⟨fun _ _ => byteAt_lt hinput i, fun _ j _ _ => byteAt_lt hinput j⟩

/-- The encoder's way through a block whose last three bytes stand in the dictionary. -/
theorem literalsPlain_dict : LiteralsPlain [0x43, 0x41, 0x80, 0x42] (some [0x41, 0x80, 0x42]) := by
  have hfirst : ¬ (bestAt [0x43, 0x41, 0x80, 0x42] (some [0x41, 0x80, 0x42]) 0).Taken := by decide +kernel
  have hsecond : bestAt [0x43, 0x41, 0x80, 0x42] (some [0x41, 0x80, 0x42]) 1 = ⟨3, 4⟩ := by decide +kernel
  have hway : ∀ i, Visited [0x43, 0x41, 0x80, 0x42] (some [0x41, 0x80, 0x42]) i → i = 0 ∨ i = 1 ∨ i = 4 := by
    intro i hi
    induction hi with
    | start => exact .inl rfl
    | matched _ hroom htaken ih =>
      rcases ih with rfl | rfl | rfl
      · exact absurd htaken hfirst
      · rw [hsecond]
        exact .inr (.inr rfl)
      · exact absurd hroom (by decide)
    | literal _ hroom htaken ih =>
      rcases ih with rfl | rfl | rfl
      · exact .inr (.inl rfl)
      · rw [hsecond] at htaken
        exact absurd (by decide) htaken
      · exact absurd hroom (by decide)
  intro i hi
  rcases hway i hi with rfl | rfl | rfl
  · exact ⟨fun _ _ => by decide, fun h => absurd h (by decide)⟩
  · rw [hsecond]
    exact ⟨fun _ h => absurd (by decide) h, fun h => absurd h (by decide)⟩
  · exact ⟨fun h => absurd h (by decide), fun _ j hj hlt => absurd hlt (by simp; omega)⟩

theorem bcdcLz_roundtrip_dict :
    bcdcLzDecompress (some [0x41, 0x80, 0x42]) 4 [0x43, 0x80, 0x04, 0x00] = some [0x43, 0x41, 0x80, 0x42] ∧
    LiteralsPlain [0x43] none :=
  ⟨(@bcdcLz_roundtrip (fun _ => -1) _ _ _ (by decide +kernel)).1 literalsPlain_dict,
    (@bcdcLz_roundtrip (fun _ => -1) _ [0x43] _ (by decide +kernel)).2 (by simp) (by decide +kernel)⟩

/-- A byte of `0x80` is packed as it stands, and cannot be read back. -/
theorem bcdcLz_high_literal : ∃ (fresh : Nat → Int) (input cdata : List UInt8) (dict : Option (List UInt8)),
    0 < input.length ∧ input.length ≤ bcdcBlockSize ∧ bcdcLzCompress (some fresh) input dict = some cdata ∧
    bcdcLzDecompress dict input.length cdata ≠ some input :=
  ⟨fun _ => -1, [0x80], [0x80], none, by decide, by decide, by decide +kernel, by decide +kernel⟩

end BoxOS.TagFS
