import BoxOS.TagFS.BcdcRoundTrip

/-! # The run-length codec and its escape byte

A run of three or more escape bytes is coded as a run token, whose first two bytes the decoder reads as one escape byte.
It never finds its way back to the input, so the decoder undoes the encoder exactly on the inputs without such a run
(`bcdcRle_roundtrip`). -/

namespace BoxOS.TagFS

open List Option

/-- `BcdcRLE_Decompress`, with `osize` as the size of the output; `none` is an error. -/
def bcdcRleDecompress (osize : Nat) (cdata : List UInt8) : Option (List UInt8) :=
  if cdata = [] then none else rleDecode osize cdata []

/-! ## The code of an input -/

variable {input : List UInt8}

theorem runLength_stop {pos : Nat} {b : UInt8} (n len : Nat) (hfuel : 255 ≤ n + len)
    (hlt : runLength input pos b n len < 255) :
    ¬ (pos + runLength input pos b n len < input.length ∧ byteAt input (pos + runLength input pos b n len) = b) := by
  induction n generalizing len with
  | zero =>
    rw [runLength] at hlt
    omega
  | succ n ih =>
    rw [runLength] at hlt ⊢
    split at hlt
    · rename_i hcond
      rw [if_pos hcond]
      exact ih (len + 1) (by omega) hlt
    · rename_i hcond
      rw [if_neg hcond]
      exact fun h => hcond ⟨h.1, h.2, hlt⟩

/-- The run at a position, as the encoder counts it. -/
def runAt (input : List UInt8) (pos : Nat) : Nat :=
  runLength input pos (byteAt input pos) 255 1

section runs

variable {input : List UInt8} {pos : Nat}

theorem runAt_pos : 1 ≤ runAt input pos :=
  (runLength_spec input pos _ 255 1).1

theorem runAt_le : runAt input pos ≤ 255 :=
  (runLength_spec input pos _ 255 1).2.1 (by decide)

theorem runAt_room (h : pos < input.length) : pos + runAt input pos ≤ input.length :=
  (runLength_spec input pos _ 255 1).2.2.1 h

theorem runAt_same {k : Nat} (hk : k < runAt input pos) : byteAt input (pos + k) = byteAt input pos := by
  by_cases hk0 : k = 0
  · rw [hk0, Nat.add_zero]
  · exact (runLength_spec input pos _ 255 1).2.2.2 k (by omega) hk

theorem runAt_stop (hlt : runAt input pos < 255) (hroom : pos + runAt input pos < input.length) :
    byteAt input (pos + runAt input pos) ≠ byteAt input pos :=
  fun hsame => runLength_stop 255 1 (by decide) hlt ⟨hroom, hsame⟩

theorem three_le_runAt (hroom : pos + 2 < input.length) (h1 : byteAt input (pos + 1) = byteAt input pos)
    (h2 : byteAt input (pos + 2) = byteAt input pos) : 3 ≤ runAt input pos := by
  have hpos := @runAt_pos input pos
  by_contra hlt
  have hstop := @runAt_stop input pos (by omega) (by omega)
  rcases (show runAt input pos = 1 ∨ runAt input pos = 2 by omega) with hrun | hrun <;> rw [hrun] at hstop
  · exact hstop h1
  · exact hstop h2

end runs

/-- What the encoder makes of the input from a position on. -/
inductive RleCode (input : List UInt8) : Nat → List UInt8 → Prop where
  | done : RleCode input input.length []
  | run {i : Nat} {code : List UInt8} (hi : i < input.length) (hrun : bcdcRleMinRun ≤ runAt input i)
      (more : RleCode input (i + runAt input i) code) :
      RleCode input i (bcdcRleEscape :: byteAt input i :: .ofNat (runAt input i) :: code)
  | escape {i : Nat} {code : List UInt8} (hi : i < input.length) (hrun : runAt input i < bcdcRleMinRun)
      (hesc : byteAt input i = bcdcRleEscape) (more : RleCode input (i + 1) code) :
      RleCode input i (bcdcRleEscape :: bcdcRleEscape :: code)
  | plain {i : Nat} {code : List UInt8} (hi : i < input.length) (hrun : runAt input i < bcdcRleMinRun)
      (hesc : byteAt input i ≠ bcdcRleEscape) (more : RleCode input (i + 1) code) :
      RleCode input i (byteAt input i :: code)

theorem RleCode.of_end {i : Nat} (hi : i ≤ input.length) (hend : ¬ i < input.length)
    (out : List UInt8) : ∃ code, out = out ++ code ∧ RleCode input i code := by
  obtain rfl := Nat.le_antisymm hi (Nat.le_of_not_lt hend)
  exact ⟨[], by simp, .done⟩

theorem rleLoop_code (n i : Nat) (out : List UInt8) (hi : i ≤ input.length)
    (hall : ¬ (rleLoop input n i out).1 < input.length) :
    ∃ code, (rleLoop input n i out).2 = out ++ code ∧ RleCode input i code := by
  induction n generalizing i out with
  | zero => exact RleCode.of_end hi hall out
  | succ n ih =>
    rw [rleLoop] at hall ⊢
    by_cases hmore : i < input.length ∧ out.length < bcdcMaxCompressed
    · simp only [if_pos hmore, ← runAt.eq_1 input i] at hall ⊢
      by_cases hrun : bcdcRleMinRun ≤ runAt input i
      · simp only [if_pos hrun] at hall ⊢
        by_cases hfull : bcdcMaxCompressed < out.length + 3
        · rw [if_pos hfull] at hall
          exact absurd hmore.1 hall
        · rw [if_neg hfull] at hall ⊢
          obtain ⟨code, hout, hcode⟩ := ih _ _ (runAt_room hmore.1) hall
          exact ⟨_, by rw [hout, append_assoc]; rfl, .run hmore.1 hrun hcode⟩
      simp only [if_neg hrun] at hall ⊢
      by_cases hesc : byteAt input i = bcdcRleEscape
      · simp only [if_pos hesc] at hall ⊢
        by_cases hfull : bcdcMaxCompressed < out.length + 2
        · rw [if_pos hfull] at hall
          exact absurd hmore.1 hall
        · rw [if_neg hfull] at hall ⊢
          obtain ⟨code, hout, hcode⟩ := ih _ _ hmore.1 hall
          exact ⟨_, by rw [hout, append_assoc]; rfl, .escape hmore.1 (by omega) hesc hcode⟩
      simp only [if_neg hesc] at hall ⊢
      by_cases hfull : bcdcMaxCompressed < out.length + 1
      · rw [if_pos hfull] at hall
        exact absurd hmore.1 hall
      · rw [if_neg hfull] at hall ⊢
        obtain ⟨code, hout, hcode⟩ := ih _ _ hmore.1 hall
        exact ⟨_, by rw [hout, append_assoc]; rfl, .plain hmore.1 (by omega) hesc hcode⟩
    · rw [if_neg hmore] at hall ⊢
      exact RleCode.of_end hi hall out

/-! ## What the decoder makes of it -/

/-- With the first `o` bytes written, the decoder makes the rest of the input of the code. -/
def Decodes (input : List UInt8) (o : Nat) (code : List UInt8) : Prop :=
  rleDecode input.length code (input.take o) = some input

section decode

variable {input code : List UInt8} {o j : Nat} {b : UInt8}

theorem rleDecode_grows {osize : Nat} {code out res : List UInt8} (h : rleDecode osize code out = some res) :
    out <+: res := by
  fun_induction rleDecode osize code out with
  | case1 => exact some.inj h ▸ prefix_refl _
  | case2 => cases h
  | case3 _ _ _ ih => exact (prefix_append _ _).trans (ih h)
  | case4 => cases h
  | case5 _ _ _ _ _ _ ih => exact (prefix_append _ _).trans (ih h)
  | case6 _ _ _ _ _ ih => exact (prefix_append _ _).trans (ih h)
  | case7 => exact some.inj h ▸ prefix_refl _

theorem Decodes.byte (ho : o < input.length) {more : List UInt8}
    (h : rleDecode input.length code (input.take o ++ b :: more) = some input) : byteAt input o = b := by
  obtain ⟨rest, hrest⟩ := rleDecode_grows h
  rw [← hrest, byteAt, getD_eq_getElem?_getD, append_assoc,
    getElem?_append_right (by rw [length_take]; omega), length_take_of_le (by omega), Nat.sub_self]
  rfl

theorem Decodes.plain (ho : o < input.length) (hb : b ≠ bcdcRleEscape) (h : Decodes input o (b :: code)) :
    byteAt input o = b := by
  have hlen : (input.take o).length < input.length := by rw [length_take]; omega
  rw [Decodes, rleDecode_plain hb hlen] at h
  exact Decodes.byte ho h

theorem Decodes.escape (ho : o < input.length) (h : Decodes input o (bcdcRleEscape :: bcdcRleEscape :: code)) :
    byteAt input o = bcdcRleEscape ∧ Decodes input (o + 1) code := by
  have hlen : (input.take o).length < input.length := by rw [length_take]; omega
  rw [Decodes, rleDecode_escape hlen] at h
  have hbyte := Decodes.byte ho h
  exact ⟨hbyte, by rw [Decodes, take_succ_byteAt ho, hbyte]; exact h⟩

theorem Decodes.run (ho : o < input.length) (hb : b ≠ bcdcRleEscape) {run : UInt8}
    (h : Decodes input o (bcdcRleEscape :: b :: run :: code)) :
    run.toNat ≠ 0 ∧ byteAt input o = b ∨ run = 0 ∧ Decodes input o code := by
  have hlen : (input.take o).length = o := length_take_of_le (by omega)
  rw [Decodes, rleDecode, if_pos (by omega), if_pos rfl] at h
  simp only [if_neg hb, hlen] at h
  by_cases hrun : run.toNat = 0
  · rw [hrun, Nat.zero_min, replicate_zero, append_nil] at h
    exact .inr ⟨UInt8.toNat_inj.mp hrun, h⟩
  · obtain ⟨n, hn⟩ : ∃ n, min run.toNat (input.length - o) = n + 1 := ⟨_, (Nat.succ_pred (by omega)).symm⟩
    rw [hn, replicate_succ] at h
    exact .inl ⟨hrun, Decodes.byte ho h⟩

theorem Decodes.not_nil (ho : o < input.length) : ¬ Decodes input o [] := by
  intro h
  have hlen := congrArg List.length (some.inj ((rleDecode.eq_1 ..).symm.trans h))
  rw [length_take] at hlen
  omega

end decode

/-! ## Escape bytes -/

section escapes

variable {input code : List UInt8} {o j : Nat}

theorem RleCode.not_escape (h : RleCode input j code) (hj : j < input.length → byteAt input j ≠ bcdcRleEscape)
    (ho : o < input.length) (hesc : byteAt input o = bcdcRleEscape) : ¬ Decodes input o code := by
  intro hd
  cases h with
  | done => exact Decodes.not_nil ho hd
  | run hi hrun more =>
    rcases hd.run ho (hj hi) with ⟨-, hbyte⟩ | ⟨hzero, -⟩
    · exact hj hi (hbyte.symm.trans hesc)
    have hnat := congrArg UInt8.toNat hzero
    rw [UInt8.toNat_ofNat_of_lt' (Nat.lt_succ_of_le runAt_le)] at hnat
    have := @runAt_pos input j
    exact absurd hnat (by show ¬ runAt input j = 0; omega)
  | escape hi hrun hesc' more => exact hj hi hesc'
  | plain hi hrun hesc' more => exact hesc' ((hd.plain ho hesc').symm.trans hesc)

/-- A run of escape bytes whose code goes on for three bytes is one of 254. -/
theorem RleCode.escape_run (hesc : byteAt input j = bcdcRleEscape) (more : RleCode input (j + runAt input j) code)
    (ho : o + 2 < input.length) (h1 : byteAt input (o + 1) = bcdcRleEscape) (h2 : byteAt input (o + 2) = bcdcRleEscape)
    (hd : Decodes input o (bcdcRleEscape :: bcdcRleEscape :: .ofNat (runAt input j) :: code)) :
    runAt input j = 254 ∧ j + 256 ≤ input.length ∧
      ∃ code', RleCode input (j + 256) code' ∧ Decodes input (o + 1) code' := by
  obtain ⟨-, hd⟩ := hd.escape (by omega)
  -- the length of the run is read as a token
  have hlen :
    (UInt8.ofNat (runAt input j)).toNat = runAt input j := UInt8.toNat_ofNat_of_lt' (Nat.lt_succ_of_le runAt_le)
  have hfe : UInt8.ofNat (runAt input j) = bcdcRleEscape := by
    by_contra hne
    exact hne ((hd.plain (by omega) hne).symm.trans h1)
  have hrun254 : runAt input j = 254 := by rw [← hlen, hfe]; rfl
  rw [hfe] at hd
  rw [hrun254] at more
  have hstop : j + 254 < input.length → byteAt input (j + 254) ≠ bcdcRleEscape := fun hlt => by
    have := @runAt_stop input j (by omega) (by omega)
    rwa [hrun254, hesc] at this
  generalize hjj : j + 254 = jj at more hstop
  cases more with
  | done => exact absurd hd (by rw [Decodes, rleDecode, if_pos (by rw [length_take]; omega), if_pos rfl]; rintro ⟨⟩)
  | run hi hrun' more =>
    obtain ⟨-, hd⟩ := hd.escape (by omega)
    exact absurd ((hd.plain (by omega) (hstop hi)).symm.trans h2) (hstop hi)
  | escape hi hrun' hesc' more => exact absurd hesc' (hstop hi)
  | plain hi hrun' hesc' more =>
    generalize hk : jj + 1 = k at more
    have hnone : ¬ Decodes input (o + 1) [bcdcRleEscape, byteAt input jj] := by
      rw [Decodes, rleDecode, if_pos (by rw [length_take]; omega), if_pos rfl]
      simp only [if_neg hesc']
      rintro ⟨⟩
    have hzero : ∀ {run : UInt8} {code' : List UInt8},
        Decodes input (o + 1) (bcdcRleEscape :: byteAt input jj :: run :: code') →
        run = 0 ∧ Decodes input (o + 1) code' := fun hd => by
      rcases hd.run (by omega) hesc' with ⟨-, hbyte⟩ | hzero
      · exact absurd (hbyte.symm.trans h1) hesc'
      · exact hzero
    cases more with
    | done => exact absurd hd hnone
    | run | escape => exact absurd (hzero hd).1 (by decide)
    | @plain _ code' hi' hrun' hesc' more =>
      rw [show k + 1 = j + 256 by omega] at more
      exact ⟨hrun254, by omega, code', more, (hzero hd).2⟩

/-- How many escape bytes the code from a position can yield. -/
theorem RleCode.few_escapes (h : RleCode input j code) (hj : j ≤ input.length) {k : Nat} (hk : o + k ≤ input.length)
    (hesc : ∀ i < k, byteAt input (o + i) = bcdcRleEscape) (hd : Decodes input o code) :
    256 * k ≤ 512 + (input.length - j) := by
  induction k generalizing o j code with
  | zero => omega
  | succ k ih =>
    by_cases hsmall : k + 1 ≤ 2
    · omega
    have h0 := hesc 0 (by omega)
    have h1 := hesc 1 (by omega)
    have h2 := hesc 2 (by omega)
    have hbyte : j < input.length ∧ byteAt input j = bcdcRleEscape := by
      by_contra hno
      exact h.not_escape (fun hlt heq => hno ⟨hlt, heq⟩) (by omega) h0 hd
    cases h with
    | done => exact absurd hbyte.1 (Nat.lt_irrefl _)
    | plain hi hrun hesc' more => exact absurd hbyte.2 hesc'
    | run hi hrun more =>
      rw [hbyte.2] at hd
      obtain ⟨-, hroom, code', more', hd'⟩ := more.escape_run hbyte.2 (by omega) h1 h2 hd
      have := ih more' hroom (by omega) (fun i hi => by
        rw [show o + 1 + i = o + (i + 1) by omega]
        exact hesc (i + 1) (by omega)) hd'
      omega
    | escape hi hrun hesc' more =>
      -- one or two escape bytes and then another byte
      obtain ⟨-, hd⟩ := hd.escape (by omega)
      unfold bcdcRleMinRun at hrun
      have hnext : j + 1 < input.length ∧ byteAt input (j + 1) = bcdcRleEscape := by
        by_contra hno
        exact more.not_escape (fun hlt heq => hno ⟨hlt, heq⟩) (by omega) h1 hd
      have hthird : j + 2 < input.length → byteAt input (j + 2) ≠ bcdcRleEscape := fun hlt heq => by
        have := three_le_runAt hlt (hnext.2.trans hbyte.2.symm) (heq.trans hbyte.2.symm)
        omega
      generalize hjj : j + 1 = jj at more hnext
      cases more with
      | done => exact absurd hnext.1 (Nat.lt_irrefl _)
      | plain hi' hrun' hesc'' more => exact absurd hnext.2 hesc''
      | run hi' hrun' more =>
        unfold bcdcRleMinRun at hrun'
        have hroom := runAt_room hi'
        refine absurd ?_ (hthird (by omega))
        rw [show j + 2 = jj + 1 by omega, @runAt_same _ _ 1 (by omega), hnext.2]
      | escape hi' hrun' hesc'' more =>
        obtain ⟨-, hd⟩ := hd.escape (by omega)
        refine absurd hd (more.not_escape (fun hlt => ?_) (by omega) h2)
        rw [show jj + 1 = j + 2 by omega]
        exact hthird (by omega)

/-- An input of a block that is read back has no three escape bytes in a row. -/
theorem RleCode.escapeFree (h : RleCode input j code) (hsize : input.length ≤ bcdcBlockSize)
    (hd : Decodes input j code) : ∀ i, j ≤ i → i + 3 ≤ input.length → ¬ (byteAt input i = bcdcRleEscape ∧
    byteAt input (i + 1) = bcdcRleEscape ∧ byteAt input (i + 2) = bcdcRleEscape) := by
  induction h with
  | done => exact fun i hi hroom => by omega
  | @plain j code hj hrun hesc more ih =>
    have hlen : (input.take j).length < input.length := by rw [length_take]; omega
    have hd' : Decodes input (j + 1) code := by
      rw [Decodes, take_succ_byteAt hj, ← rleDecode_plain hesc hlen]
      exact hd
    intro i hi hroom hthree
    rcases Nat.eq_or_lt_of_le hi with rfl | hi
    · exact hesc hthree.1
    · exact ih hd' i hi hroom hthree
  | @escape j code hj hrun hesc more ih =>
    intro i hi hroom hthree
    rcases Nat.eq_or_lt_of_le hi with rfl | hi
    · unfold bcdcRleMinRun at hrun
      have := three_le_runAt (by omega) (hthree.2.1.trans hthree.1.symm) (hthree.2.2.trans hthree.1.symm)
      omega
    · exact ih (hd.escape hj).2 i hi hroom hthree
  | @run j code hj hrun more ih =>
    have hrun3 := hrun
    unfold bcdcRleMinRun at hrun3
    have hroom := runAt_room hj
    by_cases hesc : byteAt input j = bcdcRleEscape
    · -- the run cannot be read back
      have hsame : ∀ k, k < runAt input j → byteAt input (j + k) = bcdcRleEscape := fun k hk =>
        (runAt_same hk).trans hesc
      rw [hesc] at hd
      obtain ⟨hrun254, hroom', code', more', hd'⟩ :=
        more.escape_run hesc (by omega) (hsame 1 (by omega)) (hsame 2 (by omega)) hd
      have hfew := @few_escapes input code' (j + 1) (j + 256) more' hroom' 253 (by omega) (fun i hi => by
        rw [Nat.add_assoc]
        exact hsame (1 + i) (by omega)) hd'
      unfold bcdcBlockSize at hsize
      omega
    · have hd' : Decodes input (j + runAt input j) code := by
        have hlen : (input.take j).length = j := length_take_of_le (by omega)
        have hnat : (UInt8.ofNat (runAt input j)).toNat = runAt input j :=
          UInt8.toNat_ofNat_of_lt' (Nat.lt_succ_of_le runAt_le)
        rw [Decodes, take_run hroom fun k hk => runAt_same hk, ← hnat, ← rleDecode_run hesc (by omega) (by omega)]
        exact hd
      intro i hi hroom hthree
      by_cases hin : i < j + runAt input j
      · have := @runAt_same input j (i - j) (by omega)
        rw [show j + (i - j) = i by omega, hthree.1] at this
        exact hesc this.symm
      · exact ih hd' i (by omega) hroom hthree

end escapes

/-- **The run-length codec undoes itself exactly where no three escape bytes are in a row.** -/
theorem bcdcRle_roundtrip {input cdata : List UInt8} (hsize : input.length ≤ bcdcBlockSize)
    (hcode : bcdcRleCompress input = some cdata) :
    bcdcRleDecompress input.length cdata = some input ↔ EscapeFree input := by
  have hdec : bcdcRleDecompress input.length cdata = some input ↔ rleDecode input.length cdata [] = some input := by
    unfold bcdcRleDecompress
    split
    · rename_i hnil
      rw [hnil, rleDecode]
      refine ⟨by rintro ⟨⟩, fun h => ?_⟩
      rw [← some.inj h] at hcode
      cases hcode
    · rfl
  refine ⟨fun h => ?_, fun hfree => hdec.mpr (rleDecode_compress hfree hcode)⟩
  unfold bcdcRleCompress at hcode
  split at hcode
  · cases hcode
  simp only at hcode
  split at hcode
  · cases hcode
  rename_i hall
  obtain ⟨code, hout, hcode'⟩ := rleLoop_code input.length 0 [] (Nat.zero_le _) hall
  obtain rfl : cdata = code := by rw [← some.inj hcode, hout, nil_append]
  exact fun i hroom => hcode'.escapeFree hsize (hdec.mp h) i (Nat.zero_le _) hroom

/-- Two escape bytes, a run and a byte of its own. -/
theorem bcdcRle_roundtrip_small :
    bcdcRleCompress [0xFE, 0xFE, 7, 7, 7, 9] = some [0xFE, 0xFE, 0xFE, 0xFE, 0xFE, 7, 3, 9] ∧
    (bcdcRleDecompress 6 [0xFE, 0xFE, 0xFE, 0xFE, 0xFE, 7, 3, 9] = some [0xFE, 0xFE, 7, 7, 7, 9] ↔
    EscapeFree [0xFE, 0xFE, 7, 7, 7, 9]) :=
  ⟨by decide,
    @bcdcRle_roundtrip [0xFE, 0xFE, 7, 7, 7, 9] [0xFE, 0xFE, 0xFE, 0xFE, 0xFE, 7, 3, 9] (by decide) (by decide)⟩

/-- Four escape bytes come back as two bytes. -/
theorem bcdcRle_escapes_lost : bcdcRleCompress [0xFE, 0xFE, 0xFE, 0xFE] = some [0xFE, 0xFE, 4] ∧
    bcdcRleDecompress 4 [0xFE, 0xFE, 4] = some [0xFE, 4] := by
  decide

end BoxOS.TagFS
