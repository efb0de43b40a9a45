import BoxOS.TagFS.BcdcRle

/-! # The run-length codec of deduplication

`TagFS_DedupCompress` writes one pair for every run of at most 255 equal bytes and stops when the pairs are about as
long as the input. It reports success even then, with a part of the input left over. -/

namespace BoxOS.TagFS

open List

/-- The loop of `TagFS_DedupCompress`: where it stopped and what it wrote. -/
def dedupPairLoop (input : List UInt8) : Nat → Nat → List UInt8 → Nat × List UInt8
  | 0, inPos, out => (inPos, out)
  | n + 1, inPos, out =>
    if inPos < input.length ∧ out.length < input.length - 2 then
      dedupPairLoop input n (inPos + runAt input inPos) (out ++ [byteAt input inPos, .ofNat (runAt input inPos)])
    else (inPos, out)

/-- `TagFS_DedupCompress`; `none` is an error. -/
def tagFSDedupCompress (input : List UInt8) : Option (List UInt8) :=
  if input.length < 16 then none
  else
    let r := dedupPairLoop input input.length 0 []
    if r.2.length < input.length then some r.2 else none

/-- The loop of `TagFS_DedupDecompress`, on the pairs left and behind the output. -/
def dedupUnpairLoop (osize : Nat) : List UInt8 → List UInt8 → List UInt8
  | byte :: count :: rest, out =>
    if out.length < osize then
      dedupUnpairLoop osize rest (out ++ replicate (min count.toNat (osize - out.length)) byte)
    else out
  | _, out => out

def tagFSDedupDecompress (osize : Nat) (cdata : List UInt8) : List UInt8 :=
  dedupUnpairLoop osize cdata []

/-- How many runs the input has from a position on, as the encoder counts them. -/
def runsFrom (input : List UInt8) : Nat → Nat → Nat
  | 0, _ => 0
  | n + 1, i => if i < input.length then runsFrom input n (i + runAt input i) + 1 else 0

def runCount (input : List UInt8) : Nat :=
  runsFrom input input.length 0

section loop

variable {input : List UInt8}

theorem dedupUnpair_run {i : Nat} (hi : i < input.length) (rest : List UInt8) :
    dedupUnpairLoop input.length (byteAt input i :: .ofNat (runAt input i) :: rest) (input.take i) =
      dedupUnpairLoop input.length rest (input.take (i + runAt input i)) := by
  have hroom := runAt_room hi
  have hnat :
    (UInt8.ofNat (runAt input i)).toNat = runAt input i := UInt8.toNat_ofNat_of_lt' (Nat.lt_succ_of_le runAt_le)
  rw [dedupUnpairLoop, if_pos (by rw [length_take]; omega), hnat, length_take_of_le (by omega),
    Nat.min_eq_left (by omega), ← take_run hroom fun k hk => runAt_same hk]

theorem dedupPairLoop_reads (n i : Nat) (out : List UInt8) (hi : i ≤ input.length) :
    (dedupPairLoop input n i out).1 ≤ input.length ∧ ∃ toks, (dedupPairLoop input n i out).2 = out ++ toks ∧
      dedupUnpairLoop input.length toks (input.take i) = input.take (dedupPairLoop input n i out).1 := by
  have hstop : i ≤ input.length ∧ ∃ toks, out = out ++ toks ∧
      dedupUnpairLoop input.length toks (input.take i) = input.take i := ⟨hi, [], by simp, rfl⟩
  induction n generalizing i out with
  | zero => exact hstop
  | succ n ih =>
    rw [dedupPairLoop]
    split
    · rename_i hmore
      obtain ⟨hle, toks, hout, hdec⟩ := ih (i + runAt input i) (out ++ [byteAt input i, .ofNat (runAt input i)])
        (runAt_room hmore.1) ⟨runAt_room hmore.1, [], by simp, rfl⟩
      refine ⟨hle, _, by rw [hout, append_assoc], ?_⟩
      rw [← hdec]
      exact dedupUnpair_run hmore.1 toks
    · exact hstop

theorem dedupPairLoop_done (n i : Nat) (out : List UInt8) (hi : i ≤ input.length) (hfuel : input.length ≤ i + n)
    (heven : 2 ≤ input.length) : (dedupPairLoop input n i out).1 = input.length ↔
      i = input.length ∨ out.length + 2 * runsFrom input n i < input.length := by
  induction n generalizing i out with
  | zero =>
    obtain rfl : i = input.length := by omega
    exact ⟨fun _ => .inl rfl, fun _ => rfl⟩
  | succ n ih =>
    rw [dedupPairLoop, runsFrom]
    by_cases hmore : i < input.length
    · have hpos := @runAt_pos input i
      by_cases hroom : out.length < input.length - 2
      · rw [if_pos ⟨hmore, hroom⟩, if_pos hmore, ih _ _ (runAt_room hmore) (by omega), length_append]
        have hlast : i + runAt input i = input.length → runsFrom input n (i + runAt input i) = 0 := fun hend => by
          cases n with
          | zero => rfl
          | succ n => rw [runsFrom, if_neg (by omega)]
        simp only [length_cons, length_nil]
        constructor
        · rintro (hend | hlt)
          · rw [hlast hend]
            omega
          · omega
        · rintro (hend | hlt) <;> omega
      · rw [if_neg (fun h => hroom h.2), if_pos hmore]
        omega
    · rw [if_neg (fun h => hmore h.1)]
      omega

end loop

/-- **The codec of deduplication undoes itself exactly where the input has fewer runs than half its bytes.** -/
theorem dedupRle_roundtrip {input cdata : List UInt8} (hcode : tagFSDedupCompress input = some cdata) :
    tagFSDedupDecompress input.length cdata = input ↔ 2 * runCount input < input.length := by
  unfold tagFSDedupCompress at hcode
  split at hcode
  · exact nomatch hcode
  rename_i hsize
  simp only at hcode
  split at hcode
  · obtain ⟨hle, toks, hout, hdec⟩ := @dedupPairLoop_reads input input.length 0 [] (Nat.zero_le _)
    have hdone := @dedupPairLoop_done input input.length 0 [] (Nat.zero_le _) (by omega) (by omega)
    obtain rfl : cdata = toks := by rw [← Option.some.inj hcode, hout, nil_append]
    rw [length_nil, Nat.zero_add] at hdone
    rw [tagFSDedupDecompress, ← take_zero, hdec, runCount]
    refine ⟨fun htake => ?_, fun hlt => ?_⟩
    · have hlen := congrArg List.length htake
      rw [length_take] at hlen
      have := hdone.mp (by omega)
      omega
    · rw [hdone.mpr (.inr hlt), take_length]
  · exact nomatch hcode

/-- Sixteen equal bytes. -/
theorem dedupRle_roundtrip_small : tagFSDedupCompress (replicate 16 5) = some [5, 16] ∧
    (tagFSDedupDecompress 16 [5, 16] = replicate 16 5 ↔ 2 * runCount (replicate 16 5) < 16) :=
  ⟨by decide, @dedupRle_roundtrip (replicate 16 5) [5, 16] (by decide)⟩

/-- Sixteen different bytes: the last nine are lost. -/
theorem dedupRle_cut_off : ∃ cdata, tagFSDedupCompress ((List.range 16).map UInt8.ofNat) = some cdata ∧
    tagFSDedupDecompress 16 cdata = (List.range 7).map UInt8.ofNat :=
  ⟨[0, 1, 1, 1, 2, 1, 3, 1, 4, 1, 5, 1, 6, 1], by decide, by decide⟩

end BoxOS.TagFS
