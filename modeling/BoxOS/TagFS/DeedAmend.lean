import BoxOS.TagFS.VolumeGround

/-!
# Amending a deed

A pen that has taken a block writes another payload of the same length or a shorter one into a stamp, other numbers into
the head, and seals it. The readers accept the result for the role it was given (`validate_sealed`), and find the same
stamps where they were (`stampLoop_patch`), all with the payloads they had but the one that was written.
-/

namespace BoxOS.TagFS

open Lib List VolumeDeed

/-! ## Sealing any pen -/

/-- The pen holds a block with a magic, and its head and stamps lie in the block. -/
structure DeedPen.Sound (pen : DeedPen) : Prop where
  length : pen.block.length = pen.bytes
  magic : pen.block.take 8 = deedMagic
  head : deedSize ≤ pen.prologue
  inside : pen.prologue + pen.stamps ≤ pen.bytes
  prologue_lt : pen.prologue < 2 ^ 16
  stamps_lt : pen.stamps < 2 ^ 16

section pen

variable {pen : DeedPen} {deedPenSum : Checksum}

theorem DeedPen.Sound.long (h : pen.Sound) : deedSize ≤ pen.block.length := by
  have := h.head
  have := h.inside
  rw [h.length]
  omega

theorem DeedPen.Sound.wellFormed (h : pen.Sound) : pen.readHead.WellFormed := by
  have hlong := h.long
  unfold deedSize at hlong
  constructor
  · show (pen.block.take 8).length = 8
    rw [length_take]
    omega
  · show ((pen.block.drop 16).take 16).length = 16
    rw [length_take, length_drop]
    omega

theorem patch_head {block head : List UInt8} (hhead : head.length = deedSize) (hlong : deedSize ≤ block.length) :
    patch block 0 head = head ++ block.drop deedSize := by
  have hsplit : block = [] ++ (block.take deedSize ++ block.drop deedSize) := by simp
  have hlen : head.length = (block.take deedSize).length := by
    rw [length_take, hhead]
    omega
  have hpatch := @patch_middle [] _ head 0 rfl hlen (block.drop deedSize)
  rw [← hsplit] at hpatch
  simpa using hpatch

theorem DeedPen.Sound.writeHead (h : pen.Sound) {deed : VolumeDeed} (hform : deed.WellFormed)
    (hmagic : deed.magic = deedMagic) : (pen.writeHead deed).Sound ∧ (pen.writeHead deed).readHead = deed ∧
      (pen.writeHead deed).block = deed.encode ++ pen.block.drop deedSize := by
  have hlen := length_encode hform
  have hblock : (pen.writeHead deed).block = deed.encode ++ pen.block.drop deedSize := patch_head hlen h.long
  have hlong := h.long
  refine ⟨⟨?_, ?_, h.head, h.inside, h.prologue_lt, h.stamps_lt⟩, ?_, hblock⟩
  · rw [hblock, length_append, hlen, length_drop]
    show _ = pen.bytes
    rw [← h.length]
    omega
  · rw [hblock, encode, append_assoc, take_left' hform.magic, hmagic]
  · rw [DeedPen.readHead, hblock, VolumeDeed.decode_encode hform]

theorem drop_head {deed : VolumeDeed} (hform : deed.WellFormed) {block rest : List UInt8}
    (hblock : block = deed.encode ++ rest) : block.drop deedSize = rest := by
  rw [hblock, ← length_encode hform, drop_left]

theorem DeedPen.Sound.set (h : pen.Sound) (s : DeedSet) : (pen.set s).Sound ∧
    (pen.set s).readHead = s.write pen.readHead ∧ (pen.set s).block.drop deedSize = pen.block.drop deedSize := by
  have hform := h.wellFormed
  have hwrite : ∀ {deed : VolumeDeed}, deed.WellFormed → deed.magic = deedMagic → (pen.writeHead deed).Sound ∧
      (pen.writeHead deed).readHead = deed ∧ (pen.writeHead deed).block.drop deedSize = pen.block.drop deedSize :=
    fun hdeed hmagic => by
      obtain ⟨hsound, hhead, hblock⟩ := h.writeHead hdeed hmagic
      exact ⟨hsound, hhead, drop_head hdeed hblock⟩
  cases s with
  | uuid u full => exact hwrite ⟨hform.magic, full⟩ h.magic
  | ground | role => exact hwrite ⟨hform.magic, hform.uuid⟩ h.magic

/-! ### The seal -/

/-- The head with the lengths in place and no checksum. -/
def DeedPen.blankHead (pen : DeedPen) : VolumeDeed :=
  { pen.readHead with
    prologueBytes := UInt16.ofNat pen.prologue
    stampBytes := UInt16.ofNat pen.stamps
    crc32 := 0 }

/-- The checksum of a sealed pen. -/
def DeedPen.sum (deedPenSum : Checksum) (pen : DeedPen) : UInt32 :=
  deedPenSum (pen.unsealed.block.take (pen.prologue + pen.stamps))

/-- The head of a sealed pen. -/
def DeedPen.sealedHead (deedPenSum : Checksum) (pen : DeedPen) : VolumeDeed :=
  { pen.blankHead with crc32 := pen.sum deedPenSum }

theorem DeedPen.Sound.blankHead (h : pen.Sound) : pen.blankHead.WellFormed := ⟨h.wellFormed.magic, h.wellFormed.uuid⟩

theorem DeedPen.Sound.sealedHead (h : pen.Sound) : (pen.sealedHead deedPenSum).WellFormed :=
  ⟨h.wellFormed.magic, h.wellFormed.uuid⟩

theorem DeedPen.Sound.unsealed (h : pen.Sound) : pen.unsealed.Sound ∧ pen.unsealed.readHead = pen.blankHead ∧
    pen.unsealed.block = pen.blankHead.encode ++ pen.block.drop deedSize :=
  h.writeHead h.blankHead h.magic

theorem DeedPen.Sound.sealed (h : pen.Sound) : (deedPenSeal deedPenSum pen).Sound ∧
    (deedPenSeal deedPenSum pen).readHead = pen.sealedHead deedPenSum ∧
      (deedPenSeal deedPenSum pen).block = (pen.sealedHead deedPenSum).encode ++ pen.block.drop deedSize := by
  obtain ⟨hsound, hhead, hblock⟩ := h.unsealed
  have hseal : deedPenSeal deedPenSum pen = pen.unsealed.writeHead (pen.sealedHead deedPenSum) := by
    rw [deedPenSeal]
    simp only [hhead]
    rfl
  rw [hseal, ← drop_head h.blankHead hblock]
  exact hsound.writeHead h.sealedHead h.magic

theorem validate_sealed (h : pen.Sound) :
    deedValidate deedPenSum true (deedPenSeal deedPenSum pen).block pen.bytes pen.readHead.role =
    .ok ⟨pen.sealedHead deedPenSum, (deedPenSeal deedPenSum pen).block.drop pen.prologue,
    (deedPenSeal deedPenSum pen).block, pen.bytes⟩ := by
  obtain ⟨hsound, hhead, hblock⟩ := @DeedPen.Sound.sealed pen deedPenSum h
  obtain ⟨-, -, hblank⟩ := h.unsealed
  have hlong := h.long
  have hin := h.inside
  have hge := h.head
  have hprologue : (UInt16.ofNat pen.prologue).toNat = pen.prologue := UInt16.toNat_ofNat_of_lt' h.prologue_lt
  have hstamps : (UInt16.ofNat pen.stamps).toNat = pen.stamps := UInt16.toNat_ofNat_of_lt' h.stamps_lt
  have hcut : ∀ {deed : VolumeDeed}, deed.WellFormed →
      (deed.encode ++ pen.block.drop deedSize).take (pen.prologue + pen.stamps) = deed.encode ++
      (pen.block.drop deedSize).take (pen.prologue + pen.stamps - deedSize) := fun hform => by
    have hlen := length_encode hform
    rw [take_append, take_of_length_le (by omega), hlen]
  -- the sum is taken over the bytes with an empty checksum
  have hprobe :
      deedPenSum (patch ((deedPenSeal deedPenSum pen).block.take (pen.prologue + pen.stamps)) 12 [0, 0, 0, 0]) =
      pen.sum deedPenSum := by
    have hzero : ([0, 0, 0, 0] : List UInt8) = leBytes 4 (0 : UInt32).toNat := by decide
    rw [hblock, hcut h.sealedHead, hzero, VolumeDeed.patch_crc h.sealedHead, DeedPen.sum, hblank, hcut h.blankHead]
    rfl
  have hdecode : decode (deedPenSeal deedPenSum pen).block = pen.sealedHead deedPenSum := hhead
  rw [deedValidate, if_neg (by rw [← h.length]; omega)]
  rw [hdecode, if_neg (not_not.mpr hsound.magic)]
  simp only [DeedPen.sealedHead, DeedPen.blankHead, hprologue, hstamps]
  rw [if_neg (by omega), if_neg (by decide), hprobe, if_neg (by simp), if_neg (by simp)]

/-- A block that is accepted is one a pen takes. -/
theorem take_of_validate {raw : List UInt8} {bytes : Nat} {wantRole : UInt32} {copy : DeedCopy}
    (hlen : raw.length = bytes) (hvalid : deedValidate deedPenSum true raw bytes wantRole = .ok copy) :
    copy = ⟨VolumeDeed.decode raw, raw.drop (decode raw).prologueBytes.toNat, raw, bytes⟩ ∧ copy.head.role = wantRole ∧
    ∃ pen : DeedPen, deedPenTake raw bytes = some pen ∧ pen.Sound ∧ pen.block = raw ∧ pen.bytes = bytes ∧
    pen.prologue = copy.head.prologueBytes.toNat ∧ pen.stamps = copy.head.stampBytes.toNat := by
  unfold deedValidate at hvalid
  dsimp only at hvalid
  split at hvalid
  · cases hvalid
  rename_i hsize
  split at hvalid
  · cases hvalid
  rename_i hmagic
  split at hvalid
  · cases hvalid
  rename_i hlens
  split at hvalid
  · cases hvalid
  split at hvalid
  · cases hvalid
  split at hvalid
  · cases hvalid
  rename_i hrole
  cases hvalid
  refine ⟨rfl, not_not.mp hrole, ⟨raw, bytes, (decode raw).prologueBytes.toNat, (decode raw).stampBytes.toNat⟩, ?_,
    ⟨hlen, not_not.mp hmagic, by simp only; omega, by simp only; omega, UInt16.toNat_lt _, UInt16.toNat_lt _⟩,
    rfl, rfl, rfl, rfl⟩
  rw [deedPenTake, if_neg hsize, if_neg hmagic]
  rw [if_neg (by omega), if_neg (by omega), if_neg (by omega)]

end pen

/-! ## Writing into a stamp -/

section stamp

variable {raw new : List UInt8} {kind other : UInt16} {fuel p left o len : Nat}

theorem stampLoop_behind (hin : o + new.length ≤ raw.length) (hp : o + new.length ≤ p) :
    deedStampLoop (patch raw o new) kind fuel p left = deedStampLoop raw kind fuel p left := by
  induction fuel generalizing p left with
  | zero => rfl
  | succ fuel ih =>
    have hbytes : fieldAt 2 (p + 2) (patch raw o new) = fieldAt 2 (p + 2) raw :=
      fieldAt_patch_of_disjoint hin (.inr (by omega))
    have hkind : fieldAt 2 p (patch raw o new) = fieldAt 2 p raw := fieldAt_patch_of_disjoint hin (.inr hp)
    rw [deedStampLoop, deedStampLoop, hbytes, hkind]
    dsimp only
    rw [ih (by unfold align4; omega)]

theorem stampLoop_le (h : deedStampLoop raw kind fuel p left = some (o, len)) : p + stampSize ≤ o := by
  induction fuel generalizing p left with
  | zero => cases h
  | succ fuel ih =>
    rw [deedStampLoop] at h
    split at h
    · dsimp only at h
      split at h
      · cases h
      split at h
      · cases h
        exact le_rfl
      split at h
      · cases h
      · have := ih h
        omega
    · cases h

/-- A payload that is written in its place moves no stamp. -/
theorem stampLoop_patch (hin : o + new.length ≤ raw.length)
    (hfound : deedStampLoop raw kind fuel p left = some (o, len)) (hnew : new.length ≤ len) :
    deedStampLoop (patch raw o new) other fuel p left = deedStampLoop raw other fuel p left := by
  induction fuel generalizing p left with
  | zero => rfl
  | succ fuel ih =>
    have hle := stampLoop_le hfound
    unfold stampSize at hle
    have hbytes : fieldAt 2 (p + 2) (patch raw o new) = fieldAt 2 (p + 2) raw :=
      fieldAt_patch_of_disjoint hin (.inl (by omega))
    have hkind : fieldAt 2 p (patch raw o new) = fieldAt 2 p raw := fieldAt_patch_of_disjoint hin (.inl (by omega))
    rw [deedStampLoop] at hfound
    rw [deedStampLoop, deedStampLoop, hbytes, hkind]
    split at hfound
    · rename_i hleft
      dsimp only at hfound ⊢
      rw [if_pos hleft, if_pos hleft]
      split at hfound
      · cases hfound
      rename_i hpayload
      rw [if_neg hpayload, if_neg hpayload]
      split at hfound
      · -- the stamp that is written
        cases hfound
        rw [stampLoop_behind hin (by unfold align4 stampSize; omega)]
      split at hfound
      · cases hfound
      rename_i hstep
      rw [if_neg hstep, if_neg hstep, ih hfound]
    · cases hfound

/-- Payloads of two kinds have no byte in common. -/
theorem stampLoop_disjoint {o' len' : Nat} (hne : other ≠ kind)
    (hfound : deedStampLoop raw kind fuel p left = some (o, len))
    (hother : deedStampLoop raw other fuel p left = some (o', len')) : o' + len' ≤ o ∨ o + len ≤ o' := by
  induction fuel generalizing p left with
  | zero => cases hfound
  | succ fuel ih =>
    rw [deedStampLoop] at hfound hother
    split at hfound
    · rename_i hleft
      rw [if_pos hleft] at hother
      dsimp only at hfound hother
      split at hfound
      · cases hfound
      rename_i hpayload
      rw [if_neg hpayload] at hother
      split at hfound
      · rename_i hk
        cases hfound
        rw [if_neg (by rw [hk]; exact fun heq => hne heq.symm)] at hother
        split at hother
        · cases hother
        · have hle := stampLoop_le hother
          have hstep := le_align4 (stampSize + fieldAt 2 (p + 2) raw)
          omega
      split at hfound
      · cases hfound
      rename_i hstep
      split at hother
      · cases hother
        have hle := stampLoop_le hfound
        have hstep := le_align4 (stampSize + fieldAt 2 (p + 2) raw)
        omega
      · exact ih hfound hother
    · cases hfound

end stamp

end BoxOS.TagFS
