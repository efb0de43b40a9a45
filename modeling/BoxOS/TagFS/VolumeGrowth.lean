import BoxOS.TagFS.DeedAmend

/-!
# An interrupted growth

Every write of a growth is one deed block, and no sector outside those blocks changes. The two new deeds are the old one
with another layout and another ground, so a reader takes the grown layout from either of them (`carried_of_amends`).

The head that cannot be read is made good only by the last block of the ground. The new far copy stands there when the
volume runs to the end of its ground, and not when the bitmap stops it before (`interrupted_growth_taken_iff`,
`clamped_growth_loses_volume`).
-/

namespace BoxOS.TagFS

open Lib List Option VolumeLayout

/-! ## Reading after a write -/

section sectors

variable {m m' : SectorMedium} {s n : Nat} {block : List UInt8}

theorem readSectors_congr (h : ∀ k, s ≤ k → k < s + n → m' k = m k) : readSectors m' s n = readSectors m s n := by
  induction n generalizing s with
  | zero => rfl
  | succ n ih =>
    rw [readSectors, readSectors, h s (Nat.le_refl s) (by omega), ih fun k hlo hhi => h k (by omega) (by omega)]

theorem length_readSectors {raw : List UInt8} (h : readSectors m s n = some raw) : raw.length = n * sectorSize := by
  induction n generalizing s raw with
  | zero =>
    cases h
    simp
  | succ n ih =>
    rw [readSectors] at h
    split at h
    · cases h
    · obtain ⟨rest, hrest, rfl⟩ := map_eq_some_iff.mp h
      rename_i sector _
      rw [length_append, sector.property, ih hrest, Nat.add_mul, Nat.one_mul, Nat.add_comm]

theorem sectorOf_val {k : Nat} (h : sectorSize * (k + 1) ≤ block.length) :
    (sectorOf block k).val = (block.drop (sectorSize * k)).take sectorSize := by
  have hlen : ((block.drop (sectorSize * k)).take sectorSize).length = sectorSize := by
    rw [length_take, length_drop]
    rw [Nat.mul_add] at h
    omega
  apply ext_getElem ((sectorOf block k).property.trans hlen.symm)
  intro i hi _
  rw [Nat.mul_add] at h
  simp only [sectorOf, getElem_map, getElem_range, getElem_take, getElem_drop, getD_eq_getElem?_getD]
  rw [getElem?_eq_getElem (by omega), getD_some]

theorem readSectors_writeDeedBlock (hlen : block.length = deedBytes) :
    readSectors (writeDeedBlock m s block) s deedSectors = some block := by
  have hread : ∀ n k, k + n = deedSectors →
      readSectors (writeDeedBlock m s block) (s + k) n = some (block.drop (sectorSize * k)) := by
    intro n
    induction n with
    | zero =>
      intro k hk
      rw [readSectors, drop_of_length_le (by rw [hlen, show k = deedSectors from hk]; decide)]
    | succ n ih =>
      intro k hk
      have hat : writeDeedBlock m s block (s + k) = some (sectorOf block k) := by
        rw [writeDeedBlock, if_pos ⟨by omega, by omega⟩, Nat.add_sub_cancel_left]
      have hin : sectorSize * (k + 1) ≤ block.length := by
        rw [hlen]
        unfold deedSectors at hk
        unfold deedBytes sectorSize
        omega
      rw [readSectors, hat]
      dsimp only
      rw [Nat.add_assoc, ih (k + 1) (by omega), Option.map_some, sectorOf_val hin, Nat.mul_add, Nat.mul_one,
        ← drop_drop, take_append_drop]
  simpa using hread deedSectors 0 (Nat.zero_add _)

theorem readSectors_tearDeedBlock : readSectors (tearDeedBlock m s) s deedSectors = none := by
  have hat : tearDeedBlock m s s = none := if_pos ⟨Nat.le_refl s, by unfold deedSectors; omega⟩
  rw [deedSectors, readSectors, hat]

/-- The media differ in one deed block at most. -/
def OnlyAt (b : Nat) (m m' : SectorMedium) : Prop := ∀ k, k < b ∨ b + deedSectors ≤ k → m' k = m k

theorem onlyAt_write (b : Nat) : OnlyAt b m (writeDeedBlock m b block) := fun k hk =>
  if_neg (by omega)

theorem onlyAt_tear (b : Nat) : OnlyAt b m (tearDeedBlock m b) := fun k hk => if_neg (by omega)

theorem OnlyAt.read {b : Nat} (h : OnlyAt b m m') (hoff : s + n ≤ b ∨ b + deedSectors ≤ s) :
    readSectors m' s n = readSectors m s n :=
  readSectors_congr fun k hlo hhi => h k (by omega)

end sectors

/-! ## Grounds -/

section grounds

variable {deedPenSum : Checksum} {m m' : SectorMedium} {g : MediumGround} {grounds : List MediumGround}
  {want : Option (List UInt8)} {copy copy' : DeedCopy}

/-- Two grounds have no sector in common. -/
def MediumGround.Apart (g h : MediumGround) : Prop :=
  g.startSector + g.sectors ≤ h.startSector ∨ h.startSector + h.sectors ≤ g.startSector

/-- The media agree on the ground. -/
def MediumGround.Same (g : MediumGround) (m m' : SectorMedium) : Prop :=
  ∀ k, g.startSector ≤ k → k < g.startSector + g.sectors → m' k = m k

variable {sector : Nat} {role : UInt32}

theorem deedReadAt_congr (h : readSectors m' sector deedSectors = readSectors m sector deedSectors) :
    deedReadAt deedPenSum m' sector role = deedReadAt deedPenSum m sector role := by
  rw [deedReadAt, deedReadAt, h]

theorem deedReadAt_of_read {raw : List UInt8} (hread : readSectors m sector deedSectors = some raw)
    (hvalid : deedValidate deedPenSum true raw deedBytes role = .ok copy) :
    deedReadAt deedPenSum m sector role = some copy := by
  rw [deedReadAt, hread]
  dsimp only
  rw [hvalid]

theorem deedReadAt_cases (h : deedReadAt deedPenSum m sector role = some copy) : ∃ raw,
    readSectors m sector deedSectors = some raw ∧ deedValidate deedPenSum true raw deedBytes role = .ok copy := by
  rw [deedReadAt] at h
  split at h
  · cases h
  rename_i raw hraw
  split at h
  · cases h
  rename_i copy' hvalid
  cases h
  exact ⟨raw, hraw, hvalid⟩

/-- The checks of `DeedReadHead` on the ground. -/
def HeadFits (g : MediumGround) (copy : DeedCopy) : Prop :=
  copy.head.sectors.toNat ≤ g.sectors ∧ copy.head.tailSector ≠ 0 ∧ copy.head.tailSector + 8 ≤ copy.head.sectors

theorem deedReadHead_iff :
    deedReadHead deedPenSum m g = some copy ↔
      deedSectors ≤ g.sectors ∧ deedReadAt deedPenSum m g.startSector roleHead = some copy ∧ HeadFits g copy := by
  unfold deedReadHead HeadFits
  split
  · simp only [reduceCtorEq, false_iff]
    omega
  rename_i hlong
  split
  · rename_i hnone
    simp [hnone]
  rename_i found hfound
  rw [hfound]
  split
  · rename_i hbig
    simp only [reduceCtorEq, false_iff]
    rintro ⟨-, heq, hle, -⟩
    cases heq
    omega
  rename_i hbig
  split
  · rename_i hbad
    simp only [reduceCtorEq, false_iff]
    rintro ⟨-, heq, -, hne, hin⟩
    cases heq
    exact hbad.elim hne fun hgt => absurd hin (UInt64.not_le.mpr hgt)
  rename_i hgood
  rw [not_or, UInt64.not_lt] at hgood
  constructor
  · intro heq
    cases heq
    exact ⟨by omega, rfl, by omega, hgood⟩
  · rintro ⟨-, heq, -⟩
    exact heq

theorem deedOnGround_congr (h : g.Same m m') : deedOnGround deedPenSum m' g = deedOnGround deedPenSum m g := by
  have hhead : deedReadHead deedPenSum m' g = deedReadHead deedPenSum m g := by
    unfold deedReadHead
    split
    · rfl
    · rename_i hlong
      rw [deedReadAt_congr (readSectors_congr fun k hlo hhi => h k hlo (by omega))]
  have htail : deedReadTailAlone deedPenSum m' g = deedReadTailAlone deedPenSum m g := by
    unfold deedReadTailAlone
    split
    · rfl
    rename_i hlong
    have hin : (g.sectors / deedSectors - 1) * deedSectors + deedSectors ≤ g.sectors := by
      unfold deedSectors at *
      omega
    rw [deedReadAt_congr (readSectors_congr fun k hlo hhi => h k (by omega) (by omega))]
  rw [deedOnGround, deedOnGround, hhead, htail]

theorem groundPass_on {wanted : DeedCopy → Bool} (h : groundPass deedPenSum m grounds wanted = some (copy, g)) :
    g ∈ grounds ∧ deedOnGround deedPenSum m g = some copy ∧ wanted copy = true := by
  obtain ⟨g', hmem, hg'⟩ := exists_of_findSome?_eq_some h
  split at hg'
  · cases hg'
  rename_i found hfound
  split at hg'
  · rename_i hwanted
    cases hg'
    exact ⟨hmem, hfound, hwanted⟩
  · cases hg'

theorem pickGround_on (h : pickGround deedPenSum m grounds want = some (copy, g)) :
    g ∈ grounds ∧ deedOnGround deedPenSum m g = some copy := by
  unfold pickGround at h
  split at h
  · cases h
  split at h
  · rename_i hpass
    cases h
    exact ⟨(groundPass_on hpass).1, (groundPass_on hpass).2.1⟩
  · exact ⟨(groundPass_on h).1, (groundPass_on h).2.1⟩

theorem pickGround_congr (h : ∀ g ∈ grounds, deedOnGround deedPenSum m' g = deedOnGround deedPenSum m g) :
    pickGround deedPenSum m' grounds want = pickGround deedPenSum m grounds want := by
  have hpass : ∀ wanted : DeedCopy → Bool,
      groundPass deedPenSum m' grounds wanted = groundPass deedPenSum m grounds wanted := fun wanted => by
    unfold groundPass
    induction grounds with
    | nil => rfl
    | cons g grounds ih =>
      rw [findSome?_cons, findSome?_cons, h g mem_cons_self, ih fun g' hg' => h g' (mem_cons_of_mem _ hg')]
  unfold pickGround
  simp only [hpass]

theorem groundPass_again {wanted : DeedCopy → Bool} (hsame : ∀ h ∈ grounds, h = g ∨ h.Same m m')
    (hdeed : deedOnGround deedPenSum m g = some copy) (hdeed' : deedOnGround deedPenSum m' g = some copy')
    (hwanted : wanted copy' = wanted copy) : groundPass deedPenSum m' grounds wanted =
    (groundPass deedPenSum m grounds wanted).map fun r => if r.2 = g then (copy', g) else r := by
  unfold groundPass
  induction grounds with
  | nil => rfl
  | cons h grounds ih =>
    have ih := ih fun h' hmem => hsame h' (mem_cons_of_mem _ hmem)
    rw [findSome?_cons, findSome?_cons]
    by_cases heq : h = g
    · rw [heq, hdeed, hdeed']
      dsimp only
      rw [hwanted]
      by_cases hyes : wanted copy = true
      · rw [if_pos hyes, if_pos hyes]
        simp
      · rw [if_neg hyes, if_neg hyes]
        exact ih
    rw [deedOnGround_congr ((hsame h mem_cons_self).resolve_left heq)]
    cases hother : deedOnGround deedPenSum m h with
    | none => exact ih
    | some found =>
      dsimp only
      by_cases hyes : wanted found = true
      · rw [if_pos hyes]
        simp [heq]
      · rw [if_neg hyes]
        exact ih

theorem pickGround_again (hsame : ∀ h ∈ grounds, h = g ∨ h.Same m m')
    (hpick : pickGround deedPenSum m grounds want = some (copy, g)) (hdeed' : deedOnGround deedPenSum m' g = some copy')
    (huuid : copy'.head.uuid = copy.head.uuid) : pickGround deedPenSum m' grounds want = some (copy', g) := by
  have hdeed := (pickGround_on hpick).2
  unfold pickGround at hpick ⊢
  split at hpick
  · cases hpick
  rename_i uuid
  rw [groundPass_again hsame hdeed hdeed' (by simp only [huuid]), groundPass_again hsame hdeed hdeed' rfl]
  split at hpick
  · rename_i hpass
    rw [hpass, hpick]
    simp
  · rename_i hnone
    rw [hnone, hpick]
    simp

end grounds

/-! ## The layout of a deed -/

section layout

variable {l : VolumeLayout} {bb : UInt32} {copy : DeedCopy}

theorem VolumeLayout.length_encode (l : VolumeLayout) : l.encode.length = layoutSize := length_packFields _

theorem VolumeLayout.decode_encode (l : VolumeLayout) (rest : List UInt8) : decode (l.encode ++ rest) = l := by
  have hread : ∀ {i n v off : Nat}, l.fields[i]? = some (n, v) → ((l.fields.take i).map Prod.fst).sum = off →
      v < 256 ^ n → fieldAt n off (l.encode ++ rest) = v := fun hi hoff hv => fieldAt_packFields hi hoff hv rest
  have h0 := @hread 0 _ _ _ rfl rfl (UInt64.toNat_lt _)
  have h1 := @hread 1 _ _ _ rfl rfl (UInt32.toNat_lt _)
  have h2 := @hread 2 _ _ _ rfl rfl (UInt32.toNat_lt _)
  have h3 := @hread 3 _ _ _ rfl rfl (UInt32.toNat_lt _)
  have h4 := @hread 4 _ _ _ rfl rfl (UInt32.toNat_lt _)
  have h5 := @hread 5 _ _ _ rfl rfl (UInt32.toNat_lt _)
  have h6 := @hread 6 _ _ _ rfl rfl (UInt32.toNat_lt _)
  have h7 := @hread 7 _ _ _ rfl rfl (UInt32.toNat_lt _)
  have h8 := @hread 8 _ _ _ rfl rfl (UInt32.toNat_lt _)
  have h9 := @hread 9 _ _ _ rfl rfl (UInt32.toNat_lt _)
  have h10 := @hread 10 _ _ _ rfl rfl (UInt32.toNat_lt _)
  have h11 := @hread 11 _ _ _ rfl rfl (UInt32.toNat_lt _)
  have h12 := @hread 12 _ _ _ rfl rfl (UInt32.toNat_lt _)
  have h13 := @hread 13 _ _ _ rfl rfl (UInt32.toNat_lt _)
  have h14 := @hread 14 _ _ _ rfl rfl (UInt32.toNat_lt _)
  simp only [take_zero, take_succ_cons, fields, map_cons, map_nil, sum_cons, sum_nil,
    Nat.add_zero, Nat.reduceAdd] at h0 h1 h2 h3 h4 h5 h6 h7 h8 h9 h10 h11 h12 h13 h14
  rw [decode, h0, h1, h2, h3, h4, h5, h6, h7, h8, h9, h10, h11, h12, h13, h14]
  simp only [UInt32.ofNat_toNat, UInt64.ofNat_toNat]

theorem takeLayout_iff :
    takeLayout bb copy = some l ↔
      ∃ payload bytes, deedStampBytes copy stampLayout = some (payload, bytes) ∧ layoutSize ≤ bytes ∧
        l = decode payload ∧ l.Fits (copy.head.sectors.toNat / deedSectors) ∧ saidBlockBytes bb copy = 4096 := by
  unfold takeLayout
  split
  · rename_i hnone
    simp [hnone]
  rename_i payload bytes hsome
  dsimp only
  constructor
  · intro h
    split at h
    · cases h
    split at h
    · cases h
    split at h
    · cases h
    rename_i hlong hfits hsaid
    cases h
    exact ⟨payload, bytes, hsome, by omega, rfl, not_not.mp hfits, not_not.mp hsaid⟩
  · rintro ⟨payload', bytes', heq, hlong, rfl, hfits, hsaid⟩
    obtain ⟨rfl, rfl⟩ := Prod.mk.inj (some.inj (hsome.symm.trans heq))
    rw [if_neg (by omega), if_neg (not_not.mpr hfits), if_neg (not_not.mpr hsaid)]

end layout

/-! ## The two new deeds -/

theorem drop_of_drop {a b : List UInt8} {i j : Nat} (h : a.drop i = b.drop i) (hij : i ≤ j) : a.drop j = b.drop j := by
  obtain ⟨k, rfl⟩ := Nat.exists_eq_add_of_le hij
  rw [← drop_drop, h, drop_drop]

/-- A copy of the block of a pen. -/
structure DeedCopy.Of (copy : DeedCopy) (pen : DeedPen) : Prop where
  raw : copy.raw = pen.block
  rawBytes : copy.rawBytes = pen.bytes
  stamps : copy.stamps = pen.block.drop pen.prologue
  prologueBytes : copy.head.prologueBytes.toNat = pen.prologue
  stampBytes : copy.head.stampBytes.toNat = pen.stamps

section deeds

variable {deedPenSum : Checksum} {pen : DeedPen} {copy : DeedCopy} {kind : UInt16} {o len : Nat}

theorem DeedCopy.Of.stampBytes_eq (h : copy.Of pen) (kind : UInt16) :
    deedStampBytes copy kind = (deedStampLoop pen.block kind (pen.stamps + 1) pen.prologue pen.stamps).map fun r =>
    ((pen.block.drop r.1).take r.2, r.2) := by
  rw [deedStampBytes, deedStamp, h.raw, h.stamps, h.prologueBytes, h.stampBytes, deedStampLoop_drop]

theorem DeedPen.Sound.find (h : pen.Sound) (kind : UInt16) :
    deedPenFind pen kind = deedStampLoop pen.block kind (pen.stamps + 1) pen.prologue pen.stamps := by
  have hne : pen.prologue ≠ 0 := by
    have := h.head
    unfold deedSize at this
    omega
  have hloop := deedPenFindLoop_eq pen.block kind pen.prologue (pen.stamps + 1) 0 pen.stamps
  rw [deedStampLoop_drop] at hloop
  rw [deedPenFind, if_neg hne]
  exact hloop

variable {new : List UInt8}

theorem decode_patch {raw : List UInt8} (hin : o + new.length ≤ raw.length) (ho : deedSize ≤ o) :
    VolumeDeed.decode (patch raw o new) = VolumeDeed.decode raw := by
  unfold deedSize at ho
  have hfield : ∀ n k, k + n ≤ 52 → fieldAt n k (patch raw o new) = fieldAt n k raw := fun n k hk =>
    fieldAt_patch_of_disjoint hin (.inl (by omega))
  have hmagic : (patch raw o new).take 8 = raw.take 8 := by
    simpa using @slice_patch_of_disjoint raw new o 0 8 hin (.inl (by omega))
  have huuid : ((patch raw o new).drop 16).take 16 = (raw.drop 16).take 16 :=
    slice_patch_of_disjoint hin (.inl (by omega))
  rw [VolumeDeed.decode, VolumeDeed.decode, hmagic, huuid, hfield 2 8 (by omega), hfield 2 10 (by omega),
    hfield 4 12 (by omega), hfield 8 32 (by omega), hfield 8 40 (by omega), hfield 4 48 (by omega)]

theorem DeedPen.Sound.patch (h : pen.Sound) {new : List UInt8} (hin : o + new.length ≤ pen.block.length)
    (ho : deedSize ≤ o) : DeedPen.Sound { pen with block := Lib.patch pen.block o new } := by
  refine ⟨(length_patch hin).trans h.length, ?_, h.head, h.inside, h.prologue_lt, h.stamps_lt⟩
  have hdecode := decode_patch hin ho
  exact (congrArg VolumeDeed.magic hdecode).trans h.magic

/-- A pen over the same stamps but for one payload, which is shorter or as long. -/
structure DeedPen.Amends (q pen : DeedPen) (o : Nat) (new : List UInt8) : Prop where
  sound : q.Sound
  bytes : q.bytes = pen.bytes
  prologue : q.prologue = pen.prologue
  stamps : q.stamps = pen.stamps
  behind : q.block.drop deedSize = (patch pen.block o new).drop deedSize

variable {q : DeedPen}

theorem DeedPen.Amends.set (h : q.Amends pen o new) (d : DeedSet) :
    (q.set d).Amends pen o new ∧ (q.set d).readHead = d.write q.readHead := by
  obtain ⟨hsound, hhead, hdrop⟩ := h.sound.set d
  have hsame : (q.set d).bytes = q.bytes ∧ (q.set d).prologue = q.prologue ∧ (q.set d).stamps = q.stamps := by
    cases d <;> exact ⟨rfl, rfl, rfl⟩
  exact ⟨⟨hsound, hsame.1.trans h.bytes, hsame.2.1.trans h.prologue, hsame.2.2.trans h.stamps,
    hdrop.trans h.behind⟩, hhead⟩

theorem DeedPen.Amends.sealed (h : q.Amends pen o new) :
    (deedPenSeal deedPenSum q).Amends pen o new ∧ (deedPenSeal deedPenSum q).readHead = q.sealedHead deedPenSum := by
  obtain ⟨hsound, hhead, hblock⟩ := @DeedPen.Sound.sealed q deedPenSum h.sound
  refine ⟨⟨hsound, h.bytes, h.prologue, h.stamps, ?_⟩, hhead⟩
  rw [drop_head h.sound.sealedHead hblock]
  exact h.behind

/-- The stamps of an amended deed: the payload that was written, and the others. -/
theorem DeedPen.Amends.stamps_eq {copy' : DeedCopy} (h : q.Amends pen o new) (hsound : pen.Sound) (hof : copy.Of pen)
    (hof' : copy'.Of q) (hfound : deedStampLoop pen.block kind (pen.stamps + 1) pen.prologue pen.stamps = some (o, len))
    (hnew : new.length ≤ len) : (∃ rest, deedStampBytes copy' kind = some (new ++ rest, len)) ∧ ∀ other, other ≠ kind →
    deedStampBytes copy' other = deedStampBytes copy other := by
  have hin : o + new.length ≤ pen.block.length := by
    have hle : o + len ≤ pen.prologue + pen.stamps := (deedStampLoop_inside hfound).2
    have := hsound.inside
    rw [hsound.length]
    omega
  have hpro : deedSize ≤ pen.prologue := hsound.head
  have hloop : ∀ other, deedStampLoop q.block other (pen.stamps + 1) pen.prologue pen.stamps =
      deedStampLoop pen.block other (pen.stamps + 1) pen.prologue pen.stamps := fun other => by
    rw [← stampLoop_patch hin hfound hnew, ← deedStampLoop_drop q.block, drop_of_drop h.behind hpro,
      deedStampLoop_drop]
  have hbytes : ∀ other o' len',
      deedStampLoop pen.block other (pen.stamps + 1) pen.prologue pen.stamps = some (o', len') →
      deedStampBytes copy' other = some (((patch pen.block o new).drop o').take len', len') :=
      fun other o' len' hother => by
    have hle : pen.prologue ≤ o' := (deedStampLoop_inside hother).1
    rw [hof'.stampBytes_eq, h.prologue, h.stamps, hloop, hother, Option.map_some,
      drop_of_drop h.behind (hpro.trans hle)]
  constructor
  · refine ⟨(((patch pen.block o new).drop o).take len).drop new.length, ?_⟩
    have hself : (((patch pen.block o new).drop o).take len).take new.length = new := by
      rw [take_take, min_eq_left hnew, slice_patch_self (by omega)]
    rw [hbytes kind o len hfound]
    conv_lhs => rw [← take_append_drop new.length (((patch pen.block o new).drop o).take len), hself]
  · intro other hne
    rw [hof.stampBytes_eq]
    cases hother : deedStampLoop pen.block other (pen.stamps + 1) pen.prologue pen.stamps with
    | none => rw [hof'.stampBytes_eq, h.prologue, h.stamps, hloop, hother]; rfl
    | some r =>
      obtain ⟨o', len'⟩ := r
      have hdis := stampLoop_disjoint hne hfound hother
      rw [hbytes other o' len' hother, slice_patch_of_disjoint hin (by omega)]
      rfl

theorem DeedPen.Sound.read (h : pen.Sound) :
    ∃ copy, copy.Of (deedPenSeal deedPenSum pen) ∧ copy.head = pen.sealedHead deedPenSum ∧
    deedValidate deedPenSum true (deedPenSeal deedPenSum pen).block pen.bytes pen.readHead.role = .ok copy :=
  ⟨_, ⟨rfl, rfl, rfl, UInt16.toNat_ofNat_of_lt' h.prologue_lt, UInt16.toNat_ofNat_of_lt' h.stamps_lt⟩, rfl,
    validate_sealed h⟩

end deeds

/-! ## What a growth writes -/

/-- What holds when a growth is planned. -/
structure VolumeStood.Growing (s : VolumeStood) : Prop where
  role : s.head.head.role = roleHead
  ahead : s.head.head.sectors.toNat + deedSectors < s.ground.sectors
  room : s.layout.dataBlock.toNat + 1 < s.ground.sectors / deedSectors
  more : s.layout.dataBlocks.toNat < s.reach.dataWant
  vol_le : s.reach.volWant ≤ 0xFFFFFFFF
  data_le : s.reach.dataWant ≤ 0xFFFFFFFF

theorem plan_cases {s : VolumeStood} {m : SectorMedium} {mediumSectors : Nat} {p : GrowthPlan}
    (h : s.plan m mediumSectors = some p) : p = s.reach ∧ s.Growing := by
  unfold VolumeStood.plan at h
  split at h
  · cases h
  split at h
  · cases h
  split at h
  · cases h
  split at h
  · cases h
  split at h
  · cases h
  split at h
  · cases h
  split at h
  · cases h
  split at h
  · cases h
  rename_i hrole hahead _ _ hroom hmore hwide _
  cases h
  exact ⟨rfl, not_not.mp hrole, by omega, by omega, by omega, by omega, by omega⟩

theorem reach_cases {s : VolumeStood} (h : s.Growing) :
    s.reach.volWant = s.layout.dataBlock.toNat + s.reach.dataWant + 1 ∧
    s.reach.dataWant ≤ bitmapCoversBlocks s.layout.blockBitmapBlocks ∧
    (s.Clamped → s.reach.volWant < s.ground.sectors / deedSectors) ∧
    (¬ s.Clamped → s.reach.volWant = s.ground.sectors / deedSectors) := by
  have hroom := h.room
  unfold VolumeStood.reach
  dsimp only
  by_cases hclamped : s.Clamped
  · rw [if_pos hclamped]
    unfold VolumeStood.Clamped at hclamped
    exact ⟨rfl, le_rfl, fun _ => by dsimp only; omega, fun hnot => absurd hclamped hnot⟩
  · rw [if_neg hclamped]
    unfold VolumeStood.Clamped at hclamped
    exact ⟨by dsimp only; omega, by dsimp only; omega, fun hyes => absurd hyes hclamped, fun _ => rfl⟩

/-- The copy is of the volume on its new ground, and a reader takes the grown layout from it. -/
structure VolumeStood.Carried (s : VolumeStood) (bb : UInt32) (copy : DeedCopy) : Prop where
  uuid : copy.head.uuid = s.head.head.uuid
  sectors : copy.head.sectors = s.reach.sectors
  tailSector : copy.head.tailSector = s.reach.tail
  layout : takeLayout bb copy = some (s.layout.grown s.reach)

section growth

variable {deedPenSum : Checksum} {m : SectorMedium} {grounds : List MediumGround} {want : Option (List UInt8)}
  {bb : UInt32} {s : VolumeStood} {mediumSectors n : Nat}

theorem toNat_sectors (h : s.Growing) : s.reach.sectors.toNat = s.reach.volWant * deedSectors := by
  have hle := h.vol_le
  exact UInt64.toNat_ofNat_of_lt' (by unfold deedSectors UInt64.size; omega)

theorem toNat_tail (h : s.Growing) : s.reach.tail.toNat = (s.reach.volWant - 1) * deedSectors := by
  have hle := h.vol_le
  exact UInt64.toNat_ofNat_of_lt' (by unfold deedSectors UInt64.size; omega)

theorem grown_fits (h : s.Growing) (hmade : s.WellMade) (hfits : s.layout.Fits n) :
    (s.layout.grown s.reach).Fits (s.reach.sectors.toNat / deedSectors) := by
  obtain ⟨hvol, -, -, -⟩ := reach_cases h
  have hmore := h.more
  have hledger := hmade.ledger
  have hdata : (UInt32.ofNat s.reach.dataWant).toNat = s.reach.dataWant :=
    UInt32.toNat_ofNat_of_lt' (by have := h.data_le; unfold UInt32.size; omega)
  have hblocks : s.reach.sectors.toNat / deedSectors = s.reach.volWant := by
    rw [toNat_sectors h, Nat.mul_div_cancel _ (by decide)]
  unfold VolumeLayout.Fits at hfits ⊢
  simp only [grown, hdata, hblocks]
  have hne : UInt32.ofNat s.reach.dataWant ≠ 0 := fun hzero => by
    rw [hzero] at hdata
    have hz : (0 : UInt32).toNat = 0 := rfl
    omega
  simp only [not_or] at hfits ⊢
  exact ⟨hfits.1, hne, by omega, by omega, hfits.2.2.2.2⟩

theorem carried_of_amends (hgrow : s.Growing) (hmade : s.WellMade) {pen q : DeedPen} {o len : Nat} {copy : DeedCopy}
    (hsound : pen.Sound) (hof : s.head.Of pen)
    (hfound : deedStampLoop pen.block stampLayout (pen.stamps + 1) pen.prologue pen.stamps = some (o, len))
    (htake : takeLayout bb s.head = some s.layout) (hq : q.Amends pen o (s.layout.grown s.reach).encode)
    (huuid : q.readHead.uuid = s.head.head.uuid) (hsectors : q.readHead.sectors = s.reach.sectors)
    (htail : q.readHead.tailSector = s.reach.tail) (hof' : copy.Of (deedPenSeal deedPenSum q))
    (hhead : copy.head = q.sealedHead deedPenSum) : s.Carried bb copy := by
  obtain ⟨payload, bytes, hpayload, hlong, hlayout, hfits, hsaid⟩ := takeLayout_iff.mp htake
  have hlen : bytes = len := by
    rw [hof.stampBytes_eq, hfound, Option.map_some] at hpayload
    exact (congrArg Prod.snd (some.inj hpayload)).symm
  obtain ⟨⟨rest, hnew⟩, hother⟩ := hq.sealed.1.stamps_eq hsound hof hof' hfound
    (by rw [length_encode]; omega)
  have hgeometry : saidBlockBytes bb copy = saidBlockBytes bb s.head := by
    rw [saidBlockBytes, saidBlockBytes, hother stampGeometry (by decide)]
  have hcopy : copy.head.sectors = s.reach.sectors := (congrArg VolumeDeed.sectors hhead).trans hsectors
  refine ⟨(congrArg VolumeDeed.uuid hhead).trans huuid, hcopy, (congrArg VolumeDeed.tailSector hhead).trans htail,
    takeLayout_iff.mpr ⟨_, len, hnew, hlen ▸ hlong, (VolumeLayout.decode_encode _ rest).symm, ?_,
    hgeometry.trans hsaid⟩⟩
  rw [hcopy]
  exact grown_fits hgrow hmade hfits

/-- A growth writes the far copy, the head, and zeros over the old far copy, and a reader takes both new deeds. -/
theorem growthWrites_eq (hgrow : s.Growing) (hmade : s.WellMade) (hplan : s.plan m mediumSectors = some s.reach)
    (hread : deedReadAt deedPenSum m s.ground.startSector roleHead = some s.head)
    (htake : takeLayout bb s.head = some s.layout) :
    ∃ (tail head : List UInt8) (copyT copyH : DeedCopy), tail.length = deedBytes ∧ head.length = deedBytes ∧
    s.growthWrites deedPenSum m mediumSectors = [(s.ground.startSector + s.reach.tail.toNat, tail),
    (s.ground.startSector, head), (s.ground.startSector + s.head.head.tailSector.toNat, replicate deedBytes 0)] ∧
    deedValidate deedPenSum true tail deedBytes roleTail = .ok copyT ∧ s.Carried bb copyT ∧
    deedValidate deedPenSum true head deedBytes roleHead = .ok copyH ∧ s.Carried bb copyH := by
  obtain ⟨raw, hraw, hvalid⟩ := deedReadAt_cases hread
  have hlen : raw.length = deedBytes := length_readSectors hraw
  obtain ⟨hcopy, -, pen, hpen, hsound, hblock, hbytes, hprologue, hstamps⟩ := take_of_validate hlen hvalid
  have hdecode : pen.readHead = s.head.head := by rw [DeedPen.readHead, hblock, hcopy]
  have hof :
    s.head.Of pen := ⟨by rw [hblock, hcopy], by rw [hbytes, hcopy], by rw [hblock, hprologue, hcopy], hprologue.symm,
    hstamps.symm⟩
  obtain ⟨payload, len, hpayload, hlong, -⟩ := takeLayout_iff.mp htake
  rw [hof.stampBytes_eq] at hpayload
  obtain ⟨⟨o, len'⟩, hfound, heq⟩ := map_eq_some_iff.mp hpayload
  obtain rfl : len' = len := congrArg Prod.snd heq
  -- the layout is written in its place
  obtain ⟨ho, hin⟩ := deedStampLoop_inside hfound
  dsimp only at ho hin
  have hoff : deedSize ≤ o := hsound.head.trans ho
  have hroom : o + (s.layout.grown s.reach).encode.length ≤ pen.block.length := by
    have := hsound.inside
    rw [length_encode, hsound.length]
    omega
  set enc := (s.layout.grown s.reach).encode with henc
  set live : DeedPen := { pen with block := patch pen.block o enc } with hlive
  have hamends : live.Amends pen o enc := ⟨hsound.patch hroom hoff, rfl, rfl, rfl, rfl⟩
  have hliveHead : live.readHead = s.head.head := (decode_patch hroom hoff).trans hdecode
  obtain ⟨hground, hgroundHead⟩ := hamends.set (.ground s.reach.sectors s.reach.tail)
  obtain ⟨hfar, hfarHead⟩ := hground.set (.role roleTail)
  obtain ⟨htailPen, htailHead⟩ := @DeedPen.Amends.sealed deedPenSum _ _ _ _ hfar
  obtain ⟨hnear, hnearHead⟩ := htailPen.set (.role roleHead)
  set far := (live.set (.ground s.reach.sectors s.reach.tail)).set (.role roleTail) with hfarDef
  set near := (deedPenSeal deedPenSum far).set (.role roleHead) with hnearDef
  have hfarFields : far.readHead.uuid = s.head.head.uuid ∧ far.readHead.sectors = s.reach.sectors ∧
      far.readHead.tailSector = s.reach.tail ∧ far.readHead.role = roleTail := by
    rw [hfarHead, hgroundHead, hliveHead]
    exact ⟨rfl, rfl, rfl, rfl⟩
  have hnearFields : near.readHead.uuid = s.head.head.uuid ∧ near.readHead.sectors = s.reach.sectors ∧
      near.readHead.tailSector = s.reach.tail ∧ near.readHead.role = roleHead := by
    rw [hnearHead, htailHead]
    exact ⟨hfarFields.1, hfarFields.2.1, hfarFields.2.2.1, rfl⟩
  obtain ⟨copyT, hofT, hheadT, hvalidT⟩ := @DeedPen.Sound.read deedPenSum far hfar.sound
  obtain ⟨copyH, hofH, hheadH, hvalidH⟩ := @DeedPen.Sound.read deedPenSum near hnear.sound
  have hcarriedT :
    s.Carried bb copyT := carried_of_amends hgrow hmade hsound hof hfound htake hfar hfarFields.1 hfarFields.2.1
    hfarFields.2.2.1 hofT hheadT
  have hcarriedH :
    s.Carried bb copyH := carried_of_amends hgrow hmade hsound hof hfound htake hnear hnearFields.1 hnearFields.2.1
    hnearFields.2.2.1 hofH hheadH
  rw [hfar.bytes, hbytes, hfarFields.2.2.2] at hvalidT
  rw [hnear.bytes, hbytes, hnearFields.2.2.2] at hvalidH
  have hlenT :
    (deedPenSeal deedPenSum far).block.length = deedBytes := htailPen.sound.length.trans (htailPen.bytes.trans hbytes)
  have hlenH : (deedPenSeal deedPenSum near).block.length = deedBytes := by
    obtain ⟨hsealed, -⟩ := @DeedPen.Amends.sealed deedPenSum _ _ _ _ hnear
    exact hsealed.sound.length.trans (hsealed.bytes.trans hbytes)
  refine ⟨_, _, copyT, copyH, hlenT, hlenH, ?_, hvalidT, hcarriedT, hvalidH, hcarriedH⟩
  -- the far copy is read back
  have hproof : deedReadTail deedPenSum
      (writeDeedBlock m (s.ground.startSector + s.reach.tail.toNat) (deedPenSeal deedPenSum far).block)
      ⟨s.ground.startSector, s.reach.sectors.toNat⟩
      { s.head.head with sectors := s.reach.sectors, tailSector := s.reach.tail } =
        some copyT := by
    unfold deedReadTail
    dsimp only
    rw [deedReadAt_of_read (readSectors_writeDeedBlock hlenT) hvalidT]
    dsimp only
    rw [if_neg (not_not.mpr hcarriedT.uuid), if_neg (not_not.mpr hcarriedT.sectors)]
  have hraw' : s.head.raw = raw ∧ s.head.rawBytes = deedBytes := by rw [hcopy]; exact ⟨rfl, rfl⟩
  rw [VolumeStood.growthWrites, hplan]
  dsimp only
  rw [hraw'.1, hraw'.2, hpen]
  dsimp only
  rw [hsound.find, hfound]
  dsimp only
  rw [if_neg (by omega)]
  simp only [DeedPen.grownTail, DeedPen.grownHead]
  rw [← hlive, ← hfarDef, hproof]

/-! ## The mount after it -/

/-- The media agree outside the ground. -/
def MediumGround.Inside (g : MediumGround) (m m' : SectorMedium) : Prop :=
  ∀ k, k < g.startSector ∨ g.startSector + g.sectors ≤ k → m' k = m k

variable {g : MediumGround} {m' : SectorMedium}

theorem MediumGround.Inside.trans {m m'' : SectorMedium} (h : g.Inside m m') (h' : g.Inside m' m'') :
    g.Inside m m'' := fun k hk => (h' k hk).trans (h k hk)

theorem OnlyAt.inside {m : SectorMedium} {b : Nat} (h : OnlyAt b m m') (hlo : g.startSector ≤ b)
    (hhi : b + deedSectors ≤ g.startSector + g.sectors) : g.Inside m m' := fun k hk => h k (by omega)

theorem MediumGround.Inside.same {h : MediumGround} {m : SectorMedium} (hin : g.Inside m m') (hapart : h.Apart g) :
    h.Same m m' := fun k hlo hhi => hin k (by unfold MediumGround.Apart at hapart; omega)

/-- What is taken is on the same ground and has the old layout or the grown one; its data run lies in the volume and in
what the bitmap accounts for. When it grows in its turn, it is to the same layout. -/
structure VolumeStood.OldOrGrown (s s' : VolumeStood) : Prop where
  ground : s'.ground = s.ground
  layout : s'.layout = s.layout ∨ s'.layout = s.layout.grown s.reach
  inside : s'.layout.dataBlock.toNat + s'.layout.dataBlocks.toNat ≤ s'.head.head.sectors.toNat / deedSectors
  accounted : s'.layout.dataBlocks.toNat ≤ bitmapCoversBlocks s'.layout.blockBitmapBlocks
  again : ∀ (m : SectorMedium) (mediumSectors : Nat) (p : GrowthPlan), s'.plan m mediumSectors = some p →
    s'.layout.grown p = s.layout.grown s.reach

/-- A mount of the medium takes the volume with one of the two layouts. -/
def VolumeStood.TakenAgain (s : VolumeStood) (deedPenSum : Checksum) (grounds : List MediumGround)
    (want : Option (List UInt8)) (bb : UInt32) (m : SectorMedium) : Prop :=
  ∃ s', volumeTakeGround deedPenSum m grounds want bb = some s' ∧ s.OldOrGrown s'

theorem volumeTakeGround_cases (h : volumeTakeGround deedPenSum m grounds want bb = some s) :
    pickGround deedPenSum m grounds want = some (s.head, s.ground) ∧ takeLayout bb s.head = some s.layout := by
  unfold volumeTakeGround at h
  split at h
  · cases h
  rename_i copy g hpick
  obtain ⟨layout, hlayout, rfl⟩ := map_eq_some_iff.mp h
  exact ⟨hpick, hlayout⟩

theorem reach_congr {s' : VolumeStood} (hground : s'.ground = s.ground)
    (hblock : s'.layout.dataBlock = s.layout.dataBlock)
    (hbitmap : s'.layout.blockBitmapBlocks = s.layout.blockBitmapBlocks) : s'.reach = s.reach := by
  have hclamped : s'.Clamped ↔ s.Clamped := by
    unfold VolumeStood.Clamped
    rw [hground, hblock, hbitmap]
  simp only [VolumeStood.reach, hclamped, hground, hblock, hbitmap]

theorem oldOrGrown_self (htake : takeLayout bb s.head = some s.layout) (hmade : s.WellMade) : s.OldOrGrown s := by
  obtain ⟨-, -, -, -, -, hfits, -⟩ := takeLayout_iff.mp htake
  unfold VolumeLayout.Fits at hfits
  refine ⟨rfl, .inl rfl, by omega, hmade.accounted, fun m mediumSectors p hp => ?_⟩
  rw [(plan_cases hp).1]

theorem oldOrGrown_carried (hgrow : s.Growing) {copy : DeedCopy} (hcarried : s.Carried bb copy) :
    s.OldOrGrown ⟨copy, s.ground, s.layout.grown s.reach⟩ := by
  obtain ⟨hvol, hcover, -, -⟩ := reach_cases hgrow
  have hdata : (UInt32.ofNat s.reach.dataWant).toNat = s.reach.dataWant :=
    UInt32.toNat_ofNat_of_lt' (by have := hgrow.data_le; unfold UInt32.size; omega)
  refine ⟨rfl, .inr rfl, ?_, ?_, fun m mediumSectors p hp => ?_⟩
  · dsimp only
    rw [hcarried.sectors, toNat_sectors hgrow, Nat.mul_div_cancel _ (by decide)]
    simp only [grown, hdata]
    omega
  · simp only [grown, hdata]
    exact hcover
  · have hreach : (VolumeStood.mk copy s.ground (s.layout.grown s.reach)).reach = s.reach := reach_congr rfl rfl rfl
    rw [(plan_cases hp).1, hreach]
    rfl

theorem taken_of_deed {copy : DeedCopy} {l : VolumeLayout}
    (hstood : volumeTakeGround deedPenSum m grounds want bb = some s)
    (hapart : ∀ g ∈ grounds, g = s.ground ∨ g.Apart s.ground) (hin : s.ground.Inside m m')
    (hdeed : deedOnGround deedPenSum m' s.ground = some copy) (huuid : copy.head.uuid = s.head.head.uuid)
    (htake : takeLayout bb copy = some l) :
    volumeTakeGround deedPenSum m' grounds want bb = some ⟨copy, s.ground, l⟩ := by
  have hpick :=
    pickGround_again (fun g hg => (hapart g hg).imp_right hin.same) (volumeTakeGround_cases hstood).1 hdeed huuid
  rw [volumeTakeGround, hpick]
  dsimp only
  rw [htake]
  rfl

theorem deedOnGround_of_head {copy : DeedCopy} (h : deedReadHead deedPenSum m g = some copy) :
    deedOnGround deedPenSum m g = some copy := by
  rw [deedOnGround, h]

theorem head_of_stood (hstood : volumeTakeGround deedPenSum m grounds want bb = some s)
    (hrole : s.head.head.role = roleHead) : deedReadHead deedPenSum m s.ground = some s.head := by
  have hdeed := (pickGround_on (volumeTakeGround_cases hstood).1).2
  unfold deedOnGround at hdeed
  split at hdeed
  · rename_i copy hcopy
    cases hdeed
    exact hcopy
  -- a far copy says that it is one
  unfold deedReadTailAlone at hdeed
  split at hdeed
  · cases hdeed
  split at hdeed
  · cases hdeed
  rename_i copy hcopy
  split at hdeed
  · cases hdeed
  cases hdeed
  obtain ⟨raw, hraw, hvalid⟩ := deedReadAt_cases hcopy
  have htail := (take_of_validate (length_readSectors hraw) hvalid).2.1
  rw [hrole] at htail
  exact absurd htail (by decide)

theorem growth_places (hgrow : s.Growing) (hmade : s.WellMade) (hfits : s.layout.Fits n) :
    2 * deedSectors ≤ s.reach.tail.toNat ∧ s.reach.tail.toNat + deedSectors ≤ s.ground.sectors ∧
    s.head.head.tailSector.toNat + deedSectors ≤ s.ground.sectors ∧
    (s.Clamped → s.reach.tail.toNat + deedSectors ≤ (s.ground.sectors / deedSectors - 1) * deedSectors) ∧
    (¬ s.Clamped → s.reach.tail.toNat = (s.ground.sectors / deedSectors - 1) * deedSectors) := by
  obtain ⟨hvol, -, hclamped, hwhole⟩ := reach_cases hgrow
  have hmore := hgrow.more
  have hahead := hgrow.ahead
  have hinside := hmade.inside
  have hblock : s.layout.dataBlock.toNat ≠ 0 := fun hzero =>
    hfits (.inl (UInt32.toNat_inj.mp hzero))
  have htail := toNat_tail hgrow
  unfold deedSectors at *
  by_cases h : s.Clamped
  · have hlt := hclamped h
    exact ⟨by omega, by omega, by omega, fun _ => by omega, fun hnot => absurd h hnot⟩
  · have heq := hwhole h
    exact ⟨by omega, by omega, by omega, fun hyes => absurd hyes h, fun _ => by rw [htail, heq]⟩

theorem headFits_carried (hgrow : s.Growing) (hmade : s.WellMade) (hfits : s.layout.Fits n) {copy : DeedCopy}
    (hcarried : s.Carried bb copy) : HeadFits s.ground copy := by
  obtain ⟨hlo, hhi, -, -, -⟩ := growth_places hgrow hmade hfits
  obtain ⟨hvol, -, -, -⟩ := reach_cases hgrow
  have hsectors := toNat_sectors hgrow
  have htail := toNat_tail hgrow
  have hle := hgrow.vol_le
  unfold HeadFits
  rw [hcarried.sectors, hcarried.tailSector]
  unfold deedSectors at *
  refine ⟨by omega, fun hzero => ?_, UInt64.le_iff_toNat_le.mpr ?_⟩
  · rw [hzero] at hlo
    exact absurd hlo (by decide)
  · have hadd : (s.reach.tail + 8).toNat = (s.reach.tail.toNat + 8) % 2 ^ 64 := UInt64.toNat_add _ _
    rw [hadd]
    omega

/-- A growth is safe against every interruption exactly when there is none, when the new far copy stands in the last
block of the ground, or when the volume can be taken without its head as it is. -/
theorem interrupted_growth_taken_iff (hstood : volumeTakeGround deedPenSum m grounds want bb = some s)
    (hmade : s.WellMade) (hapart : ∀ g ∈ grounds, g = s.ground ∨ g.Apart s.ground) (mediumSectors : Nat) :
    (∀ m', CutOff m (s.growthWrites deedPenSum m mediumSectors) m' → s.TakenAgain deedPenSum grounds want bb m') ↔
      (s.plan m mediumSectors = none ∨
        ¬ s.Clamped ∨ s.TakenAgain deedPenSum grounds want bb (tearDeedBlock m s.ground.startSector)) := by
  obtain ⟨hpick, htake⟩ := volumeTakeGround_cases hstood
  have hself : s.TakenAgain deedPenSum grounds want bb m := ⟨s, hstood, oldOrGrown_self htake hmade⟩
  cases hplan : s.plan m mediumSectors with
  | none =>
    refine ⟨fun _ => .inl rfl, fun _ m' hcut => ?_⟩
    rw [VolumeStood.growthWrites, hplan] at hcut
    cases hcut
    exact hself
  | some p =>
    obtain ⟨rfl, hgrow⟩ := plan_cases hplan
    have hhead := head_of_stood hstood hgrow.role
    obtain ⟨hlong, hreadHead, -⟩ := deedReadHead_iff.mp hhead
    obtain ⟨tail, head, copyT, copyH, hlenT, hlenH, hwrites, hvalidT, hcarriedT, hvalidH, hcarriedH⟩ :=
      growthWrites_eq hgrow hmade hplan hreadHead htake
    obtain ⟨-, -, -, -, -, hfits, -⟩ := takeLayout_iff.mp htake
    obtain ⟨hlo, hhi, hold, hclamped, hwhole⟩ := growth_places hgrow hmade hfits
    have hfar := hmade.farCopy
    rw [hwrites]
    set base := s.ground.startSector with hbase
    set far := base + s.reach.tail.toNat with hfarDef
    set old := base + s.head.head.tailSector.toNat with holdDef
    set m1 := writeDeedBlock m far tail with hm1
    set m2 := writeDeedBlock m1 base head with hm2
    -- the media after each of the writes differ from the first inside the ground only
    have hin1 : s.ground.Inside m m1 := (onlyAt_write far).inside (by omega) (by omega)
    have hin2 : s.ground.Inside m m2 := hin1.trans ((onlyAt_write base).inside (by omega) (by omega))
    -- a head that is out of reach of a write is read as before
    have hheadOf : ∀ {m' : SectorMedium} {copy : DeedCopy}, deedReadAt deedPenSum m' base roleHead = some copy →
        HeadFits s.ground copy → deedOnGround deedPenSum m' s.ground = some copy := fun hread hok =>
      deedOnGround_of_head (deedReadHead_iff.mpr ⟨hlong, hread, hok⟩)
    have holdTaken : ∀ {m' : SectorMedium}, s.ground.Inside m m' → OnlyAt far m m' →
      s.TakenAgain deedPenSum grounds want bb m' :=
      fun hin honly =>
      ⟨s, taken_of_deed hstood hapart hin (hheadOf ((deedReadAt_congr (honly.read (.inl (by omega)))).trans
        hreadHead) (deedReadHead_iff.mp hhead).2.2) rfl htake, oldOrGrown_self htake hmade⟩
    have hcarriedTaken : ∀ {m' : SectorMedium} {copy : DeedCopy}, s.ground.Inside m m' → s.Carried bb copy →
        deedOnGround deedPenSum m' s.ground = some copy → s.TakenAgain deedPenSum grounds want bb m' :=
      fun hin hcarried hdeed => ⟨_, taken_of_deed hstood hapart hin hdeed hcarried.uuid hcarried.layout,
        oldOrGrown_carried hgrow hcarried⟩
    have hread2 : deedReadAt deedPenSum m2 base roleHead = some copyH :=
      deedReadAt_of_read (readSectors_writeDeedBlock hlenH) hvalidH
    have hnewTaken : ∀ {m' : SectorMedium}, OnlyAt old m2 m' →
      s.TakenAgain deedPenSum grounds want bb m' := fun honly =>
      hcarriedTaken (hin2.trans (honly.inside (by omega) (by omega))) hcarriedH
        (hheadOf ((deedReadAt_congr (honly.read (.inl (by omega)))).trans hread2)
        (headFits_carried hgrow hmade hfits hcarriedH))
    -- the head is being written
    set torn := tearDeedBlock m1 base with htornDef
    have hblind : ∀ m' : SectorMedium, deedReadHead deedPenSum (tearDeedBlock m' base) s.ground = none := fun m' => by
      cases hread : deedReadHead deedPenSum (tearDeedBlock m' base) s.ground with
      | none => rfl
      | some copy =>
        obtain ⟨raw, hraw, -⟩ := deedReadAt_cases (deedReadHead_iff.mp hread).2.1
        rw [readSectors_tearDeedBlock] at hraw
        exact nomatch hraw
    have htorn : s.TakenAgain deedPenSum grounds want bb torn ↔
        (¬ s.Clamped ∨ s.TakenAgain deedPenSum grounds want bb (tearDeedBlock m base)) := by
      by_cases h : s.Clamped
      · -- nobody reads where the new far copy stands
        have honly : OnlyAt far (tearDeedBlock m base) torn := fun k hk => by
          simp only [htornDef, tearDeedBlock, hm1, onlyAt_write far k hk]
        have hground :
            deedOnGround deedPenSum torn s.ground = deedOnGround deedPenSum (tearDeedBlock m base) s.ground := by
          have hread := hclamped h
          rw [deedOnGround, deedOnGround, hblind, hblind]
          unfold deedReadTailAlone
          rw [deedReadAt_congr (honly.read (.inr (by omega)))]
        have hpick' :
          pickGround deedPenSum torn grounds want = pickGround deedPenSum (tearDeedBlock m base) grounds want :=
          pickGround_congr fun g hg => (hapart g hg).elim (fun heq => heq ▸ hground) fun hoff =>
            deedOnGround_congr (MediumGround.Inside.same (honly.inside (by omega) (by omega)) hoff)
        unfold VolumeStood.TakenAgain volumeTakeGround
        rw [hpick']
        exact ⟨.inr, fun hor => hor.resolve_left (not_not.mpr h)⟩
      · -- the last block of the ground has the new far copy
        refine ⟨fun _ => .inl h, fun _ =>
          hcarriedTaken (hin1.trans ((onlyAt_tear base).inside (by omega) (by omega))) hcarriedT ?_⟩
        have hlast : s.ground.startSector + (s.ground.sectors / deedSectors - 1) * deedSectors = far := by
          rw [hfarDef, hwhole h]
        have hread : deedReadAt deedPenSum torn far roleTail = some copyT :=
          (deedReadAt_congr ((onlyAt_tear base).read (.inr (by omega)))).trans
            (deedReadAt_of_read (readSectors_writeDeedBlock hlenT) hvalidT)
        rw [deedOnGround, hblind]
        unfold deedReadTailAlone
        rw [hlast, hread, if_neg (by unfold deedSectors at *; omega)]
        dsimp only
        rw [if_neg (by have := (headFits_carried hgrow hmade hfits hcarriedT).1; omega)]
    constructor
    · intro hall
      exact .inr (htorn.mp (hall torn (.next _ (.torn _ _ _))))
    · intro hcond m' hcut
      have hmid := htorn.mpr (hcond.resolve_left (by simp))
      cases hcut with
      | stop => exact hself
      | torn => exact holdTaken ((onlyAt_tear far).inside (by omega) (by omega)) (onlyAt_tear far)
      | next _ hcut =>
        cases hcut with
        | stop => exact holdTaken hin1 (onlyAt_write far)
        | torn => exact hmid
        | next _ hcut =>
          cases hcut with
          | stop => exact hnewTaken fun _ _ => rfl
          | torn => exact hnewTaken (onlyAt_tear old)
          | next _ hcut =>
            cases hcut
            exact hnewTaken (onlyAt_write old)

end growth

/-! ## A volume and two grounds -/

def deedPenSum (data : List UInt8) : UInt32 :=
  let step (crc : UInt32) : UInt32 := (crc >>> 1) ^^^ (0xEDB88320 &&& (0 - (crc &&& 1)))
  ~~~ data.foldl (fun crc b => Nat.repeat step 8 (crc ^^^ b.toUInt32)) 0xFFFFFFFF

/-- One bitmap block in front of 32760 data blocks. -/
def youngLayout : VolumeLayout where
  totalBlocks := 32765
  stateBlock := 1
  stateBlocks := 2
  tagRegistryBlock := 4
  tagRegistryBlocks := 1
  fileTableBlock := 5
  fileTableBlocks := 1
  metadataPoolBlock := 6
  metadataPoolBlocks := 1
  blockBitmapBlock := 3
  blockBitmapBlocks := 1
  diskBookBlock := 0
  diskBookBlocks := 0
  dataBlock := 4
  dataBlocks := 32760

/-- A deed with a geometry and the layout. -/
def youngDeed (role : UInt32) : List UInt8 :=
  match (deedPenOpen deedBytes).sayAll
      [⟨stampGeometry, packFields [(4, 512), (4, 4096), (4, 1048576), (4, 4096)], by decide⟩,
      ⟨stampLayout, youngLayout.encode, by decide⟩] with
  | none => []
  | some pen => (deedPenSeal deedPenSum ((pen.set (.ground 262120 262112)).set (.role role))).block

/-- The volume as it was laid out, and zeros behind it. -/
def youngMedium : SectorMedium := fun k =>
  if k < 8 then some (sectorOf (youngDeed roleHead) k)
  else if 262112 ≤ k ∧ k < 262120 then some (sectorOf (youngDeed roleTail) (k - 262112))
  else some (sectorOf [] 0)

instance VolumeStood.decidableWellMade (s : VolumeStood) : Decidable s.WellMade :=
  decidable_of_iff (s.layout.stateBlock.toNat + s.layout.stateBlocks.toNat ≤ s.layout.dataBlock.toNat ∧
      s.layout.dataBlocks.toNat ≤ bitmapCoversBlocks s.layout.blockBitmapBlocks ∧
      deedSectors ≤ s.head.head.tailSector.toNat ∧
      s.head.head.tailSector.toNat + deedSectors ≤ s.head.head.sectors.toNat)
    ⟨fun h => ⟨h.1, h.2.1, h.2.2.1, h.2.2.2⟩, fun h => ⟨h.ledger, h.accounted, h.farCopy, h.inside⟩⟩

/-- The bitmap accounts for all of this ground. -/
theorem interrupted_growth_taken_sample :
    ∃ s, volumeTakeGround deedPenSum youngMedium [⟨0, 262160⟩] (some (replicate 16 0)) 0 = some s ∧
    s.plan youngMedium 262160 ≠ none ∧ ∀ m', CutOff youngMedium (s.growthWrites deedPenSum youngMedium 262160) m' →
    s.TakenAgain deedPenSum [⟨0, 262160⟩] (some (replicate 16 0)) 0 m' := by
  have hrun : (volumeTakeGround deedPenSum youngMedium [⟨0, 262160⟩] (some (replicate 16 0)) 0).any (fun s =>
      decide (s.WellMade ∧ ¬ s.Clamped ∧ s.ground = ⟨0, 262160⟩ ∧ s.plan youngMedium 262160 ≠ none)) =
        true := by decide +kernel
  obtain ⟨s, hstood, hs⟩ := (Option.any_eq_true _ _).mp hrun
  obtain ⟨hmade, hwhole, hground, hplan⟩ := of_decide_eq_true hs
  have hapart : ∀ g ∈ [⟨0, 262160⟩], g = s.ground ∨ g.Apart s.ground := fun g hg =>
    .inl ((mem_singleton.mp hg).trans hground.symm)
  exact ⟨s, hstood, hplan, (interrupted_growth_taken_iff hstood hmade hapart 262160).mpr (.inr (.inl hwhole))⟩

/-- The machine stops while the head is being written, and no deed is found. -/
def VolumeStood.lostTorn (s : VolumeStood) : Bool :=
  match s.growthWrites deedPenSum youngMedium 264000 with
  | tail :: head :: _ => decide (s.WellMade ∧ (volumeTakeGround deedPenSum
      (tearDeedBlock (writeDeedBlock youngMedium tail.1 tail.2) head.1) [⟨0, 264000⟩] (some (replicate 16 0)) 0).isNone)
  | _ => false

/-- The ground is larger than the bitmap accounts for. -/
theorem clamped_growth_loses_volume :
    ∃ s m', volumeTakeGround deedPenSum youngMedium [⟨0, 264000⟩] (some (replicate 16 0)) 0 = some s ∧ s.WellMade ∧
    CutOff youngMedium (s.growthWrites deedPenSum youngMedium 264000) m' ∧
    volumeTakeGround deedPenSum m' [⟨0, 264000⟩] (some (replicate 16 0)) 0 = none := by
  have hrun : (volumeTakeGround deedPenSum youngMedium [⟨0, 264000⟩] (some (replicate 16 0)) 0).any
      VolumeStood.lostTorn = true := by decide +kernel
  obtain ⟨s, hstood, hs⟩ := (Option.any_eq_true _ _).mp hrun
  unfold VolumeStood.lostTorn at hs
  split at hs
  · rename_i tail head rest hwrites
    obtain ⟨hmade, hnone⟩ := of_decide_eq_true hs
    refine ⟨s, tearDeedBlock (writeDeedBlock youngMedium tail.1 tail.2) head.1, hstood, hmade, ?_,
      isNone_iff_eq_none.mp hnone⟩
    rw [hwrites]
    exact .next tail (.torn _ head rest)
  · exact nomatch hs

end BoxOS.TagFS
