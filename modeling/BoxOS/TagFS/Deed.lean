import BoxOS.TagFS.Ledger

/-!
# The deed of a volume

A deed is a block that starts with a `VolumeDeed` and goes on with stamps: a kind, a length and a payload, padded to
four bytes. `DeedPen` writes one, stamp by stamp, and reads one; `deed_validate` and `DeedStamp` are the kernel's own
reader.

`deed_said_is_read`: when a sealed deed is read back, which the 16-bit `stamp_bytes` decides, and that the two readers
agree. The checksum is any function of the bytes.
-/

namespace BoxOS.TagFS

open Lib List Option

structure VolumeDeed where
  magic : List UInt8
  prologueBytes : UInt16
  stampBytes : UInt16
  crc32 : UInt32
  uuid : List UInt8
  sectors : UInt64
  tailSector : UInt64
  role : UInt32
deriving DecidableEq, Repr

open VolumeDeed

/-- `sizeof(VolumeDeed)`. -/
def deedSize : Nat := 52

/-- `sizeof(VolumeStamp)`. -/
def stampSize : Nat := 4

/-- `DeedPenMagic`: "BOXDEED" and a zero. -/
def deedMagic : List UInt8 := [0x42, 0x4F, 0x58, 0x44, 0x45, 0x45, 0x44, 0x00]

/-- The fields in memory. -/
def VolumeDeed.encode (deed : VolumeDeed) : List UInt8 :=
  deed.magic ++ (packFields [(2, deed.prologueBytes.toNat), (2, deed.stampBytes.toNat), (4, deed.crc32.toNat)] ++
    (deed.uuid ++ packFields [(8, deed.sectors.toNat), (8, deed.tailSector.toNat), (4, deed.role.toNat)]))

def VolumeDeed.decode (buf : List UInt8) : VolumeDeed where
  magic := buf.take 8
  prologueBytes := UInt16.ofNat (fieldAt 2 8 buf)
  stampBytes := UInt16.ofNat (fieldAt 2 10 buf)
  crc32 := UInt32.ofNat (fieldAt 4 12 buf)
  uuid := (buf.drop 16).take 16
  sectors := UInt64.ofNat (fieldAt 8 32 buf)
  tailSector := UInt64.ofNat (fieldAt 8 40 buf)
  role := UInt32.ofNat (fieldAt 4 48 buf)

/-- `(n + 3u) & ~3u`. -/
def align4 (n : Nat) : Nat := (n + 3) / 4 * 4

/-- A stamp as it is said: its length is a `uint16_t`. -/
structure Stamp where
  kind : UInt16
  payload : List UInt8
  short : payload.length < 2 ^ 16

/-- The place a stamp takes. -/
def Stamp.step (s : Stamp) : Nat := align4 (stampSize + s.payload.length)

/-! ## The pen -/

structure DeedPen where
  block : List UInt8
  bytes : Nat
  prologue : Nat
  stamps : Nat
deriving DecidableEq

/-- `DeedPenReadHead`. -/
def DeedPen.readHead (pen : DeedPen) : VolumeDeed := decode pen.block

/-- `DeedPenWriteHead`. -/
def DeedPen.writeHead (pen : DeedPen) (deed : VolumeDeed) : DeedPen :=
  { pen with block := patch pen.block 0 deed.encode }

/-- `DeedPenOpen`, on a block of so many bytes. -/
def deedPenOpen (bytes : Nat) : DeedPen :=
  let pen : DeedPen := ⟨replicate bytes 0, bytes, deedSize, 0⟩
  pen.writeHead ⟨deedMagic, UInt16.ofNat pen.prologue, 0, 0, replicate 16 0, 0, 0, 0⟩

/-- `DeedPenSay`. -/
def DeedPen.say (pen : DeedPen) (s : Stamp) : Option DeedPen :=
  let start := pen.prologue + pen.stamps
  let step := s.step
  if start > pen.bytes ∨ step > pen.bytes - start then none
  else
    let block := patch pen.block start (leBytes 2 s.kind.toNat ++ leBytes 2 s.payload.length)
    some { pen with block := patch block (start + stampSize) s.payload, stamps := pen.stamps + step }

/-- A sequence of `DeedPenSay`, all of which succeed. -/
def DeedPen.sayAll (pen : DeedPen) (said : List Stamp) : Option DeedPen := said.foldlM DeedPen.say pen

/-- `DeedPenSetUuid`, `DeedPenSetGround` and `DeedPenSetRole`. -/
inductive DeedSet where
  | uuid (uuid : List UInt8) (full : uuid.length = 16)
  | ground (sectors tailSector : UInt64)
  | role (role : UInt32)

/-- What a set does to the head. -/
def DeedSet.write (deed : VolumeDeed) : DeedSet → VolumeDeed
  | .uuid u _ => { deed with uuid := u }
  | .ground sectors tailSector => { deed with sectors := sectors, tailSector := tailSector }
  | .role r => { deed with role := r }

def DeedPen.set (pen : DeedPen) (s : DeedSet) : DeedPen := pen.writeHead (s.write pen.readHead)

/-- The first half of `DeedPenSeal`: the lengths are in place, the checksum is empty. -/
def DeedPen.unsealed (pen : DeedPen) : DeedPen :=
  pen.writeHead { pen.readHead with
    prologueBytes := UInt16.ofNat pen.prologue
    stampBytes := UInt16.ofNat pen.stamps
    crc32 := 0 }

def deedPenSeal (deedPenSum : Checksum) (pen : DeedPen) : DeedPen :=
  let pen := pen.unsealed
  pen.writeHead { pen.readHead with crc32 := deedPenSum (pen.block.take (pen.prologue + pen.stamps)) }

variable (block : List UInt8)

def deedPenTake (bytes : Nat) : Option DeedPen :=
  if bytes < deedSize then none
  else if block.take 8 ≠ deedMagic then none
  else
    let deed := decode block
    if deed.prologueBytes.toNat < deedSize then none
    else if deed.prologueBytes.toNat > bytes then none
    else if deed.stampBytes.toNat > bytes - deed.prologueBytes.toNat then none
    else some ⟨block, bytes, deed.prologueBytes.toNat, deed.stampBytes.toNat⟩

/-- The loop of `DeedPenFind`: every turn passes a byte of what is left. -/
def deedPenFindLoop (block : List UInt8) (kind : UInt16) : Nat → Nat → Nat → Option (Nat × Nat)
  | 0, _, _ => none
  | fuel + 1, p, left =>
    if left ≥ stampSize then
      let payload := fieldAt 2 (p + 2) block
      if payload > left - stampSize then none
      else if UInt16.ofNat (fieldAt 2 p block) = kind then some (p + stampSize, payload)
      else
        let step := align4 (stampSize + payload)
        if step > left then none else deedPenFindLoop block kind fuel (p + step) (left - step)
    else none

/-- `DeedPenFind`: the offset of the payload in the block, and its length. -/
def deedPenFind (pen : DeedPen) (kind : UInt16) : Option (Nat × Nat) :=
  if pen.prologue = 0 then none else deedPenFindLoop pen.block kind (pen.stamps + 1) pen.prologue pen.stamps

/-! ## The kernel's reader -/

/-- The errors of `deed_validate`. -/
inductive DeedError where
  | invalidArgument
  | fileNotFound
  | noMemory
  | corrupted
deriving DecidableEq

/-- `DeedCopy`: `stamps` is what stands from that pointer on. -/
structure DeedCopy where
  head : VolumeDeed
  stamps : List UInt8
  raw : List UInt8
  rawBytes : Nat
deriving DecidableEq

/-- `deed_validate`; `kmalloc` says whether there is room for the probe. -/
def deedValidate (deedPenSum : Checksum) (kmalloc : Bool) (raw : List UInt8) (rawBytes : Nat) (wantRole : UInt32) :
    Except DeedError DeedCopy :=
  if rawBytes < deedSize then .error .invalidArgument
  else
    let deed := decode raw
    if raw.take 8 ≠ deedMagic then .error .fileNotFound
    else if deed.prologueBytes.toNat < deedSize ∨ deed.prologueBytes.toNat > rawBytes ∨
        deed.stampBytes.toNat > rawBytes - deed.prologueBytes.toNat then .error .invalidArgument
    else if kmalloc = false then .error .noMemory
    else
      let summedBytes := deed.prologueBytes.toNat + deed.stampBytes.toNat
      if deedPenSum (patch (raw.take summedBytes) 12 [0, 0, 0, 0]) ≠ deed.crc32 then .error .corrupted
      else if deed.role ≠ wantRole then .error .invalidArgument
      else .ok ⟨deed, raw.drop deed.prologueBytes.toNat, raw, rawBytes⟩

/-- The loop of `DeedStamp`: the offset of the payload behind `stamps`, and its length. -/
def deedStampLoop (stamps : List UInt8) (kind : UInt16) : Nat → Nat → Nat → Option (Nat × Nat)
  | 0, _, _ => none
  | fuel + 1, p, left =>
    if left ≥ stampSize then
      let payload := fieldAt 2 (p + 2) stamps
      if payload > left - stampSize then none
      else if UInt16.ofNat (fieldAt 2 p stamps) = kind then some (p + stampSize, payload)
      else
        let step := align4 (stampSize + payload)
        if step > left then none else deedStampLoop stamps kind fuel (p + step) (left - step)
    else none

/-- `DeedStamp`: the offset of the payload in the block, and its length. -/
def deedStamp (copy : DeedCopy) (kind : UInt16) : Option (Nat × Nat) :=
  (deedStampLoop copy.stamps kind (copy.head.stampBytes.toNat + 1) 0 copy.head.stampBytes.toNat).map fun r =>
    (copy.head.prologueBytes.toNat + r.1, r.2)

/-- The payload `DeedStamp` returns, and its length. -/
def deedStampBytes (copy : DeedCopy) (kind : UInt16) : Option (List UInt8 × Nat) :=
  (deedStamp copy kind).map fun r => ((copy.raw.drop r.1).take r.2, r.2)

/-! ## The two readers agree -/

theorem deedPenFindLoop_eq (kind : UInt16) (k fuel p left : Nat) :
    deedPenFindLoop block kind fuel (k + p) left =
      (deedStampLoop (block.drop k) kind fuel p left).map fun r => (k + r.1, r.2) := by
  induction fuel generalizing p left with
  | zero => rfl
  | succ fuel ih =>
    have hkind : fieldAt 2 p (block.drop k) = fieldAt 2 (k + p) block := fieldAt_drop _ _ _ _
    have hbytes : fieldAt 2 (p + 2) (block.drop k) = fieldAt 2 (k + p + 2) block := by rw [fieldAt_drop, Nat.add_assoc]
    simp only [deedPenFindLoop, deedStampLoop, hkind, hbytes]
    split
    · split
      · rfl
      · split
        · simp [Nat.add_assoc]
        · split
          · rfl
          · rw [Nat.add_assoc]
            exact ih _ _
    · rfl

theorem deedStampLoop_inside {stamps : List UInt8} {kind : UInt16} {fuel p left : Nat} {r : Nat × Nat}
    (h : deedStampLoop stamps kind fuel p left = some r) : p ≤ r.1 ∧ r.1 + r.2 ≤ p + left := by
  induction fuel generalizing p left with
  | zero => cases h
  | succ fuel ih =>
    rw [deedStampLoop] at h
    split at h
    · dsimp only at h
      split at h
      · cases h
      split at h
      · cases h
        omega
      split at h
      · cases h
      · obtain ⟨hlo, hhi⟩ := ih h
        omega
    · cases h

theorem uint16_toNat_zero_ne {n : UInt16} (h : ¬ n.toNat < deedSize) : n.toNat ≠ 0 := by
  unfold deedSize at h
  omega

/-- What both readers accept they read alike, and inside the block. -/
theorem deed_readers_agree {deedPenSum : Checksum} {raw : List UInt8} {bytes : Nat} {wantRole : UInt32} {kmalloc : Bool}
    {pen : DeedPen} {copy : DeedCopy} (htake : deedPenTake raw bytes = some pen)
    (hvalid : deedValidate deedPenSum kmalloc raw bytes wantRole = .ok copy) (kind : UInt16) :
    deedPenFind pen kind = deedStamp copy kind ∧ ∀ r, deedStamp copy kind = some r → r.1 + r.2 ≤ bytes := by
  unfold deedPenTake at htake
  unfold deedValidate at hvalid
  dsimp only at htake hvalid
  split at htake
  · cases htake
  split at htake
  · cases htake
  split at htake
  · cases htake
  rename_i hlong
  split at htake
  · cases htake
  rename_i hbytes
  split at htake
  · cases htake
  rename_i hstamps
  cases htake
  split at hvalid
  · cases hvalid
  split at hvalid
  · cases hvalid
  split at hvalid
  · cases hvalid
  split at hvalid
  · cases hvalid
  split at hvalid
  · cases hvalid
  cases hvalid
  have hloop := deedPenFindLoop_eq raw kind (decode raw).prologueBytes.toNat
    ((decode raw).stampBytes.toNat + 1) 0 (decode raw).stampBytes.toNat
  constructor
  · rw [deedPenFind, if_neg (uint16_toNat_zero_ne hlong)]
    exact hloop
  · intro r hr
    obtain ⟨q, hq, rfl⟩ := map_eq_some_iff.mp hr
    have hin : q.1 + q.2 ≤ 0 + (decode raw).stampBytes.toNat := (deedStampLoop_inside hq).2
    dsimp only
    omega

/-! ## The head -/

/-- The fields of fixed length have it. -/
structure VolumeDeed.WellFormed (deed : VolumeDeed) : Prop where
  magic : deed.magic.length = 8
  uuid : deed.uuid.length = 16

variable {deed : VolumeDeed}

theorem VolumeDeed.length_encode (h : deed.WellFormed) : deed.encode.length = deedSize := by
  simp [encode, h.magic, h.uuid, length_packFields, deedSize]

theorem VolumeDeed.decode_encode (h : deed.WellFormed) (rest : List UInt8) :
    decode (deed.encode ++ rest) = deed := by
  have hmagic := h.magic
  have huuid := h.uuid
  set lens : List (Nat × Nat) :=
    [(2, deed.prologueBytes.toNat), (2, deed.stampBytes.toNat), (4, deed.crc32.toNat)] with hlens
  set ground : List (Nat × Nat) :=
    [(8, deed.sectors.toNat), (8, deed.tailSector.toNat), (4, deed.role.toNat)] with hground
  have hsplit :
      deed.encode ++ rest = deed.magic ++ (packFields lens ++ (deed.uuid ++ (packFields ground ++ rest))) := by
    simp only [encode, append_assoc, hlens, hground]
  have hsplit' : deed.encode ++ rest = (deed.magic ++ packFields lens ++ deed.uuid) ++ (packFields ground ++ rest) := by
    rw [hsplit]
    simp only [append_assoc]
  have hfront : (deed.magic ++ packFields lens ++ deed.uuid).length = 32 := by
    simp [hmagic, huuid, length_packFields, hlens]
  have hlen : ∀ {i n v off : Nat}, lens[i]? = some (n, v) → 8 + ((lens.take i).map Prod.fst).sum = off → v < 256 ^ n →
      fieldAt n off (deed.encode ++ rest) = v := by
    intro i n v off hi hoff hv
    rw [hsplit, ← hoff, fieldAt_append_left hmagic]
    exact fieldAt_packFields hi rfl hv _
  have hgnd : ∀ {i n v off : Nat}, ground[i]? = some (n, v) → 32 + ((ground.take i).map Prod.fst).sum = off →
      v < 256 ^ n → fieldAt n off (deed.encode ++ rest) = v := by
    intro i n v off hi hoff hv
    rw [hsplit', ← hoff, fieldAt_append_left hfront]
    exact fieldAt_packFields hi rfl hv rest
  have h0 : fieldAt 2 8 (deed.encode ++ rest) = deed.prologueBytes.toNat := @hlen 0 _ _ _ rfl rfl (UInt16.toNat_lt _)
  have h1 : fieldAt 2 10 (deed.encode ++ rest) = deed.stampBytes.toNat := @hlen 1 _ _ _ rfl rfl (UInt16.toNat_lt _)
  have h2 : fieldAt 4 12 (deed.encode ++ rest) = deed.crc32.toNat := @hlen 2 _ _ _ rfl rfl (UInt32.toNat_lt _)
  have h3 : fieldAt 8 32 (deed.encode ++ rest) = deed.sectors.toNat := @hgnd 0 _ _ _ rfl rfl (UInt64.toNat_lt _)
  have h4 : fieldAt 8 40 (deed.encode ++ rest) = deed.tailSector.toNat := @hgnd 1 _ _ _ rfl rfl (UInt64.toNat_lt _)
  have h5 : fieldAt 4 48 (deed.encode ++ rest) = deed.role.toNat := @hgnd 2 _ _ _ rfl rfl (UInt32.toNat_lt _)
  have hm : (deed.encode ++ rest).take 8 = deed.magic := by rw [hsplit, take_left' hmagic]
  have hu : ((deed.encode ++ rest).drop 16).take 16 = deed.uuid := by
    have hpre : (deed.magic ++ packFields lens).length = 16 := by simp [hmagic, length_packFields, hlens]
    rw [hsplit, ← append_assoc deed.magic, drop_left' hpre, take_left' huuid]
  rw [decode, hm, hu, h0, h1, h2, h3, h4, h5]
  simp only [UInt16.ofNat_toNat, UInt32.ofNat_toNat, UInt64.ofNat_toNat]

theorem VolumeDeed.patch_crc (h : deed.WellFormed) (crc : UInt32) (rest : List UInt8) :
    patch (deed.encode ++ rest) 12 (leBytes 4 crc.toNat) = { deed with crc32 := crc }.encode ++ rest := by
  have hsplit : ∀ crc : UInt32, { deed with crc32 := crc }.encode ++ rest =
      (deed.magic ++ (leBytes 2 deed.prologueBytes.toNat ++ leBytes 2 deed.stampBytes.toNat)) ++ (leBytes 4 crc.toNat ++
        (deed.uuid ++
        (packFields [(8, deed.sectors.toNat), (8, deed.tailSector.toNat), (4, deed.role.toNat)] ++ rest))) := by
    intro crc
    simp [encode, packFields]
  have hself := hsplit deed.crc32
  rw [hsplit crc]
  rw [show ({ deed with crc32 := deed.crc32 } : VolumeDeed) = deed from rfl] at hself
  rw [hself]
  exact patch_middle (by simp [h.magic]) (by simp) _

/-! ## What the pen writes -/

/-- A stamp in memory, with its padding. -/
def Stamp.encode (s : Stamp) : List UInt8 :=
  leBytes 2 s.kind.toNat ++ (leBytes 2 s.payload.length ++ (s.payload ++
    replicate (s.step - (stampSize + s.payload.length)) 0))

theorem le_align4 (n : Nat) : n ≤ align4 n := by
  unfold align4
  omega

theorem Stamp.length_encode (s : Stamp) : s.encode.length = s.step := by
  have := le_align4 (stampSize + s.payload.length)
  unfold Stamp.step at *
  unfold stampSize at *
  simp only [Stamp.encode, Stamp.step, stampSize, length_append, length_leBytes, length_replicate]
  omega

/-- The stamps one behind the other. -/
def saidBytes (said : List Stamp) : List UInt8 := said.flatMap Stamp.encode

/-- The place the stamps take. -/
def saidSize (said : List Stamp) : Nat := (said.map Stamp.step).sum

theorem length_saidBytes (said : List Stamp) : (saidBytes said).length = saidSize said := by
  induction said with
  | nil => rfl
  | cons s said ih =>
    rw [saidBytes, flatMap_cons, length_append, s.length_encode]
    rw [saidBytes] at ih
    rw [ih]
    rfl

/-- A pen in the middle of its work: the head, the stamps said so far, and zeros to the end of the block. -/
structure DeedPen.Holds (pen : DeedPen) (size : Nat) (deed : VolumeDeed) (said : List Stamp) : Prop where
  block : pen.block = deed.encode ++ (saidBytes said ++ replicate (size - deedSize - saidSize said) 0)
  bytes : pen.bytes = size
  prologue : pen.prologue = deedSize
  stamps : pen.stamps = saidSize said
  fits : deedSize + saidSize said ≤ size
  wellFormed : deed.WellFormed
  magic : deed.magic = deedMagic

namespace DeedPen.Holds

variable {pen : DeedPen} {size : Nat} {deed : VolumeDeed} {said : List Stamp}

theorem readHead (h : pen.Holds size deed said) : pen.readHead = deed := by
  rw [DeedPen.readHead, h.block, VolumeDeed.decode_encode h.wellFormed]

theorem writeHead (h : pen.Holds size deed said) {deed' : VolumeDeed} (hform : deed'.WellFormed)
    (hmagic : deed'.magic = deedMagic) : (pen.writeHead deed').Holds size deed' said := by
  refine ⟨?_, h.bytes, h.prologue, h.stamps, h.fits, hform, hmagic⟩
  have hlen : deed'.encode.length = deed.encode.length := by
    rw [length_encode hform, length_encode h.wellFormed]
  rw [DeedPen.writeHead, h.block]
  have hpatch := @patch_middle [] _ _ 0 rfl hlen (saidBytes said ++ replicate (size - deedSize - saidSize said) 0)
  simpa using hpatch

theorem set (h : pen.Holds size deed said) (s : DeedSet) : (pen.set s).Holds size (s.write deed) said := by
  rw [DeedPen.set, h.readHead]
  cases s with
  | uuid u full => exact h.writeHead ⟨h.wellFormed.magic, full⟩ h.magic
  | ground | role => exact h.writeHead ⟨h.wellFormed.magic, h.wellFormed.uuid⟩ h.magic

theorem sets (h : pen.Holds size deed said) (ops : List DeedSet) :
    (ops.foldl DeedPen.set pen).Holds size (ops.foldl DeedSet.write deed) said := by
  induction ops generalizing pen deed with
  | nil => exact h
  | cons op ops ih => exact ih (h.set op)

theorem say (h : pen.Holds size deed said) {s : Stamp} {pen' : DeedPen} (hsay : pen.say s = some pen') :
    pen'.Holds size deed (said ++ [s]) := by
  unfold DeedPen.say at hsay
  dsimp only at hsay
  split at hsay
  · cases hsay
  rename_i hroom
  cases hsay
  rw [h.prologue, h.stamps, h.bytes] at hroom
  have hfits : deedSize + saidSize said + s.step ≤ size := by omega
  have hsize : saidSize (said ++ [s]) = saidSize said + s.step := by simp [saidSize]
  have hpad : stampSize + s.payload.length ≤ s.step := le_align4 _
  refine ⟨?_, h.bytes, h.prologue, by rw [hsize, ← h.stamps], by rw [hsize]; omega, h.wellFormed, h.magic⟩
  -- the zeros behind the stamps are the place of this one and the rest
  have hzeros : replicate (size - deedSize - saidSize said) (0 : UInt8) =
      replicate stampSize 0 ++ (replicate s.payload.length 0 ++
        (replicate (s.step - (stampSize + s.payload.length)) 0 ++
          replicate (size - deedSize - (saidSize said + s.step)) 0)) := by
    simp only [replicate_append_replicate]
    congr 1
    omega
  have hstart : (deed.encode ++ saidBytes said).length = pen.prologue + pen.stamps := by
    rw [length_append, length_encode h.wellFormed, length_saidBytes, h.prologue, h.stamps]
  have hhead := @patch_middle (deed.encode ++ saidBytes said) (replicate stampSize 0)
    (leBytes 2 s.kind.toNat ++ leBytes 2 s.payload.length) _ hstart (by simp [stampSize])
    (replicate s.payload.length 0 ++ (replicate (s.step - (stampSize + s.payload.length)) 0 ++
      replicate (size - deedSize - (saidSize said + s.step)) 0))
  have hbody := @patch_middle (deed.encode ++ saidBytes said ++ (leBytes 2 s.kind.toNat ++ leBytes 2 s.payload.length))
    (replicate s.payload.length 0) s.payload (pen.prologue + pen.stamps + stampSize)
    (by rw [length_append, hstart]; simp [stampSize]) (by simp)
    (replicate (s.step - (stampSize + s.payload.length)) 0 ++
      replicate (size - deedSize - (saidSize said + s.step)) 0)
  rw [h.block, hzeros, hsize, ← append_assoc deed.encode, hhead]
  rw [← append_assoc, hbody]
  simp [saidBytes, Stamp.encode, append_assoc]

theorem sayAll (h : pen.Holds size deed said) {more : List Stamp} {pen' : DeedPen}
    (hsay : pen.sayAll more = some pen') : pen'.Holds size deed (said ++ more) := by
  induction more generalizing pen said with
  | nil =>
    cases hsay
    rwa [append_nil]
  | cons s more ih =>
    rw [DeedPen.sayAll, foldlM_cons] at hsay
    obtain ⟨next, hnext, hrest⟩ := bind_eq_some_iff.mp hsay
    have := ih (h.say hnext) hrest
    rwa [append_assoc, singleton_append] at this

end DeedPen.Holds

/-- The head `DeedPenOpen` writes. -/
def openHead : VolumeDeed := ⟨deedMagic, UInt16.ofNat deedSize, 0, 0, replicate 16 0, 0, 0, 0⟩

theorem deedPenOpen_holds {size : Nat} (hroom : deedSize ≤ size) : (deedPenOpen size).Holds size openHead [] := by
  have hform : openHead.WellFormed := ⟨rfl, rfl⟩
  refine ⟨?_, rfl, rfl, rfl, by simpa [saidSize] using hroom, hform, rfl⟩
  have hzeros : replicate size (0 : UInt8) = [] ++ (replicate deedSize 0 ++ replicate (size - deedSize) 0) := by
    rw [nil_append, replicate_append_replicate]
    congr 1
    omega
  have hlen : openHead.encode.length = (replicate deedSize (0 : UInt8)).length := by
    rw [length_encode hform, length_replicate]
  change patch (replicate size 0) 0 openHead.encode = _
  rw [hzeros, @patch_middle [] _ _ 0 rfl hlen]
  simp [saidBytes, saidSize]

/-! ## What is found among the stamps -/

/-- The place and length of the first payload of a kind, among stamps that start at `pos`. -/
def firstStamp (kind : UInt16) : List Stamp → Nat → Option (Nat × Nat)
  | [], _ => none
  | s :: said,
    pos => if s.kind = kind then some (pos + stampSize, s.payload.length) else firstStamp kind said (pos + s.step)

theorem le_firstStamp {kind : UInt16} {said : List Stamp} {pos : Nat} {r : Nat × Nat}
    (h : firstStamp kind said pos = some r) : pos + stampSize ≤ r.1 := by
  induction said generalizing pos with
  | nil => cases h
  | cons s said ih =>
    rw [firstStamp] at h
    split at h
    · cases h
      exact le_rfl
    · have := ih h
      omega

/-- The first stamp of a kind, where it stands. -/
theorem firstStamp_bytes (kind : UInt16) (said : List Stamp) (pre rest : List UInt8) :
    ((firstStamp kind said pre.length).map fun r => (((pre ++ (saidBytes said ++ rest)).drop r.1).take r.2, r.2)) =
      (said.find? fun s => s.kind = kind).map fun s => (s.payload, s.payload.length) := by
  induction said generalizing pre with
  | nil => rfl
  | cons s said ih =>
    have hbytes : pre ++ (saidBytes (s :: said) ++ rest) = (pre ++ s.encode) ++ (saidBytes said ++ rest) := by
      simp [saidBytes, append_assoc]
    rw [firstStamp, find?_cons]
    by_cases hkind : s.kind = kind
    · have hsplit : pre ++ (saidBytes (s :: said) ++ rest) =
          (pre ++ (leBytes 2 s.kind.toNat ++ leBytes 2 s.payload.length)) ++ (s.payload ++
            (replicate (s.step - (stampSize + s.payload.length)) 0 ++ (saidBytes said ++ rest))) := by
        simp [saidBytes, Stamp.encode, append_assoc]
      rw [if_pos hkind]
      simp only [hkind, decide_true, Option.map_some]
      rw [hsplit, drop_left' (by simp [stampSize]), take_left]
    · rw [if_neg hkind, hbytes]
      simp only [hkind, decide_false]
      rw [← ih (pre ++ s.encode), length_append, s.length_encode]

/-- A reader of the first `left` bytes of the stamps finds the first of a kind if its payload ends there. -/
theorem stampLoop_said (kind : UInt16) (said : List Stamp) (pre rest : List UInt8) {fuel left : Nat}
    (hfuel : left < fuel) (hleft : left ≤ saidSize said) :
    deedStampLoop (pre ++ (saidBytes said ++ rest)) kind fuel pre.length left =
    (firstStamp kind said pre.length).filter fun r => r.1 + r.2 ≤ pre.length + left := by
  induction said generalizing pre fuel left with
  | nil =>
    obtain ⟨fuel, rfl⟩ : ∃ k, fuel = k + 1 := ⟨fuel - 1, by omega⟩
    have hzero : left = 0 := Nat.le_zero.mp hleft
    rw [deedStampLoop, if_neg (by rw [hzero]; decide)]
    rfl
  | cons s said ih =>
    obtain ⟨fuel, rfl⟩ : ∃ k, fuel = k + 1 := ⟨fuel - 1, by omega⟩
    have hbytes : pre ++ (saidBytes (s :: said) ++ rest) = (pre ++ s.encode) ++ (saidBytes said ++ rest) := by
      simp [saidBytes, append_assoc]
    have hkindField : fieldAt 2 pre.length (pre ++ (saidBytes (s :: said) ++ rest)) = s.kind.toNat := by
      have : pre ++ (saidBytes (s :: said) ++ rest) = pre ++ (leBytes 2 s.kind.toNat ++ (leBytes 2 s.payload.length ++
          (s.payload ++ (replicate (s.step - (stampSize + s.payload.length)) 0 ++ (saidBytes said ++ rest))))) := by
        simp [saidBytes, Stamp.encode, append_assoc]
      rw [this]
      exact fieldAt_append _ _ (UInt16.toNat_lt s.kind) rfl
    have hlenField : fieldAt 2 (pre.length + 2) (pre ++ (saidBytes (s :: said) ++ rest)) = s.payload.length := by
      have : pre ++ (saidBytes (s :: said) ++ rest) = (pre ++ leBytes 2 s.kind.toNat) ++ (leBytes 2 s.payload.length ++
          (s.payload ++ (replicate (s.step - (stampSize + s.payload.length)) 0 ++ (saidBytes said ++ rest)))) := by
        simp [saidBytes, Stamp.encode, append_assoc]
      rw [this]
      exact fieldAt_append _ _ (by simpa using s.short) (by simp)
    have hpad : stampSize + s.payload.length ≤ s.step := le_align4 _
    have hstep : 0 < s.step := by
      have : 0 < stampSize := by decide
      omega
    have hsize : saidSize (s :: said) = s.step + saidSize said := by simp [saidSize]
    -- behind this stamp nothing of the kind ends in what is left
    have hbehind : left < s.step → ∀ r, firstStamp kind said (pre.length + s.step) = some r →
        ¬ r.1 + r.2 ≤ pre.length + left := by
      intro hlt r hr
      have := le_firstStamp hr
      omega
    have hnone : left < s.step →
        ((firstStamp kind said (pre.length + s.step)).filter fun r => r.1 + r.2 ≤ pre.length + left) = none := by
      intro hlt
      cases hr : firstStamp kind said (pre.length + s.step) with
      | none => rfl
      | some r => simp only [filter_some, decide_eq_false (hbehind hlt r hr), Bool.false_eq_true, if_false]
    rw [deedStampLoop, firstStamp, hkindField, hlenField, UInt16.ofNat_toNat]
    dsimp only
    by_cases hkind : s.kind = kind
    · rw [if_pos hkind, if_pos hkind]
      simp only [filter_some, decide_eq_true_eq]
      by_cases hin : stampSize + s.payload.length ≤ left
      · rw [if_pos (by omega), if_neg (by omega), if_pos (by omega)]
      rw [if_neg (show ¬ pre.length + stampSize + s.payload.length ≤ pre.length + left by omega)]
      split
      · rw [if_pos (by omega)]
      · rfl
    rw [if_neg hkind, if_neg hkind]
    by_cases hin : s.step ≤ left
    · rw [if_pos (show left ≥ stampSize by omega), if_neg (show ¬ s.payload.length > left - stampSize by omega),
        if_neg (show ¬ align4 (stampSize + s.payload.length) > left by unfold Stamp.step at hin; omega), hbytes]
      have hlater := @ih (pre ++ s.encode) fuel (left - s.step) (by omega) (by omega)
      rw [length_append, s.length_encode] at hlater
      rw [show align4 (stampSize + s.payload.length) = s.step from rfl, hlater]
      congr 2
      funext r
      rw [show pre.length + s.step + (left - s.step) = pre.length + left by omega]
    rw [hnone (by omega)]
    split
    · split
      · rfl
      · rw [if_pos (show align4 (stampSize + s.payload.length) > left by unfold Stamp.step at hin; omega)]
    · rfl

/-! ## Sealing -/

/-- The role the sets leave. -/
def lastRole (sets : List DeedSet) (role : UInt32) : UInt32 :=
  sets.foldl (fun role s => match s with
    | .role r => r
    | _ => role) role

theorem role_foldl_write (sets : List DeedSet) (deed : VolumeDeed) :
    (sets.foldl DeedSet.write deed).role = lastRole sets deed.role := by
  induction sets generalizing deed with
  | nil => rfl
  | cons s sets ih =>
    rw [foldl_cons, ih, lastRole, lastRole, foldl_cons]
    cases s <;> rfl

theorem deedStampLoop_drop (kind : UInt16) (k fuel left : Nat) :
    (deedStampLoop (block.drop k) kind fuel 0 left).map (fun r => (k + r.1, r.2)) =
    deedStampLoop block kind fuel k left := by
  have hwhole := deedPenFindLoop_eq block kind 0 fuel k left
  rw [drop_zero, Nat.zero_add] at hwhole
  rw [← deedPenFindLoop_eq block kind k fuel 0 left, Nat.add_zero, hwhole]
  simp

theorem DeedPen.Holds.take {pen : DeedPen} {size : Nat} {said : List Stamp} (h : pen.Holds size deed said) {k : Nat}
    (hk : k ≤ saidSize said) : pen.block.take (deedSize + k) = deed.encode ++ (saidBytes said).take k := by
  rw [h.block, ← length_encode h.wellFormed, take_length_add_append,
    take_append_of_le_length (by rw [length_saidBytes]; exact hk)]

/-- The head with the lengths in place. -/
def VolumeDeed.measured (deed : VolumeDeed) (stamps : Nat) : VolumeDeed :=
  { deed with prologueBytes := UInt16.ofNat deedSize, stampBytes := UInt16.ofNat stamps, crc32 := 0 }

/-- The head with its checksum. -/
def VolumeDeed.summed (deed : VolumeDeed) (crc : UInt32) : VolumeDeed := { deed with crc32 := crc }

section Sealing

variable (deedPenSum : Checksum) {pen : DeedPen} {size : Nat} {deed : VolumeDeed} {said : List Stamp}

theorem unsealed_holds (h : pen.Holds size deed said) :
    pen.unsealed.Holds size (deed.measured (saidSize said)) said := by
  rw [DeedPen.unsealed, h.readHead, h.prologue, h.stamps]
  exact h.writeHead ⟨h.wellFormed.magic, h.wellFormed.uuid⟩ h.magic

/-- The checksum `DeedPenSeal` takes, over the first `k` bytes of the stamps. -/
def DeedPen.sumOver (pen : DeedPen) (k : Nat) : UInt32 := deedPenSum (pen.unsealed.block.take (pen.prologue + k))

section

variable (h : pen.Holds size deed said)

include h

theorem seal_holds :
    (deedPenSeal deedPenSum pen).Holds size
      ((deed.measured (saidSize said)).summed (pen.sumOver deedPenSum (saidSize said))) said := by
  have hunsealed := unsealed_holds h
  rw [deedPenSeal]
  rw [hunsealed.readHead, hunsealed.prologue, hunsealed.stamps, DeedPen.sumOver, h.prologue]
  exact hunsealed.writeHead ⟨h.wellFormed.magic, h.wellFormed.uuid⟩ h.magic

/-- What `deed_validate` makes of a sealed block: the checksum is taken over as many stamps as `stamp_bytes` can say. -/
theorem validate_seal :
    deedValidate deedPenSum true (deedPenSeal deedPenSum pen).block size deed.role =
      if pen.sumOver deedPenSum (saidSize said % 2 ^ 16) ≠ pen.sumOver deedPenSum (saidSize said) then .error .corrupted
      else
        .ok
          ⟨(deedPenSeal deedPenSum pen).readHead, (deedPenSeal deedPenSum pen).block.drop deedSize,
            (deedPenSeal deedPenSum pen).block, size⟩ := by
  have hsealed := seal_holds deedPenSum h
  have hhead := hsealed.readHead
  have hfits := h.fits
  have hcut : saidSize said % 2 ^ 16 ≤ saidSize said := Nat.mod_le _ _
  have hprologue : (UInt16.ofNat deedSize).toNat = deedSize := by decide
  have hstamp : (UInt16.ofNat (saidSize said)).toNat = saidSize said % 2 ^ 16 := UInt16.toNat_ofNat
  have hmagic : (deedPenSeal deedPenSum pen).block.take 8 = deedMagic := by
    have : (deedPenSeal deedPenSum pen).readHead.magic = deedMagic := by rw [hhead]; exact h.magic
    exact this
  -- the sum is taken over the bytes with an empty checksum
  have hprobe : deedPenSum (patch ((deedPenSeal deedPenSum pen).block.take (deedSize + saidSize said % 2 ^ 16)) 12
      [0, 0, 0, 0]) = pen.sumOver deedPenSum (saidSize said % 2 ^ 16) := by
    have hzero : ([0, 0, 0, 0] : List UInt8) = leBytes 4 (0 : UInt32).toNat := by decide
    rw [DeedPen.sumOver, h.prologue, (unsealed_holds h).take hcut, hsealed.take hcut, hzero,
      VolumeDeed.patch_crc hsealed.wellFormed]
    rfl
  rw [DeedPen.readHead] at hhead
  rw [deedValidate, if_neg (by omega)]
  rw [hhead, if_neg (not_not.mpr hmagic)]
  simp only [summed, measured, hprologue, hstamp]
  rw [if_neg (by omega), if_neg (by decide), hprobe]
  split
  · rfl
  · rw [if_neg (by simp), DeedPen.readHead, hhead]
    rfl

theorem stamp_seal (kind : UInt16) : deedStamp ⟨(deedPenSeal deedPenSum pen).readHead,
    (deedPenSeal deedPenSum pen).block.drop deedSize, (deedPenSeal deedPenSum pen).block, size⟩ kind =
    (firstStamp kind said deedSize).filter fun r => r.1 + r.2 ≤ deedSize + saidSize said % 2 ^ 16 := by
  have hsealed := seal_holds deedPenSum h
  have hlen := length_encode hsealed.wellFormed
  have hloop := stampLoop_said kind said
    ((deed.measured (saidSize said)).summed (pen.sumOver deedPenSum (saidSize said))).encode
    (replicate (size - deedSize - saidSize said) 0) (Nat.lt_succ_self (saidSize said % 2 ^ 16)) (Nat.mod_le _ _)
  rw [← hsealed.block, hlen] at hloop
  have hprologue : (UInt16.ofNat deedSize).toNat = deedSize := by decide
  have hstamp : (UInt16.ofNat (saidSize said)).toNat = saidSize said % 2 ^ 16 := UInt16.toNat_ofNat
  rw [deedStamp]
  rw [hsealed.readHead]
  simp only [summed, measured, hprologue, hstamp]
  rw [deedStampLoop_drop, hloop]

theorem firstStamp_seal (kind : UInt16) :
    ((firstStamp kind said deedSize).map fun r => (((deedPenSeal deedPenSum pen).block.drop r.1).take r.2, r.2)) =
      (said.find? fun s => s.kind = kind).map fun s => (s.payload, s.payload.length) := by
  have hsealed := seal_holds deedPenSum h
  have hfirst := firstStamp_bytes kind said
    ((deed.measured (saidSize said)).summed (pen.sumOver deedPenSum (saidSize said))).encode
    (replicate (size - deedSize - saidSize said) 0)
  rwa [← hsealed.block, length_encode hsealed.wellFormed] at hfirst

end

/-- The sealed block is accepted for the role it was given, and every kind gives the first stamp said with it. -/
def ReadBack (pen : DeedPen) (size : Nat) (role : UInt32) (said : List Stamp) : Prop :=
  ∃ copy, deedValidate deedPenSum true (deedPenSeal deedPenSum pen).block size role = .ok copy ∧
    ∀ kind, deedStampBytes copy kind = (said.find? fun s => s.kind = kind).map fun s => (s.payload, s.payload.length)

/-- `stamp_bytes` says all the stamps; or it says fewer, the checksum happens to be the same over those, and the first
stamp of every kind is among them. -/
def StampsFit (pen : DeedPen) (said : List Stamp) : Prop :=
  pen.stamps < 2 ^ 16 ∨
    (pen.sumOver deedPenSum (pen.stamps % 2 ^ 16) = pen.sumOver deedPenSum pen.stamps ∧
      ∀ kind r, firstStamp kind said pen.prologue = some r → r.1 + r.2 ≤ pen.prologue + pen.stamps % 2 ^ 16)

theorem firstStamp_inside {kind : UInt16} {pos : Nat} {r : Nat × Nat} (h : firstStamp kind said pos = some r) :
    r.1 + r.2 ≤ pos + saidSize said := by
  induction said generalizing pos with
  | nil => cases h
  | cons s said ih =>
    have hpad : stampSize + s.payload.length ≤ s.step := le_align4 _
    have hsize : saidSize (s :: said) = s.step + saidSize said := by simp [saidSize]
    rw [firstStamp] at h
    split at h
    · cases h
      omega
    · have := ih h
      omega

theorem readBack_iff (h : pen.Holds size deed said) :
    ReadBack deedPenSum pen size deed.role said ↔ StampsFit deedPenSum pen said := by
  unfold ReadBack StampsFit
  rw [validate_seal deedPenSum h, h.stamps, h.prologue]
  have hfit : saidSize said < 2 ^ 16 →
      pen.sumOver deedPenSum (saidSize said % 2 ^ 16) = pen.sumOver deedPenSum (saidSize said) ∧
      ∀ kind r, firstStamp kind said deedSize = some r → r.1 + r.2 ≤ deedSize + saidSize said % 2 ^ 16 := by
    intro hlt
    rw [Nat.mod_eq_of_lt hlt]
    exact ⟨rfl, fun kind r hr => firstStamp_inside hr⟩
  rw [or_iff_right_of_imp hfit]
  constructor
  · rintro ⟨copy, hvalid, hread⟩
    split at hvalid
    · cases hvalid
    rename_i hsum
    cases hvalid
    refine ⟨not_not.mp hsum, ?_⟩
    intro kind r hr
    by_contra hout
    -- a stamp that ends too late is not found
    have hlate : (some r).filter (fun r => decide (r.1 + r.2 ≤ deedSize + saidSize said % 2 ^ 16)) = none := by
      rw [filter_some, decide_eq_false hout]
      rfl
    have hkind := hread kind
    rw [deedStampBytes, stamp_seal deedPenSum h, ← firstStamp_seal deedPenSum h, hr, hlate] at hkind
    cases hkind
  · rintro ⟨hsum, hinside⟩
    rw [if_neg (not_not.mpr hsum)]
    refine ⟨_, rfl, ?_⟩
    intro kind
    rw [deedStampBytes, stamp_seal deedPenSum h, ← firstStamp_seal deedPenSum h]
    congr 1
    cases hr : firstStamp kind said deedSize with
    | none => rfl
    | some r => rw [filter_some, decide_eq_true (hinside kind r hr), if_pos rfl]

end Sealing

/-- **Round trip and agreement.** A deed is read back exactly when the head fits the block and `stamp_bytes` says all
the stamps (or the checksum does not tell); and the two readers of a block agree, inside it. -/
theorem deed_said_is_read (deedPenSum : Checksum) :
    (∀ (size : Nat) (said : List Stamp) (sets : List DeedSet) (pen : DeedPen),
      (deedPenOpen size).sayAll said = some pen →
        (ReadBack deedPenSum (sets.foldl DeedPen.set pen) size (lastRole sets 0) said ↔
          deedSize ≤ size ∧ StampsFit deedPenSum (sets.foldl DeedPen.set pen) said)) ∧
    (∀ (raw : List UInt8) (bytes : Nat) (wantRole : UInt32) (kmalloc : Bool) (pen : DeedPen) (copy : DeedCopy),
      deedPenTake raw bytes = some pen → deedValidate deedPenSum kmalloc raw bytes wantRole = .ok copy →
        ∀ kind, deedPenFind pen kind = deedStamp copy kind ∧
          ∀ r, deedStamp copy kind = some r → r.1 + r.2 ≤ bytes) := by
  constructor
  · intro size said sets pen hsay
    by_cases hsize : deedSize ≤ size
    · have hpen := (deedPenOpen_holds hsize).sayAll hsay
      rw [nil_append] at hpen
      have hsets := hpen.sets sets
      have hrole : lastRole sets 0 = (sets.foldl DeedSet.write openHead).role := (role_foldl_write sets openHead).symm
      rw [hrole, readBack_iff deedPenSum hsets]
      exact ⟨fun hfit => ⟨hsize, hfit⟩, fun hfit => hfit.2⟩
    constructor
    · rintro ⟨copy, hvalid, -⟩
      rw [deedValidate, if_pos (by omega)] at hvalid
      exact nomatch hvalid
    · rintro ⟨hroom, -⟩
      exact absurd hroom hsize
  · intro raw bytes wantRole kmalloc pen copy htake hvalid kind
    exact deed_readers_agree htake hvalid kind

/-- A head with one stamp of five bytes. -/
def samplePen : DeedPen :=
  ((deedPenOpen 100).say ⟨2, [1, 2, 3, 4, 5], by decide⟩).getD (deedPenOpen 100)

/-- The deed it makes, with the number of bytes for a checksum. -/
def sampleDeed : List UInt8 := (deedPenSeal (fun bs => UInt32.ofNat bs.length) (samplePen.set (.role 1))).block

theorem deed_said_is_read_sample :
    ReadBack (fun bs => UInt32.ofNat bs.length) (samplePen.set (.role 1)) 100 1 [⟨2, [1, 2, 3, 4, 5], by decide⟩] ∧
      deedPenFind ⟨sampleDeed, 100, 52, 12⟩ 2 =
        deedStamp ⟨VolumeDeed.decode sampleDeed, sampleDeed.drop 52, sampleDeed, 100⟩ 2 := by
  obtain ⟨hsaid, hreaders⟩ := deed_said_is_read fun bs => UInt32.ofNat bs.length
  constructor
  · exact (hsaid 100 [⟨2, [1, 2, 3, 4, 5], by decide⟩] [.role 1] samplePen rfl).mpr ⟨by decide, .inl (by decide)⟩
  · exact (hreaders sampleDeed 100 1 true _ _ (by decide +kernel) (by decide +kernel) 2).1

theorem DeedPen.Holds.sayAll_of_room {pen : DeedPen} {size : Nat} {said more : List Stamp}
    (h : pen.Holds size deed said) (hroom : deedSize + saidSize said + saidSize more ≤ size) :
    ∃ pen', pen.sayAll more = some pen' := by
  induction more generalizing pen said with
  | nil => exact ⟨pen, rfl⟩
  | cons s more ih =>
    have hmore : saidSize (s :: more) = s.step + saidSize more := by simp [saidSize]
    have hsaid : saidSize (said ++ [s]) = saidSize said + s.step := by simp [saidSize]
    obtain ⟨next, hnext⟩ : ∃ next, pen.say s = some next := by
      rw [DeedPen.say, if_neg (by rw [h.prologue, h.stamps, h.bytes]; omega)]
      exact ⟨_, rfl⟩
    rw [DeedPen.sayAll, foldlM_cons, hnext]
    exact ih (h.say hnext) (by omega)

/-- Two stamps of 32764 bytes each are said, and `stamp_bytes` says none of them. -/
theorem deed_stamps_cut : ∃ (size : Nat) (said : List Stamp) (sets : List DeedSet) (pen : DeedPen), deedSize ≤ size ∧
    (deedPenOpen size).sayAll said = some pen ∧
    ∀ deedPenSum, ¬ ReadBack deedPenSum (sets.foldl DeedPen.set pen) size (lastRole sets 0) said := by
  have hlong : (replicate 32764 (7 : UInt8)).length = 32764 := length_replicate
  have hopen := deedPenOpen_holds (show deedSize ≤ 65588 by decide)
  generalize replicate 32764 (7 : UInt8) = payload at hlong
  have hsize : saidSize [⟨1, payload, by omega⟩, ⟨2, payload, by omega⟩] = 65536 := by
    simp [saidSize, Stamp.step, hlong, align4, stampSize]
  obtain ⟨pen, hsay⟩ := @DeedPen.Holds.sayAll_of_room _ _ _ _
    [⟨1, payload, by omega⟩, ⟨2, payload, by omega⟩] hopen (by rw [hsize]; decide)
  have hsets := (hopen.sayAll hsay).sets [.role 1]
  rw [nil_append] at hsets
  have hstamps := hsets.stamps
  rw [hsize] at hstamps
  refine ⟨65588, _, [.role 1], pen, by decide, hsay, ?_⟩
  intro deedPenSum hread
  rcases (readBack_iff deedPenSum hsets).mp hread with hshort | ⟨-, hinside⟩
  · rw [hstamps] at hshort
    exact absurd hshort (by decide)
  -- the first stamp starts where the stamps are said to end
  have hfirst := hinside 1 (56, 32764) (by rw [hsets.prologue]; simp [firstStamp, hlong, deedSize, stampSize])
  rw [hstamps, hsets.prologue] at hfirst
  exact absurd hfirst (by decide)

end BoxOS.TagFS
