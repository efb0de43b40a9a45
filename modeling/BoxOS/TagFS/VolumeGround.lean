import BoxOS.TagFS.Deed
import BoxOS.TagFS.MetaPool

/-!
# The ground of a volume

A volume begins with a deed and ends with its far copy, each of eight sectors. `volume_take_ground` reads the deed at
the head of the ground, or the one in the last block of the ground when the head does not answer, and takes the layout
from it. `volume_take_more_ground` writes, when the ground behind the volume has grown, a new far copy, a new head, and
zeros over the old far copy.

`CutOff` is what the medium can hold when the writes stop: after some of them, or in the middle of one.
-/

namespace BoxOS.TagFS

open Lib

/-! ## Sectors -/

/-- 512 bytes. -/
abbrev Sector := { bs : List UInt8 // bs.length = sectorSize }

/-- The sectors of a medium; `none` cannot be read. -/
abbrev SectorMedium := Nat → Option Sector

/-- `DEED_PEN_SECTORS`. -/
def deedSectors : Nat := 8

/-- `DEED_PEN_BYTES`. -/
def deedBytes : Nat := 4096

/-- `BoardroomRead`. -/
def readSectors (m : SectorMedium) : Nat → Nat → Option (List UInt8)
  | _, 0 => some []
  | s, n + 1 =>
    match m s with
    | none => none
    | some sector => (readSectors m (s + 1) n).map fun rest => sector.val ++ rest

/-- One sector of a block. -/
def sectorOf (block : List UInt8) (k : Nat) : Sector :=
  ⟨(List.range sectorSize).map fun i => block.getD (sectorSize * k + i) 0, by simp⟩

/-- `BoardroomWrite` of eight sectors. -/
def writeDeedBlock (m : SectorMedium) (s : Nat) (block : List UInt8) : SectorMedium := fun k =>
  if s ≤ k ∧ k < s + deedSectors then some (sectorOf block (k - s)) else m k

/-- A write of eight sectors that stopped in the middle. -/
def tearDeedBlock (m : SectorMedium) (s : Nat) : SectorMedium := fun k =>
  if s ≤ k ∧ k < s + deedSectors then none else m k

/-- The writes stop after some of them, or in the middle of one. -/
inductive CutOff : SectorMedium → List (Nat × List UInt8) → SectorMedium → Prop
  | stop (m : SectorMedium) (ws : List (Nat × List UInt8)) : CutOff m ws m
  | torn (m : SectorMedium) (w : Nat × List UInt8) (ws : List (Nat × List UInt8)) :
      CutOff m (w :: ws) (tearDeedBlock m w.1)
  | next {m m' : SectorMedium} (w : Nat × List UInt8) {ws : List (Nat × List UInt8)} :
      CutOff (writeDeedBlock m w.1 w.2) ws m' → CutOff m (w :: ws) m'

/-! ## The layout -/

structure VolumeLayout where
  totalBlocks : UInt64
  stateBlock : UInt32
  stateBlocks : UInt32
  tagRegistryBlock : UInt32
  tagRegistryBlocks : UInt32
  fileTableBlock : UInt32
  fileTableBlocks : UInt32
  metadataPoolBlock : UInt32
  metadataPoolBlocks : UInt32
  blockBitmapBlock : UInt32
  blockBitmapBlocks : UInt32
  diskBookBlock : UInt32
  diskBookBlocks : UInt32
  dataBlock : UInt32
  dataBlocks : UInt32
deriving DecidableEq

/-- `sizeof(VolumeLayout)`. -/
def layoutSize : Nat := 64

variable (l : VolumeLayout)

/-- The widths and values of the fields. -/
def VolumeLayout.fields : List (Nat × Nat) :=
  [(8, l.totalBlocks.toNat), (4, l.stateBlock.toNat), (4, l.stateBlocks.toNat), (4, l.tagRegistryBlock.toNat),
    (4, l.tagRegistryBlocks.toNat), (4, l.fileTableBlock.toNat), (4, l.fileTableBlocks.toNat),
    (4, l.metadataPoolBlock.toNat), (4, l.metadataPoolBlocks.toNat), (4, l.blockBitmapBlock.toNat),
    (4, l.blockBitmapBlocks.toNat), (4, l.diskBookBlock.toNat), (4, l.diskBookBlocks.toNat), (4, l.dataBlock.toNat),
    (4, l.dataBlocks.toNat)]

def VolumeLayout.encode : List UInt8 := packFields l.fields

def VolumeLayout.decode (buf : List UInt8) : VolumeLayout where
  totalBlocks := UInt64.ofNat (fieldAt 8 0 buf)
  stateBlock := UInt32.ofNat (fieldAt 4 8 buf)
  stateBlocks := UInt32.ofNat (fieldAt 4 12 buf)
  tagRegistryBlock := UInt32.ofNat (fieldAt 4 16 buf)
  tagRegistryBlocks := UInt32.ofNat (fieldAt 4 20 buf)
  fileTableBlock := UInt32.ofNat (fieldAt 4 24 buf)
  fileTableBlocks := UInt32.ofNat (fieldAt 4 28 buf)
  metadataPoolBlock := UInt32.ofNat (fieldAt 4 32 buf)
  metadataPoolBlocks := UInt32.ofNat (fieldAt 4 36 buf)
  blockBitmapBlock := UInt32.ofNat (fieldAt 4 40 buf)
  blockBitmapBlocks := UInt32.ofNat (fieldAt 4 44 buf)
  diskBookBlock := UInt32.ofNat (fieldAt 4 48 buf)
  diskBookBlocks := UInt32.ofNat (fieldAt 4 52 buf)
  dataBlock := UInt32.ofNat (fieldAt 4 56 buf)
  dataBlocks := UInt32.ofNat (fieldAt 4 60 buf)

/-- `VOLUME_STAMP_GEOMETRY` and `VOLUME_STAMP_LAYOUT`. -/
def stampGeometry : UInt16 := 1

def stampLayout : UInt16 := 2

/-- `VOLUME_DEED_ROLE_HEAD` and `VOLUME_DEED_ROLE_TAIL`. -/
def roleHead : UInt32 := 1

def roleTail : UInt32 := 2

def bitmapCoversBlocks (bitmapBlocks : UInt32) : Nat := bitmapBlocks.toNat * tagfsBlockSize * 8

/-! ## Reading deeds -/

structure MediumGround where
  startSector : Nat
  sectors : Nat
deriving DecidableEq

section read

variable (deedPenSum : Checksum)
variable (m : SectorMedium)

/-- `deed_read_at`, with memory for the block. -/
def deedReadAt (sector : Nat) (wantRole : UInt32) : Option DeedCopy :=
  match readSectors m sector deedSectors with
  | none => none
  | some raw =>
    match deedValidate deedPenSum true raw deedBytes wantRole with
    | .error _ => none
    | .ok copy => some copy

variable (g : MediumGround)

def deedReadHead : Option DeedCopy :=
  if g.sectors < deedSectors then none
  else
    match deedReadAt deedPenSum m g.startSector roleHead with
    | none => none
    | some copy =>
      if copy.head.sectors.toNat > g.sectors then none
      else if copy.head.tailSector = 0 ∨ copy.head.tailSector + 8 > copy.head.sectors then none
      else some copy

def deedReadTail (head : VolumeDeed) : Option DeedCopy :=
  match deedReadAt deedPenSum m (g.startSector + head.tailSector.toNat) roleTail with
  | none => none
  | some copy =>
    if copy.head.uuid ≠ head.uuid then none
    else if copy.head.sectors ≠ head.sectors then none
    else some copy

def deedReadTailAlone : Option DeedCopy :=
  if g.sectors / deedSectors = 0 then none
  else
    match deedReadAt deedPenSum m (g.startSector + (g.sectors / deedSectors - 1) * deedSectors) roleTail with
    | none => none
    | some copy => if copy.head.sectors.toNat > g.sectors then none else some copy

/-! ## Taking the ground -/

/-- The deed on a ground: the one at its head, or else the one in its last block. -/
def deedOnGround : Option DeedCopy :=
  match deedReadHead deedPenSum m g with
  | some copy => some copy
  | none => deedReadTailAlone deedPenSum m g

/-- One pass over the grounds: the first deed, in the first pass the first of the volume that is wanted. -/
def groundPass (grounds : List MediumGround) (wanted : DeedCopy → Bool) :
    Option (DeedCopy × MediumGround) :=
  grounds.findSome? fun g =>
    match deedOnGround deedPenSum m g with
    | none => none
    | some copy => if wanted copy = true then some (copy, g) else none

/-- The two passes of `volume_take_ground`; without a boarding pass the first takes nothing and there is no second. -/
def pickGround (grounds : List MediumGround) (want : Option (List UInt8)) :
    Option (DeedCopy × MediumGround) :=
  match want with
  | none => none
  | some uuid =>
    match groundPass deedPenSum m grounds (fun copy => copy.head.uuid = uuid) with
    | some found => some found
    | none => groundPass deedPenSum m grounds (fun _ => true)

end read

/-- The layout lies in a volume of so many blocks. -/
def VolumeLayout.Fits (blocksInVolume : Nat) : Prop :=
  ¬ (l.dataBlock = 0 ∨ l.dataBlocks = 0 ∨ l.dataBlock.toNat + l.dataBlocks.toNat > blocksInVolume ∨
    l.stateBlock.toNat + l.stateBlocks.toNat > blocksInVolume ∨ l.stateBlocks.toNat < ledgerCopies)

instance VolumeLayout.decidableFits (l : VolumeLayout) (blocksInVolume : Nat) : Decidable (l.Fits blocksInVolume) :=
  inferInstanceAs (Decidable (¬ _))

/-- `g_state.geometry.block_bytes`, which is what it was when the deed has no geometry. -/
def saidBlockBytes (blockBytes : UInt32) (copy : DeedCopy) : UInt32 :=
  match deedStampBytes copy stampGeometry with
  | none => blockBytes
  | some (payload, bytes) => if bytes ≥ 16 then UInt32.ofNat (fieldAt 4 12 payload) else blockBytes

/-- The layout of a deed, when it is one this kernel can stand on. -/
def takeLayout (blockBytes : UInt32) (copy : DeedCopy) : Option VolumeLayout :=
  match deedStampBytes copy stampLayout with
  | none => none
  | some (payload, bytes) =>
    if bytes < layoutSize then none
    else
      let layout := VolumeLayout.decode payload
      if ¬ layout.Fits (copy.head.sectors.toNat / deedSectors) then none
      else if saidBlockBytes blockBytes copy ≠ 4096 then none
      else some layout

/-- What a mount stands on. -/
structure VolumeStood where
  head : DeedCopy
  ground : MediumGround
  layout : VolumeLayout

/-- What `create_tagfs` sees to: the ledger stands before the data run, the bitmap accounts for the data run, and the
far copy stands behind the head and inside the volume. -/
structure VolumeStood.WellMade (s : VolumeStood) : Prop where
  ledger : s.layout.stateBlock.toNat + s.layout.stateBlocks.toNat ≤ s.layout.dataBlock.toNat
  accounted : s.layout.dataBlocks.toNat ≤ bitmapCoversBlocks s.layout.blockBitmapBlocks
  farCopy : deedSectors ≤ s.head.head.tailSector.toNat
  inside : s.head.head.tailSector.toNat + deedSectors ≤ s.head.head.sectors.toNat

variable (deedPenSum : Checksum)

/-- `volume_take_ground` up to the growth. -/
def volumeTakeGround (m : SectorMedium) (grounds : List MediumGround) (want : Option (List UInt8))
    (blockBytes : UInt32) : Option VolumeStood :=
  match pickGround deedPenSum m grounds want with
  | none => none
  | some (copy, g) => (takeLayout blockBytes copy).map fun layout => ⟨copy, g, layout⟩

/-! ## Taking more -/

/-- `ground_ahead_is_blank`: the bitmap can be read and has no block of the range. -/
def groundAheadIsBlank (m : SectorMedium) (base : Nat) (layout : VolumeLayout) (start stop : Nat) : Bool :=
  if stop ≤ start then true
  else
    let perBlock := tagfsBlockSize * 8
    -- `to + 7u` is a `uint32_t`
    let lastByte := (stop + 7) % 2 ^ 32 / 8
    (List.range' (start / perBlock) ((lastByte + tagfsBlockSize - 1) / tagfsBlockSize - start / perBlock)).all fun k =>
      match readSectors m (base + layout.blockBitmapBlock.toNat * deedSectors + k * deedSectors) deedSectors with
      | none => false
      | some buf =>
        let lo := max start (k * perBlock)
        let hi := min stop ((k + 1) * perBlock)
        (List.range' lo (hi - lo)).all fun b => !testBit8 buf (b - k * perBlock)

/-- The blocks that the volume and its data run are to have. -/
structure GrowthPlan where
  volWant : Nat
  dataWant : Nat
deriving DecidableEq

/-- `new_sectors`. -/
def GrowthPlan.sectors (p : GrowthPlan) : UInt64 := UInt64.ofNat (p.volWant * deedSectors)

/-- `new_tail`. -/
def GrowthPlan.tail (p : GrowthPlan) : UInt64 := UInt64.ofNat ((p.volWant - 1) * deedSectors)

variable (s : VolumeStood)

/-- The ground holds more data blocks than the bitmap accounts for. -/
def VolumeStood.Clamped : Prop :=
  s.ground.sectors / deedSectors - s.layout.dataBlock.toNat - 1 > bitmapCoversBlocks s.layout.blockBitmapBlocks

instance VolumeStood.decidableClamped (s : VolumeStood) : Decidable s.Clamped := inferInstanceAs (Decidable (_ > _))

/-- `vol_want` and `data_want`: as far as the ground runs, or as far as the bitmap accounts for. -/
def VolumeStood.reach : GrowthPlan :=
  let volWant := s.ground.sectors / deedSectors
  let dataBlock := s.layout.dataBlock.toNat
  let cover := bitmapCoversBlocks s.layout.blockBitmapBlocks
  if s.Clamped then ⟨dataBlock + cover + 1, cover⟩ else ⟨volWant, volWant - dataBlock - 1⟩

/-- The first part of `volume_take_more_ground`, which is called for a head: how far the volume is to run, if it grows.
-/
def VolumeStood.plan (m : SectorMedium) (mediumSectors : Nat) : Option GrowthPlan :=
  if s.head.head.role ≠ roleHead then none
  else if s.ground.sectors ≤ s.head.head.sectors.toNat + deedSectors then none
  else if mediumSectors = 0 then none
  else if s.ground.startSector + s.ground.sectors > mediumSectors then none
  else if s.ground.sectors / deedSectors ≤ s.layout.dataBlock.toNat + 1 then none
  else if s.reach.dataWant ≤ s.layout.dataBlocks.toNat then none
  else if s.reach.volWant > 0xFFFFFFFF ∨ s.reach.dataWant > 0xFFFFFFFF then none
  else if groundAheadIsBlank m s.ground.startSector s.layout s.layout.dataBlocks.toNat s.reach.dataWant = false then
    none
  else some s.reach

/-- The grown layout. -/
def VolumeLayout.grown (p : GrowthPlan) : VolumeLayout :=
  { l with totalBlocks := UInt64.ofNat p.volWant, dataBlocks := UInt32.ofNat p.dataWant }

/-- The deed with the new layout and ground, sealed as the far copy. -/
def DeedPen.grownTail (pen : DeedPen) (at' : Nat) (layout : VolumeLayout) (p : GrowthPlan) :
    DeedPen :=
  let pen := { pen with block := patch pen.block at' layout.encode }
  deedPenSeal deedPenSum ((pen.set (.ground p.sectors p.tail)).set (.role roleTail))

/-- The same, sealed as the head. -/
def DeedPen.grownHead (tail : DeedPen) : DeedPen := deedPenSeal deedPenSum (tail.set (.role roleHead))

/-- The writes of `volume_take_more_ground`, in order. The head is written when the new far copy could be read back. -/
def VolumeStood.growthWrites (m : SectorMedium) (mediumSectors : Nat) :
    List (Nat × List UInt8) :=
  match s.plan m mediumSectors with
  | none => []
  | some p =>
    match deedPenTake s.head.raw s.head.rawBytes with
    | none => []
    | some pen =>
      match deedPenFind pen stampLayout with
      | none => []
      | some (at', bytes) =>
        if bytes < layoutSize then []
        else
          let base := s.ground.startSector
          let tail := pen.grownTail deedPenSum at' (s.layout.grown p) p
          let first := (base + p.tail.toNat, tail.block)
          match deedReadTail deedPenSum (writeDeedBlock m first.1 first.2) ⟨base, p.sectors.toNat⟩
              { s.head.head with sectors := p.sectors, tailSector := p.tail } with
          | none => [first]
          | some _ => [first, (base, (tail.grownHead deedPenSum).block),
              (base + s.head.head.tailSector.toNat, List.replicate deedBytes 0)]

end BoxOS.TagFS
