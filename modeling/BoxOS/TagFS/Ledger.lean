import BoxOS.Lib.Words

/-!
# The ledger of a volume

`VolumeLedger` is kept in two copies, one sector each, with the Use Context behind its fields. A write goes to the copy
that is not current, with a sequence number one higher; a mount takes the readable copy with the highest number.

`LedgerRun.Inv`: the current copy is the last one that was written completely, and the other one is older or not
readable; `ledger_survives` is about every run of writes and mounts in which sector writes fail or tear.

The checksum is any function of the bytes. A mount accepts a tail of 436 bytes, the writer has room for 432:
`long_tail_unreadable`.
-/

open Function (update update_of_ne update_self)

namespace BoxOS.TagFS

open Lib List Option

/-- `TAGFS_SECTOR_SIZE`. -/
def sectorSize : Nat := 512

/-- `VOLUME_LEDGER_COPIES`. -/
def ledgerCopies : Nat := 2

structure VolumeLedger where
  magic : List UInt8
  bytes : UInt32
  crc32 : UInt32
  seq : UInt64
  writtenUnix : UInt64
  freeBlocks : UInt64
  totalFiles : UInt64
  nextFileId : UInt32
  nextTagId : UInt32
  totalTags : UInt32
  cowManifestBlock : UInt32
  cowManifestBackupBlock : UInt32
  integrityMapBlock : UInt32
  integrityMapBlocks : UInt32
  useContextOffset : UInt16
  useContextBytes : UInt16
deriving DecidableEq, Repr

open VolumeLedger

/-- `sizeof(VolumeLedger)`. -/
def ledgerSize : Nat := 80

/-- `VOLUME_LEDGER_REQUIRED_BYTES`: the offset of `use_context_offset`. -/
def ledgerRequiredBytes : Nat := 76

def ledgerUseMax : Nat := sectorSize - ledgerSize

/-- `g_ledger_magic`: "BOXLEDGR". -/
def ledgerMagic : List UInt8 := [0x42, 0x4F, 0x58, 0x4C, 0x45, 0x44, 0x47, 0x52]

/-! ## Bytes -/

/-- The widths and values of the fields behind the magic. -/
def VolumeLedger.fields (led : VolumeLedger) : List (Nat × Nat) :=
  [(4, led.bytes.toNat), (4, led.crc32.toNat), (8, led.seq.toNat), (8, led.writtenUnix.toNat),
    (8, led.freeBlocks.toNat), (8, led.totalFiles.toNat), (4, led.nextFileId.toNat), (4, led.nextTagId.toNat),
    (4, led.totalTags.toNat), (4, led.cowManifestBlock.toNat), (4, led.cowManifestBackupBlock.toNat),
    (4, led.integrityMapBlock.toNat), (4, led.integrityMapBlocks.toNat), (2, led.useContextOffset.toNat),
    (2, led.useContextBytes.toNat)]

/-- The fields in memory. -/
def VolumeLedger.encode (led : VolumeLedger) : List UInt8 := led.magic ++ packFields led.fields

def VolumeLedger.decode (buf : List UInt8) : VolumeLedger where
  magic := buf.take 8
  bytes := UInt32.ofNat (fieldAt 4 8 buf)
  crc32 := UInt32.ofNat (fieldAt 4 12 buf)
  seq := UInt64.ofNat (fieldAt 8 16 buf)
  writtenUnix := UInt64.ofNat (fieldAt 8 24 buf)
  freeBlocks := UInt64.ofNat (fieldAt 8 32 buf)
  totalFiles := UInt64.ofNat (fieldAt 8 40 buf)
  nextFileId := UInt32.ofNat (fieldAt 4 48 buf)
  nextTagId := UInt32.ofNat (fieldAt 4 52 buf)
  totalTags := UInt32.ofNat (fieldAt 4 56 buf)
  cowManifestBlock := UInt32.ofNat (fieldAt 4 60 buf)
  cowManifestBackupBlock := UInt32.ofNat (fieldAt 4 64 buf)
  integrityMapBlock := UInt32.ofNat (fieldAt 4 68 buf)
  integrityMapBlocks := UInt32.ofNat (fieldAt 4 72 buf)
  useContextOffset := UInt16.ofNat (fieldAt 2 76 buf)
  useContextBytes := UInt16.ofNat (fieldAt 2 78 buf)

/-! ## Reading -/

/-- `KCrc32`. -/
abbrev Checksum := List UInt8 → UInt32

/-- What `ledger_read_copy` makes of a sector: the fields and the tail. -/
def ledgerReadCopy (kCrc32 : Checksum) (buf : List UInt8) : Option (VolumeLedger × List UInt8) :=
  let led := decode buf
  let bytes := led.bytes.toNat
  if led.magic ≠ ledgerMagic then none
  else if bytes < ledgerRequiredBytes ∨ bytes > sectorSize then none
  else if kCrc32 (patch (buf.take bytes) 12 [0, 0, 0, 0]) ≠ led.crc32 then none
  else
    -- a shorter record has no Use Context fields
    let led := if bytes < ledgerSize then
      decode (buf.take bytes ++ replicate (ledgerSize - bytes) 0) else led
    let off := led.useContextOffset.toNat
    let len := led.useContextBytes.toNat
    let tail := if len = 0 then []
      else if off < ledgerRequiredBytes ∨ off + len > bytes then []
      else (buf.drop off).take len
    some (led, tail)

/-- The sectors that carry the copies. -/
abbrev LedgerSectors := Nat → List UInt8

/-- The ledger in memory: `g_state.ledger`, `g_ledger_current` and `g_ledger_use` with its length. -/
structure LedgerMemory where
  ledger : VolumeLedger
  current : Nat
  use : List UInt8
deriving DecidableEq

/-- `ledger_load`, with memory for the tails. -/
def ledgerLoad (kCrc32 : Checksum) (sectors : LedgerSectors) : Option LedgerMemory :=
  match ledgerReadCopy kCrc32 (sectors 0), ledgerReadCopy kCrc32 (sectors 1) with
  | none, none => none
  | some a, none => some ⟨a.1, 0, a.2⟩
  | none, some b => some ⟨b.1, 1, b.2⟩
  | some a, some b => if b.1.seq > a.1.seq then some ⟨b.1, 1, b.2⟩ else some ⟨a.1, 0, a.2⟩

/-! ## Writing -/

/-- What becomes of a sector write. -/
inductive SectorWrite where
  | completes
  | fails
  | tears (junk : List UInt8)

/-- The fields that `ledger_write_locked` is about to write, but for the checksum. -/
def LedgerMemory.nextLedger (m : LedgerMemory) (unix : UInt64) : VolumeLedger :=
  { m.ledger with
    magic := ledgerMagic
    seq := m.ledger.seq + 1
    writtenUnix := unix
    useContextOffset := if m.use.length = 0 then 0 else UInt16.ofNat ledgerSize
    useContextBytes := UInt16.ofNat m.use.length
    bytes := UInt32.ofNat (ledgerSize + m.use.length)
    crc32 := 0 }

/-- The buffer of `ledger_write_locked`: the fields and the tail over a sector of zeros. -/
def ledgerBuffer (led : VolumeLedger) (use : List UInt8) : List UInt8 :=
  patch (patch (replicate sectorSize 0) 0 led.encode) ledgerSize use

/-- The fields with their checksum. -/
def LedgerMemory.sealed (kCrc32 : Checksum) (m : LedgerMemory) (unix : UInt64) : VolumeLedger :=
  let led := m.nextLedger unix
  { led with crc32 := kCrc32 ((ledgerBuffer led m.use).take led.bytes.toNat) }

/-- The sector that is written. -/
def LedgerMemory.sector (kCrc32 : Checksum) (m : LedgerMemory) (unix : UInt64) : List UInt8 :=
  (patch (ledgerBuffer (m.nextLedger unix) m.use) 12 (leBytes 4 (m.sealed kCrc32 unix).crc32.toNat)).take sectorSize

/-- A volume with its ledger: `state_blocks`, the memory and the sectors. -/
structure LedgerState where
  stateBlocks : Nat
  memory : LedgerMemory
  sectors : LedgerSectors

def ledgerWriteLocked (kCrc32 : Checksum) (s : LedgerState) (unix : UInt64) (write : SectorWrite) :
    LedgerState × Bool :=
  if s.stateBlocks < ledgerCopies then (s, false)
  else
    let target := (s.memory.current + 1) % ledgerCopies
    match write with
    | .fails => (s, false)
    | .tears junk => ({ s with sectors := update s.sectors target junk }, false)
    | .completes =>
      ({ s with
        sectors := update s.sectors target (s.memory.sector kCrc32 unix)
        memory := { s.memory with ledger := s.memory.sealed kCrc32 unix, current := target } }, true)

/-- The first part of `tagfs_remember_use_context`: an oversize list is not kept. -/
def LedgerState.remember (s : LedgerState) (list : List UInt8) : LedgerState :=
  { s with memory := { s.memory with use := if list.length ≤ ledgerUseMax then list else [] } }

def tagfsWriteLedger (kCrc32 : Checksum) (s : LedgerState) (unix : UInt64) (write : SectorWrite) : LedgerState × Bool :=
  ledgerWriteLocked kCrc32 s unix write

def tagfsRememberUseContext (kCrc32 : Checksum) (s : LedgerState) (list : List UInt8) (unix : UInt64)
    (write : SectorWrite) : LedgerState × Bool :=
  ledgerWriteLocked kCrc32 (s.remember list) unix write

/-! ## Round trip -/

variable {led : VolumeLedger} {kCrc32 : Checksum}

theorem length_encode_ledger (h : led.magic.length = 8) : led.encode.length = ledgerSize := by
  rw [encode, length_append, h, length_packFields]
  simp [fields, ledgerSize]

theorem decode_encode_ledger (h : led.magic.length = 8) (rest : List UInt8) :
    decode (led.encode ++ rest) = led := by
  have hfield : ∀ {i n v off : Nat}, led.fields[i]? = some (n, v) → 8 + ((led.fields.take i).map Prod.fst).sum = off →
      v < 256 ^ n → fieldAt n off (led.encode ++ rest) = v := by
    intro i n v off hi hoff hv
    rw [← hoff, encode, append_assoc, fieldAt_append_left h]
    exact fieldAt_packFields hi rfl hv rest
  have hmagic : (led.encode ++ rest).take 8 = led.magic := by
    rw [encode, append_assoc]
    exact take_left' h
  have h0 :
    fieldAt 4 8 (led.encode ++ rest) = led.bytes.toNat := hfield (i := 0) rfl (by simp [fields]) (UInt32.toNat_lt _)
  have h1 :
    fieldAt 4 12 (led.encode ++ rest) = led.crc32.toNat := hfield (i := 1) rfl (by simp [fields]) (UInt32.toNat_lt _)
  have h2 :
    fieldAt 8 16 (led.encode ++ rest) = led.seq.toNat := hfield (i := 2) rfl (by simp [fields]) (UInt64.toNat_lt _)
  have h3 : fieldAt 8 24 (led.encode ++ rest) = led.writtenUnix.toNat :=
    hfield (i := 3) rfl (by simp [fields]) (UInt64.toNat_lt _)
  have h4 : fieldAt 8 32 (led.encode ++ rest) = led.freeBlocks.toNat :=
    hfield (i := 4) rfl (by simp [fields]) (UInt64.toNat_lt _)
  have h5 : fieldAt 8 40 (led.encode ++ rest) = led.totalFiles.toNat :=
    hfield (i := 5) rfl (by simp [fields]) (UInt64.toNat_lt _)
  have h6 : fieldAt 4 48 (led.encode ++ rest) = led.nextFileId.toNat :=
    hfield (i := 6) rfl (by simp [fields]) (UInt32.toNat_lt _)
  have h7 : fieldAt 4 52 (led.encode ++ rest) = led.nextTagId.toNat :=
    hfield (i := 7) rfl (by simp [fields]) (UInt32.toNat_lt _)
  have h8 : fieldAt 4 56 (led.encode ++ rest) = led.totalTags.toNat :=
    hfield (i := 8) rfl (by simp [fields]) (UInt32.toNat_lt _)
  have h9 : fieldAt 4 60 (led.encode ++ rest) = led.cowManifestBlock.toNat :=
    hfield (i := 9) rfl (by simp [fields]) (UInt32.toNat_lt _)
  have h10 : fieldAt 4 64 (led.encode ++ rest) = led.cowManifestBackupBlock.toNat :=
    hfield (i := 10) rfl (by simp [fields]) (UInt32.toNat_lt _)
  have h11 : fieldAt 4 68 (led.encode ++ rest) = led.integrityMapBlock.toNat :=
    hfield (i := 11) rfl (by simp [fields]) (UInt32.toNat_lt _)
  have h12 : fieldAt 4 72 (led.encode ++ rest) = led.integrityMapBlocks.toNat :=
    hfield (i := 12) rfl (by simp [fields]) (UInt32.toNat_lt _)
  have h13 : fieldAt 2 76 (led.encode ++ rest) = led.useContextOffset.toNat :=
    hfield (i := 13) rfl (by simp [fields]) (UInt16.toNat_lt _)
  have h14 : fieldAt 2 78 (led.encode ++ rest) = led.useContextBytes.toNat :=
    hfield (i := 14) rfl (by simp [fields]) (UInt16.toNat_lt _)
  rw [decode, hmagic, h0, h1, h2, h3, h4, h5, h6, h7, h8, h9, h10, h11, h12, h13, h14]
  simp only [UInt16.ofNat_toNat, UInt32.ofNat_toNat, UInt64.ofNat_toNat]

theorem length_ledgerMagic : ledgerMagic.length = 8 := rfl

theorem ledgerBuffer_eq (h : led.magic.length = 8) {use : List UInt8} (huse : use.length ≤ ledgerUseMax) :
    ledgerBuffer led use = led.encode ++ (use ++ replicate (ledgerUseMax - use.length) 0) := by
  have hlen := length_encode_ledger h
  have hzeros : replicate sectorSize (0 : UInt8) =
      [] ++ (replicate ledgerSize 0 ++ (replicate use.length 0 ++
        replicate (ledgerUseMax - use.length) 0)) := by
    simp only [nil_append, replicate_append_replicate]
    congr 1
    simp only [ledgerUseMax, sectorSize, ledgerSize] at huse ⊢
    omega
  rw [ledgerBuffer, hzeros, patch_middle length_nil (by simp [hlen]), nil_append,
    patch_middle hlen (by simp)]

theorem patch_crc (h : led.magic.length = 8) (crc : UInt32) (rest : List UInt8) :
    patch (led.encode ++ rest) 12 (leBytes 4 crc.toNat) = { led with crc32 := crc }.encode ++ rest := by
  have hsplit : ∀ crc : UInt32, { led with crc32 := crc }.encode ++ rest =
      (led.magic ++ leBytes 4 led.bytes.toNat) ++
      (leBytes 4 crc.toNat ++ (packFields (led.fields.drop 2) ++ rest)) := by
    intro crc
    simp [encode, fields, packFields]
  have hself := hsplit led.crc32
  rw [hsplit crc]
  rw [show ({ led with crc32 := led.crc32 } : VolumeLedger) = led from rfl] at hself
  rw [hself]
  exact patch_middle (by simp [h]) (by simp) _

section Sector

variable {m : LedgerMemory} (huse : m.use.length ≤ ledgerUseMax) (kCrc32 : Checksum) (unix : UInt64)

include huse

theorem sealed_bytes : (m.sealed kCrc32 unix).bytes.toNat = ledgerSize + m.use.length := by
  have : ledgerSize + m.use.length < 2 ^ 32 := by
    simp only [ledgerUseMax, sectorSize, ledgerSize] at huse ⊢
    omega
  exact UInt32.toNat_ofNat_of_lt' this

theorem sector_eq :
    m.sector kCrc32 unix = (m.sealed kCrc32 unix).encode ++ (m.use ++ replicate (ledgerUseMax - m.use.length) 0) := by
  have hmagic : (m.nextLedger unix).magic.length = 8 := length_ledgerMagic
  have hlen : (m.sealed kCrc32 unix).encode.length = ledgerSize := length_encode_ledger length_ledgerMagic
  rw [LedgerMemory.sector, ledgerBuffer_eq hmagic huse, patch_crc hmagic]
  refine take_of_length_le ?_
  change ((m.sealed kCrc32 unix).encode ++ _).length ≤ sectorSize
  rw [length_append, hlen]
  simp only [ledgerUseMax, sectorSize, ledgerSize, length_append, length_replicate] at huse ⊢
  omega

theorem readCopy_sector : ledgerReadCopy kCrc32 (m.sector kCrc32 unix) = some (m.sealed kCrc32 unix, m.use) := by
  have hsize : m.use.length ≤ 432 := huse
  have hmagic : (m.sealed kCrc32 unix).magic.length = 8 := length_ledgerMagic
  have hbytes := sealed_bytes huse kCrc32 unix
  have hdecode : decode (m.sector kCrc32 unix) = m.sealed kCrc32 unix := by
    rw [sector_eq huse, decode_encode_ledger hmagic]
  have htake : (m.sector kCrc32 unix).take (ledgerSize + m.use.length) = (m.sealed kCrc32 unix).encode ++ m.use := by
    rw [sector_eq huse, ← append_assoc]
    exact take_left' (by rw [length_append, length_encode_ledger hmagic])
  have hcrc :
      kCrc32 (patch ((m.sealed kCrc32 unix).encode ++ m.use) 12 [0, 0, 0, 0]) = (m.sealed kCrc32 unix).crc32 := by
    have hzero : ([0, 0, 0, 0] : List UInt8) = leBytes 4 (0 : UInt32).toNat := by decide
    have hnext : ({ m.sealed kCrc32 unix with crc32 := 0 } : VolumeLedger) = m.nextLedger unix := rfl
    have hbuf : (ledgerBuffer (m.nextLedger unix) m.use).take (ledgerSize + m.use.length) =
        (m.nextLedger unix).encode ++ m.use := by
      rw [ledgerBuffer_eq length_ledgerMagic huse, ← append_assoc]
      exact take_left' (by rw [length_append, length_encode_ledger length_ledgerMagic])
    rw [hzero, patch_crc hmagic, hnext, ← hbuf, ← hbytes]
    rfl
  have hlen : (m.sealed kCrc32 unix).useContextBytes.toNat = m.use.length :=
    UInt16.toNat_ofNat_of_lt' (show m.use.length < 2 ^ 16 by omega)
  have hmag : ¬ (m.sealed kCrc32 unix).magic ≠ ledgerMagic := fun hne => hne rfl
  have hrange : ¬ (ledgerSize + m.use.length < ledgerRequiredBytes ∨ ledgerSize + m.use.length > sectorSize) := by
    simp only [ledgerSize, ledgerRequiredBytes, sectorSize]
    omega
  have hfull : ¬ ledgerSize + m.use.length < ledgerSize := by omega
  rw [ledgerReadCopy]
  simp only [hdecode, hbytes, htake]
  rw [if_neg hmag, if_neg hrange, if_neg (by rw [hcrc]; exact fun hne => hne rfl)]
  simp only [if_neg hfull, hlen, some.injEq, Prod.mk.injEq, true_and]
  by_cases hempty : m.use.length = 0
  · rw [if_pos hempty, length_eq_zero_iff.mp hempty]
  have hoff : (m.sealed kCrc32 unix).useContextOffset.toNat = ledgerSize := by
    simp only [LedgerMemory.sealed, LedgerMemory.nextLedger, if_neg hempty]
    rfl
  have hin : ¬ (ledgerSize < ledgerRequiredBytes ∨ ledgerSize + m.use.length > ledgerSize + m.use.length) := by
    simp only [ledgerSize, ledgerRequiredBytes]
    omega
  rw [if_neg hempty, hoff, if_neg hin, sector_eq huse, ← length_encode_ledger hmagic, drop_left, take_left]

end Sector

/-! ## Runs -/

/-- What happens to a volume with a ledger: the fields change in memory, they are written, the Use Context is
remembered, or the volume is mounted again. -/
inductive LedgerOp where
  | fields (freeBlocks totalFiles : UInt64) (nextFileId nextTagId totalTags cowManifestBlock cowManifestBackupBlock
      integrityMapBlock integrityMapBlocks : UInt32)
  | write (unix : UInt64) (write : SectorWrite)
  | remember (list : List UInt8) (unix : UInt64) (write : SectorWrite)
  | mount

/-- The state of a run, with the fields and the tail of the last write that completed. -/
structure LedgerRun where
  state : LedgerState
  last : VolumeLedger × List UInt8

/-- `ledger_write_locked` in a run. -/
def LedgerRun.writeLocked (kCrc32 : Checksum) (r : LedgerRun) (unix : UInt64) (write : SectorWrite) : LedgerRun :=
  let w := ledgerWriteLocked kCrc32 r.state unix write
  ⟨w.1, if w.2 then (w.1.memory.ledger, r.state.memory.use) else r.last⟩

def LedgerRun.step (kCrc32 : Checksum) (r : LedgerRun) : LedgerOp → LedgerRun
  | .fields freeBlocks totalFiles nextFileId nextTagId totalTags cowManifestBlock cowManifestBackupBlock
      integrityMapBlock integrityMapBlocks =>
    { r with state.memory.ledger := { r.state.memory.ledger with
        freeBlocks := freeBlocks
        totalFiles := totalFiles
        nextFileId := nextFileId
        nextTagId := nextTagId
        totalTags := totalTags
        cowManifestBlock := cowManifestBlock
        cowManifestBackupBlock := cowManifestBackupBlock
        integrityMapBlock := integrityMapBlock
        integrityMapBlocks := integrityMapBlocks } }
  | .write unix write => r.writeLocked kCrc32 unix write
  | .remember list unix write => { r with state := r.state.remember list }.writeLocked kCrc32 unix write
  | .mount =>
    match ledgerLoad kCrc32 r.state.sectors with
    | none => r
    | some m => { r with state.memory := m }

/-- Torn bytes do not pass for a ledger. -/
def LedgerOp.TearsShow (kCrc32 : Checksum) : LedgerOp → Prop
  | .write _ (.tears junk) => ledgerReadCopy kCrc32 junk = none
  | .remember _ _ (.tears junk) => ledgerReadCopy kCrc32 junk = none
  | _ => True

/-- The current copy is the last one that was written completely, the other one is older or not readable, and the
sequence number and the tail in memory are fit to be written. -/
structure LedgerRun.Inv (kCrc32 : Checksum) (r : LedgerRun) : Prop where
  current : r.state.memory.current < 2
  copy : ledgerReadCopy kCrc32 (r.state.sectors r.state.memory.current) = some r.last
  other : ∀ l, ledgerReadCopy kCrc32 (r.state.sectors ((r.state.memory.current + 1) % 2)) = some l →
    l.1.seq < r.last.1.seq ∨ l.1.seq = r.last.1.seq ∧ r.state.memory.current = 0
  seq : r.state.memory.ledger.seq = r.last.1.seq
  use : r.state.memory.use.length ≤ ledgerUseMax
  tail : r.last.2.length ≤ ledgerUseMax

section Runs

variable {kCrc32 : Checksum} {r : LedgerRun}

/-- A mount finds the last write that completed. -/
theorem LedgerRun.Inv.load (h : r.Inv kCrc32) :
    ledgerLoad kCrc32 r.state.sectors = some ⟨r.last.1, r.state.memory.current, r.last.2⟩ := by
  have hcopy := h.copy
  have hother := h.other
  unfold ledgerLoad
  rcases Nat.lt_or_ge r.state.memory.current 1 with hcur | hcur
  · have h0 : r.state.memory.current = 0 := by omega
    rw [h0] at hcopy hother ⊢
    rw [hcopy]
    cases hb : ledgerReadCopy kCrc32 (r.state.sectors 1) with
    | none => rfl
    | some b =>
      have hle : ¬ b.1.seq > r.last.1.seq := by
        have hle : b.1.seq.toNat ≤ r.last.1.seq.toNat := by
          rcases hother b hb with hlt | ⟨heq, -⟩
          · exact le_of_lt (UInt64.lt_iff_toNat_lt.mp hlt)
          · rw [heq]
        rw [gt_iff_lt, UInt64.lt_iff_toNat_lt]
        omega
      simp only [if_neg hle]
  · have h1 : r.state.memory.current = 1 := by have := h.current; omega
    rw [h1] at hcopy hother ⊢
    rw [hcopy]
    cases ha : ledgerReadCopy kCrc32 (r.state.sectors 0) with
    | none => rfl
    | some a =>
      have hgt : r.last.1.seq > a.1.seq := by
        rcases hother a ha with hlt | ⟨-, h10⟩
        · exact hlt
        · exact absurd h10 (by decide)
      simp only [if_pos hgt]

/-- One write keeps the invariant, whatever becomes of it. -/
theorem LedgerRun.Inv.writeLocked (h : r.Inv kCrc32) (unix : UInt64) (write : SectorWrite)
    (htears : ∀ junk, write = .tears junk → ledgerReadCopy kCrc32 junk = none)
    (hseq : r.last.1.seq.toNat + 1 < 2 ^ 64) : (r.writeLocked kCrc32 unix write).Inv kCrc32 ∧
    (r.writeLocked kCrc32 unix write).last.1.seq.toNat ≤ r.last.1.seq.toNat + 1 := by
  have hcur := h.current
  have hne : r.state.memory.current ≠ (r.state.memory.current + 1) % 2 := by omega
  have hsame : r.writeLocked kCrc32 unix .fails = r := by
    unfold LedgerRun.writeLocked ledgerWriteLocked
    split <;> rfl
  by_cases hblocks : r.state.stateBlocks < ledgerCopies
  · have heq : r.writeLocked kCrc32 unix write = r := by
      unfold LedgerRun.writeLocked ledgerWriteLocked
      rw [if_pos hblocks]
      rfl
    rw [heq]
    exact ⟨h, Nat.le_succ _⟩
  cases write with
  | fails =>
    rw [hsame]
    exact ⟨h, Nat.le_succ _⟩
  | tears junk =>
    have hw : r.writeLocked kCrc32 unix (.tears junk) =
        { r with state.sectors := update r.state.sectors ((r.state.memory.current + 1) % 2) junk } := by
      unfold LedgerRun.writeLocked ledgerWriteLocked
      rw [if_neg hblocks]
      rfl
    rw [hw]
    refine ⟨⟨h.current, ?_, ?_, h.seq, h.use, h.tail⟩, Nat.le_succ _⟩
    · simp only [update_of_ne hne]
      exact h.copy
    · intro l hl
      simp only [update_self, htears junk rfl] at hl
      cases hl
  | completes =>
    have hw : r.writeLocked kCrc32 unix .completes =
        ⟨{ r.state with
          sectors := update r.state.sectors ((r.state.memory.current + 1) % 2) (r.state.memory.sector kCrc32 unix)
          memory := { r.state.memory with
            ledger := r.state.memory.sealed kCrc32 unix
            current := (r.state.memory.current + 1) % 2 } },
          (r.state.memory.sealed kCrc32 unix, r.state.memory.use)⟩ := by
      unfold LedgerRun.writeLocked ledgerWriteLocked
      rw [if_neg hblocks]
      rfl
    have hnext : (r.state.memory.sealed kCrc32 unix).seq = r.last.1.seq + 1 := by
      rw [← h.seq]
      rfl
    have hnat : (r.last.1.seq + 1).toNat = r.last.1.seq.toNat + 1 := by
      rw [UInt64.toNat_add]
      exact Nat.mod_eq_of_lt hseq
    have hback : ((r.state.memory.current + 1) % 2 + 1) % 2 = r.state.memory.current := by omega
    rw [hw]
    refine ⟨⟨Nat.mod_lt _ (by decide), ?_, ?_, rfl, h.use, h.use⟩, ?_⟩
    · simp only [update_self]
      exact readCopy_sector h.use kCrc32 unix
    · intro l hl
      simp only [hback, update_of_ne hne, h.copy] at hl
      obtain rfl := some.inj hl
      refine Or.inl ?_
      rw [hnext, UInt64.lt_iff_toNat_lt, hnat]
      omega
    · change (r.state.memory.sealed kCrc32 unix).seq.toNat ≤ _
      rw [hnext, hnat]

theorem LedgerRun.Inv.step (h : r.Inv kCrc32) {op : LedgerOp} (hop : op.TearsShow kCrc32)
    (hseq : r.last.1.seq.toNat + 1 < 2 ^ 64) :
    (r.step kCrc32 op).Inv kCrc32 ∧ (r.step kCrc32 op).last.1.seq.toNat ≤ r.last.1.seq.toNat + 1 := by
  cases op with
  | fields =>
    exact ⟨⟨h.current, h.copy, h.other, h.seq, h.use, h.tail⟩, Nat.le_succ _⟩
  | write unix write => exact h.writeLocked unix write (fun junk hw => by subst hw; exact hop) hseq
  | remember list unix write =>
    have hinv : ({ r with state := r.state.remember list } : LedgerRun).Inv kCrc32 := by
      refine ⟨h.current, h.copy, h.other, h.seq, ?_, h.tail⟩
      simp only [LedgerState.remember]
      split
      · assumption
      · exact Nat.zero_le _
    exact hinv.writeLocked unix write (fun junk hw => by subst hw; exact hop) hseq
  | mount =>
    simp only [LedgerRun.step, h.load]
    exact ⟨⟨h.current, h.copy, h.other, rfl, h.tail, h.tail⟩, Nat.le_succ _⟩

def LedgerRun.run (kCrc32 : Checksum) (r : LedgerRun) (ops : List LedgerOp) : LedgerRun := ops.foldl (·.step kCrc32 ·) r

theorem LedgerRun.Inv.run (ops : List LedgerOp) {r : LedgerRun} (h : r.Inv kCrc32)
    (hops : ∀ op ∈ ops, op.TearsShow kCrc32) (hseq : r.last.1.seq.toNat + ops.length < 2 ^ 64) :
    (r.run kCrc32 ops).Inv kCrc32 := by
  induction ops generalizing r with
  | nil => exact h
  | cons op ops ih =>
    rw [length_cons] at hseq
    obtain ⟨hinv, hle⟩ := h.step (hops op mem_cons_self) (by omega)
    exact ih hinv (fun op' hop' => hops op' (mem_cons_of_mem op hop'))
      (lt_of_le_of_lt (Nat.add_le_add_right hle _) (by omega))

end Runs

/-- A run that starts with a mount. -/
def LedgerRun.start (stateBlocks : Nat) (sectors : LedgerSectors) (m : LedgerMemory) : LedgerRun :=
  ⟨⟨stateBlocks, m, sectors⟩, (m.ledger, m.use)⟩

theorem ledgerLoad_cases {sectors : LedgerSectors} {m : LedgerMemory} (h : ledgerLoad kCrc32 sectors = some m) :
    m.current < 2 ∧ ledgerReadCopy kCrc32 (sectors m.current) = some (m.ledger, m.use) ∧
    ∀ l, ledgerReadCopy kCrc32 (sectors ((m.current + 1) % 2)) = some l →
    l.1.seq < m.ledger.seq ∨ l.1.seq = m.ledger.seq ∧ m.current = 0 := by
  unfold ledgerLoad at h
  cases ha : ledgerReadCopy kCrc32 (sectors 0) with
  | none =>
    cases hb : ledgerReadCopy kCrc32 (sectors 1) with
    | none =>
      simp only [ha, hb] at h
      cases h
    | some b =>
      simp only [ha, hb, some.injEq] at h
      subst h
      exact ⟨Nat.lt_succ_self 1, hb, fun l hl => by simp only [ha] at hl; exact nomatch hl⟩
  | some a =>
    cases hb : ledgerReadCopy kCrc32 (sectors 1) with
    | none =>
      simp only [ha, hb, some.injEq] at h
      subst h
      exact ⟨Nat.two_pos, ha, fun l hl => by simp only [hb] at hl; exact nomatch hl⟩
    | some b =>
      simp only [ha, hb] at h
      split at h
      · rename_i hgt
        obtain rfl := some.inj h
        exact ⟨Nat.lt_succ_self 1, hb, fun l hl => by simp only [ha, some.injEq] at hl; subst hl; exact Or.inl hgt⟩
      rename_i hle
      obtain rfl := some.inj h
      refine ⟨Nat.two_pos, ha, fun l hl => ?_⟩
      simp only [hb, some.injEq] at hl
      subst hl
      rw [gt_iff_lt, UInt64.lt_iff_toNat_lt, not_lt] at hle
      rcases Nat.lt_or_eq_of_le hle with hlt | heq
      · exact Or.inl (UInt64.lt_iff_toNat_lt.mpr hlt)
      · exact Or.inr ⟨UInt64.toNat_inj.mp heq, rfl⟩

theorem start_inv {sectors : LedgerSectors} {m : LedgerMemory} (stateBlocks : Nat)
    (h : ledgerLoad kCrc32 sectors = some m) (huse : m.use.length ≤ ledgerUseMax) :
    (LedgerRun.start stateBlocks sectors m).Inv kCrc32 := by
  obtain ⟨h1, h2, h3⟩ := ledgerLoad_cases h
  exact ⟨h1, h2, h3, rfl, huse, huse⟩

/-- A mount finds the last write that completed, with its tail; the next write goes to the other copy; and a write that
fails leaves the fields and the current copy in memory. -/
structure LedgerSound (kCrc32 : Checksum) (r : LedgerRun) : Prop where
  load : ledgerLoad kCrc32 r.state.sectors = some ⟨r.last.1, r.state.memory.current, r.last.2⟩
  other : ∀ unix write, (ledgerWriteLocked kCrc32 r.state unix write).1.sectors r.state.memory.current =
    r.state.sectors r.state.memory.current
  failed : ∀ unix write, (tagfsWriteLedger kCrc32 r.state unix write).2 = false →
    (tagfsWriteLedger kCrc32 r.state unix write).1.memory = r.state.memory
  forgot : ∀ list unix write, (tagfsRememberUseContext kCrc32 r.state list unix write).2 = false →
    (tagfsRememberUseContext kCrc32 r.state list unix write).1.memory.ledger = r.state.memory.ledger ∧
      (tagfsRememberUseContext kCrc32 r.state list unix write).1.memory.current = r.state.memory.current

theorem ledgerWriteLocked_failed {s : LedgerState} {unix : UInt64} {write : SectorWrite}
    (h : (ledgerWriteLocked kCrc32 s unix write).2 = false) :
    (ledgerWriteLocked kCrc32 s unix write).1.memory = s.memory := by
  unfold ledgerWriteLocked at h ⊢
  split
  · rfl
  rename_i hblocks
  rw [if_neg hblocks] at h
  cases write with
  | completes => cases h
  | fails => rfl
  | tears junk => rfl

theorem LedgerRun.Inv.sound {r : LedgerRun} (h : r.Inv kCrc32) : LedgerSound kCrc32 r where
  load := h.load
  other := by
    intro unix write
    have hne : r.state.memory.current ≠ (r.state.memory.current + 1) % ledgerCopies := by
      simp only [ledgerCopies]
      omega
    unfold ledgerWriteLocked
    split
    · rfl
    cases write with
    | completes | tears => exact update_of_ne hne _ _
    | fails => rfl
  failed := fun unix write hw => ledgerWriteLocked_failed hw
  forgot := by
    intro list unix write hw
    have hsame := ledgerWriteLocked_failed hw
    rw [tagfsRememberUseContext, hsame]
    exact ⟨rfl, rfl⟩

/-- Every run from a mount: as long as the tail found has room in the writer and the sequence number does not wrap, the
last write that completed is what the next mount finds. -/
theorem ledger_survives {kCrc32 : Checksum} {stateBlocks : Nat} {sectors : LedgerSectors} {m : LedgerMemory}
    (hmount : ledgerLoad kCrc32 sectors = some m) (huse : m.use.length ≤ ledgerUseMax) (ops : List LedgerOp)
    (hops : ∀ op ∈ ops, op.TearsShow kCrc32) (hseq : m.ledger.seq.toNat + ops.length < 2 ^ 64) :
    LedgerSound kCrc32 ((LedgerRun.start stateBlocks sectors m).run kCrc32 ops) :=
  ((start_inv stateBlocks hmount huse).run ops hops hseq).sound

/-- The ledger of a new volume. -/
def newLedger : VolumeLedger := ⟨ledgerMagic, 80, 0, 1, 0, 8, 0, 1, 0, 0, 0, 0, 0, 0, 0, 0⟩

/-- A new volume, both copies written. -/
def newSectors : LedgerSectors := fun _ => newLedger.encode ++ replicate ledgerUseMax 0

/-- A run on a new volume: a Use Context is remembered, the next write tears, and the volume is mounted again. -/
theorem ledger_survives_new : ∃ m, ledgerLoad (fun _ => 0) newSectors = some m ∧
    LedgerSound (fun _ => 0) ((LedgerRun.start 2 newSectors m).run (fun _ => 0)
      [.remember [0x61] 5 .completes, .write 6 (.tears []), .mount]) := by
  refine ⟨⟨newLedger, 0, []⟩, by decide +kernel, ?_⟩
  refine ledger_survives (by decide +kernel) (by decide) _ ?_ (by decide)
  intro op hop
  simp only [mem_cons, not_mem_nil, or_false] at hop
  rcases hop with rfl | rfl | rfl
  · trivial
  · change ledgerReadCopy (fun _ => 0) [] = none
    decide
  · trivial

/-- A ledger whose tail starts before the end of its fields and fills the sector. -/
def longTailLedger : VolumeLedger := { newLedger with bytes := 512, useContextOffset := 76, useContextBytes := 436 }

def longTailSectors : LedgerSectors := fun c => if c = 0 then longTailLedger.encode ++ replicate ledgerUseMax 0 else []

/-- The tail is accepted by the mount; the next write completes, and its sector is not readable. -/
theorem long_tail_unreadable :
    ∃ m, ledgerLoad (fun _ => 0) longTailSectors = some m ∧ m.use.length = 436 ∧
      (tagfsWriteLedger (fun _ => 0) ⟨2, m, longTailSectors⟩ 7 .completes).2 = true ∧
      ((LedgerRun.start 2 longTailSectors m).run (fun _ => 0) [.write 7 .completes]).last.1.seq = 2 ∧
      ledgerLoad (fun _ => 0)
        ((LedgerRun.start 2 longTailSectors m).run (fun _ => 0) [.write 7 .completes]).state.sectors = some m ∧
      m.ledger.seq = 1 := by
  obtain ⟨m, hm⟩ : ∃ m, ledgerLoad (fun _ => 0) longTailSectors = some m := isSome_iff_exists.mp (by decide +kernel)
  have hfacts : (ledgerLoad (fun _ => 0) longTailSectors).all (fun m => decide (m.use.length = 436 ∧
      (tagfsWriteLedger (fun _ => 0) ⟨2, m, longTailSectors⟩ 7 .completes).2 = true ∧
      ((LedgerRun.start 2 longTailSectors m).run (fun _ => 0) [.write 7 .completes]).last.1.seq = 2 ∧
      ledgerLoad (fun _ => 0)
        ((LedgerRun.start 2 longTailSectors m).run (fun _ => 0) [.write 7 .completes]).state.sectors = some m ∧
      m.ledger.seq = 1)) = true := by
    decide +kernel
  rw [hm, all_some, decide_eq_true_eq] at hfacts
  exact ⟨m, hm, hfacts⟩

end BoxOS.TagFS
