import Mathlib.Logic.Function.Basic

/-!
# The redirect log of copy-on-write

`disk_book.c`: redirects are records of two sectors; a superblock in two copies says how many of them count. A call
writes the record first, then the superblock to its primary sector and, if that worked, to its backup sector.

Every call returns the disks it leaves behind between two sector writes, for the machine may stop there. Which sector
writes work is in `Answers`, which copies of the superblock a mount can read is in `Readable`. `KCrc32` is any function
of a structure. The statistics and the cache flush after every 64th record are left out.

- `BookInv`: both copies are the superblock in memory, and a replay of its records gives `kept`;
- `redirects_durable`: every run of calls whose superblock writes work, stopped anywhere.

`write_superblock_locked` may fail, and `DiskBookLogRedirect` answers `OK` all the same: `redirect_lost`.
-/

namespace BoxOS.TagFS.DiskBook

open List Option

def diskBookMagic : UInt32 := 0x44424F4F

def diskBookSbMagic : UInt32 := 0x44425342

def diskBookVersion : UInt32 := 2

def diskBookSectorsPerEntry : UInt64 := 2

def diskBookCapacity : UInt32 := 512

def diskBookTypeRedirect : UInt16 := 0x01

structure DiskBookSuperblock where
  magic : UInt32
  version : UInt32
  startSector : UInt64
  capacity : UInt32
  count : UInt32
  generation : UInt32
  flags : UInt32
  crc32 : UInt32
  uuid : List UInt8
  reserved : List UInt8
deriving DecidableEq

structure DiskBookEntry where
  magic : UInt32
  sequence : UInt32
  type : UInt16
  flags : UInt16
  snapshotId : UInt32
  oldBlock : UInt32
  newBlock : UInt32
  tagBits : UInt64
  recordCrc32 : UInt32
  /-- `reserved`, as far as the first sector goes -/
  reserved : List UInt8
  /-- the second sector -/
  reservedEnd : List UInt8
deriving DecidableEq

/-- What `TagFS_CowRestoreRedirect` is called with. -/
structure Redirect where
  snapshotId : UInt32
  oldBlock : UInt32
  newBlock : UInt32
deriving DecidableEq

/-- The sectors of the log; a record is under the number of its first sector. -/
structure BookDisk where
  primary : DiskBookSuperblock
  backup : DiskBookSuperblock
  records : UInt64 → DiskBookEntry

/-- `g_sb`, `g_initialized` and the disk. -/
structure Book where
  sb : DiskBookSuperblock
  initialized : Bool
  disk : BookDisk

/-- What becomes of the write of a record. -/
inductive RecordWrite where
  | refused
  /-- it fails after its first sector -/
  | torn
  | done
deriving DecidableEq

/-- Which sector writes of a call work. -/
structure Answers where
  record : RecordWrite
  primary : Bool
  backup : Bool

/-- Which copies of the superblock can be read. -/
structure Readable where
  primary : Bool
  backup : Bool

inductive BookError where
  | ok
  | notInitialized
  | invalidArgument
  | diskFull
  | io
  | writeFailed
deriving DecidableEq

/-- How a call ends, and the disk after each of its sector writes. -/
structure Outcome where
  error : BookError
  book : Book
  trace : List BookDisk

section

variable (kcrcSb : DiskBookSuperblock → UInt32) (kcrcEntry : DiskBookEntry → UInt32)

def entryCrc (e : DiskBookEntry) : UInt32 := kcrcEntry { e with recordCrc32 := 0 }

def recordSector (sb : DiskBookSuperblock) (idx : UInt32) : UInt64 :=
  sb.startSector + idx.toUInt64 * diskBookSectorsPerEntry

/-- The superblock with its checksum. -/
def sealed (sb : DiskBookSuperblock) : DiskBookSuperblock :=
  { sb with crc32 := kcrcSb { sb with crc32 := 0 } }

def writeSuperblockLocked (a : Answers) (s : Book) : Outcome :=
  let sb := sealed kcrcSb s.sb
  if a.primary then
    let d₁ := { s.disk with primary := sb }
    let d₂ := if a.backup then { d₁ with backup := sb } else d₁
    ⟨.ok, { s with sb := sb, disk := d₂ }, [d₁, d₂]⟩
  else ⟨.io, { s with sb := sb }, []⟩

def sbValid (sb : DiskBookSuperblock) : Bool :=
  sb.magic = diskBookSbMagic ∧ kcrcSb { sb with crc32 := 0 } = sb.crc32

def readSuperblockInto (r : Readable) (d : BookDisk) : Option DiskBookSuperblock :=
  if r.primary && sbValid kcrcSb d.primary then some d.primary
  else if r.backup && sbValid kcrcSb d.backup then some d.backup
  else none

def readEntry (s : Book) (idx : UInt32) : Option DiskBookEntry :=
  if idx ≥ s.sb.capacity then none else some (s.disk.records (recordSector s.sb idx))

/-- The disk with a record in its two sectors. -/
def BookDisk.put (d : BookDisk) (sector : UInt64) (e : DiskBookEntry) : BookDisk :=
  { d with records := Function.update d.records sector e }

/-- The disk with the first sector of a record. -/
def BookDisk.putFirst (d : BookDisk) (sector : UInt64) (e : DiskBookEntry) : BookDisk :=
  d.put sector { e with reservedEnd := (d.records sector).reservedEnd }

def writeEntry (a : Answers) (s : Book) (idx : UInt32) (e : DiskBookEntry) : Outcome :=
  if idx ≥ s.sb.capacity then ⟨.invalidArgument, s, []⟩
  else
    let sector := recordSector s.sb idx
    match a.record with
    | .refused => ⟨.io, s, []⟩
    | .torn => ⟨.io, { s with disk := s.disk.putFirst sector e }, [s.disk.putFirst sector e]⟩
    | .done => ⟨.ok, { s with disk := s.disk.put sector e }, [s.disk.putFirst sector e, s.disk.put sector e]⟩

def formatFreshLocked (recordsSector : UInt64) : DiskBookSuperblock where
  magic := diskBookSbMagic
  version := diskBookVersion
  startSector := recordsSector
  capacity := diskBookCapacity
  count := 0
  generation := 0
  flags := 0
  crc32 := 0
  uuid := replicate 16 0
  reserved := replicate 460 0

/-- The superblock `DiskBookInit` goes on with. -/
def accepted (recordsSector : UInt64) (sb : DiskBookSuperblock) : Bool :=
  sb.version = diskBookVersion ∧ sb.capacity = diskBookCapacity ∧ sb.count ≤ diskBookCapacity ∧
    sb.startSector = recordsSector

/-- `DiskBookInit`, on a disk that is mounted. -/
def diskBookInit (a : Answers) (r : Readable) (recordsSector : UInt64) (d : BookDisk) : Outcome :=
  match (readSuperblockInto kcrcSb r d).filter (accepted recordsSector) with
  | some sb => ⟨.ok, ⟨sb, true, d⟩, []⟩
  | none =>
    let w := writeSuperblockLocked kcrcSb a ⟨formatFreshLocked recordsSector, false, d⟩
    if w.error = .ok then ⟨.ok, { w.book with initialized := true }, w.trace⟩ else ⟨.writeFailed, w.book, w.trace⟩

/-- The loop of `DiskBookValidateAndReplay`: the redirects it restores, in order. -/
def replayFrom (s : Book) : List UInt32 → List Redirect
  | [] => []
  | i :: is =>
    match readEntry s i with
    | none => []
    | some e =>
      if e.magic ≠ diskBookMagic then replayFrom s is
      else if entryCrc kcrcEntry e ≠ e.recordCrc32 then replayFrom s is
      else if e.type = diskBookTypeRedirect then ⟨e.snapshotId, e.oldBlock, e.newBlock⟩ :: replayFrom s is
      else replayFrom s is

def diskBookValidateAndReplay (s : Book) : List Redirect :=
  if s.initialized then replayFrom kcrcEntry s ((List.range (min s.sb.count s.sb.capacity).toNat).map UInt32.ofNat)
  else []

/-- The record of a redirect. -/
def redirectEntry (sequence snapshotId oldBlock newBlock : UInt32) (tagBits : UInt64) : DiskBookEntry :=
  let e : DiskBookEntry :=
    ⟨diskBookMagic, sequence, diskBookTypeRedirect, 0, snapshotId, oldBlock, newBlock, tagBits, 0,
    replicate 476 0, replicate 512 0⟩
  { e with recordCrc32 := entryCrc kcrcEntry e }

def diskBookLogRedirect (a : Answers) (s : Book) (snapshotId oldBlock newBlock : UInt32) (tagBits : UInt64) : Outcome :=
  if ¬ s.initialized then ⟨.notInitialized, s, []⟩
  else if oldBlock = 0 ∨ newBlock = 0 then ⟨.invalidArgument, s, []⟩
  else if s.sb.count ≥ s.sb.capacity then ⟨.diskFull, s, []⟩
  else
    let idx := s.sb.count
    let s₁ := { s with sb := { s.sb with generation := s.sb.generation + 1 } }
    let e := redirectEntry kcrcEntry s₁.sb.generation snapshotId oldBlock newBlock tagBits
    let w := writeEntry a s₁ idx e
    if w.error ≠ .ok then
      ⟨.io, { w.book with sb := { w.book.sb with generation := w.book.sb.generation - 1 } }, w.trace⟩
    else
      let s₂ := { w.book with sb := { w.book.sb with count := w.book.sb.count + 1 } }
      -- what the write of the superblock returns is not looked at
      let v := writeSuperblockLocked kcrcSb a s₂
      ⟨.ok, v.book, w.trace ++ v.trace⟩

def diskBookResetRedirects (a : Answers) (s : Book) : Outcome :=
  if ¬ s.initialized then ⟨.ok, s, []⟩
  else
    let v := writeSuperblockLocked kcrcSb a { s with sb := { s.sb with count := 0, generation := s.sb.generation + 1 } }
    ⟨.ok, v.book, v.trace⟩

/-! ## What a mount reads -/

/-- The redirects a mount restores. -/
def restored (a : Answers) (r : Readable) (recordsSector : UInt64) (d : BookDisk) : List Redirect :=
  let o := diskBookInit kcrcSb a r recordsSector d
  if o.error = .ok then diskBookValidateAndReplay kcrcEntry o.book else []

/-- The first `n` records. -/
def indices (n : UInt32) : List UInt32 := (List.range n.toNat).map UInt32.ofNat

/-- A mount that reads the superblock `sb` on the disk `d` restores `l`. -/
structure Good (recordsSector : UInt64) (d : BookDisk) (sb : DiskBookSuperblock) (l : List Redirect) : Prop where
  valid : sbValid kcrcSb sb = true
  accepted : accepted recordsSector sb = true
  replay : replayFrom kcrcEntry ⟨sb, true, d⟩ (indices sb.count) = l

/-- What is true between two calls. -/
structure BookInv (recordsSector : UInt64) (s : Book) (kept : List Redirect) : Prop where
  initialized : s.initialized = true
  primary : s.disk.primary = s.sb
  backup : s.disk.backup = s.sb
  good : Good kcrcSb kcrcEntry recordsSector s.disk s.sb kept

variable {kcrcSb : DiskBookSuperblock → UInt32} {kcrcEntry : DiskBookEntry → UInt32} {recordsSector : UInt64}
  {d d' : BookDisk} {sb sb' : DiskBookSuperblock} {l l' kept : List Redirect} {s : Book} {a : Answers} {r : Readable}

theorem accepted_iff : accepted recordsSector sb = true ↔ sb.version = diskBookVersion ∧
    sb.capacity = diskBookCapacity ∧ sb.count ≤ diskBookCapacity ∧ sb.startSector = recordsSector := by
  simp [accepted]

theorem sbValid_sealed (h : sb.magic = diskBookSbMagic) : sbValid kcrcSb (sealed kcrcSb sb) = true := by
  simp [sbValid, sealed, h]

section

variable (h : accepted recordsSector sb = true)

include h

theorem count_le : sb.count ≤ sb.capacity := by
  obtain ⟨-, hcap, hcount, -⟩ := accepted_iff.mp h
  rw [hcap]
  exact hcount

theorem replay_eq (d : BookDisk) :
    diskBookValidateAndReplay kcrcEntry ⟨sb, true, d⟩ = replayFrom kcrcEntry ⟨sb, true, d⟩ (indices sb.count) := by
  have hle := count_le h
  have hmin : min sb.count sb.capacity = sb.count := by
    simp [Min.min, hle]
  rw [diskBookValidateAndReplay, if_pos rfl, hmin]
  rfl

theorem restored_eq (hread : readSuperblockInto kcrcSb r d = some sb) :
    restored kcrcSb kcrcEntry a r recordsSector d = replayFrom kcrcEntry ⟨sb, true, d⟩ (indices sb.count) := by
  have hinit : diskBookInit kcrcSb a r recordsSector d = ⟨.ok, ⟨sb, true, d⟩, []⟩ := by
    rw [diskBookInit, hread, filter_some_pos h]
  rw [restored, hinit]
  exact replay_eq h d

end

theorem restored_copies (h₁ : Good kcrcSb kcrcEntry recordsSector d d.primary l)
    (h₂ : Good kcrcSb kcrcEntry recordsSector d d.backup l') (hr : r.primary = true ∨ r.backup = true) :
    restored kcrcSb kcrcEntry a r recordsSector d = l ∨ restored kcrcSb kcrcEntry a r recordsSector d = l' := by
  cases hp : r.primary with
  | true =>
    left
    rw [restored_eq h₁.accepted, h₁.replay]
    simp [readSuperblockInto, hp, h₁.valid]
  | false =>
    right
    have hb : r.backup = true := hr.resolve_left (by simp [hp])
    rw [restored_eq h₂.accepted, h₂.replay]
    simp [readSuperblockInto, hp, hb, h₂.valid]

/-! ## Records -/

theorem recordSector_inj (sb : DiskBookSuperblock) {i j : UInt32} (h : recordSector sb i = recordSector sb j) :
    i = j := by
  have hmul : i.toUInt64 * diskBookSectorsPerEntry = j.toUInt64 * diskBookSectorsPerEntry := by
    simpa [recordSector] using h
  have hnat := congrArg UInt64.toNat hmul
  have hi := i.toNat_lt
  have hj := j.toNat_lt
  simp only [UInt64.toNat_mul, UInt32.toNat_toUInt64, diskBookSectorsPerEntry, UInt64.reduceToNat] at hnat
  apply UInt32.toNat.inj
  omega

theorem mem_indices {n i : UInt32} : i ∈ indices n ↔ i < n := by
  constructor
  · intro h
    obtain ⟨k, hk, rfl⟩ := List.mem_map.mp h
    have hk := mem_range.mp hk
    have hn := n.toNat_lt
    rw [UInt32.lt_iff_toNat_lt, UInt32.toNat_ofNat_of_lt' (Nat.lt_trans hk hn)]
    exact hk
  · intro h
    exact List.mem_map.mpr ⟨i.toNat, mem_range.mpr (UInt32.lt_iff_toNat_lt.mp h), by simp⟩

theorem indices_succ {n : UInt32} (h : n < diskBookCapacity) : indices (n + 1) = indices n ++ [n] := by
  have hn : (n + 1).toNat = n.toNat + 1 := by
    have hlt := UInt32.lt_iff_toNat_lt.mp h
    simp only [diskBookCapacity, UInt32.reduceToNat] at hlt
    simp only [UInt32.toNat_add, UInt32.reduceToNat]
    omega
  rw [indices, hn, range_succ, map_append]
  simp [indices]

theorem replayFrom_congr {s s' : Book} {is : List UInt32} (hcap : s.sb.capacity = s'.sb.capacity)
    (h : ∀ i ∈ is, s.disk.records (recordSector s.sb i) = s'.disk.records (recordSector s'.sb i)) :
    replayFrom kcrcEntry s is = replayFrom kcrcEntry s' is := by
  induction is with
  | nil => rfl
  | cons i is ih =>
    have hread : readEntry s i = readEntry s' i := by
      rw [readEntry, readEntry, hcap, h i mem_cons_self]
    simp only [replayFrom, hread, ih fun j hj => h j (mem_cons_of_mem _ hj)]

theorem replayFrom_append {s : Book} {is js : List UInt32} (h : ∀ i ∈ is, i < s.sb.capacity) :
    replayFrom kcrcEntry s (is ++ js) = replayFrom kcrcEntry s is ++ replayFrom kcrcEntry s js := by
  induction is with
  | nil => rfl
  | cons i is ih =>
    have hi := h i mem_cons_self
    have hread : readEntry s i = some (s.disk.records (recordSector s.sb i)) := by
      rw [readEntry, if_neg (by simpa using hi)]
    rw [cons_append]
    simp only [replayFrom, hread, ih fun j hj => h j (mem_cons_of_mem _ hj)]
    split
    · rfl
    · split
      · rfl
      · split <;> rfl

theorem Good.records (h : Good kcrcSb kcrcEntry recordsSector d sb l) (e : DiskBookEntry) {d' : BookDisk}
    (hd : d'.records = Function.update d.records (recordSector sb sb.count) e) :
    Good kcrcSb kcrcEntry recordsSector d' sb l := by
  refine ⟨h.valid, h.accepted, ?_⟩
  rw [← h.replay]
  refine replayFrom_congr rfl fun i hi => ?_
  have hne : recordSector sb i ≠ recordSector sb sb.count := fun heq => by
    have hlt := mem_indices.mp hi
    rw [recordSector_inj sb heq] at hlt
    exact UInt32.lt_irrefl _ hlt
  simp only [hd, Function.update_of_ne hne]

theorem Good.frame (h : Good kcrcSb kcrcEntry recordsSector d sb l) (hd : d'.records = d.records) :
    Good kcrcSb kcrcEntry recordsSector d' sb l :=
  ⟨h.valid, h.accepted, h.replay ▸ replayFrom_congr rfl fun i _ => by rw [hd]⟩

theorem readSuperblockInto_some (h : readSuperblockInto kcrcSb r d = some sb) :
    sbValid kcrcSb sb = true ∧ (sb = d.primary ∨ sb = d.backup) := by
  unfold readSuperblockInto at h
  split at h
  · rename_i hp
    obtain rfl := some.inj h
    exact ⟨(Bool.and_eq_true _ _ ▸ hp).2, .inl rfl⟩
  split at h
  · rename_i hb
    obtain rfl := some.inj h
    exact ⟨(Bool.and_eq_true _ _ ▸ hb).2, .inr rfl⟩
  · cases h

/-! ## Calls -/

/-- The machine stopped during a call: each copy counts what was there before or what is there after it. -/
def Stopped (kcrcSb : DiskBookSuperblock → UInt32) (kcrcEntry : DiskBookEntry → UInt32) (recordsSector : UInt64)
    (l l' : List Redirect) (d : BookDisk) : Prop :=
  (Good kcrcSb kcrcEntry recordsSector d d.primary l ∨ Good kcrcSb kcrcEntry recordsSector d d.primary l') ∧
    (Good kcrcSb kcrcEntry recordsSector d d.backup l ∨ Good kcrcSb kcrcEntry recordsSector d d.backup l')

theorem Stopped.restored (h : Stopped kcrcSb kcrcEntry recordsSector l l' d) (hr : r.primary = true ∨ r.backup = true) :
    restored kcrcSb kcrcEntry a r recordsSector d = l ∨ restored kcrcSb kcrcEntry a r recordsSector d = l' := by
  obtain ⟨hp | hp, hb | hb⟩ := h
  · exact .inl ((restored_copies hp hb hr).elim id id)
  · exact restored_copies hp hb hr
  · exact (restored_copies hp hb hr).symm
  · exact .inr ((restored_copies hp hb hr).elim id id)

/-- `write_superblock_locked`, when the copies are `sb` and the new superblock counts `l'`. -/
theorem writeSuperblockLocked_spec (a : Answers) (s : Book) (hinit : s.initialized = true)
    (hb : Good kcrcSb kcrcEntry recordsSector s.disk s.disk.backup l)
    (hnew : Good kcrcSb kcrcEntry recordsSector s.disk (sealed kcrcSb s.sb) l') :
    (a.primary = true → a.backup = true →
      BookInv kcrcSb kcrcEntry recordsSector (writeSuperblockLocked kcrcSb a s).book l') ∧
    (¬ (a.primary = true ∧ a.backup = true) → Good kcrcSb kcrcEntry recordsSector
      (writeSuperblockLocked kcrcSb a s).book.disk (writeSuperblockLocked kcrcSb a s).book.disk.backup l) ∧
    ∀ d ∈ (writeSuperblockLocked kcrcSb a s).trace, Stopped kcrcSb kcrcEntry recordsSector l l' d := by
  unfold writeSuperblockLocked
  cases hap : a.primary with
  | false => exact ⟨nofun, fun _ => hb, fun d hd => (nomatch hd)⟩
  | true =>
    cases hab : a.backup with
    | false =>
      refine ⟨fun _ h => (nomatch h), fun _ => hb.frame rfl, fun d hd => ?_⟩
      obtain rfl : d = { s.disk with primary := sealed kcrcSb s.sb } := by simpa using hd
      exact ⟨.inr (hnew.frame rfl), .inl (hb.frame rfl)⟩
    | true =>
      refine ⟨fun _ _ => ⟨hinit, rfl, rfl, hnew.frame rfl⟩, fun hno => absurd ⟨rfl, rfl⟩ hno, fun d hd => ?_⟩
      have hd : d = { s.disk with primary := sealed kcrcSb s.sb } ∨
          d = { s.disk with primary := sealed kcrcSb s.sb, backup := sealed kcrcSb s.sb } := by simpa using hd
      rcases hd with rfl | rfl
      · exact ⟨.inr (hnew.frame rfl), .inl (hb.frame rfl)⟩
      · exact ⟨.inr (hnew.frame rfl), .inr (hnew.frame rfl)⟩

theorem Good.magic (h : Good kcrcSb kcrcEntry recordsSector d sb l) : sb.magic = diskBookSbMagic := by
  have hv := h.valid
  simp only [sbValid, Bool.decide_and, Bool.and_eq_true, decide_eq_true_eq] at hv
  exact hv.1

theorem redirectEntry_fields (kcrcEntry : DiskBookEntry → UInt32) (sequence snapshotId oldBlock newBlock : UInt32)
    (tagBits : UInt64) : ∃ e, redirectEntry kcrcEntry sequence snapshotId oldBlock newBlock tagBits = e ∧
      e.magic = diskBookMagic ∧ entryCrc kcrcEntry e = e.recordCrc32 ∧ e.type = diskBookTypeRedirect ∧
      (⟨e.snapshotId, e.oldBlock, e.newBlock⟩ : Redirect) = ⟨snapshotId, oldBlock, newBlock⟩ :=
  ⟨_, rfl, rfl, rfl, rfl, rfl⟩

theorem Good.grown (h : Good kcrcSb kcrcEntry recordsSector d sb l) (hcount : sb.count < sb.capacity)
    {generation snapshotId oldBlock newBlock : UInt32} {tagBits : UInt64} (hrec : d.records (recordSector sb sb.count) =
    redirectEntry kcrcEntry generation snapshotId oldBlock newBlock tagBits)
    (hsb : sb' = { sb with generation := generation, count := sb.count + 1 }) :
    Good kcrcSb kcrcEntry recordsSector d (sealed kcrcSb sb') (l ++ [⟨snapshotId, oldBlock, newBlock⟩]) := by
  obtain ⟨hver, hcap, hle, hstart⟩ := accepted_iff.mp h.accepted
  have hlt : sb.count < diskBookCapacity := hcap ▸ hcount
  subst hsb
  refine ⟨sbValid_sealed h.magic, accepted_iff.mpr ⟨hver, hcap, ?_, hstart⟩, ?_⟩
  · rw [UInt32.lt_iff_toNat_lt] at hlt
    simp only [sealed, UInt32.le_iff_toNat_le, UInt32.toNat_add, diskBookCapacity, UInt32.reduceToNat] at hlt ⊢
    omega
  · have hold :
        replayFrom kcrcEntry ⟨sealed kcrcSb { sb with generation := generation, count := sb.count + 1 }, true, d⟩
        (indices sb.count) = l := by
      rw [← h.replay]
      exact replayFrom_congr rfl fun _ _ => rfl
    have hone :
        replayFrom kcrcEntry ⟨sealed kcrcSb { sb with generation := generation, count := sb.count + 1 }, true, d⟩
        [sb.count] = [⟨snapshotId, oldBlock, newBlock⟩] := by
      have hread :
          readEntry ⟨sealed kcrcSb { sb with generation := generation, count := sb.count + 1 }, true, d⟩ sb.count =
          some (redirectEntry kcrcEntry generation snapshotId oldBlock newBlock tagBits) := by
        rw [readEntry, if_neg (by simpa [sealed] using hcount), ← hrec]
        rfl
      obtain ⟨e, he, hm, hc, ht, hv⟩ := redirectEntry_fields kcrcEntry generation snapshotId oldBlock newBlock tagBits
      simp only [replayFrom, hread, he]
      rw [if_neg (not_not.mpr hm), if_neg (not_not.mpr hc), if_pos ht, hv]
    have hidx : indices (sealed kcrcSb { sb with generation := generation, count := sb.count + 1 }).count =
        indices sb.count ++ [sb.count] := indices_succ hlt
    rw [hidx, replayFrom_append, hold, hone]
    intro i hi
    exact UInt32.lt_trans (mem_indices.mp hi) hcount

section

variable (h : BookInv kcrcSb kcrcEntry recordsSector s kept)

include h

/-- A write of a record that is not counted yet, whether it works or not. -/
theorem writeEntry_spec (a : Answers) (generation : UInt32)
    (e : DiskBookEntry) :
    let s₁ : Book := { s with sb := { s.sb with generation := generation } }
    let w := writeEntry a s₁ s.sb.count e
    w.book.sb = s₁.sb ∧ w.book.initialized = true ∧ w.book.disk.primary = s.sb ∧ w.book.disk.backup = s.sb ∧
      Good kcrcSb kcrcEntry recordsSector w.book.disk s.sb kept ∧
      (w.error = .ok → w.book.disk.records (recordSector s.sb s.sb.count) = e ∧ s.sb.count < s.sb.capacity) ∧
      ∀ d ∈ w.trace, d.primary = s.sb ∧ d.backup = s.sb ∧ Good kcrcSb kcrcEntry recordsSector d s.sb kept := by
  intro s₁ w
  by_cases hcap : s.sb.count ≥ s.sb.capacity
  · have hw : w = ⟨.invalidArgument, s₁, []⟩ := if_pos hcap
    rw [hw]
    exact ⟨rfl, h.initialized, h.primary, h.backup, h.good, nofun, fun d hd => (nomatch hd)⟩
  have hlt : s.sb.count < s.sb.capacity := by simpa using hcap
  have hput : ∀ e', Good kcrcSb kcrcEntry recordsSector (s.disk.put (recordSector s.sb s.sb.count) e') s.sb kept :=
    fun e' => h.good.records e' rfl
  have hw : w = if s₁.sb.count ≥ s₁.sb.capacity then ⟨.invalidArgument, s₁, []⟩ else _ := rfl
  rw [if_neg hcap] at hw
  rw [hw]
  cases a.record with
  | refused =>
    exact ⟨rfl, h.initialized, h.primary, h.backup, h.good, nofun, fun d hd => (nomatch hd)⟩
  | torn =>
    refine ⟨rfl, h.initialized, h.primary, h.backup, hput _, nofun, fun d hd => ?_⟩
    obtain rfl := mem_singleton.mp hd
    exact ⟨h.primary, h.backup, hput _⟩
  | done =>
    refine ⟨rfl, h.initialized, h.primary, h.backup, hput _, fun _ => ⟨Function.update_self .., hlt⟩, fun d hd => ?_⟩
    rcases mem_cons.mp hd with rfl | hd
    · exact ⟨h.primary, h.backup, hput _⟩
    · obtain rfl := mem_singleton.mp hd
      exact ⟨h.primary, h.backup, hput _⟩

/-- A redirect is in the log when both copies of the superblock were written; a stop is before or after it. -/
theorem diskBookLogRedirect_inv (a : Answers)
    (snapshotId oldBlock newBlock : UInt32) (tagBits : UInt64) :
    let o := diskBookLogRedirect kcrcSb kcrcEntry a s snapshotId oldBlock newBlock tagBits
    (o.error ≠ .ok → BookInv kcrcSb kcrcEntry recordsSector o.book kept) ∧
    (o.error = .ok → a.primary = true → a.backup = true →
      BookInv kcrcSb kcrcEntry recordsSector o.book (kept ++ [⟨snapshotId, oldBlock, newBlock⟩])) ∧
    (¬ (a.primary = true ∧ a.backup = true) → Good kcrcSb kcrcEntry recordsSector o.book.disk o.book.disk.backup kept) ∧
    ∀ d ∈ o.trace, Stopped kcrcSb kcrcEntry recordsSector kept (kept ++ [⟨snapshotId, oldBlock, newBlock⟩]) d := by
  have hrefused : ∀ err : BookError, err ≠ .ok → let o : Outcome := ⟨err, s, []⟩
      (o.error ≠ .ok → BookInv kcrcSb kcrcEntry recordsSector o.book kept) ∧
      (o.error = .ok → a.primary = true → a.backup = true →
        BookInv kcrcSb kcrcEntry recordsSector o.book (kept ++ [⟨snapshotId, oldBlock, newBlock⟩])) ∧
      (¬ (a.primary = true ∧ a.backup = true) →
      Good kcrcSb kcrcEntry recordsSector o.book.disk o.book.disk.backup kept) ∧
      ∀ d ∈ o.trace, Stopped kcrcSb kcrcEntry recordsSector kept (kept ++ [⟨snapshotId, oldBlock, newBlock⟩]) d :=
    fun err herr => ⟨fun _ => h, fun hok => absurd hok herr, fun _ => h.backup ▸ h.good, fun d hd => (nomatch hd)⟩
  unfold diskBookLogRedirect
  split
  · exact hrefused _ (by decide)
  split
  · exact hrefused _ (by decide)
  split
  · exact hrefused _ (by decide)
  obtain ⟨hsb, hinit, hp, hb, hgood, hok, htrace⟩ := writeEntry_spec h a (s.sb.generation + 1)
    (redirectEntry kcrcEntry (s.sb.generation + 1) snapshotId oldBlock newBlock tagBits)
  have hstop : ∀ d ∈ (writeEntry a { s with sb := { s.sb with generation := s.sb.generation + 1 } } s.sb.count
      (redirectEntry kcrcEntry (s.sb.generation + 1) snapshotId oldBlock newBlock tagBits)).trace,
      Stopped kcrcSb kcrcEntry recordsSector kept (kept ++ [⟨snapshotId, oldBlock, newBlock⟩]) d := by
    intro d hd
    obtain ⟨h₁, h₂, h₃⟩ := htrace d hd
    exact ⟨.inl (h₁ ▸ h₃), .inl (h₂ ▸ h₃)⟩
  simp only []
  generalize writeEntry a { s with sb := { s.sb with generation := s.sb.generation + 1 } } s.sb.count
    (redirectEntry kcrcEntry (s.sb.generation + 1) snapshotId oldBlock newBlock tagBits) = w
    at hsb hinit hp hb hgood hok hstop ⊢
  split
  · -- the number is taken back, so the superblock in memory is the one on the disk again
    have hback : { w.book.sb with generation := w.book.sb.generation - 1 } = s.sb := by
      rw [hsb]
      simp
    exact ⟨fun _ => ⟨hinit, hp.trans hback.symm, hb.trans hback.symm, hback.symm ▸ hgood⟩, nofun,
      fun _ => hb ▸ hgood, hstop⟩
  rename_i hne
  obtain ⟨hrec, hlt⟩ := hok (not_not.mp hne)
  have hnew :
      Good kcrcSb kcrcEntry recordsSector w.book.disk (sealed kcrcSb { w.book.sb with count := w.book.sb.count + 1 })
      (kept ++ [⟨snapshotId, oldBlock, newBlock⟩]) := hgood.grown hlt hrec (by rw [hsb])
  obtain ⟨hdone, hold, hcut⟩ :=
    writeSuperblockLocked_spec a { w.book with sb := { w.book.sb with count := w.book.sb.count + 1 } }
      hinit (hb ▸ hgood) hnew
  refine ⟨fun hno => absurd rfl hno, fun _ => hdone, hold, fun d hd => ?_⟩
  exact (mem_append.mp hd).elim (hstop d) (hcut d)

theorem diskBookResetRedirects_inv (a : Answers) :
    let o := diskBookResetRedirects kcrcSb a s
    (a.primary = true → a.backup = true → BookInv kcrcSb kcrcEntry recordsSector o.book []) ∧
      (¬ (a.primary = true ∧ a.backup = true) →
        Good kcrcSb kcrcEntry recordsSector o.book.disk o.book.disk.backup kept) ∧
      ∀ d ∈ o.trace, Stopped kcrcSb kcrcEntry recordsSector kept [] d := by
  unfold diskBookResetRedirects
  rw [if_neg (by simp [h.initialized])]
  obtain ⟨hver, hcap, -, hstart⟩ := accepted_iff.mp h.good.accepted
  refine writeSuperblockLocked_spec a _ h.initialized (h.backup ▸ h.good) ⟨sbValid_sealed h.good.magic, ?_, rfl⟩
  exact accepted_iff.mpr ⟨hver, hcap, UInt32.zero_le, hstart⟩

end

/-- `DiskBookInit`: the log of the disk goes on when the copies agree. -/
theorem diskBookInit_inv (a : Answers) (r : Readable) (recordsSector : UInt64) (d : BookDisk) :
    let o := diskBookInit kcrcSb a r recordsSector d
    o.error = .ok → o.book.disk.primary = o.book.disk.backup →
      BookInv kcrcSb kcrcEntry recordsSector o.book (diskBookValidateAndReplay kcrcEntry o.book) := by
  intro o hok hcopies
  have hgood : ∀ sb d, sbValid kcrcSb sb = true → accepted recordsSector sb = true →
      Good kcrcSb kcrcEntry recordsSector d sb (diskBookValidateAndReplay kcrcEntry ⟨sb, true, d⟩) :=
      fun sb d hv hacc =>
    ⟨hv, hacc, (replay_eq hacc d).symm⟩
  cases hread : (readSuperblockInto kcrcSb r d).filter (accepted recordsSector) with
  | some sb =>
    have ho : o = ⟨.ok, ⟨sb, true, d⟩, []⟩ := by
      simp only [o, diskBookInit, hread]
    rw [ho] at hcopies ⊢
    obtain ⟨hsome, hacc⟩ := filter_eq_some_iff.mp hread
    obtain ⟨hvalid, hmem⟩ := readSuperblockInto_some hsome
    rcases hmem with rfl | rfl
    · exact ⟨rfl, rfl, hcopies.symm, hgood _ _ hvalid hacc⟩
    · exact ⟨rfl, hcopies, rfl, hgood _ _ hvalid hacc⟩
  | none =>
    have hacc : accepted recordsSector (sealed kcrcSb (formatFreshLocked recordsSector)) = true :=
      accepted_iff.mpr ⟨rfl, rfl, UInt32.zero_le, rfl⟩
    cases hap : a.primary with
    | false =>
      have ho : o.error = .writeFailed := by simp [o, diskBookInit, hread, writeSuperblockLocked, hap]
      cases hok.symm.trans ho
    | true =>
      have ho : o.book = ⟨sealed kcrcSb (formatFreshLocked recordsSector), true, o.book.disk⟩ ∧
          o.book.disk.primary = sealed kcrcSb (formatFreshLocked recordsSector) := by
        cases hab : a.backup <;> simp [o, diskBookInit, hread, writeSuperblockLocked, hap, hab]
      generalize o.book = s at hcopies ho ⊢
      obtain ⟨hs, hp⟩ := ho
      rw [hs]
      exact ⟨rfl, hp, hcopies.symm.trans hp, hgood _ _ (sbValid_sealed rfl) hacc⟩

/-! ## Runs -/

/-- `DiskBookInit` and calls after it, with the redirects that were logged since the last reset. The copies of the
superblock agree after `DiskBookInit`, and both are written by every call that gets to write them. -/
inductive BookRun (kcrcSb : DiskBookSuperblock → UInt32) (kcrcEntry : DiskBookEntry → UInt32) (recordsSector : UInt64) :
    Book → List Redirect → Prop
  | init {o : Outcome} (a : Answers) (r : Readable) (d : BookDisk) :
      o = diskBookInit kcrcSb a r recordsSector d → o.error = .ok → o.book.disk.primary = o.book.disk.backup →
      BookRun kcrcSb kcrcEntry recordsSector o.book (diskBookValidateAndReplay kcrcEntry o.book)
  | log {s : Book} {kept : List Redirect} {o : Outcome} (a : Answers) (snapshotId oldBlock newBlock : UInt32)
      (tagBits : UInt64) : BookRun kcrcSb kcrcEntry recordsSector s kept →
      o = diskBookLogRedirect kcrcSb kcrcEntry a s snapshotId oldBlock newBlock tagBits → o.error = .ok →
      a.primary = true → a.backup = true →
      BookRun kcrcSb kcrcEntry recordsSector o.book (kept ++ [⟨snapshotId, oldBlock, newBlock⟩])
  | refused {s : Book} {kept : List Redirect} {o : Outcome} (a : Answers) (snapshotId oldBlock newBlock : UInt32)
      (tagBits : UInt64) : BookRun kcrcSb kcrcEntry recordsSector s kept →
      o = diskBookLogRedirect kcrcSb kcrcEntry a s snapshotId oldBlock newBlock tagBits → o.error ≠ .ok →
      BookRun kcrcSb kcrcEntry recordsSector o.book kept
  | reset {s : Book} {kept : List Redirect} (a : Answers) :
      BookRun kcrcSb kcrcEntry recordsSector s kept → a.primary = true → a.backup = true →
      BookRun kcrcSb kcrcEntry recordsSector (diskBookResetRedirects kcrcSb a s).book []

theorem BookRun.inv (hrun : BookRun kcrcSb kcrcEntry recordsSector s kept) :
    BookInv kcrcSb kcrcEntry recordsSector s kept := by
  induction hrun with
  | init a r d ho hok hcopies =>
    subst ho
    exact diskBookInit_inv a r recordsSector d hok hcopies
  | log a snapshotId oldBlock newBlock tagBits hrun ho hok hp hb ih =>
    subst ho
    exact (diskBookLogRedirect_inv ih a snapshotId oldBlock newBlock tagBits).2.1 hok hp hb
  | refused a snapshotId oldBlock newBlock tagBits hrun ho hok ih =>
    subst ho
    exact (diskBookLogRedirect_inv ih a snapshotId oldBlock newBlock tagBits).1 hok
  | reset a hrun hp hb ih => exact (diskBookResetRedirects_inv ih a).1 hp hb

theorem restored_backup (h : Good kcrcSb kcrcEntry recordsSector d d.backup l) :
    restored kcrcSb kcrcEntry a ⟨false, true⟩ recordsSector d = l := by
  rw [restored_eq h.accepted, h.replay]
  simp [readSuperblockInto, h.valid]

theorem BookInv.restored (h : BookInv kcrcSb kcrcEntry recordsSector s kept) (hr : r.primary = true ∨ r.backup = true) :
    restored kcrcSb kcrcEntry a r recordsSector s.disk = kept :=
  (restored_copies (h.primary ▸ h.good) (h.backup ▸ h.good) hr).elim id id

/-- The machine stops between two calls or after any sector write of a call: a mount that can read one of the copies
restores, in order, every redirect since the last reset, and at most the one that was being logged; or nothing, if the
log was being reset. A call that does not write both copies ends this. -/
theorem redirects_durable (kcrcSb : DiskBookSuperblock → UInt32) (kcrcEntry : DiskBookEntry → UInt32)
    (recordsSector : UInt64) {s : Book} {kept : List Redirect} (hrun : BookRun kcrcSb kcrcEntry recordsSector s kept)
    (am : Answers) :
    (∀ r : Readable, r.primary = true ∨ r.backup = true →
      restored kcrcSb kcrcEntry am r recordsSector s.disk = kept ∧
      (∀ a snapshotId oldBlock newBlock tagBits,
        ∀ d ∈ (diskBookLogRedirect kcrcSb kcrcEntry a s snapshotId oldBlock newBlock tagBits).trace,
          restored kcrcSb kcrcEntry am r recordsSector d = kept ∨
            restored kcrcSb kcrcEntry am r recordsSector d = kept ++ [⟨snapshotId, oldBlock, newBlock⟩]) ∧
      ∀ a, ∀ d ∈ (diskBookResetRedirects kcrcSb a s).trace,
        restored kcrcSb kcrcEntry am r recordsSector d = kept ∨ restored kcrcSb kcrcEntry am r recordsSector d = []) ∧
    (∀ a snapshotId oldBlock newBlock tagBits,
      let o := diskBookLogRedirect kcrcSb kcrcEntry a s snapshotId oldBlock newBlock tagBits
      o.error = .ok → ((∀ r : Readable, r.primary = true ∨ r.backup = true →
        restored kcrcSb kcrcEntry am r recordsSector o.book.disk = kept ++ [⟨snapshotId, oldBlock, newBlock⟩]) ↔
          a.primary = true ∧ a.backup = true)) ∧
    (∀ a, kept ≠ [] → ((∀ r : Readable, r.primary = true ∨ r.backup = true →
      restored kcrcSb kcrcEntry am r recordsSector (diskBookResetRedirects kcrcSb a s).book.disk = []) ↔
        a.primary = true ∧ a.backup = true)) := by
  have hinv := hrun.inv
  refine ⟨fun r hr => ⟨hinv.restored hr, fun a snapshotId oldBlock newBlock tagBits d hd => ?_, fun a d hd => ?_⟩,
    fun a snapshotId oldBlock newBlock tagBits hok => ⟨fun hall => ?_, fun hboth r hr => ?_⟩,
    fun a hne => ⟨fun hall => ?_, fun hboth r hr => ?_⟩⟩
  · exact ((diskBookLogRedirect_inv hinv a snapshotId oldBlock newBlock tagBits).2.2.2 d hd).restored hr
  · exact ((diskBookResetRedirects_inv hinv a).2.2 d hd).restored hr
  · by_contra hno
    have hold := (diskBookLogRedirect_inv hinv a snapshotId oldBlock newBlock tagBits).2.2.1 hno
    have heq := (restored_backup hold).symm.trans (hall ⟨false, true⟩ (.inr rfl))
    simp at heq
  · exact ((diskBookLogRedirect_inv hinv a snapshotId oldBlock newBlock tagBits).2.1 hok hboth.1 hboth.2).restored hr
  · by_contra hno
    have hold := (diskBookResetRedirects_inv hinv a).2.1 hno
    exact hne ((restored_backup hold).symm.trans (hall ⟨false, true⟩ (.inr rfl)))
  · exact ((diskBookResetRedirects_inv hinv a).1 hboth.1 hboth.2).restored hr

end

/-! ## A redirect that is lost -/

/-- A disk that holds no log. -/
def blankDisk : BookDisk where
  primary := ⟨0, 0, 0, 0, 0, 0, 0, 0, [], []⟩
  backup := ⟨0, 0, 0, 0, 0, 0, 0, 0, [], []⟩
  records _ := ⟨0, 0, 0, 0, 0, 0, 0, 0, 0, [], []⟩

/-- `DiskBookLogRedirect` answers `OK`, and a mount does not find the redirect: the write of the superblock failed. -/
theorem redirect_lost :
    let kcrcSb : DiskBookSuperblock → UInt32 := fun sb => sb.count
    let kcrcEntry : DiskBookEntry → UInt32 := fun e => e.newBlock
    let s := (diskBookInit kcrcSb ⟨.done, true, true⟩ ⟨true, true⟩ 16 blankDisk).book
    let o := diskBookLogRedirect kcrcSb kcrcEntry ⟨.done, false, true⟩ s 1 10 20 0
    o.error = .ok ∧ restored kcrcSb kcrcEntry ⟨.done, true, true⟩ ⟨true, true⟩ 16 o.book.disk = [] := by
  decide

/-- Two redirects are logged and found. -/
theorem redirects_durable_two :
    let kcrcSb : DiskBookSuperblock → UInt32 := fun sb => sb.count
    let kcrcEntry : DiskBookEntry → UInt32 := fun e => e.newBlock
    let a : Answers := ⟨.done, true, true⟩
    let s := (diskBookInit kcrcSb a ⟨true, true⟩ 16 blankDisk).book
    let s₁ := (diskBookLogRedirect kcrcSb kcrcEntry a s 1 10 20 0).book
    let s₂ := (diskBookLogRedirect kcrcSb kcrcEntry a s₁ 1 11 21 0).book
    restored kcrcSb kcrcEntry a ⟨false, true⟩ 16 s₂.disk = [⟨1, 10, 20⟩, ⟨1, 11, 21⟩] := by
  intro kcrcSb kcrcEntry a s s₁ s₂
  have hrun : BookRun kcrcSb kcrcEntry 16 s₂ [⟨1, 10, 20⟩, ⟨1, 11, 21⟩] :=
    .log a 1 11 21 0 (.log a 1 10 20 0 (.init a ⟨true, true⟩ blankDisk rfl rfl rfl) rfl rfl rfl rfl) rfl rfl rfl rfl
  exact ((redirects_durable kcrcSb kcrcEntry 16 hrun a).1 ⟨false, true⟩ (.inr rfl)).1

end BoxOS.TagFS.DiskBook
