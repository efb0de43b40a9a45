import BoxOS.Lib.Paged
import BoxOS.TagFS.MetaPool

/-! # The bytes of a file

A file's data lies in the blocks of its extents. `tagfs_read` goes along them a block at a time; what it reads is
`fileBytes`. -/

namespace BoxOS.TagFS

open Lib List

/-- The loop of `tagfs_read_inside` over the extents of a handle. -/
def readLoop (disk : Nat → Nat → UInt8) (extents : List Extent) (offset size : Nat) :
    Nat → Nat → List UInt8 → Option (List UInt8)
  | 0, _, _ => none
  | fuel + 1, bytesRead, out =>
    if size ≤ bytesRead then some out
    else
      let filePos := offset + bytesRead
      match locate tagfsBlockSize extents filePos 0 0 with
      | (none, _) => none
      | (some found, extentStart) =>
        let offsetInExtent := filePos - extentStart
        let offsetInBlock := offsetInExtent % tagfsBlockSize
        let diskBlock := (extents.getD found ⟨0, 0⟩).start + offsetInExtent / tagfsBlockSize
        let chunk := min (tagfsBlockSize - offsetInBlock) (size - bytesRead)
        readLoop disk extents offset size fuel (bytesRead + chunk)
          (out ++ (List.range chunk).map fun i => disk diskBlock (offsetInBlock + i))

/-- `tagfs_read_inside`: `none` is an error. -/
def tagfsRead (disk : Nat → Nat → UInt8) (extents : List Extent) (fileSize offset size : Nat) : Option (List UInt8) :=
  if size = 0 then none
  else if fileSize ≤ offset then some []
  else readLoop disk extents offset (min size (fileSize - offset)) (min size (fileSize - offset) + 1) 0 []

/-- The whole file, read through a freshly opened handle. -/
def readFile (disk : Nat → Nat → UInt8) (extents : List Extent) (fileSize : Nat) : Option (List UInt8) :=
  tagfsRead disk extents fileSize 0 (max fileSize 1)

/-- The bytes of a file, as far as it has blocks. -/
def fileBytes (disk : Nat → Nat → UInt8) (extents : List Extent) (size : Nat) : List UInt8 :=
  (List.range size).map fun pos => (byteOf tagfsBlockSize disk (blocksOf extents) pos).getD 0

/-- The byte array after a write: bytes that were never written are zero. -/
def writeBytes (old : List UInt8) (off : Nat) (src : List UInt8) : List UInt8 :=
  (List.range (max old.length (off + src.length))).map fun pos =>
    if off ≤ pos ∧ pos < off + src.length then src.getD (pos - off) 0 else old.getD pos 0

/-- The extents have a block for every byte of the file. -/
def Covered (extents : List Extent) (size : Nat) : Prop :=
  size ≤ (blocksOf extents).length * tagfsBlockSize

instance (extents : List Extent) (size : Nat) : Decidable (Covered extents size) :=
  inferInstanceAs (Decidable (_ ≤ _))

theorem getElem?_fileBytes {disk : Nat → Nat → UInt8} {extents : List Extent} {size pos : Nat} (h : pos < size) :
    (fileBytes disk extents size)[pos]? = some ((byteOf tagfsBlockSize disk (blocksOf extents) pos).getD 0) := by
  simp [fileBytes, h]

theorem getElem?_writeBytes {old src : List UInt8} {off pos : Nat} (h : pos < max old.length (off + src.length)) :
    (writeBytes old off src)[pos]? =
      some (if off ≤ pos ∧ pos < off + src.length then src.getD (pos - off) 0 else old.getD pos 0) := by
  unfold writeBytes
  rw [getElem?_map, getElem?_range h, Option.map_some]

theorem tagfsBlockSize_pos : 0 < tagfsBlockSize := by
  decide

section reading

variable {disk : Nat → Nat → UInt8} {extents : List Extent} {size : Nat}

theorem Covered.lt (h : Covered extents size) {pos : Nat} (hpos : pos < size) :
    pos / tagfsBlockSize < (blocksOf extents).length := by
  refine (Nat.div_lt_iff_lt_mul tagfsBlockSize_pos).mpr ?_
  unfold Covered at h
  omega

theorem locate_block {pos : Nat} (h : pos / tagfsBlockSize < (blocksOf extents).length) :
    ∃ found start, locate tagfsBlockSize extents pos 0 0 = (some found, start) ∧
      (pos - start) % tagfsBlockSize = pos % tagfsBlockSize ∧
      (blocksOf extents)[pos / tagfsBlockSize]? =
        some ((extents.getD found ⟨0, 0⟩).start + (pos - start) / tagfsBlockSize) := by
  obtain ⟨pre, e, post, rfl, hres, hmod, hlt, hdiv⟩ := locate_some tagfsBlockSize_pos h
  refine ⟨_, _, hres, hmod, ?_⟩
  rw [← hdiv, getElem?_blocksOf hlt]
  simp

theorem chunk_bytes {pos b n : Nat} (hb : (blocksOf extents)[pos / tagfsBlockSize]? = some b)
    (hn : pos % tagfsBlockSize + n ≤ tagfsBlockSize) : (List.range n).map (fun i => disk b (pos % tagfsBlockSize + i)) =
    (List.range n).map fun i => (byteOf tagfsBlockSize disk (blocksOf extents) (pos + i)).getD 0 := by
  refine map_congr_left fun i hi => ?_
  have hi' := mem_range.mp hi
  have hdiv : (pos + i) / tagfsBlockSize = pos / tagfsBlockSize := by
    unfold tagfsBlockSize at *
    omega
  have hmod : (pos + i) % tagfsBlockSize = pos % tagfsBlockSize + i := by
    unfold tagfsBlockSize at *
    omega
  rw [byteOf_eq (hdiv ▸ hb), hmod, Option.getD_some]

theorem readLoop_eq {offset : Nat} (hcov : ∀ i < size, (offset + i) / tagfsBlockSize < (blocksOf extents).length)
    (fuel bytesRead : Nat) (hfuel : size < bytesRead + fuel) (hread : bytesRead ≤ size) :
    readLoop disk extents offset size fuel bytesRead ((List.range bytesRead).map fun i =>
    (byteOf tagfsBlockSize disk (blocksOf extents) (offset + i)).getD 0) =
    some ((List.range size).map fun i => (byteOf tagfsBlockSize disk (blocksOf extents) (offset + i)).getD 0) := by
  induction fuel generalizing bytesRead with
  | zero => omega
  | succ fuel ih =>
    rw [readLoop]
    by_cases hdone : size ≤ bytesRead
    · rw [if_pos hdone, show bytesRead = size by omega]
    rw [if_neg hdone]
    obtain ⟨found, start, hloc, hmod, hblock⟩ := locate_block (hcov bytesRead (by omega))
    have hlt := Nat.mod_lt (offset + bytesRead) tagfsBlockSize_pos
    simp only [hloc, hmod]
    rw [chunk_bytes hblock (by omega),
      show (List.range bytesRead).map _ ++ _ = (List.range (bytesRead + _)).map _ from ?_]
    · exact ih _ (by omega) (by omega)
    · rw [range_add, map_append, map_map]
      congr 1
      refine map_congr_left fun i _ => ?_
      simp only [Function.comp_apply, Nat.add_assoc]

theorem readFile_eq (h : Covered extents size) : readFile disk extents size = some (fileBytes disk extents size) := by
  unfold readFile tagfsRead
  rw [if_neg (by omega)]
  by_cases hz : size = 0
  · subst hz
    rfl
  rw [if_neg (by omega), Nat.sub_zero, show min (max size 1) size = size by omega]
  have hloop := @readLoop_eq disk extents size 0 (fun i hi => by simpa using h.lt hi) (size + 1) 0 (by omega)
    (Nat.zero_le _)
  simpa [fileBytes] using hloop

end reading

end BoxOS.TagFS
