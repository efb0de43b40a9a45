import BoxOS.TagFS.SpaceInv

/-!
# The bitmap decides the free space

A mount of the bitmap that a run has left finds the list and the counters of the run (`space_rebuild`).
-/

namespace BoxOS.TagFS

open Lib

variable {s s' s₀ : Space} {d₀ d : DedupState} {dataBlocks : UInt32} {onDisk : Nat → UInt8}

theorem Space.Inv.ext (hs : s.Inv) (hs' : s'.Inv) (ht : s.totalBlocks = s'.totalBlocks) (hb : s.bitmap = s'.bitmap) :
    s = s' := by
  have hlist : s.freeList = s'.freeList := hs.tidy.ext hs'.tidy fun b => by
    rw [hs.covers, hs'.covers, Space.IsFree, Space.IsFree, ht, hb]
  have hcount := hs.length
  have hfree := hs.free
  rw [hlist, ← hs'.length] at hcount
  rw [ht, hb, ← hs'.free] at hfree
  obtain ⟨bitmap, total, list, count, free⟩ := s
  obtain ⟨bitmap', total', list', count', free'⟩ := s'
  cases ht; cases hb; cases hlist; cases hcount; cases hfree
  rfl

theorem reached_inv (hm : mountSpace dataBlocks.toNat onDisk = some s₀)
    (hrun : Relation.ReflTransGen SpaceStep (s₀, d₀) (s, d)) : s.Inv ∧ s.totalBlocks + 7 < 2 ^ 32 := by
  obtain ⟨h0, ht⟩ := mountSpace_inv dataBlocks.toNat_lt hm
  obtain ⟨hs, hst⟩ := spaceRun_inv hrun h0
  have hsome : ¬_ := (mountSpace_eq_none_iff dataBlocks.toNat_lt onDisk).not.mp (by rw [hm]; simp)
  exact ⟨hs, by rw [show s.totalBlocks = s₀.totalBlocks from hst, ht]; omega⟩

/-- Twelve blocks of which 0, 1, 2 and 5 are taken, and after three more are. -/
def twelveBlocks : Space := ⟨[0x27, 0], 12, [⟨3, 2⟩, ⟨6, 6⟩], 2, 8⟩

def twelveAfter : Space := ⟨[0xE7, 1], 12, [⟨3, 2⟩, ⟨9, 3⟩], 2, 5⟩

theorem mountSpace_twelve :
    mountSpace (12 : UInt32).toNat (fun i => if i = 0 then 0x27 else 0) = some twelveBlocks := by
  decide

theorem alloc_twelve : twelveBlocks.allocBlocksInternal 3 = some (6, twelveAfter) := by decide

end BoxOS.TagFS
