import BoxOS.TagFS.ChainFlush

/-!
# The file table

`file_table.c`: for every file id the block and offset of its metadata, zero when there is no such file. The table is
kept in a chain of blocks of 510 entries each; `fileTableFlush` writes it out and `fileTableInit` reads it back.

- `fileTableFlush_spec`: a flush lays out the table in pages of 510 entries;
- `init_pages`: a chain of pages is read back.
-/

namespace BoxOS.TagFS

open Lib List

structure FileTableEntry where
  metaBlock : UInt32
  metaOffset : UInt32
deriving DecidableEq, Repr

/-- A cleared entry. -/
def noEntry : FileTableEntry := ⟨0, 0⟩

/-- `g_entries`, with `g_capacity` for its length, and `g_dirty`. -/
structure FileTable where
  entries : List FileTableEntry
  dirty : Bool
deriving DecidableEq, Repr

/-- `TAGFS_FTABLE_PER_BLOCK`. -/
def tablePerBlock : Nat := 510

/-- `TAGFS_FILETBL_MAGIC`. -/
def fileTableMagic : Nat := 0x54465442

variable (t : FileTable)

def fileTableLookup (f : Nat) : Option FileTableEntry :=
  let e := t.entries.getD f noEntry
  if f ≥ t.entries.length ∨ e.metaBlock = 0 then none else some e

def tableGrowTo (want : Nat) : FileTable :=
  if want ≤ t.entries.length then t
  else { t with entries := t.entries ++ replicate (want - t.entries.length) noEntry }

/-- `file_table_update`, with memory to grow. -/
def fileTableUpdate (f : Nat) (e : FileTableEntry) : FileTable :=
  let t := if f ≥ t.entries.length then
      tableGrowTo t (if t.entries.length * 2 ≤ f then f + 1 else t.entries.length * 2)
    else t
  ⟨t.entries.set f e, true⟩

/-- `file_table_delete`; the flag is whether there was such an entry. -/
def fileTableDelete (f : Nat) : FileTable × Bool :=
  if f ≥ t.entries.length then (t, false) else (⟨t.entries.set f noEntry, true⟩, true)

/-! ## Flush and init -/

def FileTableEntry.bytes (e : FileTableEntry) : List UInt8 :=
  leBytes 4 e.metaBlock.toNat ++ leBytes 4 e.metaOffset.toNat

/-- The bytes of a `FileTableBlock` with the given entries; the rest of its slots are cleared. -/
def encodeTableBlock (page : List FileTableEntry) (nextBlock : Nat) : Block :=
  leBytes 4 fileTableMagic ++ (leBytes 4 nextBlock ++ (leBytes 4 page.length ++ (leBytes 4 0 ++
    ((page.flatMap (·.bytes)) ++ replicate (8 * (tablePerBlock - page.length)) 0))))

/-- The loop of `file_table_flush` over the entries that are left; each round takes some of them. -/
def fileTableFlushLoop : Nat → List FileTableEntry → ChainState → Nat → FlushResult
  | 0, _, cs, _ => ⟨cs, [], true⟩
  | fuel + 1, entries, cs, link =>
    if entries = [] then ⟨cs, [], true⟩
    else
      let here := entries.take tablePerBlock
      let rest := entries.drop tablePerBlock
      if rest = [] then
        if link ≥ cs.chain.length then ⟨cs, [], false⟩
        else ⟨cs, [(cs.chain.getD link 0, encodeTableBlock here 0)], true⟩
      else
        match cs.follow link with
        | none => ⟨cs, [], false⟩
        | some (nextBlock, cs) =>
          if link ≥ cs.chain.length then ⟨cs, [], false⟩
          else
            -- the block is written with its link before anything is written to the linked block
            let r := fileTableFlushLoop fuel rest cs (link + 1)
            { r with writes := (cs.chain.getD link 0, encodeTableBlock here nextBlock) :: r.writes }

def fileTableFlush (cs : ChainState) : FlushResult :=
  if t.dirty = false then ⟨cs, [], true⟩ else fileTableFlushLoop t.entries.length t.entries cs 0

/-- Entry `i` of a `FileTableBlock`. -/
def tableEntryAt (b : Block) (i : Nat) : FileTableEntry :=
  ⟨UInt32.ofNat (fieldAt 4 (16 + 8 * i) b), UInt32.ofNat (fieldAt 4 (20 + 8 * i) b)⟩

/-- What `file_table_init` takes from one block: the entries up to its count, in a stretch of 510 cleared ones. -/
def tableBlockEntries (b : Block) : List FileTableEntry :=
  let count := if fieldAt 4 8 b > tablePerBlock then tablePerBlock else fieldAt 4 8 b
  (List.range tablePerBlock).map fun i => if i < count then tableEntryAt b i else noEntry

/-- The loop of `file_table_init`: each block adds 510 entries at the end of the table. -/
def fileTableInitLoop (run : Nat) (d : Medium) :
    Nat → Nat → List FileTableEntry → List Nat → Option (List FileTableEntry × List Nat)
  | 0, _, _, _ => none
  | hops + 1, block, entries, chain =>
    if block ≥ run then none
    else if (chainFormat fileTableMagic).good (d block) = false then none
    else
      let entries := entries ++ tableBlockEntries (d block)
      if (chainFormat fileTableMagic).next (d block) = 0 then some (entries, chain ++ [block])
      else fileTableInitLoop run d hops ((chainFormat fileTableMagic).next (d block)) entries (chain ++ [block])

/-- `file_table_init` of a volume of `run` data blocks, all of them readable: the table and the chain. -/
def fileTableInit (run : Nat) (d : Medium) (firstBlock : Nat) : Option (FileTable × List Nat) :=
  if run = 0 then none
  else (fileTableInitLoop run d run firstBlock [] []).map fun r => (⟨r.1, false⟩, r.2)

/-! ## Blocks -/

theorem length_entry_bytes (e : FileTableEntry) : e.bytes.length = 8 := by simp [FileTableEntry.bytes]

theorem good_encodeTableBlock (page : List FileTableEntry) (n : Nat) :
    (chainFormat fileTableMagic).good (encodeTableBlock page n) = true := by
  have hmagic : fileTableMagic < 256 ^ 4 := by decide
  have hfield := fieldAt_append [] (leBytes 4 n ++ (leBytes 4 page.length ++ (leBytes 4 0 ++
    ((page.flatMap (·.bytes)) ++ replicate (8 * (tablePerBlock - page.length)) 0)))) hmagic length_nil
  rw [nil_append] at hfield
  exact beq_iff_eq.mpr hfield

/-- The blocks of the file table. -/
def tableCodec : PageCodec (List FileTableEntry) (chainFormat fileTableMagic) where
  enc := encodeTableBlock
  good_enc := good_encodeTableBlock
  next_enc page n hn := fieldAt_append (leBytes 4 fileTableMagic) _ (by simpa using hn) (by simp)

variable {page entries : List FileTableEntry}

theorem fieldAt_encodeTableBlock_count (hlen : page.length ≤ tablePerBlock) (n : Nat) :
    fieldAt 4 8 (encodeTableBlock page n) = page.length := by
  have hc : page.length < 256 ^ 4 := hlen.trans_lt (by decide)
  have hfield := fieldAt_append (leBytes 4 fileTableMagic ++ leBytes 4 n) (leBytes 4 0 ++
    ((page.flatMap (·.bytes)) ++ replicate (8 * (tablePerBlock - page.length)) 0)) hc (show _ = 8 by simp)
  simpa only [encodeTableBlock, append_assoc] using hfield

theorem drop_entries {i : Nat} {e : FileTableEntry} (h : page[i]? = some e) :
    ∃ rest, (page.flatMap (·.bytes)).drop (8 * i) = e.bytes ++ rest := by
  induction page generalizing i with
  | nil => cases h
  | cons a page ih =>
    cases i with
    | zero =>
      obtain rfl := Option.some.inj h
      exact ⟨page.flatMap (·.bytes), by simp⟩
    | succ i =>
      obtain ⟨rest, hrest⟩ := ih h
      refine ⟨rest, ?_⟩
      rw [flatMap_cons, show 8 * (i + 1) = a.bytes.length + 8 * i by rw [length_entry_bytes]; ring,
        ← drop_drop, drop_left, hrest]

theorem tableEntryAt_encode {i : Nat} {e : FileTableEntry} (h : page[i]? = some e)
    (n : Nat) : tableEntryAt (encodeTableBlock page n) i = e := by
  obtain ⟨rest, hrest⟩ := drop_entries h
  obtain ⟨hi, -⟩ := List.getElem?_eq_some_iff.mp h
  have hhead :
    (leBytes 4 fileTableMagic ++ (leBytes 4 n ++ (leBytes 4 page.length ++ leBytes 4 0))).length = 16 := by simp
  have hdrop : (encodeTableBlock page n).drop (16 + 8 * i) =
      leBytes 4 e.metaBlock.toNat ++ (leBytes 4 e.metaOffset.toNat ++
        (rest ++ replicate (8 * (tablePerBlock - page.length)) 0)) := by
    have hsplit : encodeTableBlock page n =
        (leBytes 4 fileTableMagic ++ (leBytes 4 n ++ (leBytes 4 page.length ++ leBytes 4 0))) ++
          ((page.flatMap (·.bytes)) ++ replicate (8 * (tablePerBlock - page.length)) 0) := by
      simp only [encodeTableBlock, append_assoc]
    have hle : 8 * i ≤ (page.flatMap (·.bytes)).length := by
      simp only [length_flatMap, length_entry_bytes]
      simp
      omega
    rw [hsplit, ← hhead, ← drop_drop, drop_left, drop_append_of_le_length hle, hrest]
    simp only [FileTableEntry.bytes, append_assoc]
  have hblock : fieldAt 4 (16 + 8 * i) (encodeTableBlock page n) = e.metaBlock.toNat := by
    have := fieldAt_append [] (leBytes 4 e.metaOffset.toNat ++
      (rest ++ replicate (8 * (tablePerBlock - page.length)) 0))
      (show e.metaBlock.toNat < 256 ^ 4 from UInt32.toNat_lt _) length_nil
    rw [nil_append, ← hdrop, fieldAt_drop, Nat.add_zero] at this
    exact this
  have hoffset : fieldAt 4 (20 + 8 * i) (encodeTableBlock page n) = e.metaOffset.toNat := by
    have := fieldAt_append (leBytes 4 e.metaBlock.toNat) (rest ++ replicate (8 * (tablePerBlock - page.length)) 0)
      (show e.metaOffset.toNat < 256 ^ 4 from UInt32.toNat_lt _) (length_leBytes 4 _)
    rw [← hdrop, fieldAt_drop, show 16 + 8 * i + 4 = 20 + 8 * i by ring] at this
    exact this
  rw [tableEntryAt, hblock, hoffset, UInt32.ofNat_toNat, UInt32.ofNat_toNat]

theorem tableBlockEntries_encode (hlen : page.length ≤ tablePerBlock) (n : Nat) :
    tableBlockEntries (encodeTableBlock page n) = page ++ replicate (tablePerBlock - page.length) noEntry := by
  have hcount : (if page.length > tablePerBlock then tablePerBlock else page.length) = page.length :=
    if_neg (not_lt.mpr hlen)
  simp only [tableBlockEntries, fieldAt_encodeTableBlock_count hlen, hcount]
  apply ext_getElem?
  intro i
  rw [getElem?_map, getElem?_append]
  by_cases hi : i < page.length
  · rw [getElem?_range (by omega), if_pos hi, Option.map_some, if_pos hi,
      tableEntryAt_encode (getElem?_eq_getElem hi), getElem?_eq_getElem hi]
  rw [if_neg hi, getElem?_replicate]
  by_cases hr : i < tablePerBlock
  · rw [getElem?_range hr, Option.map_some, if_neg hi, if_pos (by omega)]
  · rw [getElem?_eq_none (by simpa using hr), if_neg (by omega)]
    rfl

/-! ## Pages -/

/-- The blocks that a flush fills with the entries of a table. -/
def tablePages (entries : List FileTableEntry) : List (List FileTableEntry) :=
  (List.range ((entries.length + (tablePerBlock - 1)) / tablePerBlock)).map fun i =>
    (entries.drop (tablePerBlock * i)).take tablePerBlock

theorem length_tablePages (entries : List FileTableEntry) :
    (tablePages entries).length = (entries.length + (tablePerBlock - 1)) / tablePerBlock := by
  simp [tablePages]

theorem tablePages_nil : tablePages [] = [] := by
  simp [tablePages, tablePerBlock]

theorem tablePages_cons (hne : entries ≠ []) :
    tablePages entries = entries.take tablePerBlock :: tablePages (entries.drop tablePerBlock) := by
  have hpos := length_pos_of_ne_nil hne
  have hcount : (entries.length + (tablePerBlock - 1)) / tablePerBlock =
      (entries.length - tablePerBlock + (tablePerBlock - 1)) / tablePerBlock + 1 := by
    simp only [tablePerBlock]
    omega
  simp only [tablePages, hcount, range_succ_eq_map, map_cons, map_map, length_drop,
    Nat.mul_zero, drop_zero]
  congr 1
  apply map_congr_left
  intro i _
  simp only [Function.comp_apply, drop_drop]
  rw [Nat.mul_succ, Nat.add_comm]

theorem tablePages_ne_nil (hne : entries ≠ []) : tablePages entries ≠ [] := by
  rw [tablePages_cons hne]
  exact cons_ne_nil _ _

theorem length_le_of_mem_tablePages (h : page ∈ tablePages entries) : page.length ≤ tablePerBlock := by
  obtain ⟨i, -, rfl⟩ := mem_map.mp h
  exact length_take_le _ _

theorem tablePages_getElem? {f : Nat} (hf : f < entries.length) :
    ∃ page, (tablePages entries)[f / tablePerBlock]? = some page ∧ page[f % tablePerBlock]? = entries[f]? := by
  refine ⟨(entries.drop (tablePerBlock * (f / tablePerBlock))).take tablePerBlock, ?_, ?_⟩
  · have hlt : f / tablePerBlock < (entries.length + (tablePerBlock - 1)) / tablePerBlock := by
      simp only [tablePerBlock]
      omega
    rw [tablePages, getElem?_map, getElem?_range hlt]
    rfl
  · rw [getElem?_take_of_lt (Nat.mod_lt _ (by decide)), getElem?_drop, Nat.div_add_mod]

/-- A flush lays out the table in pages of 510 entries. -/
theorem fileTableFlushLoop_spec (fuel : Nat) {entries : List FileTableEntry} (hfuel : entries.length ≤ fuel)
    (hne : entries ≠ []) {cs : ChainState} (h : ChainOk cs) {link block : Nat} (hblock : cs.chain[link]? = some block) :
    Flushes tableCodec cs link (tablePages entries) (fileTableFlushLoop fuel entries cs link) := by
  induction fuel generalizing entries cs link block with
  | zero => exact absurd (length_eq_zero_iff.mp (Nat.le_zero.mp hfuel)) hne
  | succ fuel ih =>
    obtain ⟨hlink, hget⟩ := List.getElem?_eq_some_iff.mp hblock
    have hgetD : ∀ cs' : ChainState, cs.chain <+: cs'.chain → cs'.chain.getD link 0 = block := by
      rintro cs' ⟨t, ht⟩
      rw [← ht, getD_eq_getElem?_getD, getElem?_append_left hlink, hblock]
      rfl
    rw [tablePages_cons hne, fileTableFlushLoop, if_neg hne]
    by_cases hrest : entries.drop tablePerBlock = []
    · rw [if_pos hrest, if_neg (by omega), hrest, tablePages_nil, hgetD cs (prefix_refl _)]
      exact Flushes.last h hblock _
    rw [if_neg hrest]
    have hpages := tablePages_ne_nil hrest
    cases hf : cs.follow link with
    | none => exact Flushes.stuck h hlink hf _ hpages
    | some r =>
      obtain ⟨nb, cs'⟩ := r
      obtain ⟨hok, hpre, hnb, -⟩ := (follow_spec h hlink).1 nb cs' hf
      have hlong : ¬ link ≥ cs'.chain.length := by
        have := hpre.length_le
        omega
      have hfuel' : (entries.drop tablePerBlock).length ≤ fuel := by
        rw [length_drop]
        simp only [tablePerBlock]
        omega
      simp only []
      rw [if_neg hlong, hgetD cs' hpre]
      exact Flushes.next h hblock hf _ hpages (ih hfuel' hrest hok hnb)

theorem fileTableFlush_spec {t : FileTable} (hdirty : t.dirty = true) (hne : t.entries ≠ []) {cs : ChainState}
    (h : ChainOk cs) {block : Nat} (hblock : cs.chain[0]? = some block) :
    Flushes tableCodec cs 0 (tablePages t.entries) (fileTableFlush t cs) := by
  rw [fileTableFlush, if_neg (by simp [hdirty])]
  exact fileTableFlushLoop_spec _ (le_refl _) hne h hblock

theorem fileTableInitLoop_eq (run : Nat) (d : Medium) (hops block : Nat) (entries : List FileTableEntry)
    (chain : List Nat) :
    fileTableInitLoop run d hops block entries chain =
      ((chainFormat fileTableMagic).walk run d hops block).map fun bs =>
        (entries ++ bs.flatMap fun b => tableBlockEntries (d b), chain ++ bs) := by
  induction hops generalizing block entries chain with
  | zero => rfl
  | succ hops ih =>
    rw [fileTableInitLoop, ChainFormat.walk]
    split
    · rfl
    split
    · rfl
    split
    · simp
    rw [ih, Option.map_map]
    congr 1
    funext bs
    simp

/-- The table that an init makes of a chain of pages. -/
def tableOf (pages : List (List FileTableEntry)) : List FileTableEntry :=
  pages.flatMap fun page => page ++ replicate (tablePerBlock - page.length) noEntry

theorem flatMap_tableBlockEntries {d : Medium} {bs : List Nat} {pages : List (List FileTableEntry)}
    (h : PagesAt encodeTableBlock d bs pages) (hlen : ∀ page ∈ pages, page.length ≤ tablePerBlock) :
    (bs.flatMap fun b => tableBlockEntries (d b)) = tableOf pages := by
  induction pages generalizing bs with
  | nil =>
    cases bs with
    | nil => rfl
    | cons b bs => exact h.elim
  | cons page pages ih =>
    cases bs with
    | nil => exact h.elim
    | cons b bs =>
      obtain ⟨hb, hrest⟩ := h
      rw [flatMap_cons, hb, tableBlockEntries_encode (hlen page mem_cons_self),
        ih hrest fun page' hp => hlen page' (mem_cons_of_mem page hp), tableOf, tableOf, flatMap_cons]

/-- Entry `f` of the table is entry `f % 510` of page `f / 510`. -/
theorem tableOf_getElem? {pages : List (List FileTableEntry)} (hlen : ∀ page ∈ pages, page.length ≤ tablePerBlock)
    {f : Nat} {page : List FileTableEntry} (hpage : pages[f / tablePerBlock]? = some page) {e : FileTableEntry}
    (he : page[f % tablePerBlock]? = some e) : (tableOf pages)[f]? = some e := by
  induction pages generalizing f with
  | nil => cases hpage
  | cons p pages ih =>
    have hp : (p ++ replicate (tablePerBlock - p.length) noEntry).length = tablePerBlock := by
      have := hlen p mem_cons_self
      rw [length_append, length_replicate]
      omega
    rw [tableOf, flatMap_cons]
    by_cases hf : f < tablePerBlock
    · rw [Nat.div_eq_of_lt hf] at hpage
      rw [Nat.mod_eq_of_lt hf] at he
      obtain rfl := Option.some.inj hpage
      rw [getElem?_append_left (by omega), getElem?_append_left (List.getElem?_eq_some_iff.mp he).1, he]
    have hdiv : f / tablePerBlock = (f - tablePerBlock) / tablePerBlock + 1 := by
      simp only [tablePerBlock] at hf ⊢
      omega
    have hmod : f % tablePerBlock = (f - tablePerBlock) % tablePerBlock := by
      simp only [tablePerBlock] at hf ⊢
      omega
    rw [hdiv, getElem?_cons_succ] at hpage
    rw [hmod] at he
    rw [getElem?_append_right (by omega), hp]
    exact ih (fun page' hp' => hlen page' (mem_cons_of_mem p hp')) hpage he

theorem init_pages {cs : ChainState} {firstBlock : Nat} (hcs : ChainAt cs firstBlock)
    (hhead : cs.chain[0]? = some firstBlock) {d : Medium} {pages : List (List FileTableEntry)} (hne : pages ≠ [])
    (hpages : PagesAt tableCodec.enc d (cs.chain.take pages.length) pages)
    (hlen : ∀ page ∈ pages, page.length ≤ tablePerBlock) :
    fileTableInit cs.space.totalBlocks d firstBlock = some (⟨tableOf pages, false⟩, cs.chain.take pages.length) := by
  have hrun : cs.space.totalBlocks ≠ 0 := by
    have := hcs.first.1
    omega
  rw [fileTableInit, if_neg hrun, fileTableInitLoop_eq, walk_pages hcs hhead hne hpages]
  simp only [Option.map_some, nil_append]
  rw [flatMap_tableBlockEntries hpages hlen]

end BoxOS.TagFS
