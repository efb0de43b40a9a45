import BoxOS.TagFS.RegistryDisk

/-!
# The tag registry survives a flush and a load

- `packFrom` is how a flush distributes the entries over blocks; `registryFlushLoop_spec` gives its writes in those
  terms, over the blocks of a chain that is `ChainOk`;
- `loadBlock_pageOf`: loading a block interns the tags of its records;
- `load_pages`: loading a chain of packed blocks rebuilds the registry.
-/

namespace BoxOS.TagFS

open Lib List TagRegistryEntry

/-! ## Records and pages -/

theorem length_record (e : TagRegistryEntry) : e.record.length = e.recordSize := by
  have hk : e.keyLen ≤ e.key.1.length := Nat.mod_le _ _
  have hv : e.valueBytes.length = e.valueLen := by
    unfold valueBytes valueLen
    cases e.value with
    | none => rfl
    | some value =>
      have : value.strlen % 2 ^ 16 ≤ value.1.length := Nat.mod_le _ _
      rw [length_take, min_eq_left this]
  simp only [record, recordSize, length_append, length_leBytes,
    length_singleton, length_take, hv]
  omega

variable (es : List TagRegistryEntry)

/-- The bytes that the records of some entries take. -/
def recordsSize : Nat := (es.map (·.recordSize)).sum

/-- The bytes of the records of some entries. -/
def records : List UInt8 := es.flatMap (·.record)

theorem length_records : (records es).length = recordsSize es := by
  simp only [records, recordsSize, length_flatMap, length_record]

theorem recordsSize_concat (e : TagRegistryEntry) :
    recordsSize (es ++ [e]) = recordsSize es + e.recordSize := by
  simp [recordsSize]

/-- The block that holds the records of some entries. -/
def pageOf : RegistryPage where
  entryCount := es.length
  usedBytes := recordsSize es % 2 ^ 16
  data := records es ++ replicate (registryDataSize - recordsSize es) 0

theorem pageOf_nil : pageOf [] = emptyPage := by
  simp [pageOf, emptyPage, records, recordsSize]

theorem put_pageOf (e : TagRegistryEntry) (h : recordsSize es + e.recordSize ≤ registryDataSize) :
    (pageOf es).put (recordsSize es) e = pageOf (es ++ [e]) := by
  have hdata : patch (pageOf es).data (recordsSize es) e.record = (pageOf (es ++ [e])).data := by
    have hdrop : (records es ++ replicate (registryDataSize - recordsSize es) 0).drop
        (recordsSize es + e.record.length) =
        replicate (registryDataSize - (recordsSize es + e.recordSize)) (0 : UInt8) := by
      rw [drop_append, drop_of_length_le (by rw [length_records]; omega), nil_append, drop_replicate,
        length_records, length_record]
      congr 1
      omega
    have htake : (records es ++ replicate (registryDataSize - recordsSize es) 0).take (recordsSize es) =
        records es := by
      rw [← length_records, take_left]
    simp only [pageOf, patch, hdrop, htake, recordsSize_concat]
    simp [records]
  simp only [RegistryPage.put, hdata]
  simp only [pageOf, recordsSize_concat, length_append, length_singleton]

theorem fieldAt_encode_next {page : RegistryPage} {n : Nat} (hn : n < 2 ^ 32) : fieldAt 4 4 (page.encode n) = n :=
  fieldAt_append (leBytes 4 registryMagic) _ (by simpa using hn) (by simp)

theorem good_encode (page : RegistryPage) (n : Nat) : (chainFormat registryMagic).good (page.encode n) = true := by
  have hmagic : registryMagic < 256 ^ 4 := by decide
  have hfield := fieldAt_append [] (leBytes 4 n ++ (leBytes 2 page.entryCount ++
    (leBytes 2 page.usedBytes ++ (replicate 4 0 ++ page.data)))) hmagic length_nil
  rw [nil_append] at hfield
  exact beq_iff_eq.mpr hfield

theorem fieldAt_encode_count {page : RegistryPage} (n : Nat) (hc : page.entryCount < 2 ^ 16) :
    fieldAt 2 8 (page.encode n) = page.entryCount := by
  have hc' : page.entryCount < 256 ^ 2 := by simpa using hc
  have hlen : (leBytes 4 registryMagic ++ leBytes 4 n).length = 8 := by simp
  have hfield := fieldAt_append (leBytes 4 registryMagic ++ leBytes 4 n)
    (leBytes 2 page.usedBytes ++ (replicate 4 0 ++ page.data)) hc' hlen
  simpa only [RegistryPage.encode, append_assoc] using hfield

theorem drop_encode (page : RegistryPage) (n : Nat) : (page.encode n).drop 16 = page.data := by
  have hlen : (leBytes 4 registryMagic ++ leBytes 4 n ++ leBytes 2 page.entryCount ++ leBytes 2 page.usedBytes ++
      replicate 4 (0 : UInt8)).length = 16 := by simp
  have : page.encode n = (leBytes 4 registryMagic ++ leBytes 4 n ++ leBytes 2 page.entryCount ++
      leBytes 2 page.usedBytes ++ replicate 4 (0 : UInt8)) ++ page.data := by
    simp only [RegistryPage.encode, append_assoc]
  rw [this, ← hlen, drop_left]

/-! ## Packing -/

/-- How a flush distributes entries over blocks, with `cur` already in the block being filled. -/
def packFrom : List TagRegistryEntry → List TagRegistryEntry → List (List TagRegistryEntry)
  | cur, [] => [cur]
  | cur, e :: es =>
    if recordsSize cur + e.recordSize > registryDataSize then cur :: packFrom [e] es else packFrom (cur ++ [e]) es

theorem packFrom_ne_nil (cur es : List TagRegistryEntry) : packFrom cur es ≠ [] := by
  induction es generalizing cur with
  | nil => simp [packFrom]
  | cons e es ih =>
    rw [packFrom]
    split
    · simp
    · exact ih _

theorem packFrom_flatten (cur es : List TagRegistryEntry) : (packFrom cur es).flatten = cur ++ es := by
  induction es generalizing cur with
  | nil => simp [packFrom]
  | cons e es ih =>
    rw [packFrom]
    split
    · rw [flatten_cons, ih]
      simp
    · rw [ih]
      simp

theorem packFrom_fits {cur es : List TagRegistryEntry} (hcur : recordsSize cur ≤ registryDataSize)
    (hes : ∀ e ∈ es, e.recordSize ≤ registryDataSize) :
    ∀ page ∈ packFrom cur es, recordsSize page ≤ registryDataSize := by
  induction es generalizing cur with
  | nil =>
    intro page hp
    rw [packFrom, mem_singleton] at hp
    exact hp ▸ hcur
  | cons e es ih =>
    have hrest : ∀ e' ∈ es, e'.recordSize ≤ registryDataSize := fun e' he' => hes e' (mem_cons_of_mem e he')
    intro page hp
    rw [packFrom] at hp
    split at hp
    · rcases mem_cons.mp hp with rfl | hp
      · exact hcur
      · exact ih (by simpa [recordsSize] using hes e mem_cons_self) hrest page hp
    · refine ih ?_ hrest page hp
      rw [recordsSize_concat]
      omega

/-! ## Flush -/

/-- The blocks of the registry chain. -/
def registryCodec : PageCodec RegistryPage (chainFormat registryMagic) where
  enc := RegistryPage.encode
  good_enc := good_encode
  next_enc _ _ hn := fieldAt_encode_next hn

theorem registryFlushLoop_spec (es cur : List TagRegistryEntry) {cs : ChainState} (h : ChainOk cs) {link : Nat}
    {block : Nat} (hblock : cs.chain[link]? = some block) (hcur : recordsSize cur ≤ registryDataSize)
    (hes : ∀ e ∈ es, e.recordSize ≤ registryDataSize) :
    Flushes registryCodec cs link ((packFrom cur es).map pageOf)
      (registryFlushLoop es cs link block (pageOf cur) (recordsSize cur)) := by
  induction es generalizing cur cs link block with
  | nil => exact Flushes.last h hblock (pageOf cur)
  | cons e es ih =>
    have hlink : link < cs.chain.length := (List.getElem?_eq_some_iff.mp hblock).1
    have hrest : ∀ e' ∈ es, e'.recordSize ≤ registryDataSize := fun e' he' => hes e' (mem_cons_of_mem e he')
    rw [packFrom, registryFlushLoop]
    by_cases hfull : recordsSize cur + e.recordSize > registryDataSize
    · rw [if_pos hfull, if_pos hfull, map_cons]
      have hne : (packFrom [e] es).map pageOf ≠ [] := by simpa using packFrom_ne_nil [e] es
      cases hf : cs.follow link with
      | none => exact Flushes.stuck h hlink hf (pageOf cur) hne
      | some r =>
        obtain ⟨nb, cs'⟩ := r
        obtain ⟨hok, -, hnb, -⟩ := (follow_spec h hlink).1 nb cs' hf
        have hsize : recordsSize [e] = e.recordSize := by simp [recordsSize]
        have hpage : emptyPage.put 0 e = pageOf [e] := by
          have := put_pageOf [] e (by simpa [recordsSize] using hes e mem_cons_self)
          simpa [pageOf_nil, recordsSize] using this
        have hih := ih [e] hok hnb (by rw [hsize]; exact hes e mem_cons_self) hrest
        rw [hsize, ← hpage] at hih
        exact Flushes.next h hblock hf (pageOf cur) hne hih
    · rw [if_neg hfull, if_neg hfull, put_pageOf _ _ (by omega), ← recordsSize_concat]
      exact ih (cur ++ [e]) h hblock (by rw [recordsSize_concat]; omega) hrest

/-! ## Load -/

/-- A tag that a record holds without loss: a key of at most 255 bytes, and no value or one of 1 to 255 bytes. -/
def ValidTag (p : TagPair) : Prop := p.1.strlen ≤ 255 ∧ ∀ value ∈ p.2, 1 ≤ value.strlen ∧ value.strlen ≤ 255

/-- The entries of some tags, the first of them at position `n`. -/
def entriesFrom (n : Nat) (ps : List TagPair) : List TagRegistryEntry := (ps.zipIdx n).map fun x => entryFor x.2 x.1

theorem entriesFrom_cons (n : Nat) (p : TagPair) (ps : List TagPair) :
    entriesFrom n (p :: ps) = entryFor n p :: entriesFrom (n + 1) ps := by
  simp [entriesFrom]

theorem entriesFrom_append (n : Nat) (ps qs : List TagPair) :
    entriesFrom n (ps ++ qs) = entriesFrom n ps ++ entriesFrom (n + ps.length) qs := by
  simp [entriesFrom, zipIdx_append]

@[simp] theorem length_entriesFrom (n : Nat) (ps : List TagPair) : (entriesFrom n ps).length = ps.length := by
  simp [entriesFrom]

theorem ofBuffer_bytes (str : CStr) : CStr.ofBuffer str.1 = str := by
  apply Subtype.ext
  apply takeWhile_eq_self_iff.mpr
  intro b hb
  have : b ≠ 0 := fun h0 => str.2 (h0 ▸ hb)
  simpa using this

section Record

variable {p : TagPair} (hp : ValidTag p) (n : Nat)

include hp

theorem keyLen_entryFor : (entryFor n p).keyLen = p.1.1.length :=
  Nat.mod_eq_of_lt (by have := hp.1; simp [entryFor, CStr.strlen] at *; omega)

theorem valueLen_entryFor : (entryFor n p).valueLen = (p.2.map (·.1.length)).getD 0 := by
  cases hv : p.2 with
  | none => simp [entryFor, valueLen, hv]
  | some value =>
    have := (hp.2 value hv).2
    simp only [entryFor, valueLen, hv]
    exact Nat.mod_eq_of_lt (by omega)

theorem valueBytes_entryFor : (entryFor n p).valueBytes = (p.2.map (·.1)).getD [] := by
  have hlen := valueLen_entryFor hp n
  cases hv : p.2 with
  | none => simp [entryFor, valueBytes, hv]
  | some value =>
    rw [hv] at hlen
    simp only [entryFor, valueBytes, hv] at hlen ⊢
    rw [hlen]
    exact take_length

theorem recordSize_entryFor_le : (entryFor n p).recordSize ≤ registryDataSize := by
  have hk : p.1.1.length ≤ 255 := hp.1
  have hv : (p.2.map (·.1.length)).getD 0 ≤ 255 := by
    cases hv : p.2 with
    | none => simp
    | some value => exact (hp.2 value hv).2
  rw [recordSize, keyLen_entryFor hp, valueLen_entryFor hp]
  simp only [registryDataSize]
  omega

theorem record_entryFor :
    (entryFor n p).record =
      leBytes 2 (idAt n).toNat ++
        ([(entryFor n p).flags] ++
          (leBytes 1 p.1.1.length ++
            (leBytes 2 ((p.2.map (·.1.length)).getD 0) ++ (p.1.1 ++ (p.2.map (·.1)).getD [])))) := by
  rw [record, keyLen_entryFor hp, valueLen_entryFor hp, valueBytes_entryFor hp]
  have : (entryFor n p).key.1.take p.1.1.length = p.1.1 := take_length
  rw [this]
  rfl

end Record

theorem setFlags_entryFor {tags : List TagPair} (h : (registryOf tags).Inv tags) {i : Nat} {p : TagPair}
    (hget : tags[i]? = some p) : (registryOf tags).setFlags (idAt i) (entryFor i p).flags = registryOf tags := by
  have hentry := entryOf_idAt h hget
  have hslot : (registryOf tags).byId[(idAt i).toNat]? = some (some (entryFor i p)) := by
    rw [TagRegistry.entryOf, getD_eq_getElem?_getD] at hentry
    cases hs : (registryOf tags).byId[(idAt i).toNat]? with
    | none =>
      rw [hs] at hentry
      cases hentry
    | some e =>
      rw [hs] at hentry
      exact congrArg some hentry
  obtain ⟨hlt, hget'⟩ := List.getElem?_eq_some_iff.mp hslot
  simp only [TagRegistry.setFlags, hentry]
  have : (registryOf tags).byId.set (idAt i).toNat (some (entryFor i p)) = (registryOf tags).byId := by
    rw [← hget', set_getElem_self]
  rw [this]

theorem record_fields {id key value : Nat} {flags : UInt8} {keyBytes valueBytes post D : List UInt8}
    (hD : D = leBytes 2 id ++ ([flags] ++ (leBytes 1 key ++ (leBytes 2 value ++ (keyBytes ++ (valueBytes ++ post))))))
    (hid : id < 2 ^ 16) (hkey : key < 2 ^ 8) (hvalue : value < 2 ^ 16) (hkl : keyBytes.length = key)
    (hvl : valueBytes.length = value) : fieldAt 2 0 D = id ∧ D.getD 2 0 = flags ∧ fieldAt 1 3 D = key ∧
    fieldAt 2 4 D = value ∧ (D.drop 6).take key = keyBytes ∧ (D.drop (6 + key)).take value = valueBytes := by
  have hpre :
      D = (leBytes 2 id ++ [flags] ++ leBytes 1 key ++ leBytes 2 value) ++ (keyBytes ++ (valueBytes ++ post)) := by
    rw [hD]
    simp only [append_assoc]
  have hlen : (leBytes 2 id ++ [flags] ++ leBytes 1 key ++ leBytes 2 value).length = 6 := by simp
  refine ⟨?_, ?_, ?_, ?_, ?_, ?_⟩
  · have := fieldAt_append [] ([flags] ++ (leBytes 1 key ++ (leBytes 2 value ++ (keyBytes ++ (valueBytes ++ post)))))
      (show id < 256 ^ 2 by simpa using hid) length_nil
    rwa [nil_append, ← hD] at this
  · rw [hD, getD_eq_getElem?_getD, getElem?_append_right (by simp), length_leBytes]
    rfl
  · have := fieldAt_append (leBytes 2 id ++ [flags]) (leBytes 2 value ++ (keyBytes ++ (valueBytes ++ post)))
      (show key < 256 ^ 1 by simpa using hkey) (show _ = 3 by simp)
    rw [hD]
    simpa only [append_assoc] using this
  · have := fieldAt_append (leBytes 2 id ++ [flags] ++ leBytes 1 key) (keyBytes ++ (valueBytes ++ post))
      (show value < 256 ^ 2 by simpa using hvalue) (show _ = 4 by simp)
    rw [hD]
    simpa only [append_assoc] using this
  · rw [hpre, ← hlen, drop_left, ← hkl, take_left]
  · have hlen' : (leBytes 2 id ++ [flags] ++ leBytes 1 key ++ leBytes 2 value ++ keyBytes).length = 6 + key := by
      rw [length_append, hlen, hkl]
    rw [hpre, ← append_assoc, ← hlen', drop_left, ← hvl, take_left]

theorem records_cons (e : TagRegistryEntry) (es : List TagRegistryEntry) :
    records (e :: es) = e.record ++ records es := by
  simp [records]

/-- Loading the records of some tags interns them after those already there. -/
theorem loadRecords_records (ps : List TagPair) {tags : List TagPair} (hnd : (tags ++ ps).Nodup)
    (hmax : (tags ++ ps).length ≤ maxTagId + 1) (hvalid : ∀ p ∈ ps, ValidTag p) {data rest : List UInt8} {offset : Nat}
    (hlen : data.length = registryDataSize) (hdata : data.drop offset = records (entriesFrom tags.length ps) ++ rest) :
    loadRecords ps.length offset data (registryOf tags) = registryOf (tags ++ ps) := by
  induction ps generalizing tags offset with
  | nil => rw [append_nil, length_nil, loadRecords]
  | cons p ps ih =>
    have hp := hvalid p mem_cons_self
    have hnd' : ((tags ++ [p]) ++ ps).Nodup := by simpa using hnd
    have hmax' : ((tags ++ [p]) ++ ps).length ≤ maxTagId + 1 := by simpa using hmax
    have hn : tags.length ≤ maxTagId := by
      simp only [length_append, length_cons] at hmax
      omega
    have hn16 : tags.length < 2 ^ 16 := by
      simp only [maxTagId] at hn
      omega
    have hpt : p ∉ tags := by
      intro hmem
      exact (nodup_append.mp hnd).2.2 p hmem p mem_cons_self rfl
    have hinv : (registryOf tags).Inv tags := registryOf_inv (nodup_append.mp hnd).1 (by omega)
    have hinv' : (registryOf (tags ++ [p])).Inv (tags ++ [p]) := by
      refine registryOf_inv (nodup_append.mp hnd').1 ?_
      rw [length_append, length_singleton]
      omega
    have hklen : p.1.1.length ≤ 255 := hp.1
    have hvlen : (p.2.map (·.1.length)).getD 0 ≤ 255 := by
      cases hv : p.2 with
      | none => simp
      | some value => exact (hp.2 value hv).2
    rw [entriesFrom_cons, records_cons, append_assoc] at hdata
    have hD : data.drop offset = leBytes 2 tags.length ++ ([(entryFor tags.length p).flags] ++
        (leBytes 1 p.1.1.length ++ (leBytes 2 ((p.2.map (·.1.length)).getD 0) ++
          (p.1.1 ++ ((p.2.map (·.1)).getD [] ++ (records (entriesFrom (tags.length + 1) ps) ++ rest)))))) := by
      rw [hdata, record_entryFor hp, idAt_toNat hn16]
      simp only [append_assoc]
    obtain ⟨hid, hflags, hkey, hvalue, hkb, hvb⟩ := record_fields hD hn16 (by omega) (by omega) rfl
      (by cases p.2 <;> rfl)
    -- the record lies inside the block
    have hsize : (entryFor tags.length p).recordSize = 6 + p.1.1.length + (p.2.map (·.1.length)).getD 0 := by
      rw [recordSize, keyLen_entryFor hp, valueLen_entryFor hp]
    have hinside : offset + (entryFor tags.length p).recordSize ≤ registryDataSize := by
      have := congrArg List.length hdata
      rw [length_drop, length_append, length_record, hlen] at this
      omega
    rw [fieldAt_drop, Nat.add_zero] at hid
    rw [fieldAt_drop] at hkey hvalue
    rw [drop_drop] at hkb hvb
    rw [← Nat.add_assoc] at hvb
    have hflags' : data.getD (offset + 2) 0 = (entryFor tags.length p).flags := by
      rw [← hflags]
      simp [getD_eq_getElem?_getD]
    have hval : (if (p.2.map (·.1.length)).getD 0 > 0 then some (CStr.ofBuffer ((p.2.map (·.1)).getD [])) else none) =
        p.2 := by
      cases hv : p.2 with
      | none => rfl
      | some value =>
        have : 1 ≤ value.1.length := (hp.2 value hv).1
        simp only [Option.map_some, Option.getD_some, ofBuffer_bytes]
        rw [if_pos (by omega)]
    rw [length_cons, loadRecords, if_neg (by omega)]
    simp only [hkey, hvalue]
    rw [if_neg (by omega), if_neg (by omega), hkb, hvb, ofBuffer_bytes, hval, hid,
      internWithId_new hinv hpt hn, hflags']
    simp only []
    rw [setFlags_entryFor hinv' (by simp)]
    have hnext : data.drop (offset + (6 + p.1.1.length + (p.2.map (·.1.length)).getD 0)) =
        records (entriesFrom (tags ++ [p]).length ps) ++ rest := by
      rw [← hsize, ← drop_drop, hdata, ← length_record, drop_left, length_append, length_singleton]
    rw [ih hnd' hmax' (fun q hq => hvalid q (mem_cons_of_mem p hq)) hnext, append_assoc]
    rfl

theorem length_data_pageOf {es : List TagRegistryEntry} (h : recordsSize es ≤ registryDataSize) :
    (pageOf es).data.length = registryDataSize := by
  simp only [pageOf, length_append, length_records, length_replicate]
  omega

theorem length_le_recordsSize : 6 * es.length ≤ recordsSize es := by
  induction es with
  | nil => simp [recordsSize]
  | cons e es ih =>
    simp only [recordsSize, map_cons, sum_cons, length_cons] at ih ⊢
    have : 6 ≤ e.recordSize := by
      unfold recordSize
      omega
    omega

theorem loadBlock_pageOf {tags ps : List TagPair} (hnd : (tags ++ ps).Nodup) (hmax : (tags ++ ps).length ≤ maxTagId + 1)
    (hvalid : ∀ p ∈ ps, ValidTag p) (hfit : recordsSize (entriesFrom tags.length ps) ≤ registryDataSize) (n : Nat) :
    loadBlock (registryOf tags) ((pageOf (entriesFrom tags.length ps)).encode n) = registryOf (tags ++ ps) := by
  have hcount : (pageOf (entriesFrom tags.length ps)).entryCount = ps.length := length_entriesFrom _ _
  have hlt : (pageOf (entriesFrom tags.length ps)).entryCount < 2 ^ 16 := by
    have := length_le_recordsSize (entriesFrom tags.length ps)
    rw [length_entriesFrom] at this
    simp only [registryDataSize] at hfit
    omega
  rw [loadBlock, fieldAt_encode_count n hlt, drop_encode, hcount]
  exact loadRecords_records ps hnd hmax hvalid (length_data_pageOf hfit) rfl

theorem split_entriesFrom {n : Nat} {ps : List TagPair} {l m : List TagRegistryEntry} (h : l ++ m = entriesFrom n ps) :
    l = entriesFrom n (ps.take l.length) ∧ m = entriesFrom (n + l.length) (ps.drop l.length) ∧
    l.length ≤ ps.length := by
  have hle : l.length ≤ ps.length := by
    have := congrArg List.length h
    rw [length_append, length_entriesFrom] at this
    omega
  have hsplit : entriesFrom n ps = entriesFrom n (ps.take l.length) ++
      entriesFrom (n + l.length) (ps.drop l.length) := by
    conv_lhs => rw [← take_append_drop l.length ps]
    rw [entriesFrom_append, length_take, min_eq_left hle]
  obtain ⟨hl, hm⟩ := append_inj (h.trans hsplit) (by simp [hle])
  exact ⟨hl, hm, hle⟩

/-- Loading the blocks of a chain of pages interns the tags of their records. -/
theorem load_pages (tags ps : List TagPair) {d : Medium} {bs : List Nat} {pages : List (List TagRegistryEntry)}
    (h : PagesAt RegistryPage.encode d bs (pages.map pageOf)) (hflat : pages.flatten = entriesFrom tags.length ps)
    (hnd : (tags ++ ps).Nodup) (hmax : (tags ++ ps).length ≤ maxTagId + 1) (hvalid : ∀ p ∈ ps, ValidTag p)
    (hfit : ∀ page ∈ pages, recordsSize page ≤ registryDataSize) :
    bs.foldl (fun reg b => loadBlock reg (d b)) (registryOf tags) = registryOf (tags ++ ps) := by
  induction pages generalizing bs tags ps with
  | nil =>
    cases bs with
    | nil =>
      have : ps = [] := by
        have := congrArg List.length hflat
        rw [length_entriesFrom] at this
        exact length_eq_zero_iff.mp this.symm
      subst this
      rw [append_nil, foldl_nil]
    | cons b bs => exact h.elim
  | cons page pages ih =>
    cases bs with
    | nil => exact h.elim
    | cons b bs =>
      obtain ⟨hb, hrest⟩ := h
      rw [flatten_cons] at hflat
      obtain ⟨hpage, hpages, hle⟩ := split_entriesFrom hflat
      have hsplit : tags ++ ps = (tags ++ ps.take page.length) ++ ps.drop page.length := by
        rw [append_assoc, take_append_drop]
      have hlen : (tags ++ ps.take page.length).length = tags.length + page.length := by
        rw [length_append, length_take, min_eq_left hle]
      have hload : loadBlock (registryOf tags) (d b) = registryOf (tags ++ ps.take page.length) := by
        have hdb : d b = (pageOf (entriesFrom tags.length (ps.take page.length))).encode (bs.headD 0) := by
          rw [← hpage]
          exact hb
        rw [hsplit] at hnd hmax
        rw [hdb]
        refine loadBlock_pageOf (nodup_append.mp hnd).1 ?_ ?_ ?_ _
        · rw [length_append] at hmax
          omega
        · exact fun p hp => hvalid p (mem_of_mem_take hp)
        · rw [← hpage]
          exact hfit page mem_cons_self
      rw [foldl_cons, hload, hsplit]
      refine ih _ _ hrest (by rw [hlen]; exact hpages) (hsplit ▸ hnd) (hsplit ▸ hmax) ?_ ?_
      · exact fun p hp => hvalid p (mem_of_mem_drop hp)
      · exact fun page' hp => hfit page' (mem_cons_of_mem page hp)

theorem registryLoadLoop_eq (run : Nat) (d : Medium) (hops block : Nat) (reg : TagRegistry) (chain : List Nat) :
    registryLoadLoop run d hops block reg chain =
      ((chainFormat registryMagic).walk run d hops block).map fun bs =>
        (bs.foldl (fun reg b => loadBlock reg (d b)) reg, chain ++ bs) := by
  induction hops generalizing block reg chain with
  | zero => rfl
  | succ hops ih =>
    rw [registryLoadLoop, ChainFormat.walk]
    split
    · rfl
    split
    · rfl
    split
    · rfl
    rw [ih, Option.map_map]
    congr 1
    funext bs
    simp

theorem entries_registryOf {tags : List TagPair} (h : (registryOf tags).Inv tags) :
    (registryOf tags).entries = entriesFrom 0 tags := by
  have hentries : (registryOf tags).entries =
      (List.range tags.length).filterMap fun i => tags[i]?.map (entryFor i) := by
    simp only [TagRegistry.entries, h.next, h.entry]
  rw [hentries]
  clear hentries h
  induction tags using List.reverseRecOn with
  | nil => rfl
  | append_singleton tags p ih =>
    rw [length_append, length_singleton, range_succ, filterMap_append, entriesFrom_append, ← ih]
    congr 1
    · apply filterMap_congr
      intro i hi
      rw [getElem?_append_left (mem_range.mp hi)]
    · simp [entriesFrom]

end BoxOS.TagFS
