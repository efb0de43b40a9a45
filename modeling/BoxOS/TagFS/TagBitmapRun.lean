import BoxOS.TagFS.TagBitmapQuery

/-!
# Runs of the tag index

An index is used through sets, clears, removals of files and queries in any order. `IndexOp.carries` is what an
operation means for the relation between tags and files; `run_spec` says that the index follows it over a whole run
whose steps meet `IndexOp.Meets`, and `run_query_answers` that every query then answers from that relation.

Two counters of the source are too narrow for steps that do not: a cache entry keeps the low 16 bits of the length of
its key (`long_query_poisons_cache`), and the doubled capacity of a file's tag list vanishes at 32768 tags.
-/

namespace BoxOS.TagFS

open Lib List Option

/-- One call of the index. -/
inductive IndexOp where
  | set (t : TagId) (f : Nat)
  | clear (t : TagId) (f : Nat)
  | removeFile (f : Nat)
  | query (tags : List TagId) (groups : List QueryGroup) (maxResults : Nat)
deriving DecidableEq, Repr

def IndexOp.apply : IndexOp → TagBitmapIndex → Option TagBitmapIndex
  | .set t f, idx => tagBitmapSet idx t f
  | .clear t f, idx => some (tagBitmapClear idx t f)
  | .removeFile f, idx => some (tagBitmapRemoveFile idx f)
  | .query tags groups maxResults, idx => some (tagBitmapQuery idx tags groups maxResults).2

/-- What the call means for the relation. -/
def IndexOp.carries : IndexOp → Carries → Carries
  | .set t f, c => c.set t f
  | .clear t f, c => c.clear t f
  | .removeFile f, c => c.remove f
  | .query _ _ _, c => c

/-- The file id of the call is below `2 ^ 31`. -/
def IndexOp.InRange : IndexOp → Prop
  | .set _ f => f < 2 ^ 31
  | .clear _ f => f < 2 ^ 31
  | .removeFile f => f < 2 ^ 31
  | .query _ _ _ => True

/-- The call stays inside the counters of the source: an update does not wrap the generation, a set finds room in the
file's tag list, and a query lists at most 65535 tags. -/
def IndexOp.Meets : IndexOp → TagBitmapIndex → Prop
  | .set t f, idx => (idx.tagsOf f).HasRoom t ∧ idx.generation + 1 < 2 ^ 64
  | .clear _ _, idx => idx.generation + 1 < 2 ^ 64
  | .removeFile _, idx => idx.generation + 1 < 2 ^ 64
  | .query tags _ _, _ => tags.length < 2 ^ 16

instance (op : IndexOp) : Decidable op.InRange := by
  cases op <;> unfold IndexOp.InRange <;> infer_instance

instance (op : IndexOp) (idx : TagBitmapIndex) : Decidable (op.Meets idx) := by
  cases op <;> unfold IndexOp.Meets <;> infer_instance

def runOps : TagBitmapIndex → List IndexOp → Option TagBitmapIndex
  | idx, [] => some idx
  | idx, op :: ops => (op.apply idx).bind fun idx' => runOps idx' ops

def carriesAfter : Carries → List IndexOp → Carries
  | c, [] => c
  | c, op :: ops => carriesAfter (op.carries c) ops

/-- Every call of the run meets its condition in the state it is made in. -/
def MeetsAll : TagBitmapIndex → List IndexOp → Prop
  | _, [] => True
  | idx, op :: ops => op.Meets idx ∧ ∀ idx' ∈ op.apply idx, MeetsAll idx' ops

instance decidableMeetsAll : (ops : List IndexOp) → (idx : TagBitmapIndex) → Decidable (MeetsAll idx ops)
  | [], _ => isTrue trivial
  | op :: ops, idx =>
    have : DecidablePred fun idx' => MeetsAll idx' ops := decidableMeetsAll ops
    inferInstanceAs (Decidable (op.Meets idx ∧ ∀ idx' ∈ op.apply idx, MeetsAll idx' ops))

variable {idx : TagBitmapIndex}

/-- One call keeps the index and its cache in step with the relation. -/
theorem step_spec {c : Carries} (h : idx.Inv c) (hcache : idx.CacheOk c) {op : IndexOp} (hrange : op.InRange)
    (hmeets : op.Meets idx) :
    ∃ idx', op.apply idx = some idx' ∧ idx'.Inv (op.carries c) ∧ idx'.CacheOk (op.carries c) := by
  cases op with
  | set t f =>
    obtain ⟨hroom, hgen⟩ := hmeets
    obtain ⟨idx', hset, -, -, -, hgen', hcache'⟩ := set_eq idx t hrange
    rw [Nat.mod_eq_of_lt hgen] at hgen'
    exact ⟨idx', hset, set_inv h hrange hroom hset, cacheOk_of_bump hcache hgen' hcache'⟩
  | clear t f =>
    refine ⟨_, rfl, clear_inv h t f, ?_⟩
    have hgen : idx.generation + 1 < 2 ^ 64 := hmeets
    cases hb : idx.bitmapOf t with
    | none =>
      simp only [tagBitmapClear, hb, IndexOp.carries, clear_of_absent h hb]
      exact hcache
    | some bm =>
      refine cacheOk_of_bump hcache ?_ ?_
      · simp only [tagBitmapClear, hb, TagBitmapIndex.bump, Nat.mod_eq_of_lt hgen]
      · simp only [tagBitmapClear, hb, TagBitmapIndex.bump]
  | removeFile f =>
    refine ⟨_, rfl, removeFile_inv h f, ?_⟩
    have hgen : idx.generation + 1 < 2 ^ 64 := hmeets
    by_cases hlen : f ≥ idx.fileToTags.length
    · simp only [tagBitmapRemoveFile, if_pos hlen, IndexOp.carries, remove_of_past h hlen]
      exact hcache
    · refine cacheOk_of_bump hcache ?_ ?_
      · simp only [tagBitmapRemoveFile, if_neg hlen, TagBitmapIndex.bump, Nat.mod_eq_of_lt hgen]
      · simp only [tagBitmapRemoveFile, if_neg hlen, TagBitmapIndex.bump]
  | query tags groups maxResults =>
    exact ⟨_, rfl, query_inv h tags groups maxResults, query_cacheOk h hcache hmeets groups maxResults⟩

theorem run_spec (ops : List IndexOp) {idx : TagBitmapIndex} {c : Carries} (h : idx.Inv c) (hcache : idx.CacheOk c)
    (hrange : ∀ op ∈ ops, op.InRange) (hmeets : MeetsAll idx ops) :
    ∃ idx', runOps idx ops = some idx' ∧ idx'.Inv (carriesAfter c ops) ∧ idx'.CacheOk (carriesAfter c ops) := by
  induction ops generalizing idx c with
  | nil => exact ⟨idx, rfl, h, hcache⟩
  | cons op ops ih =>
    obtain ⟨hop, hrest⟩ := hmeets
    obtain ⟨idx₁, happly, hinv, hcache₁⟩ := step_spec h hcache (hrange op mem_cons_self) hop
    obtain ⟨idx', hrun, hinv', hcache'⟩ := ih hinv hcache₁ (fun o ho => hrange o (mem_cons_of_mem op ho))
      (hrest idx₁ happly)
    exact ⟨idx', by rw [runOps, happly, bind_some, hrun], hinv', hcache'⟩

theorem create_cacheOk {tagCap fileCap : Nat} (h : tagBitmapCreate tagCap fileCap = some idx)
    (c : Carries) : idx.CacheOk c := by
  obtain ⟨-, -, -, -, hcache⟩ := create_spec h
  intro e he ids key hids
  rw [hcache] at he
  obtain rfl := eq_of_mem_replicate he
  cases hids

/-- Every query answers from the relation that the run has built, from the cache or computed. -/
theorem run_query_answers {tagCap fileCap : Nat} {idx₀ : TagBitmapIndex}
    (hcreate : tagBitmapCreate tagCap fileCap = some idx₀) (ops : List IndexOp) (hrange : ∀ op ∈ ops, op.InRange)
    (hmeets : MeetsAll idx₀ ops) : ∃ idx, runOps idx₀ ops = some idx ∧ ∀ tags groups maxResults,
    Answers (carriesAfter Carries.none ops) tags groups maxResults (tagBitmapQuery idx tags groups maxResults).1 := by
  obtain ⟨idx, hrun, hinv, hcache⟩ :=
    run_spec ops (create_inv hcreate) (create_cacheOk hcreate Carries.none) hrange hmeets
  exact ⟨idx, hrun, fun tags groups maxResults => query_answers hinv hcache tags groups maxResults⟩

/-- One set and a query: the run of a client that asks for what it has stored. -/
theorem run_query_answers_single :
    ∃ idx₀ idx, tagBitmapCreate 64 64 = some idx₀ ∧ runOps idx₀ [.set 7 3, .query [7] [] 10] = some idx ∧
    Answers (carriesAfter Carries.none [.set 7 3, .query [7] [] 10]) [7] [] 10 (tagBitmapQuery idx [7] [] 10).1 :=
    by
  obtain ⟨idx₀, hcreate⟩ : ∃ idx₀, tagBitmapCreate 64 64 = some idx₀ := ⟨_, rfl⟩
  obtain ⟨-, htags, -, hgen, -⟩ := create_spec hcreate
  have hrange : ∀ op ∈ ([.set 7 3, .query [7] [] 10] : List IndexOp), op.InRange := by decide
  have hmeets : MeetsAll idx₀ [.set 7 3, .query [7] [] 10] := by
    refine ⟨⟨by rw [htags]; decide, by rw [hgen]; decide⟩, ?_⟩
    intro idx' _
    exact ⟨by simp [IndexOp.Meets], fun _ _ => trivial⟩
  obtain ⟨idx, hrun, hall⟩ := run_query_answers hcreate _ hrange hmeets
  exact ⟨idx₀, idx, hcreate, hrun, hall [7] [] 10⟩

/-! ## A key longer than its counter -/

theorem foldl_hashStep_replicate {h : UInt32} {t : TagId} (ht : hashStep h t.toUInt32 = h) (n : Nat) :
    (replicate n t).foldl (fun h t => hashStep h t.toUInt32) h = h := by
  induction n with
  | zero => rfl
  | succ n ih => rw [replicate_succ, foldl_cons, ht, ih]

/-- A query with the hash of its first tag, whatever its length. -/
def longQuery (n : Nat) : List TagId := 13700 :: replicate n 30226

theorem queryHash_longQuery (n : Nat) : queryHash (longQuery n) [] = queryHash [13700] [] := by
  have hfix : hashStep (hashStep 0x811c9dc5 (13700 : TagId).toUInt32) (30226 : TagId).toUInt32 =
      hashStep 0x811c9dc5 (13700 : TagId).toUInt32 := by decide
  simp only [queryHash, longQuery, foldl_cons, foldl_nil, foldl_hashStep_replicate hfix]

/-- File 1 carries both tags of the long query, file 2 only the first of them. -/
def poisonRun (n : Nat) : List IndexOp := [.set 13700 1, .set 30226 1, .set 13700 2, .query (longQuery n) [] 10]

theorem cacheLookup_single {e : QueryCacheEntry} {hash : UInt32} {tags : List TagId}
    (honly : ∀ e' ∈ idx.cache, e' = e ∨ e'.fileIds = none) (hmem : e ∈ idx.cache)
    (hhit : e.hits hash idx.generation tags = true) : cacheLookup idx hash tags = some e := by
  cases hl : cacheLookup idx hash tags with
  | none => exact absurd hhit (find?_eq_none.mp hl e hmem)
  | some e' =>
    rcases honly e' (mem_of_find?_eq_some hl) with rfl | hnone
    · rfl
    · have := find?_some hl
      simp [QueryCacheEntry.hits, hnone] at this

theorem answers_eq {c : Carries} {tags : List TagId} {groups : List QueryGroup} {maxResults : Nat} {out l : List Nat}
    (h : Answers c tags groups maxResults out) (hsorted : l.Pairwise (· < ·))
    (hl : ∀ f, f ∈ l ↔ Given tags groups ∧ f ≥ 1 ∧ Matches c tags groups f = true) : out = l.take maxResults := by
  obtain ⟨all, hall, hmem, rfl⟩ := h
  have : all = l := by
    apply Perm.eq_of_pairwise' hall hsorted
    rw [perm_ext_iff_of_nodup (hall.imp ne_of_lt) (hsorted.imp ne_of_lt)]
    intro f
    rw [hmem, hl]
  rw [this]

/-- The relation that `poisonRun` builds. -/
def poisonCarries : Carries := ((Carries.none.set 13700 1).set 30226 1).set 13700 2

theorem carriesAfter_poisonRun (n : Nat) : carriesAfter Carries.none (poisonRun n) = poisonCarries := rfl

theorem poisonCarries_first (f : Nat) : poisonCarries 13700 f = true ↔ f = 1 ∨ f = 2 := by
  simp [poisonCarries, Carries.set, Carries.none]

theorem poisonCarries_second (f : Nat) : poisonCarries 30226 f = true ↔ f = 1 := by
  simp [poisonCarries, Carries.set, Carries.none]

theorem matches_longQuery {n : Nat} (hn : 0 < n) (f : Nat) :
    f ∈ [1] ↔ Given (longQuery n) [] ∧ f ≥ 1 ∧ Matches poisonCarries (longQuery n) [] f = true := by
  have hall : (longQuery n).all (poisonCarries · f) = true ↔ f = 1 := by
    simp only [longQuery, all_cons, Bool.and_eq_true, List.all_eq_true, mem_replicate, poisonCarries_first]
    constructor
    · rintro ⟨-, h⟩
      exact (poisonCarries_second f).mp (h 30226 ⟨by omega, rfl⟩)
    · rintro rfl
      refine ⟨Or.inl rfl, ?_⟩
      rintro t ⟨-, rfl⟩
      exact (poisonCarries_second 1).mpr rfl
  have hgiven : Given (longQuery n) [] := Or.inl (cons_ne_nil _ _)
  simp only [Matches, all_nil, Bool.and_true, hall, hgiven, true_and, mem_singleton]
  omega

/-- After the three sets: the relation, and a cache that is still empty. -/
theorem poison_sets {idx₀ : TagBitmapIndex} (hcreate : tagBitmapCreate 64 64 = some idx₀) :
    ∃ idx, runOps idx₀ [.set 13700 1, .set 30226 1, .set 13700 2] = some idx ∧ idx.Inv poisonCarries ∧
      idx.cache = replicate queryCacheSlots ⟨0, 0, none, none, 0⟩ ∧ idx.maxFileId = 2 := by
  have h₀ := create_inv hcreate
  obtain ⟨-, htags₀, hmax₀, -, hcache₀⟩ := create_spec hcreate
  obtain ⟨idx₁, hset₁, -, htags₁, hmax₁, -, hcache₁⟩ := set_eq idx₀ 13700 (show 1 < 2 ^ 31 by decide)
  have h₁ := set_inv h₀ (by decide) (by rw [htags₀]; decide) hset₁
  obtain ⟨idx₂, hset₂, -, htags₂, hmax₂, -, hcache₂⟩ := set_eq idx₁ 30226 (show 1 < 2 ^ 31 by decide)
  have h₂ := set_inv h₁ (by decide) (by rw [htags₁, if_pos rfl, htags₀]; decide) hset₂
  obtain ⟨idx₃, hset₃, -, htags₃, hmax₃, -, hcache₃⟩ := set_eq idx₂ 13700 (show 2 < 2 ^ 31 by decide)
  have h₃ :=
    set_inv h₂ (by decide) (by rw [htags₂, if_neg (by decide), htags₁, if_neg (by decide), htags₀]; decide) hset₃
  refine ⟨idx₃, ?_, h₃, by rw [hcache₃, hcache₂, hcache₁, hcache₀], by rw [hmax₃, hmax₂, hmax₁, hmax₀]; decide⟩
  simp only [runOps, IndexOp.apply, hset₁, hset₂, hset₃, bind_some]

/-- A key of `65536 * k + 1` tags is stored with a count of one, and found by the query of its first tag. -/
theorem poison_query {n : Nat} (hn : 0 < n) (hmod : (n + 1) % 2 ^ 16 = 1) :
    ∃ idx₀ idx, tagBitmapCreate 64 64 = some idx₀ ∧ runOps idx₀ (poisonRun n) = some idx ∧
    (tagBitmapQuery idx [13700] [] 10).1 = [1] := by
  obtain ⟨idx₀, hcreate⟩ : ∃ idx₀, tagBitmapCreate 64 64 = some idx₀ := ⟨_, rfl⟩
  obtain ⟨idx, hrun, hinv, hcache, hmax⟩ := poison_sets hcreate
  have hempty : ∀ e ∈ idx.cache, e.fileIds = none := by
    intro e he
    rw [hcache] at he
    rw [eq_of_mem_replicate he]
  have hmiss : cacheLookup idx (queryHash (longQuery n) []) (longQuery n) = none := by
    refine find?_eq_none.mpr fun e he => ?_
    simp [QueryCacheEntry.hits, hempty e he]
  have hanswers := computeQuery_spec hinv (longQuery n) [] 10
  have hout := answers_eq hanswers (pairwise_singleton _ 1) (matches_longQuery hn)
  have hcompute : computeQuery idx (longQuery n) [] 10 = some [1] := by
    cases hq : computeQuery idx (longQuery n) [] 10 with
    | none => rw [hq] at hout; cases hout
    | some out => rw [hq] at hout; exact congrArg some hout
  have hlen : (longQuery n).length = n + 1 := by simp [longQuery]
  have hquery : (tagBitmapQuery idx (longQuery n) [] 10).2 =
      cacheStore idx (queryHash (longQuery n) []) (longQuery n) [1] := by
    have hc : (longQuery n).length > 0 ∧ ([] : List QueryGroup).length = 0 := ⟨by omega, rfl⟩
    simp only [tagBitmapQuery, hmax, if_pos hc, hmiss, hcompute]
    rw [if_neg (by decide), if_pos ⟨hc, by decide⟩]
  set e : QueryCacheEntry :=
    ⟨queryHash (longQuery n) [], idx.generation, some [1], some (longQuery n), (longQuery n).length % 2 ^ 16⟩ with he
  have hslot : (queryHash (longQuery n) []).toNat % queryCacheSlots < idx.cache.length := by
    rw [hcache, length_replicate]
    exact Nat.mod_lt _ (by decide)
  have hmem : e ∈ (cacheStore idx (queryHash (longQuery n) []) (longQuery n) [1]).cache :=
    mem_set hslot e
  have honly : ∀ e' ∈ (cacheStore idx (queryHash (longQuery n) []) (longQuery n) [1]).cache,
      e' = e ∨ e'.fileIds = none := by
    intro e' he'
    rcases mem_or_eq_of_mem_set he' with h | h
    · exact Or.inr (hempty e' h)
    · exact Or.inl h
  have hhit : e.hits (queryHash [13700] []) idx.generation [13700] = true := by
    have hfirst : (longQuery n)[0]? = some 13700 := rfl
    simp only [QueryCacheEntry.hits, he, queryHash_longQuery, hlen, hmod]
    simp [hfirst]
  have hfound := cacheLookup_single honly hmem hhit
  refine ⟨idx₀, cacheStore idx (queryHash (longQuery n) []) (longQuery n) [1], hcreate, ?_, ?_⟩
  · simp only [runOps, IndexOp.apply, poisonRun] at hrun ⊢
    obtain ⟨idx₁, hset₁, hrun⟩ := bind_eq_some_iff.mp hrun
    obtain ⟨idx₂, hset₂, hrun⟩ := bind_eq_some_iff.mp hrun
    obtain ⟨idx₃, hset₃, hrun⟩ := bind_eq_some_iff.mp hrun
    obtain rfl := some.inj hrun
    simp only [hset₁, hset₂, hset₃, bind_some, hquery]
  · have hc : ([13700] : List TagId).length > 0 ∧ ([] : List QueryGroup).length = 0 := ⟨by decide, rfl⟩
    have hmax' : (cacheStore idx (queryHash (longQuery n) []) (longQuery n) [1]).maxFileId = 2 := hmax
    simp only [tagBitmapQuery, if_pos hc, hmax', hfound]
    rfl

theorem poison_not_answers (n : Nat) : ¬ Answers (carriesAfter Carries.none (poisonRun n)) [13700] [] 10 [1] := by
  rw [carriesAfter_poisonRun]
  rintro ⟨all, -, hmem, htake⟩
  have hlen : all.length = 1 := by
    have := congrArg List.length htake
    rw [length_take, length_singleton] at this
    omega
  obtain ⟨a, rfl⟩ := length_eq_one_iff.mp hlen
  have hin : ∀ f, f = 1 ∨ f = 2 → f = a := by
    intro f hf
    refine mem_singleton.mp ((hmem f).mpr ⟨Or.inl (cons_ne_nil _ _), by omega, ?_⟩)
    simpa [Matches] using (poisonCarries_first f).mpr hf
  have h1 := hin 1 (Or.inl rfl)
  have h2 := hin 2 (Or.inr rfl)
  omega

/-- Three sets and one query of 65537 tags, all of them in range, after which the query of one tag is answered wrongly
from the cache. -/
theorem long_query_poisons_cache :
    (∀ op ∈ poisonRun 65536, op.InRange) ∧ ∃ idx₀ idx, tagBitmapCreate 64 64 = some idx₀ ∧
    runOps idx₀ (poisonRun 65536) = some idx ∧ (tagBitmapQuery idx [13700] [] 10).1 = [1] ∧
    ¬ Answers (carriesAfter Carries.none (poisonRun 65536)) [13700] [] 10 (tagBitmapQuery idx [13700] [] 10).1 := by
  refine ⟨?_, ?_⟩
  · intro op hop
    simp only [poisonRun, mem_cons, not_mem_nil, or_false] at hop
    rcases hop with rfl | rfl | rfl | rfl <;> simp [IndexOp.InRange]
  · obtain ⟨idx₀, idx, hcreate, hrun, hquery⟩ := poison_query (show 0 < 65536 by decide) (by decide)
    refine ⟨idx₀, idx, hcreate, hrun, hquery, ?_⟩
    rw [hquery]
    exact poison_not_answers 65536

end BoxOS.TagFS
