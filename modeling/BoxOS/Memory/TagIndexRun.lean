import BoxOS.Lib.Runs
import BoxOS.Memory.TagIndexInv

/-!
# Memory-tag queries are set algebra

A run of the index is any sequence of its operations; beside the index it carries which region has which tag. A computed
query is right wherever it requires a tag (`compute_spec`); an answer from the cache is right when the entry was stored
for the same lists of tags and the limit cut neither of the two answers (`memtag_queries_exact`). The cache does not see
to either: a second caller with a smaller buffer is told the count of the first (`cached_count_past_limit`).
-/

namespace BoxOS.Memory

open Lib MemTagBitmapIndex List

/-! ## The answers of a query -/

/-- The reply to a query: the first `max`, in increasing order, of the regions that match, and how many these are. -/
def Answers (c : RegionTags) (q : MemTagQuery) (max : Nat) (reply : Reply) : Prop :=
  reply.count ≤ max ∧ reply.count = reply.out.length ∧
    ∃ all : List Nat, all.Pairwise (· < ·) ∧ (∀ r, r ∈ all ↔ Matches c q r = true) ∧ reply.out = all.take max

variable {idx : MemTagBitmapIndex} {c : RegionTags}

theorem answers_of_take (h : IndexInv idx c) (q : MemTagQuery) (max : Nat) {reply : Reply}
    (hout : reply.out = (idx.answers c q).take max) (hcount : reply.count = reply.out.length) :
    Answers c q max reply := by
  refine ⟨?_, hcount, _, answers_sorted idx c q, fun r => mem_answers h q r, hout⟩
  rw [hcount, hout, length_take]
  omega

namespace MemTagQuery

/-- How many tags the lists of a query have in total. -/
def tagCount (q : MemTagQuery) : Nat := q.required.length + q.any.length + q.excluded.length

/-- The same tags are required, allowed and excluded. -/
structure SameTags (a b : MemTagQuery) : Prop where
  required : a.required.Perm b.required
  any : a.any.Perm b.any
  excluded : a.excluded.Perm b.excluded

variable {a b : MemTagQuery}

theorem SameTags.matches (h : SameTags a b) (c : RegionTags) : Matches c a = Matches c b := by
  funext r
  unfold Matches
  rw [h.required.all_eq, h.any.any_eq, h.excluded.any_eq, h.required.isEmpty_eq, h.any.isEmpty_eq]

theorem perm_of_key (ha : a.tagCount ≤ 64) (hb : b.tagCount ≤ 64) (h : a.key = b.key) :
    (a.required ++ a.any ++ a.excluded).Perm (b.required ++ b.any ++ b.excluded) := by
  unfold tagCount at ha hb
  have hsort : ∀ q : MemTagQuery, (q.required ++ q.any ++ q.excluded).length ≤ 64 →
      q.key.Perm (q.required ++ q.any ++ q.excluded) := by
    intro q hq
    unfold key sortTags
    rw [take_of_length_le hq]
    exact perm_insertionSort _ _
  have h1 := hsort a (by simp; omega)
  have h2 := hsort b (by simp; omega)
  exact h1.symm.trans (h ▸ h2)

theorem sameTags_of_key (ha : a.tagCount ≤ 64) (hb : b.tagCount ≤ 64) (hkey : a.key = b.key)
    (htype : a.queryType = b.queryType) (hmixed : b.queryType ≠ 2) : SameTags a b := by
  have hperm := perm_of_key ha hb hkey
  cases b with
  | and tags =>
    cases a with
    | and tags' => exact ⟨by simpa [required, any, excluded] using hperm, .refl _, .refl _⟩
    | or tags' => exact absurd htype (show ¬(1 : UInt8) = 0 by decide)
    | mixed r y x => exact absurd htype (show ¬(2 : UInt8) = 0 by decide)
  | or tags =>
    cases a with
    | and tags' => exact absurd htype (show ¬(0 : UInt8) = 1 by decide)
    | or tags' => exact ⟨.refl _, by simpa [required, any, excluded] using hperm, .refl _⟩
    | mixed r y x => exact absurd htype (show ¬(2 : UInt8) = 1 by decide)
  | mixed r y x => exact absurd rfl hmixed

end MemTagQuery

/-! ## The cache -/

/-- A used entry: its key is that of the query it was stored for, and while the generation is current its result is the
answer to this query, cut at the limit it was stored with. -/
structure EntryOk (idx : MemTagBitmapIndex) (c : RegionTags) (e : QueryCacheEntry) : Prop where
  snapshot : e.genSnapshot ≤ idx.generation
  key : e.tagKey = e.origin.key
  type : e.queryType = e.origin.queryType
  size : e.origin.tagCount ≤ 64
  result : e.genSnapshot = idx.generation → e.resultIds = (idx.answers c e.origin).take e.limit

/-- Every used entry of the cache is as it should be. -/
def CacheInv (idx : MemTagBitmapIndex) (c : RegionTags) : Prop := ∀ e ∈ idx.cache, e.used = true → EntryOk idx c e

theorem CacheInv.bumped {idx' : MemTagBitmapIndex} {c' : RegionTags} (h : CacheInv idx c) (hb : Bumped idx idx')
    (hgen : idx.generation + 1 < 2 ^ 64) : CacheInv idx' c' := by
  have hlt : idx'.generation = idx.generation + 1 := by rw [hb.generation, Nat.mod_eq_of_lt hgen]
  intro e he hused
  have hok := h e (hb.cache ▸ he) hused
  have hsnap := hok.snapshot
  exact ⟨by omega, hok.key, hok.type, hok.size, fun heq => by omega⟩

theorem CacheInv.same {idx' : MemTagBitmapIndex} (h : CacheInv idx c) (hs : SameContents idx idx') :
    CacheInv idx' c := by
  intro e he hused
  have hok := h e (hs.cache ▸ he) hused
  refine ⟨hs.generation ▸ hok.snapshot, hok.key, hok.type, hok.size, fun heq => ?_⟩
  rw [hok.result (hs.generation ▸ heq), answers, answers, hs.maxRegionId]

theorem CacheInv.set (h : CacheInv idx c) (i : Nat) {e : QueryCacheEntry} (he : e.used = true → EntryOk idx c e)
    (counter : Nat) : CacheInv { idx with cache := idx.cache.set i e, cacheCounter := counter } c := by
  intro e' hmem hused
  have hok : EntryOk idx c e' := by
    rcases mem_or_eq_of_mem_set hmem with hold | rfl
    · exact h e' hold hused
    · exact he hused
  exact ⟨hok.snapshot, hok.key, hok.type, hok.size, hok.result⟩

theorem lookup_spec {q : MemTagQuery} {i : Nat} (h : idx.lookup q = some i) :
    idx.entry i ∈ idx.cache ∧ idx.hits q (idx.entry i) = true := by
  obtain ⟨hi, hhit, -⟩ := findIdx?_eq_some_iff_getElem.mp h
  have hentry : idx.entry i = idx.cache[i] := by
    rw [entry, getD_eq_getElem?_getD, getElem?_eq_getElem hi]
    rfl
  rw [hentry]
  exact ⟨getElem_mem hi, hhit⟩

theorem hits_spec {q : MemTagQuery} {e : QueryCacheEntry} (h : idx.hits q e = true) :
    e.used = true ∧ e.genSnapshot = idx.generation ∧ e.queryType = q.queryType ∧ e.tagKey = q.key := by
  simp only [hits, Bool.and_eq_true, decide_eq_true_eq] at h
  obtain ⟨⟨⟨⟨⟨hused, hgen⟩, -⟩, -⟩, htype⟩, hkey⟩ := h
  exact ⟨hused, hgen, htype, hkey⟩

theorem CacheInv.touch (h : CacheInv idx c) {q : MemTagQuery} {i : Nat} (hi : idx.lookup q = some i) :
    CacheInv (idx.touch i) c := by
  obtain ⟨hmem, hhit⟩ := lookup_spec hi
  have hok := h _ hmem (hits_spec hhit).1
  exact h.set i (e := { idx.entry i with lastUsed := (idx.cacheCounter + 1) % 2 ^ 64 })
    (fun _ => ⟨hok.snapshot, hok.key, hok.type, hok.size, hok.result⟩) _

theorem CacheInv.cacheStore (h : CacheInv idx c) {q : MemTagQuery} (hq : q.tagCount ≤ 64) (max : Nat) (al : Allocs) :
    CacheInv (idx.cacheStore q max ((idx.answers c q).take max) al) c := by
  unfold MemTagBitmapIndex.cacheStore
  have hcleared : QueryCacheEntry.cleared.used = true → EntryOk idx c .cleared := fun hused => by cases hused
  split
  · exact h.set _ hcleared _
  · split
    · exact h.set _ hcleared _
    · exact h.set _ (fun _ => ⟨le_rfl, rfl, rfl, hq, fun _ => rfl⟩) _

/-! ## Runs -/

/-- The index beside which region carries which tag. -/
structure TagIndexState where
  idx : MemTagBitmapIndex
  carries : RegionTags

/-- The calls on the index. -/
inductive TagIndexOp where
  | set (t : UInt16) (region : Nat) (al : Allocs)
  | clear (t : UInt16) (region : Nat)
  | removeRegion (region : Nat)
  | query (q : MemTagQuery) (max : Nat) (al : Allocs)

namespace TagIndexState

def init (tagCap regionCap : Nat) : TagIndexState := ⟨memTagBitmapInit tagCap regionCap, fun _ _ => false⟩

/-- A call, and what it means for the regions: a tag is set when the call says so. -/
def next (s : TagIndexState) : TagIndexOp → TagIndexState
  | .set t r al =>
    ⟨(s.idx.memTagBitmapSet t r al).2, if (s.idx.memTagBitmapSet t r al).1 then s.carries.set t r else s.carries⟩
  | .clear t r => ⟨s.idx.memTagBitmapClear t r, s.carries.clear t r⟩
  | .removeRegion r => ⟨s.idx.memTagBitmapRemoveRegion r, s.carries.remove r⟩
  | .query q max al => ⟨(s.idx.queryCore q max al).2, s.carries⟩

/-- The entry may answer the query: a mixed query has the lists of the one it was stored for, and the limit is that of
the entry or neither cuts the answer. -/
structure MayAnswer (s : TagIndexState) (q : MemTagQuery) (max : Nat) (e : QueryCacheEntry) : Prop where
  same : q.queryType = 2 → e.origin.SameTags q
  limit : e.limit = max ∨ (s.idx.answers s.carries q).length ≤ min e.limit max

/-- A query has at most 64 tags; one that hits the cache hits an entry that may answer it, and one that misses can be
computed. The generation does not wrap. -/
def Meets (s : TagIndexState) : TagIndexOp → Prop
  | .query q max al =>
    q.tagCount ≤ 64 ∧ (max ≠ 0 →
      match s.idx.lookup q with
      | some i => s.MayAnswer q max (s.idx.entry i)
      | none => Computable s.idx s.carries q al)
  | _ => s.idx.generation + 1 < 2 ^ 64

/-- One call. -/
def Step (s : TagIndexState) (op : TagIndexOp) (t : TagIndexState) : Prop := t = s.next op

/-- The bitmaps and the cache agree with which region carries which tag. -/
structure Inv (s : TagIndexState) : Prop where
  index : IndexInv s.idx s.carries
  cache : CacheInv s.idx s.carries

variable {s : TagIndexState} {q : MemTagQuery} {max : Nat} {al : Allocs}

theorem hit_result (h : s.Inv) (hq : q.tagCount ≤ 64) {i : Nat} (hi : s.idx.lookup q = some i)
    (hmay : s.MayAnswer q max (s.idx.entry i)) : (s.idx.entry i).resultIds = (s.idx.answers s.carries q).take max := by
  obtain ⟨hmem, hhit⟩ := lookup_spec hi
  obtain ⟨hused, hgen, htype, hkey⟩ := hits_spec hhit
  have hok := h.cache _ hmem hused
  have hsame : (s.idx.entry i).origin.SameTags q := by
    by_cases hmixed : q.queryType = 2
    · exact hmay.same hmixed
    · exact MemTagQuery.sameTags_of_key hok.size hq (hok.key ▸ hkey) (hok.type ▸ htype) hmixed
  rw [hok.result hgen, answers, hsame.matches, ← answers]
  rcases hmay.limit with hlim | hlen
  · rw [hlim]
  · rw [take_of_length_le (by omega), take_of_length_le (by omega)]

theorem query_spec (h : s.Inv) (hm : s.Meets (.query q max al)) :
    Answers s.carries q max (s.idx.queryCore q max al).1 ∧ (s.next (.query q max al)).Inv := by
  obtain ⟨hq, hm⟩ := hm
  unfold next queryCore
  by_cases hmax : max = 0
  · simp only [if_pos hmax]
    exact ⟨answers_of_take h.index q max (by simp [hmax]) rfl, h⟩
  simp only [if_neg hmax]
  have hm := hm hmax
  cases hi : s.idx.lookup q with
  | some i =>
    simp only [hi] at hm
    have hres := hit_result h hq hi hm
    refine ⟨answers_of_take h.index q max ?_ ?_, ?_, h.cache.touch hi⟩
    · simp only [hres, take_take, min_self]
    · simp [hres]
    · exact ⟨h.index.bitmap, h.index.absent, h.index.bound, h.index.width⟩
  | none =>
    simp only [hi] at hm
    have hne : ¬(s.idx.workspaceBits = 0 ∨ al.workspace = false) := by
      have := workspaceBits_gt h.index
      simp [hm.workspace]
      omega
    have hout := emitFromBitmap_eq (s.idx.compute q al).1 (s.idx.compute q al).2 max
    rw [compute_spec h.index hm] at hout
    unfold queryMiss
    simp only [if_neg hne, hout]
    refine ⟨answers_of_take h.index q max rfl rfl, ?_, h.cache.cacheStore hq max al⟩
    have hfields : ∀ result, ∃ es n, s.idx.cacheStore q max result al =
        { s.idx with cache := es, cacheCounter := n } := by
      intro result
      unfold cacheStore
      split
      · exact ⟨_, _, rfl⟩
      · split
        · exact ⟨_, _, rfl⟩
        · exact ⟨_, _, rfl⟩
    obtain ⟨es, n, he⟩ := hfields ((s.idx.answers s.carries q).take max)
    simp only [he]
    exact ⟨h.index.bitmap, h.index.absent, h.index.bound, h.index.width⟩

theorem next_inv (h : s.Inv) {op : TagIndexOp} (hm : s.Meets op) : (s.next op).Inv := by
  cases op with
  | set t r al =>
    simp only [next]
    rcases memTagBitmapSet_spec h.index t r al with ⟨hb, hi, hbump⟩ | ⟨hb, hi, hsame⟩
    · rw [if_pos hb]
      exact ⟨hi, h.cache.bumped hbump hm⟩
    · rw [if_neg (by simp [hb])]
      exact ⟨hi, h.cache.same hsame⟩
  | clear t r =>
    obtain ⟨hi, hbump | ⟨he, hc⟩⟩ := memTagBitmapClear_spec h.index t r
    · exact ⟨hi, h.cache.bumped hbump hm⟩
    · refine ⟨hi, ?_⟩
      simp only [next, he, hc]
      exact h.cache
  | removeRegion r =>
    obtain ⟨hi, hbump⟩ := memTagBitmapRemoveRegion_spec h.index r
    exact ⟨hi, h.cache.bumped hbump hm⟩
  | query q max al => exact (query_spec h hm).2

theorem init_inv (tagCap regionCap : Nat) : (init tagCap regionCap).Inv := by
  refine ⟨memTagBitmapInit_inv tagCap regionCap, fun e he hused => ?_⟩
  rw [(mem_replicate.mp he).2] at hused
  cases hused

end TagIndexState

open TagIndexState

/-- In every run of the index whose calls meet their condition, every query is answered by the first `max` regions that
match it, in increasing order. -/
theorem memtag_queries_exact {tagCap regionCap : Nat} {ops : List TagIndexOp} {s : TagIndexState}
    (run : Run Step Meets (init tagCap regionCap) ops s) {q : MemTagQuery} {max : Nat} {al : Allocs}
    (hm : s.Meets (.query q max al)) : Answers s.carries q max (s.idx.queryCore q max al).1 := by
  have hinv : s.Inv := run.invariant (fun s op t hc hs h => hs ▸ next_inv h hc) (init_inv tagCap regionCap)
  exact (query_spec hinv hm).1

/-- A bitmap for each of four tags, tag 1 set on the regions 3 and 5, and an and-query answered with room for two. -/
def twoRegions : List TagIndexOp := [.set 1 3 {}, .set 1 5 {}, .query (.and [1]) 2 {}]

/-- The next and-query for the same tag and the same room is answered from the cache with these two regions. -/
theorem memtag_queries_exact_two : ∃ s, Run Step Meets (init 4 8) twoRegions s ∧
    (∃ i, s.idx.lookup (.and [1]) = some i) ∧ Answers s.carries (.and [1]) 2 (s.idx.queryCore (.and [1]) 2 {}).1 := by
  have hmiss : ∀ s : TagIndexState, s.idx.lookup (.and [1]) = none → s.Meets (.query (.and [1]) 2 {}) := by
    intro s hs
    refine ⟨by decide, fun _ => ?_⟩
    rw [hs]
    exact ⟨rfl, fun h => absurd h (show ¬(0 : UInt8) = 2 by decide), fun h => h.elim⟩
  have hhit : ∀ s : TagIndexState, s.idx.lookup (.and [1]) = some 0 → (s.idx.entry 0).limit = 2 →
      s.Meets (.query (.and [1]) 2 {}) := by
    intro s hs hlim
    refine ⟨by decide, fun _ => ?_⟩
    rw [hs]
    exact ⟨fun h => absurd h (show ¬(0 : UInt8) = 2 by decide), .inl hlim⟩
  have run : Run Step Meets (init 4 8) twoRegions _ :=
    .cons (show _ < _ by decide +kernel) rfl (.cons (show _ < _ by decide +kernel) rfl
      (.cons (hmiss _ (by decide +kernel)) rfl (.nil _)))
  exact ⟨_, run, ⟨0, by decide +kernel⟩, memtag_queries_exact run (hhit _ (by decide +kernel) (by decide +kernel))⟩

/-- The same and-query with room for one region is told that two were found. -/
theorem cached_count_past_limit :
    ∃ s, Run Step (fun _ _ => True) (init 4 8) twoRegions s ∧ (s.idx.queryCore (.and [1]) 1 {}).1 = ⟨2, [3]⟩ ∧
    ¬Answers s.carries (.and [1]) 1 (s.idx.queryCore (.and [1]) 1 {}).1 := by
  have run : Run Step (fun _ _ => True) (init 4 8) twoRegions _ :=
    .cons trivial rfl (.cons trivial rfl (.cons trivial rfl (.nil _)))
  have hreply : ((((((init 4 8).next (.set 1 3 {})).next (.set 1 5 {})).next (.query (.and [1]) 2 {})).idx.queryCore
      (.and [1]) 1 {}).1) = ⟨2, [3]⟩ := by decide +kernel
  refine ⟨_, run, hreply, ?_⟩
  rw [hreply]
  rintro ⟨hcount, -⟩
  exact absurd hcount (by decide)

end BoxOS.Memory
