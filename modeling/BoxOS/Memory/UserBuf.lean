import BoxOS.Memory.PageTable

/-!
# User memory

`vmm_translate_user_addr`, the loops of `vmm_user_buf_in_into` and `vmm_user_buf_commit_out`, and `crate_read`,
`crate_write` and `crate_out_commit` above them, for a process with a cabin; the kernel's own pointers are not null.

- `userBufLoop_spec`: a loop handles the bytes before the first page that is not there for it.
- `Readable` and `Writable` say what the process itself can do at an address, by the leaf of the address; the tables
  above a leaf are made with all rights.
- `user_memory_rights`: where each function keeps to these rights. It does not look at the writable flag, at the
  canonical form of the address, or into leaves of 2 MiB and 1 GiB (`commit_out_writes_read_only`).
-/

namespace BoxOS.Memory

open List

/-- What the functions return. -/
inductive BufResult where
  | ok
  | invalidArgument
  | invalidAddress
  deriving DecidableEq

/-- `vmm_translate_user_addr`: the physical address of bytes within one page. -/
def vmmTranslateUserAddr (m : PageTables) (ctx : VmmContext) (va size : Nat) : Option Nat :=
  if size = 0 then none
  else
    let pageStart := va / vmmPageSize
    let pageEnd := (va + size - 1) % 2 ^ 64 / vmmPageSize
    if pageStart ≠ pageEnd then none
    else
      match vmmGetPteNoalloc m ctx va with
      | none => none
      | some s => if (m s).present && (m s).user then some (ctx.pteToPhys (m s) + va % vmmPageSize) else none

/-- The loop over the pages; `copy i p` is what is done for the byte `i` at the physical address `p`. -/
def userBufLoop {β : Type} (m : PageTables) (ctx : VmmContext) (copy : Nat → Nat → β) (va size copied : Nat)
    (out : List β) : BufResult × List β :=
  if copied < size then
    let offInPage := (va + copied) % 2 ^ 64 % vmmPageSize
    let thisPage := min (vmmPageSize - offInPage) (size - copied)
    match vmmTranslateUserAddr m ctx ((va + copied) % 2 ^ 64) thisPage with
    | none => (.invalidAddress, out)
    | some p =>
      userBufLoop m ctx copy va size (copied + thisPage)
        (out ++ (List.range thisPage).map fun k => copy (copied + k) (p + k))
  else (.ok, out)
termination_by size - copied
decreasing_by
  have : (va + copied) % 2 ^ 64 % vmmPageSize < vmmPageSize := Nat.mod_lt _ (by decide)
  omega

/-- `vmm_user_buf_in_into`: the bytes that it has put into the buffer. -/
def vmmUserBufInInto (m : PageTables) (ctx : VmmContext) (mem : Nat → UInt8) (va size : Nat) : BufResult × List UInt8 :=
  if size = 0 then (.invalidArgument, []) else userBufLoop m ctx (fun _ p => mem p) va size 0 []

/-- `vmm_user_buf_commit_out`: the bytes that it has written, in order, each with its physical address. -/
def vmmUserBufCommitOut (m : PageTables) (ctx : VmmContext) (kbuf : Nat → UInt8) (va size : Nat) :
    BufResult × List (Nat × UInt8) :=
  if size = 0 then (.invalidArgument, []) else userBufLoop m ctx (fun i p => (p, kbuf i)) va size 0 []

structure Crate where
  addr : Nat
  size : Nat
  capacity : Nat

def crateRead (m : PageTables) (ctx : VmmContext) (mem : Nat → UInt8) (c : Crate) (n : Nat) : BufResult × List UInt8 :=
  if n > c.size then (.invalidArgument, [])
  else if n = 0 then (.ok, [])
  else vmmUserBufInInto m ctx mem c.addr n

/-- `crate_write`: also the crate with its new size. -/
def crateWrite (m : PageTables) (ctx : VmmContext) (src : Nat → UInt8) (c : Crate) (n : Nat) :
    (BufResult × List (Nat × UInt8)) × Crate :=
  if n > c.capacity then ((.invalidArgument, []), c)
  else if n = 0 then ((.ok, []), { c with size := 0 })
  else
    let r := vmmUserBufCommitOut m ctx src c.addr n
    (r, if r.1 = .ok then { c with size := n } else c)

def crateOutCommit (m : PageTables) (ctx : VmmContext) (kbuf : Nat → UInt8) (out : Crate) (bytes : Nat) :
    BufResult × List (Nat × UInt8) :=
  if bytes = 0 then (.ok, []) else vmmUserBufCommitOut m ctx kbuf out.addr bytes

/-! ## What the process itself can do -/

/-- An address that the processor translates. -/
def VmmContext.Canonical (ctx : VmmContext) (a : Nat) : Prop :=
  let half := if ctx.levels5 then 2 ^ 56 else 2 ^ 47
  a < half ∨ 2 ^ 64 - half ≤ a ∧ a < 2 ^ 64

/-- The leaf of the address is present and USER. -/
def Readable (m : PageTables) (ctx : VmmContext) (a : Nat) : Prop :=
  ctx.Canonical a ∧ ∃ s level, vmmGetLeafPte m ctx a = some (s, level) ∧ (m s).present = true ∧ (m s).user = true

/-- It is also WRITABLE. -/
def Writable (m : PageTables) (ctx : VmmContext) (a : Nat) : Prop :=
  Readable m ctx a ∧ ∀ s level, vmmGetLeafPte m ctx a = some (s, level) → (m s).writable = true

/-- The physical address. -/
def leafPhys (m : PageTables) (ctx : VmmContext) (a : Nat) : Nat :=
  match vmmGetLeafPte m ctx a with
  | none => 0
  | some (s, level) => ctx.pteToPhys (m s) / leafSize level * leafSize level + a % leafSize level

/-- The leaf of the address, if there is one, is of 4 KiB. -/
def Small (m : PageTables) (ctx : VmmContext) (a : Nat) : Prop :=
  ∀ s level, vmmGetLeafPte m ctx a = some (s, level) → level = 1

/-- What the loops see of an address: a present and USER leaf of 4 KiB. -/
def Reached (m : PageTables) (ctx : VmmContext) (a : Nat) : Prop :=
  ∃ s, vmmGetPteNoalloc m ctx (a % 2 ^ 64) = some s ∧ (m s).present = true ∧ (m s).user = true

/-- The physical address that the loops take for it. -/
def reachedPhys (m : PageTables) (ctx : VmmContext) (a : Nat) : Nat :=
  match vmmGetPteNoalloc m ctx (a % 2 ^ 64) with
  | none => 0
  | some s => ctx.pteToPhys (m s) + a % vmmPageSize

section Rights

variable {m : PageTables} {ctx : VmmContext} {a : Nat}

theorem canonical_lt (h : ctx.Canonical a) : a < 2 ^ 64 := by
  unfold VmmContext.Canonical at h
  split at h <;> omega

theorem reached_readable (h : Reached m ctx a) (hc : ctx.Canonical a) : Readable m ctx a := by
  obtain ⟨s, hs, hp, hu⟩ := h
  rw [Nat.mod_eq_of_lt (canonical_lt hc)] at hs
  exact ⟨hc, s, 1, (getPte_eq_leaf m ctx a s).mp hs, hp, hu⟩

theorem readable_reached (h : Readable m ctx a) (hsmall : Small m ctx a) : Reached m ctx a := by
  obtain ⟨hc, s, level, hs, hp, hu⟩ := h
  have hone := hsmall s level hs
  subst hone
  refine ⟨s, ?_, hp, hu⟩
  rw [Nat.mod_eq_of_lt (canonical_lt hc)]
  exact (getPte_eq_leaf m ctx a s).mpr hs

theorem reached_small (h : Reached m ctx a) (ha : a < 2 ^ 64) : Small m ctx a := by
  obtain ⟨s, hs, -, -⟩ := h
  rw [Nat.mod_eq_of_lt ha] at hs
  intro s' level hleaf
  rw [(getPte_eq_leaf m ctx a s).mp hs] at hleaf
  cases hleaf
  rfl

theorem reachedPhys_eq (h : Reached m ctx a) (ha : a < 2 ^ 64) : reachedPhys m ctx a = leafPhys m ctx a := by
  obtain ⟨s, hs, -, -⟩ := h
  have hmod := ctx.pteToPhys_mod (m s)
  unfold reachedPhys leafPhys
  rw [hs]
  rw [Nat.mod_eq_of_lt ha] at hs
  rw [(getPte_eq_leaf m ctx a s).mp hs]
  have hsize : leafSize 1 = vmmPageSize := by decide
  simp only [hsize]
  rw [Nat.div_mul_cancel (Nat.dvd_of_mod_eq_zero hmod)]

end Rights

/-! ## The loop -/

section Loop

variable {m : PageTables} {ctx : VmmContext} {a len p k : Nat}

theorem translate_some (hlen : a % vmmPageSize + len ≤ vmmPageSize) (h : vmmTranslateUserAddr m ctx a len = some p)
    (hk : k < len) : ∃ s, vmmGetPteNoalloc m ctx (a + k) = some s ∧ (m s).present = true ∧ (m s).user = true ∧
    ctx.pteToPhys (m s) + (a + k) % vmmPageSize = p + k := by
  have hin : a % vmmPageSize + k < vmmPageSize := by omega
  have hoff : (a + k) % vmmPageSize = a % vmmPageSize + k := by
    unfold vmmPageSize at hin ⊢
    omega
  unfold vmmTranslateUserAddr at h
  split at h
  · cases h
  simp only at h
  split at h
  · cases h
  rw [getPte_add hin]
  split at h
  · cases h
  rename_i s hs
  split at h
  · rename_i hflags
    rw [Bool.and_eq_true] at hflags
    cases h
    exact ⟨s, hs, hflags.1, hflags.2, by omega⟩
  · cases h

theorem translate_none (ha : a < 2 ^ 64) (hpos : 0 < len) (hlen : a % vmmPageSize + len ≤ vmmPageSize)
    (h : vmmTranslateUserAddr m ctx a len = none) :
    ¬∃ s, vmmGetPteNoalloc m ctx a = some s ∧ (m s).present = true ∧ (m s).user = true := by
  rintro ⟨s, hs, hp, hu⟩
  have hend : a / vmmPageSize = (a + len - 1) % 2 ^ 64 / vmmPageSize := by
    unfold vmmPageSize at hlen ⊢
    omega
  unfold vmmTranslateUserAddr at h
  rw [if_neg (by omega)] at h
  rw [if_neg (not_not.mpr hend), hs] at h
  simp [hp, hu] at h

theorem map_range'_add {β : Type} (f : Nat → β) (start n l : Nat) :
    (List.range' start (n + l)).map f =
      (List.range n).map (fun k => f (start + k)) ++ (List.range' (start + n) l).map f := by
  rw [← range'_append_1, map_append, range_eq_range', range'_eq_map_range]
  simp [range_eq_range', Function.comp_def]

/-- The loop handles the bytes up to the first whose page is not there for it. -/
theorem userBufLoop_spec {β : Type} (m : PageTables) (ctx : VmmContext) (copy : Nat → Nat → β) (va size copied : Nat)
    (out : List β) (hle : copied ≤ size) :
    ∃ n, copied ≤ n ∧ n ≤ size ∧ (∀ i, copied ≤ i → i < n → Reached m ctx (va + i)) ∧
      (userBufLoop m ctx copy va size copied out).2 =
        out ++ (List.range' copied (n - copied)).map (fun i => copy i (reachedPhys m ctx (va + i))) ∧
      ((userBufLoop m ctx copy va size copied out).1 = .ok ∧ n = size ∨
        (userBufLoop m ctx copy va size copied out).1 = .invalidAddress ∧ n < size ∧ ¬Reached m ctx (va + n)) := by
  fun_induction userBufLoop m ctx copy va size copied out with
  | case1 copied out hlt off this htr =>
    -- the page of the next byte is not there
    have hthis : 0 < this := by
      have : off < vmmPageSize := Nat.mod_lt _ (by decide)
      omega
    refine ⟨copied, le_rfl, hle, fun i h1 h2 => by omega, by simp, .inr ⟨rfl, hlt, ?_⟩⟩
    exact translate_none (Nat.mod_lt _ (by decide)) hthis (by omega) htr
  | case2 copied out hlt off this p htr ih =>
    have hoff : off < vmmPageSize := Nat.mod_lt _ (by decide)
    obtain ⟨n, hn, hsize, hall, hout, hres⟩ := ih (by omega)
    have hchunk : ∀ k < this, Reached m ctx (va + (copied + k)) ∧ reachedPhys m ctx (va + (copied + k)) = p + k := by
      intro k hk
      obtain ⟨s, hs, hp, hu, hphys⟩ := translate_some (by omega) htr hk
      have haddr : (va + (copied + k)) % 2 ^ 64 = (va + copied) % 2 ^ 64 + k := by
        have : (va + copied) % 2 ^ 64 % vmmPageSize + k < vmmPageSize := by omega
        unfold vmmPageSize at this
        omega
      have hmod : (va + (copied + k)) % vmmPageSize = ((va + copied) % 2 ^ 64 + k) % vmmPageSize := by
        rw [← haddr]
        unfold vmmPageSize
        omega
      refine ⟨⟨s, by rw [haddr]; exact hs, hp, hu⟩, ?_⟩
      unfold reachedPhys
      rw [haddr, hs]
      rw [hmod]
      exact hphys
    refine ⟨n, by omega, hsize, fun i h1 h2 => ?_, ?_, hres⟩
    · by_cases hi : i < copied + this
      · have := (hchunk (i - copied) (by omega)).1
        rwa [Nat.add_sub_cancel' h1] at this
      · exact hall i (by omega) h2
    · have hmap : (List.range this).map (fun k => copy (copied + k) (p + k)) =
          (List.range this).map (fun k => copy (copied + k) (reachedPhys m ctx (va + (copied + k)))) := by
        apply map_congr_left
        intro k hk
        rw [(hchunk k (mem_range.mp hk)).2]
      rw [hout, hmap, append_assoc, show n - copied = this + (n - (copied + this)) by omega,
        map_range'_add (fun i => copy i (reachedPhys m ctx (va + i)))]
  | case3 copied out hge =>
    exact ⟨copied, le_rfl, hle, fun i h1 h2 => by omega, by simp, .inl ⟨rfl, by omega⟩⟩

end Loop

/-! ## The rights -/

/-- The answer of a read: it is OK exactly when the process can read every byte, and then these are the bytes. -/
def ReadsAs (m : PageTables) (ctx : VmmContext) (mem : Nat → UInt8) (va size : Nat) (r : BufResult × List UInt8) :
    Prop :=
  (r.1 = .ok ↔ ∀ i < size, Readable m ctx (va + i)) ∧
    (r.1 = .ok → r.2 = (List.range size).map fun i => mem (leafPhys m ctx (va + i)))

/-- The answer of a write: it is OK exactly when the process can write every byte, and then it has written them; and no
byte is written that the process cannot write. -/
def WritesAs (m : PageTables) (ctx : VmmContext) (src : Nat → UInt8) (va size : Nat)
    (r : BufResult × List (Nat × UInt8)) : Prop :=
  (r.1 = .ok ↔ ∀ i < size, Writable m ctx (va + i)) ∧
    (r.1 = .ok → r.2 = (List.range size).map fun i => (leafPhys m ctx (va + i), src i)) ∧
    ∀ i < r.2.length, Writable m ctx (va + i)

/-- Where a read keeps to the rights: what it can reach is canonical, and what can be read has small leaves. -/
def ReadCondition (m : PageTables) (ctx : VmmContext) (va size : Nat) : Prop :=
  0 < size ∧ ((∀ i < size, Reached m ctx (va + i)) → ∀ i < size, ctx.Canonical (va + i)) ∧
    ((∀ i < size, Readable m ctx (va + i)) → ∀ i < size, Small m ctx (va + i))

/-- Where a write keeps to the rights: what it comes to is writable, and what can be written has small leaves. -/
def WriteCondition (m : PageTables) (ctx : VmmContext) (va size : Nat) : Prop :=
  0 < size ∧ (∀ i < size, (∀ j ≤ i, Reached m ctx (va + j)) → Writable m ctx (va + i)) ∧
    ((∀ i < size, Writable m ctx (va + i)) → ∀ i < size, Small m ctx (va + i))

section Meets

variable {m : PageTables} {ctx : VmmContext} {va size : Nat}

theorem userBufLoop_zero {β : Type} (m : PageTables) (ctx : VmmContext) (copy : Nat → Nat → β) (va size : Nat) :
    ∃ n ≤ size, (∀ i < n, Reached m ctx (va + i)) ∧
      (userBufLoop m ctx copy va size 0 []).2 = (List.range n).map (fun i => copy i (reachedPhys m ctx (va + i))) ∧
      ((userBufLoop m ctx copy va size 0 []).1 = .ok ↔ n = size) ∧ (n < size → ¬Reached m ctx (va + n)) := by
  obtain ⟨n, -, hsize, hall, hout, hres⟩ := userBufLoop_spec m ctx copy va size 0 [] (Nat.zero_le _)
  refine ⟨n, hsize, fun i hi => hall i (Nat.zero_le _) hi, ?_, ?_, ?_⟩
  · rw [hout, nil_append, Nat.sub_zero, range_eq_range']
  · rcases hres with ⟨hok, hn⟩ | ⟨hbad, hlt, -⟩
    · exact ⟨fun _ => hn, fun _ => hok⟩
    · rw [hbad]
      exact ⟨nofun, fun h => by omega⟩
  · intro hlt
    rcases hres with ⟨-, hn⟩ | ⟨-, -, hnot⟩
    · omega
    · exact hnot

theorem reached_all {n : Nat} (hn : n ≤ size) (hall : ∀ i < n, Reached m ctx (va + i))
    (hstop : n < size → ¬Reached m ctx (va + n)) : n = size ↔ ∀ i < size, Reached m ctx (va + i) := by
  constructor
  · rintro rfl
    exact hall
  · intro h
    by_contra hne
    have hlt : n < size := by omega
    exact hstop hlt (h n hlt)

theorem in_into_meets (m : PageTables) (ctx : VmmContext) (mem : Nat → UInt8) (va size : Nat) :
    ReadsAs m ctx mem va size (vmmUserBufInInto m ctx mem va size) ↔ ReadCondition m ctx va size := by
  unfold vmmUserBufInInto
  split
  · rename_i hzero
    subst hzero
    refine ⟨fun h => ?_, fun h => absurd h.1 (Nat.lt_irrefl 0)⟩
    cases h.1.mpr fun i hi => absurd hi (Nat.not_lt_zero i)
  rename_i hpos
  obtain ⟨n, hn, hall, hout, hok, hstop⟩ := userBufLoop_zero m ctx (fun _ p => mem p) va size
  have hend := reached_all hn hall hstop
  constructor
  · rintro ⟨hiff, -⟩
    refine ⟨Nat.pos_of_ne_zero hpos, fun h i hi => ?_, fun h i hi => ?_⟩
    · exact (hiff.mp (hok.mpr (hend.mpr h)) i hi).1
    · exact reached_small (hend.mp (hok.mp (hiff.mpr h)) i hi) (canonical_lt (h i hi).1)
  · rintro ⟨-, hcanon, hsmall⟩
    refine ⟨⟨fun h i hi => ?_, fun h => ?_⟩, fun h => ?_⟩
    · have hreach := hend.mp (hok.mp h)
      exact reached_readable (hreach i hi) (hcanon hreach i hi)
    · exact hok.mpr (hend.mpr fun i hi => readable_reached (h i hi) (hsmall h i hi))
    · have hreach := hend.mp (hok.mp h)
      rw [hout, hok.mp h]
      apply map_congr_left
      intro i hi
      have hi := mem_range.mp hi
      rw [reachedPhys_eq (hreach i hi) (canonical_lt (hcanon hreach i hi))]

theorem commit_out_meets (m : PageTables) (ctx : VmmContext) (src : Nat → UInt8) (va size : Nat) :
    WritesAs m ctx src va size (vmmUserBufCommitOut m ctx src va size) ↔ WriteCondition m ctx va size := by
  unfold vmmUserBufCommitOut
  split
  · rename_i hzero
    subst hzero
    refine ⟨fun h => ?_, fun h => absurd h.1 (Nat.lt_irrefl 0)⟩
    cases h.1.mpr fun i hi => absurd hi (Nat.not_lt_zero i)
  rename_i hpos
  obtain ⟨n, hn, hall, hout, hok, hstop⟩ := userBufLoop_zero m ctx (fun i p => (p, src i)) va size
  have hend := reached_all hn hall hstop
  have hlen : (userBufLoop m ctx (fun i p => (p, src i)) va size 0 []).2.length = n := by rw [hout]; simp
  constructor
  · rintro ⟨hiff, -, honly⟩
    refine ⟨Nat.pos_of_ne_zero hpos, fun i hi hpre => ?_, fun h i hi => ?_⟩
    · -- the loop has come past this byte
      have hin : i < n := by
        by_contra hge
        exact hstop (by omega) (hpre n (by omega))
      exact honly i (hlen ▸ hin)
    · exact reached_small (hend.mp (hok.mp (hiff.mpr h)) i hi) (canonical_lt (h i hi).1.1)
  · rintro ⟨-, hwrite, hsmall⟩
    have hbefore : ∀ i < n, Writable m ctx (va + i) := fun i hi =>
      hwrite i (by omega) fun j hj => hall j (by omega)
    refine ⟨⟨fun h i hi => ?_, fun h => ?_⟩, fun h => ?_, fun i hi => hbefore i (hlen ▸ hi)⟩
    · exact hbefore i (hok.mp h ▸ hi)
    · exact hok.mpr (hend.mpr fun i hi => readable_reached (h i hi).1 (hsmall h i hi))
    · have hreach := hend.mp (hok.mp h)
      rw [hout, hok.mp h]
      apply map_congr_left
      intro i hi
      have hi := mem_range.mp hi
      rw [reachedPhys_eq (hreach i hi) (canonical_lt (hbefore i (hok.mp h ▸ hi)).1.1)]

theorem refused_read (m : PageTables) (ctx : VmmContext) (mem : Nat → UInt8) (va size : Nat) :
    ReadsAs m ctx mem va size (.invalidArgument, []) ↔ ¬∀ i < size, Readable m ctx (va + i) := by
  refine ⟨fun h hall => ?_, fun h => ⟨⟨nofun, fun hall => absurd hall h⟩, nofun⟩⟩
  cases h.1.mpr hall

theorem refused_write (m : PageTables) (ctx : VmmContext) (src : Nat → UInt8) (va size : Nat) :
    WritesAs m ctx src va size (.invalidArgument, []) ↔ ¬∀ i < size, Writable m ctx (va + i) := by
  refine ⟨fun h hall => ?_, fun h => ⟨⟨nofun, fun hall => absurd hall h⟩, nofun,
    fun i hi => absurd hi (Nat.not_lt_zero i)⟩⟩
  cases h.1.mpr hall

theorem empty_read (m : PageTables) (ctx : VmmContext) (mem : Nat → UInt8) (va : Nat) :
    ReadsAs m ctx mem va 0 (.ok, []) :=
  ⟨⟨fun _ i hi => absurd hi (Nat.not_lt_zero i), fun _ => rfl⟩, fun _ => rfl⟩

theorem empty_write (m : PageTables) (ctx : VmmContext) (src : Nat → UInt8) (va : Nat) :
    WritesAs m ctx src va 0 (.ok, []) :=
  ⟨⟨fun _ i hi => absurd hi (Nat.not_lt_zero i), fun _ => rfl⟩, fun _ => rfl, fun i hi => absurd hi (Nat.not_lt_zero i)⟩

end Meets

/-- The kernel reads and writes with the rights of the process exactly where the conditions hold; for a crate, where the
request is not refused for its size. -/
theorem user_memory_rights (m : PageTables) (ctx : VmmContext) (mem src : Nat → UInt8) (va size : Nat) (c : Crate)
    (n : Nat) :
    (ReadsAs m ctx mem va size (vmmUserBufInInto m ctx mem va size) ↔ ReadCondition m ctx va size) ∧
    (WritesAs m ctx src va size (vmmUserBufCommitOut m ctx src va size) ↔ WriteCondition m ctx va size) ∧
    (ReadsAs m ctx mem c.addr n (crateRead m ctx mem c n) ↔
      if n ≤ c.size then n = 0 ∨ ReadCondition m ctx c.addr n else ¬∀ i < n, Readable m ctx (c.addr + i)) ∧
    (WritesAs m ctx src c.addr n (crateWrite m ctx src c n).1 ↔
      if n ≤ c.capacity then n = 0 ∨ WriteCondition m ctx c.addr n else ¬∀ i < n, Writable m ctx (c.addr + i)) ∧
    (WritesAs m ctx src c.addr n (crateOutCommit m ctx src c n) ↔ n = 0 ∨ WriteCondition m ctx c.addr n) := by
  refine ⟨in_into_meets m ctx mem va size, commit_out_meets m ctx src va size, ?_, ?_, ?_⟩
  · unfold crateRead
    by_cases hsize : n ≤ c.size
    · rw [if_neg (by omega), if_pos hsize]
      by_cases hzero : n = 0
      · subst hzero
        exact ⟨fun _ => .inl rfl, fun _ => empty_read m ctx mem c.addr⟩
      · rw [if_neg hzero, in_into_meets]
        exact ⟨.inr, fun h => h.resolve_left hzero⟩
    · rw [if_pos (by omega), if_neg hsize]
      exact refused_read m ctx mem c.addr n
  · unfold crateWrite
    by_cases hsize : n ≤ c.capacity
    · rw [if_neg (by omega), if_pos hsize]
      by_cases hzero : n = 0
      · subst hzero
        exact ⟨fun _ => .inl rfl, fun _ => empty_write m ctx src c.addr⟩
      rw [if_neg hzero]
      rw [commit_out_meets]
      exact ⟨.inr, fun h => h.resolve_left hzero⟩
    · rw [if_pos (by omega), if_neg hsize]
      exact refused_write m ctx src c.addr n
  · unfold crateOutCommit
    by_cases hzero : n = 0
    · subst hzero
      exact ⟨fun _ => .inl rfl, fun _ => empty_write m ctx src c.addr⟩
    · rw [if_neg hzero, commit_out_meets]
      exact ⟨.inr, fun h => h.resolve_left hzero⟩

/-- A process with one page, at `CABIN_CPU_CAPS_ADDR` (0x7FFFF000): present and USER, and not WRITABLE. -/
def readOnlyPage : PageTables := fun s =>
  if s = ⟨0x10000, 0⟩ then 0x11007
  else if s = ⟨0x11000, 1⟩ then 0x12007
  else if s = ⟨0x12000, 511⟩ then 0x13007
  else if s = ⟨0x13000, 511⟩ then 0x20005
  else 0

/-- Four levels, and addresses of 36 bits. -/
def fourLevels : VmmContext := ⟨0x10000, false, 0x0000000FFFFFF000, by decide⟩

/-- A byte is written to the page that the process can only read, and the answer is OK. -/
theorem commit_out_writes_read_only :
    vmmUserBufCommitOut readOnlyPage fourLevels (fun _ => 7) 0x7FFFF008 1 = (.ok, [(0x20008, 7)]) ∧
    ¬Writable readOnlyPage fourLevels 0x7FFFF008 := by
  constructor
  · have htr : vmmTranslateUserAddr readOnlyPage fourLevels 0x7FFFF008 1 = some 0x20008 := by decide +kernel
    unfold vmmUserBufCommitOut
    rw [if_neg (by decide), userBufLoop, if_pos (by decide)]
    simp only [Nat.add_zero, Nat.sub_zero]
    have hthis : min (vmmPageSize - 0x7FFFF008 % 2 ^ 64 % vmmPageSize) 1 = 1 := by decide
    rw [hthis, show 0x7FFFF008 % 2 ^ 64 = 0x7FFFF008 by decide, htr]
    simp only
    rw [userBufLoop, if_neg (by decide)]
    rfl
  · have hleaf : vmmGetLeafPte readOnlyPage fourLevels 0x7FFFF008 = some (⟨0x13000, 511⟩, 1) := by decide +kernel
    intro h
    have hflag := h.2 _ _ hleaf
    have hclear : (readOnlyPage ⟨0x13000, 511⟩).writable = false := by decide +kernel
    rw [hclear] at hflag
    cases hflag

end BoxOS.Memory
