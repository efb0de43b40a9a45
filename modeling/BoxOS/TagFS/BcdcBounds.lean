import BoxOS.TagFS.BcdcRoundTrip
import Mathlib.Algebra.GroupWithZero.Nat

/-! # What the block decoder touches

`BcdcDecompress` on the bytes of a frame, with every byte it reads and writes. The decoders behind it stay inside what
they are given. The sizes in the header are not compared with the size of the frame: a frame that promises more data
than it has is read behind its end (`bcdcDecompress_safe`). -/

namespace BoxOS.TagFS

open List

def bcdcHeaderSize : Nat := 24

/-- An access: a byte of the input, a byte of the output written, one read back while `written` are there, and a byte of
a dictionary of `size` bytes. -/
inductive Access where
  | input (i : Nat)
  | write (i : Nat)
  | output (i written : Nat)
  | dict (i size : Nat)
  deriving DecidableEq, Repr

/-- The access is inside an input and an output of these sizes. -/
def Access.Ok (inputSize osize : Nat) : Access → Prop
  | .input i => i < inputSize
  | .write i => i < osize
  | .output i written => i < written
  | .dict i size => i < size

def AllOk (inputSize osize : Nat) (l : List Access) : Prop :=
  ∀ a ∈ l, a.Ok inputSize osize

/-! ## The decoders -/

/-- Copy `n` bytes from `offset` back. -/
def copyBackTrace (offset osize : Nat) : Nat → List UInt8 → List Access × List UInt8
  | 0, out => ([], out)
  | n + 1, out =>
    if out.length < osize then
      let r := copyBackTrace offset osize n (out ++ [byteAt out (out.length - offset)])
      (.output (out.length - offset) out.length :: .write out.length :: r.1, r.2)
    else ([], out)

/-- Copy `n` bytes of the dictionary from `pos` on, a number of 16 bits, and behind its end from the output. -/
def copyDictTrace (d : List UInt8) (osize : Nat) : Nat → Nat → List UInt8 → List Access × Option (List UInt8)
  | 0, _, out => ([], some out)
  | n + 1, pos, out =>
    if out.length < osize then
      let src := pos % 2 ^ 16
      if src < d.length then
        let r := copyDictTrace d osize n (pos + 1) (out ++ [byteAt d src])
        (.dict src d.length :: .write out.length :: r.1, r.2)
      else if out.length ≤ src - d.length then ([], none)
      else
        let r := copyDictTrace d osize n (pos + 1) (out ++ [byteAt out (src - d.length)])
        (.output (src - d.length) out.length :: .write out.length :: r.1, r.2)
    else ([], some out)

/-- A match of `BcdcLZ_Decompress`. -/
def matchTrace (dict : Option (List UInt8)) (osize len offset : Nat) (out : List UInt8) :
    List Access × Option (List UInt8) :=
  if offset = 0 then ([], none)
  else if out.length < offset then
    match dict with
    | none => ([], none)
    | some d =>
      if d.length = 0 ∨ d.length < offset - out.length then ([], none)
      else copyDictTrace d osize len (d.length - (offset - out.length)) out
  else
    let r := copyBackTrace offset osize len out
    (r.1, some r.2)

/-- The loop of `BcdcLZ_Decompress`; the data are the `csize` bytes of `mem` from `base` on. -/
def lzTrace (mem : Nat → UInt8) (base csize osize : Nat) (dict : Option (List UInt8)) (inPos : Nat) (out : List UInt8) :
    List Access × Option (List UInt8) :=
  if inPos < csize ∧ out.length < osize then
    let token := mem (base + inPos)
    if token &&& 0x80 ≠ 0 then
      if csize < inPos + 3 then ([.input (base + inPos)], none)
      else
        let lo := mem (base + (inPos + 1))
        let byte2 := mem (base + (inPos + 2))
        let reads := [.input (base + inPos), .input (base + (inPos + 1)), .input (base + (inPos + 2))]
        match matchTrace dict osize (matchLen token byte2) (matchOffset lo byte2) out with
        | (copy, none) => (reads ++ copy, none)
        | (copy, some out') =>
          let r := lzTrace mem base csize osize dict (inPos + 3) out'
          (reads ++ copy ++ r.1, r.2)
    else
      let r := lzTrace mem base csize osize dict (inPos + 1) (out ++ [token])
      (.input (base + inPos) :: .write out.length :: r.1, r.2)
  else ([], some out)
termination_by csize - inPos

/-- Write `n` copies of a byte. -/
def fillTrace (b : UInt8) (osize : Nat) : Nat → List UInt8 → List Access × List UInt8
  | 0, out => ([], out)
  | n + 1, out =>
    if out.length < osize then
      let r := fillTrace b osize n (out ++ [b])
      (.write out.length :: r.1, r.2)
    else ([], out)

/-- The loop of `BcdcRLE_Decompress`. -/
def rleTrace (mem : Nat → UInt8) (base csize osize : Nat) (inPos : Nat) (out : List UInt8) :
    List Access × Option (List UInt8) :=
  if inPos < csize ∧ out.length < osize then
    let byte := mem (base + inPos)
    if byte = bcdcRleEscape then
      if csize ≤ inPos + 1 then ([.input (base + inPos)], none)
      else
        let runByte := mem (base + (inPos + 1))
        let reads := [.input (base + inPos), .input (base + (inPos + 1))]
        if runByte = bcdcRleEscape then
          let r := rleTrace mem base csize osize (inPos + 2) (out ++ [bcdcRleEscape])
          (reads ++ .write out.length :: r.1, r.2)
        else if csize ≤ inPos + 2 then (reads, none)
        else
          let copy := fillTrace runByte osize (mem (base + (inPos + 2))).toNat out
          let r := rleTrace mem base csize osize (inPos + 3) copy.2
          (reads ++ .input (base + (inPos + 2)) :: copy.1 ++ r.1, r.2)
    else
      let r := rleTrace mem base csize osize (inPos + 1) (out ++ [byte])
      (.input (base + inPos) :: .write out.length :: r.1, r.2)
  else ([], some out)
termination_by csize - inPos

/-! ## The frame -/

/-- A little-endian number of `n` bytes. -/
def leAt (mem : Nat → UInt8) : Nat → Nat → Nat
  | 0, _ => 0
  | n + 1, i => (mem i).toNat + 256 * leAt mem n (i + 1)

/-- The accesses to `n` bytes of the input from `i` on. -/
def readInput (i n : Nat) : List Access :=
  (List.range n).map fun k => .input (i + k)

/-- `BcdcDecompress` on `inputSize` bytes, with the active dictionary: what it touches and the output. -/
def bcdcDecompressTrace (initialized : Bool) (mem : Nat → UInt8) (inputSize : Nat) (dict : Option (List UInt8)) :
    List Access × Option (List UInt8) :=
  if initialized = false ∨ inputSize < bcdcHeaderSize then ([], none)
  else if leAt mem 4 0 ≠ bcdcMagic.toNat then (readInput 0 4, none)
  else if mem 4 ≠ bcdcVersion then (readInput 0 5, none)
  else
    let osize := leAt mem 2 8
    let csize := if leAt mem 2 10 = 0 then osize else leAt mem 2 10
    let data := (List.range csize).map fun k => mem (bcdcHeaderSize + k)
    let reads := readInput 0 5 ++ readInput 8 8 ++ readInput bcdcHeaderSize csize
    if (bcdcComputeChecksum data).toNat ≠ leAt mem 4 12 then (reads, none)
    else if mem 5 = bcdcTypeNone then
      (reads ++ readInput 5 1 ++ readInput bcdcHeaderSize osize ++ (List.range osize).map .write,
        some ((List.range osize).map fun k => mem (bcdcHeaderSize + k)))
    else if csize = 0 then (reads ++ readInput 5 1, none)
    else if mem 5 = bcdcTypeLz then
      let r := lzTrace mem bcdcHeaderSize csize osize dict 0 []
      (reads ++ readInput 5 1 ++ r.1, r.2)
    else if mem 5 = bcdcTypeRle then
      let r := rleTrace mem bcdcHeaderSize csize osize 0 []
      (reads ++ readInput 5 1 ++ r.1, r.2)
    else (reads ++ readInput 5 1, none)

/-- `compressed_size`, or `original_size` where it is zero. -/
def dataSize (mem : Nat → UInt8) : Nat :=
  if leAt mem 2 10 = 0 then leAt mem 2 8 else leAt mem 2 10

/-- The frame is refused by its header, or it has the data it promises; one that is stored is as long as its output. -/
def HasItsData (initialized : Bool) (mem : Nat → UInt8) (inputSize : Nat) : Prop :=
  initialized = false ∨ inputSize < bcdcHeaderSize ∨ leAt mem 4 0 ≠ bcdcMagic.toNat ∨ mem 4 ≠ bcdcVersion ∨
    bcdcHeaderSize + dataSize mem ≤ inputSize ∧
      ((bcdcComputeChecksum ((List.range (dataSize mem)).map fun k => mem (bcdcHeaderSize + k))).toNat = leAt mem 4 12 →
        mem 5 = bcdcTypeNone → bcdcHeaderSize + leAt mem 2 8 ≤ inputSize)

/-! ## The decoders stay inside -/

section accesses

variable {inputSize osize : Nat} {l l' : List Access}

theorem AllOk.nil : AllOk inputSize osize [] := fun _ ha => (nomatch ha)

theorem AllOk.cons {a : Access} (ha : a.Ok inputSize osize) (h : AllOk inputSize osize l) :
    AllOk inputSize osize (a :: l) :=
  fun x hx => (mem_cons.mp hx).elim (fun hx => hx ▸ ha) (h x)

theorem allOk_append : AllOk inputSize osize (l ++ l') ↔ AllOk inputSize osize l ∧ AllOk inputSize osize l' := by
  simp only [AllOk, mem_append]
  exact ⟨fun h => ⟨fun a ha => h a (.inl ha), fun a ha => h a (.inr ha)⟩, fun h a ha => ha.elim (h.1 a) (h.2 a)⟩

theorem allOk_readInput {i n : Nat} : AllOk inputSize osize (readInput i n) ↔ n = 0 ∨ i + n ≤ inputSize := by
  constructor
  · intro h
    by_cases hn : n = 0
    · exact .inl hn
    · have hlast : i + (n - 1) < inputSize := h (.input (i + (n - 1))) (mem_map.mpr ⟨n - 1, by simp; omega, rfl⟩)
      omega
  · rintro h a ha
    obtain ⟨k, hk, rfl⟩ := mem_map.mp ha
    have hk := mem_range.mp hk
    show i + k < inputSize
    omega

theorem allOk_writes (n : Nat) (hn : n ≤ osize) : AllOk inputSize osize ((List.range n).map .write) := by
  intro a ha
  obtain ⟨k, hk, rfl⟩ := mem_map.mp ha
  exact (mem_range.mp hk).trans_le hn

theorem copyBackTrace_ok {offset : Nat} (hoff : 0 < offset) (n : Nat) (out : List UInt8) (hout : offset ≤ out.length) :
    AllOk inputSize osize (copyBackTrace offset osize n out).1 := by
  induction n generalizing out with
  | zero => exact .nil
  | succ n ih =>
    rw [copyBackTrace]
    split
    · rename_i hroom
      have hback : (Access.output (out.length - offset) out.length).Ok inputSize osize := by
        show out.length - offset < out.length
        omega
      exact .cons hback (.cons hroom (ih _ (by rw [length_append]; omega)))
    · exact .nil

theorem copyDictTrace_ok (d : List UInt8) (n pos : Nat) (out : List UInt8) :
    AllOk inputSize osize (copyDictTrace d osize n pos out).1 := by
  induction n generalizing pos out with
  | zero => exact .nil
  | succ n ih =>
    rw [copyDictTrace]
    split
    · rename_i hroom
      simp only
      split
      · rename_i hsrc
        exact .cons hsrc (.cons hroom (ih _ _))
      split
      · exact .nil
      · rename_i hsrc hback
        have hback : (Access.output (pos % 2 ^ 16 - d.length) out.length).Ok inputSize osize := Nat.lt_of_not_le hback
        exact .cons hback (.cons hroom (ih _ _))
    · exact .nil

theorem matchTrace_ok (dict : Option (List UInt8)) (len offset : Nat) (out : List UInt8) :
    AllOk inputSize osize (matchTrace dict osize len offset out).1 := by
  unfold matchTrace
  split
  · exact .nil
  rename_i hoff
  split
  · split
    · exact .nil
    · split
      · exact .nil
      · exact copyDictTrace_ok _ _ _ _
  · exact copyBackTrace_ok (by omega) _ _ (by omega)

theorem fillTrace_ok (b : UInt8) (n : Nat) (out : List UInt8) : AllOk inputSize osize (fillTrace b osize n out).1 := by
  induction n generalizing out with
  | zero => exact .nil
  | succ n ih =>
    rw [fillTrace]
    split
    · rename_i hroom
      exact .cons hroom (ih _)
    · exact .nil

/-- Every turn of `BcdcLZ_Decompress` reads inside the data. -/
theorem lzTrace_ok (mem : Nat → UInt8) {base csize : Nat} (hdata : base + csize ≤ inputSize)
    (dict : Option (List UInt8)) (inPos : Nat) (out : List UInt8) :
    AllOk inputSize osize (lzTrace mem base csize osize dict inPos out).1 := by
  have hread : ∀ {i}, i < csize → (Access.input (base + i)).Ok inputSize osize := fun {i} hi => by
    show base + i < inputSize
    omega
  fun_induction lzTrace mem base csize osize dict inPos out with
  | case1 inPos out hmore token hhigh hcut => exact .cons (hread hmore.1) .nil
  | case2 inPos out hmore token hhigh hcut lo byte2 reads copy hcopy =>
    have := @matchTrace_ok inputSize osize dict (matchLen token byte2) (matchOffset lo byte2) out
    rw [hcopy] at this
    exact allOk_append.mpr
      ⟨.cons (hread hmore.1) (.cons (hread (by omega)) (.cons (hread (by omega)) .nil)), this⟩
  | case3 inPos out hmore token hhigh hcut lo byte2 reads copy out' hcopy r ih =>
    have := @matchTrace_ok inputSize osize dict (matchLen token byte2) (matchOffset lo byte2) out
    rw [hcopy] at this
    exact allOk_append.mpr ⟨allOk_append.mpr
      ⟨.cons (hread hmore.1) (.cons (hread (by omega)) (.cons (hread (by omega)) .nil)), this⟩, ih⟩
  | case4 inPos out hmore token hhigh r ih => exact .cons (hread hmore.1) (.cons hmore.2 ih)
  | case5 inPos out hmore => exact .nil

theorem rleTrace_ok (mem : Nat → UInt8) {base csize : Nat} (hdata : base + csize ≤ inputSize) (inPos : Nat)
    (out : List UInt8) : AllOk inputSize osize (rleTrace mem base csize osize inPos out).1 := by
  have hread : ∀ {i}, i < csize → (Access.input (base + i)).Ok inputSize osize := fun {i} hi => by
    show base + i < inputSize
    omega
  fun_induction rleTrace mem base csize osize inPos out with
  | case1 inPos out hmore byte hesc hcut => exact .cons (hread hmore.1) .nil
  | case2 inPos out hmore byte hesc hcut runByte reads hsame r ih =>
    exact .cons (hread hmore.1) (.cons (hread (by omega)) (.cons hmore.2 ih))
  | case3 inPos out hmore byte hesc hcut runByte reads hne hcut' =>
    exact .cons (hread hmore.1) (.cons (hread (by omega)) .nil)
  | case4 inPos out hmore byte hesc hcut runByte reads hne hcut' copy r ih =>
    refine allOk_append.mpr ⟨.cons (hread hmore.1) (.cons (hread (by omega)) (.cons (hread (by omega)) ?_)), ih⟩
    exact fillTrace_ok _ _ _
  | case5 inPos out hmore byte hne r ih => exact .cons (hread hmore.1) (.cons hmore.2 ih)
  | case6 inPos out hmore => exact .nil

end accesses

/-- **`BcdcDecompress` on any bytes**: every access is inside what it was given exactly when the frame has the data it
promises. -/
theorem bcdcDecompress_safe (initialized : Bool) (mem : Nat → UInt8) (inputSize : Nat) (dict : Option (List UInt8)) :
    AllOk inputSize (leAt mem 2 8) (bcdcDecompressTrace initialized mem inputSize dict).1 ↔
      HasItsData initialized mem inputSize := by
  unfold bcdcDecompressTrace HasItsData
  by_cases hsize : initialized = false ∨ inputSize < bcdcHeaderSize
  · rw [if_pos hsize]
    exact ⟨fun _ => hsize.imp_right .inl, fun _ => .nil⟩
  rw [if_neg hsize]
  obtain ⟨hinit, hhead⟩ := not_or.mp hsize
  have h24 : bcdcHeaderSize = 24 := rfl
  have hok : ∀ i n, i + n ≤ 24 → AllOk inputSize (leAt mem 2 8) (readInput i n) := fun i n h =>
    allOk_readInput.mpr (.inr (by omega))
  by_cases hmagic : leAt mem 4 0 ≠ bcdcMagic.toNat
  · rw [if_pos hmagic]
    exact ⟨fun _ => .inr (.inr (.inl hmagic)), fun _ => hok 0 4 (by decide)⟩
  rw [if_neg hmagic]
  by_cases hversion : mem 4 ≠ bcdcVersion
  · rw [if_pos hversion]
    exact ⟨fun _ => .inr (.inr (.inr (.inl hversion))), fun _ => hok 0 5 (by decide)⟩
  rw [if_neg hversion]
  -- behind the header the data are read for their checksum
  simp only [← dataSize.eq_1 mem]
  have hreads : AllOk inputSize (leAt mem 2 8)
      (readInput 0 5 ++ readInput 8 8 ++ readInput bcdcHeaderSize (dataSize mem)) ↔
      bcdcHeaderSize + dataSize mem ≤ inputSize := by
    rw [allOk_append, allOk_append, and_iff_right ⟨hok 0 5 (by decide), hok 8 8 (by decide)⟩, allOk_readInput]
    omega
  have hdrop : ∀ p : Prop, (initialized = false ∨ inputSize < bcdcHeaderSize ∨ leAt mem 4 0 ≠ bcdcMagic.toNat ∨
      mem 4 ≠ bcdcVersion ∨ p) ↔ p := fun p =>
    ⟨fun h => h.elim (absurd · hinit) fun h => h.elim (absurd · (fun h => hsize (.inr h))) fun h =>
      h.elim (absurd · hmagic) fun h => h.elim (absurd · hversion) id, fun h => .inr (.inr (.inr (.inr h)))⟩
  rw [hdrop]
  generalize hsum : (bcdcComputeChecksum ((List.range (dataSize mem)).map fun k => mem (bcdcHeaderSize + k))).toNat =
    sum
  by_cases hbad : sum ≠ leAt mem 4 12
  · rw [if_pos hbad, hreads]
    exact ⟨fun h => ⟨h, fun heq => absurd heq hbad⟩, fun h => h.1⟩
  rw [if_neg hbad]
  have hgood : sum = leAt mem 4 12 := not_not.mp hbad
  by_cases hnone : mem 5 = bcdcTypeNone
  · rw [if_pos hnone, allOk_append, allOk_append, allOk_append, hreads]
    constructor
    · rintro ⟨⟨⟨h, -⟩, hcopy⟩, -⟩
      have := allOk_readInput.mp hcopy
      exact ⟨h, fun _ _ => by omega⟩
    · rintro ⟨h, hcopy⟩
      exact ⟨⟨⟨h, hok 5 1 (by decide)⟩, allOk_readInput.mpr (.inr (hcopy hgood hnone))⟩,
        allOk_writes _ (Nat.le_refl _)⟩
  have hiff : ∀ l, (bcdcHeaderSize + dataSize mem ≤ inputSize → AllOk inputSize (leAt mem 2 8) l) →
      (AllOk inputSize (leAt mem 2 8)
        (readInput 0 5 ++ readInput 8 8 ++ readInput bcdcHeaderSize (dataSize mem) ++ readInput 5 1 ++ l) ↔
      bcdcHeaderSize + dataSize mem ≤ inputSize ∧
        (sum = leAt mem 4 12 → mem 5 = bcdcTypeNone → bcdcHeaderSize + leAt mem 2 8 ≤ inputSize)) := fun l hl => by
    rw [allOk_append, allOk_append, hreads]
    exact ⟨fun h => ⟨h.1.1, fun _ hno => absurd hno hnone⟩, fun h => ⟨⟨h.1, hok 5 1 (by decide)⟩, hl h.1⟩⟩
  have hrefuse := hiff [] fun _ => .nil
  rw [append_nil] at hrefuse
  rw [if_neg hnone]
  split
  · exact hrefuse
  split
  · exact hiff _ fun hdata => lzTrace_ok mem hdata dict 0 []
  split
  · exact hiff _ fun hdata => rleTrace_ok mem hdata 0 []
  · exact hrefuse

/-- A header alone that promises one stored byte. -/
def shortFrame : List UInt8 :=
  [0x43, 0x44, 0x43, 0x42, 1, 0, 0, 0, 1, 0, 0, 0, 0, 0, 0, 0, 0, 0, 0, 0, 0, 0, 0, 0]

/-- The byte behind it is read for the checksum. -/
theorem bcdcDecompress_overreads :
    ¬ AllOk shortFrame.length (leAt (byteAt shortFrame) 2 8)
      (bcdcDecompressTrace true (byteAt shortFrame) shortFrame.length none).1 := by
  intro h
  have hread : Access.input 24 ∈ (bcdcDecompressTrace true (byteAt shortFrame) shortFrame.length none).1 := by
    decide +kernel
  exact absurd (h _ hread) (by show ¬ 24 < shortFrame.length; decide)

/-! ## The two models of the decoder agree -/

section agree

variable {osize : Nat} {out : List UInt8}

theorem copyBackTrace_eq (offset n : Nat) : (copyBackTrace offset osize n out).2 = copyBack offset osize n out := by
  induction n generalizing out with
  | zero => rfl
  | succ n ih =>
    rw [copyBackTrace, copyBack]
    split
    · exact ih
    · rfl

theorem copyDictTrace_eq (d : List UInt8) (n pos : Nat) (hpos : pos + n ≤ 2 ^ 16) :
    (copyDictTrace d osize n pos out).2 = copyDict d osize n pos out := by
  induction n generalizing pos out with
  | zero => rfl
  | succ n ih =>
    rw [copyDictTrace, copyDict]
    split
    · simp only [Nat.mod_eq_of_lt (show pos < 2 ^ 16 by omega)]
      split
      · exact ih (pos + 1) (by omega)
      · split
        · rfl
        · exact ih (pos + 1) (by omega)
    · rfl

theorem fillTrace_eq (b : UInt8) (n : Nat) :
    (fillTrace b osize n out).2 = out ++ replicate (min n (osize - out.length)) b := by
  induction n generalizing out with
  | zero => simp [fillTrace]
  | succ n ih =>
    rw [fillTrace]
    split
    · rename_i hroom
      rw [ih, append_assoc, length_append, length_singleton, singleton_append, ← replicate_succ]
      congr 2
      omega
    · rename_i hroom
      rw [show osize - out.length = 0 by omega]
      simp

theorem matchLen_le (token byte2 : UInt8) : matchLen token byte2 ≤ 258 := by
  have hlow : token.toNat &&& 0x7F < 2 ^ 8 := Nat.lt_of_le_of_lt Nat.and_le_right (by decide)
  have hbit : byte2.toNat >>> 7 < 2 := by
    rw [Nat.shiftRight_eq_div_pow]
    have := byte2.toNat_lt
    omega
  have hhigh : (byte2.toNat >>> 7) <<< 7 < 2 ^ 8 := by
    rw [Nat.shiftLeft_eq]
    omega
  have := Nat.or_lt_two_pow hlow hhigh
  unfold matchLen bcdcLzMinMatch
  omega

/-- The data from a position on. -/
def dataFrom (mem : Nat → UInt8) (base csize i : Nat) : List UInt8 :=
  (List.range' i (csize - i)).map fun k => mem (base + k)

variable {mem : Nat → UInt8} {base csize : Nat}

theorem dataFrom_cons {i : Nat} (h : i < csize) :
    dataFrom mem base csize i = mem (base + i) :: dataFrom mem base csize (i + 1) := by
  rw [dataFrom, show csize - i = csize - (i + 1) + 1 by omega, range'_succ, map_cons, dataFrom]

theorem dataFrom_nil {i : Nat} (h : csize ≤ i) : dataFrom mem base csize i = [] := by
  rw [dataFrom, Nat.sub_eq_zero_of_le h]
  rfl

variable {dict : Option (List UInt8)}

theorem lzDecode_full (h : ¬ out.length < osize) (l : List UInt8) : lzDecode dict osize l out = some out := by
  match l with
  | [] | [_] | [_, _] | _ :: _ :: _ :: _ => simp [lzDecode, h]

theorem rleDecode_full (h : ¬ out.length < osize) (l : List UInt8) : rleDecode osize l out = some out := by
  match l with
  | [] | [_] | [_, _] | _ :: _ :: _ :: _ => simp [rleDecode, h]

theorem matchTrace_eq (hdict : ∀ d ∈ dict, d.length + 258 ≤ 2 ^ 16)
    (token byte2 lo : UInt8) (rest : List UInt8) (htoken : token &&& 0x80 ≠ 0) (hroom : out.length < osize) :
    lzDecode dict osize (token :: lo :: byte2 :: rest) out =
      (matchTrace dict osize (matchLen token byte2) (matchOffset lo byte2) out).2.bind (lzDecode dict osize rest) := by
  have hlen := matchLen_le token byte2
  rw [lzDecode, if_pos hroom, if_pos htoken]
  simp only
  unfold matchTrace
  split
  · rfl
  split
  · cases dict with
    | none => rfl
    | some d =>
      simp only
      split
      · rfl
      · have hd := hdict d rfl
        rw [copyDictTrace_eq d _ _ (by omega)]
        cases copyDict d osize (matchLen token byte2) (d.length - (matchOffset lo byte2 - out.length)) out <;> rfl
  · simp only [copyBackTrace_eq, Option.bind_some]

theorem lzTrace_eq (hdict : ∀ d ∈ dict, d.length + 258 ≤ 2 ^ 16) (inPos : Nat) (out : List UInt8) :
    (lzTrace mem base csize osize dict inPos out).2 = lzDecode dict osize (dataFrom mem base csize inPos) out := by
  fun_induction lzTrace mem base csize osize dict inPos out with
  | case1 inPos out hmore token hhigh hcut =>
    have hhigh : mem (base + inPos) &&& 0x80 ≠ 0 := hhigh
    rw [dataFrom_cons hmore.1]
    by_cases hone : inPos + 1 < csize
    · rw [dataFrom_cons hone, dataFrom_nil (by omega)]
      simp [lzDecode, hhigh, hmore.2]
    · rw [dataFrom_nil (by omega)]
      simp [lzDecode, hhigh, hmore.2]
  | case2 inPos out hmore token hhigh hcut lo byte2 reads copy hcopy =>
    rw [dataFrom_cons hmore.1, dataFrom_cons (by omega), dataFrom_cons (by omega),
      matchTrace_eq hdict _ _ _ _ hhigh hmore.2, hcopy]
    rfl
  | case3 inPos out hmore token hhigh hcut lo byte2 reads copy out' hcopy r ih =>
    rw [dataFrom_cons hmore.1, dataFrom_cons (by omega), dataFrom_cons (by omega),
      matchTrace_eq hdict _ _ _ _ hhigh hmore.2, hcopy]
    exact ih
  | case4 inPos out hmore token hhigh r ih =>
    rw [dataFrom_cons hmore.1, lzDecode_literal (not_not.mp hhigh) hmore.2]
    exact ih
  | case5 inPos out hmore =>
    by_cases hroom : out.length < osize
    · rw [dataFrom_nil (by omega), lzDecode]
    · rw [lzDecode_full hroom]

theorem rleTrace_eq (inPos : Nat) (out : List UInt8) :
    (rleTrace mem base csize osize inPos out).2 = rleDecode osize (dataFrom mem base csize inPos) out := by
  fun_induction rleTrace mem base csize osize inPos out with
  | case1 inPos out hmore byte hesc hcut =>
    rw [dataFrom_cons hmore.1, dataFrom_nil (by omega), rleDecode, if_pos hmore.2, if_pos hesc]
  | case2 inPos out hmore byte hesc hcut runByte reads hsame r ih =>
    rw [dataFrom_cons hmore.1, dataFrom_cons (by omega), show mem (base + inPos) = bcdcRleEscape from hesc,
      show mem (base + (inPos + 1)) = bcdcRleEscape from hsame, rleDecode_escape hmore.2]
    exact ih
  | case3 inPos out hmore byte hesc hcut runByte reads hne hcut' =>
    rw [dataFrom_cons hmore.1, dataFrom_cons (by omega), dataFrom_nil (by omega), rleDecode, if_pos hmore.2,
      if_pos hesc]
    simp only [show mem (base + (inPos + 1)) ≠ bcdcRleEscape from hne, if_false]
  | case4 inPos out hmore byte hesc hcut runByte reads hne hcut' copy r ih =>
    rw [dataFrom_cons hmore.1, dataFrom_cons (by omega), dataFrom_cons (by omega), rleDecode, if_pos hmore.2,
      if_pos hesc]
    simp only [show mem (base + (inPos + 1)) ≠ bcdcRleEscape from hne, if_false]
    rw [← fillTrace_eq]
    exact ih
  | case5 inPos out hmore byte hne r ih =>
    rw [dataFrom_cons hmore.1, rleDecode_plain hne hmore.2]
    exact ih
  | case6 inPos out hmore =>
    by_cases hroom : out.length < osize
    · rw [dataFrom_nil (by omega), rleDecode]
    · rw [rleDecode_full hroom]

theorem leAt_lt (n i : Nat) : leAt mem n i < 256 ^ n := by
  induction n generalizing i with
  | zero => exact Nat.one_pos
  | succ n ih =>
    have hbyte := (mem i).toNat_lt
    have hmore := ih (i + 1)
    rw [leAt, Nat.pow_succ]
    omega

/-- The frame in the bytes. -/
def frameAt (mem : Nat → UInt8) (inputSize : Nat) : BcdcFrame where
  magic := .ofNat (leAt mem 4 0)
  version := mem 4
  compressionType := mem 5
  flags := .ofNat (leAt mem 2 6)
  originalSize := leAt mem 2 8
  compressedSize := leAt mem 2 10
  checksum := .ofNat (leAt mem 4 12)
  originalChecksum := .ofNat (leAt mem 4 16)
  dictionaryId := mem 20
  cdata := dataFrom mem bcdcHeaderSize (inputSize - bcdcHeaderSize) 0

theorem ofNat_leAt_eq (i : Nat) (x : UInt32) : UInt32.ofNat (leAt mem 4 i) = x ↔ leAt mem 4 i = x.toNat := by
  have hlt : leAt mem 4 i < 2 ^ 32 := leAt_lt 4 i
  rw [← UInt32.toNat_inj, UInt32.toNat_ofNat_of_lt' hlt]

theorem take_dataFrom {n m : Nat} (h : n ≤ m) :
    (dataFrom mem base m 0).take n = (List.range n).map fun k => mem (base + k) := by
  rw [dataFrom, ← map_take, Nat.sub_zero, ← range_eq_range', take_range, Nat.min_eq_left h]

/-- On a frame that has its data the bytes are decoded as `bcdcDecompress` decodes the frame. -/
theorem bcdcDecompressTrace_eq {inputSize : Nat} (hsize : bcdcHeaderSize ≤ inputSize)
    (h : HasItsData true mem inputSize) (s : BcdcState) (id : Nat)
    (hdict : ∀ d ∈ activeDict s id, d.data.length + 258 ≤ 2 ^ 16) :
    (bcdcDecompressTrace true mem inputSize ((activeDict s id).map (·.data))).2 =
    bcdcDecompress s (frameAt mem inputSize) id := by
  have hdict' : ∀ d ∈ (activeDict s id).map (·.data), d.length + 258 ≤ 2 ^ 16 := fun d hd => by
    obtain ⟨x, hx, rfl⟩ := Option.map_eq_some_iff.mp hd
    exact hdict x hx
  have hframe : (if (frameAt mem inputSize).compressedSize = 0 then (frameAt mem inputSize).originalSize
      else (frameAt mem inputSize).compressedSize) = dataSize mem := rfl
  unfold bcdcDecompressTrace bcdcDecompress
  rw [if_neg (by simp; omega)]
  simp only [hframe, ← dataSize.eq_1 mem]
  simp only [frameAt, ne_eq, ofNat_leAt_eq]
  by_cases hmagic : leAt mem 4 0 = bcdcMagic.toNat
  · by_cases hversion : mem 4 = bcdcVersion
    · obtain ⟨hdata, hstored⟩ : bcdcHeaderSize + dataSize mem ≤ inputSize ∧ _ := by
        rcases h with h | h | h | h | h
        · cases h
        · omega
        · exact absurd hmagic h
        · exact absurd hversion h
        · exact h
      have hcheck := fun x : UInt32 => eq_comm.trans ((@ofNat_leAt_eq mem 12 x).trans eq_comm)
      have hnil : (List.range (dataSize mem)).map (fun k => mem (bcdcHeaderSize + k)) = [] ↔ dataSize mem = 0 := by
        rw [map_eq_nil_iff, range_eq_nil]
      have hall : (List.range (dataSize mem)).map (fun k => mem (bcdcHeaderSize + k)) =
          dataFrom mem bcdcHeaderSize (dataSize mem) 0 := by
        rw [dataFrom, Nat.sub_zero, range_eq_range']
      rw [if_neg (not_not.mpr hmagic), if_neg (not_not.mpr hversion),
        if_neg (not_or.mpr ⟨not_not.mpr hmagic, not_not.mpr hversion⟩)]
      simp only [take_dataFrom (show dataSize mem ≤ inputSize - bcdcHeaderSize by omega), hcheck, hnil]
      split_ifs with hsum hnone
      · rw [take_dataFrom (by have := hstored hsum hnone; omega)]
      · rfl
      · rfl
      · rfl
      · exact (lzTrace_eq hdict' 0 []).trans (by rw [hall])
      · exact (rleTrace_eq 0 []).trans (by rw [hall])
      · rfl
      · rfl
    · rw [if_neg (not_not.mpr hmagic), if_pos hversion, if_pos (.inr hversion)]
  · rw [if_pos hmagic, if_pos (.inl hmagic)]

end agree

end BoxOS.TagFS
