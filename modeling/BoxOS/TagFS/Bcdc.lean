import Mathlib.Data.List.Basic

/-! # The block codec

`BcdcCompress` packs a block of at most 4096 bytes with a Lempel-Ziv or run-length encoder, or stores it, and
`BcdcDecompress` reads it back. The Lempel-Ziv encoder also looks for matches in a dictionary that every successful
compression shifts. Positions and sizes stay below `2 ^ 16` throughout, so they are natural numbers. -/

open Function (update)

namespace BoxOS.TagFS

def bcdcMagic : UInt32 := 0x42434443
def bcdcVersion : UInt8 := 1
def bcdcBlockSize : Nat := 4096
def bcdcMaxCompressed : Nat := 4072
def bcdcTypeNone : UInt8 := 0
def bcdcTypeLz : UInt8 := 1
def bcdcTypeRle : UInt8 := 2
def bcdcLzMinMatch : Nat := 3
def bcdcLzMaxMatch : Nat := 258
def bcdcLzWindowSize : Nat := 4096
def bcdcLzMaxOffset : Nat := 0x1FFF
def bcdcRleMinRun : Nat := 3
def bcdcRleEscape : UInt8 := 0xFE
def bcdcMaxDicts : Nat := 256
def bcdcDefaultDictSize : Nat := 8192

/-- `n` turns of the inner loop of `BcdcComputeChecksum`. -/
def crcBits : Nat → UInt32 → UInt32
  | 0, crc => crc
  | n + 1, crc => crcBits n ((crc >>> 1) ^^^ (if crc &&& 1 = 0 then 0 else 0xEDB88320))

def bcdcComputeChecksum (data : List UInt8) : UInt32 :=
  ~~~ data.foldl (fun crc b => crcBits 8 (crc ^^^ b.toUInt32)) 0xFFFFFFFF

/-! ## Lempel-Ziv -/

/-- The byte at a position of a buffer. -/
def byteAt (l : List UInt8) (i : Nat) : UInt8 :=
  l.getD i 0

variable (input : List UInt8)

def bcdcLzHash (pos : Nat) : UInt32 :=
  let h := (byteAt input pos).toUInt32
  let h := (h * 2654435761) ^^^ (byteAt input (pos + 1)).toUInt32
  let h := (h * 2654435761) ^^^ (byteAt input (pos + 2)).toUInt32
  h &&& 0xFFF

/-- The hash heads and chains of the encoder, `-1` for none. -/
structure BcdcLzWork where
  head : UInt32 → Int
  chain : Nat → Int

def bcdcLzChainInsert (w : BcdcLzWork) (pos : Nat) : BcdcLzWork :=
  let h := bcdcLzHash input pos
  { head := update w.head h pos, chain := update w.chain pos (w.head h) }

/-- The loop that extends a match: how far `a` from `i` on and `b` from `j` on agree, at most `max`. -/
def matchLength (a b : List UInt8) (i j max : Nat) : Nat → Nat → Nat
  | 0, len => len
  | n + 1, len =>
    if len < max ∧ byteAt a (i + len) = byteAt b (j + len) then matchLength a b i j max n (len + 1) else len

/-- The best match so far. -/
structure LzBest where
  length : Nat := 0
  offset : Nat := 0
  deriving DecidableEq, Repr

/-- Walk the chain of earlier positions with the same hash; the first argument is `chain_budget`. -/
def chainLoop (input : List UInt8) (chain : Nat → Int) (inPos : Nat) : Nat → Int → LzBest → LzBest
  | 0, _, best => best
  | budget + 1, cur, best =>
    if 0 ≤ cur ∧ cur < inPos then
      let offset := inPos - cur.toNat
      if bcdcLzWindowSize < offset then best
      else
        let maxLen := min (min (input.length - inPos) bcdcLzMaxMatch) offset
        let len := matchLength input input cur.toNat inPos maxLen maxLen 0
        if bcdcLzMinMatch ≤ len ∧ best.length < len then
          if len = bcdcLzMaxMatch then ⟨len, offset⟩
          else chainLoop input chain inPos budget (chain cur.toNat) ⟨len, offset⟩
        else chainLoop input chain inPos budget (chain cur.toNat) best
    else best

/-- Search the dictionary from position `p` on; the first argument counts the positions left. -/
def dictLoop (input dict : List UInt8) (inPos : Nat) : Nat → Nat → LzBest → LzBest
  | 0, _, best => best
  | n + 1, p, best =>
    if byteAt dict p ≠ byteAt input inPos ∨ byteAt dict (p + 1) ≠ byteAt input (inPos + 1) then
      dictLoop input dict inPos n (p + 1) best
    else
      let encodedOffset := inPos + (dict.length - p)
      if encodedOffset = 0 ∨ bcdcLzMaxOffset < encodedOffset then dictLoop input dict inPos n (p + 1) best
      else
        let cap := min (dict.length - p) (min (input.length - inPos) bcdcLzMaxMatch)
        let len := matchLength dict input p inPos cap cap 0
        if bcdcLzMinMatch ≤ len ∧ best.length < len then
          if len = bcdcLzMaxMatch then ⟨len, encodedOffset⟩
          else dictLoop input dict inPos n (p + 1) ⟨len, encodedOffset⟩
        else dictLoop input dict inPos n (p + 1) best

/-- The match `BcdcLZ_Compress` takes at a position: from the chain, or a longer one from the dictionary. -/
def findBest (dict : Option (List UInt8)) (w : BcdcLzWork) (inPos : Nat) : LzBest :=
  let best := chainLoop input w.chain inPos 64 (w.head (bcdcLzHash input inPos)) {}
  match dict with
  | none => best
  | some d => if 0 < d.length ∧ best.length < bcdcLzMaxMatch then dictLoop input d inPos (d.length - 1) 0 best else best

/-- The three bytes of a match. -/
def lzToken (encLen offset : Nat) : List UInt8 :=
  [.ofNat (0x80 ||| (encLen &&& 0x7F)), .ofNat (offset &&& 0xFF),
    .ofNat ((((encLen >>> 7) &&& 1) <<< 7) ||| ((offset >>> 8) &&& 0x1F))]

/-- Insert `n` positions from `pos` on, those with three bytes left. -/
def insertLoop (input : List UInt8) : Nat → Nat → BcdcLzWork → BcdcLzWork
  | 0, _, w => w
  | n + 1, pos, w =>
    insertLoop input n (pos + 1) (if pos + 3 ≤ input.length then bcdcLzChainInsert input w pos else w)

/-- The main loop of `BcdcLZ_Compress`, from `inPos` on behind the output `out`: where it stopped and what it wrote.
Every turn consumes a byte, so the first argument is at most the input's length. -/
def lzLoop (input : List UInt8) (dict : Option (List UInt8)) : Nat → Nat → List UInt8 → BcdcLzWork → Nat × List UInt8
  | 0, inPos, out, _ => (inPos, out)
  | n + 1, inPos, out, w =>
    if inPos < input.length ∧ out.length < bcdcMaxCompressed then
      if input.length < inPos + 3 then
        let rest := (input.drop inPos).take (bcdcMaxCompressed - out.length)
        (inPos + rest.length, out ++ rest)
      else
        let best := findBest input dict w inPos
        if bcdcLzMinMatch ≤ best.length ∧ 0 < best.offset ∧ best.offset ≤ bcdcLzMaxOffset then
          if bcdcMaxCompressed < out.length + 3 then (inPos, out)
          else
            let encLen := min (best.length - bcdcLzMinMatch) 255
            let consumed := min (bcdcLzMinMatch + encLen) (input.length - inPos)
            lzLoop input dict n (inPos + consumed) (out ++ lzToken encLen best.offset)
            (insertLoop input consumed inPos w)
        else if bcdcMaxCompressed ≤ out.length + 1 then (inPos, out)
        else lzLoop input dict n (inPos + 1) (out ++ [byteAt input inPos]) (bcdcLzChainInsert input w inPos)
    else (inPos, out)

/-- `BcdcLZ_Compress`; `kmalloc` is `none` when it fails, else what the fresh chain happens to hold. -/
def bcdcLzCompress (kmalloc : Option (Nat → Int)) (input : List UInt8) (dict : Option (List UInt8)) :
    Option (List UInt8) :=
  if input.length = 0 then none
  else
    match kmalloc with
    | none => none
    | some fresh =>
      let r := lzLoop input dict input.length 0 [] ⟨fun _ => -1, fresh⟩
      if r.1 < input.length then none else some r.2

/-- Copy `n` bytes from `offset` back, at most up to `osize` bytes of output. -/
def copyBack (offset osize : Nat) : Nat → List UInt8 → List UInt8
  | 0, out => out
  | n + 1, out =>
    if out.length < osize then copyBack offset osize n (out ++ [byteAt out (out.length - offset)]) else out

/-- Copy `n` bytes of the dictionary from `src` on, and behind its end from the start of the output. -/
def copyDict (dict : List UInt8) (osize : Nat) : Nat → Nat → List UInt8 → Option (List UInt8)
  | 0, _, out => some out
  | n + 1, src, out =>
    if out.length < osize then
      if src < dict.length then copyDict dict osize n (src + 1) (out ++ [byteAt dict src])
      else if out.length ≤ src - dict.length then none
      else copyDict dict osize n (src + 1) (out ++ [byteAt out (src - dict.length)])
    else some out

def matchLen (token byte2 : UInt8) : Nat :=
  ((token.toNat &&& 0x7F) ||| ((byte2.toNat >>> 7) <<< 7)) + bcdcLzMinMatch

def matchOffset (lo byte2 : UInt8) : Nat :=
  lo.toNat ||| ((byte2.toNat &&& 0x1F) <<< 8)

/-- The loop of `BcdcLZ_Decompress`: the bytes left, and the output so far; `none` is `ERR_CORRUPTED`. -/
def lzDecode (dict : Option (List UInt8)) (osize : Nat) : List UInt8 → List UInt8 → Option (List UInt8)
  | [], out => some out
  | token :: rest, out =>
    if out.length < osize then
      if token &&& 0x80 ≠ 0 then
        match rest with
        | lo :: byte2 :: rest' =>
          let len := matchLen token byte2
          let offset := matchOffset lo byte2
          if offset = 0 then none
          else if out.length < offset then
            match dict with
            | none => none
            | some d =>
              if d.length = 0 ∨ d.length < offset - out.length then none
              else
                match copyDict d osize len (d.length - (offset - out.length)) out with
                | none => none
                | some out' => lzDecode dict osize rest' out'
          else lzDecode dict osize rest' (copyBack offset osize len out)
        | _ => none
      else lzDecode dict osize rest (out ++ [token])
    else some out

/-! ## Run lengths -/

/-- The loop that counts a run: how many bytes behind `pos` equal `b`, at most 254. -/
def runLength (input : List UInt8) (pos : Nat) (b : UInt8) : Nat → Nat → Nat
  | 0, len => len
  | n + 1, len =>
    if pos + len < input.length ∧ byteAt input (pos + len) = b ∧ len < 255 then runLength input pos b n (len + 1)
    else len

/-- The loop of `BcdcRLE_Compress`. -/
def rleLoop (input : List UInt8) : Nat → Nat → List UInt8 → Nat × List UInt8
  | 0, inPos, out => (inPos, out)
  | n + 1, inPos, out =>
    if inPos < input.length ∧ out.length < bcdcMaxCompressed then
      let b := byteAt input inPos
      let run := runLength input inPos b 255 1
      if bcdcRleMinRun ≤ run then
        if bcdcMaxCompressed < out.length + 3 then (inPos, out)
        else rleLoop input n (inPos + run) (out ++ [bcdcRleEscape, b, .ofNat run])
      else if b = bcdcRleEscape then
        if bcdcMaxCompressed < out.length + 2 then (inPos, out)
        else rleLoop input n (inPos + 1) (out ++ [bcdcRleEscape, bcdcRleEscape])
      else if bcdcMaxCompressed < out.length + 1 then (inPos, out)
      else rleLoop input n (inPos + 1) (out ++ [b])
    else (inPos, out)

def bcdcRleCompress : Option (List UInt8) :=
  if input.length = 0 then none
  else
    let r := rleLoop input input.length 0 []
    if r.1 < input.length then none else some r.2

/-- The loop of `BcdcRLE_Decompress`; `none` is `ERR_CORRUPTED`. -/
def rleDecode (osize : Nat) : List UInt8 → List UInt8 → Option (List UInt8)
  | [], out => some out
  | b :: rest, out =>
    if out.length < osize then
      if b = bcdcRleEscape then
        match rest with
        | [] => none
        | runByte :: rest' =>
          if runByte = bcdcRleEscape then rleDecode osize rest' (out ++ [bcdcRleEscape])
          else
            match rest' with
            | [] => none
            | run :: rest'' =>
              rleDecode osize rest'' (out ++ List.replicate (min run.toNat (osize - out.length)) runByte)
      else rleDecode osize rest (out ++ [b])
    else some out

/-! ## Dictionaries and frames -/

structure BcdcDictionary where
  tagId : UInt16
  lastUsed : UInt64
  usageCount : UInt32
  active : Bool
  data : List UInt8
  deriving DecidableEq, Repr

/-- The dictionary table. -/
structure BcdcState where
  dicts : Nat → Option BcdcDictionary

/-- `bcdc_alloc_dict_locked`, at the time `now`. -/
def bcdcAllocDict (tagId : UInt16) (now : UInt64) : BcdcDictionary :=
  { tagId, lastUsed := now, usageCount := 0, active := true, data := List.replicate bcdcDefaultDictSize 0 }

def bcdcInit (now : UInt64) : BcdcState :=
  { dicts := update (fun _ => none) 0 (some (bcdcAllocDict 0 now)) }

/-- The first empty slot from `i` on. -/
def freeSlot (s : BcdcState) : Nat → Nat → Option Nat
  | 0, _ => none
  | n + 1, i => if (s.dicts i).isNone then some i else freeSlot s n (i + 1)

/-- The least recently used slot from `i` on. -/
def victimSlot (s : BcdcState) : Nat → Nat → UInt64 → Option Nat → Option Nat
  | 0, _, _, victim => victim
  | n + 1, i, oldest, victim =>
    match s.dicts i with
    | none => victimSlot s n (i + 1) oldest victim
    | some d =>
      if d.lastUsed < oldest then victimSlot s n (i + 1) d.lastUsed (some i) else victimSlot s n (i + 1) oldest victim

variable (s : BcdcState)

/-- `BcdcCreateDictionary`; `mem` says whether the allocations succeed. A victim is freed before that shows. -/
def bcdcCreateDictionary (tagId : UInt16) (now : UInt64) (mem : Bool) : BcdcState × Option Nat :=
  match (freeSlot s (bcdcMaxDicts - 1) 1).orElse fun _ => victimSlot s (bcdcMaxDicts - 1) 1 0xFFFFFFFFFFFFFFFF none with
  | none => (s, none)
  | some slot =>
    if mem then ({ dicts := update s.dicts slot (some (bcdcAllocDict tagId now)) }, some slot)
    else ({ dicts := update s.dicts slot none }, none)

def bcdcEvictDictionary (id : Nat) : BcdcState × Bool :=
  if id = 0 ∨ bcdcMaxDicts ≤ id then (s, false)
  else if (s.dicts id).isNone then (s, false)
  else ({ dicts := update s.dicts id none }, true)

/-- `BcdcUpdateDictionary`: shift the data in from the right. -/
def bcdcUpdateDictionary (d : BcdcDictionary) (data : List UInt8) : BcdcDictionary :=
  if data.length < 4 then d
  else
    let size := min data.length d.data.length
    { d with data := d.data.drop size ++ data.take size }

/-- The active dictionary under an id. -/
def activeDict (id : Nat) : Option BcdcDictionary :=
  if id < bcdcMaxDicts then (s.dicts id).filter fun d => d.active else none

/-- A frame: the fields of `BcdcBlockHeader` and the data behind it. -/
structure BcdcFrame where
  magic : UInt32
  version : UInt8
  compressionType : UInt8
  flags : UInt16
  originalSize : Nat
  compressedSize : Nat
  checksum : UInt32
  originalChecksum : UInt32
  dictionaryId : UInt8
  cdata : List UInt8
  deriving DecidableEq, Repr

/-- What the encoder of the given type makes of the input. -/
def bcdcEncode (kmalloc : Option (Nat → Int)) (type : UInt8) (input : List UInt8) (dict : Option (List UInt8)) :
    Option (List UInt8) :=
  if type = bcdcTypeLz then bcdcLzCompress kmalloc input dict
  else if type = bcdcTypeRle then bcdcRleCompress input
  else none

def bcdcCompress (kmalloc : Option (Nat → Int)) (now : UInt64) (input : List UInt8) (type : UInt8)
    (id : Nat) : BcdcState × Option BcdcFrame :=
  if input.length = 0 ∨ bcdcBlockSize < input.length then (s, none)
  else
    let dict := (activeDict s id).map fun d => { d with usageCount := d.usageCount + 1, lastUsed := now }
    let touched : BcdcState := match dict with
      | none => s
      | some d => { dicts := update s.dicts id (some d) }
    let frame (type : UInt8) (compressedSize : Nat) (cdata : List UInt8) : BcdcFrame :=
      { magic := bcdcMagic, version := bcdcVersion, compressionType := type, flags := 0
        originalSize := input.length, compressedSize, checksum := bcdcComputeChecksum cdata
        originalChecksum := bcdcComputeChecksum input, dictionaryId := .ofNat id, cdata }
    match (bcdcEncode kmalloc type input (dict.map (·.data))).filter fun c => c.length < input.length with
    | none => (touched, some (frame bcdcTypeNone 0 input))
    | some cdata =>
      let updated : BcdcState := match dict with
        | none => touched
        | some d => { dicts := update touched.dicts id (some (bcdcUpdateDictionary d input)) }
      (updated, some (frame type cdata.length cdata))

/-- `BcdcDecompress`; `none` is an error. The original checksum is not looked at. -/
def bcdcDecompress (f : BcdcFrame) (id : Nat) : Option (List UInt8) :=
  if f.magic ≠ bcdcMagic ∨ f.version ≠ bcdcVersion then none
  else
    let csize := if f.compressedSize = 0 then f.originalSize else f.compressedSize
    let data := f.cdata.take csize
    if bcdcComputeChecksum data ≠ f.checksum then none
    else
      let dict := (activeDict s id).map (·.data)
      if f.compressionType = bcdcTypeNone then some (f.cdata.take f.originalSize)
      else if f.compressionType = bcdcTypeLz then if data = [] then none else lzDecode dict f.originalSize data []
      else if f.compressionType = bcdcTypeRle then if data = [] then none else rleDecode f.originalSize data []
      else none

end BoxOS.TagFS
