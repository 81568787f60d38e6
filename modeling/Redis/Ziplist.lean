import Redis.Util

/-!
# Redis.Ziplist

The ziplist of `ziplist.c`, byte for byte: a header with the total size, the
offset of the last entry and the number of entries, the entries, and a
terminator.

A pointer into the ziplist is an offset.  `none` is an access outside the
allocated block or a failed `assert`.  `zrealloc` leaves new memory
undefined: `fill` is what it happens to hold.  The size given to
`ziplistResize` is an `unsigned int`.
-/

namespace Redis

open Bytes

def zipEnd : UInt8 := 255

def zipBiglen : Nat := 254

def zipStrMask : UInt8 := 0xc0

def zipStr06b : UInt8 := 0x00

def zipStr14b : UInt8 := 0x40

def zipStr32b : UInt8 := 0x80

def zipInt16b : UInt8 := 0xc0

def zipInt32b : UInt8 := 0xd0

def zipInt64b : UInt8 := 0xe0

def zipInt24b : UInt8 := 0xf0

def zipInt8b : UInt8 := 0xfe

def zipIntImmMin : UInt8 := 0xf1

def zipIntImmMax : UInt8 := 0xfd

def ziplistHeaderSize : Nat := 10

def UINT16_MAX : Nat := 65535

def zipIsStr (enc : UInt8) : Bool := decide (enc &&& zipStrMask < zipStrMask)

/-! ## The header -/

def ziplistBytes (zl : Bytes) : Option Nat := (load zl 0 4).map leNat

def ziplistTailOffset (zl : Bytes) : Option Nat := (load zl 4 4).map leNat

def ziplistLength (zl : Bytes) : Option Nat := (load zl 8 2).map leNat

/-- Assignment to `ZIPLIST_TAIL_OFFSET`. -/
def setTailOffset (zl : Bytes) (n : Nat) : Option Bytes := store zl 4 (leBytes 4 n)

def ziplistIncrLength (zl : Bytes) (incr : Int) : Option Bytes := do
  let n ← ziplistLength zl
  if n < UINT16_MAX then store zl 8 (leBytes 2 ((n + incr) % 2 ^ 16).toNat) else some zl

/-! ## Fields of an entry -/

/-- What `ZIP_DECODE_LENGTH` extracts. -/
structure ZipLength where
  encoding : UInt8
  lensize : Nat
  len : Nat
deriving DecidableEq, Repr

def zipEntryEncoding (b : UInt8) : UInt8 := if b < zipStrMask then b &&& zipStrMask else b

def zipIntSize (encoding : UInt8) : Nat :=
  if encoding = zipInt8b then 1
  else if encoding = zipInt16b then 2
  else if encoding = zipInt24b then 3
  else if encoding = zipInt32b then 4
  else if encoding = zipInt64b then 8
  else 0

def zipDecodeLength (zl : Bytes) (p : Nat) : Option ZipLength := do
  let b ← zl[p]?
  let encoding := zipEntryEncoding b
  if encoding < zipStrMask then
    if encoding = zipStr06b then some ⟨encoding, 1, b.toNat % 64⟩
    else if encoding = zipStr14b then do
      let b₁ ← zl[p + 1]?
      some ⟨encoding, 2, b.toNat % 64 * 256 + b₁.toNat⟩
    else if encoding = zipStr32b then do
      let bs ← load zl (p + 1) 4
      some ⟨encoding, 5, leNat bs.reverse⟩
    else none
  else some ⟨encoding, 1, zipIntSize encoding⟩

/-- `zipEncodeLength`: the bytes it writes. -/
def zipEncodeLength (encoding : UInt8) (rawlen : Nat) : Bytes :=
  if zipIsStr encoding then
    if rawlen ≤ 0x3f then [zipStr06b ||| UInt8.ofNat rawlen]
    else if rawlen ≤ 0x3fff then
      [zipStr14b ||| UInt8.ofNat (rawlen / 256 % 64), UInt8.ofNat rawlen]
    else zipStr32b :: (leBytes 4 rawlen).reverse
  else [encoding]

/-- `zipPrevEncodeLength` with a null pointer. -/
def zipPrevEncodeLengthSize (len : Nat) : Nat := if len < zipBiglen then 1 else 5

/-- `zipPrevEncodeLengthForceLarge`: the bytes it writes. -/
def zipPrevEncodeLengthForceLarge (len : Nat) : Bytes := UInt8.ofNat zipBiglen :: leBytes 4 len

/-- `zipPrevEncodeLength`: the bytes it writes. -/
def zipPrevEncodeLength (len : Nat) : Bytes :=
  if len < zipBiglen then [UInt8.ofNat len] else UInt8.ofNat zipBiglen :: leBytes 4 len

def zipDecodePrevlensize (zl : Bytes) (p : Nat) : Option Nat := do
  let b ← zl[p]?
  return if b.toNat < zipBiglen then 1 else 5

/-- `ZIP_DECODE_PREVLEN`: the size of the field and its value. -/
def zipDecodePrevlen (zl : Bytes) (p : Nat) : Option (Nat × Nat) := do
  let size ← zipDecodePrevlensize zl p
  if size = 1 then do
    let b ← zl[p]?
    return (size, b.toNat)
  else do
    let bs ← load zl (p + 1) 4
    return (size, leNat bs)

def zipPrevLenByteDiff (zl : Bytes) (p len : Nat) : Option Int := do
  let prevlensize ← zipDecodePrevlensize zl p
  return (zipPrevEncodeLengthSize len : Int) - prevlensize

def zipRawEntryLength (zl : Bytes) (p : Nat) : Option Nat := do
  let prevlensize ← zipDecodePrevlensize zl p
  let l ← zipDecodeLength zl (p + prevlensize)
  return prevlensize + l.lensize + l.len

structure Zlentry where
  prevrawlensize : Nat
  prevrawlen : Nat
  lensize : Nat
  len : Nat
  headersize : Nat
  encoding : UInt8
deriving DecidableEq, Repr

def zipEntry (zl : Bytes) (p : Nat) : Option Zlentry := do
  let prev ← zipDecodePrevlen zl p
  let l ← zipDecodeLength zl (p + prev.1)
  return ⟨prev.1, prev.2, l.lensize, l.len, prev.1 + l.lensize, l.encoding⟩

/-! ## Integers -/

/-- `zipTryEncoding`: the integer and its encoding. -/
def zipTryEncoding (entry : Bytes) : Option (Int × UInt8) :=
  if entry.length ≥ 32 ∨ entry.length = 0 then none
  else
    match string2ll entry with
    | none => none
    | some value =>
      some (value,
        if 0 ≤ value ∧ value ≤ 12 then zipIntImmMin + UInt8.ofNat value.toNat
        else if -2 ^ 7 ≤ value ∧ value ≤ 2 ^ 7 - 1 then zipInt8b
        else if -2 ^ 15 ≤ value ∧ value ≤ 2 ^ 15 - 1 then zipInt16b
        else if -2 ^ 23 ≤ value ∧ value ≤ 2 ^ 23 - 1 then zipInt24b
        else if -2 ^ 31 ≤ value ∧ value ≤ 2 ^ 31 - 1 then zipInt32b
        else zipInt64b)

/-- The encodings that hold their value themselves. -/
def zipIsImm (encoding : UInt8) : Bool :=
  decide (zipIntImmMin ≤ encoding) && decide (encoding ≤ zipIntImmMax)

/-- The encodings `zipSaveInteger` and `zipLoadInteger` accept. -/
def zipIsInt (encoding : UInt8) : Bool :=
  zipIsImm encoding || decide (0 < zipIntSize encoding)

/-- `zipSaveInteger`: the bytes it writes, the low `zipIntSize` bytes of the
value in two's complement. -/
def zipSaveInteger (value : Int) (encoding : UInt8) : Option Bytes :=
  if zipIsInt encoding then
    let k := zipIntSize encoding
    some (leBytes k (value % (256 ^ k : Nat)).toNat)
  else none

/-- `zipLoadInteger` from the bytes at `p`. -/
def zipLoadInteger (zl : Bytes) (p : Nat) (encoding : UInt8) : Option Int :=
  if zipIsImm encoding then some ((encoding.toNat % 16 : Nat) - 1)
  else if 0 < zipIntSize encoding then do
    let bs ← load zl p (zipIntSize encoding)
    return Int.bmod (leNat bs) (256 ^ zipIntSize encoding)
  else none

/-! ## Resizing and the cascade -/

def ziplistResize (fill : Nat → UInt8) (zl : Bytes) (len : Nat) : Option Bytes := do
  let len := len % 2 ^ 32
  let zl := zl.take len ++ (List.range (len - zl.length)).map fill
  let zl ← store zl 0 (leBytes 4 len)
  if len = 0 then none else store zl (len - 1) [zipEnd]

/-- The part of the loop of `__ziplistCascadeUpdate` that grows the field of
the entry at `np` by `extra` bytes. -/
def ziplistGrowPrevlen (fill : Nat → UInt8) (zl : Bytes) (curlen np rawlen : Nat)
    (prevrawlensize extra : Nat) : Option Bytes := do
  let zl ← ziplistResize fill zl (curlen + extra)
  let tail ← ziplistTailOffset zl
  let zl ← (if tail ≠ np then setTailOffset zl (tail + extra) else some zl)
  let zl ← move zl (np + zipPrevEncodeLengthSize rawlen) (np + prevrawlensize)
    (curlen - np - prevrawlensize - 1)
  store zl np (zipPrevEncodeLength rawlen)

/-- The loop of `__ziplistCascadeUpdate`. -/
def ziplistCascadeLoop (fill : Nat → UInt8) : Nat → Bytes → Nat → Nat → Option Bytes
  | 0, _, _, _ => none
  | fuel + 1, zl, curlen, p => do
    let b ← zl[p]?
    if b = zipEnd then some zl
    else do
      let cur ← zipEntry zl p
      let rawlen := cur.headersize + cur.len
      let b ← zl[p + rawlen]?
      if b = zipEnd then some zl
      else do
        let next ← zipEntry zl (p + rawlen)
        if next.prevrawlen = rawlen then some zl
        else if next.prevrawlensize < zipPrevEncodeLengthSize rawlen then do
          let extra := zipPrevEncodeLengthSize rawlen - next.prevrawlensize
          let zl ← ziplistGrowPrevlen fill zl curlen (p + rawlen) rawlen next.prevrawlensize extra
          ziplistCascadeLoop fill fuel zl (curlen + extra) (p + rawlen)
        else
          store zl (p + rawlen)
            (if next.prevrawlensize > zipPrevEncodeLengthSize rawlen then
              zipPrevEncodeLengthForceLarge rawlen
            else zipPrevEncodeLength rawlen)

/-- `__ziplistCascadeUpdate`.  The loop goes from entry to entry, so that it
runs fewer times than there are bytes. -/
def ziplistCascadeUpdate (fill : Nat → UInt8) (zl : Bytes) (p : Nat) : Option Bytes := do
  let curlen ← ziplistBytes zl
  ziplistCascadeLoop fill (zl.length + 1) zl curlen p

/-! ## Insertion -/

/-- The length of the entry before the position `p`. -/
def ziplistPrevlen (zl : Bytes) (p : Nat) : Option Nat := do
  let b ← zl[p]?
  if b ≠ zipEnd then do
    let r ← zipDecodePrevlen zl p
    return r.2
  else do
    let ptail ← ziplistTailOffset zl
    let b ← zl[ptail]?
    if b ≠ zipEnd then zipRawEntryLength zl ptail else return 0

/-- The encoding a string is stored with; 0 stands for a string. -/
def zipEncodingOf (s : Bytes) : UInt8 :=
  match zipTryEncoding s with
  | some (_, encoding) => encoding
  | none => 0

/-- `reqlen` of `__ziplistInsert`. -/
def zipReqlen (s : Bytes) (prevlen : Nat) : Nat :=
  (match zipTryEncoding s with
   | some (_, encoding) => zipIntSize encoding
   | none => s.length) +
    zipPrevEncodeLengthSize prevlen + (zipEncodeLength (zipEncodingOf s) s.length).length

/-- What is written behind the `prevlen` field: the length and the payload. -/
def zipBody (s : Bytes) : Option Bytes :=
  match zipTryEncoding s with
  | some (value, encoding) =>
    (zipSaveInteger value encoding).map (zipEncodeLength encoding s.length ++ ·)
  | none => some (zipEncodeLength 0 s.length ++ s)

/-- Making room in front of the entry at `p`: the move, the field of the entry
moved, and the offset of the tail. -/
def ziplistMakeRoom (zl : Bytes) (curlen p reqlen : Nat) (nextdiff : Int) : Option Bytes := do
  let zl ← move zl (p + reqlen) (p - nextdiff).toNat (curlen - p - 1 + nextdiff).toNat
  let zl ← store zl (p + reqlen) (zipPrevEncodeLength reqlen)
  let tailoff ← ziplistTailOffset zl
  let zl ← setTailOffset zl (tailoff + reqlen)
  let tail ← zipEntry zl (p + reqlen)
  let b ← zl[p + reqlen + tail.headersize + tail.len]?
  if b ≠ zipEnd then do
    let tailoff ← ziplistTailOffset zl
    setTailOffset zl ((tailoff + nextdiff) % 2 ^ 32).toNat
  else return zl

def ziplistInsert (fill : Nat → UInt8) (zl : Bytes) (p : Nat) (s : Bytes) : Option Bytes := do
  let curlen ← ziplistBytes zl
  let prevlen ← ziplistPrevlen zl p
  let reqlen := zipReqlen s prevlen
  let b ← zl[p]?
  let nextdiff ← (if b ≠ zipEnd then zipPrevLenByteDiff zl p reqlen else some 0)
  let zl ← ziplistResize fill zl (curlen + reqlen + nextdiff).toNat
  let b ← zl[p]?
  let zl ← (if b ≠ zipEnd then ziplistMakeRoom zl curlen p reqlen nextdiff else setTailOffset zl p)
  let zl ← (if nextdiff ≠ 0 then ziplistCascadeUpdate fill zl (p + reqlen) else some zl)
  let body ← zipBody s
  let zl ← store zl p (zipPrevEncodeLength prevlen ++ body)
  ziplistIncrLength zl 1

inductive ZiplistEnd where
  | head
  | tail
deriving DecidableEq, Repr

def ziplistPush (fill : Nat → UInt8) (zl : Bytes) (s : Bytes) (place : ZiplistEnd) : Option Bytes :=
  match place with
  | .head => ziplistInsert fill zl ziplistHeaderSize s
  | .tail => do
    let bytes ← ziplistBytes zl
    ziplistInsert fill zl (bytes - 1) s

/-! ## Deletion -/

/-- The loop of `__ziplistDelete` that skips the entries to delete: where it
stops, and how many there were. -/
def ziplistSkip (zl : Bytes) : Nat → Nat → Nat → Option (Nat × Nat)
  | 0, p, deleted => some (p, deleted)
  | num + 1, p, deleted => do
    let b ← zl[p]?
    if b = zipEnd then some (p, deleted)
    else do
      let n ← zipRawEntryLength zl p
      ziplistSkip zl num (p + n) (deleted + 1)

/-- Closing the hole from `first` to `p`, in front of the entry at `p`. -/
def ziplistCloseHole (zl : Bytes) (first : Zlentry) (firstp p : Nat) (nextdiff : Int) :
    Option Bytes := do
  let totlen := p - firstp
  let p := (p - nextdiff).toNat
  let zl ← store zl p (zipPrevEncodeLength first.prevrawlen)
  let tailoff ← ziplistTailOffset zl
  let zl ← setTailOffset zl (((tailoff : Int) - totlen) % 2 ^ 32).toNat
  let tail ← zipEntry zl p
  let b ← zl[p + tail.headersize + tail.len]?
  let zl ← (if b ≠ zipEnd then do
      let tailoff ← ziplistTailOffset zl
      setTailOffset zl ((tailoff + nextdiff) % 2 ^ 32).toNat
    else some zl)
  let bytes ← ziplistBytes zl
  move zl firstp p (bytes - p - 1)

/-- `__ziplistDelete`. -/
def ziplistDeleteEntries (fill : Nat → UInt8) (zl : Bytes) (p num : Nat) : Option Bytes := do
  let firstp := p
  let first ← zipEntry zl p
  let r ← ziplistSkip zl num p 0
  let p := r.1
  let totlen := p - firstp
  if totlen > 0 then do
    let b ← zl[p]?
    let nextdiff ← (if b ≠ zipEnd then zipPrevLenByteDiff zl p first.prevrawlen else some 0)
    let zl ← (if b ≠ zipEnd then ziplistCloseHole zl first firstp p nextdiff
      else setTailOffset zl (firstp - first.prevrawlen))
    let bytes ← ziplistBytes zl
    let zl ← ziplistResize fill zl ((bytes : Int) - totlen + nextdiff).toNat
    let zl ← ziplistIncrLength zl (-(r.2 : Int))
    if nextdiff ≠ 0 then ziplistCascadeUpdate fill zl firstp else some zl
  else some zl

/-- The loop of `ziplistIndex` from the head: where it stops, and what is left
of the index. -/
def ziplistIndexLoop (zl : Bytes) : Nat → Nat → Option (Nat × Nat)
  | 0, p => some (p, 0)
  | index + 1, p => do
    let b ← zl[p]?
    if b = zipEnd then some (p, index + 1)
    else do
      let n ← zipRawEntryLength zl p
      ziplistIndexLoop zl index (p + n)

/-- The loop of `ziplistIndex` from the tail. -/
def ziplistIndexBackLoop (zl : Bytes) : Nat → Nat → Nat → Option (Nat × Nat)
  | index, p, 0 => some (p, index)
  | 0, p, _ + 1 => some (p, 0)
  | index + 1, p, prevlen + 1 => do
    let r ← zipDecodePrevlen zl (p - (prevlen + 1))
    ziplistIndexBackLoop zl index (p - (prevlen + 1)) r.2

/-- `ziplistIndex`; the inner `none` is the null pointer. -/
def ziplistIndex (zl : Bytes) (index : Int) : Option (Option Nat) := do
  let r ← (if index < 0 then do
      let tail ← ziplistTailOffset zl
      let b ← zl[tail]?
      let prevlen ← (if b ≠ zipEnd then (zipDecodePrevlen zl tail).map (·.2) else some 0)
      ziplistIndexBackLoop zl (-index - 1).toNat tail prevlen
    else ziplistIndexLoop zl index.toNat ziplistHeaderSize)
  let b ← zl[r.1]?
  return if b = zipEnd ∨ r.2 > 0 then none else some r.1

/-- `ziplistDelete`: the ziplist and the updated pointer. -/
def ziplistDelete (fill : Nat → UInt8) (zl : Bytes) (p : Nat) : Option (Bytes × Nat) := do
  let offset := p
  let zl ← ziplistDeleteEntries fill zl p 1
  return (zl, offset)

/-- `ziplistDeleteRange`.  The index is an `unsigned int`, the argument of
`ziplistIndex` an `int`. -/
def ziplistDeleteRange (fill : Nat → UInt8) (zl : Bytes) (index num : Nat) : Option Bytes := do
  let p ← ziplistIndex zl (Int.bmod index (2 ^ 32))
  match p with
  | none => some zl
  | some p => ziplistDeleteEntries fill zl p num

/-- The value of an entry: a string or an integer. -/
inductive ZipValue where
  | str (s : Bytes)
  | int (v : Int)
deriving DecidableEq, Repr

/-- The bytes a value stands for. -/
def ZipValue.bytes : ZipValue → Bytes
  | .str s => s
  | .int v => ll2string v

/-- `ziplistGet` of an entry. -/
def ziplistGet (zl : Bytes) (p : Nat) : Option ZipValue := do
  let entry ← zipEntry zl p
  if zipIsStr entry.encoding then do
    let s ← load zl (p + entry.headersize) entry.len
    return .str s
  else do
    let v ← zipLoadInteger zl (p + entry.headersize) entry.encoding
    return .int v

end Redis
