import Redis.Objects
import Redis.Sentinel.Config

/-!
# Redis.Rdb

How `rdb.c` writes string objects and reads them back: lengths, integers in one, two or four
bytes, compressed strings, and strings as they are.

What is written is a list of bytes.  A reader gets the bytes that are left, and is `none` when
they end too early or are not understood.
-/

namespace Redis.Rdb

open Replication (Robj)
open Sentinel (readSign digitsValue)
open Sds (isspace)

/-- `lzf_compress` into a buffer of a size, with no bytes where the result does not fit, and
`lzf_decompress` to a length. -/
structure Lzf where
  compress : Bytes → Nat → Bytes
  decompress : Bytes → Nat → Option Bytes

/-! ## Lengths -/

def rdbSaveLen (len : UInt32) : Bytes :=
  if len < 64 then [len.toUInt8]
  else if len < 16384 then [(len >>> 8).toUInt8 ||| 0x40, len.toUInt8]
  else [0x80, (len >>> 24).toUInt8, (len >>> 16).toUInt8, (len >>> 8).toUInt8, len.toUInt8]

/-- `rdbLoadLen`: the length, or the encoding type with `isencoded`; `REDIS_RDB_LENERR` is `none`. -/
def rdbLoadLen : Bytes → Option (UInt32 × Bool × Bytes)
  | [] => none
  | b :: rdb =>
    let type := (b &&& 0xC0) >>> 6
    if type = 3 then some ((b &&& 0x3F).toUInt32, true, rdb)
    else if type = 0 then some ((b &&& 0x3F).toUInt32, false, rdb)
    else if type = 1 then
      match rdb with
      | b' :: rdb => some (((b &&& 0x3F).toUInt32 <<< 8) ||| b'.toUInt32, false, rdb)
      | [] => none
    else
      match rdb with
      | b₀ :: b₁ :: b₂ :: b₃ :: rdb =>
        let len := (b₀.toUInt32 <<< 24) ||| (b₁.toUInt32 <<< 16) ||| (b₂.toUInt32 <<< 8) |||
          b₃.toUInt32
        if len = 0xFFFFFFFF then none else some (len, false, rdb)
      | _ => none

/-! ## Integers -/

/-- `value & 0xFF`. -/
def lowByte (value : Int) : UInt8 := UInt8.ofNat (value % 256).toNat

/-- `rdbEncodeInteger`; no bytes are 0. -/
def rdbEncodeInteger (value : Int64) : Bytes :=
  let v := value.toInt
  if -2 ^ 7 ≤ v ∧ v ≤ 2 ^ 7 - 1 then [0xC0, lowByte v]
  else if -2 ^ 15 ≤ v ∧ v ≤ 2 ^ 15 - 1 then [0xC1, lowByte v, lowByte (v >>> (8 : Nat))]
  else if -2 ^ 31 ≤ v ∧ v ≤ 2 ^ 31 - 1 then
    [0xC2, lowByte v, lowByte (v >>> (8 : Nat)), lowByte (v >>> (16 : Nat)),
      lowByte (v >>> (24 : Nat))]
  else []

/-- The object of an integer that was read. -/
def integerObject (encode : Bool) (val : Int) : Robj :=
  if encode then createStringObjectFromLongLong val else .raw (ll2string val)

def rdbLoadIntegerObject (enctype : UInt32) (encode : Bool) (rdb : Bytes) :
    Option (Robj × Bytes) :=
  if enctype = 0 then
    match rdb with
    | b₀ :: rdb => some (integerObject encode ((b₀.toNat : Int).bmod (2 ^ 8)), rdb)
    | _ => none
  else if enctype = 1 then
    match rdb with
    | b₀ :: b₁ :: rdb =>
      let v := b₀.toNat ||| b₁.toNat <<< 8
      some (integerObject encode ((v : Int).bmod (2 ^ 16)), rdb)
    | _ => none
  else if enctype = 2 then
    match rdb with
    | b₀ :: b₁ :: b₂ :: b₃ :: rdb =>
      let v := b₀.toNat ||| b₁.toNat <<< 8 ||| b₂.toNat <<< 16 ||| b₃.toNat <<< 24
      some (integerObject encode ((v : Int).bmod (2 ^ 32)), rdb)
    | _ => none
  else none

/-- `strtoll` to the base 10, with what `endptr` points to.  Behind the bytes there is a `NUL`. -/
def strtoll (s : Bytes) : Int64 × Bytes :=
  let (negative, ds) := readSign (s.dropWhile isspace)
  let rest := ds.dropWhile fun b => 48 ≤ b && b ≤ 57
  if rest.length = ds.length then (0, s)
  else
    let v : Int := digitsValue ds
    (Int64.ofInt (if negative then max (-2 ^ 63) (-v) else min (2 ^ 63 - 1) v), rest)

def rdbTryIntegerEncoding (s : Bytes) : Bytes :=
  let (value, endptr) := strtoll s
  if endptr.headD 0 ≠ 0 then []
  else
    let buf := ll2string value.toInt
    if buf.length ≠ s.length ∨ buf ≠ s then [] else rdbEncodeInteger value

/-! ## Strings -/

variable (rdbCompression : Bool) (lzf : Lzf)

/-- `rdbSaveLzfStringObject`; no bytes are 0. -/
def rdbSaveLzfStringObject (s : Bytes) : Bytes :=
  if s.length ≤ 4 then []
  else
    let out := lzf.compress s (s.length - 4)
    if out.length = 0 then []
    else 0xC3 :: (rdbSaveLen (UInt32.ofNat out.length) ++ (rdbSaveLen (UInt32.ofNat s.length) ++ out))

def rdbSaveRawString (s : Bytes) : Bytes :=
  let enc := if s.length ≤ 11 then rdbTryIntegerEncoding s else []
  let compressed := if rdbCompression ∧ 20 < s.length then rdbSaveLzfStringObject lzf s else []
  if enc ≠ [] then enc
  else if compressed ≠ [] then compressed
  else rdbSaveLen (UInt32.ofNat s.length) ++ s

def rdbSaveLongLongAsStringObject (value : Int64) : Bytes :=
  let enc := rdbEncodeInteger value
  if enc ≠ [] then enc
  else
    let buf := ll2string value.toInt
    rdbSaveLen (UInt32.ofNat buf.length) ++ buf

def rdbSaveStringObject : Robj → Bytes
  | .int n => rdbSaveLongLongAsStringObject n
  | .raw s => rdbSaveRawString rdbCompression lzf s

/-- `rioRead` of a number of bytes. -/
def rioRead (rdb : Bytes) (len : UInt32) : Option (Bytes × Bytes) :=
  if len.toNat ≤ rdb.length then some (rdb.take len.toNat, rdb.drop len.toNat) else none

def rdbLoadLzfStringObject (rdb : Bytes) : Option (Robj × Bytes) := do
  let (clen, _, rdb) ← rdbLoadLen rdb
  let (len, _, rdb) ← rdbLoadLen rdb
  let (c, rdb) ← rioRead rdb clen
  let val ← lzf.decompress c len.toNat
  return (.raw val, rdb)

def rdbGenericLoadStringObject (encode : Bool) (rdb : Bytes) : Option (Robj × Bytes) :=
  match rdbLoadLen rdb with
  | none => none
  | some (len, true, rdb) =>
    if len ≤ 2 then rdbLoadIntegerObject len encode rdb
    else if len = 3 then rdbLoadLzfStringObject lzf rdb
    else none
  | some (len, false, rdb) => (rioRead rdb len).map fun (s, rdb) => (.raw s, rdb)

end Redis.Rdb
