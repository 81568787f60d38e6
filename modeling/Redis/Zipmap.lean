import Redis.Bytes

/-!
# Redis.Zipmap

The zipmap of `zipmap.c`, byte for byte: the number of entries, the entries, and a terminator.  An
entry is a key, the length of a value, the number of spare bytes, the value, and the spare bytes.

A pointer into the zipmap is an offset, and `none` an access outside the allocated block.
`zrealloc` leaves new memory undefined: `fill` is what it happens to hold.  Sizes are natural
numbers: all of them are below `2 ^ 32`, where an `unsigned int` does not wrap around.
-/

namespace Redis

open Bytes

def zipmapBiglen : Nat := 254

def zipmapEnd : UInt8 := 255

def zipmapValueMaxFree : Nat := 4

def zipmapLenBytes (l : Nat) : Nat := if l < zipmapBiglen then 1 else 5

def zipmapNew : Bytes := [0, zipmapEnd]

def zipmapDecodeLength (zm : Bytes) (p : Nat) : Option Nat := do
  let b ← zm[p]?
  if b.toNat < zipmapBiglen then return b.toNat
  else (load zm (p + 1) 4).map leNat

/-- `zipmapEncodeLength`: the bytes it writes. -/
def zipmapEncodeLength (len : Nat) : Bytes :=
  if len < zipmapBiglen then [UInt8.ofNat len] else UInt8.ofNat zipmapBiglen :: leBytes 4 len

/-! ## Searching -/

/-- The test of `zipmapLookupRaw` on the key at `p`, of length `l`; `k` is the entry found. -/
def zipmapMatch (zm : Bytes) (key : Option Bytes) (k : Option Nat) (p l : Nat) : Option Bool :=
  match key, k with
  | some key, none =>
    if l = key.length then
      (load zm (p + zipmapLenBytes l) l).map fun bs => decide (bs = key)
    else some false
  | _, _ => some false

/-- The loop of `zipmapLookupRaw`.  With `totlen` it goes on to the end. -/
def zipmapLookupLoop (zm : Bytes) (key : Option Bytes) (totlen : Bool) :
    Nat → Nat → Option Nat → Option (Option Nat × Nat)
  | 0, _, _ => none
  | fuel + 1, p, k => do
    let b ← zm[p]?
    if b = zipmapEnd then some (k, p + 1)
    else do
      let l ← zipmapDecodeLength zm p
      let hit ← zipmapMatch zm key k p l
      if hit && !totlen then some (some p, 0)
      else do
        let q := p + (zipmapLenBytes l + l)
        let l ← zipmapDecodeLength zm q
        let free ← zm[q + zipmapLenBytes l]?
        zipmapLookupLoop zm key totlen fuel (q + (zipmapLenBytes l + (free.toNat + 1 + l)))
          (if hit then some p else k)

/-- `zipmapLookupRaw`: the entry, and `*totlen` where it is asked for.  A null `key` is `none`. -/
def zipmapLookupRaw (zm : Bytes) (key : Option Bytes) (totlen : Bool) :
    Option (Option Nat × Nat) :=
  zipmapLookupLoop zm key totlen zm.length 1 none

def zipmapRequiredLength (klen vlen : Nat) : Nat :=
  klen + vlen + 3 + (if klen ≥ zipmapBiglen then 4 else 0) + if vlen ≥ zipmapBiglen then 4 else 0

def zipmapRawKeyLength (zm : Bytes) (p : Nat) : Option Nat := do
  let l ← zipmapDecodeLength zm p
  return zipmapLenBytes l + l

def zipmapRawValueLength (zm : Bytes) (p : Nat) : Option Nat := do
  let l ← zipmapDecodeLength zm p
  let free ← zm[p + zipmapLenBytes l]?
  return zipmapLenBytes l + (free.toNat + 1 + l)

def zipmapRawEntryLength (zm : Bytes) (p : Nat) : Option Nat := do
  let l ← zipmapRawKeyLength zm p
  let v ← zipmapRawValueLength zm (p + l)
  return l + v

/-! ## Changing -/

def zipmapResize (fill : Nat → UInt8) (zm : Bytes) (len : Nat) : Option Bytes :=
  store (zm.take len ++ (List.range (len - zm.length)).map fill) (len - 1) [zipmapEnd]

/-- The tail behind `freelen` bytes at `p` comes to stand behind `reqlen` bytes. -/
def zipmapMoveTail (zm : Bytes) (p reqlen freelen zmlen : Nat) : Option Bytes :=
  move zm (p + reqlen) (p + freelen) (zmlen - (p + freelen + 1))

/-- The end of `zipmapSet`: the key and the value are written at `p`. -/
def zipmapWrite (zm : Bytes) (p : Nat) (key val : Bytes) (vempty : Nat) : Option Bytes := do
  let zm ← store zm p (zipmapEncodeLength key.length)
  let p := p + (zipmapEncodeLength key.length).length
  let zm ← store zm p key
  let p := p + key.length
  let zm ← store zm p (zipmapEncodeLength val.length)
  let p := p + (zipmapEncodeLength val.length).length
  let zm ← store zm p [UInt8.ofNat vempty]
  store zm (p + 1) val

/-- `zm[0] += diff` unless the counter is saturated. -/
def zipmapIncrLength (zm : Bytes) (diff : UInt8) : Option Bytes := do
  let b ← zm[0]?
  if b.toNat < zipmapBiglen then store zm 0 [b + diff] else return zm

/-- The second half of `zipmapSet`: from the block of `freelen` bytes at `p` on. -/
def zipmapPut (fill : Nat → UInt8) (zm : Bytes) (p zmlen freelen reqlen : Nat) (key val : Bytes) :
    Option Bytes := do
  let empty := freelen - reqlen
  if empty ≥ zipmapValueMaxFree then do
    let zm ← zipmapMoveTail zm p reqlen freelen zmlen
    let zm ← zipmapResize fill zm (zmlen - empty)
    zipmapWrite zm p key val 0
  else zipmapWrite zm p key val empty

/-- `zipmapSet` on an entry that is there: the zipmap grows first if the block is too small. -/
def zipmapReplace (fill : Nat → UInt8) (zm : Bytes) (p zmlen freelen reqlen : Nat)
    (key val : Bytes) : Option Bytes := do
  if freelen < reqlen then do
    let zm ← zipmapResize fill zm (zmlen - freelen + reqlen)
    let zm ← zipmapMoveTail zm p reqlen freelen zmlen
    zipmapPut fill zm p (zmlen - freelen + reqlen) reqlen reqlen key val
  else zipmapPut fill zm p zmlen freelen reqlen key val

/-- `zipmapSet`, with `*update`. -/
def zipmapSet (fill : Nat → UInt8) (zm key val : Bytes) : Option (Bytes × Bool) := do
  let reqlen := zipmapRequiredLength key.length val.length
  let r ← zipmapLookupRaw zm (some key) true
  let zmlen := r.2
  match r.1 with
  | none => do
    let zm ← zipmapResize fill zm (zmlen + reqlen)
    let zm ← zipmapIncrLength zm 1
    let zm ← zipmapPut fill zm (zmlen - 1) (zmlen + reqlen) reqlen reqlen key val
    return (zm, false)
  | some p => do
    let freelen ← zipmapRawEntryLength zm p
    let zm ← zipmapReplace fill zm p zmlen freelen reqlen key val
    return (zm, true)

/-- `zipmapDel`, with `*deleted`. -/
def zipmapDel (fill : Nat → UInt8) (zm key : Bytes) : Option (Bytes × Bool) := do
  let r ← zipmapLookupRaw zm (some key) true
  match r.1 with
  | none => return (zm, false)
  | some p => do
    let freelen ← zipmapRawEntryLength zm p
    let zm ← zipmapMoveTail zm p 0 freelen r.2
    let zm ← zipmapResize fill zm (r.2 - freelen)
    let zm ← zipmapIncrLength zm (-1)
    return (zm, true)

/-! ## Reading -/

/-- `zipmapNext`: the next pointer, `none` inside at the end. -/
def zipmapNext (zm : Bytes) (p : Nat) : Option (Option Nat) := do
  let b ← zm[p]?
  if b = zipmapEnd then return none
  else do
    let l ← zipmapRawEntryLength zm p
    return some (p + l)

/-- The key that `zipmapNext` reports of an entry. -/
def zipmapKey (zm : Bytes) (p : Nat) : Option Bytes := do
  let klen ← zipmapDecodeLength zm p
  load zm (p + zipmapLenBytes klen) klen

/-- The value that `zipmapNext` and `zipmapGet` report of an entry. -/
def zipmapValue (zm : Bytes) (p : Nat) : Option Bytes := do
  let l ← zipmapRawKeyLength zm p
  let vlen ← zipmapDecodeLength zm (p + l)
  load zm (p + l + (zipmapLenBytes vlen + 1)) vlen

/-- The loop `while ((p = zipmapNext(p,...)) != NULL)`: the entries that it sees. -/
def zipmapWalk (zm : Bytes) : Nat → Nat → Option (List Nat)
  | 0, _ => none
  | fuel + 1, p => do
    match ← zipmapNext zm p with
    | none => return []
    | some q => do
      let ps ← zipmapWalk zm fuel q
      return p :: ps

/-- `zipmapRewind`, and `zipmapNext` until it ends: the pairs that it reports. -/
def zipmapPairs (zm : Bytes) : Option (List (Bytes × Bytes)) := do
  let ps ← zipmapWalk zm zm.length 1
  ps.mapM fun p => do
    let key ← zipmapKey zm p
    let val ← zipmapValue zm p
    return (key, val)

def zipmapGet (zm key : Bytes) : Option (Option Bytes) := do
  let r ← zipmapLookupRaw zm (some key) false
  match r.1 with
  | none => return none
  | some p => (zipmapValue zm p).map some

def zipmapExists (zm key : Bytes) : Option Bool :=
  (zipmapLookupRaw zm (some key) false).map fun r => r.1.isSome

/-- `zipmapLen`, which may write the length down. -/
def zipmapLen (zm : Bytes) : Option (Bytes × Nat) := do
  let b ← zm[0]?
  if b.toNat < zipmapBiglen then return (zm, b.toNat)
  else do
    let ps ← zipmapWalk zm zm.length 1
    if ps.length < zipmapBiglen then do
      let zm ← store zm 0 [UInt8.ofNat ps.length]
      return (zm, ps.length)
    else return (zm, ps.length)

def zipmapBlobLen (zm : Bytes) : Option Nat := (zipmapLookupRaw zm none true).map Prod.snd

end Redis
