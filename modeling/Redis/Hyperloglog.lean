import Redis.PackedBits
import Redis.Sds

/-!
# Redis.Hyperloglog

Adding an element to a HyperLogLog, from `hyperloglog.c`: the hash of the
element, the dense and the sparse representation, and the update of the sparse
one in place.

A HyperLogLog is the string of a string object: a header and the registers.
`none` is an access outside the block of the string or a failed assertion.
-/

namespace Redis

open Bytes

def hllRegisters : Nat := 16384

def hllBits : Nat := 6

def hllHdrSize : Nat := 16

def hllDenseSize : Nat := hllHdrSize + (hllRegisters * hllBits + 7) / 8

def hllDense : UInt8 := 0

def hllSparse : UInt8 := 1

/-- The offset of `encoding` in the header. -/
def hllEncodingOffset : Nat := 4

/-- The offset of `card[7]`, whose top bit marks the cached cardinality as
stale. -/
def hllCardOffset : Nat := 15

/-! ## The hash of an element -/

/-- The constant `m` of `MurmurHash64A`. -/
def murmurM : UInt64 := 0xc6a4a7935bd1e995

/-- The loop of `MurmurHash64A` over the blocks of eight bytes. -/
def murmurBlocks : Nat → Bytes → UInt64 → UInt64
  | 0, _, h => h
  | n + 1, data, h =>
    let k := UInt64.ofNat (leNat (data.take 8)) * murmurM
    let k := (k ^^^ (k >>> 47)) * murmurM
    murmurBlocks n (data.drop 8) ((h ^^^ k) * murmurM)

def murmurHash64A (key : Bytes) (seed : UInt64) : UInt64 :=
  let h := seed ^^^ (UInt64.ofNat key.length * murmurM)
  let h := murmurBlocks (key.length / 8) key h
  let rest := key.drop (key.length / 8 * 8)
  let h := if rest.length = 0 then h else (h ^^^ UInt64.ofNat (leNat rest)) * murmurM
  let h := (h ^^^ (h >>> 47)) * murmurM
  h ^^^ (h >>> 47)

/-- The loop of `hllPatLen`: `bit` moves up from bit 14 on. -/
def hllPatLenLoop (hash : UInt64) : Nat → UInt64 → Nat → Nat
  | 0, _, count => count
  | fuel + 1, bit, count =>
    if hash &&& bit = 0 then hllPatLenLoop hash fuel (bit <<< 1) (count + 1) else count

/-- `hllPatLen`: the index of the register and the length of the pattern.  The
loop ends at bit 63 at the latest, which is set before. -/
def hllPatLen (ele : Bytes) : Nat × Nat :=
  let hash := murmurHash64A ele 0xadc83b19
  let index := hash.toNat % hllRegisters
  let hash := hash ||| ((1 : UInt64) <<< 63)
  (index, hllPatLenLoop hash 50 (UInt64.ofNat hllRegisters) 1)

/-! ## The dense representation -/

def hllDenseGetRegister (registers : Bytes) (regnum : Nat) : Option Nat :=
  PackedBits.get hllBits registers regnum

def hllDenseSetRegister (registers : Bytes) (regnum val : Nat) : Option Bytes :=
  PackedBits.set hllBits registers regnum val

/-- Writes a register of the HyperLogLog `s`. -/
def Sds.setRegister (s : Sds) (regnum val : Nat) : Option Sds := do
  let registers ← hllDenseSetRegister (s.buf.drop hllHdrSize) regnum val
  s.store hllHdrSize registers

def hllDenseAdd (s : Sds) (ele : Bytes) : Option (Sds × Int) := do
  let (index, count) := hllPatLen ele
  let oldcount ← hllDenseGetRegister (s.buf.drop hllHdrSize) index
  if count > oldcount then do
    let s ← s.setRegister index count
    return (s, 1)
  else return (s, 0)

/-! ## The opcodes of the sparse representation -/

def hllSparseIsZero (b : UInt8) : Bool := b &&& 0xc0 == 0

def hllSparseIsXzero (b : UInt8) : Bool := b &&& 0xc0 == 0x40

def hllSparseIsVal (b : UInt8) : Bool := b &&& 0x80 != 0

def hllSparseZeroLen (b : UInt8) : Nat := (b &&& 0x3f).toNat + 1

def hllSparseXzeroLen (b b' : UInt8) : Nat := ((b &&& 0x3f).toNat <<< 8 ||| b'.toNat) + 1

def hllSparseValValue (b : UInt8) : Nat := ((b >>> 2) &&& 0x1f).toNat + 1

def hllSparseValLen (b : UInt8) : Nat := (b &&& 0x3).toNat + 1

def hllSparseValMaxValue : Nat := 32

def hllSparseValMaxLen : Nat := 4

def hllSparseZeroMaxLen : Nat := 64

/-- `HLL_SPARSE_VAL_SET`: the byte it writes. -/
def hllSparseValSet (val len : Nat) : UInt8 := UInt8.ofNat ((val - 1) <<< 2 ||| (len - 1)) ||| 0x80

def hllSparseZeroSet (len : Nat) : Bytes := [UInt8.ofNat (len - 1)]

def hllSparseXzeroSet (len : Nat) : Bytes :=
  [UInt8.ofNat ((len - 1) >>> 8) ||| 0x40, UInt8.ofNat ((len - 1) &&& 0xff)]

/-! ## From sparse to dense -/

/-- The inner loop of `hllSparseToDense`: `runlen` registers get `regval`.  `idx` is an `int`. -/
def hllSetRun (regval : Nat) : Nat → Sds → Nat → Option Sds
  | 0, dense, _ => some dense
  | runlen + 1, dense, idx => do
    let dense ← dense.setRegister (idx % 2 ^ 32) regval
    hllSetRun regval runlen dense (idx + 1)

/-- The loop of `hllSparseToDense`: the dense string, and the number of
registers found. -/
def hllToDenseLoop (sparse : Sds) : Nat → Nat → Sds → Nat → Option (Sds × Nat)
  | 0, _, _, _ => none
  | fuel + 1, p, dense, idx =>
    if p < sparse.len then do
      let b ← sparse.buf[p]?
      if hllSparseIsZero b then hllToDenseLoop sparse fuel (p + 1) dense (idx + hllSparseZeroLen b)
      else if hllSparseIsXzero b then do
        let b' ← sparse.buf[p + 1]?
        hllToDenseLoop sparse fuel (p + 2) dense (idx + hllSparseXzeroLen b b')
      else do
        let dense ← hllSetRun (hllSparseValValue b) (hllSparseValLen b) dense idx
        hllToDenseLoop sparse fuel (p + 1) dense (idx + hllSparseValLen b)
    else some (dense, idx)

/-- `hllSparseToDense`; the inner `none` is `REDIS_ERR`. -/
def hllSparseToDense (o : Sds) : Option (Option Sds) := do
  let encoding ← o.buf[hllEncodingOffset]?
  if encoding = hllDense then return some o
  else do
    let hdr ← load o.buf 0 hllHdrSize
    let dense ← (sdsnewlen hllDenseSize).store 0 hdr
    let dense ← dense.store hllEncodingOffset [hllDense]
    let r ← hllToDenseLoop o (o.len + 1) hllHdrSize dense 0
    return if r.2 % 2 ^ 32 ≠ hllRegisters then none else some r.1

/-! ## Updating the sparse representation -/

/-- Where the search of `hllSparseAdd` stops: the opcode, the one before it,
the first register it covers and how many. -/
structure HllPos where
  p : Nat
  prev : Option Nat
  first : Nat
  span : Nat
deriving DecidableEq, Repr

/-- The number of registers an opcode covers, and its size. -/
def hllSparseSpan (buf : Bytes) (p : Nat) : Option (Nat × Nat) := do
  let b ← buf[p]?
  if hllSparseIsZero b then return (hllSparseZeroLen b, 1)
  else if hllSparseIsVal b then return (hllSparseValLen b, 1)
  else do
    let b' ← buf[p + 1]?
    return (hllSparseXzeroLen b b', 2)

/-- The search of `hllSparseAdd` for the opcode that covers `index`. -/
def hllSparseLocate (s : Sds) (index : Nat) : Nat → HllPos → Option HllPos
  | 0, _ => none
  | fuel + 1, pos =>
    if pos.p < s.len then do
      let r ← hllSparseSpan s.buf pos.p
      if index ≤ pos.first + r.1 - 1 then some { pos with span := r.1 }
      else hllSparseLocate s index fuel ⟨pos.p + r.2, some pos.p, pos.first + r.1, r.1⟩
    else some pos

/-- A run of `len` zeros in the new sequence. -/
def hllZeroRun (len : Nat) : Bytes :=
  if len > hllSparseZeroMaxLen then hllSparseXzeroSet len else hllSparseZeroSet len

/-- The new sequence of opcodes for one that covers `first` to `last`; `run`
writes a run with the old value. -/
def hllSplit (run : Nat → Bytes) (count index first last : Nat) : Bytes :=
  (if index ≠ first then run (index - first) else []) ++
    (hllSparseValSet count 1 ::
      (if index ≠ last then run (last - index) else []))

/-- The merge of `hllSparseAdd`: `end` is where the opcodes end. -/
def hllSparseMerge : Nat → Sds → Nat → Nat → Option Sds
  | 0, s, _, _ => some s
  | scanlen + 1, s, p, fin =>
    if p < fin then do
      let b ← s.buf[p]?
      if hllSparseIsXzero b then hllSparseMerge scanlen s (p + 2) fin
      else if hllSparseIsZero b then hllSparseMerge scanlen s (p + 1) fin
      else do
        let b' ← s.buf[p + 1]?
        let len := hllSparseValLen b + hllSparseValLen b'
        if p + 1 < fin ∧ hllSparseIsVal b' ∧ hllSparseValValue b = hllSparseValValue b' ∧
            len ≤ hllSparseValMaxLen then do
          let s ← s.store (p + 1) [hllSparseValSet (hllSparseValValue b) len]
          let s ← s.move p (p + 1) (fin - p)
          let s ← sdsIncrLen s (-1)
          hllSparseMerge scanlen s p (fin - 1)
        else hllSparseMerge scanlen s (p + 1) fin
    else some s

/-- The label `updated` of `hllSparseAdd`: merge, and `HLL_INVALIDATE_CACHE`. -/
def hllSparseUpdated (s : Sds) (prev : Option Nat) (fin : Nat) : Option (Sds × Int) := do
  let s ← hllSparseMerge 5 s (prev.getD hllHdrSize) fin
  let card ← s.buf[hllCardOffset]?
  let s ← s.store hllCardOffset [card ||| 0x80]
  return (s, 1)

/-- The label `promote` of `hllSparseAdd`. -/
def hllSparsePromote (o : Sds) (ele : Bytes) : Option (Sds × Int) := do
  let r ← hllSparseToDense o
  match r with
  | none => return (o, -1)
  | some dense => do
    let r ← hllDenseAdd dense ele
    if r.2 = 1 then return r else none

/-- Step 3 of `hllSparseAdd`: the new sequence takes the place of the opcode at
`p`. -/
def hllSparseSubstitute (s : Sds) (p oldlen : Nat) (seq : Bytes) : Option Sds := do
  let next := p + oldlen
  let deltalen := (seq.length : Int) - oldlen
  let s ← (if deltalen ≠ 0 ∧ next < s.len then s.move (next + deltalen).toNat next (s.len - next)
    else some s)
  let s ← sdsIncrLen s deltalen
  s.store p seq

/-- Step 2 of `hllSparseAdd` and what follows it, at the opcode found;
`maxBytes` is `server.hll_sparse_max_bytes`. -/
def hllSparseAddAt (maxBytes : Nat) (o : Sds) (ele : Bytes) (index count : Nat) (pos : HllPos) :
    Option (Sds × Int) := do
  let b ← o.buf[pos.p]?
  let runlen ← hllSparseSpan o.buf pos.p
  let isVal := !hllSparseIsZero b && !hllSparseIsXzero b
  let last := pos.first + pos.span - 1
  let oldlen := if hllSparseIsXzero b then 2 else 1
  if isVal && decide (hllSparseValValue b ≥ count) then return (o, 0)
  else if (isVal || hllSparseIsZero b) && runlen.1 == 1 then do
    let o ← o.store pos.p [hllSparseValSet count 1]
    hllSparseUpdated o pos.prev o.len
  else do
    let seq := if isVal then
        hllSplit (fun len => [hllSparseValSet (hllSparseValValue b) len]) count index pos.first last
      else hllSplit hllZeroRun count index pos.first last
    if seq.length > oldlen ∧ o.len + (seq.length - oldlen) > maxBytes then hllSparsePromote o ele
    else do
      let o ← hllSparseSubstitute o pos.p oldlen seq
      hllSparseUpdated o pos.prev o.len

def hllSparseAdd (fill : Nat → UInt8) (maxBytes : Nat) (o : Sds) (ele : Bytes) :
    Option (Sds × Int) := do
  let (index, count) := hllPatLen ele
  if count > hllSparseValMaxValue then hllSparsePromote o ele
  else do
    let o := sdsMakeRoomFor fill o 3
    let pos ← hllSparseLocate o index (o.len + 1) ⟨hllHdrSize, none, 0, 0⟩
    if pos.span = 0 then return (o, -1)
    else hllSparseAddAt maxBytes o ele index count pos

end Redis
