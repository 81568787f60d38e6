import Redis.Bytes

/-!
# Redis.Lzf

The compressor of `lzf_c.c` and the decompressor of `lzf_d.c`, configured as in `lzfP.h`: very
fast, with checked input and a hash table that nothing initialises.

A pointer into the input is a position, and the output is the list of the bytes in front of `op`.
A slot of the hash table is any pointer, given by its distance to `in_data`.  `none` is an access
outside the two buffers, and no bytes are the return value 0.
-/

namespace Redis.Lzf

/-- Writing behind `op` into a buffer of a size. -/
def write (size : Nat) (op bs : Bytes) : Option Bytes :=
  if op.length + bs.length ≤ size then some (op ++ bs) else none

/-! ## The decompressor -/

/-- `*op++ = *ref++`, a number of times. -/
def copyRef (outLen : Nat) : Nat → Nat → Bytes → Option Bytes
  | 0, _, op => some op
  | n + 1, ref, op => do
    let b ← op[ref]?
    let op ← write outLen op [b]
    copyRef outLen n (ref + 1) op

/-- The length and the distance of a back reference, with the input behind it; `none` where the
input ends in it. -/
def backRef (ctrl : UInt8) : Bytes → Option (Nat × Nat × Bytes)
  | [] => none
  | b :: inp =>
    let len := (ctrl >>> 5).toNat
    let off := (ctrl &&& 0x1f).toNat <<< 8
    if len = 7 then
      match inp with
      | [] => none
      | b' :: inp => some (len + b.toNat, off + b'.toNat, inp)
    else some (len, off + b.toNat, inp)

/-- The loop of `lzf_decompress`. -/
def decompressLoop (outLen : Nat) : Nat → Bytes → Bytes → Option Bytes
  | 0, _, _ => none
  | _, [], _ => none
  | fuel + 1, ctrl :: inp, op =>
    if ctrl < 32 then
      let n := ctrl.toNat + 1
      if outLen < op.length + n ∨ inp.length < n then some []
      else do
        let op ← write outLen op (inp.take n)
        if inp.drop n = [] then some op else decompressLoop outLen fuel (inp.drop n) op
    else
      match backRef ctrl inp with
      | none => some []
      | some (len, off, inp) =>
        if outLen < op.length + len + 2 ∨ op.length < off + 1 then some []
        else do
          let op ← copyRef outLen (len + 2) (op.length - (off + 1)) op
          if inp = [] then some op else decompressLoop outLen fuel inp op

def lzfDecompress (inp : Bytes) (outLen : Nat) : Option Bytes :=
  decompressLoop outLen inp.length inp []

/-! ## The compressor -/

section Compressor

variable (data : Bytes) (outLen : Nat)

def frst (ip : Nat) : Option UInt32 := do
  let b ← data[ip]?
  let b' ← data[ip + 1]?
  return (b.toUInt32 <<< 8) ||| b'.toUInt32

def next (hval : UInt32) (ip : Nat) : Option UInt32 :=
  data[ip + 2]?.map fun b => (hval <<< 8) ||| b.toUInt32

def idx (h : UInt32) : UInt32 := ((h >>> 8) - h * 5) &&& 0xFFFF

/-- What the hash table holds. -/
abbrev Htab := UInt32 → Int

/-- `ref[len] == ip[len]`. -/
def same (ref ip len : Nat) : Option Bool := do
  let b ← data[ref + len]?
  let b' ← data[ip + len]?
  return b == b'

/-- The test for a match; the difference is unsigned, and large for a `ref` that is not in front
of `ip`. -/
def isMatch (ip : Nat) (ref : Int) : Option Bool :=
  if ref < ip ∧ ip - ref - 1 < 2 ^ 13 ∧ ip + 4 < data.length ∧ 0 < ref then do
    return (← same data ref.toNat ip 0) && (← same data ref.toNat ip 1) &&
      (← same data ref.toNat ip 2)
  else some false

/-- The unrolled comparisons, `len++; if (ref [len] != ip [len]) break;`, and whether one of them
left the loop. -/
def unrolled (ref ip : Nat) : Nat → Nat → Option (Nat × Bool)
  | 0, len => some (len, false)
  | n + 1, len => do
    if ← same data ref ip (len + 1) then unrolled ref ip n (len + 1) else some (len + 1, true)

/-- `do len++; while (len < maxlen && ref[len] == ip[len]);`. -/
def scan (ref ip maxlen : Nat) : Nat → Nat → Option Nat
  | 0, _ => none
  | fuel + 1, len =>
    if len + 1 < maxlen then do
      if ← same data ref ip (len + 1) then scan ref ip maxlen fuel (len + 1) else some (len + 1)
    else some (len + 1)

def matchLen (ref ip : Nat) : Option Nat := do
  let maxlen := min (data.length - ip - 2) (2 ^ 8 + 2 ^ 3)
  let (len, left) ← if 16 < maxlen then unrolled data ref ip 16 2 else some (2, false)
  if left then return len else scan data ref ip maxlen maxlen len

/-- The bytes of a back reference. -/
def backRefBytes (off len : Nat) : Bytes :=
  if len < 7 then [UInt8.ofNat ((off >>> 8) + (len <<< 5)), UInt8.ofNat off]
  else [UInt8.ofNat ((off >>> 8) + (7 <<< 5)), UInt8.ofNat (len - 7), UInt8.ofNat off]

/-- `op [- lit - 1] = lit - 1`.  The buffer has a byte more than `out_len`. -/
def stopRun (op : Bytes) (lit : Nat) : Option Bytes :=
  if op.length - lit - 1 < outLen + 1 then
    some (op.set (op.length - lit - 1) (UInt8.ofNat lit - 1))
  else none

/-- The same with `op -= !lit`. -/
def endRun (op : Bytes) (lit : Nat) : Option Bytes :=
  (stopRun outLen op lit).map fun op => if lit = 0 then op.dropLast else op

def literal (op : Bytes) (lit : Nat) (b : UInt8) : Option (Bytes × Nat) := do
  let op ← write (outLen + 1) op [b]
  if lit + 1 = 32 then
    let op ← stopRun outLen op (lit + 1)
    return (op ++ [0], 0)
  else return (op, lit + 1)

/-- What follows the loop. -/
def finish (ip : Nat) (op : Bytes) (lit : Nat) : Option Bytes :=
  if outLen < op.length + 3 then some []
  else do
    let (op, lit) ← (data.drop ip).foldlM (fun st b => literal outLen st.1 st.2 b) (op, lit)
    endRun outLen op lit

/-- What the loop of `lzf_compress` keeps. -/
structure State where
  ip : Nat
  op : Bytes
  lit : Nat
  hval : UInt32
  htab : Htab

/-- The two entries of the hash table behind a match, but at the end of the input, where the loop
is left. -/
def rehash (ip : Nat) (hval : UInt32) (htab : Htab) : Option (UInt32 × Htab) :=
  if ip + 2 < data.length then do
    let hval ← frst data (ip - 2)
    let hval ← next data hval (ip - 2)
    let htab := Function.update htab (idx hval) (ip - 2 : Nat)
    let hval ← next data hval (ip - 1)
    return (hval, Function.update htab (idx hval) (ip - 1 : Nat))
  else some (hval, htab)

/-- The loop of `lzf_compress`. -/
def compressLoop : Nat → State → Option Bytes
  | 0, _ => none
  | fuel + 1, st =>
    if st.ip + 2 < data.length then do
      let hval ← next data st.hval st.ip
      let ref := st.htab (idx hval)
      let htab := Function.update st.htab (idx hval) st.ip
      if ← isMatch data st.ip ref then
        let op ← endRun outLen st.op st.lit
        if outLen ≤ op.length + 4 then return []
        else
          let len ← matchLen data ref.toNat st.ip
          let op ← write (outLen + 1) op (backRefBytes (st.ip - ref.toNat - 1) (len - 2))
          let (hval, htab) ← rehash data (st.ip + len) hval htab
          compressLoop fuel ⟨st.ip + len, op ++ [0], 0, hval, htab⟩
      else if outLen ≤ st.op.length then return []
      else
        let b ← data[st.ip]?
        let (op, lit) ← literal outLen st.op st.lit b
        compressLoop fuel ⟨st.ip + 1, op, lit, hval, htab⟩
    else finish data outLen st.ip st.op st.lit

/-- `lzf_compress`; what is reserved for the length of a run is 0 until it is written. -/
def lzfCompress (htab : Htab) : Option Bytes :=
  if data.length = 0 ∨ outLen = 0 then some []
  else do
    let hval ← frst data 0
    compressLoop data outLen (data.length + 1) ⟨0, [0], 0, hval, htab⟩

end Compressor

end Redis.Lzf
