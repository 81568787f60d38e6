import Redis.Hyperloglog.Walk

/-!
# Redis.Hyperloglog.Commands

`PFADD`, `PFCOUNT` and `PFMERGE` on a keyspace.  The cardinality that `hllCount` computes is a
parameter `card`, a function of the registers it has added up.
-/

namespace Redis

open Bytes
open Function (update)

/-- A value: a string, or of another type. -/
inductive HllValue where
  | string (s : Sds)
  | other

/-- The keyspace of a database. -/
abbrev HllDb (κ : Type) := κ → Option HllValue

inductive HllReply where
  | int (n : Int)
  | ok
  | error (msg : String)
deriving DecidableEq, Repr

/-- What a call finds outside the keyspace: the bytes of fresh memory,
`server.hll_sparse_max_bytes`, and whether the value of the key is shared or not raw, so that it
has to be copied before it is changed. -/
structure HllEnv where
  fill : Nat → UInt8
  maxBytes : Nat
  shared : Bool

/-- `shared.wrongtypeerr`. -/
def hllWrongtypeerr : String :=
  "-WRONGTYPE Operation against a key holding the wrong kind of value\r\n"

/-- The error of `isHLLObjectOrReply`. -/
def hllNotValidErr : String := "-WRONGTYPE Key is not a valid HyperLogLog string value.\r\n"

def invalidHllErr : String := "-INVALIDOBJ Corrupted HLL object detected\r\n"

/-- The offset of `card` in the header. -/
def hllCardStart : Nat := 8

def hllSparseXzeroMaxLen : Nat := 16384

/-! ## Values -/

/-- The loop of `createHLLObject`: opcodes for `aux` registers. -/
def createHLLOpcodes : Nat → Nat → Bytes
  | 0, _ => []
  | fuel + 1, aux =>
    if aux = 0 then []
    else
      let xzero := min hllSparseXzeroMaxLen aux
      hllSparseXzeroSet xzero ++ createHLLOpcodes fuel (aux - xzero)

def createHLLObject : Option Sds := do
  let sparselen := hllHdrSize +
    (hllRegisters + (hllSparseXzeroMaxLen - 1)) / hllSparseXzeroMaxLen * 2
  let opcodes := createHLLOpcodes hllRegisters hllRegisters
  let s ← (sdsnewlen sparselen).store hllHdrSize opcodes
  if hllHdrSize + opcodes.length ≠ sparselen then none
  else do
    let s ← s.store 0 hllMagic
    s.store hllEncodingOffset [hllSparse]

def isHLLObjectOrReply : HllValue → Except HllReply Sds
  | .other => .error (.error hllWrongtypeerr)
  | .string s => if isHLLObject s then .ok s else .error (.error hllNotValidErr)

/-- `dbUnshareStringValue`: with `copied`, a new string with the bytes of the old one. -/
def dbUnshareStringValue (copied : Bool) (s : Sds) : Sds :=
  if copied then
    { len := s.len
      free := 0
      buf := s.buf.take s.len ++ [0]
      size := by
        have := s.size
        rw [List.length_append, List.length_take, List.length_singleton]
        omega }
  else s

def hllInvalidateCache (s : Sds) : Option Sds := do
  let card ← s.buf[hllCardOffset]?
  s.store hllCardOffset [card ||| 0x80]

def hllValidCache (s : Sds) : Option Bool := do
  let card ← s.buf[hllCardOffset]?
  return card &&& 0x80 == 0

/-- The cardinality in the header. -/
def hllCachedCard (s : Sds) : Option UInt64 := do
  let bs ← load s.buf hllCardStart 8
  return UInt64.ofNat (leNat bs)

def hllAdd (env : HllEnv) (o : Sds) (ele : Bytes) : Option (Sds × Int) := do
  let encoding ← o.buf[hllEncodingOffset]?
  if encoding = hllDense then hllDenseAdd o ele
  else if encoding = hllSparse then hllSparseAdd env.fill env.maxBytes o ele
  else return (o, -1)

/-! ## Commands -/

section Commands

variable {κ : Type} [DecidableEq κ]

/-- The loop of `pfaddCommand` over the elements: the value, and `updated`; `none` for an invalid
one. -/
def pfaddLoop (env : HllEnv) : Sds → Nat → List Bytes → Option (Sds × Option Nat)
  | o, updated, [] => some (o, some updated)
  | o, updated, ele :: eles => do
    let r ← hllAdd env o ele
    if r.2 = 1 then pfaddLoop env r.1 (updated + 1) eles
    else if r.2 = -1 then return (r.1, none)
    else pfaddLoop env r.1 updated eles

/-- `pfaddCommand`, once the value `o` is there. -/
def pfaddValue (env : HllEnv) (db : HllDb κ) (key : κ) (o : Sds) (updated : Nat)
    (eles : List Bytes) : Option (HllDb κ × HllReply) := do
  let r ← pfaddLoop env o updated eles
  match r.2 with
  | none => return (update db key (some (.string r.1)), .error invalidHllErr)
  | some updated => do
    let o ← if updated ≠ 0 then hllInvalidateCache r.1 else some r.1
    return (update db key (some (.string o)), .int (if updated ≠ 0 then 1 else 0))

def pfaddCommand (env : HllEnv) (db : HllDb κ) (key : κ) (eles : List Bytes) :
    Option (HllDb κ × HllReply) :=
  match db key with
  | none => do
    let o ← createHLLObject
    pfaddValue env db key o 1 eles
  | some value =>
    match isHLLObjectOrReply value with
    | .error e => some (db, e)
    | .ok o => pfaddValue env db key (dbUnshareStringValue env.shared o) 0 eles

/-- The loop of `pfcountCommand` and `pfmergeCommand` over the keys. -/
def hllMergeKeys (db : HllDb κ) : List Nat → List κ → Option (Except HllReply (List Nat))
  | max, [] => some (.ok max)
  | max, key :: keys =>
    match db key with
    | none => hllMergeKeys db max keys
    | some value =>
      match isHLLObjectOrReply value with
      | .error e => some (.error e)
      | .ok o => do
        let r ← hllMerge max o
        match r with
        | none => return .error (.error invalidHllErr)
        | some max => hllMergeKeys db max keys

/-- `addReplyLongLong` of an `uint64_t`. -/
def hllReplyCard (card : UInt64) : HllReply := .int card.toInt64.toInt

/-- `pfcountCommand` for one key. -/
def pfcountKey (card : List Nat → UInt64) (env : HllEnv) (db : HllDb κ) (key : κ) :
    Option (HllDb κ × HllReply) :=
  match db key with
  | none => some (db, .int 0)
  | some value =>
    match isHLLObjectOrReply value with
    | .error e => some (db, e)
    | .ok o => do
      let o := dbUnshareStringValue env.shared o
      let valid ← hllValidCache o
      if valid then do
        let cached ← hllCachedCard o
        return (update db key (some (.string o)), hllReplyCard cached)
      else do
        let r ← hllCount card o
        if r.2 then
          return (update db key (some (.string o)), .error invalidHllErr)
        else do
          let o ← o.store hllCardStart (leBytes 8 r.1.toNat)
          return (update db key (some (.string o)), hllReplyCard r.1)

def pfcountCommand (card : List Nat → UInt64) (env : HllEnv) (db : HllDb κ) :
    List κ → Option (HllDb κ × HllReply)
  | [key] => pfcountKey card env db key
  | keys => do
    let r ← hllMergeKeys db (List.replicate hllRegisters 0) keys
    match r with
    | .error e => return (db, e)
    | .ok registers => return (db, hllReplyCard (hllCountRaw card registers))

/-- The last loop of `pfmergeCommand`: the registers from `j` on. -/
def hllSetRegisters : Sds → Nat → List Nat → Option Sds
  | s, _, [] => some s
  | s, j, val :: max => do
    let s ← s.setRegister j val
    hllSetRegisters s (j + 1) max

/-- `pfmergeCommand`, from the lookup of the destination on. -/
def pfmergeInto (db : HllDb κ) (dest : κ) (o : Sds) (max : List Nat) :
    Option (HllDb κ × HllReply) := do
  let r ← hllSparseToDense o
  match r with
  | none => return (update db dest (some (.string o)), .error invalidHllErr)
  | some dense => do
    let dense ← hllSetRegisters dense 0 max
    let dense ← hllInvalidateCache dense
    return (update db dest (some (.string dense)), .ok)

def pfmergeCommand (env : HllEnv) (db : HllDb κ) (dest : κ) (srcs : List κ) :
    Option (HllDb κ × HllReply) := do
  let r ← hllMergeKeys db (List.replicate hllRegisters 0) (dest :: srcs)
  match r with
  | .error e => return (db, e)
  | .ok max =>
    match db dest with
    | none => do
      let o ← createHLLObject
      pfmergeInto db dest o max
    | some (.string o) => pfmergeInto db dest (dbUnshareStringValue env.shared o) max
    | some .other => none

/-- The commands; a key may also be removed, when it expires for instance. -/
inductive HllCommand (κ : Type) where
  | pfadd (key : κ) (eles : List Bytes)
  | pfcount (keys : List κ)
  | pfmerge (dest : κ) (srcs : List κ)
  | remove (key : κ)

def hllCall (card : List Nat → UInt64) (env : HllEnv) (db : HllDb κ) :
    HllCommand κ → Option (HllDb κ × HllReply)
  | .pfadd key eles => pfaddCommand env db key eles
  | .pfcount keys => pfcountCommand card env db keys
  | .pfmerge dest srcs => pfmergeCommand env db dest srcs
  | .remove key => some (update db key none, .ok)

def hllCalls (card : List Nat → UInt64) (db : HllDb κ) :
    List (HllEnv × HllCommand κ) → Option (HllDb κ)
  | [] => some db
  | (env, cmd) :: cmds => do
    let r ← hllCall card env db cmd
    hllCalls card r.1 cmds

end Commands

end Redis
