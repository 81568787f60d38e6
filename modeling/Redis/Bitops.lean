import Redis.Config
import Redis.Lanes
import Redis.Strings

/-!
# Redis.Bitops

The commands of `bitops.c` over whole strings: `BITCOUNT`, `BITPOS` and `BITOP`.

A pointer to bytes is the bytes from it on and, where the alignment matters, its address.
A word that is loaded has its low byte first.
-/

namespace Redis.Bitops

open Keyspace
open Bytes (leNat leBytes load store)
open Replication (Robj)
open Strings (Types checkType getLongFromObjectOrReply addReplyError)
open Redis.Config (str cstr)
open Redis.Bus (strcaseEq)

/-! ## Counting -/

def bitsinbyte : Array Nat := #[0, 1, 1, 2, 1, 2, 2, 3, 1, 2, 2, 3, 2, 3, 3, 4, 1, 2, 2, 3, 2, 3, 3, 4, 2, 3, 3, 4, 3, 4, 4, 5,
  1, 2, 2, 3, 2, 3, 3, 4, 2, 3, 3, 4, 3, 4, 4, 5, 2, 3, 3, 4, 3, 4, 4, 5, 3, 4, 4, 5, 4, 5, 5, 6,
  1, 2, 2, 3, 2, 3, 3, 4, 2, 3, 3, 4, 3, 4, 4, 5, 2, 3, 3, 4, 3, 4, 4, 5, 3, 4, 4, 5, 4, 5, 5, 6,
  2, 3, 3, 4, 3, 4, 4, 5, 3, 4, 4, 5, 4, 5, 5, 6, 3, 4, 4, 5, 4, 5, 5, 6, 4, 5, 5, 6, 5, 6, 6, 7,
  1, 2, 2, 3, 2, 3, 3, 4, 2, 3, 3, 4, 3, 4, 4, 5, 2, 3, 3, 4, 3, 4, 4, 5, 3, 4, 4, 5, 4, 5, 5, 6,
  2, 3, 3, 4, 3, 4, 4, 5, 3, 4, 4, 5, 4, 5, 5, 6, 3, 4, 4, 5, 4, 5, 5, 6, 4, 5, 5, 6, 5, 6, 6, 7,
  2, 3, 3, 4, 3, 4, 4, 5, 3, 4, 4, 5, 4, 5, 5, 6, 3, 4, 4, 5, 4, 5, 5, 6, 4, 5, 5, 6, 5, 6, 6, 7,
  3, 4, 4, 5, 4, 5, 5, 6, 4, 5, 5, 6, 5, 6, 6, 7, 4, 5, 5, 6, 5, 6, 6, 7, 5, 6, 6, 7, 6, 7, 7, 8]

/-- The loop of `redisPopcount` up to an address that is a multiple of four: the bits, and the
bytes that are left. -/
def popcountAlign (addr : Nat) (bits : Nat) : Bytes → Nat × Bytes
  | [] => (bits, [])
  | b :: p =>
    if addr % 4 ≠ 0 then popcountAlign (addr + 1) (bits + bitsinbyte.getD b.toNat 0) p
    else (bits, b :: p)

/-- What becomes of `aux1` to `aux7` before they are added. -/
def popcountAux (aux : UInt32) : UInt32 :=
  let aux := aux - ((aux >>> 1) &&& (0x55555555 : UInt32))
  let aux := (aux &&& (0x33333333 : UInt32)) + ((aux >>> 2) &&& (0x33333333 : UInt32))
  (aux + (aux >>> 4)) &&& (0x0F0F0F0F : UInt32)

def popcountBlock (p : Bytes) : UInt32 :=
  let aux (i : Nat) : UInt32 := popcountAux (UInt32.ofNat (leNat ((p.drop (4 * i)).take 4)))
  ((aux 0 + aux 1 + aux 2 + aux 3 + aux 4 + aux 5 + aux 6) * 0x01010101) >>> 24

/-- The loop of `redisPopcount` that counts 28 bytes at a time. -/
def popcountBlocks (bits : Nat) (p : Bytes) : Nat × Bytes :=
  if 28 ≤ p.length then popcountBlocks (bits + (popcountBlock (p.take 28)).toNat) (p.drop 28)
  else (bits, p)
termination_by p.length
decreasing_by
  rw [List.length_drop]
  omega

/-- `redisPopcount` of the bytes at an address. -/
def redisPopcount (addr : Nat) (s : Bytes) : Nat :=
  let (bits, p) := popcountAlign addr 0 s
  let (bits, p) := popcountBlocks bits p
  p.foldl (fun bits b => bits + bitsinbyte.getD b.toNat 0) bits

/-! ## Searching -/

/-- The loop of `redisBitpos` up to an address that is a multiple of eight: the bytes that are
left, and `pos`. -/
def bitposAlign (skipval : UInt8) (addr pos : Nat) : Bytes → Bytes × Nat
  | [] => ([], pos)
  | c :: s =>
    if addr % 8 ≠ 0 ∧ c = skipval then bitposAlign skipval (addr + 1) (pos + 8) s
    else (c :: s, pos)

/-- The loop of `redisBitpos` with full word steps. -/
def bitposWords (skipval : UInt64) (pos : Nat) (s : Bytes) : Bytes × Nat :=
  if 8 ≤ s.length ∧ UInt64.ofNat (leNat (s.take 8)) = skipval then
    bitposWords skipval (pos + 64) (s.drop 8)
  else (s, pos)
termination_by s.length
decreasing_by
  rw [List.length_drop]
  omega

/-- The loop that loads up to `n` bytes into `word`, the first one as the most significant. -/
def bitposLoad : Nat → UInt64 → Bytes → UInt64
  | 0, word, _ => word
  | n + 1, word, [] => bitposLoad n (word <<< 8) []
  | n + 1, word, c :: s => bitposLoad n ((word <<< 8) ||| c.toUInt64) s

/-- The scan of the last word, bit by bit, while `one` is not 0. -/
def bitposScan (word : UInt64) (bit : Bool) : Nat → UInt64 → Nat → Option Nat
  | 0, _, _ => none
  | fuel + 1, one, pos =>
    if one = 0 then none
    else if (one &&& word != 0) = bit then some pos
    else bitposScan word bit fuel (one >>> 1) (pos + 1)

/-- `redisBitpos` of the bytes at an address; `none` is its panic. -/
def redisBitpos (addr : Nat) (s : Bytes) (bit : Bool) : Option Int :=
  let (s, pos) := bitposAlign (if bit then 0 else 0xFF) addr 0 s
  let (s, pos) := bitposWords (if bit then 0 else 0xFFFFFFFFFFFFFFFF) pos s
  let word := bitposLoad 8 0 s
  if bit ∧ word = 0 then some (-1)
  else (bitposScan word bit 65 (~~~((0xFFFFFFFFFFFFFFFF : UInt64) >>> 1)) pos).map Int.ofNat

/-! ## Combining -/

/-- `BITOP_AND`, `BITOP_OR`, `BITOP_XOR` and `BITOP_NOT`. -/
inductive BitOp where
  | and
  | or
  | xor
  | not
deriving DecidableEq

namespace BitOp

/-- The name of an operation in the arguments. -/
def parse (opname : Bytes) : Option BitOp :=
  if strcaseEq (cstr opname) (str "and") then some and
  else if strcaseEq (cstr opname) (str "or") then some or
  else if strcaseEq (cstr opname) (str "xor") then some xor
  else if strcaseEq (cstr opname) (str "not") then some not
  else none

/-- `lres[0] &= lp[i][0]` and its like. -/
def word : BitOp → UInt64 → UInt64 → UInt64
  | and => (· &&& ·)
  | or => (· ||| ·)
  | xor => (· ^^^ ·)
  | not => fun x _ => x

/-- The `switch` of the last loop. -/
def byte : BitOp → UInt8 → UInt8 → UInt8
  | and => (· &&& ·)
  | or => (· ||| ·)
  | xor => (· ^^^ ·)
  | not => fun x _ => x

end BitOp

/-- The four words from an offset on. -/
def loadWords (s : Bytes) (off : Nat) : Option (List UInt64) :=
  [off, off + 8, off + 16, off + 24].mapM fun off =>
    (load s off 8).map fun bytes => UInt64.ofNat (leNat bytes)

/-- One pass of a loop of the fast path, over four words of the result. -/
def bitopBlock (op : BitOp) (src : List Bytes) (j : Nat) (res : Bytes) :
    Option Bytes := do
  let lres ← loadWords res j
  let lres ←
    (if op = .not then pure (lres.map (~~~·))
    else src.tail.foldlM (fun lres s => do return List.zipWith op.word lres (← loadWords s j)) lres)
  store res j (lres.flatMap fun w => leBytes 8 w.toNat)

/-- The loop of the fast path: the next byte to process, and the result so far. -/
def bitopWords (op : BitOp) (src : List Bytes) (minlen j : Nat) (res : Bytes) :
    Option (Nat × Bytes) :=
  if 32 ≤ minlen then do
    let res ← bitopBlock op src j res
    bitopWords op src (minlen - 32) (j + 32) res
  else some (j, res)

/-- `output` for one byte. -/
def bitopByte (op : BitOp) (src : List Bytes) (j : Nat) : UInt8 :=
  let output := ((src.headD [])[j]?).getD 0
  let output := if op = .not then ~~~output else output
  src.tail.foldl (fun output s => op.byte output ((s[j]?).getD 0)) output

/-- The computation of `bitopCommand`; a `none` is an access outside a string. -/
def bitopCompute (op : BitOp) (src : List Bytes) (minlen maxlen : Nat) :
    Option Bytes := do
  let res := List.replicate maxlen 0
  let (j, res) ←
    (if 32 ≤ minlen ∧ src.length ≤ 16 then do
      let res ← store res 0 (← load (src.headD []) 0 minlen)
      bitopWords op src minlen 0 res
    else pure (0, res))
  return (List.range' j (maxlen - j)).foldl (fun res j => res.set j (bitopByte op src j)) res

/-! ## Commands -/

variable {V : Type} (env : Env) (types : Types V) (d : Nat)

/-- The indexes of `bitcountCommand` and `bitposCommand` in a string. -/
def bitIndexes (strlen : Nat) (start end_ : Int64) : Int64 × Int64 :=
  let start := if start < 0 then Int64.ofNat strlen + start else start
  let end_ := if end_ < 0 then Int64.ofNat strlen + end_ else end_
  let start := if start < 0 then 0 else start
  let end_ := if end_ < 0 then 0 else end_
  let end_ := if Int64.ofNat strlen ≤ end_ then Int64.ofNat strlen - 1 else end_
  (start, end_)

/-- The start and the end that `bitcountCommand` uses. -/
def bitcountRange (strlen : Nat) : List Robj → Except Keyspace.Reply (Int64 × Int64)
  | [startArg, endArg] =>
    match getLongFromObjectOrReply (some startArg) none,
        getLongFromObjectOrReply (some endArg) none with
    | .error reply, _ => .error reply
    | _, .error reply => .error reply
    | .ok start, .ok end_ => .ok (bitIndexes strlen start end_)
  | [] => .ok (0, Int64.ofNat strlen - 1)
  | _ => .error (.error "ERR syntax error")

/-- `bitcountCommand`; the string of the key is at an address. -/
def bitcountCommand (addr : Nat) (key : Key) (args : List Robj) : Cmd V Keyspace.Reply := do
  match checkType types.string (← lookupKeyRead env d key) with
  | .error reply => return reply
  | .ok none => return .integer 0
  | .ok (some o) =>
    let p := o.bytes
    match bitcountRange p.length args with
    | .error reply => return reply
    | .ok (start, end_) =>
      if end_ < start then return .integer 0
      else
        let bytes := end_ - start + 1
        return .integer (redisPopcount (addr + start.toUInt64.toNat)
          ((p.drop start.toUInt64.toNat).take bytes.toUInt64.toNat))

/-- The start and the end that `bitposCommand` uses, and `end_given`. -/
def bitposRange (strlen : Nat) : List Robj → Except Keyspace.Reply (Int64 × Int64 × Bool)
  | [] => .ok (0, Int64.ofNat strlen - 1, false)
  | [startArg] =>
    match getLongFromObjectOrReply (some startArg) none with
    | .error reply => .error reply
    | .ok start =>
      let (start, end_) := bitIndexes strlen start (Int64.ofNat strlen - 1)
      .ok (start, end_, false)
  | [startArg, endArg] =>
    match getLongFromObjectOrReply (some startArg) none,
        getLongFromObjectOrReply (some endArg) none with
    | .error reply, _ => .error reply
    | _, .error reply => .error reply
    | .ok start, .ok end_ =>
      let (start, end_) := bitIndexes strlen start end_
      .ok (start, end_, true)
  | _ => .error (.error "ERR syntax error")

/-- What `bitposCommand` replies for a range of a string. -/
def bitposReply (addr : Nat) (p : Bytes) (bit : Bool) (start end_ : Int64) (endGiven : Bool) :
    Option Keyspace.Reply :=
  if end_ < start then some (.integer (-1))
  else
    let bytes := end_ - start + 1
    (redisBitpos (addr + start.toUInt64.toNat)
      ((p.drop start.toUInt64.toNat).take bytes.toUInt64.toNat) bit).map fun pos =>
        if endGiven ∧ bit = false ∧ pos = (bytes * 8).toInt then .integer (-1)
        else if pos ≠ -1 then .integer (pos + (start * 8).toInt)
        else .integer pos

/-- `bitposCommand`; the string of the key is at an address. -/
def bitposCommand (addr : Nat) (key : Key) (bitArg : Robj) (args : List Robj) : Cmd V Keyspace.Reply := do
  match getLongFromObjectOrReply (some bitArg) none with
  | .error reply => return reply
  | .ok bit =>
    if bit ≠ 0 ∧ bit ≠ 1 then return addReplyError "The bit argument must be 1 or 0."
    else
      match checkType types.string (← lookupKeyRead env d key) with
      | .error reply => return reply
      | .ok none => return .integer (if bit ≠ 0 then -1 else 0)
      | .ok (some o) =>
        match bitposRange o.bytes.length args with
        | .error reply => return reply
        | .ok (start, end_, endGiven) =>
          let some reply := bitposReply addr o.bytes (bit = 1) start end_ endGiven | failure
          return reply

/-- `src` with the lengths in it, `minlen` and `maxlen`. -/
structure Sources where
  src : List Bytes
  minlen : Nat
  maxlen : Nat

/-- The loop of `bitopCommand` that looks up the keys. -/
def bitopLookup : List Key → Sources → Cmd V (Except Keyspace.Reply Sources)
  | [], acc => return .ok acc
  | key :: keys, acc => do
    match ← lookupKeyRead env d key with
    | none => bitopLookup keys { acc with src := acc.src ++ [[]], minlen := 0 }
    | some v =>
      match types.string.checkType v with
      | none => return .error wrongtypeerr
      | some o =>
        let s := getDecodedObject o
        bitopLookup keys
          { src := acc.src ++ [s]
            maxlen := if acc.maxlen < s.length then s.length else acc.maxlen
            minlen := if acc.src.length = 0 ∨ s.length < acc.minlen then s.length
              else acc.minlen }

/-- The end of `bitopCommand`. -/
def bitopStore (targetkey : Key) (maxlen : Nat) (res : Bytes) : Cmd V Keyspace.Reply := do
  if maxlen ≠ 0 then
    Keyspace.setKey env d targetkey (types.string.create (.raw res))
    return .integer maxlen
  else
    let _ ← Keyspace.dbDelete env d targetkey
    return .integer maxlen

def bitopCommand (opname : Bytes) (targetkey : Key) (keys : List Key) : Cmd V Keyspace.Reply :=
  match BitOp.parse opname with
  | none => pure (.error "ERR syntax error")
  | some op =>
    if op = .not ∧ keys.length ≠ 1 then
      pure (addReplyError "BITOP NOT must be called with a single source key.")
    else do
      match ← bitopLookup env types d keys ⟨[], 0, 0⟩ with
      | .error reply => return reply
      | .ok acc =>
        let some res := bitopCompute op acc.src acc.minlen acc.maxlen | failure
        bitopStore env types d targetkey acc.maxlen res

end Redis.Bitops
