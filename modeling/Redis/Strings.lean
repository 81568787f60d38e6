import Redis.Keyspace.View
import Redis.Replication.Replay

/-!
# Redis.Strings

The commands of `t_string.c` and `t_hash.c` that compute with numbers and with byte
ranges: `INCR` and its relatives, `HINCRBY`, `SETRANGE` and `GETRANGE`.

A `long` and a `long long` are an `Int64`, whose arithmetic wraps.  The value of an
argument is its bytes.
-/

namespace Redis.Strings

open Keyspace
open Replication (Robj)

/-- What the commands depend on besides the keyspace: the string objects and the hashes among the
values, a hash being its fields in either encoding, and whether an object is used only by its key. -/
structure Types (V : Type) where
  string : ObjType V Robj
  hash : ObjType V (EncDict Robj)
  refcountOne : V → Bool

/-! ## Arguments -/

/-- `getLongLongFromObject`; `NULL` is 0. -/
def getLongLongFromObject : Option Robj → Option Int64
  | none => some 0
  | some (.raw s) => (Replication.getLongLongFromObject s).map Int64.ofInt
  | some (.int n) => some n

def addReplyError (msg : String) : Keyspace.Reply := .error ("ERR " ++ msg)

def getLongLongFromObjectOrReply (o : Option Robj) (msg : Option String) : Except Keyspace.Reply Int64 :=
  match getLongLongFromObject o with
  | some value => .ok value
  | none => .error (addReplyError (msg.getD "value is not an integer or out of range"))

/-- `getLongFromObjectOrReply`; a `long` is a `long long`. -/
def getLongFromObjectOrReply (o : Option Robj) (msg : Option String) : Except Keyspace.Reply Int64 :=
  getLongLongFromObjectOrReply o msg

variable {V : Type} (env : Env) (types : Types V) (d : Nat)

/-- `checkType` of an object that may be `NULL`, which passes. -/
def checkType {O : Type} (type : ObjType V O) : Option V → Except Keyspace.Reply (Option O)
  | none => .ok none
  | some v =>
    match type.checkType v with
    | some o => .ok (some o)
    | none => .error wrongtypeerr

section Errors

variable {o : Option Robj} {msg : Option String} {O : Type} {type : ObjType V O} {reply : Keyspace.Reply}

theorem getLongLong_error (h : getLongLongFromObjectOrReply o msg = .error reply) :
    ∃ text, reply = .error text := by
  rw [getLongLongFromObjectOrReply] at h
  split at h
  · cases h
  · cases h
    exact ⟨_, rfl⟩

theorem getLongLong_cases (o : Option Robj) (msg : Option String) :
    (∃ n, getLongLongFromObject o = some n ∧ getLongLongFromObjectOrReply o msg = .ok n) ∨
      ∃ text, getLongLongFromObject o = none ∧
        getLongLongFromObjectOrReply o msg = .error (.error text) := by
  rw [getLongLongFromObjectOrReply]
  cases getLongLongFromObject o with
  | none => exact .inr ⟨_, rfl, rfl⟩
  | some n => exact .inl ⟨n, rfl, rfl⟩

theorem checkType_error {x : Option V} (h : checkType type x = .error reply) :
    ∃ text, reply = .error text := by
  cases x with
  | none => cases h
  | some v =>
    rw [checkType] at h
    split at h
    · cases h
    · cases h
      exact ⟨_, rfl⟩

end Errors

/-! ## Counters -/

def redisSharedIntegers : Int64 := 10000

/-- The test before an addition. -/
def wouldOverflow (incr oldvalue : Int64) : Bool :=
  (incr < 0 && oldvalue < 0 && incr < Int64.minValue - oldvalue) ||
    (0 < incr && 0 < oldvalue && Int64.maxValue - oldvalue < incr)

def Types.longLong (value : Int64) : V := types.string.create (createStringObjectFromLongLong value.toInt)

/-- The end of `incrDecrCommand`: an object of a number that only its key uses is changed where it
is, unless the new number is shared. -/
def storeLongLong (key : Key) (o : Option V) (so : Option Robj) (value : Int64) : Cmd V Unit :=
  match o, so with
  | some v, some (.int _) =>
    if types.refcountOne v ∧ (value < 0 ∨ redisSharedIntegers ≤ value) then
      updateValue d key (types.string.create (.int value))
    else Keyspace.dbOverwrite d key (types.longLong value)
  | some _, _ => Keyspace.dbOverwrite d key (types.longLong value)
  | none, _ => Keyspace.dbAdd env d key (types.longLong value)

def incrDecrCommand (key : Key) (incr : Int64) : Cmd V Keyspace.Reply := do
  let o ← Keyspace.lookupKeyWrite env d key
  match checkType types.string o with
  | .error reply => return reply
  | .ok so =>
    match getLongLongFromObjectOrReply so none with
    | .error reply => return reply
    | .ok oldvalue =>
      if wouldOverflow incr oldvalue then
        return addReplyError "increment or decrement would overflow"
      else
        let value := oldvalue + incr
        storeLongLong env types d key o so value
        return .integer value.toInt

def incrCommand (key : Key) : Cmd V Keyspace.Reply := incrDecrCommand env types d key 1

def decrCommand (key : Key) : Cmd V Keyspace.Reply := incrDecrCommand env types d key (-1)

def incrbyCommand (key : Key) (arg : Robj) : Cmd V Keyspace.Reply :=
  match getLongLongFromObjectOrReply (some arg) none with
  | .error reply => pure reply
  | .ok incr => incrDecrCommand env types d key incr

def decrbyCommand (key : Key) (arg : Robj) : Cmd V Keyspace.Reply :=
  match getLongLongFromObjectOrReply (some arg) none with
  | .error reply => pure reply
  | .ok incr => incrDecrCommand env types d key (-incr)

def hashTypeLookupWriteOrCreate (key : Key) : Cmd V (Except Keyspace.Reply (EncDict Robj)) := do
  let o ← Keyspace.lookupKeyWrite env d key
  match checkType types.hash o with
  | .error reply => return .error reply
  | .ok (some o) => return .ok o
  | .ok none =>
    Keyspace.dbAdd env d key (types.hash.create .empty)
    return .ok .empty

def hincrbyCommand (key : Key) (field arg : Robj) : Cmd V Keyspace.Reply := do
  match getLongLongFromObjectOrReply (some arg) none with
  | .error reply => return reply
  | .ok incr =>
    match ← hashTypeLookupWriteOrCreate env types d key with
    | .error reply => return reply
    | .ok o =>
      match getLongLongFromObjectOrReply (o.find field) (some "hash value is not an integer") with
      | .error reply => return reply
      | .ok oldvalue =>
        if wouldOverflow incr oldvalue then
          return addReplyError "increment or decrement would overflow"
        else
          let value := oldvalue + incr
          let new := createStringObjectFromLongLong value.toInt
          updateValue d key (types.hash.create (o.put field new).1)
          return .integer value.toInt

/-! ## Ranges -/

/-- `checkStringLength`; `size` is what the sum of an offset and a length is as a `long long`. -/
def checkStringLength (size : Int64) : Except Keyspace.Reply Unit :=
  if 512 * 1024 * 1024 < size then
    .error (addReplyError "string exceeds maximum allowed size (512MB)")
  else .ok ()

/-- `sdsgrowzero`; there is no memory for half of the address space or more, and the server aborts. -/
def sdsgrowzero (s : Bytes) (len : UInt64) : Option Bytes :=
  if len.toNat ≤ s.length then some s
  else if 2 ^ 63 ≤ len.toNat then none
  else some (s ++ List.replicate (len.toNat - s.length) 0)

/-- `memcpy` of all of `value` to an offset. -/
def memcpyAt (s : Bytes) (offset : Nat) (value : Bytes) : Option Bytes :=
  if offset + value.length ≤ s.length then
    some (s.take offset ++ value ++ s.drop (offset + value.length))
  else none

/-- `dbUnshareStringValue`: the key gets an object of its own, with the bytes in memory. -/
def dbUnshareStringValue (key : Key) (v : V) (o : Robj) : Cmd V Unit :=
  if types.refcountOne v = true ∧ o = .raw o.bytes then pure ()
  else Keyspace.dbOverwrite d key (types.string.create (.raw o.bytes))

/-- What `setrangeCommand` does when the key is checked, with the bytes the object has. -/
def setrangeObject (key : Key) (o : Bytes) (offset : Int64) (value : Bytes) :
    Cmd V Keyspace.Reply := do
  let some grown := sdsgrowzero o (offset.toUInt64 + UInt64.ofNat value.length) | failure
  let some ptr := memcpyAt grown offset.toUInt64.toNat value | failure
  updateValue d key (types.string.create (.raw ptr))
  return .integer ptr.length

/-- What `setrangeCommand` does with the object it looked up: the reply where it is done, or the
bytes of the object that the value is copied to. -/
def setrangeLookup (key : Key) (offset : Int64) (value : Bytes) :
    Option V → Cmd V (Except Keyspace.Reply Bytes)
  | none =>
    if value.length = 0 then pure (.error (.integer 0))
    else
      match checkStringLength (offset.toUInt64 + UInt64.ofNat value.length).toInt64 with
      | .error reply => pure (.error reply)
      | .ok () => do
        Keyspace.dbAdd env d key (types.string.create (.raw []))
        return .ok []
  | some v =>
    match types.string.checkType v with
    | none => pure (.error wrongtypeerr)
    | some o =>
      if value.length = 0 then pure (.error (.integer o.bytes.length))
      else
        match checkStringLength (offset.toUInt64 + UInt64.ofNat value.length).toInt64 with
        | .error reply => pure (.error reply)
        | .ok () => do
          dbUnshareStringValue types d key v o
          return .ok o.bytes

def setrangeCommand (key : Key) (arg : Robj) (value : Bytes) : Cmd V Keyspace.Reply := do
  match getLongFromObjectOrReply (some arg) none with
  | .error reply => return reply
  | .ok offset =>
    if offset < 0 then return addReplyError "offset is out of range"
    else
      let o ← Keyspace.lookupKeyWrite env d key
      match ← setrangeLookup env types d key offset value o with
      | .error reply => return reply
      | .ok bytes => setrangeObject types d key bytes offset value

/-- The indexes of `getrangeCommand` in a string. -/
def getrangeIndexes (strlen : Nat) (start end_ : Int64) : Int64 × Int64 :=
  let start := if start < 0 then Int64.ofNat strlen + start else start
  let end_ := if end_ < 0 then Int64.ofNat strlen + end_ else end_
  let start := if start < 0 then 0 else start
  let end_ := if end_ < 0 then 0 else end_
  let end_ := if strlen ≤ end_.toUInt64.toNat then Int64.ofNat strlen - 1 else end_
  (start, end_)

def getrangeCommand (key : Key) (startArg endArg : Robj) : Cmd V Keyspace.Reply := do
  match getLongLongFromObjectOrReply (some startArg) none,
      getLongLongFromObjectOrReply (some endArg) none with
  | .error reply, _ => return reply
  | _, .error reply => return reply
  | .ok start, .ok end_ =>
    match checkType types.string (← lookupKeyRead env d key) with
    | .error reply => return reply
    | .ok none => return .bulk []
    | .ok (some o) =>
      let str := o.bytes
      let (start, end_) := getrangeIndexes str.length start end_
      if end_ < start ∨ str.length = 0 then return .bulk []
      else return .bulk ((str.drop start.toUInt64.toNat).take (end_ - start + 1).toUInt64.toNat)

/-! ## A server without keys -/

/-- Values of the two types that the commands know. -/
inductive Value where
  | string (o : Robj)
  | hash (h : EncDict Robj)

/-- The types of these values, with objects that are not shared. -/
def valueTypes : Types Value where
  string :=
    { create := .string
      checkType := fun v => match v with
        | .string o => some o
        | .hash _ => none
      checkType_create := fun _ => rfl
      create_checkType := fun {v o} h => by
        cases v with
        | string o' => exact congrArg Value.string (Option.some.inj h).symm
        | hash h' => cases h }
  hash :=
    { create := .hash
      checkType := fun v => match v with
        | .string _ => none
        | .hash h => some h
      checkType_create := fun _ => rfl
      create_checkType := fun {v o} h => by
        cases v with
        | string o' => cases h
        | hash h' => exact congrArg Value.hash (Option.some.inj h).symm }
  refcountOne _ := true

/-- A master that is no part of a cluster. -/
def plainEnv : Env := ⟨0, false, false, false, 16⟩

def emptyServer : Server V := ⟨fun _ => ⟨.empty, .empty⟩, []⟩

theorem emptyServer_sees : Sees plainEnv (emptyServer : Server V) fun _ _ => none := by
  refine ⟨fun _ _ => none, .of_tables (fun d key => rfl) (fun d key => rfl) fun h => ?_, ?_⟩
  · exact absurd h Bool.false_ne_true
  · funext d key
    rfl

/-- The server with one key, of its first database. -/
def oneKeyServer (key : Key) (v : V) : Server V :=
  ⟨Function.update emptyServer.db 0 ⟨(Keyed.Table.empty.put key v).1, .empty⟩, []⟩

theorem oneKeyServer_sees (key : Key) (v : V) :
    Sees plainEnv (oneKeyServer key v) (Dataset.set (fun _ _ => none) 0 key (some (v, none))) := by
  have hempty : Represents plainEnv (emptyServer : Server V) fun _ _ => none :=
    .of_tables (fun d key => rfl) (fun d key => rfl) fun h => absurd h Bool.false_ne_true
  have hone : Represents plainEnv (oneKeyServer key v)
      (Dataset.set (fun _ _ => none) 0 key (some (v, none))) :=
    hempty.update (Keyed.Table.put_spec _ key v).1 (Function.update_eq_self key _).symm
      fun h => absurd h Bool.false_ne_true
  exact ⟨_, hone, live_set _ _ _ _ _ rfl⟩

end Redis.Strings
