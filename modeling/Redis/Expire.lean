import Redis.Aof.Expire
import Redis.Strings

/-!
# Redis.Expire

The commands that compute a time in the future: `SET` with its options and its relatives,
`EXPIRE` and its relatives, `RESTORE`, and the timeout of the blocking commands.

A `long long` is an `Int64`, and `long long` arithmetic wraps.
-/

namespace Redis.Expire

open Keyspace
open Aof (SetOptions setOptions)
open Strings (getLongLongFromObjectOrReply addReplyError)
open Redis.Config (str cstr)
open Redis.Bus (strcaseEq)

def syntaxerr : Keyspace.Reply := .error "ERR syntax error"

def busykeyerr : Keyspace.Reply := .error "BUSYKEY Target key name already exists."

/-- `getLongLongFromObjectOrReply` of an argument. -/
def getLongLongFromArg (arg : Bytes) (msg : Option String) : Except Keyspace.Reply Int64 :=
  getLongLongFromObjectOrReply (some (.raw arg)) msg

/-- A number of seconds or of milliseconds in milliseconds. -/
def toMilliseconds (seconds : Bool) (v : Int64) : Int64 := if seconds then v * 1000 else v

variable {V : Type} (env : Env) (d : Nat) (key : Key)

/-- `mstime()`. -/
def mstime : Int64 := Int64.ofInt env.now

/-! ## `t_string.c` -/

/-- The expire time that `setGenericCommand` reads, for a command with a name; seconds are `true`. -/
def setMilliseconds (name : String) :
    Option (Bytes × Bool) → Except Keyspace.Reply (Option Int64)
  | none => .ok none
  | some (expire, seconds) =>
    match getLongLongFromArg expire none with
    | .error reply => .error reply
    | .ok milliseconds =>
      if milliseconds ≤ 0 then .error (addReplyError ("invalid expire time in " ++ name))
      else .ok (some (toMilliseconds seconds milliseconds))

/-- The test of the flags in `setGenericCommand`. -/
def setAborts (nx xx : Bool) : Cmd V Bool := do
  let found ← (if nx then Option.isSome <$> Keyspace.lookupKeyWrite env d key else pure false)
  if found then return true
  else if xx then Option.isNone <$> Keyspace.lookupKeyWrite env d key
  else return false

def setGenericCommand (name : String) (nx xx : Bool) (val : V)
    (expire : Option (Bytes × Bool)) (okReply abortReply : Option Keyspace.Reply) : Cmd V Keyspace.Reply :=
  match setMilliseconds name expire with
  | .error reply => pure reply
  | .ok milliseconds => do
    if ← setAborts env d key nx xx then return abortReply.getD .nullbulk
    else
      Keyspace.setKey env d key val
      match milliseconds with
      | none => return okReply.getD (.status "OK")
      | some ms =>
        Keyspace.setExpire d key (mstime env + ms).toInt
        return okReply.getD (.status "OK")

def setCommand (val : V) (options : List Bytes) : Cmd V Keyspace.Reply :=
  match setOptions ⟨false, false, none⟩ options with
  | none => pure syntaxerr
  | some o => setGenericCommand env d key "set" o.nx o.xx val o.expire none none

def setexCommand (expire : Bytes) (val : V) : Cmd V Keyspace.Reply :=
  setGenericCommand env d key "setex" false false val (some (expire, true)) none none

def psetexCommand (expire : Bytes) (val : V) : Cmd V Keyspace.Reply :=
  setGenericCommand env d key "psetex" false false val (some (expire, false)) none none

/-! ## `db.c` -/

/-- What `expireGenericCommand` does with a key that exists. -/
def expireKey (when : Int64) : Cmd V Keyspace.Reply :=
  if when ≤ mstime env ∧ ¬ env.loading ∧ ¬ env.masterhost then do
    redisAssert (← Keyspace.dbDelete env d key)
    return .integer 1
  else do
    Keyspace.setExpire d key when.toInt
    return .integer 1

def expireGenericCommand (param : Bytes) (basetime : Int64) (seconds : Bool) : Cmd V Keyspace.Reply :=
  match getLongLongFromArg param none with
  | .error reply => pure reply
  | .ok when => do
    let when := toMilliseconds seconds when + basetime
    match ← lookupKeyRead env d key with
    | none => return .integer 0
    | some _ => expireKey env d key when

def expireCommand (param : Bytes) : Cmd V Keyspace.Reply :=
  expireGenericCommand env d key param (mstime env) true

def expireatCommand (param : Bytes) : Cmd V Keyspace.Reply :=
  expireGenericCommand env d key param 0 true

def pexpireCommand (param : Bytes) : Cmd V Keyspace.Reply :=
  expireGenericCommand env d key param (mstime env) false

def pexpireatCommand (param : Bytes) : Cmd V Keyspace.Reply :=
  expireGenericCommand env d key param 0 false

/-! ## `cluster.c` -/

/-- What reads the payload of a `RESTORE`: `verifyDumpPayload`, and `rdbLoadObjectType` with
`rdbLoadObject`. -/
structure Payload (V : Type) where
  verify : Bytes → Bool
  load : Bytes → Option V

/-- What `restoreCommand` does with the object it has read. -/
def restoreObject (replace : Bool) (ttl : Int64) (obj : V) : Cmd V Keyspace.Reply := do
  if replace then let _ ← Keyspace.dbDelete env d key
  Keyspace.dbAdd env d key obj
  if ttl ≠ 0 then Keyspace.setExpire d key (mstime env + ttl).toInt
  return .status "OK"

/-- The object and the time to live of a `RESTORE`, or the error. -/
def restoreArgs (dump : Payload V) (ttl payload : Bytes) : Except Keyspace.Reply (Int64 × V) :=
  match getLongLongFromArg ttl none with
  | .error reply => .error reply
  | .ok ttl =>
    if ttl < 0 then .error (addReplyError "Invalid TTL value, must be >= 0")
    else if dump.verify payload = false then
      .error (addReplyError "DUMP payload version or checksum are wrong")
    else
      match dump.load payload with
      | none => .error (addReplyError "Bad data format")
      | some obj => .ok (ttl, obj)

/-- The options of a `RESTORE`: whether there is a `REPLACE`, or the error. -/
def restoreReplace (options : List Bytes) : Except Keyspace.Reply Bool :=
  if options.all (fun a => strcaseEq (cstr a) (str "replace")) then .ok (!options.isEmpty)
  else .error syntaxerr

def restoreCommand (dump : Payload V) (ttl payload : Bytes) (options : List Bytes) :
    Cmd V Keyspace.Reply :=
  match restoreReplace options with
  | .error reply => pure reply
  | .ok replace => do
    let busy ← (if replace then pure false else Option.isSome <$> Keyspace.lookupKeyWrite env d key)
    if busy then return busykeyerr
    else
      match restoreArgs dump ttl payload with
      | .error reply => return reply
      | .ok (ttl, obj) => restoreObject env d key replace ttl obj

/-! ## `blocked.c` -/

def getTimeoutFromObjectOrReply (object : Bytes) (seconds : Bool) : Except Keyspace.Reply Int64 :=
  match getLongLongFromArg object (some "timeout is not an integer or out of range") with
  | .error reply => .error reply
  | .ok tval =>
    if tval < 0 then .error (addReplyError "timeout is negative")
    else if 0 < tval then .ok (toMilliseconds seconds tval + mstime env)
    else .ok tval

end Redis.Expire
