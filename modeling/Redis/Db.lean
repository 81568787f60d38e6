import Mathlib

/-!
# Redis.Db

The keyspace of `db.c`: databases of keys with optional expire times, lazy
expiration, the hooks that tell watching clients about a modified key, and
the keyspace commands built on them.

`K`, `V` and `C` are the keys, the value objects and the clients.  Two
objects with the same content may differ as values of `V`, so replacing an
object by an equal one can still be seen.  `none` is a failed
`redisAssert`.  The clock is read once per command.
-/

namespace Redis

open Function (update)

/-- `redisDb`.  `watchedKeys` maps a key to the clients that watch it. -/
structure RedisDb (K V C : Type) where
  dict : K → Option V
  expires : K → Option Int
  watchedKeys : K → Option (List C)

/-- Time units of the expire commands. -/
inductive TimeUnit where
  | seconds
  | milliseconds
deriving DecidableEq, Repr

/-- An option of SET.  `ex` and `px` carry the argument that follows: `none` if
there is none, `some none` if it is not an integer. -/
inductive SetOption where
  | nx
  | xx
  | ex (next : Option (Option Int))
  | px (next : Option (Option Int))
  | other
deriving DecidableEq, Repr

/-- The commands a transaction can queue.  An integer argument that does not
parse is `none`. -/
inductive Command (K V : Type) where
  | set (key : K) (val : V) (options : List SetOption)
  | del (keys : List K)
  | rename (key newkey : K) (nx : Bool)
  | move (key : K) (dbid : Option Int)
  | expire (key : K) (param : Option Int) (absolute : Bool) (unit : TimeUnit)
  | flushdb
  | flushall
  | select (id : Option Int)
  | unwatch
deriving DecidableEq, Repr

/-- Replies; errors with their text. -/
inductive Reply where
  | ok
  | queued
  | nullbulk
  | nullmultibulk
  | int (n : Nat)
  | error (text : String)
  | multi (replies : List Reply)
deriving Repr

def execaborterr : Reply :=
  .error "EXECABORT Transaction discarded because of previous errors."

def nokeyerr : Reply := .error "ERR no such key"

def syntaxerr : Reply := .error "ERR syntax error"

def sameobjecterr : Reply := .error "ERR source and destination objects are the same"

def outofrangeerr : Reply := .error "ERR index out of range"

/-- The reply of `getLongLongFromObjectOrReply` to a bad integer. -/
def notIntegerErr : Reply := .error "ERR value is not an integer or out of range"

/-- `redisClient`: the selected database, the flags of a transaction, the
queued commands and the watched keys with their databases. -/
structure RedisClient (K V : Type) where
  db : Nat
  multi : Bool
  dirtyCas : Bool
  dirtyExec : Bool
  mstate : List (Command K V)
  watchedKeys : List (Nat × K)

/-- `redisServer`.  `propagatedExpires` are the keys whose expiration was sent
to the AOF and the slaves as a DEL, the last one first. -/
structure RedisServer (K V C : Type) where
  dbnum : Nat
  db : Nat → RedisDb K V C
  client : C → RedisClient K V
  clusterEnabled : Bool
  masterhost : Bool
  loading : Bool
  propagatedExpires : List (Nat × K)

variable {K V C : Type} [DecidableEq K] [DecidableEq C]

namespace RedisServer

/-- Replaces one database. -/
def setDb (s : RedisServer K V C) (d : Nat) (x : RedisDb K V C) : RedisServer K V C :=
  { s with db := update s.db d x }

/-- Replaces one client. -/
def setClient (s : RedisServer K V C) (c : C) (x : RedisClient K V) : RedisServer K V C :=
  { s with client := update s.client c x }

/-- The value stored under a key. -/
def stored (s : RedisServer K V C) (d : Nat) (k : K) : Option V := (s.db d).dict k

end RedisServer

/-! ## Hooks for key space changes -/

def touchWatchedKey (s : RedisServer K V C) (d : Nat) (key : K) : RedisServer K V C :=
  match (s.db d).watchedKeys key with
  | none => s
  | some clients =>
    { s with
      client := fun c =>
        if c ∈ clients then { s.client c with dirtyCas := true } else s.client c }

/-- The test `touchWatchedKeysOnFlush` makes for a watched key; `none` is
`dbid == -1`. -/
def flushTouches (s : RedisServer K V C) (dbid : Option Nat) (wk : Nat × K) : Bool :=
  (decide (dbid = none) || decide (dbid = some wk.1)) && (s.stored wk.1 wk.2).isSome

def touchWatchedKeysOnFlush (s : RedisServer K V C) (dbid : Option Nat) : RedisServer K V C :=
  { s with
    client := fun c =>
      if (s.client c).watchedKeys.any (flushTouches s dbid) then
        { s.client c with dirtyCas := true }
      else s.client c }

def signalModifiedKey (s : RedisServer K V C) (d : Nat) (key : K) : RedisServer K V C :=
  touchWatchedKey s d key

def signalFlushedDb (s : RedisServer K V C) (dbid : Option Nat) : RedisServer K V C :=
  touchWatchedKeysOnFlush s dbid

/-! ## The C-level API -/

/-- `dbDelete`, with its result. -/
def dbDelete (s : RedisServer K V C) (d : Nat) (key : K) : RedisServer K V C × Bool :=
  let db := s.db d
  (s.setDb d { db with
     dict := update db.dict key none
     expires := update db.expires key none }, (db.dict key).isSome)

def getExpire (s : RedisServer K V C) (d : Nat) (key : K) : Option Int :=
  match (s.db d).expires key with
  | none => some (-1)
  | some w => if (s.stored d key).isSome then some w else none

def propagateExpire (s : RedisServer K V C) (d : Nat) (key : K) : RedisServer K V C :=
  { s with propagatedExpires := (d, key) :: s.propagatedExpires }

def expireIfNeeded (s : RedisServer K V C) (d : Nat) (key : K) (now : Int) :
    Option (RedisServer K V C × Bool) := do
  let w ← getExpire s d key
  if w < 0 then return (s, false)
  else if s.loading then return (s, false)
  else if s.masterhost then return (s, decide (now > w))
  else if now ≤ w then return (s, false)
  else return dbDelete (propagateExpire s d key) d key

/-- `lookupKeyRead` and `lookupKeyWrite`; they differ in statistics only. -/
def lookupKeyWrite (s : RedisServer K V C) (d : Nat) (key : K) (now : Int) :
    Option (RedisServer K V C × Option V) := do
  let r ← expireIfNeeded s d key now
  return (r.1, r.1.stored d key)

def dbAdd (s : RedisServer K V C) (d : Nat) (key : K) (val : V) : Option (RedisServer K V C) :=
  let db := s.db d
  if (db.dict key).isSome then none
  else some (s.setDb d { db with dict := update db.dict key (some val) })

def dbOverwrite (s : RedisServer K V C) (d : Nat) (key : K) (val : V) :
    Option (RedisServer K V C) :=
  let db := s.db d
  if (db.dict key).isSome then
    some (s.setDb d { db with dict := update db.dict key (some val) })
  else none

def removeExpire (s : RedisServer K V C) (d : Nat) (key : K) : Option (RedisServer K V C) :=
  let db := s.db d
  if (db.dict key).isSome then
    some (s.setDb d { db with expires := update db.expires key none })
  else none

def setExpire (s : RedisServer K V C) (d : Nat) (key : K) (w : Int) :
    Option (RedisServer K V C) :=
  let db := s.db d
  if (db.dict key).isSome then
    some (s.setDb d { db with expires := update db.expires key (some w) })
  else none

def setKey (s : RedisServer K V C) (d : Nat) (key : K) (val : V) (now : Int) :
    Option (RedisServer K V C) := do
  let r ← lookupKeyWrite s d key now
  let s ← (if r.2.isNone then dbAdd r.1 d key val else dbOverwrite r.1 d key val)
  let s ← removeExpire s d key
  return signalModifiedKey s d key

/-- `dictEmpty` of both tables of a database. -/
def RedisDb.empty (db : RedisDb K V C) : RedisDb K V C :=
  { db with dict := fun _ => none, expires := fun _ => none }

def emptyDb (s : RedisServer K V C) : RedisServer K V C :=
  { s with db := fun d => if d < s.dbnum then (s.db d).empty else s.db d }

/-- `selectDb`; `none` is `REDIS_ERR`. -/
def selectDb (s : RedisServer K V C) (c : C) (id : Int) : Option (RedisServer K V C) :=
  if id < 0 ∨ id ≥ s.dbnum then none
  else some (s.setClient c { s.client c with db := id.toNat })

/-! ## Commands -/

/-- The flags and the expire argument of SET after its options are read. -/
structure SetArgs where
  nx : Bool
  xx : Bool
  expire : Option (Option Int)
  unit : TimeUnit

/-- The option loop of `setCommand`; `none` is a syntax error. -/
def parseSetOptions : List SetOption → SetArgs → Option SetArgs
  | [], a => some a
  | .nx :: os, a => parseSetOptions os { a with nx := true }
  | .xx :: os, a => parseSetOptions os { a with xx := true }
  | .ex (some e) :: os, a => parseSetOptions os { a with expire := some e, unit := .seconds }
  | .px (some e) :: os, a => parseSetOptions os { a with expire := some e, unit := .milliseconds }
  | .ex none :: _, _ => none
  | .px none :: _, _ => none
  | .other :: _, _ => none

/-- The test of NX and XX in `setGenericCommand`: the command is not
performed. -/
def setAborts (s : RedisServer K V C) (d : Nat) (key : K) (a : SetArgs) (now : Int) :
    Option (RedisServer K V C × Bool) := do
  let r ← (if a.nx then lookupKeyWrite s d key now else some (s, none))
  if r.2.isSome then return (r.1, true)
  else if a.xx then do
    let r ← lookupKeyWrite r.1 d key now
    return (r.1, r.2.isNone)
  else return (r.1, false)

/-- `setGenericCommand` from the test of NX and XX on. -/
def setPerform (s : RedisServer K V C) (d : Nat) (key : K) (val : V) (a : SetArgs)
    (milliseconds : Option Int) (now : Int) : Option (RedisServer K V C × Reply) := do
  let r ← setAborts s d key a now
  if r.2 then return (r.1, .nullbulk)
  else do
    let s ← setKey r.1 d key val now
    let s ← (milliseconds.elim (some s) fun ms => setExpire s d key (now + ms))
    return (s, .ok)

/-- `setGenericCommand`, as `setCommand` calls it. -/
def setGenericCommand (s : RedisServer K V C) (d : Nat) (key : K) (val : V) (a : SetArgs)
    (now : Int) : Option (RedisServer K V C × Reply) :=
  match a.expire with
  | none => setPerform s d key val a none now
  | some none => some (s, notIntegerErr)
  | some (some ms) =>
    if ms ≤ 0 then some (s, .error "ERR invalid expire time in set")
    else
      let ms := if a.unit = .seconds then ms * 1000 else ms
      setPerform s d key val a (some ms) now

def setCommand (s : RedisServer K V C) (c : C) (key : K) (val : V) (options : List SetOption)
    (now : Int) : Option (RedisServer K V C × Reply) :=
  match parseSetOptions options ⟨false, false, none, .seconds⟩ with
  | none => some (s, syntaxerr)
  | some a => setGenericCommand s (s.client c).db key val a now

/-- The loop of `delCommand`, with the counter `deleted`. -/
def delLoop (d : Nat) (now : Int) :
    List K → RedisServer K V C → Nat → Option (RedisServer K V C × Nat)
  | [], s, deleted => some (s, deleted)
  | key :: keys, s, deleted => do
    let r ← expireIfNeeded s d key now
    let r := dbDelete r.1 d key
    if r.2 then delLoop d now keys (signalModifiedKey r.1 d key) (deleted + 1)
    else delLoop d now keys r.1 deleted

def delCommand (s : RedisServer K V C) (c : C) (keys : List K) (now : Int) :
    Option (RedisServer K V C × Reply) := do
  let r ← delLoop (s.client c).db now keys s 0
  return (r.1, .int r.2)

/-- The end of `renameGenericCommand`: the new key is created, the old one
deleted, and both are signalled. -/
def renameKey (s : RedisServer K V C) (d : Nat) (key newkey : K) (o : V) (w : Int) :
    Option (RedisServer K V C) := do
  let s ← dbAdd s d newkey o
  let s ← (if w ≠ -1 then setExpire s d newkey w else some s)
  let s := (dbDelete s d key).1
  return signalModifiedKey (signalModifiedKey s d key) d newkey

def renameGenericCommand (s : RedisServer K V C) (c : C) (key newkey : K) (nx : Bool)
    (now : Int) : Option (RedisServer K V C × Reply) :=
  let d := (s.client c).db
  if key = newkey then some (s, sameobjecterr)
  else do
    let r ← lookupKeyWrite s d key now
    match r.2 with
    | none => return (r.1, nokeyerr)
    | some o => do
      let w ← getExpire r.1 d key
      let r ← lookupKeyWrite r.1 d newkey now
      if r.2.isSome && nx then return (r.1, .int 0)
      else do
        let s := if r.2.isSome then (dbDelete r.1 d newkey).1 else r.1
        let s ← renameKey s d key newkey o w
        return (s, if nx then .int 1 else .ok)

/-- `moveCommand`.  No watching client is told. -/
def moveCommand (s : RedisServer K V C) (c : C) (key : K) (dbid : Option Int) (now : Int) :
    Option (RedisServer K V C × Reply) :=
  let src := (s.client c).db
  if s.clusterEnabled then some (s, .error "ERR MOVE is not allowed in cluster mode")
  else
    match dbid with
    | none => some (s, outofrangeerr)
    | some id =>
      if id < -2 ^ 31 ∨ id > 2 ^ 31 - 1 ∨ (selectDb s c id).isNone then some (s, outofrangeerr)
      else
        let dst := id.toNat
        if src = dst then some (s, sameobjecterr)
        else do
          let r ← lookupKeyWrite s src key now
          match r.2 with
          | none => return (r.1, .int 0)
          | some o => do
            let r ← lookupKeyWrite r.1 dst key now
            if r.2.isSome then return (r.1, .int 0)
            else do
              let s ← dbAdd r.1 dst key o
              return ((dbDelete s src key).1, .int 1)

/-- `when` of `expireGenericCommand`; `absolute` is a `basetime` of 0. -/
def expireWhen (param : Int) (absolute : Bool) (unit : TimeUnit) (now : Int) : Int :=
  (if unit = .seconds then param * 1000 else param) + (if absolute then 0 else now)

def expireGenericCommand (s : RedisServer K V C) (c : C) (key : K) (param : Option Int)
    (absolute : Bool) (unit : TimeUnit) (now : Int) : Option (RedisServer K V C × Reply) :=
  let d := (s.client c).db
  match param with
  | none => some (s, notIntegerErr)
  | some p => do
    let w := expireWhen p absolute unit now
    let r ← lookupKeyWrite s d key now
    if r.2.isNone then return (r.1, .int 0)
    else if w ≤ now ∧ r.1.loading = false ∧ r.1.masterhost = false then
      let r := dbDelete r.1 d key
      if r.2 then some (signalModifiedKey r.1 d key, .int 1) else none
    else do
      let s ← setExpire r.1 d key w
      return (signalModifiedKey s d key, .int 1)

def flushdbCommand (s : RedisServer K V C) (c : C) : RedisServer K V C × Reply :=
  let d := (s.client c).db
  let s := signalFlushedDb s (some d)
  (s.setDb d (s.db d).empty, .ok)

def flushallCommand (s : RedisServer K V C) : RedisServer K V C × Reply :=
  (emptyDb (signalFlushedDb s none), .ok)

/-- `selectCommand`.  The index is a `long`, the argument of `selectDb` an
`int`. -/
def selectCommand (s : RedisServer K V C) (c : C) (id : Option Int) : RedisServer K V C × Reply :=
  match id with
  | none => (s, .error "ERR invalid DB index")
  | some id =>
    if s.clusterEnabled && decide (id ≠ 0) then
      (s, .error "ERR SELECT is not allowed in cluster mode")
    else
      match selectDb s c (Int.bmod id (2 ^ 32)) with
      | none => (s, .error "ERR invalid DB index")
      | some s => (s, .ok)

/-- `activeExpireCycleTryExpire` for a key of the table of expires. -/
def activeExpireCycleTryExpire (s : RedisServer K V C) (d : Nat) (key : K) (now : Int) :
    RedisServer K V C :=
  match (s.db d).expires key with
  | none => s
  | some t => if now > t then (dbDelete (propagateExpire s d key) d key).1 else s

end Redis
