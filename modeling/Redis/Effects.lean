import Mathlib.Data.Finset.Basic
import Redis.Aof.Expire

/-!
# Redis.Effects

Commands as they reach the slaves: `INCRBYFLOAT` as `SET`, `HINCRBYFLOAT` as `HSET`, `SPOP` as
`SREM`, and `EXPIREAT` of a time that is over as `DEL`.

All of this is about times when no key is expired, so that `expireIfNeeded` does nothing.
-/

namespace Redis.Effects

open Function (update)

open Redis.Config (str cstr)
open Redis.Bus (strcaseEq)
open Redis.Replication (getLongLongFromObject)
open Redis.Aof (Key Entry Dataset setOptions SetOptions setMilliseconds toMilliseconds)

/-! ## The keyspace -/

/-- A value; `τ` has the lists and the sorted sets. -/
inductive Value (τ : Type) where
  | string (s : Bytes)
  | set (members : Finset Bytes)
  | hash (fields : Bytes → Option Bytes)
  | other (v : τ)

/-- The type `long double`: `getLongDoubleFromObject`, addition, `isnan` or `isinf`, and the text
that `createStringObjectFromLongDouble` makes. -/
structure LongDouble (φ : Type) where
  parse : Bytes → Option φ
  zero : φ
  add : φ → φ → φ
  isnanOrInf : φ → Bool
  format : φ → Bytes

/-- What commands read besides their arguments and the dataset: `mstime()`, whether
`server.masterhost` is set, and the element that `setTypeRandomElement` chooses. -/
structure Env where
  now : Int64
  masterhost : Bool
  ele : Bytes

variable {τ φ : Type}

/-- What a procedure leaves: the dataset, how much `server.dirty` has grown, and the arguments
that are propagated. -/
structure Result (τ : Type) where
  data : Dataset (Value τ)
  dirty : Nat
  argv : List Bytes

def dbOverwrite (key : Key) (val : Value τ) (d : Dataset (Value τ)) : Dataset (Value τ) :=
  update d key ((d key).map fun e => { e with value := val })

/-- `dbOverwrite` of a key that exists, and `dbAdd` of one that does not. -/
def store (key : Key) (val : Value τ) (d : Dataset (Value τ)) : Dataset (Value τ) :=
  if (d key).isSome then dbOverwrite key val d else Aof.dbAdd key val d

/-- The string at a key, if there is one; `none` is the wrong type. -/
def stringAt (key : Key) (d : Dataset (Value τ)) : Option (Option Bytes) :=
  match (d key).map Entry.value with
  | none => some none
  | some (.string s) => some (some s)
  | some _ => none

def setAt (key : Key) (d : Dataset (Value τ)) : Option (Option (Finset Bytes)) :=
  match (d key).map Entry.value with
  | none => some none
  | some (.set members) => some (some members)
  | some _ => none

def hashAt (key : Key) (d : Dataset (Value τ)) : Option (Option (Bytes → Option Bytes)) :=
  match (d key).map Entry.value with
  | none => some none
  | some (.hash fields) => some (some fields)
  | some _ => none

/-! ## The commands -/

/-- The procedures of the commands. -/
inductive Proc where
  | set
  | getset
  | append
  | setrange
  | incrby
  | decrby
  | incrbyfloat
  | expireat
  | pexpireat
  | persist
  | del
  | rename
  | sadd
  | srem
  | spop
  | smove
  | hset
  | hincrby
  | hincrbyfloat
  deriving DecidableEq

/-- The names of the commands. -/
def procTable : List (Bytes × Proc) :=
  [(str "set", .set), (str "getset", .getset), (str "append", .append),
    (str "setrange", .setrange), (str "incrby", .incrby), (str "decrby", .decrby),
    (str "incrbyfloat", .incrbyfloat), (str "expireat", .expireat),
    (str "pexpireat", .pexpireat), (str "persist", .persist), (str "del", .del),
    (str "rename", .rename), (str "sadd", .sadd), (str "srem", .srem), (str "spop", .spop),
    (str "smove", .smove), (str "hset", .hset), (str "hincrby", .hincrby),
    (str "hincrbyfloat", .hincrbyfloat)]

/-- The entry of a name in the table. -/
def lookupProc (name : Bytes) : Option Proc :=
  (procTable.find? fun entry => strcaseEq name entry.1).map Prod.snd

def checkStringLength (size : Int) : Bool := size ≤ 512 * 1024 * 1024

section Commands

variable (key : Key) (argv : List Bytes) (d : Dataset (Value τ))

/-- A command that does nothing, or replies an error. -/
def idle : Result τ := ⟨d, 0, argv⟩

def setGenericCommand (now : Int64) (val : Bytes) (o : SetOptions) : Result τ :=
  match setMilliseconds o.expire with
  | none => idle argv d
  | some milliseconds =>
    if (o.nx ∧ (d key).isSome) ∨ (o.xx ∧ (d key).isNone) then idle argv d
    else
      let d := Aof.setKey key (.string val) d
      match milliseconds with
      | none => ⟨d, 1, argv⟩
      | some ms => ⟨Aof.setExpire key (now + ms) d, 1, argv⟩

def getsetCommand (val : Bytes) : Result τ :=
  match stringAt key d with
  | none => idle argv d
  | some _ => ⟨Aof.setKey key (.string val) d, 1, argv⟩

def appendCommand (val : Bytes) : Result τ :=
  match stringAt key d with
  | none => idle argv d
  | some none => ⟨Aof.dbAdd key (.string val) d, 1, argv⟩
  | some (some s) =>
    if !checkStringLength (s.length + val.length) then idle argv d
    else ⟨dbOverwrite key (.string (s ++ val)) d, 1, argv⟩

/-- `sdsgrowzero` and `memcpy`. -/
def writeRange (s : Bytes) (offset : Nat) (val : Bytes) : Bytes :=
  let s := s ++ List.replicate (offset + val.length - s.length) 0
  s.take offset ++ val ++ s.drop (offset + val.length)

/-- `setrangeCommand`.  The sum for `checkStringLength` is a `long long`; behind a negative one
the process runs out of memory. -/
def setrangeCommand (offset val : Bytes) : Option (Result τ) :=
  match getLongLongFromObject offset with
  | none => some (idle argv d)
  | some offset =>
    if offset < 0 then some (idle argv d)
    else
      match stringAt key d with
      | none => some (idle argv d)
      | some s =>
        let size := (Int64.ofInt (offset + val.length)).toInt
        if val = [] then some (idle argv d)
        else if !checkStringLength size then some (idle argv d)
        else if size < 0 then none
        else some ⟨store key (.string (writeRange (s.getD []) offset.toNat val)) d, 1, argv⟩

def incrDecrCommand (incr : Int) : Result τ :=
  match stringAt key d with
  | none => idle argv d
  | some s =>
    match s.elim (some 0) getLongLongFromObject with
    | none => idle argv d
    | some oldvalue =>
      if (incr < 0 ∧ oldvalue < 0 ∧ incr < -2 ^ 63 - oldvalue) ∨
          (incr > 0 ∧ oldvalue > 0 ∧ incr > 2 ^ 63 - 1 - oldvalue) then idle argv d
      else ⟨store key (.string (ll2string (oldvalue + incr))) d, 1, argv⟩

def incrbyCommand (incr : Bytes) : Result τ :=
  match getLongLongFromObject incr with
  | none => idle argv d
  | some incr => incrDecrCommand key argv d incr

def decrbyCommand (decr : Bytes) : Result τ :=
  match getLongLongFromObject decr with
  | none => idle argv d
  | some decr => incrDecrCommand key argv d (-Int64.ofInt decr).toInt

def incrbyfloatCommand (ld : LongDouble φ) (incr : Bytes) : Result τ :=
  match stringAt key d with
  | none => idle argv d
  | some s =>
    match s.elim (some ld.zero) ld.parse, ld.parse incr with
    | some value, some incr =>
      let value := ld.add value incr
      if ld.isnanOrInf value then idle argv d
      else
        let new := ld.format value
        ⟨store key (.string new) d, 1, (argv.set 0 (str "SET")).set 2 new⟩
    | _, _ => idle argv d

/-- `expireGenericCommand`, with the base time 0. -/
def expireGenericCommand (env : Env) (seconds : Bool) (param : Bytes) : Result τ :=
  match getLongLongFromObject param with
  | none => idle argv d
  | some v =>
    let time := toMilliseconds seconds v
    if (d key).isNone then idle argv d
    else if time ≤ env.now ∧ ¬ env.masterhost then ⟨Aof.dbDelete key d, 1, [str "DEL", key.2]⟩
    else ⟨Aof.setExpire key time d, 1, argv⟩

def persistCommand : Result τ :=
  match d key with
  | none => idle argv d
  | some e =>
    if e.expire.isSome then ⟨update d key (some { e with expire := none }), 1, argv⟩
    else idle argv d

/-- The loop of `delCommand`. -/
def delLoop (db : Int) : List Bytes → Dataset (Value τ) → Nat → Dataset (Value τ) × Nat
  | [], d, dirty => (d, dirty)
  | key :: keys, d, dirty =>
    if (d (db, key)).isSome then delLoop db keys (Aof.dbDelete (db, key) d) (dirty + 1)
    else delLoop db keys d dirty

def delCommand (db : Int) (keys : List Bytes) : Result τ :=
  let (d, dirty) := delLoop db keys d 0
  ⟨d, dirty, argv⟩

def renameCommand (newkey : Key) : Result τ :=
  if key.2 = newkey.2 then idle argv d
  else
    match d key with
    | none => idle argv d
    | some e =>
      let d := if (d newkey).isSome then Aof.dbDelete newkey d else d
      let d := Aof.dbAdd newkey e.value d
      let d := match e.expire with
        | none => d
        | some time => Aof.setExpire newkey time d
      ⟨Aof.dbDelete key d, 1, argv⟩

/-- The loop of `saddCommand`. -/
def saddLoop : List Bytes → Finset Bytes → Nat → Finset Bytes × Nat
  | [], members, added => (members, added)
  | ele :: eles, members, added =>
    if ele ∈ members then saddLoop eles members added
    else saddLoop eles (insert ele members) (added + 1)

def saddCommand (eles : List Bytes) : Result τ :=
  match setAt key d with
  | none => idle argv d
  | some members =>
    let (members, added) := saddLoop eles (members.getD ∅) 0
    ⟨store key (.set members) d, added, argv⟩

/-- The loop of `sremCommand`, which stops when the set is empty. -/
def sremLoop : List Bytes → Finset Bytes → Nat → Finset Bytes × Nat
  | [], members, deleted => (members, deleted)
  | ele :: eles, members, deleted =>
    if ele ∈ members then
      if members.erase ele = ∅ then (∅, deleted + 1)
      else sremLoop eles (members.erase ele) (deleted + 1)
    else sremLoop eles members deleted

/-- A set that has lost elements; an empty set is deleted. -/
def storeSet (members : Finset Bytes) : Dataset (Value τ) :=
  if members = ∅ then Aof.dbDelete key d else dbOverwrite key (.set members) d

def sremCommand (eles : List Bytes) : Result τ :=
  match setAt key d with
  | some (some members) =>
    let (members, deleted) := sremLoop eles members 0
    if deleted = 0 then idle argv d else ⟨storeSet key d members, deleted, argv⟩
  | _ => idle argv d

/-- `spopCommand`; the element that is chosen is one of the set. -/
def spopCommand (ele : Bytes) : Option (Result τ) :=
  match setAt key d with
  | some (some members) =>
    if ele ∈ members then
      some ⟨storeSet key d (members.erase ele), 1, [str "SREM", key.2, ele]⟩
    else none
  | _ => some (idle argv d)

def smoveCommand (dst : Key) (ele : Bytes) : Result τ :=
  match setAt key d, setAt dst d with
  | some (some members), some dstset =>
    if key = dst then idle argv d
    else if ele ∉ members then idle argv d
    else
      let d := storeSet key d (members.erase ele)
      let dstset := dstset.getD ∅
      ⟨store dst (.set (insert ele dstset)) d, if ele ∈ dstset then 1 else 2, argv⟩
  | _, _ => idle argv d

/-- `hashTypeLookupWriteOrCreate`; `none` is the wrong type. -/
def hashTypeLookupWriteOrCreate : Option ((Bytes → Option Bytes) × Dataset (Value τ)) :=
  match hashAt key d with
  | none => none
  | some none => some (fun _ => none, Aof.dbAdd key (.hash fun _ => none) d)
  | some (some fields) => some (fields, d)

def hsetCommand (field val : Bytes) : Result τ :=
  match hashTypeLookupWriteOrCreate key d with
  | none => idle argv d
  | some (fields, d) =>
    ⟨dbOverwrite key (.hash (update fields field (some val))) d, 1, argv⟩

def hincrbyCommand (field incr : Bytes) : Result τ :=
  match getLongLongFromObject incr with
  | none => idle argv d
  | some incr =>
    match hashTypeLookupWriteOrCreate key d with
    | none => idle argv d
    | some (fields, d) =>
      match (fields field).elim (some 0) getLongLongFromObject with
      | none => idle argv d
      | some oldvalue =>
        if (incr < 0 ∧ oldvalue < 0 ∧ incr < -2 ^ 63 - oldvalue) ∨
            (incr > 0 ∧ oldvalue > 0 ∧ incr > 2 ^ 63 - 1 - oldvalue) then idle argv d
        else
          let new := ll2string (oldvalue + incr)
          ⟨dbOverwrite key (.hash (update fields field (some new))) d, 1, argv⟩

def hincrbyfloatCommand (ld : LongDouble φ) (field incr : Bytes) : Result τ :=
  match ld.parse incr with
  | none => idle argv d
  | some incr =>
    match hashTypeLookupWriteOrCreate key d with
    | none => idle argv d
    | some (fields, d) =>
      match (fields field).elim (some ld.zero) ld.parse with
      | none => idle argv d
      | some value =>
        let new := ld.format (ld.add value incr)
        ⟨dbOverwrite key (.hash (update fields field (some new))) d, 1,
          (argv.set 0 (str "HSET")).set 3 new⟩

end Commands

/-- The procedure of a command; `none` when the process aborts, or when the element to choose
is not one of the set. -/
def proc (ld : LongDouble φ) (env : Env) (db : Int) (argv : List Bytes)
    (d : Dataset (Value τ)) : Option (Result τ) :=
  match lookupProc (argv.headD []), argv with
  | some .set, _ :: key :: val :: options =>
    match setOptions ⟨false, false, none⟩ options with
    | none => some (idle argv d)
    | some o => some (setGenericCommand (db, key) argv d env.now val o)
  | some .getset, [_, key, val] => some (getsetCommand (db, key) argv d val)
  | some .append, [_, key, val] => some (appendCommand (db, key) argv d val)
  | some .setrange, [_, key, offset, val] => setrangeCommand (db, key) argv d offset val
  | some .incrby, [_, key, incr] => some (incrbyCommand (db, key) argv d incr)
  | some .decrby, [_, key, decr] => some (decrbyCommand (db, key) argv d decr)
  | some .incrbyfloat, [_, key, incr] => some (incrbyfloatCommand (db, key) argv d ld incr)
  | some .expireat, [_, key, param] => some (expireGenericCommand (db, key) argv d env true param)
  | some .pexpireat, [_, key, param] =>
    some (expireGenericCommand (db, key) argv d env false param)
  | some .persist, [_, key] => some (persistCommand (db, key) argv d)
  | some .del, _ :: key :: keys => some (delCommand argv d db (key :: keys))
  | some .rename, [_, key, newkey] => some (renameCommand (db, key) argv d (db, newkey))
  | some .sadd, _ :: key :: ele :: eles => some (saddCommand (db, key) argv d (ele :: eles))
  | some .srem, _ :: key :: ele :: eles => some (sremCommand (db, key) argv d (ele :: eles))
  | some .spop, [_, key] => spopCommand (db, key) argv d env.ele
  | some .smove, [_, key, dst, ele] => some (smoveCommand (db, key) argv d (db, dst) ele)
  | some .hset, [_, key, field, val] => some (hsetCommand (db, key) argv d field val)
  | some .hincrby, [_, key, field, incr] => some (hincrbyCommand (db, key) argv d field incr)
  | some .hincrbyfloat, [_, key, field, incr] =>
    some (hincrbyfloatCommand (db, key) argv d ld field incr)
  | _, _ => some (idle argv d)

/-! ## Propagation -/

/-- A command that is executed on the master and, if it is propagated, on the slave. -/
structure Event where
  db : Int
  argv : List Bytes
  env : Env
  slaveEnv : Env

/-- `call`: the dataset, and the arguments that are propagated. -/
def call (ld : LongDouble φ) (ev : Event) (d : Dataset (Value τ)) :
    Option (Dataset (Value τ) × Option (List Bytes)) :=
  (proc ld ev.env ev.db ev.argv d).map fun r =>
    (r.data, if r.dirty ≠ 0 then some r.argv else none)

/-- The slave executes what was propagated. -/
def slaveCall (ld : LongDouble φ) (ev : Event) (argv : Option (List Bytes))
    (d : Dataset (Value τ)) : Option (Dataset (Value τ)) :=
  match argv with
  | none => some d
  | some argv => (proc ld ev.slaveEnv ev.db argv d).map Result.data

/-- After every command of the run the slave, which starts with the dataset `r`, has the keys,
the values and the expire times that the master has. -/
def Follows (ld : LongDouble φ) : List Event → Dataset (Value τ) → Dataset (Value τ) → Prop
  | [], d, r => r = d
  | ev :: evs, d, r => r = d ∧ ∀ d' argv, call ld ev d = some (d', argv) →
      ∃ r', slaveCall ld ev argv r = some r' ∧ Follows ld evs d' r'

end Redis.Effects
