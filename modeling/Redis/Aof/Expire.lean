import Redis.Aof.Load

/-!
# Redis.Aof.Expire

Expire times in the append only file: the commands that set them, what `feedAppendOnlyFile`
makes of these, and what the loader sets when it executes them at another time.

A `long long` is an `Int64`, and `long long` arithmetic wraps.
-/

namespace Redis.Aof

open Redis.Config (str cstr)
open Redis.Bus (strcaseEq)
open Redis.Replication (getLongLongFromObject selectName selectCmd)

variable {ν : Type}

/-! ## The keyspace -/

/-- A database and the name of a key in it. -/
abbrev Key := Int × Bytes

/-- A value, and the expire time if there is one. -/
structure Entry (ν : Type) where
  value : ν
  expire : Option Int64

/-- The dictionaries `dict` and `expires` of the databases; only keys of `dict` are in
`expires`. -/
abbrev Dataset (ν : Type) := Key → Option (Entry ν)

/-- The expire time of a key. -/
def getExpire (key : Key) (d : Dataset ν) : Option Int64 := (d key).bind Entry.expire

def dbDelete (key : Key) (d : Dataset ν) : Dataset ν := Function.update d key none

/-- `dbAdd`, of a key that does not exist. -/
def dbAdd (key : Key) (val : ν) (d : Dataset ν) : Dataset ν :=
  Function.update d key (some ⟨val, none⟩)

/-- `setKey`: `dbAdd` or `dbOverwrite`, and `removeExpire`. -/
def setKey (key : Key) (val : ν) (d : Dataset ν) : Dataset ν :=
  Function.update d key (some ⟨val, none⟩)

def setExpire (key : Key) (time : Int64) (d : Dataset ν) : Dataset ν :=
  Function.update d key ((d key).map fun e => { e with expire := some time })

/-- `server.loading`, whether `server.masterhost` is set, and `mstime()`. -/
structure Ctx where
  loading : Bool
  masterhost : Bool
  now : Int64

/-- `expireIfNeeded`, and whether it has deleted the key and propagated a `DEL`. -/
def expireIfNeeded (ctx : Ctx) (key : Key) (d : Dataset ν) : Bool × Dataset ν :=
  match getExpire key d with
  | none => (false, d)
  | some time =>
    if time < 0 ∨ ctx.loading ∨ ctx.masterhost ∨ ctx.now ≤ time then (false, d)
    else (true, dbDelete key d)

/-! ## The commands -/

/-- The procedures of the commands. -/
inductive Proc where
  | set
  | setex
  | psetex
  | expire
  | pexpire
  | expireat
  | pexpireat
  | restore
  | del
  deriving DecidableEq

/-- The names of the commands. -/
def procTable : List (Bytes × Proc) :=
  [(str "set", .set), (str "setex", .setex), (str "psetex", .psetex), (str "expire", .expire),
    (str "pexpire", .pexpire), (str "expireat", .expireat), (str "pexpireat", .pexpireat),
    (str "restore", .restore), (str "restore-asking", .restore), (str "del", .del)]

/-- The entry of a name in the table. -/
def lookupProc (name : Bytes) : Option Proc :=
  (procTable.find? fun entry => strcaseEq name entry.1).map Prod.snd

/-- A command that has changed the dataset: the keys for which `expireIfNeeded` has propagated
a `DEL`, and the command and arguments that are propagated after them. -/
structure Called (ν : Type) where
  data : Dataset ν
  expired : List Bytes
  proc : Proc
  argv : List Bytes

/-- The options of `SET`: `NX`, `XX`, and the expire time with its unit. -/
structure SetOptions where
  nx : Bool
  xx : Bool
  expire : Option (Bytes × Bool)

/-- The loop of `setCommand` over the options; seconds are `true`. -/
def setOptions (o : SetOptions) : List Bytes → Option SetOptions
  | [] => some o
  | [a] =>
    if strcaseEq (cstr a) (str "nx") then some { o with nx := true }
    else if strcaseEq (cstr a) (str "xx") then some { o with xx := true }
    else none
  | a :: next :: rest =>
    if strcaseEq (cstr a) (str "nx") then setOptions { o with nx := true } (next :: rest)
    else if strcaseEq (cstr a) (str "xx") then setOptions { o with xx := true } (next :: rest)
    else if strcaseEq (cstr a) (str "ex") then
      setOptions { o with expire := some (next, true) } rest
    else if strcaseEq (cstr a) (str "px") then
      setOptions { o with expire := some (next, false) } rest
    else none

/-- A number of seconds or milliseconds in milliseconds. -/
def toMilliseconds (seconds : Bool) (v : Int) : Int64 :=
  if seconds then Int64.ofInt v * 1000 else Int64.ofInt v

/-- The expire time that `setGenericCommand` reads; `none` is an error. -/
def setMilliseconds : Option (Bytes × Bool) → Option (Option Int64)
  | none => some none
  | some (expire, seconds) =>
    match getLongLongFromObject expire with
    | none => none
    | some v => if v ≤ 0 then none else some (some (toMilliseconds seconds v))

section Commands

variable (ctx : Ctx) (key : Key) (proc : Proc) (argv : List Bytes) (d : Dataset ν)

/-- `setGenericCommand`.  Only the first lookup of the key can find it expired. -/
def setGenericCommand (nx xx : Bool) (val : ν) (expire : Option (Bytes × Bool)) :
    Option (Called ν) :=
  match setMilliseconds expire with
  | none => none
  | some milliseconds =>
    let (expired, d) := expireIfNeeded ctx key d
    if (nx ∧ (d key).isSome) ∨ (xx ∧ (d key).isNone) then none
    else
      let d := setKey key val d
      let d := match milliseconds with
        | none => d
        | some ms => setExpire key (ctx.now + ms) d
      some ⟨d, if expired then [key.2] else [], proc, argv⟩

def expireGenericCommand (basetime : Int64) (seconds : Bool) (param : Bytes) :
    Option (Called ν) :=
  match getLongLongFromObject param with
  | none => none
  | some v =>
    let time := toMilliseconds seconds v + basetime
    let (expired, d) := expireIfNeeded ctx key d
    let expired := if expired then [key.2] else []
    if (d key).isNone then none
    else if time ≤ ctx.now ∧ ¬ ctx.loading ∧ ¬ ctx.masterhost then
      some ⟨dbDelete key d, expired, .del, [str "DEL", key.2]⟩
    else some ⟨setExpire key time d, expired, proc, argv⟩

/-- `restoreCommand`; `load` reads the payload, and checks it. -/
def restoreCommand (load : Bytes → Option ν) (ttl payload : Bytes)
    (options : List Bytes) : Option (Called ν) :=
  if ¬ options.all (fun a => strcaseEq (cstr a) (str "replace")) then none
  else
    let replace := !options.isEmpty
    let (expired, d) := if replace then (false, d) else expireIfNeeded ctx key d
    if ¬ replace ∧ (d key).isSome then none
    else
      match getLongLongFromObject ttl with
      | none => none
      | some ttl =>
        if ttl < 0 then none
        else
          match load payload with
          | none => none
          | some obj =>
            let d := if replace then dbDelete key d else d
            let d := dbAdd key obj d
            let d := if ttl ≠ 0 then setExpire key (ctx.now + Int64.ofInt ttl) d else d
            some ⟨d, if expired then [key.2] else [], proc, argv⟩

/-- The loop of `delCommand`: the keys that were expired, the number of keys deleted, and the
dataset. -/
def delLoop (db : Int) : List Bytes → List Bytes × Nat × Dataset ν →
    List Bytes × Nat × Dataset ν
  | [], acc => acc
  | key :: keys, (expired, deleted, d) =>
    let (gone, d) := expireIfNeeded ctx (db, key) d
    let expired := if gone then expired ++ [key] else expired
    if (d (db, key)).isSome then delLoop db keys (expired, deleted + 1, dbDelete (db, key) d)
    else delLoop db keys (expired, deleted, d)

def delCommand (db : Int) (keys : List Bytes) : Option (Called ν) :=
  let (expired, deleted, d) := delLoop ctx db keys ([], 0, d)
  if deleted = 0 then none else some ⟨d, expired, proc, argv⟩

end Commands

/-- `call` of a command in a database; `none` when it does not change anything.  `string` makes
the value of a string, and `load` that of a payload of `RESTORE`. -/
def call (string : Bytes → ν) (load : Bytes → Option ν) (ctx : Ctx) (db : Int)
    (argv : List Bytes) (d : Dataset ν) : Option (Called ν) :=
  match lookupProc (argv.headD []), argv with
  | some .set, _ :: key :: val :: options =>
    match setOptions ⟨false, false, none⟩ options with
    | none => none
    | some o => setGenericCommand ctx (db, key) .set argv d o.nx o.xx (string val) o.expire
  | some .setex, [_, key, expire, val] =>
    setGenericCommand ctx (db, key) .setex argv d false false (string val) (some (expire, true))
  | some .psetex, [_, key, expire, val] =>
    setGenericCommand ctx (db, key) .psetex argv d false false (string val)
      (some (expire, false))
  | some .expire, [_, key, param] =>
    expireGenericCommand ctx (db, key) .expire argv d ctx.now true param
  | some .pexpire, [_, key, param] =>
    expireGenericCommand ctx (db, key) .pexpire argv d ctx.now false param
  | some .expireat, [_, key, param] =>
    expireGenericCommand ctx (db, key) .expireat argv d 0 true param
  | some .pexpireat, [_, key, param] =>
    expireGenericCommand ctx (db, key) .pexpireat argv d 0 false param
  | some .restore, _ :: key :: ttl :: payload :: options =>
    restoreCommand ctx (db, key) .restore argv d load ttl payload options
  | some .del, _ :: key :: keys => delCommand ctx .del argv d db (key :: keys)
  | _, _ => none

/-! ## The append only file -/

def catAppendOnlyExpireAtCommand (now : Int64) (buf : Bytes) (cmd : Proc)
    (key seconds : Bytes) : Bytes :=
  let time := Int64.ofInt (strtol (cstr seconds))
  let time :=
    if cmd = .expire ∨ cmd = .setex ∨ cmd = .expireat then time * 1000 else time
  let time :=
    if cmd = .expire ∨ cmd = .pexpire ∨ cmd = .setex ∨ cmd = .psetex then time + now else time
  catAppendOnlyGenericCommand buf
    ([str "PEXPIREAT", key, ll2string time.toInt].map .raw)

/-- `server.aof_selected_db` and `server.aof_buf`. -/
structure AofState where
  selectedDb : Int
  buf : Bytes

/-- `feedAppendOnlyFile`, with the append only file on. -/
def feedAppendOnlyFile (now : Int64) (cmd : Proc) (dictid : Int) (argv : List Bytes)
    (aof : AofState) : AofState :=
  let buf := if dictid ≠ aof.selectedDb then selectCmd dictid else []
  let key := argv.getD 1 []
  let buf :=
    if cmd = .expire ∨ cmd = .pexpire ∨ cmd = .expireat then
      catAppendOnlyExpireAtCommand now buf cmd key (argv.getD 2 [])
    else if cmd = .setex ∨ cmd = .psetex then
      let buf := catAppendOnlyGenericCommand buf ([str "SET", key, argv.getD 3 []].map .raw)
      catAppendOnlyExpireAtCommand now buf cmd key (argv.getD 2 [])
    else catAppendOnlyGenericCommand buf (argv.map .raw)
  ⟨dictid, aof.buf ++ buf⟩

/-- What happens at a time: a command of a client with a database, or a key that
`activeExpireCycleTryExpire` finds expired. -/
inductive Event where
  | command (now : Int64) (db : Int) (argv : List Bytes)
  | expired (now : Int64) (key : Key)

/-- The server with its append only file. -/
structure Server (ν : Type) where
  data : Dataset ν
  aof : AofState

def propagateExpire (now : Int64) (key : Key) (aof : AofState) : AofState :=
  feedAppendOnlyFile now .del key.1 [str "DEL", key.2] aof

section Replay

variable (string : Bytes → ν) (load : Bytes → Option ν) (masterhost : Bool)

/-- A step; `none` when a command does not succeed, or the key is not expired. -/
def step (s : Server ν) : Event → Option (Server ν)
  | .command now db argv =>
    (call string load ⟨false, masterhost, now⟩ db argv s.data).map fun c =>
      let aof := c.expired.foldl (fun aof key => propagateExpire now (db, key) aof) s.aof
      ⟨c.data, feedAppendOnlyFile now c.proc db c.argv aof⟩
  | .expired now key =>
    match getExpire key s.data with
    | none => none
    | some time =>
      if masterhost ∨ ¬ now > time then none
      else some ⟨dbDelete key s.data, propagateExpire now key s.aof⟩

/-- A run of commands that succeed. -/
def run (evs : List Event) (s : Server ν) : Option (Server ν) :=
  evs.foldlM (step string load masterhost) s

def knownCommand (name : Bytes) : Bool :=
  (lookupProc name).isSome || strcaseEq name selectName

/-- A command of the fake client with the database that is selected, while the server loads
the file at the time `now`. -/
def replayCommand (dbnum : Nat) (now : Int64) (_ : Bool) (argv : List Bytes)
    (c : Int × Dataset ν) : Int × Dataset ν :=
  if strcaseEq (argv.headD []) selectName then
    match argv with
    | [_, arg] => (Replication.selectCommand dbnum arg c.1, c.2)
    | _ => c
  else
    match call string load ⟨true, masterhost, now⟩ c.1 argv c.2 with
    | none => c
    | some called => (c.1, called.data)

end Replay

end Redis.Aof
