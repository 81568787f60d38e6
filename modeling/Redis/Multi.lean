import Redis.Db

/-!
# Redis.Multi

Transactions of `multi.c`: MULTI, EXEC, DISCARD and the optimistic locking of
WATCH, over the keyspace of `Redis.Db`.

EXEC, DISCARD, MULTI and WATCH are never queued (`processCommand`), so that a
queue is a list of `Command`s.
-/

namespace Redis

variable {K V C : Type} [DecidableEq K] [DecidableEq C]

/-! ## WATCH -/

/-- The client of a database waiting for a key is added to its list. -/
def RedisDb.addWatcher (db : RedisDb K V C) (key : K) (c : C) : RedisDb K V C :=
  { db with
    watchedKeys :=
      Function.update db.watchedKeys key (some ((db.watchedKeys key).getD [] ++ [c])) }

def watchForKey (s : RedisServer K V C) (c : C) (key : K) : RedisServer K V C :=
  let client := s.client c
  if (client.db, key) ∈ client.watchedKeys then s
  else
    let s := s.setDb client.db ((s.db client.db).addWatcher key c)
    s.setClient c { client with watchedKeys := client.watchedKeys ++ [(client.db, key)] }

/-- The body of the loop of `unwatchAllKeys`: the client is taken off the list
of the key, and an empty list is removed. -/
def unwatchKey (s : RedisServer K V C) (c : C) (wk : Nat × K) : Option (RedisServer K V C) :=
  let db := s.db wk.1
  match db.watchedKeys wk.2 with
  | none => none
  | some clients =>
    if c ∈ clients then
      let clients := clients.erase c
      some (s.setDb wk.1 { db with
        watchedKeys :=
          Function.update db.watchedKeys wk.2 (if clients.isEmpty then none else some clients) })
    else none

def unwatchAllKeys (s : RedisServer K V C) (c : C) : Option (RedisServer K V C) := do
  let s ← (s.client c).watchedKeys.foldlM (fun s wk => unwatchKey s c wk) s
  return s.setClient c { s.client c with watchedKeys := [] }

def watchCommand (s : RedisServer K V C) (c : C) (keys : List K) : RedisServer K V C × Reply :=
  if (s.client c).multi then (s, .error "ERR WATCH inside MULTI is not allowed")
  else (keys.foldl (fun s key => watchForKey s c key) s, .ok)

def unwatchCommand (s : RedisServer K V C) (c : C) : Option (RedisServer K V C × Reply) := do
  let s ← unwatchAllKeys s c
  return (s.setClient c { s.client c with dirtyCas := false }, .ok)

/-! ## MULTI and EXEC -/

def discardTransaction (s : RedisServer K V C) (c : C) : Option (RedisServer K V C) :=
  let s := s.setClient c { s.client c with
    mstate := [], multi := false, dirtyCas := false, dirtyExec := false }
  unwatchAllKeys s c

def flagTransaction (s : RedisServer K V C) (c : C) : RedisServer K V C :=
  if (s.client c).multi then s.setClient c { s.client c with dirtyExec := true } else s

def queueMultiCommand (s : RedisServer K V C) (c : C) (cmd : Command K V) : RedisServer K V C :=
  s.setClient c { s.client c with mstate := (s.client c).mstate ++ [cmd] }

def multiCommand (s : RedisServer K V C) (c : C) : RedisServer K V C × Reply :=
  if (s.client c).multi then (s, .error "ERR MULTI calls can not be nested")
  else (s.setClient c { s.client c with multi := true }, .ok)

def discardCommand (s : RedisServer K V C) (c : C) : Option (RedisServer K V C × Reply) :=
  if !(s.client c).multi then some (s, .error "ERR DISCARD without MULTI")
  else do
    let s ← discardTransaction s c
    return (s, .ok)

/-- `call` for the commands that can be queued, at the time `now`. -/
def call (s : RedisServer K V C) (c : C) (now : Int) :
    Command K V → Option (RedisServer K V C × Reply)
  | .set key val options => setCommand s c key val options now
  | .del keys => delCommand s c keys now
  | .rename key newkey nx => renameGenericCommand s c key newkey nx now
  | .move key dbid => moveCommand s c key dbid now
  | .expire key param absolute unit => expireGenericCommand s c key param absolute unit now
  | .flushdb => some (flushdbCommand s c)
  | .flushall => some (flushallCommand s)
  | .select id => some (selectCommand s c id)
  | .unwatch => unwatchCommand s c

/-- One execution of a command: the client, the command, and the servers
before and after it. -/
structure Call (K V C : Type) where
  client : C
  cmd : Command K V
  before : RedisServer K V C
  after : RedisServer K V C

/-- What a request leaves: the server, the reply, and the commands that were
executed for it. -/
structure Outcome (K V C : Type) where
  server : RedisServer K V C
  reply : Reply
  calls : List (Call K V C)

/-- The loop of `execCommand` over the queued commands.  `clock j` is the time
at which the command `j` runs. -/
def execLoop (c : C) : List (Command K V) → (Nat → Int) → RedisServer K V C →
    Option (RedisServer K V C × List Reply × List (Call K V C))
  | [], _, s => some (s, [], [])
  | cmd :: cmds, clock, s => do
    let r ← call s c (clock 0) cmd
    let rest ← execLoop c cmds (fun j => clock (j + 1)) r.1
    return (rest.1, r.2 :: rest.2.1, ⟨c, cmd, s, r.1⟩ :: rest.2.2)

def execCommand (s : RedisServer K V C) (c : C) (clock : Nat → Int) : Option (Outcome K V C) :=
  if !(s.client c).multi then some ⟨s, .error "ERR EXEC without MULTI", []⟩
  else if (s.client c).dirtyCas || (s.client c).dirtyExec then do
    let reply := if (s.client c).dirtyExec then execaborterr else .nullmultibulk
    let s ← discardTransaction s c
    return ⟨s, reply, []⟩
  else do
    let s₁ ← unwatchAllKeys s c
    let r ← execLoop c (s.client c).mstate clock s₁
    let s₂ ← discardTransaction r.1 c
    return ⟨s₂, .multi r.2.1, r.2.2⟩

/-! ## Requests -/

/-- A request of a client.  `rejected` is a command that `processCommand`
answers with an error before looking at the transaction; `flag` says that the
transaction is flagged. -/
inductive Request (K V : Type) where
  | command (cmd : Command K V)
  | watch (keys : List K)
  | multi
  | discard
  | exec
  | rejected (flag : Bool) (text : String)

def processCommand (s : RedisServer K V C) (c : C) (clock : Nat → Int) :
    Request K V → Option (Outcome K V C)
  | .command cmd =>
    if (s.client c).multi then some ⟨queueMultiCommand s c cmd, .queued, []⟩
    else do
      let r ← call s c (clock 0) cmd
      return ⟨r.1, r.2, [⟨c, cmd, s, r.1⟩]⟩
  | .watch keys =>
    let r := watchCommand s c keys
    some ⟨r.1, r.2, []⟩
  | .multi =>
    let r := multiCommand s c
    some ⟨r.1, r.2, []⟩
  | .discard => do
    let r ← discardCommand s c
    return ⟨r.1, r.2, []⟩
  | .exec => execCommand s c clock
  | .rejected flag text =>
    some ⟨if flag then flagTransaction s c else s, .error text, []⟩

/-- What the event loop does: the request of a client, or the expiration of
one key by the cron. -/
inductive ServerEvent (K V C : Type) where
  | request (c : C) (clock : Nat → Int) (req : Request K V)
  | activeExpire (d : Nat) (key : K) (now : Int)

def serverStep (s : RedisServer K V C) : ServerEvent K V C → Option (Outcome K V C)
  | .request c clock req => processCommand s c clock req
  | .activeExpire d key now => some ⟨activeExpireCycleTryExpire s d key now, .ok, []⟩

/-- A run of events: the server reached and the commands executed. -/
def serverRun : RedisServer K V C → List (ServerEvent K V C) →
    Option (RedisServer K V C × List (Call K V C))
  | s, [] => some (s, [])
  | s, ev :: evs => do
    let o ← serverStep s ev
    let rest ← serverRun o.server evs
    return (rest.1, o.calls ++ rest.2)

end Redis
