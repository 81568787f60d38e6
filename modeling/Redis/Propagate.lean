import Redis.Config
import Redis.Replication.Replay

/-!
# Redis.Propagate

What `call` propagates, and `EXEC`: `MULTI` is propagated at the first command that is not read
only, and `EXEC` by the outer `call`, if the counter `server.dirty` has grown.

The procedures of the commands are not modelled one by one: a run of one is a list of the
things it can do to the counter, to the streams and to the client.
-/

namespace Redis.Propagate

open Redis.Config (str)
open Redis.Bus (strcaseEq)
open Redis.Replication (selectName)

/-! ## The command table -/

/-- The name of a command, and the flag `REDIS_CMD_READONLY`. -/
structure RedisCommand where
  name : Bytes
  readonly : Bool
  deriving DecidableEq

/-- The commands with `r` in their flags. -/
def readonlyNames : List String :=
  ["get", "strlen", "exists", "getbit", "getrange", "substr", "mget", "llen", "lindex", "lrange",
    "sismember", "scard", "srandmember", "sinter", "sunion", "sdiff", "smembers", "sscan",
    "zrange", "zrangebyscore", "zrevrangebyscore", "zrangebylex", "zrevrangebylex", "zcount",
    "zlexcount", "zrevrange", "zcard", "zscore", "zrank", "zrevrank", "zscan", "hget", "hmget",
    "hlen", "hkeys", "hvals", "hgetall", "hexists", "hscan", "randomkey", "select", "keys",
    "scan", "dbsize", "auth", "ping", "echo", "save", "bgsave", "bgrewriteaof", "shutdown",
    "lastsave", "type", "multi", "discard", "sync", "psync", "replconf", "info", "monitor",
    "ttl", "pttl", "config", "subscribe", "unsubscribe", "psubscribe", "punsubscribe",
    "publish", "pubsub", "watch", "unwatch", "cluster", "asking", "readonly", "readwrite",
    "dump", "object", "client", "slowlog", "script", "time", "bitcount", "bitpos", "wait",
    "command", "pfselftest", "pfcount", "latency"]

def otherNames : List String :=
  ["set", "setnx", "setex", "psetex", "append", "del", "setbit", "setrange", "incr", "decr",
    "rpush", "lpush", "rpushx", "lpushx", "linsert", "rpop", "lpop", "brpop", "brpoplpush",
    "blpop", "lset", "ltrim", "lrem", "rpoplpush", "sadd", "srem", "smove", "spop",
    "sinterstore", "sunionstore", "sdiffstore", "zadd", "zincrby", "zrem", "zremrangebyscore",
    "zremrangebyrank", "zremrangebylex", "zunionstore", "zinterstore", "hset", "hsetnx",
    "hmset", "hincrby", "hincrbyfloat", "hdel", "incrby", "decrby", "incrbyfloat", "getset",
    "mset", "msetnx", "move", "rename", "renamenx", "expire", "expireat", "pexpire",
    "pexpireat", "exec", "flushdb", "flushall", "sort", "persist", "slaveof", "role", "debug",
    "restore", "restore-asking", "migrate", "eval", "evalsha", "bitop", "pfadd", "pfmerge",
    "pfdebug"]

def redisCommandTable : List RedisCommand :=
  readonlyNames.map (fun name => ⟨str name, true⟩) ++
    otherNames.map fun name => ⟨str name, false⟩

def lookupCommand (name : Bytes) : Option RedisCommand :=
  redisCommandTable.find? fun cmd => strcaseEq name cmd.name

/-! ## The streams -/

/-- Where a command of a stream comes from: a command of a client, the command `j` of a
transaction (and whether it is a write command), the `MULTI` and the `EXEC` of a transaction,
`propagateExpire`, and the `SELECT` that is put in front of a command of another database. -/
inductive Origin where
  | call
  | queued (tx j : Nat) (write : Bool)
  | multi (tx : Nat)
  | exec (tx : Nat)
  | expire
  | select
  deriving DecidableEq

structure Op where
  dbid : Int
  argv : List Bytes
  origin : Origin

/-- What was propagated, and the database that was selected. -/
structure Stream where
  selected : Int
  ops : List Op

/-- The `SELECT` of a database. -/
def selectOp (dbid : Int) : Op := ⟨dbid, [selectName, ll2string dbid], .select⟩

/-- `feedAppendOnlyFile` and `replicationFeedSlaves`. -/
def feed (op : Op) (stream : Stream) : Stream :=
  ⟨op.dbid, stream.ops ++ (if op.dbid ≠ stream.selected then [selectOp op.dbid] else []) ++ [op]⟩

/-! ## The server -/

/-- The commands that `processCommand` never queues. -/
def immediate : List Bytes := [str "exec", str "discard", str "multi", str "watch"]

/-- A command with its arguments. -/
structure Request where
  cmd : RedisCommand
  argv : List Bytes
  found : lookupCommand (argv.headD []) = some cmd

structure Queued extends Request where
  queueable : cmd.name ∉ immediate

/-- The fields of `redisClient`: the database, the flags `REDIS_MULTI`, `REDIS_DIRTY_CAS`,
`REDIS_DIRTY_EXEC`, `REDIS_FORCE_AOF` and `REDIS_FORCE_REPL`, and the queued commands. -/
structure Client where
  db : Int
  multi : Bool
  dirtyCas : Bool
  dirtyExec : Bool
  forceAof : Bool
  forceRepl : Bool
  mstate : List Queued

def newClient : Client := ⟨0, false, false, false, false, false, []⟩

/-- `server.dirty`, `server.dirty_before_bgsave`, what the append only file and the slaves
get, the clients, the number of transactions that were executed, and whether the process has
exited. -/
structure Server where
  dirty : Int
  dirtyBeforeBgsave : Int
  aof : Stream
  repl : Stream
  client : Nat → Client
  tx : Nat
  exited : Bool

def init : Server := ⟨0, 0, ⟨-1, []⟩, ⟨-1, []⟩, fun _ => newClient, 0, false⟩

namespace Server

def setClient (s : Server) (c : Nat) (client : Client) : Server :=
  { s with client := Function.update s.client c client }

end Server

def propagate (op : Op) (aof repl : Bool) (s : Server) : Server :=
  { s with
    aof := if aof then feed op s.aof else s.aof
    repl := if repl then feed op s.repl else s.repl }

def propagateExpire (dbid : Int) (key : Bytes) (s : Server) : Server :=
  propagate ⟨dbid, [str "DEL", key], .expire⟩ true true s

/-! ## Procedures -/

/-- What a procedure does besides changing the dataset: a key is deleted by `expireIfNeeded` or
`freeMemoryIfNeeded`, `server.dirty` grows, `rdbSave` or `DEBUG LOADAOF` sets it to zero,
`rdbSaveBackground` starts a child, another database is selected, the propagation is forced, the
arguments are rewritten, a slave is attached or the append only file is rewritten (a `SELECT`
will follow), a command of another client is executed while `DEBUG` loads the dataset, and the
process exits. -/
inductive Act where
  | expire (dbid : Int) (key : Bytes)
  | dirty (n : Nat)
  | saved
  | bgsave
  | select (dbid : Int)
  | force (aof repl : Bool)
  | rewrite (argv : List Bytes)
  | unselect (aof repl : Bool)
  | foreign (dbid : Int) (argv : List Bytes)
  | exit
  deriving DecidableEq

/-- A command of a client that is executed, in a server; an error is a server whose process has
exited. -/
def runAct (c : Nat) : Server × List Bytes → Act →
    Except Server (Server × List Bytes)
  | (s, argv), .expire dbid key => .ok (propagateExpire dbid key s, argv)
  | (s, argv), .dirty n => .ok ({ s with dirty := s.dirty + n }, argv)
  | (s, argv), .saved => .ok ({ s with dirty := 0 }, argv)
  | (s, argv), .bgsave => .ok ({ s with dirtyBeforeBgsave := s.dirty }, argv)
  | (s, argv), .select dbid => .ok (s.setClient c { s.client c with db := dbid }, argv)
  | (s, argv), .force aof repl => .ok (s.setClient c { s.client c with
      forceAof := (s.client c).forceAof || aof
      forceRepl := (s.client c).forceRepl || repl }, argv)
  | (s, _), .rewrite argv => .ok (s, argv)
  | (s, argv), .unselect aof repl => .ok ({ s with
      aof := if aof then { s.aof with selected := -1 } else s.aof
      repl := if repl then { s.repl with selected := -1 } else s.repl }, argv)
  | (s, argv), .foreign dbid other => .ok (propagate ⟨dbid, other, .call⟩ false true s, argv)
  | (s, _), .exit => .error s

def runActs (c : Nat) (acts : List Act) (r : Server × List Bytes) :
    Except Server (Server × List Bytes) :=
  acts.foldlM (runAct c) r

/-- `call`.  The origin of what is propagated depends on whether `server.dirty` has grown. -/
def call (c : Nat) (origin : Bool → Origin)
    (proc : Server × List Bytes → Except Server (Server × List Bytes))
    (argv : List Bytes) (s : Server) : Except Server Server := do
  let old := s.client c
  let s := s.setClient c { old with forceAof := false, forceRepl := false }
  let before := s.dirty
  let (s, argv) ← proc (s, argv)
  let dirty := s.dirty - before
  let dirty := if dirty < 0 then 0 else dirty
  let grown := dirty ≠ 0
  let s := propagate ⟨(s.client c).db, argv, origin grown⟩
    ((s.client c).forceAof || grown) ((s.client c).forceRepl || grown) s
  return s.setClient c { s.client c with forceAof := old.forceAof, forceRepl := old.forceRepl }

/-! ## Transactions -/

def discardTransaction (c : Nat) (s : Server) : Server :=
  s.setClient c { s.client c with
    multi := false, dirtyCas := false, dirtyExec := false, mstate := [] }

def flagTransaction (c : Nat) (s : Server) : Server :=
  if (s.client c).multi then s.setClient c { s.client c with dirtyExec := true } else s

def execCommandPropagateMulti (c tx : Nat) (s : Server) : Server :=
  propagate ⟨(s.client c).db, [str "MULTI"], .multi tx⟩ true true s

/-- A queued command with what its procedure does. -/
abbrev Job := Queued × List Act

/-- The loop of `execCommand`, from the command `j` on, with `must_propagate`. -/
def execLoop (c tx : Nat) : List Job → Nat → Bool → Server → Except Server (Bool × Server)
  | [], _, mustPropagate, s => .ok (mustPropagate, s)
  | (q, acts) :: jobs, j, mustPropagate, s => do
    let start := !mustPropagate && !q.cmd.readonly
    let s := if start then execCommandPropagateMulti c tx s else s
    let s ← call c (fun grown => .queued tx j (!q.cmd.readonly || grown)) (runActs c acts)
      q.argv s
    execLoop c tx jobs (j + 1) (mustPropagate || start) s

/-- The queued commands of a client. -/
def jobs (s : Server) (c : Nat) (runs : Nat → List Act) : List Job :=
  (s.client c).mstate.zipIdx.map fun (q, j) => (q, runs j)

/-- `execCommand`; the procedure of the queued command `j` does `runs j`. -/
def execCommand (c : Nat) (runs : Nat → List Act) (s : Server) : Except Server Server :=
  if ¬ (s.client c).multi then .ok s
  else if (s.client c).dirtyCas ∨ (s.client c).dirtyExec then .ok (discardTransaction c s)
  else do
    let (mustPropagate, s) ← execLoop c s.tx (jobs s c runs) 0 false s
    let s := discardTransaction c s
    return { s with
      dirty := if mustPropagate then s.dirty + 1 else s.dirty
      tx := s.tx + 1 }

def multiCommand (c : Nat) (s : Server) : Server :=
  if (s.client c).multi then s else s.setClient c { s.client c with multi := true }

def discardCommand (c : Nat) (s : Server) : Server :=
  if (s.client c).multi then discardTransaction c s else s

/-- The procedure of a command. -/
def procOf (c : Nat) (runs : Nat → List Act) (cmd : RedisCommand)
    (r : Server × List Bytes) : Except Server (Server × List Bytes) :=
  if cmd.name = str "exec" then (execCommand c runs r.1).map fun s => (s, r.2)
  else if cmd.name = str "multi" then .ok (multiCommand c r.1, r.2)
  else if cmd.name = str "discard" then .ok (discardCommand c r.1, r.2)
  else runActs c (runs 0) r

/-- The end of `processCommand`, for a command that passes the checks. -/
def processCommand (c : Nat) (req : Request) (runs : Nat → List Act) (s : Server) :
    Except Server Server :=
  if h : (s.client c).multi ∧ req.cmd.name ∉ immediate then
    .ok (s.setClient c { s.client c with mstate := (s.client c).mstate ++ [⟨req, h.2⟩] })
  else
    call c (fun _ => if req.cmd.name = str "exec" then .exec s.tx else .call)
      (procOf c runs req.cmd) req.argv s

/-! ## Events -/

/-- What happens: a request that passes the checks of `processCommand`, one that does not, a key
that a client watches is touched (or `UNWATCH`), a client is gone, a key is deleted by
`activeExpireCycle` or `freeMemoryIfNeeded`, a command that `handleClientsBlockedOnLists`
propagates, `PING` or `REPLCONF` for the slaves, a child that saves in the background is started
or has ended, and a slave is attached or the append only file is rewritten. -/
inductive Event where
  | request (c : Nat) (req : Request) (runs : Nat → List Act)
  | reject (c : Nat)
  | touch (c : Nat) (dirtyCas : Bool)
  | disconnect (c : Nat)
  | expired (dbid : Int) (key : Bytes)
  | served (dbid : Int) (argv : List Bytes)
  | cron (argv : List Bytes)
  | bgsave
  | bgsaveDone
  | unselect (aof repl : Bool)

def step (s : Server) (ev : Event) : Server :=
  if s.exited then s
  else
    match ev with
    | .request c req runs =>
      match processCommand c req runs s with
      | .ok s => s
      | .error s => { s with exited := true }
    | .reject c => flagTransaction c s
    | .touch c dirtyCas => s.setClient c { s.client c with dirtyCas := dirtyCas }
    | .disconnect c => s.setClient c newClient
    | .expired dbid key => propagateExpire dbid key s
    | .served dbid argv => propagate ⟨dbid, argv, .call⟩ true true s
    | .cron argv => propagate ⟨s.repl.selected, argv, .call⟩ false true s
    | .bgsave => { s with dirtyBeforeBgsave := s.dirty }
    | .bgsaveDone => { s with dirty := s.dirty - s.dirtyBeforeBgsave }
    | .unselect aof repl => { s with
        aof := if aof then { s.aof with selected := -1 } else s.aof
        repl := if repl then { s.repl with selected := -1 } else s.repl }

/-- Not the name of a command about transactions. -/
def PlainName (argv : List Bytes) : Prop :=
  strcaseEq (argv.headD []) (str "multi") = false ∧ strcaseEq (argv.headD []) (str "exec") = false

/-- What the procedure of a command can do.  Only `SAVE` and `DEBUG` set `server.dirty` to zero,
only `DEBUG` loads the dataset, and of the commands that are read only, only `PFCOUNT` and
`SCRIPT` count a change. -/
def Act.Of (cmd : RedisCommand) : Act → Prop
  | .dirty n => cmd.readonly → n = 0 ∨ cmd.name = str "pfcount" ∨ cmd.name = str "script"
  | .saved => cmd.name = str "save" ∨ cmd.name = str "debug"
  | .rewrite argv => PlainName argv
  | .foreign _ argv => cmd.name = str "debug" ∧ PlainName argv
  | _ => True

/-- What can happen. -/
def Event.Ok (s : Server) : Event → Prop
  | .request c req runs =>
    (∀ job ∈ jobs s c runs, ∀ act ∈ job.2, act.Of job.1.cmd) ∧
      (req.cmd.name ≠ str "exec" → ∀ act ∈ runs 0, act.Of req.cmd)
  | .served _ argv => PlainName argv
  | .cron argv => PlainName argv
  | _ => True

end Redis.Propagate
