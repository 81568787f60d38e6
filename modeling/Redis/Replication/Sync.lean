import Redis.Replication.Feed

/-!
# Redis.Replication.Sync

Full resynchronisations, from `SYNC` and `PSYNC` to the moment a replica is put
online: `syncCommand`, the two ways of forking an RDB child (`rdbSaveBackground` to
disk, `rdbSaveToSlavesSockets` to the sockets of the replicas), the handlers that run
when a child has ended, and `replicationCron`.

The dataset is of any type `δ`, and `exec` is the effect of a propagated command in
a database.  `forks` records for each RDB child the dataset that it has got and the
length of the stream at that moment; the process id of a child is its place there.
The replica script cache, the logs and the statistics are left out.
-/

namespace Redis.Replication

/-! ## The server -/

structure Fork (δ : Type) where
  offset : Nat
  data : δ

/-- `REDIS_RDB_CHILD_TYPE_DISK`, or `REDIS_RDB_CHILD_TYPE_SOCKET` with the clients whose
descriptors the child has. -/
inductive RdbType where
  | disk
  | socket (clientids : List Nat)

/-- `rdb_child_pid` and `rdb_child_type`. -/
structure Child where
  pid : Nat
  type : RdbType

/-- A master.  `replicas` are the clients that have ever had the flag `REDIS_SLAVE`. -/
structure Server (δ : Type) extends Master where
  data : δ
  forks : List (Fork δ)
  rdbChild : Option Child
  aofChild : Bool
  replDisklessSync : Bool
  replDisklessSyncDelay : Int
  replTimeout : Int
  unixtime : Int
  runid : List UInt8
  replicas : List Nat

variable {δ : Type}

/-- Whether `pipe` and `fork` succeed. -/
structure Os where
  pipe : Bool
  fork : Bool

/-! ## Forking -/

/-- The bookkeeping of a fork that has succeeded. -/
def Server.forked (type : RdbType) (sv : Server δ) : Server δ :=
  { sv with
    forks := sv.forks ++ [⟨sv.stream.length, sv.data⟩]
    rdbChild := some ⟨sv.forks.length, type⟩ }

/-- `rdbSaveBackground`, with whether it returned `REDIS_OK`. -/
def rdbSaveBackground (os : Os) (sv : Server δ) : Bool × Server δ :=
  if sv.rdbChild.isSome then (false, sv)
  else if !os.fork then (false, sv)
  else (true, sv.forked .disk)

/-- From `WAIT_BGSAVE_START` to `WAIT_BGSAVE_END`, in a state with the stream `stream`. -/
def Client.startRecording (stream : List (Option UInt8)) (c : Client) : Client :=
  if c.replstate = .waitBgsaveStart then
    { c with replstate := .waitBgsaveEnd, since := stream.length }
  else c

/-- `rdbSaveToSlavesSockets`.  The states are changed before the fork. -/
def rdbSaveToSlavesSockets (os : Os) (sv : Server δ) : Bool × Server δ :=
  if sv.rdbChild.isSome then (false, sv)
  else if !os.pipe then (false, sv)
  else
    let clientids := (sv.slaves.filter (·.replstate = .waitBgsaveStart)).map (·.id)
    let sv := { sv with slaves := sv.slaves.map (·.startRecording sv.stream) }
    if !os.fork then (false, sv)
    else (true, sv.forked (.socket clientids))

def startBgsaveForReplication (os : Os) (sv : Server δ) : Bool × Server δ :=
  if sv.replDisklessSync then rdbSaveToSlavesSockets os sv else rdbSaveBackground os sv

/-! ## SYNC and PSYNC -/

/-- A `SYNC`, or a `PSYNC` with its run id and offset; whether the client has pending
output, whether the answer to `PSYNC` can be written, and what the system does. -/
structure SyncRequest where
  id : Nat
  psync : Option (List UInt8 × Option Int)
  pending : Bool
  written : Bool
  os : Os
  mem : Nat → UInt8

/-- The end of `syncCommand`: the client is a replica. -/
def attach (mem : Nat → UInt8) (c : Client) (sv : Server δ) : Option (Server δ) :=
  let sv := { sv with
    slaveseldb := -1
    slaves := sv.slaves ++ [c]
    replicas := c.id :: sv.replicas }
  if sv.slaves.length = 1 ∧ sv.backlog.replBacklog.isNone then do
    let backlog ← createReplicationBacklog mem sv.backlog
    pure { sv with backlog, stream := sv.stream ++ [none] }
  else some sv

/-- A client that has just become a replica. -/
def SyncRequest.client (req : SyncRequest) (fullresync : Option Int) (unixtime : Int) : Client where
  id := req.id
  replstate := .waitBgsaveStart
  closeAfterReply := false
  prePsync := req.psync.isNone
  replPutOnlineOnAck := false
  replAckTime := 0
  lastinteraction := unixtime
  reply := []
  written := []
  fullresync
  since := 0
  rdb := none

/-- The full resynchronisation of `syncCommand`, with the offset of the `+FULLRESYNC`
line if there was one. -/
def fullResync (req : SyncRequest) (fullresync : Option Int) (sv : Server δ) :
    Option (Server δ) :=
  let c := req.client fullresync sv.unixtime
  match sv.rdbChild with
  | some ⟨_, .disk⟩ =>
    match sv.slaves.find? (·.replstate = .waitBgsaveEnd) with
    | some slave =>
      -- `copyClientOutputBuffer`
      attach req.mem
        { c with replstate := .waitBgsaveEnd, reply := slave.reply, since := slave.since } sv
    | none => attach req.mem c sv
  | some ⟨_, .socket _⟩ => attach req.mem c sv
  | none =>
    if sv.replDisklessSync then attach req.mem c sv
    else
      let (ok, sv) := startBgsaveForReplication req.os sv
      if !ok then some sv
      else attach req.mem { c with replstate := .waitBgsaveEnd, since := sv.stream.length } sv

/-- `syncCommand`.  A client whose answer could not be written is freed. -/
def syncCommand (req : SyncRequest) (sv : Server δ) : Option (Server δ) :=
  if req.id ∈ sv.replicas then some sv
  else if req.pending then some sv
  else
    match req.psync with
    | none => fullResync req none sv
    | some (masterRunid, psyncOffset) =>
      match masterTryPartialResynchronization sv.runid masterRunid psyncOffset req.written
        sv.backlog with
      | none => none
      | some .closed => some sv
      | some (.fullresync offset) => fullResync req (some offset) sv
      | some (.continue bytes) =>
        some { sv with
          slaves := sv.slaves ++
            [{ req.client none sv.unixtime with
              replstate := .online, replAckTime := sv.unixtime, reply := bytes }]
          replicas := req.id :: sv.replicas }

/-! ## The end of a child -/

/-- The body of the loop of `updateSlavesWaitingBgsave`; `none` is a client that is freed.
`opened` says whether the RDB file can be opened and its transfer be prepared. -/
def updateSlave (ok : Bool) (socket : Bool) (pid : Nat) (opened : Nat → Bool) (sv : Server δ)
    (c : Client) : Option Client :=
  match c.replstate with
  | .waitBgsaveStart => some (c.startRecording sv.stream)
  | .waitBgsaveEnd =>
    if socket then
      some { c with
        replstate := .online
        replPutOnlineOnAck := true
        replAckTime := sv.unixtime
        rdb := some pid }
    else if !ok then none
    else if !opened c.id then none
    else some { c with replstate := .sendBulk, rdb := some pid }
  | .sendBulk | .online => some c

def updateSlavesWaitingBgsave (ok : Bool) (socket : Bool) (pid : Nat) (opened : Nat → Bool)
    (os : Os) (sv : Server δ) : Server δ :=
  let startbgsave := sv.slaves.any (·.replstate = .waitBgsaveStart)
  let sv := { sv with slaves := sv.slaves.filterMap (updateSlave ok socket pid opened sv) }
  if startbgsave then
    let (started, sv) := startBgsaveForReplication os sv
    if !started then
      { sv with slaves := sv.slaves.filter (·.replstate ≠ .waitBgsaveStart) }
    else sv
  else sv

/-- How a child has ended: with exit code 0 or not, and for a socket child whether its
report could be read and the error codes in it. -/
structure Exit where
  ok : Bool
  report : Bool
  errors : Nat → Nat
  opened : Nat → Bool
  os : Os

def backgroundSaveDoneHandler (ex : Exit) (sv : Server δ) : Server δ :=
  match sv.rdbChild with
  | none => sv
  | some ⟨pid, .disk⟩ =>
    updateSlavesWaitingBgsave ex.ok false pid ex.opened ex.os { sv with rdbChild := none }
  | some ⟨pid, .socket clientids⟩ =>
    let okSlaves := if ex.ok && ex.report then clientids else []
    let slaves := sv.slaves.filter fun c =>
      decide (c.replstate ≠ .waitBgsaveEnd) || (decide (c.id ∈ okSlaves) && ex.errors c.id == 0)
    updateSlavesWaitingBgsave ex.ok true pid ex.opened ex.os
      { sv with rdbChild := none, slaves }

/-! ## The cron -/

/-- "PING". -/
def pingArgv : List Robj := [.raw [80, 73, 78, 71]]

/-- The replicas that `replicationCron` starts a BGSAVE for, if it does so. -/
def cronStarts (sv : Server δ) : Bool :=
  let waiting := sv.slaves.filter (·.replstate = .waitBgsaveStart)
  let maxIdle := waiting.foldl (fun m c => max m (sv.unixtime - c.lastinteraction)) 0
  sv.rdbChild.isNone && !sv.aofChild && !waiting.isEmpty &&
    decide (maxIdle > sv.replDisklessSyncDelay)

/-- The last part of `replicationCron`. -/
def cronStartBgsave (os : Os) (sv : Server δ) : Server δ :=
  if cronStarts sv then
    let (ok, sv) := startBgsaveForReplication os sv
    if ok then { sv with slaves := sv.slaves.map (·.startRecording sv.stream) } else sv
  else sv

/-- Replicas that have not acknowledged anything for too long. -/
def timedOut (sv : Server δ) (c : Client) : Bool :=
  decide (c.replstate = .online) && !c.prePsync &&
    decide (sv.unixtime - c.replAckTime > sv.replTimeout)

/-- What `replicationCron` finds: whether it is time for a `PING`, and whether the backlog
was without replicas for too long. -/
structure Cron where
  ping : Bool
  expired : Bool
  os : Os

/-- The first part of `replicationCron`. -/
def cronPing (cr : Cron) (sv : Server δ) : Option Master :=
  if cr.ping then replicationFeedSlaves sv.slaveseldb pingArgv sv.toMaster else some sv.toMaster

/-- `replicationCron` of a master. -/
def replicationCron (cr : Cron) (sv : Server δ) : Option (Server δ) := do
  let m ← cronPing cr sv
  let sv := { sv with toMaster := m }
  let sv := { sv with slaves := sv.slaves.filter (!timedOut sv ·) }
  let sv := if sv.slaves = [] ∧ cr.expired then
    { sv with backlog := freeReplicationBacklog sv.backlog } else sv
  pure (cronStartBgsave cr.os sv)

/-! ## Events -/

def putSlaveOnline (unixtime : Int) (c : Client) : Client :=
  { c with replstate := .online, replPutOnlineOnAck := false, replAckTime := unixtime }

/-- What happens to a server. -/
inductive Event where
  | sync (req : SyncRequest)
  /-- A write command is executed and propagated. -/
  | write (dictid : Int) (argv : List Robj)
  /-- The RDB child has ended. -/
  | childDone (ex : Exit)
  | cron (cr : Cron)
  /-- `BGSAVE`, or a save of `serverCron`. -/
  | bgsave (os : Os)
  /-- An AOF rewrite begins or ends. -/
  | aof (running : Bool)
  | configDiskless (yes : Bool)
  | configDelay (delay : Int)
  | configBacklog (mem : Nat → UInt8) (size : Int)
  /-- `sendBulkToSlave` has sent the whole file. -/
  | bulkSent (id : Nat)
  /-- `REPLCONF ACK`. -/
  | ack (id : Nat)
  /-- `sendReplyToClient` writes `n` bytes of the output buffer. -/
  | drain (id n : Nat)
  | disconnect (id : Nat)
  | interaction (id : Nat)
  | tick (unixtime : Int)

/-- The replica with the given id is changed by `f`. -/
def Server.modify (id : Nat) (f : Client → Client) (sv : Server δ) : Server δ :=
  { sv with slaves := sv.slaves.map fun c => if c.id = id then f c else c }

/-- The next state; `none` is a failed assertion. -/
def Server.step (exec : Int → List (List UInt8) → δ → δ) (sv : Server δ) :
    Event → Option (Server δ)
  | .sync req => syncCommand req sv
  | .write dictid argv => do
    let m ← replicationFeedSlaves dictid argv sv.toMaster
    pure { sv with toMaster := m, data := exec dictid (argv.map (·.bytes)) sv.data }
  | .childDone ex => some (backgroundSaveDoneHandler ex sv)
  | .cron cr => replicationCron cr sv
  | .bgsave os => some (if sv.aofChild then sv else (rdbSaveBackground os sv).2)
  | .aof running => some { sv with aofChild := running }
  | .configDiskless yes => some { sv with replDisklessSync := yes }
  | .configDelay delay => some { sv with replDisklessSyncDelay := delay }
  | .configBacklog mem size =>
    some { sv with backlog := resizeReplicationBacklog mem size sv.backlog }
  | .bulkSent id => some (sv.modify id fun c =>
    if c.replstate = .sendBulk then putSlaveOnline sv.unixtime c else c)
  | .ack id => some (sv.modify id fun c =>
    let c := { c with replAckTime := sv.unixtime }
    if c.replPutOnlineOnAck ∧ c.replstate = .online then putSlaveOnline sv.unixtime c else c)
  | .drain id n => some (sv.modify id fun c =>
    if c.replstate = .online ∧ !c.replPutOnlineOnAck then
      { c with written := c.written ++ c.reply.take n, reply := c.reply.drop n }
    else c)
  | .disconnect id => some { sv with slaves := sv.slaves.filter (·.id ≠ id) }
  | .interaction id => some (sv.modify id fun c => { c with lastinteraction := sv.unixtime })
  | .tick unixtime => some { sv with unixtime }

/-- A server without replicas. -/
def Server.init (data : δ) (runid : List UInt8) (diskless : Bool) (delay timeout : Int) :
    Server δ where
  backlog := .init
  stream := []
  slaves := []
  slaveseldb := -1
  data
  forks := []
  rdbChild := none
  aofChild := false
  replDisklessSync := diskless
  replDisklessSyncDelay := delay
  replTimeout := timeout
  unixtime := 0
  runid
  replicas := []

/-- The states that are reached by events that meet `ok`. -/
inductive Server.Reachable (exec : Int → List (List UInt8) → δ → δ)
    (ok : Server δ → Event → Prop) : Server δ → Prop
  | init (data : δ) (runid : List UInt8) (diskless : Bool) (delay timeout : Int) :
      Reachable exec ok (.init data runid diskless delay timeout)
  | step {sv sv' : Server δ} {ev : Event} : Reachable exec ok sv → ok sv ev →
      sv.step exec ev = some sv' → Reachable exec ok sv'

end Redis.Replication
