import Redis.Bus.Process

/-!
# Redis.Bus.Failover

What a node does without being asked: failing over its master, migrating to an
orphaned master, the state of the cluster, `clusterCron` and
`clusterBeforeSleep`.  The reasons `clusterLogCantFailover` logs are left out.
-/

namespace Redis.Bus

variable {N : Type} [LinearOrder N]

/-! ## The state of the cluster -/

def clusterUpdateState (env : Env N) (st : State N) : State N :=
  let st := { st with
    todoUpdateState := false
    firstCallTime := if st.firstCallTime = 0 then env.now else st.firstCallTime }
  if st.me.flags.master && !st.ok && decide (env.now - st.firstCallTime < 2000) then st
  else
    let covered := !env.clusterRequireFullCoverage ||
      (List.range clusterSlots).all fun j =>
        match st.slots j with
        | none => false
        | some n => !(st.node n).flags.fail
    let masters := st.nodes.filter fun p =>
      (st.node p).flags.master && decide ((st.node p).numslots ≠ 0)
    let reachable := masters.countP fun p =>
      !((st.node p).flags.fail || (st.node p).flags.pfail)
    let st := { st with size := masters.length }
    let minority := decide (reachable < st.size / 2 + 1)
    let st := if minority then { st with amongMinorityTime := env.now } else st
    let newState := covered && !minority
    if newState ≠ st.ok then
      let rejoinDelay := max (min env.clusterNodeTimeout 5000) 500
      if newState && st.me.flags.master &&
          decide (env.now - st.amongMinorityTime < rejoinDelay) then st
      else { st with ok := newState }
    else st

/-! ## Failing over the master -/

def clusterGetSlaveRank (env : Env N) (st : State N) : Nat :=
  match st.me.slaveof with
  | none => 0
  | some m => (st.node m).slaves.countP fun s =>
    decide (s ≠ st.myself) && decide ((st.node s).replOffset > env.replicationGetSlaveOffset)

/-- Step 2 of `clusterFailoverReplaceYourMaster`, for one slot. -/
def claimSlot (oldmaster : Ptr) (st : State N) (j : Nat) : State N :=
  if bitmapTestBit (st.node oldmaster).slots j then
    clusterAddSlot (clusterDelSlot st j) st.myself j
  else st

/-- `clusterFailoverReplaceYourMaster`.  The loop skips the slots whose bit is
clear in the bitmap of the old master. -/
def clusterFailoverReplaceYourMaster (env : Env N) (st : State N) : State N :=
  if st.me.flags.master then st
  else
    match st.me.slaveof with
    | none => st
    | some oldmaster =>
      let st := clusterSetNodeAsMaster st st.myself
      let st := (st.node oldmaster).slots.foldl (claimSlot oldmaster) st
      let st := clusterUpdateState env st
      let st := clusterSaveConfig st true
      let st := clusterBroadcastPong env st false
      resetManualFailover st

def authTimeout (env : Env N) : Int := max (env.clusterNodeTimeout * 2) 2000

/-- The check of the slave validity factor: the data is too old. -/
def dataTooOld (env : Env N) : Bool :=
  let age := if env.replConnected then (env.unixtime - env.lastinteraction) * 1000
    else (env.unixtime - env.replDownSince) * 1000
  let age := if age > env.clusterNodeTimeout then age - env.clusterNodeTimeout else age
  decide (env.clusterSlaveValidityFactor ≠ 0) &&
    decide (age > env.replPingSlavePeriod * 1000 +
      env.clusterNodeTimeout * env.clusterSlaveValidityFactor)

/-- A new attempt is scheduled. -/
def scheduleElection (env : Env N) (st : State N) : State N :=
  let st := st.assert st.me.flags.slave .slaveRank
  let rank := clusterGetSlaveRank env st
  let st := { st with
    failoverAuthTime := if st.mfEnd ≠ 0 then env.now
      else env.now + 500 + (env.random % 500 : Nat) + rank * 1000
    failoverAuthCount := 0
    failoverAuthSent := false
    failoverAuthRank := if st.mfEnd ≠ 0 then 0 else rank }
  clusterBroadcastPong env st true

/-- The delay added when other slaves reported better offsets. -/
def updateRank (env : Env N) (st : State N) : State N :=
  if !st.failoverAuthSent && decide (st.mfEnd = 0) then
    let st := st.assert st.me.flags.slave .slaveRank
    let newrank := clusterGetSlaveRank env st
    if newrank > st.failoverAuthRank then
      { st with
        failoverAuthTime := st.failoverAuthTime + ((newrank : Int) - st.failoverAuthRank) * 1000
        failoverAuthRank := newrank }
    else st
  else st

/-- The election starts in a new epoch. -/
def startElection (env : Env N) (st : State N) : State N :=
  let st := { st with currentEpoch := incr64 st.currentEpoch }
  let st := { st with failoverAuthEpoch := st.currentEpoch }
  let st := clusterRequestFailoverAuth env st
  todoFsync (todoState (todoSave { st with failoverAuthSent := true }))

def winElection (env : Env N) (st : State N) : State N :=
  let st :=
    if st.me.configEpoch < st.failoverAuthEpoch then
      st.modNode st.myself fun x => { x with configEpoch := st.failoverAuthEpoch }
    else st
  clusterFailoverReplaceYourMaster env st

def clusterHandleSlaveFailover (env : Env N) (st : State N) : State N :=
  let authAge := env.now - st.failoverAuthTime
  let manualFailover := decide (st.mfEnd ≠ 0) && st.mfCanStart
  let st := { st with todoHandleFailover := false }
  if st.me.flags.master then st
  else
    match st.me.slaveof with
    | none => st
    | some m =>
      if (!(st.node m).flags.fail && !manualFailover) || decide ((st.node m).numslots = 0) then st
      else if dataTooOld env && !manualFailover then st
      else if authAge > authTimeout env * 2 then scheduleElection env st
      else
        let st := updateRank env st
        if env.now < st.failoverAuthTime then st
        else if authAge > authTimeout env then st
        else if !st.failoverAuthSent then startElection env st
        else if st.failoverAuthCount ≥ st.size / 2 + 1 then winElection env st
        else st

/-! ## Slave migration -/

/-- Step 3 of `clusterHandleSlaveMigration`, for one node: the target and the
candidate. -/
def migrationRound (st : State N) (maxSlaves : Nat) (acc : Option Ptr × Ptr) (p : Ptr) :
    Option Ptr × Ptr :=
  let (target, candidate) := acc
  if (st.node p).flags.slave || (st.node p).flags.fail || (st.node p).slaves.isEmpty then
    (target, candidate)
  else
    let okslaves := clusterCountNonFailingSlaves st p
    let target :=
      if okslaves = 0 ∧ target.isNone ∧ (st.node p).numslots > 0 then some p else target
    let candidate :=
      if okslaves = maxSlaves then
        (st.node p).slaves.foldl
          (fun c s => if (st.node s).name < (st.node c).name then s else c) candidate
      else candidate
    (target, candidate)

def clusterHandleSlaveMigration (env : Env N) (st : State N) (maxSlaves : Nat) : State N :=
  if !st.ok then st
  else
    match st.me.slaveof with
    | none => st
    | some mymaster =>
      let okslaves := (st.node mymaster).slaves.countP fun s =>
        !(st.node s).flags.fail && !(st.node s).flags.pfail
      if okslaves ≤ env.clusterMigrationBarrier then st
      else
        match st.nodes.foldl (migrationRound st maxSlaves) (none, st.myself) with
        | (some target, candidate) =>
          if candidate = st.myself then clusterSetMaster st target else st
        | (none, _) => st

/-! ## Manual failover -/

def manualFailoverCheckTimeout (env : Env N) (st : State N) : State N :=
  if st.mfEnd ≠ 0 ∧ st.mfEnd < env.now then resetManualFailover st else st

def clusterHandleManualFailover (env : Env N) (st : State N) : State N :=
  if st.mfEnd = 0 ∨ st.mfCanStart ∨ st.mfMasterOffset = 0 then st
  else if st.mfMasterOffset = env.replicationGetSlaveOffset then { st with mfCanStart := true }
  else st

/-! ## `clusterCron` -/

/-- The handshake of a node has timed out. -/
def handshakeTimedOut (env : Env N) (st : State N) (p : Ptr) : Bool :=
  (st.node p).flags.handshake &&
    decide (env.now - (st.node p).ctime > max env.clusterNodeTimeout 1000)

/-- The first loop of `clusterCron`, for one node: handshakes time out, and
links are opened again. -/
def cronConnect (env : Env N) (st : State N) (p : Ptr) : State N :=
  if (st.node p).flags.myself || (st.node p).flags.noaddr then st
  else if handshakeTimedOut env st p then clusterDelNode env st p
  else if (st.node p).link.isSome then st
  else if !env.connects p then
    st.modNode p fun x => { x with pingSent := if x.pingSent = 0 then env.now else x.pingSent }
  else
    let oldPingSent := (st.node p).pingSent
    let st := st.modNode p fun x => { x with link := some env.now }
    let st := clusterSendPing env st (some p) (if (st.node p).flags.meet then .meet else .ping)
    st.modNode p fun x =>
      { x with
        pingSent := if oldPingSent ≠ 0 then oldPingSent else x.pingSent
        flags := { x.flags with meet := false } }

/-- The random node `clusterCron` pings. -/
def cronPingRandom (env : Env N) (st : State N) : State N :=
  let cands := env.randomNodes.filter fun p => decide (p ∈ st.nodes) && (st.node p).link.isSome &&
    decide ((st.node p).pingSent = 0) && !((st.node p).flags.myself || (st.node p).flags.handshake)
  match cands with
  | [] => st
  | p :: ps =>
    let q := ps.foldl
      (fun q p => if (st.node q).pongReceived > (st.node p).pongReceived then p else q) p
    clusterSendPing env st (some q) .ping

/-- What the loop of `clusterCron` over the nodes counts. -/
structure CronCount where
  orphanedMasters : Nat := 0
  maxSlaves : Nat := 0
  thisSlaves : Nat := 0
  updateState : Bool := false

/-- The slaves of a working master, counted by a slave. -/
def cronCountSlaves (st : State N) (cnt : CronCount) (p : Ptr) : CronCount :=
  if st.me.flags.slave && (st.node p).flags.master && !(st.node p).flags.fail then
    let okslaves := clusterCountNonFailingSlaves st p
    { cnt with
      orphanedMasters :=
        if okslaves = 0 ∧ (st.node p).numslots > 0 ∧ !(st.node p).slaves.isEmpty then
          cnt.orphanedMasters + 1
        else cnt.orphanedMasters
      maxSlaves := max okslaves cnt.maxSlaves
      thisSlaves := if st.me.slaveof = some p then okslaves else cnt.thisSlaves }
  else cnt

/-- A link that waits too long for a `PONG` is closed. -/
def cronCloseLink (env : Env N) (st : State N) (p : Ptr) : State N :=
  match (st.node p).link with
  | some ctime =>
    if env.now - ctime > env.clusterNodeTimeout ∧ (st.node p).pingSent ≠ 0 ∧
        (st.node p).pongReceived < (st.node p).pingSent ∧
        env.now - (st.node p).pingSent > env.clusterNodeTimeout / 2 then
      st.modNode p fun x => { x with link := none }
    else st
  | none => st

/-- The second loop of `clusterCron`, for one node. -/
def cronCheck (env : Env N) (acc : State N × CronCount) (p : Ptr) : State N × CronCount :=
  let (st, cnt) := acc
  if (st.node p).flags.myself || (st.node p).flags.noaddr || (st.node p).flags.handshake then
    (st, cnt)
  else
    let cnt := cronCountSlaves st cnt p
    let st := cronCloseLink env st p
    if (st.node p).link.isSome ∧ (st.node p).pingSent = 0 ∧
        env.now - (st.node p).pongReceived > env.clusterNodeTimeout / 2 then
      (clusterSendPing env st (some p) .ping, cnt)
    else if st.mfEnd ≠ 0 ∧ st.me.flags.master ∧ st.mfSlave = some p ∧ (st.node p).link.isSome then
      (clusterSendPing env st (some p) .ping, cnt)
    else if (st.node p).pingSent ≠ 0 ∧ env.now - (st.node p).pingSent > env.clusterNodeTimeout ∧
        !((st.node p).flags.pfail || (st.node p).flags.fail) then
      (st.modNode p fun x => { x with flags := { x.flags with pfail := true } },
        { cnt with updateState := true })
    else (st, cnt)

/-- The failovers and the migration of a slave. -/
def cronSlave (env : Env N) (st : State N) (cnt : CronCount) : State N :=
  if st.me.flags.slave then
    let st := clusterHandleManualFailover env st
    let st := clusterHandleSlaveFailover env st
    if cnt.orphanedMasters ≠ 0 ∧ cnt.maxSlaves ≥ 2 ∧ cnt.thisSlaves = cnt.maxSlaves then
      clusterHandleSlaveMigration env st cnt.maxSlaves
    else st
  else st

def clusterCron (env : Env N) (st : State N) : State N :=
  let st := st.nodes.foldl (cronConnect env) st
  let st := cronPingRandom env st
  let (st, cnt) := st.nodes.foldl (cronCheck env) (st, {})
  let st := manualFailoverCheckTimeout env st
  let st := cronSlave env st cnt
  if cnt.updateState || !st.ok then clusterUpdateState env st else st

def clusterBeforeSleep (env : Env N) (st : State N) : State N :=
  let st := if st.todoHandleFailover then clusterHandleSlaveFailover env st else st
  let st := if st.todoUpdateState then clusterUpdateState env st else st
  let st := if st.todoSaveConfig then clusterSaveConfig st st.todoFsyncConfig else st
  { st with todoHandleFailover := false, todoUpdateState := false, todoSaveConfig := false,
            todoFsyncConfig := false }

end Redis.Bus
