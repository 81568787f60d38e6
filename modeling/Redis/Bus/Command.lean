import Redis.Bus.Failover

/-!
# Redis.Bus.Command

The `CLUSTER` command, `clusterReset`, loading `nodes.conf` and the start of a
node, and the steps of a node.  Of `clusterCommand` the subcommands that change
the state are modelled; the arguments are parsed.
-/

namespace Redis.Bus

open Function (update)

variable {N : Type} [LinearOrder N]

/-! ## The `CLUSTER` command -/

/-- The options of `CLUSTER FAILOVER`. -/
inductive FailoverOption where
  | none
  | force
  | takeover
deriving DecidableEq, Repr

/-- What follows the slot in `CLUSTER SETSLOT`. -/
inductive SetslotAction (N : Type) where
  | migrating (name : N)
  | importing (name : N)
  | stable
  | node (name : N)

/-- The subcommands of `CLUSTER` that change the state.  A slot argument that is
not an integer is `none`. -/
inductive Command (N : Type) where
  | meet (ip : CString) (port : Int)
  | flushslots
  | addslots (slots : List (Option Int))
  | delslots (slots : List (Option Int))
  | setslot (slot : Option Int) (action : SetslotAction N)
  | saveconfig
  | forget (name : N)
  | replicate (name : N)
  | countFailureReports (name : N)
  | failover (option : FailoverOption)
  | setConfigEpoch (epoch : Int)
  | reset (hard : Bool)

/-- The replies of `clusterCommand`. -/
inductive Reply where
  | ok
  | invalidAddress
  | dbMustBeEmpty
  | invalidSlot
  | slotUnassigned
  | slotBusy
  | slotRepeated
  | notTheOwner
  | alreadyTheOwner
  | unknownNode
  | slotHasKeys
  | cantForgetMyself
  | cantForgetMyMaster
  | cantReplicateMyself
  | cantReplicateSlave
  | notEmpty
  | failureReports (count : Nat)
  | notASlave
  | masterUnknown
  | masterDown
  | invalidEpoch
  | knowsOtherNodes
  | epochNotZero
  | masterWithKeys
deriving DecidableEq, Repr

def getSlotOrReply (arg : Option Int) : Option Nat :=
  match arg with
  | some slot => if slot < 0 ∨ slot ≥ clusterSlots then none else some slot.toNat
  | none => none

/-- The argument loop of `ADDSLOTS` and `DELSLOTS`: the reply of the first
argument that is refused. -/
def checkSlots (st : State N) (del : Bool) : List (Option Int) → List Nat → Option Reply
  | [], _ => none
  | arg :: args, seen =>
    match getSlotOrReply arg with
    | none => some .invalidSlot
    | some slot =>
      if del && (st.slots slot).isNone then some .slotUnassigned
      else if !del && (st.slots slot).isSome then some .slotBusy
      else if slot ∈ seen then some .slotRepeated
      else checkSlots st del args (slot :: seen)

/-- A round of the second loop of `ADDSLOTS` and `DELSLOTS`. -/
def changeSlot (del : Bool) (st : State N) (j : Nat) : State N :=
  let st := { st with importingSlotsFrom := update st.importingSlotsFrom j none }
  let st := st.assert ((st.slots j).isSome == del) .slotRetval
  if del then clusterDelSlot st j else clusterAddSlot st st.myself j

/-- `ADDSLOTS` and `DELSLOTS`.  The second loop takes the slots in ascending
order; a round touches its own slot only. -/
def changeSlots (st : State N) (del : Bool) (args : List (Option Int)) : State N × Reply :=
  match checkSlots st del args [] with
  | some reply => (st, reply)
  | none => (todoState (todoSave ((args.filterMap getSlotOrReply).foldl (changeSlot del) st)), .ok)

/-- `SETSLOT <slot> NODE <node>`. -/
def setslotNode (env : Env N) (st : State N) (slot : Nat) (name : N) : State N × Reply :=
  match clusterLookupNode st name with
  | none => (st, .unknownNode)
  | some n =>
    if st.slots slot = some st.myself ∧ n ≠ st.myself ∧ env.countKeysInSlot slot ≠ 0 then
      (st, .slotHasKeys)
    else
      let st :=
        if env.countKeysInSlot slot = 0 then
          { st with migratingSlotsTo := update st.migratingSlotsTo slot none }
        else st
      let st :=
        if n = st.myself ∧ (st.importingSlotsFrom slot).isSome then
          let st := clusterBumpConfigEpochWithoutConsensus st
          { st with importingSlotsFrom := update st.importingSlotsFrom slot none }
        else st
      let st := clusterAddSlot (clusterDelSlot st slot) n slot
      (todoState (todoSave st), .ok)

def clusterSetslot (env : Env N) (st : State N) (slot : Nat) : SetslotAction N → State N × Reply
  | .migrating name =>
    if st.slots slot ≠ some st.myself then (st, .notTheOwner)
    else
      match clusterLookupNode st name with
      | none => (st, .unknownNode)
      | some n =>
        (todoState (todoSave { st with
          migratingSlotsTo := update st.migratingSlotsTo slot (some n) }), .ok)
  | .importing name =>
    if st.slots slot = some st.myself then (st, .alreadyTheOwner)
    else
      match clusterLookupNode st name with
      | none => (st, .unknownNode)
      | some n =>
        (todoState (todoSave { st with
          importingSlotsFrom := update st.importingSlotsFrom slot (some n) }), .ok)
  | .stable =>
    (todoState (todoSave { st with
      importingSlotsFrom := update st.importingSlotsFrom slot none
      migratingSlotsTo := update st.migratingSlotsTo slot none }), .ok)
  | .node name => setslotNode env st slot name

def clusterFailover (env : Env N) (st : State N) (option : FailoverOption) : State N × Reply :=
  if st.me.flags.master then (st, .notASlave)
  else
    match st.me.slaveof with
    | none => (st, .masterUnknown)
    | some m =>
      if option = .none ∧ ((st.node m).flags.fail ∨ (st.node m).link.isNone) then (st, .masterDown)
      else
        let st := { resetManualFailover st with mfEnd := env.now + 5000 }
        let st := match option with
          | .takeover => clusterFailoverReplaceYourMaster env (clusterBumpConfigEpochWithoutConsensus st)
          | .force => { st with mfCanStart := true }
          | .none => clusterSendMFStart env st m
        (st, .ok)

/-- The part of `clusterReset` for a hard reset. -/
def hardReset (env : Env N) (st : State N) : State N :=
  let st := { st with currentEpoch := 0, lastVoteEpoch := 0 }
  let st := st.modNode st.myself fun x => { x with configEpoch := 0 }
  let st := dictDeleteNode st st.me.name
  let st := st.modNode st.myself fun x => { x with name := env.newName st.next }
  clusterAddNode st st.myself

/-- `clusterReset`, for this node: a slave turns into a master, and no slot is
open or assigned. -/
def resetMyself (st : State N) : State N :=
  let st := if st.me.flags.slave then clusterSetNodeAsMaster st st.myself else st
  let st := resetManualFailover (clusterCloseAllSlots st)
  (List.range clusterSlots).foldl clusterDelSlot st

/-- `clusterReset`, for the other nodes, and the hard reset. -/
def resetNodes (env : Env N) (st : State N) (hard : Bool) : State N :=
  let st := (st.nodes.filter fun p => decide (p ≠ st.myself)).foldl (clusterDelNode env) st
  let st := if hard then hardReset env st else st
  todoFsync (todoState (todoSave st))

def clusterReset (env : Env N) (st : State N) (hard : Bool) : State N :=
  resetNodes env (resetMyself st) hard

def clusterCommand (env : Env N) (st : State N) : Command N → State N × Reply
  | .meet ip port =>
    let (st, res) := clusterStartHandshake env st ip port
    (st, if res = .invalid then .invalidAddress else .ok)
  | .flushslots =>
    if env.dbSize ≠ 0 then (st, .dbMustBeEmpty)
    else (todoState (todoSave (clusterDelNodeSlots st st.myself)), .ok)
  | .addslots args => changeSlots st false args
  | .delslots args => changeSlots st true args
  | .setslot arg action =>
    match getSlotOrReply arg with
    | none => (st, .invalidSlot)
    | some slot => clusterSetslot env st slot action
  | .saveconfig => (clusterSaveConfig st true, .ok)
  | .forget name =>
    match clusterLookupNode st name with
    | none => (st, .unknownNode)
    | some n =>
      if n = st.myself then (st, .cantForgetMyself)
      else if st.me.flags.slave ∧ st.me.slaveof = some n then (st, .cantForgetMyMaster)
      else
        let st := clusterBlacklistAddNode st env n
        (todoState (todoSave (clusterDelNode env st n)), .ok)
  | .replicate name =>
    match clusterLookupNode st name with
    | none => (st, .unknownNode)
    | some n =>
      if n = st.myself then (st, .cantReplicateMyself)
      else if (st.node n).flags.slave then (st, .cantReplicateSlave)
      else if st.me.flags.master ∧ (st.me.numslots ≠ 0 ∨ env.dbSize ≠ 0) then (st, .notEmpty)
      else (todoState (todoSave (clusterSetMaster st n)), .ok)
  | .countFailureReports name =>
    match clusterLookupNode st name with
    | none => (st, .unknownNode)
    | some n =>
      let st := clusterNodeCleanupFailureReports st env n
      (st, .failureReports (st.node n).failReports.length)
  | .failover option => clusterFailover env st option
  | .setConfigEpoch epoch =>
    if epoch < 0 then (st, .invalidEpoch)
    else if st.nodes.length > 1 then (st, .knowsOtherNodes)
    else if st.me.configEpoch ≠ 0 then (st, .epochNotZero)
    else
      let st := st.modNode st.myself fun x => { x with configEpoch := epoch.toNat }
      let st := { st with currentEpoch := max st.currentEpoch epoch.toNat }
      (todoState (todoSave st), .ok)
  | .reset hard =>
    if st.me.flags.master ∧ env.dbSize ≠ 0 then (st, .masterWithKeys)
    else (clusterReset env st hard, .ok)

/-! ## Loading the configuration -/

/-- The node with a name, created without flags when there is none. -/
def lookupOrCreate (now : Int) (st : State N) (name : N) : State N × Ptr :=
  match clusterLookupNode st name with
  | some p => (st, p)
  | none =>
    let (st, p) := createClusterNode st now name {}
    (clusterAddNode st p, p)

/-- The flags of a line are added to those of a node. -/
def orFlags (x f : NodeFlags) : NodeFlags where
  master := x.master || f.master
  slave := x.slave || f.slave
  pfail := x.pfail || f.pfail
  fail := x.fail || f.fail
  myself := x.myself || f.myself
  handshake := x.handshake || f.handshake
  noaddr := x.noaddr || f.noaddr
  meet := x.meet

/-- The flags of a line are set. -/
def loadFlags (now : Int) (st : State N) (n : Ptr) (f : NodeFlags) : State N :=
  let st :=
    if f.myself then { st.assert (decide (st.myself = 0)) .loadMyself with myself := n } else st
  st.modNode n fun x =>
    { x with flags := orFlags x.flags f, failTime := if f.fail then now else x.failTime }

def loadMaster (now : Int) (st : State N) (n : Ptr) (slaveof : Option N) : State N :=
  match slaveof with
  | none => st
  | some name =>
    let (st, m) := lookupOrCreate now st name
    clusterNodeAddSlave (st.modNode n fun x => { x with slaveof := some m }) m n

def loadOpenSlot (now : Int) (st : State N) (o : OpenSlot N) : State N :=
  let (st, n) := lookupOrCreate now st o.node
  if o.migrating then
    { st with migratingSlotsTo := update st.migratingSlotsTo o.slot (some n) }
  else { st with importingSlotsFrom := update st.importingSlotsFrom o.slot (some n) }

/-- The clocks and the configuration epoch of a line; `atoi` keeps the low 32
bits of a time. -/
def loadEpoch (now : Int) (st : State N) (n : Ptr) (line : NodeLine N) : State N :=
  st.modNode n fun x =>
    { x with
      pingSent := if line.pingSent % 2 ^ 32 ≠ 0 then now else x.pingSent
      pongReceived := if line.pongReceived % 2 ^ 32 ≠ 0 then now else x.pongReceived
      configEpoch := line.configEpoch }

def loadNode (now : Int) (st : State N) (line : NodeLine N) : State N :=
  let (st, n) := lookupOrCreate now st line.name
  let st := st.modNode n fun x => { x with ip := line.ip, port := line.port }
  let st := loadFlags now st n line.flags
  let st := loadMaster now st n line.slaveof
  let st := loadEpoch now st n line
  let st := line.slots.foldl (fun st j => clusterAddSlot st n j) st
  line.openSlots.foldl (loadOpenSlot now) st

def loadLine (now : Int) (st : State N) : ConfigLine N → State N
  | .node line => loadNode now st line
  | .vars currentEpoch lastVoteEpoch => { st with currentEpoch, lastVoteEpoch }

/-- `clusterLoadConfig` on the lines of the file. -/
def clusterLoadConfig (now : Int) (st : State N) (lines : List (ConfigLine N)) : State N :=
  let st := lines.foldl (loadLine now) st
  let st := st.assert (decide (st.myself ≠ 0)) .loadMyself
  if clusterGetMaxEpoch st > st.currentEpoch then
    { st with currentEpoch := clusterGetMaxEpoch st }
  else st

/-- `clusterInit` before the configuration is loaded.  The address 0 is `NULL`,
and the records at the addresses not in use are those of no node. -/
def emptyState (name : N) (file : Option (List (ConfigLine N))) (sent : List (Option N × Msg N)) :
    State N where
  myself := 0
  currentEpoch := 0
  ok := false
  size := 1
  nodes := []
  nodesBlackList := []
  node := fun _ => newNode 0 name {}
  next := 1
  migratingSlotsTo := fun _ => none
  importingSlotsFrom := fun _ => none
  slots := fun _ => none
  failoverAuthTime := 0
  failoverAuthCount := 0
  failoverAuthSent := false
  failoverAuthRank := 0
  failoverAuthEpoch := 0
  mfEnd := 0
  mfSlave := none
  mfMasterOffset := 0
  mfCanStart := false
  lastVoteEpoch := 0
  todoHandleFailover := false
  todoUpdateState := false
  todoSaveConfig := false
  todoFsyncConfig := false
  amongMinorityTime := 0
  firstCallTime := 0
  file
  queued := []
  sent
  failed := none

/-- The node a fresh start creates for itself. -/
def createMyself (env : Env N) (st : State N) : State N :=
  let (st, n) := createClusterNode st env.now (env.newName st.next)
    { myself := true, master := true }
  clusterSaveConfig (clusterAddNode { st with myself := n } n) true

def clusterInit (env : Env N) (file : Option (List (ConfigLine N)))
    (sent : List (Option N × Msg N)) : State N :=
  let st := emptyState (env.newName 0) file sent
  let st := match file with
    | some lines => clusterLoadConfig env.now st lines
    | none => createMyself env st
  resetManualFailover (st.modNode st.myself fun x => { x with port := env.port })

/-- `verifyClusterConfigWithData`, for one slot, with `update_config`. -/
def verifySlot (env : Env N) (acc : State N × Nat) (j : Nat) : State N × Nat :=
  let (st, updateConfig) := acc
  if env.countKeysInSlot j = 0 ∨ st.slots j = some st.myself ∨ (st.importingSlotsFrom j).isSome then
    (st, updateConfig)
  else if (st.slots j).isNone then (clusterAddSlot st st.myself j, updateConfig + 1)
  else
    ({ st with importingSlotsFrom := update st.importingSlotsFrom j (st.slots j) },
      updateConfig + 1)

def verifyClusterConfigWithData (env : Env N) (st : State N) : State N :=
  if st.me.flags.slave then st
  else
    let (st, updateConfig) := (List.range clusterSlots).foldl (verifySlot env) (st, 0)
    if updateConfig ≠ 0 then clusterSaveConfig st true else st

/-! ## Steps -/

/-- What can happen to a node. -/
inductive Event (N : Type) where
  | packet (env : Env N) (link : Option Ptr) (hdr : Msg N)
  | command (env : Env N) (cmd : Command N)
  | cron (env : Env N)
  | beforeSleep (env : Env N)
  | linkError (p : Ptr)
  | verifyData (env : Env N)
  | restart (env : Env N)

/-- The send buffers are written to the sockets. -/
def flush (st : State N) : State N := { st with sent := st.sent ++ st.queued, queued := [] }

/-- What an event does to a process that runs. -/
def runEvent (st : State N) : Event N → State N
  | .packet env link hdr => clusterProcessPacket env st link hdr
  | .command env cmd => (clusterCommand env st cmd).1
  | .cron env => clusterCron env st
  | .beforeSleep env => flush (clusterBeforeSleep env st)
  | .linkError p => st.modNode p fun x => { x with link := none }
  | .verifyData env => verifyClusterConfigWithData env st
  | .restart env => clusterInit env st.file st.sent

/-- A process whose assertion failed has ended, and only a restart goes on from
there. -/
def step (st : State N) (ev : Event N) : State N :=
  match ev with
  | .restart env => clusterInit env st.file st.sent
  | ev => if st.failed.isSome then st else runEvent st ev

end Redis.Bus
