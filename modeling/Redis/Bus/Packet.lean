import Redis.Bus.State

/-!
# Redis.Bus.Packet

Sending and receiving packets of the cluster bus: `clusterBuildMessageHdr` and
the functions that send, and `clusterProcessPacket` with what it calls.

A packet arrives on a link; `link` is `link->node`, `none` for a link another
node opened.  Packets are put into the send buffers, which are the field
`queued`.
-/

namespace Redis.Bus

variable {N : Type}

/-! ## Sending -/

/-- `clusterBuildMessageHdr`: a slave sends the slots and the configuration
epoch of its master. -/
def clusterBuildMessageHdr (env : Env N) (st : State N) (data : MsgData N) : Msg N :=
  let master : Node N :=
    if st.me.flags.slave then
      match st.me.slaveof with
      | some m => st.node m
      | none => st.me
    else st.me
  { data
    sender := st.me.name
    currentEpoch := st.currentEpoch
    configEpoch := master.configEpoch
    offset := if st.me.flags.slave then env.replicationGetSlaveOffset else env.masterReplOffset
    myslots := master.slots
    slaveof := st.me.slaveof.map fun m => (st.node m).name
    port := env.port
    flags := st.me.flags
    paused := st.me.flags.master && decide (st.mfEnd ≠ 0)
    forceack := false }

/-- `clusterSendMessage` on the link of the node `p`, or on a link without a
node. -/
def clusterSendMessage (st : State N) (p : Option Ptr) (msg : Msg N) : State N :=
  { st with queued := st.queued ++ [(p.map fun p => (st.node p).name, msg)] }

def clusterBroadcastMessage (st : State N) (msg : Msg N) : State N :=
  (st.nodes.filter fun p => (st.node p).link.isSome &&
      !((st.node p).flags.myself || (st.node p).flags.handshake)).foldl
    (fun st p => clusterSendMessage st (some p) msg) st

/-- The gossip section of a packet. -/
def gossipSection (env : Env N) (st : State N) : List (Gossip N) :=
  let freshnodes := st.nodes.length - 2
  let wanted := min (max (st.nodes.length / 10) 3) freshnodes
  ((env.gossipNodes.filter fun p => decide (p ∈ st.nodes) && decide (p ≠ st.myself) &&
      !((st.node p).flags.handshake || (st.node p).flags.noaddr ||
        ((st.node p).link.isNone && decide ((st.node p).numslots = 0)))).take wanted).map fun p =>
    ⟨(st.node p).name, (st.node p).ip, (st.node p).port, (st.node p).flags⟩

/-- The packet types `clusterSendPing` sends. -/
inductive PingType where
  | ping
  | pong
  | meet
deriving DecidableEq, Repr

/-- `clusterSendPing` on the link of `p`. -/
def clusterSendPing (env : Env N) (st : State N) (p : Option Ptr) (type : PingType) : State N :=
  let st := match p with
    | some p =>
      if type = .ping then st.modNode p fun x => { x with pingSent := env.now } else st
    | none => st
  let gossip := gossipSection env st
  let data := match type with
    | .ping => MsgData.ping gossip
    | .pong => MsgData.pong gossip
    | .meet => MsgData.meet gossip
  clusterSendMessage st p (clusterBuildMessageHdr env st data)

/-- `clusterBroadcastPong`; `localSlaves` is `CLUSTER_BROADCAST_LOCAL_SLAVES`. -/
def clusterBroadcastPong (env : Env N) (st : State N) (localSlaves : Bool) : State N :=
  (st.nodes.filter fun p => (st.node p).link.isSome &&
      !(decide (p = st.myself) || (st.node p).flags.handshake) &&
      (!localSlaves || ((st.node p).flags.slave && (st.node p).slaveof.isSome &&
        (decide ((st.node p).slaveof = some st.myself) ||
          decide ((st.node p).slaveof = st.me.slaveof))))).foldl
    (fun st p => clusterSendPing env st (some p) .pong) st

def clusterSendFail (env : Env N) (st : State N) (nodename : N) : State N :=
  clusterBroadcastMessage st (clusterBuildMessageHdr env st (.fail nodename))

/-- A packet for the node `p`, if it has a link. -/
def clusterSendIfLink (st : State N) (p : Ptr) (msg : Msg N) : State N :=
  if (st.node p).link.isSome then clusterSendMessage st (some p) msg else st

/-- `clusterSendUpdate` on the link of `p`, about `n`. -/
def clusterSendUpdate (env : Env N) (st : State N) (p n : Ptr) : State N :=
  clusterSendIfLink st p (clusterBuildMessageHdr env st
    (.update (st.node n).configEpoch (st.node n).name (st.node n).slots))

def clusterRequestFailoverAuth (env : Env N) (st : State N) : State N :=
  clusterBroadcastMessage st { clusterBuildMessageHdr env st .failoverAuthRequest with
    forceack := decide (st.mfEnd ≠ 0) }

def clusterSendFailoverAuth (env : Env N) (st : State N) (p : Ptr) : State N :=
  clusterSendIfLink st p (clusterBuildMessageHdr env st .failoverAuthAck)

def clusterSendMFStart (env : Env N) (st : State N) (p : Ptr) : State N :=
  clusterSendIfLink st p (clusterBuildMessageHdr env st .mfstart)

/-! ## Manual failover and masters -/

def resetManualFailover (st : State N) : State N :=
  { st with mfEnd := 0, mfCanStart := false, mfSlave := none, mfMasterOffset := 0 }

/-- The first part of `clusterSetMaster`: the node stops being a master, or the
slave of its master. -/
def leaveRole (st : State N) : State N :=
  if st.me.flags.master then
    clusterCloseAllSlots (st.modNode st.myself fun x =>
      { x with flags := { x.flags with master := false, slave := true } })
  else leaveMaster st st.myself

def clusterSetMaster (st : State N) (n : Ptr) : State N :=
  let st := st.assert (decide (n ≠ st.myself)) .setMasterSelf
  let st := st.assert (decide (st.me.numslots = 0)) .setMasterSlots
  let st := leaveRole st
  let st := st.modNode st.myself fun x => { x with slaveof := some n }
  resetManualFailover (clusterNodeAddSlave st n st.myself)

/-! ## Failure detection -/

def markNodeAsFailingIfNeeded (env : Env N) (st : State N) (n : Ptr) : State N :=
  if !(st.node n).flags.pfail || (st.node n).flags.fail then st
  else
    let st := clusterNodeCleanupFailureReports st env n
    let failures := (st.node n).failReports.length + if st.me.flags.master then 1 else 0
    if failures < st.size / 2 + 1 then st
    else
      let st := st.modNode n fun x =>
        { x with flags := { x.flags with pfail := false, fail := true }, failTime := env.now }
      let st := if st.me.flags.master then clusterSendFail env st (st.node n).name else st
      todoState (todoSave st)

def clearNodeFailureIfNeeded (env : Env N) (st : State N) (n : Ptr) : State N :=
  let st := st.assert (st.node n).flags.fail .clearFailure
  let clear := fun st : State N =>
    todoState (todoSave (st.modNode n fun x => { x with flags := { x.flags with fail := false } }))
  let st := if (st.node n).flags.slave || decide ((st.node n).numslots = 0) then clear st else st
  if (st.node n).flags.master && decide ((st.node n).numslots > 0) &&
      decide (env.now - (st.node n).failTime > env.clusterNodeTimeout * 2) then clear st
  else st

/-- What `clusterStartHandshake` returns; the last two are `errno`. -/
inductive HandshakeResult where
  | started
  | again
  | invalid
deriving DecidableEq, Repr

variable [LinearOrder N]

def clusterStartHandshake (env : Env N) (st : State N) (ip : CString) (port : Int) :
    State N × HandshakeResult :=
  match env.normIp ip with
  | none => (st, .invalid)
  | some normIp =>
    if port ≤ 0 ∨ port > 65535 - 10000 then (st, .invalid)
    else if st.nodes.any fun p => (st.node p).flags.handshake && strcaseEq (st.node p).ip normIp &&
        decide (((st.node p).port : Int) = port) then (st, .again)
    else
      let (st, n) := createClusterNode st env.now (env.newName st.next)
        { handshake := true, meet := true }
      let st := st.modNode n fun x => { x with ip := normIp, port := port.toNat }
      (clusterAddNode st n, .started)

/-- `clusterProcessGossipSection`, for one entry. -/
def processGossip (env : Env N) (sender : Option Ptr) (st : State N) (g : Gossip N) : State N :=
  match clusterLookupNode st g.nodename with
  | some node =>
    let st := match sender with
      | some s =>
        if (st.node s).flags.master && decide (node ≠ st.myself) then
          if g.flags.fail || g.flags.pfail then
            markNodeAsFailingIfNeeded env (clusterNodeAddFailureReport st env.now node s) node
          else clusterNodeDelFailureReport st env node s
        else st
      | none => st
    if ((st.node node).flags.fail || (st.node node).flags.pfail) &&
        (!strcaseEq (st.node node).ip g.ip || decide ((st.node node).port ≠ g.port)) then
      (clusterStartHandshake env st g.ip g.port).1
    else st
  | none =>
    if sender.isSome && !g.flags.noaddr then
      let st := clusterBlacklistCleanup st env
      if clusterBlacklistExists st g.nodename then st
      else (clusterStartHandshake env st g.ip g.port).1
    else st

def clusterProcessGossipSection (env : Env N) (st : State N) (link : Option Ptr) (hdr : Msg N)
    (gossip : List (Gossip N)) : State N :=
  let sender := match link with
    | some p => some p
    | none => clusterLookupNode st hdr.sender
  gossip.foldl (processGossip env sender) st

/-- `nodeUpdateAddressIfNeeded`; `link` is the link of `n` when it is the link
with the node `n`. -/
def nodeUpdateAddressIfNeeded (env : Env N) (st : State N) (n : Ptr) (link : Option Ptr)
    (port : Nat) : State N :=
  if link = some n then st
  else if (st.node n).port = port ∧ (st.node n).ip = env.peerIp then st
  else
    let st := st.modNode n fun x =>
      { x with ip := env.peerIp, port, link := none, flags := { x.flags with noaddr := false } }
    todoState (todoSave st)

/-! ## Slots of other nodes -/

/-- A slot is rebound if it is unassigned or its owner has a smaller
configuration epoch. -/
def rebinds (st : State N) (senderConfigEpoch : Nat) (j : Nat) : Bool :=
  match st.slots j with
  | none => true
  | some n => decide ((st.node n).configEpoch < senderConfigEpoch)

/-- The loop of `clusterUpdateSlotsConfigWith`, for one slot whose bit is set:
the state, and whether a slot of `curmaster` was taken.  The keys of the dirty
slots are not part of the state. -/
def rebindSlot (sender : Ptr) (senderConfigEpoch : Nat) (curmaster : Option Ptr)
    (acc : State N × Bool) (j : Nat) : State N × Bool :=
  let (st, newmaster) := acc
  if st.slots j = some sender ∨ (st.importingSlotsFrom j).isSome then (st, newmaster)
  else if rebinds st senderConfigEpoch j then
    (todoFsync (todoState (todoSave (clusterAddSlot (clusterDelSlot st j) sender j))),
      newmaster || decide (st.slots j = curmaster))
  else (st, newmaster)

def clusterUpdateSlotsConfigWith (st : State N) (sender : Ptr) (senderConfigEpoch : Nat)
    (slots : SlotBitmap) : State N :=
  let curmaster := if st.me.flags.master then some st.myself else st.me.slaveof
  if sender = st.myself then st
  else
    let (st, newmaster) := slots.foldl (rebindSlot sender senderConfigEpoch curmaster) (st, false)
    if newmaster then
      match curmaster with
      | none => st.assert false .nullCurmaster
      | some m =>
        if (st.node m).numslots = 0 then
          todoFsync (todoState (todoSave (clusterSetMaster st sender)))
        else st
    else st

/-- The open slots in the line of this node: a slot that is migrating is not
looked up in `importing_slots_from`. -/
def openSlots (st : State N) : List (OpenSlot N) :=
  (List.range clusterSlots).filterMap fun j =>
    match st.migratingSlotsTo j with
    | some n => some ⟨j, true, (st.node n).name⟩
    | none => (st.importingSlotsFrom j).map fun n => ⟨j, false, (st.node n).name⟩

def clusterGenNodeDescription (st : State N) (x : Node N) : NodeLine N where
  name := x.name
  ip := x.ip
  port := x.port
  flags := { x.flags with meet := false }
  slaveof := x.slaveof.map fun m => (st.node m).name
  pingSent := x.pingSent
  pongReceived := x.pongReceived
  configEpoch := x.configEpoch
  slots := (List.range clusterSlots).filter (bitmapTestBit x.slots)
  openSlots := if x.flags.myself then openSlots st else []

/-- The file `clusterSaveConfig` writes. -/
def configLines (st : State N) : List (ConfigLine N) :=
  (st.nodes.filter fun p => !(st.node p).flags.handshake).map
    (fun p => .node (clusterGenNodeDescription st (st.node p))) ++
    [.vars st.currentEpoch st.lastVoteEpoch]

/-- `clusterSaveConfig`; `fsync` clears the request for it. -/
def clusterSaveConfig (st : State N) (fsync : Bool) : State N :=
  { st with
    file := some (configLines st)
    todoSaveConfig := false
    todoFsyncConfig := st.todoFsyncConfig && !fsync }

def clusterHandleConfigEpochCollision (st : State N) (sender : Ptr) : State N :=
  if (st.node sender).configEpoch ≠ st.me.configEpoch ∨ !(st.node sender).flags.master ∨
      !st.me.flags.master then st
  else if (st.node sender).name ≤ st.me.name then st
  else clusterSaveConfig (takeNewEpoch st) true

/-! ## Voting -/

/-- The slots loop of `clusterSendFailoverAuthIfNeeded`. -/
def claimedSlotsOk (st : State N) (request : Msg N) : Bool :=
  request.myslots.all fun j =>
    match st.slots j with
    | none => true
    | some n => decide ((st.node n).configEpoch ≤ request.configEpoch)

def clusterSendFailoverAuthIfNeeded (env : Env N) (st : State N) (n : Ptr) (request : Msg N) :
    State N :=
  if st.me.flags.slave || decide (st.me.numslots = 0) then st
  else if request.currentEpoch < st.currentEpoch then st
  else if st.lastVoteEpoch = st.currentEpoch then st
  else if (st.node n).flags.master then st
  else
    match (st.node n).slaveof with
    | none => st
    | some m =>
      if !(st.node m).flags.fail && !request.forceack then st
      else if env.now - (st.node m).votedTime < env.clusterNodeTimeout * 2 then st
      else if !claimedSlotsOk st request then st
      else
        let st := clusterSendFailoverAuth env st n
        let st := { st with lastVoteEpoch := st.currentEpoch }
        st.modNode m fun x => { x with votedTime := env.now }

end Redis.Bus
