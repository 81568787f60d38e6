import Redis.Bus.Packet

/-!
# Redis.Bus.Process

`clusterProcessPacket`, one definition for each of its parts.  The sanity
checks on the length of a packet are left out: here a packet has passed them.
-/

namespace Redis.Bus

variable {N : Type} [LinearOrder N]

/-- `senderConfigEpoch`, which stays 0 unless the sender is known and not in
handshake. -/
def senderConfigEpoch (st : State N) (sender : Option Ptr) (hdr : Msg N) : Nat :=
  match sender with
  | some s => if (st.node s).flags.handshake then 0 else hdr.configEpoch
  | none => 0

def senderCurrentEpoch (st : State N) (sender : Option Ptr) (hdr : Msg N) : Nat :=
  match sender with
  | some s => if (st.node s).flags.handshake then 0 else hdr.currentEpoch
  | none => 0

/-- What every packet of a known sender updates. -/
def updateFromHeader (st : State N) (sender : Option Ptr) (hdr : Msg N) : State N :=
  match sender with
  | none => st
  | some s =>
    if (st.node s).flags.handshake then st
    else
      let st := { st with currentEpoch := max st.currentEpoch hdr.currentEpoch }
      let st :=
        if hdr.configEpoch > (st.node s).configEpoch then
          todoFsync (todoSave (st.modNode s fun x => { x with configEpoch := hdr.configEpoch }))
        else st
      let st := st.modNode s fun x => { x with replOffset := hdr.offset }
      if st.mfEnd ≠ 0 ∧ st.me.flags.slave ∧ st.me.slaveof = some s ∧ hdr.paused ∧
          st.mfMasterOffset = 0 then
        { st with mfMasterOffset := (st.node s).replOffset }
      else st

/-- The address of this node, from a `MEET` or when it has none. -/
def updateMyIp (env : Env N) (st : State N) (isMeet : Bool) : State N :=
  if isMeet || st.me.ip.isEmpty then
    match env.sockName with
    | some ip =>
      if ip ≠ st.me.ip then todoSave (st.modNode st.myself fun x => { x with ip }) else st
    | none => st
  else st

/-- The initial processing of `PING` and `MEET`. -/
def processPing (env : Env N) (st : State N) (link sender : Option Ptr) (hdr : Msg N)
    (isMeet : Bool) (gossip : List (Gossip N)) : State N :=
  let st := updateMyIp env st isMeet
  let st :=
    if sender.isNone && isMeet then
      let (st, n) := createClusterNode st env.now (env.newName st.next) { handshake := true }
      let st := st.modNode n fun x => { x with ip := env.peerIp, port := hdr.port }
      let st := todoSave (clusterAddNode st n)
      clusterProcessGossipSection env st link hdr gossip
    else st
  clusterSendPing env st link .pong

/-- A handshake that ends: `none` when the packet processing goes on. -/
def processHandshake (env : Env N) (st : State N) (link sender : Option Ptr) (hdr : Msg N) :
    State N × Bool :=
  match link with
  | none => (st, true)
  | some l =>
    if (st.node l).flags.handshake then
      match sender with
      | some s =>
        let st := nodeUpdateAddressIfNeeded env st s link hdr.port
        (clusterDelNode env st l, false)
      | none =>
        let st := clusterRenameNode st l hdr.sender
        let st := st.modNode l fun x =>
          { x with flags := { x.flags with
              handshake := false
              master := x.flags.master || hdr.flags.master
              slave := x.flags.slave || hdr.flags.slave } }
        (todoSave st, true)
    else if (st.node l).name ≠ hdr.sender then
      let st := st.modNode l fun x =>
        { x with flags := { x.flags with noaddr := true }, ip := [], port := 0, link := none }
      (todoSave st, false)
    else (st, true)

/-- The information about the node of the link, on a `PONG`. -/
def processPong (env : Env N) (st : State N) (l : Ptr) : State N :=
  let st := st.modNode l fun x => { x with pongReceived := env.now, pingSent := 0 }
  if (st.node l).flags.pfail then
    todoState (todoSave (st.modNode l fun x => { x with flags := { x.flags with pfail := false } }))
  else if (st.node l).flags.fail then clearNodeFailureIfNeeded env st l
  else st

/-- A master that turned into a slave. -/
def demoteNode (st : State N) (s : Ptr) : State N :=
  let st := clusterDelNodeSlots st s
  let st := st.modNode s fun x => { x with flags := { x.flags with master := false, slave := true } }
  todoState (todoSave (clusterNodeResetSlaves st s))

/-- The master of a slave changed. -/
def changeMaster (st : State N) (s master : Ptr) : State N :=
  let st := leaveMaster st s
  let st := clusterNodeAddSlave st master s
  todoSave (st.modNode s fun x => { x with slaveof := some master })

/-- The check for a role switch. -/
def processRole (st : State N) (s : Ptr) (hdr : Msg N) : State N :=
  match hdr.slaveof with
  | none => clusterSetNodeAsMaster st s
  | some name =>
    let master := clusterLookupNode st name
    let st := if (st.node s).flags.master then demoteNode st s else st
    match master with
    | some m => if (st.node s).slaveof ≠ some m then changeMaster st s m else st
    | none => st

/-- `memcmp` of two bitmaps is not zero. -/
def slotsDiffer (a b : SlotBitmap) : Bool :=
  !(a.all fun j => bitmapTestBit b j) || !(b.all fun j => bitmapTestBit a j)

/-- Whether the slots the sender claims differ from those known of it. -/
def dirtySlots (st : State N) (s : Ptr) (hdr : Msg N) : Bool :=
  match if (st.node s).flags.master then some s else (st.node s).slaveof with
  | some m => slotsDiffer (st.node m).slots hdr.myslots
  | none => false

/-- The first claimed slot served by a node with a greater configuration
epoch: the sender is told with an `UPDATE`. -/
def staleClaim (st : State N) (s : Ptr) (epoch : Nat) (hdr : Msg N) : Option Ptr :=
  (((List.range clusterSlots).filter (bitmapTestBit hdr.myslots)).filterMap st.slots).find? fun n =>
    decide (n ≠ s) && decide ((st.node n).configEpoch > epoch)

/-- The served slots of the sender, the `UPDATE` it is sent when it is behind,
and the collision of configuration epochs. -/
def processSlots (env : Env N) (st : State N) (s : Ptr) (epoch : Nat) (hdr : Msg N) : State N :=
  let dirty := dirtySlots st s hdr
  let st :=
    if (st.node s).flags.master && dirty then clusterUpdateSlotsConfigWith st s epoch hdr.myslots
    else st
  let st :=
    if dirty then
      match staleClaim st s epoch hdr with
      | some n => clusterSendUpdate env st s n
      | none => st
    else st
  if st.me.flags.master && (st.node s).flags.master && decide (epoch = st.me.configEpoch) then
    clusterHandleConfigEpochCollision st s
  else st

/-- What a heartbeat says of the address of its sender and of the node of the
link. -/
def processPeer (env : Env N) (st : State N) (link sender : Option Ptr) (hdr : Msg N)
    (type : PingType) : State N :=
  let st := match sender with
    | some s =>
      if type = .ping ∧ !(st.node s).flags.handshake then
        nodeUpdateAddressIfNeeded env st s link hdr.port
      else st
    | none => st
  match link with
  | some l => if type = .pong then processPong env st l else st
  | none => st

/-- `PING`, `PONG` and `MEET`: the configuration information. -/
def processConfig (env : Env N) (st : State N) (link sender : Option Ptr) (epoch : Nat)
    (hdr : Msg N) (type : PingType) (gossip : List (Gossip N)) : State N :=
  let (st, goOn) := processHandshake env st link sender hdr
  if !goOn then st
  else
    let st := processPeer env st link sender hdr type
    match sender with
    | none => st
    | some s =>
      let st := processRole st s hdr
      let st := processSlots env st s epoch hdr
      clusterProcessGossipSection env st link hdr gossip

def processFail (env : Env N) (st : State N) (nodename : N) : State N :=
  match clusterLookupNode st nodename with
  | none => st
  | some f =>
    if (st.node f).flags.fail || (st.node f).flags.myself then st
    else
      todoState (todoSave (st.modNode f fun x =>
        { x with flags := { x.flags with fail := true, pfail := false }, failTime := env.now }))

/-- A `FAILOVER_AUTH_ACK` packet. -/
def processAck (st : State N) (s : Ptr) (currentEpoch : Nat) : State N :=
  if (st.node s).flags.master && decide ((st.node s).numslots > 0) &&
      decide (currentEpoch ≥ st.failoverAuthEpoch) then
    { st with failoverAuthCount := st.failoverAuthCount + 1, todoHandleFailover := true }
  else st

def processMFStart (env : Env N) (st : State N) (s : Ptr) : State N :=
  if (st.node s).slaveof ≠ some st.myself then st
  else { resetManualFailover st with mfEnd := env.now + 5000, mfSlave := some s }

def processUpdate (st : State N) (reportedConfigEpoch : Nat) (nodename : N)
    (slots : SlotBitmap) : State N :=
  match clusterLookupNode st nodename with
  | none => st
  | some n =>
    if (st.node n).configEpoch ≥ reportedConfigEpoch then st
    else
      let st := if (st.node n).flags.slave then clusterSetNodeAsMaster st n else st
      let st := todoFsync (todoSave (st.modNode n fun x =>
        { x with configEpoch := reportedConfigEpoch }))
      clusterUpdateSlotsConfigWith st n reportedConfigEpoch slots

def clusterProcessPacket (env : Env N) (st : State N) (link : Option Ptr) (hdr : Msg N) : State N :=
  let sender := clusterLookupNode st hdr.sender
  let epoch := senderConfigEpoch st sender hdr
  let currentEpoch := senderCurrentEpoch st sender hdr
  let st := updateFromHeader st sender hdr
  match hdr.data with
  | .ping gossip =>
    let st := processPing env st link sender hdr false gossip
    processConfig env st link sender epoch hdr .ping gossip
  | .meet gossip =>
    let st := processPing env st link sender hdr true gossip
    processConfig env st link sender epoch hdr .meet gossip
  | .pong gossip => processConfig env st link sender epoch hdr .pong gossip
  | .fail nodename => if sender.isSome then processFail env st nodename else st
  | .publish => st
  | .failoverAuthRequest =>
    match sender with
    | some s => clusterSendFailoverAuthIfNeeded env st s hdr
    | none => st
  | .failoverAuthAck =>
    match sender with
    | some s => processAck st s currentEpoch
    | none => st
  | .update reportedConfigEpoch nodename slots =>
    if sender.isSome then processUpdate st reportedConfigEpoch nodename slots else st
  | .mfstart =>
    match sender with
    | some s => processMFStart env st s
    | none => st
  | .unknown => st

end Redis.Bus
