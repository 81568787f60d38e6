import Mathlib
import Redis.Ballot

/-!
# Redis.Cluster

The election of `cluster.c`: a slave whose master failed schedules an
election, asks for votes in a new epoch and promotes itself when its counter
of votes reaches the quorum; a master serving slots votes at most once per
epoch.

`N` is the type of node names.  A node reaches the records of other nodes
through pointers, here the function `node`; the keys of the `nodes` table are
the list `nodes`, so that a sender is known when its name is in it.  `none`
is a failed `redisAssert`.
-/

namespace Redis

/-- A bitmap of the `REDIS_CLUSTER_SLOTS` slots, as the list of the slots whose
bit is set. -/
abbrev SlotBitmap := List Nat

/-- The record a node keeps of a node of the cluster, itself included.  The
booleans are the bits of `flags`, and `link` says that the link is up. -/
structure ClusterNode (N : Type) where
  master : Bool
  slave : Bool
  fail : Bool
  handshake : Bool
  configEpoch : Nat
  slots : SlotBitmap
  numslots : Nat
  slaves : List N
  slaveof : Option N
  votedTime : Int
  replOffset : Int
  link : Bool

/-- `clusterState`, and the replication fields of `server` that the election
reads. -/
structure ClusterState (N : Type) where
  myself : N
  currentEpoch : Nat
  size : Nat
  nodes : List N
  node : N → ClusterNode N
  slots : Nat → Option N
  failoverAuthTime : Int
  failoverAuthCount : Nat
  failoverAuthSent : Bool
  failoverAuthRank : Nat
  failoverAuthEpoch : Nat
  mfEnd : Int
  mfCanStart : Bool
  lastVoteEpoch : Nat
  /-- `server.repl_state == REDIS_REPL_CONNECTED` -/
  replConnected : Bool
  lastinteraction : Int
  replDownSince : Int
  /-- `server.masterhost != NULL` -/
  masterhost : Bool
  /-- `reploff` of `server.master` and of `server.cached_master` -/
  masterReploff : Option Int
  cachedMasterReploff : Option Int
  masterReplOffset : Int

/-- The configuration the election reads. -/
structure ClusterConfig where
  clusterNodeTimeout : Int
  clusterSlaveValidityFactor : Int
  replPingSlavePeriod : Int

/-- The packet types of an election. -/
inductive ClusterMsgType where
  | failoverAuthRequest
  | failoverAuthAck
deriving DecidableEq, Repr

/-- A packet in flight: the header fields the election reads, and the node it
is sent to. -/
structure ClusterMsg (N : Type) where
  type : ClusterMsgType
  sender : N
  dest : N
  currentEpoch : Nat
  configEpoch : Nat
  myslots : SlotBitmap
  offset : Int
  forceack : Bool

variable {N : Type} [DecidableEq N]

/-! ## Access to the records -/

namespace ClusterState

/-- The record of the node itself. -/
def me (st : ClusterState N) : ClusterNode N := st.node st.myself

/-- Replaces the record of one node. -/
def setNode (st : ClusterState N) (n : N) (x : ClusterNode N) : ClusterState N :=
  { st with node := Function.update st.node n x }

/-- `nodeIsMaster(n) && n->numslots`. -/
def serving (st : ClusterState N) (n : N) : Bool :=
  (st.node n).master && decide (0 < (st.node n).numslots)

end ClusterState

/-! ## Slots -/

def bitmapTestBit (bitmap : SlotBitmap) (pos : Nat) : Bool := decide (pos ∈ bitmap)

def bitmapSetBit (bitmap : SlotBitmap) (pos : Nat) : SlotBitmap :=
  if bitmapTestBit bitmap pos then bitmap else pos :: bitmap

def bitmapClearBit (bitmap : SlotBitmap) (pos : Nat) : SlotBitmap :=
  bitmap.filter fun j => decide (j ≠ pos)

def clusterNodeSetSlotBit (n : ClusterNode N) (slot : Nat) : ClusterNode N :=
  let old := bitmapTestBit n.slots slot
  { n with
    slots := bitmapSetBit n.slots slot
    numslots := if !old then n.numslots + 1 else n.numslots }

/-- `clusterNodeClearSlotBit`, with the old value of the bit. -/
def clusterNodeClearSlotBit (n : ClusterNode N) (slot : Nat) : ClusterNode N × Bool :=
  let old := bitmapTestBit n.slots slot
  ({ n with
     slots := bitmapClearBit n.slots slot
     numslots := if old then n.numslots - 1 else n.numslots }, old)

def clusterAddSlot (st : ClusterState N) (n : N) (slot : Nat) : ClusterState N :=
  match st.slots slot with
  | some _ => st
  | none =>
    { st.setNode n (clusterNodeSetSlotBit (st.node n) slot) with
      slots := Function.update st.slots slot (some n) }

def clusterDelSlot (st : ClusterState N) (slot : Nat) : Option (ClusterState N) :=
  match st.slots slot with
  | none => some st
  | some n =>
    let r := clusterNodeClearSlotBit (st.node n) slot
    if r.2 then
      some { st.setNode n r.1 with slots := Function.update st.slots slot none }
    else
      none

/-! ## Building packets -/

def replicationGetSlaveOffset (st : ClusterState N) : Int :=
  let offset :=
    if st.masterhost then
      match st.masterReploff with
      | some o => o
      | none =>
        match st.cachedMasterReploff with
        | some o => o
        | none => 0
    else 0
  if offset < 0 then 0 else offset

/-- `clusterBuildMessageHdr`: a slave sends the slots and the configuration
epoch of its master. -/
def clusterBuildMessageHdr (st : ClusterState N) (type : ClusterMsgType) (dest : N) :
    ClusterMsg N :=
  let master : ClusterNode N :=
    if st.me.slave then
      match st.me.slaveof with
      | some m => st.node m
      | none => st.me
    else st.me
  { type
    sender := st.myself
    dest
    currentEpoch := st.currentEpoch
    configEpoch := master.configEpoch
    myslots := master.slots
    offset := if st.me.slave then replicationGetSlaveOffset st else st.masterReplOffset
    forceack := false }

/-- `clusterRequestFailoverAuth`: one packet for every node with a link,
except this node and the nodes in handshake. -/
def clusterRequestFailoverAuth (st : ClusterState N) : List (ClusterMsg N) :=
  (st.nodes.filter fun n =>
      (st.node n).link && !(decide (n = st.myself) || (st.node n).handshake)).map fun n =>
    { clusterBuildMessageHdr st .failoverAuthRequest n with forceack := decide (st.mfEnd ≠ 0) }

def clusterSendFailoverAuth (st : ClusterState N) (n : N) : List (ClusterMsg N) :=
  if (st.node n).link then [clusterBuildMessageHdr st .failoverAuthAck n] else []

/-! ## Voting -/

/-- The slots loop of `clusterSendFailoverAuthIfNeeded`: no claimed slot is
served by a node with a greater configuration epoch.  The loop skips the
slots whose bit is clear. -/
def claimedSlotsOk (st : ClusterState N) (request : ClusterMsg N) : Bool :=
  request.myslots.all fun j =>
    match st.slots j with
    | none => true
    | some n => decide ((st.node n).configEpoch ≤ request.configEpoch)

/-- `clusterSendFailoverAuthIfNeeded` for a request of `n` at time `now`;
`none` if the vote is denied. -/
def clusterSendFailoverAuthIfNeeded (cfg : ClusterConfig) (st : ClusterState N) (n : N)
    (request : ClusterMsg N) (now : Int) : Option (ClusterState N × List (ClusterMsg N)) :=
  if st.me.slave || decide (st.me.numslots = 0) then none
  else if request.currentEpoch < st.currentEpoch then none
  else if st.lastVoteEpoch = st.currentEpoch then none
  else if (st.node n).master then none
  else
    match (st.node n).slaveof with
    | none => none
    | some m =>
      if !(st.node m).fail && !request.forceack then none
      else if now - (st.node m).votedTime < cfg.clusterNodeTimeout * 2 then none
      else if !claimedSlotsOk st request then none
      else
        let packets := clusterSendFailoverAuth st n
        let st := { st with lastVoteEpoch := st.currentEpoch }
        some (st.setNode m { st.node m with votedTime := now }, packets)

/-! ## The election of a slave -/

def clusterGetSlaveRank (st : ClusterState N) : Option Nat :=
  if !st.me.slave then none
  else
    match st.me.slaveof with
    | none => some 0
    | some m =>
      let myoffset := replicationGetSlaveOffset st
      some ((st.node m).slaves.countP fun s =>
        decide (s ≠ st.myself) && decide ((st.node s).replOffset > myoffset))

def resetManualFailover (st : ClusterState N) : ClusterState N :=
  { st with mfEnd := 0, mfCanStart := false }

def clusterSetNodeAsMaster (st : ClusterState N) (n : N) : ClusterState N :=
  if (st.node n).master then st
  else
    let st :=
      match (st.node n).slaveof with
      | none => st
      | some m => st.setNode m { st.node m with slaves := (st.node m).slaves.erase n }
    st.setNode n { st.node n with slave := false, master := true, slaveof := none }

/-- Step 2 of `clusterFailoverReplaceYourMaster`, for one slot. -/
def claimSlot (oldmaster : N) (st : ClusterState N) (j : Nat) : Option (ClusterState N) :=
  if bitmapTestBit (st.node oldmaster).slots j then do
    let st ← clusterDelSlot st j
    return clusterAddSlot st st.myself j
  else
    some st

/-- `clusterFailoverReplaceYourMaster`.  The loop over the slots skips those
whose bit is clear in the bitmap of the old master, and the body changes the
bit of its own slot only. -/
def clusterFailoverReplaceYourMaster (st : ClusterState N) : Option (ClusterState N) :=
  if st.me.master then some st
  else
    match st.me.slaveof with
    | none => some st
    | some oldmaster => do
      let st := clusterSetNodeAsMaster st st.myself
      let st ← (st.node oldmaster).slots.foldlM (claimSlot oldmaster) st
      return resetManualFailover st

/-- What a call of `clusterHandleSlaveFailover` leaves: the new state, the
packets sent, and whether the node passed the quorum test and promoted
itself. -/
structure FailoverOutcome (N : Type) where
  state : ClusterState N
  packets : List (ClusterMsg N)
  promoted : Bool

def authTimeout (cfg : ClusterConfig) : Int :=
  let t := cfg.clusterNodeTimeout * 2
  if t < 2000 then 2000 else t

def authRetryTime (cfg : ClusterConfig) : Int := authTimeout cfg * 2

/-- The check of the slave validity factor: the data is too old. -/
def dataTooOld (cfg : ClusterConfig) (st : ClusterState N) (unixtime : Int) : Bool :=
  let dataAge :=
    if st.replConnected then (unixtime - st.lastinteraction) * 1000
    else (unixtime - st.replDownSince) * 1000
  let dataAge :=
    if dataAge > cfg.clusterNodeTimeout then dataAge - cfg.clusterNodeTimeout else dataAge
  decide (cfg.clusterSlaveValidityFactor ≠ 0) &&
    decide (dataAge > cfg.replPingSlavePeriod * 1000 +
      cfg.clusterNodeTimeout * cfg.clusterSlaveValidityFactor)

/-- A new attempt: the election is scheduled and the vote counter reset, but
`failoverAuthEpoch` stays that of the attempt before. -/
def scheduleElection (st : ClusterState N) (now : Int) (random rank : Nat) : ClusterState N :=
  { st with
    failoverAuthTime := if st.mfEnd ≠ 0 then now else now + 500 + (random % 500 : Nat) + rank * 1000
    failoverAuthCount := 0
    failoverAuthSent := false
    failoverAuthRank := if st.mfEnd ≠ 0 then 0 else rank }

/-- The delay added when other slaves reported better offsets. -/
def updateRank (st : ClusterState N) (newrank : Nat) : ClusterState N :=
  if newrank > st.failoverAuthRank then
    { st with
      failoverAuthTime := st.failoverAuthTime + ((newrank : Int) - st.failoverAuthRank) * 1000
      failoverAuthRank := newrank }
  else st

/-- The start of an election: the epoch is bumped and the votes asked for. -/
def startElection (st : ClusterState N) : ClusterState N :=
  let epoch := (st.currentEpoch + 1) % 2 ^ 64
  { st with currentEpoch := epoch, failoverAuthEpoch := epoch, failoverAuthSent := true }

/-- The update of `myself->configEpoch` after an election is won. -/
def claimConfigEpoch (st : ClusterState N) : ClusterState N :=
  if st.me.configEpoch < st.failoverAuthEpoch then
    st.setNode st.myself { st.me with configEpoch := st.failoverAuthEpoch }
  else st

/-- `clusterHandleSlaveFailover` from the test of the delay on. -/
def runElection (cfg : ClusterConfig) (st : ClusterState N) (now authAge : Int) :
    Option (FailoverOutcome N) :=
  if now < st.failoverAuthTime then some ⟨st, [], false⟩
  else if authAge > authTimeout cfg then some ⟨st, [], false⟩
  else if !st.failoverAuthSent then
    let st := startElection st
    some ⟨st, clusterRequestFailoverAuth st, false⟩
  else if st.failoverAuthCount ≥ Ballot.quorum st.size then do
    let st ← clusterFailoverReplaceYourMaster (claimConfigEpoch st)
    return ⟨st, [], true⟩
  else some ⟨st, [], false⟩

/-- `clusterHandleSlaveFailover` at time `now`, with `random()` returning
`random`. -/
def clusterHandleSlaveFailover (cfg : ClusterConfig) (st : ClusterState N) (now unixtime : Int)
    (random : Nat) : Option (FailoverOutcome N) :=
  let authAge := now - st.failoverAuthTime
  let manualFailover := decide (st.mfEnd ≠ 0) && st.mfCanStart
  if st.me.master then some ⟨st, [], false⟩
  else
    match st.me.slaveof with
    | none => some ⟨st, [], false⟩
    | some m =>
      if (!(st.node m).fail && !manualFailover) || decide ((st.node m).numslots = 0) then
        some ⟨st, [], false⟩
      else if dataTooOld cfg st unixtime && !manualFailover then some ⟨st, [], false⟩
      else if authAge > authRetryTime cfg then do
        let rank ← clusterGetSlaveRank st
        return ⟨scheduleElection st now random rank, [], false⟩
      else if !st.failoverAuthSent && decide (st.mfEnd = 0) then do
        let newrank ← clusterGetSlaveRank st
        runElection cfg (updateRank st newrank) now authAge
      else runElection cfg st now authAge

/-! ## Receiving packets -/

/-- The part of `clusterProcessPacket` every packet of a known sender goes
through. -/
def updateFromHeader (st : ClusterState N) (hdr : ClusterMsg N) : ClusterState N :=
  if (st.node hdr.sender).handshake then st
  else
    let st := { st with currentEpoch := max st.currentEpoch hdr.currentEpoch }
    let sender := st.node hdr.sender
    st.setNode hdr.sender
      { sender with
        configEpoch := max sender.configEpoch hdr.configEpoch
        replOffset := hdr.offset }

/-- `senderCurrentEpoch`, which stays 0 for a sender in handshake. -/
def senderCurrentEpoch (st : ClusterState N) (hdr : ClusterMsg N) : Nat :=
  if (st.node hdr.sender).handshake then 0 else hdr.currentEpoch

/-- The test an ACK has to pass to be counted. -/
def ackCounted (st : ClusterState N) (hdr : ClusterMsg N) : Bool :=
  st.serving hdr.sender && decide (senderCurrentEpoch st hdr ≥ st.failoverAuthEpoch)

/-- What a received packet does: the new state, the packets sent, and whether
a vote was granted. -/
structure PacketOutcome (N : Type) where
  state : ClusterState N
  packets : List (ClusterMsg N)
  voted : Bool

/-- `clusterProcessPacket` on the packets of an election. -/
def clusterProcessPacket (cfg : ClusterConfig) (st : ClusterState N) (hdr : ClusterMsg N)
    (now : Int) : PacketOutcome N :=
  if hdr.sender ∉ st.nodes then ⟨st, [], false⟩
  else
    let st' := updateFromHeader st hdr
    match hdr.type with
    | .failoverAuthRequest =>
      match clusterSendFailoverAuthIfNeeded cfg st' hdr.sender hdr now with
      | none => ⟨st', [], false⟩
      | some (st'', packets) => ⟨st'', packets, true⟩
    | .failoverAuthAck =>
      if ackCounted st' hdr then
        ⟨{ st' with failoverAuthCount := st'.failoverAuthCount + 1 }, [], false⟩
      else
        ⟨st', [], false⟩

end Redis
