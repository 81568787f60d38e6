import Redis.Cluster

/-!
# Redis.Bus.State

The state a cluster node keeps of the cluster, and the node API of `cluster.c`:
the nodes table, slots, masters and slaves, failure reports and epochs.

`N` is the type of node names.  A `clusterNode *` is an address; the record of
a freed node stays at its address, which is not used again, so that a pointer
to a freed node is one that is no longer in the nodes table.  A `redisAssert`
that does not hold is noted in `failed`; the process ends there.
-/

namespace Redis.Bus

abbrev Ptr := Nat

abbrev CString := List UInt8

/-- The bits of `flags`.  `REDIS_NODE_PROMOTED` is never set. -/
structure NodeFlags where
  master : Bool := false
  slave : Bool := false
  pfail : Bool := false
  fail : Bool := false
  myself : Bool := false
  handshake : Bool := false
  noaddr : Bool := false
  meet : Bool := false
deriving DecidableEq, Repr

/-- `clusterNodeFailReport`. -/
structure FailReport where
  node : Ptr
  time : Int
deriving DecidableEq, Repr

/-- `clusterNode`.  `numslaves` is the length of `slaves`, and `link` holds the
creation time of the link when there is one. -/
structure Node (N : Type) where
  ctime : Int
  name : N
  flags : NodeFlags
  configEpoch : Nat
  slots : SlotBitmap
  numslots : Nat
  slaves : List Ptr
  slaveof : Option Ptr
  pingSent : Int
  pongReceived : Int
  failTime : Int
  votedTime : Int
  replOffset : Int
  ip : CString
  port : Nat
  link : Option Int
  failReports : List FailReport

/-- The assertions of the modelled functions, and the access through a
`curmaster` that is `NULL`. -/
inductive Assertion where
  | delSlot
  | setMasterSelf
  | setMasterSlots
  | nullCurmaster
  | slaveRank
  | clearFailure
  | freeNode
  | renameNode
  | slotRetval
  | loadMyself
deriving DecidableEq, Repr

/-- The `gossip` entries of a packet, the fields that are read. -/
structure Gossip (N : Type) where
  nodename : N
  ip : CString
  port : Nat
  flags : NodeFlags

/-- The packet types, with the part of the packet behind the header. -/
inductive MsgData (N : Type) where
  | ping (gossip : List (Gossip N))
  | pong (gossip : List (Gossip N))
  | meet (gossip : List (Gossip N))
  | fail (nodename : N)
  | publish
  | failoverAuthRequest
  | failoverAuthAck
  | update (configEpoch : Nat) (nodename : N) (slots : SlotBitmap)
  | mfstart
  | unknown

/-- A packet: the header fields that are read, and the data.  `slaveof` is
`none` for `REDIS_NODE_NULL_NAME`. -/
structure Msg (N : Type) where
  data : MsgData N
  sender : N
  currentEpoch : Nat
  configEpoch : Nat
  offset : Int
  myslots : SlotBitmap
  slaveof : Option N
  port : Nat
  flags : NodeFlags
  paused : Bool
  forceack : Bool

/-- A slot that is migrating to a node, or else importing from it, in
`nodes.conf`. -/
structure OpenSlot (N : Type) where
  slot : Nat
  migrating : Bool
  node : N
deriving DecidableEq, Repr

/-- The line of a node in `nodes.conf`. -/
structure NodeLine (N : Type) where
  name : N
  ip : CString
  port : Nat
  flags : NodeFlags
  slaveof : Option N
  pingSent : Int
  pongReceived : Int
  configEpoch : Nat
  slots : List Nat
  openSlots : List (OpenSlot N)
deriving DecidableEq, Repr

/-- A line of `nodes.conf`: a node, or the variables. -/
inductive ConfigLine (N : Type) where
  | node (line : NodeLine N)
  | vars (currentEpoch lastVoteEpoch : Nat)
deriving DecidableEq, Repr

/-- `clusterState`, with the file `nodes.conf` (`none` if it is missing or
empty), the packets in the send buffers, each with the name of the node its
link belongs to, and the packets that have left. -/
structure State (N : Type) where
  myself : Ptr
  currentEpoch : Nat
  /-- `state == REDIS_CLUSTER_OK` -/
  ok : Bool
  size : Nat
  nodes : List Ptr
  nodesBlackList : List (N × Int)
  node : Ptr → Node N
  /-- the next address `zmalloc` returns -/
  next : Ptr
  migratingSlotsTo : Nat → Option Ptr
  importingSlotsFrom : Nat → Option Ptr
  slots : Nat → Option Ptr
  failoverAuthTime : Int
  failoverAuthCount : Nat
  failoverAuthSent : Bool
  failoverAuthRank : Nat
  failoverAuthEpoch : Nat
  mfEnd : Int
  mfSlave : Option Ptr
  mfMasterOffset : Int
  mfCanStart : Bool
  lastVoteEpoch : Nat
  todoHandleFailover : Bool
  todoUpdateState : Bool
  todoSaveConfig : Bool
  todoFsyncConfig : Bool
  amongMinorityTime : Int
  firstCallTime : Int
  file : Option (List (ConfigLine N))
  queued : List (Option N × Msg N)
  sent : List (Option N × Msg N)
  failed : Option Assertion

/-- What a step of the node reads from outside: the clocks, the random
generator, the keyspace, the replication state, the sockets and the
configuration. -/
structure Env (N : Type) where
  now : Int
  unixtime : Int
  random : Nat
  /-- the random name of the node created at an address -/
  newName : Ptr → N
  /-- `dictSize(server.db[0].dict)` -/
  dbSize : Nat
  countKeysInSlot : Nat → Nat
  replicationGetSlaveOffset : Int
  masterReplOffset : Int
  replConnected : Bool
  lastinteraction : Int
  replDownSince : Int
  /-- `nodeIp2String` of the link a packet comes from -/
  peerIp : CString
  /-- `anetSockName` of that link -/
  sockName : Option CString
  /-- `inet_pton` followed by `inet_ntop` -/
  normIp : CString → Option CString
  /-- whether `anetTcpNonBlockBindConnect` succeeds -/
  connects : Ptr → Bool
  /-- the nodes `dictGetRandomKey` returns to `clusterCron` -/
  randomNodes : List Ptr
  /-- the nodes `clusterSendPing` puts into a gossip section -/
  gossipNodes : List Ptr
  port : Nat
  clusterNodeTimeout : Int
  clusterSlaveValidityFactor : Int
  replPingSlavePeriod : Int
  clusterMigrationBarrier : Nat
  clusterRequireFullCoverage : Bool

variable {N : Type}

/-- `REDIS_CLUSTER_SLOTS`. -/
def clusterSlots : Nat := 16384

/-! ## Access to the records -/

namespace State

/-- The record of the node itself. -/
def me (st : State N) : Node N := st.node st.myself

/-- Changes the record at an address. -/
def modNode (st : State N) (p : Ptr) (f : Node N → Node N) : State N :=
  { st with node := Function.update st.node p (f (st.node p)) }

/-- `redisAssert`. -/
def assert (st : State N) (b : Bool) (a : Assertion) : State N :=
  if b then st else { st with failed := st.failed.orElse fun _ => some a }

variable (st : State N) (p : Ptr) (f : Node N → Node N)

@[simp] theorem modNode_node (q : Ptr) (f : Node N → Node N) :
    (st.modNode p f).node q = if q = p then f (st.node q) else st.node q := by
  by_cases h : q = p
  · subst h
    simp [modNode]
  · simp [modNode, h]

@[simp] theorem modNode_myself : (st.modNode p f).myself = st.myself := rfl

@[simp] theorem modNode_nodes : (st.modNode p f).nodes = st.nodes := rfl

@[simp] theorem modNode_slots : (st.modNode p f).slots = st.slots := rfl

theorem assert_eq (b : Bool) (a : Assertion) :
    st.assert b a = { st with failed := (st.assert b a).failed } := by
  unfold assert
  split
  · rfl
  · rfl

theorem assert_node (b : Bool) (a : Assertion) (p : Ptr) : (st.assert b a).node p = st.node p := by
  rw [assert_eq]

end State

/-- `clusterDoBeforeSleep` with `CLUSTER_TODO_SAVE_CONFIG`. -/
def todoSave (st : State N) : State N := { st with todoSaveConfig := true }

/-- `clusterDoBeforeSleep` with `CLUSTER_TODO_UPDATE_STATE`. -/
def todoState (st : State N) : State N := { st with todoUpdateState := true }

/-- `clusterDoBeforeSleep` with `CLUSTER_TODO_FSYNC_CONFIG`. -/
def todoFsync (st : State N) : State N := { st with todoFsyncConfig := true }

/-- `strcasecmp(a,b) == 0`. -/
def strcaseEq (a b : CString) : Bool :=
  let lower := fun c : UInt8 => if 65 ≤ c ∧ c ≤ 90 then c + 32 else c
  a.map lower == b.map lower

theorem strcaseEq_congr {a b : CString} (h : strcaseEq a b = true) (c : CString) :
    strcaseEq a c = strcaseEq b c := by
  rw [strcaseEq, beq_iff_eq] at h
  rw [strcaseEq, strcaseEq, h]

/-! ## Slots -/

def clusterNodeSetSlotBit (n : Node N) (slot : Nat) : Node N :=
  { n with
    slots := bitmapSetBit n.slots slot
    numslots := if bitmapTestBit n.slots slot then n.numslots else n.numslots + 1 }

def clusterNodeClearSlotBit (n : Node N) (slot : Nat) : Node N :=
  { n with
    slots := bitmapClearBit n.slots slot
    numslots := if bitmapTestBit n.slots slot then n.numslots - 1 else n.numslots }

def clusterAddSlot (st : State N) (n : Ptr) (slot : Nat) : State N :=
  match st.slots slot with
  | some _ => st
  | none =>
    { st.modNode n fun x => clusterNodeSetSlotBit x slot with
      slots := Function.update st.slots slot (some n) }

def clusterDelSlot (st : State N) (slot : Nat) : State N :=
  match st.slots slot with
  | none => st
  | some n =>
    let st := st.assert (bitmapTestBit (st.node n).slots slot) .delSlot
    { st.modNode n fun x => clusterNodeClearSlotBit x slot with
      slots := Function.update st.slots slot none }

/-- `clusterDelNodeSlots`.  The loop skips the slots whose bit is clear, and a
round changes the bit of its own slot only. -/
def clusterDelNodeSlots (st : State N) (n : Ptr) : State N :=
  (st.node n).slots.foldl clusterDelSlot st

def clusterCloseAllSlots (st : State N) : State N :=
  { st with migratingSlotsTo := fun _ => none, importingSlotsFrom := fun _ => none }

/-! ## Masters and slaves -/

def clusterNodeRemoveSlave (st : State N) (master slave : Ptr) : State N :=
  st.modNode master fun x => { x with slaves := x.slaves.erase slave }

def clusterNodeAddSlave (st : State N) (master slave : Ptr) : State N :=
  st.modNode master fun x =>
    { x with slaves := if slave ∈ x.slaves then x.slaves else x.slaves ++ [slave] }

def clusterNodeResetSlaves (st : State N) (n : Ptr) : State N :=
  st.modNode n fun x => { x with slaves := [] }

/-- `clusterNodeRemoveSlave(n->slaveof,n)`, when `n` has a master. -/
def leaveMaster (st : State N) (n : Ptr) : State N :=
  match (st.node n).slaveof with
  | some m => clusterNodeRemoveSlave st m n
  | none => st

def clusterCountNonFailingSlaves (st : State N) (n : Ptr) : Nat :=
  (st.node n).slaves.countP fun s => !(st.node s).flags.fail

def clusterSetNodeAsMaster (st : State N) (n : Ptr) : State N :=
  if (st.node n).flags.master then st
  else
    let st := leaveMaster st n
    let st := st.modNode n fun x =>
      { x with flags := { x.flags with slave := false, master := true }, slaveof := none }
    todoState (todoSave st)

/-! ## Failure reports -/

def clusterNodeAddFailureReport (st : State N) (now : Int) (failing sender : Ptr) : State N :=
  st.modNode failing fun x =>
    { x with
      failReports :=
        if x.failReports.any fun fr => fr.node == sender then
          x.failReports.map fun fr => if fr.node = sender then { fr with time := now } else fr
        else x.failReports ++ [⟨sender, now⟩] }

def clusterNodeCleanupFailureReports (st : State N) (env : Env N) (n : Ptr) : State N :=
  st.modNode n fun x =>
    { x with failReports := x.failReports.filter fun fr =>
        !decide (env.now - fr.time > env.clusterNodeTimeout * 2) }

def clusterNodeDelFailureReport (st : State N) (env : Env N) (n sender : Ptr) : State N :=
  if (st.node n).failReports.any fun fr => fr.node == sender then
    let st := st.modNode n fun x =>
      { x with failReports := x.failReports.eraseP fun fr => fr.node == sender }
    clusterNodeCleanupFailureReports st env n
  else st

/-! ## The nodes table -/

variable [DecidableEq N]

def clusterLookupNode (st : State N) (name : N) : Option Ptr :=
  st.nodes.find? fun p => decide ((st.node p).name = name)

/-- `clusterAddNode`: nothing if the name is in the table. -/
def clusterAddNode (st : State N) (p : Ptr) : State N :=
  match clusterLookupNode st (st.node p).name with
  | some _ => st
  | none => { st with nodes := st.nodes ++ [p] }

/-- The record `createClusterNode` fills in. -/
def newNode (now : Int) (name : N) (flags : NodeFlags) : Node N :=
  { ctime := now, name, flags, configEpoch := 0, slots := [], numslots := 0, slaves := [],
    slaveof := none, pingSent := 0, pongReceived := 0, failTime := 0, votedTime := 0,
    replOffset := 0, ip := [], port := 0, link := none, failReports := [] }

/-- `createClusterNode`, with the address of the new node. -/
def createClusterNode (st : State N) (now : Int) (name : N) (flags : NodeFlags) : State N × Ptr :=
  ({ st with
     node := Function.update st.node st.next (newNode now name flags)
     next := st.next + 1 }, st.next)

/-- `dictDelete(server.cluster->nodes,name)`. -/
def dictDeleteNode (st : State N) (name : N) : State N :=
  match clusterLookupNode st name with
  | some p => { st with nodes := st.nodes.erase p }
  | none => st

/-- The slaves of a freed master have no master. -/
def detachSlaves (st : State N) (slaves : List Ptr) : State N :=
  slaves.foldl (fun st s => st.modNode s fun x => { x with slaveof := none }) st

def freeClusterNode (st : State N) (n : Ptr) : State N :=
  let st := if (st.node n).flags.master then detachSlaves st (st.node n).slaves else st
  let st := if (st.node n).flags.slave then leaveMaster st n else st
  let st := st.assert (clusterLookupNode st (st.node n).name).isSome .freeNode
  let st := dictDeleteNode st (st.node n).name
  st.modNode n fun x => { x with link := none }

/-- The first loop of `clusterDelNode`, for one slot. -/
def clusterDelNodeSlot (n : Ptr) (st : State N) (j : Nat) : State N :=
  let st := if st.importingSlotsFrom j = some n then
      { st with importingSlotsFrom := Function.update st.importingSlotsFrom j none }
    else st
  let st := if st.migratingSlotsTo j = some n then
      { st with migratingSlotsTo := Function.update st.migratingSlotsTo j none }
    else st
  if st.slots j = some n then clusterDelSlot st j else st

def clusterDelNode (env : Env N) (st : State N) (n : Ptr) : State N :=
  let st := (List.range clusterSlots).foldl (clusterDelNodeSlot n) st
  let st := (st.nodes.filter fun p => decide (p ≠ n)).foldl
    (fun st p => clusterNodeDelFailureReport st env p n) st
  freeClusterNode st n

def clusterRenameNode (st : State N) (p : Ptr) (newname : N) : State N :=
  let st := st.assert (clusterLookupNode st (st.node p).name).isSome .renameNode
  let st := dictDeleteNode st (st.node p).name
  let st := st.modNode p fun x => { x with name := newname }
  clusterAddNode st p

/-! ## Epochs -/

/-- `x++` on a `uint64_t`. -/
def incr64 (x : Nat) : Nat := (x + 1) % 2 ^ 64

def clusterGetMaxEpoch (st : State N) : Nat :=
  let m := st.nodes.foldl (fun m p => max m (st.node p).configEpoch) 0
  if m < st.currentEpoch then st.currentEpoch else m

/-- The new epoch both `clusterBumpConfigEpochWithoutConsensus` and
`clusterHandleConfigEpochCollision` give to this node. -/
def takeNewEpoch (st : State N) : State N :=
  let st := { st with currentEpoch := incr64 st.currentEpoch }
  st.modNode st.myself fun x => { x with configEpoch := st.currentEpoch }

def clusterBumpConfigEpochWithoutConsensus (st : State N) : State N :=
  if st.me.configEpoch = 0 ∨ st.me.configEpoch ≠ clusterGetMaxEpoch st then
    todoFsync (todoSave (takeNewEpoch st))
  else st

/-! ## The black list -/

def clusterBlacklistCleanup (st : State N) (env : Env N) : State N :=
  { st with nodesBlackList := st.nodesBlackList.filter fun e => !decide (e.2 < env.unixtime) }

def clusterBlacklistAddNode (st : State N) (env : Env N) (n : Ptr) : State N :=
  let st := clusterBlacklistCleanup st env
  { st with nodesBlackList := ((st.node n).name, env.unixtime + 60) ::
      st.nodesBlackList.filter fun e => decide (e.1 ≠ (st.node n).name) }

/-- `clusterBlacklistExists`, after its cleanup. -/
def clusterBlacklistExists (st : State N) (name : N) : Bool :=
  st.nodesBlackList.any fun e => decide (e.1 = name)

end Redis.Bus
