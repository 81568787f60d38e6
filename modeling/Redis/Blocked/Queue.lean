import Redis.Roster

/-!
# Redis.Blocked.Queue

The lists in which the server keeps clients, and the flags of the clients that go with them:
`blockClient`, `unblockClient`, `processUnblockedClients`, `freeClient`,
`freeClientsInAsyncFreeQueue` and `disconnectAllBlockedClients`.

Commands are left with what they do to these lists.  What happens inside one turn of the event
loop is a sequence of events, in any order.
-/

namespace Redis.Unblocked

/-! ## The state -/

/-- A database and the name of a key in it. -/
abbrev Key := Int × List UInt8

/-- `REDIS_BLOCKED_NONE`, `REDIS_BLOCKED_LIST` and `REDIS_BLOCKED_WAIT`. -/
inductive Btype where
  | none
  | list
  | wait
  deriving DecidableEq

/-- What `server.pubsub_channels`, `server.pubsub_patterns` and `watched_keys` of the databases
list clients for. -/
inductive Sub where
  | channel (name : List UInt8)
  | pattern (name : List UInt8)
  | watched (key : Key)
  deriving DecidableEq

/-- A client: its flags, `btype`, `bpop.keys`, and what it is subscribed to or watches;
`connected` says that `fd` is not -1. -/
structure Client where
  connected : Bool
  blocked : Bool
  unblocked : Bool
  closeAsap : Bool
  closeAfterReply : Bool
  slave : Bool
  monitor : Bool
  master : Bool
  btype : Btype
  keys : List Key
  subs : List Sub
  deriving DecidableEq

/-- The client that `createClient` returns. -/
def Client.fresh : Client :=
  { connected := true, blocked := false, unblocked := false, closeAsap := false
    closeAfterReply := false, slave := false, monitor := false, master := false
    btype := .none, keys := [], subs := [] }

/-- The server.  `client` is the memory of the clients, `none` where nothing is allocated. -/
structure State where
  client : Nat → Option Client
  clients : List Nat
  unblockedClients : List Nat
  clientsToClose : List Nat
  slaves : List Nat
  monitors : List Nat
  clientsWaitingAcks : List Nat
  blockingKeys : Key → List Nat
  subs : Sub → List Nat
  bpopBlockedClients : Nat
  master : Option Nat
  cachedMaster : Option Nat
  masterhost : Bool

/-- A server without clients. -/
def State.init : State :=
  { client := fun _ => none, clients := [], unblockedClients := [], clientsToClose := []
    slaves := [], monitors := [], clientsWaitingAcks := [], blockingKeys := fun _ => []
    subs := fun _ => [], bpopBlockedClients := 0, master := none, cachedMaster := none
    masterhost := false }

/-- The client `c` becomes `k`. -/
def State.set (c : Nat) (k : Option Client) (st : State) : State :=
  { st with client := Function.update st.client c k }

/-! ## Blocking -/

/-- `blockForKeys` with `blockClient`; a key that is there twice is ignored. -/
def blockForKeys (c : Nat) (k : Client) (keys : List Key) (st : State) : State :=
  { st with
    blockingKeys := fun key =>
      if key ∈ keys then st.blockingKeys key ++ [c] else st.blockingKeys key
    bpopBlockedClients := st.bpopBlockedClients + 1 }.set c
    (some { k with blocked := true, btype := .list, keys })

/-- The end of `waitCommand`, with `blockClient`. -/
def blockForAcks (c : Nat) (k : Client) (st : State) : State :=
  { st with
    clientsWaitingAcks := st.clientsWaitingAcks ++ [c]
    bpopBlockedClients := st.bpopBlockedClients + 1 }.set c
    (some { k with blocked := true, btype := .wait })

/-- The end of `unblockClient`. -/
def queueUnblocked (c : Nat) (k : Client) (st : State) : State :=
  { st with
    bpopBlockedClients := st.bpopBlockedClients - 1
    unblockedClients := st.unblockedClients ++ [c] }.set c
    (some { k with blocked := false, unblocked := true, btype := .none })

/-- `unblockClient`; it panics when the client is not blocked. -/
def unblockClient (c : Nat) (st : State) : State :=
  match st.client c with
  | none => st
  | some k =>
    match k.btype with
    | .list =>
      -- `unblockClientWaitingData`
      queueUnblocked c { k with keys := [] }
        { st with
          blockingKeys := fun key =>
            if key ∈ k.keys then (st.blockingKeys key).erase c else st.blockingKeys key }
    | .wait =>
      -- `unblockClientWaitingReplicas`
      queueUnblocked c k { st with clientsWaitingAcks := st.clientsWaitingAcks.erase c }
    | .none => st

/-- `unblockClient` of a client with the flag `REDIS_BLOCKED`. -/
def unblockIfBlocked (c : Nat) (st : State) : State :=
  match st.client c with
  | some k => if k.blocked then unblockClient c st else st
  | none => st

/-- A round of `processUnblockedClients`; the input of the client follows. -/
def processUnblockedClients (st : State) : State :=
  match st.unblockedClients with
  | [] => st
  | c :: rest =>
    match st.client c with
    | some k => { st with unblockedClients := rest }.set c (some { k with unblocked := false })
    | none => { st with unblockedClients := rest }

/-- The body of the loop of `disconnectAllBlockedClients`. -/
def disconnectBlocked (st : State) (c : Nat) : State :=
  match st.client c with
  | some k =>
    if k.blocked then
      let st := unblockClient c st
      match st.client c with
      | some k => st.set c (some { k with closeAfterReply := true })
      | none => st
    else st
  | none => st

def disconnectAllBlockedClients (st : State) : State := st.clients.foldl disconnectBlocked st

/-- The body of the loop of `clientsArePaused`, when the time of the pause is over. -/
def resume (st : State) (c : Nat) : State :=
  match st.client c with
  | some k =>
    if k.slave || k.blocked then st
    else { st with unblockedClients := st.unblockedClients ++ [c] }.set c
      (some { k with unblocked := true })
  | none => st

/-- `clientsArePaused`, when the time of the pause is over. -/
def pauseEnds (st : State) : State := st.clients.foldl resume st

/-! ## Freeing clients -/

def freeClientAsync (c : Nat) (st : State) : State :=
  match st.client c with
  | some k =>
    if k.closeAsap then st
    else { st with clientsToClose := st.clientsToClose ++ [c] }.set c
      (some { k with closeAsap := true })
  | none => st

/-- The list functions of `freeClient` for a client that is not blocked, and `zfree`. -/
def release (c : Nat) (k : Client) (st : State) : State :=
  { st with
    subs := fun s => if s ∈ k.subs then (st.subs s).erase c else st.subs s
    clients := if k.connected then st.clients.erase c else st.clients
    unblockedClients :=
      if k.unblocked then st.unblockedClients.erase c else st.unblockedClients
    monitors := if k.slave && k.monitor then st.monitors.erase c else st.monitors
    slaves := if k.slave && !k.monitor then st.slaves.erase c else st.slaves
    clientsToClose := if k.closeAsap then st.clientsToClose.erase c else st.clientsToClose
    master := if k.master then none else st.master }.set c none

def replicationCacheMaster (c : Nat) (k : Client) (st : State) : State :=
  { st with
    clients := st.clients.erase c
    cachedMaster := some c
    master := none }.set c (some { k with connected := false })

/-- The master is cached, not freed. -/
def isCached (k : Client) (st : State) : Bool :=
  st.master.isSome && k.master &&
    !(k.closeAfterReply || k.closeAsap || k.blocked || k.unblocked)

/-- `freeClient` but for the slaves that `replicationHandleMasterDisconnection`
disconnects. -/
def freeAlone (c : Nat) (st : State) : State :=
  match st.client c with
  | none => st
  | some k =>
    if isCached k st then replicationCacheMaster c k st
    else
      let st := unblockIfBlocked c st
      match st.client c with
      | some k => release c k st
      | none => st

/-- The loop of `disconnectSlaves`.  Slaves that are disconnected because one of them is the
master are those that the loop goes on with. -/
@[grind =]
def disconnectSlavesLoop : Nat → State → State
  | 0, st => st
  | n + 1, st =>
    match st.slaves with
    | [] => st
    | s :: _ => disconnectSlavesLoop n (freeAlone s st)

def disconnectSlaves (st : State) : State := disconnectSlavesLoop st.slaves.length st

/-- `freeClient`.  A client with the flag `REDIS_MASTER` ends with
`replicationHandleMasterDisconnection`. -/
def freeClient (c : Nat) (st : State) : State :=
  match st.client c with
  | none => st
  | some k =>
    let st := freeAlone c st
    if k.master && st.masterhost then disconnectSlaves st else st

/-- A round of `freeClientsInAsyncFreeQueue`. -/
def freeClientsInAsyncFreeQueue (st : State) : State :=
  match st.clientsToClose with
  | [] => st
  | c :: rest =>
    match st.client c with
    | some k =>
      freeClient c
        ({ st with clientsToClose := rest }.set c (some { k with closeAsap := false }))
    | none => { st with clientsToClose := rest }

def replicationDiscardCachedMaster (st : State) : State :=
  match st.cachedMaster with
  | none => st
  | some c =>
    match st.client c with
    | some k =>
      { freeClient c (st.set c (some { k with master := false })) with cachedMaster := none }
    | none => { st with cachedMaster := none }

def replicationResurrectCachedMaster (st : State) : State :=
  match st.cachedMaster with
  | none => st
  | some c =>
    match st.client c with
    | some k =>
      { st with clients := st.clients ++ [c], master := some c, cachedMaster := none }.set c
        (some { k with connected := true, closeAfterReply := false, closeAsap := false })
    | none => { st with clients := st.clients ++ [c], master := some c, cachedMaster := none }

/-! ## Events -/

/-- Commands, with what they do to the lists: a pop that finds nothing, `WAIT` without enough
acknowledgements, `SUBSCRIBE`, `PSUBSCRIBE` and `WATCH`, the opposite, `MONITOR`, `SYNC` or
`PSYNC`, and commands after which the connection is closed. -/
inductive Command where
  | block (keys : List Key)
  | wait
  | subscribe (s : Sub)
  | unsubscribe (s : Sub)
  | monitor
  | sync
  | quit

/-- A command of the client `c`. -/
def call (c : Nat) (k : Client) (cmd : Command) (st : State) : State :=
  match cmd with
  | .block keys => blockForKeys c k keys st
  | .wait => blockForAcks c k st
  | .subscribe s =>
    if s ∈ k.subs then st
    else { st with subs := Function.update st.subs s (st.subs s ++ [c]) }.set c
      (some { k with subs := s :: k.subs })
  | .unsubscribe s =>
    if s ∈ k.subs then
      { st with subs := Function.update st.subs s ((st.subs s).erase c) }.set c
        (some { k with subs := k.subs.filter (· ≠ s) })
    else st
  | .monitor =>
    if k.slave then st
    else { st with monitors := st.monitors ++ [c] }.set c
      (some { k with slave := true, monitor := true })
  | .sync =>
    if k.slave then st
    else { st with slaves := st.slaves ++ [c] }.set c (some { k with slave := true })
  | .quit => st.set c (some { k with closeAfterReply := true })

/-- What happens to the server. -/
inductive Event where
  /-- A connection, in memory that is not in use; of the master or not. -/
  | create (c : Nat) (master : Bool)
  /-- A command is read from the client. -/
  | input (c : Nat) (cmd : Command)
  /-- The first client that waits for a key is served. -/
  | served (key : Key)
  /-- Enough slaves have acknowledged what the client waits for. -/
  | acked (c : Nat)
  /-- The timeout of the client, or its redirection in a cluster. -/
  | timedOut (c : Nat)
  | disconnectAllBlockedClients
  | processUnblockedClients
  | pauseEnds
  | freeClient (c : Nat)
  | freeClientAsync (c : Nat)
  | freeClientsInAsyncFreeQueue
  | disconnectSlaves
  | setMasterhost (masterhost : Bool)
  | replicationDiscardCachedMaster
  | replicationResurrectCachedMaster

/-- A step.  `processInputBuffer` does not read commands of a client that is blocked or that is
to be closed. -/
def step (st : State) : Event → State
  | .create c master =>
    match st.client c with
    | some _ => st
    | none =>
      { st with
        clients := st.clients ++ [c]
        master := if master then some c else st.master }.set c
        (some { Client.fresh with master })
  | .input c cmd =>
    match st.client c with
    | some k =>
      if k.connected && !k.blocked && !k.closeAfterReply then call c k cmd st else st
    | none => st
  | .served key =>
    match st.blockingKeys key with
    | [] => st
    | c :: _ => unblockClient c st
  | .acked c => if c ∈ st.clientsWaitingAcks then unblockClient c st else st
  | .timedOut c => if c ∈ st.clients then unblockIfBlocked c st else st
  | .disconnectAllBlockedClients => disconnectAllBlockedClients st
  | .processUnblockedClients => processUnblockedClients st
  | .pauseEnds => pauseEnds st
  | .freeClient c => if c ∈ st.clients then freeClient c st else st
  | .freeClientAsync c => if c ∈ st.clients then freeClientAsync c st else st
  | .freeClientsInAsyncFreeQueue => freeClientsInAsyncFreeQueue st
  -- of `replicationSetMaster`, after the master was freed
  | .disconnectSlaves => if st.master = none then disconnectSlaves st else st
  | .setMasterhost masterhost => { st with masterhost }
  | .replicationDiscardCachedMaster => replicationDiscardCachedMaster st
  | .replicationResurrectCachedMaster => replicationResurrectCachedMaster st

end Redis.Unblocked
