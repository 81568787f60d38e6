import Mathlib.Logic.Function.Basic
import Redis.Replication.Feed

/-!
# Redis.Replication.Wait

`WAIT`: the write offset that `processCommand` samples for each client, the replicas that
have acknowledged it, and the clients that are blocked until enough of them have.  A
blocking pop is propagated when another client's push serves it.

Commands that neither block nor wait are any change of the keyspace with what it
propagates.  Arguments of `WAIT` and of the blocking pops that do not parse make a command
of that kind.  Of a client, `last` is the offset of the last byte that was propagated on
its behalf, and `behind` says that this was after `woff` was sampled.
-/

namespace Redis.Wait

open Replication List

/-! ## Replicas -/

/-- A client that is a replica. -/
structure Slave where
  id : Nat
  replstate : ReplState
  replAckOff : Int

/-- The replicas, and the offset of the stream. -/
structure Repl where
  masterReplOffset : Nat
  replBacklog : Bool
  slaveseldb : Int
  slaves : List Slave

/-- `replicationFeedSlaves`, as far as the offset is concerned. -/
def Repl.feed (dictid : Int) (argv : List Robj) (r : Repl) : Repl :=
  if !r.replBacklog && r.slaves.isEmpty then r
  else
    let select := if r.slaveseldb ≠ dictid then selectCmd dictid else []
    { r with
      masterReplOffset := r.masterReplOffset + (select ++ command argv).length
      slaveseldb := dictid }

def replicationCountAcksByOffset (offset : Nat) (r : Repl) : Nat :=
  (r.slaves.filter fun s =>
    decide (s.replstate = .online) && decide ((offset : Int) ≤ s.replAckOff)).length

/-- The part of `replconfCommand` for `ACK`. -/
def Repl.ack (id : Nat) (offset : Int) (r : Repl) : Repl :=
  { r with slaves := r.slaves.map fun s =>
      if s.id = id ∧ offset > s.replAckOff then { s with replAckOff := offset } else s }

/-! ## Clients -/

/-- A database and the name of a key in it. -/
abbrev Key := Int × Bytes

local instance instLawfulBEqKey : LawfulBEq Key := inferInstance

/-- A list, or a value of another type. -/
inductive Value where
  | list (values : List Bytes)
  | other

/-- What a command does that neither blocks nor waits. -/
structure Effect where
  keyspace : Key → Option Value
  db : Int
  propagated : List (Int × List Robj)
  /-- The keys for which `signalListAsReady` is called. -/
  signaled : List Key

/-- The commands that are queued in a transaction. -/
inductive Command where
  | run (readonly : Bool) (effect : Int → (Key → Option Value) → Effect)
  /-- `BLPOP` and `BRPOP`. -/
  | bpop (head : Bool) (keys : List Bytes)
  | brpoplpush (argv : List Robj) (key dstkey : Bytes)
  | wait (numreplicas : Int)

/-- `REDIS_CMD_READONLY`. -/
def Command.readonly : Command → Bool
  | .run readonly _ => readonly
  | .bpop .. | .brpoplpush .. => false
  | .wait _ => true

/-- What a client is blocked for: `REDIS_BLOCKED_LIST` with the keys, the target, and
whether `lastcmd` is `BLPOP`; or `REDIS_BLOCKED_WAIT`. -/
inductive Bpop where
  | list (keys : List Key) (target : Option Key) (head : Bool)
  | wait (reploffset : Nat) (numreplicas : Int)

/-- A client that is not a replica. -/
structure Conn where
  db : Int
  woff : Nat
  multi : Option (List Command)
  blocked : Option Bpop
  last : Nat
  behind : Bool

def Conn.fresh : Conn := ⟨0, 0, none, none, 0, false⟩

/-- A reply to `WAIT`; `acked` is the number of online replicas that had acknowledged all
that was propagated on behalf of the client. -/
structure WaitReply where
  client : Nat
  n : Nat
  numreplicas : Int
  multi : Bool
  timedOut : Bool
  acked : Nat

structure State where
  repl : Repl
  keyspace : Key → Option Value
  /-- `blocking_keys` of the databases. -/
  blocking : Key → List Nat
  /-- `server.ready_keys`. -/
  ready : List Key
  /-- `ready_keys` of the databases. -/
  readyKeys : List Key
  clientsWaitingAcks : List Nat
  clients : Nat → Conn
  log : List WaitReply

/-- The client `c` is changed by `f`. -/
def State.modify (c : Nat) (f : Conn → Conn) (st : State) : State :=
  { st with clients := Function.update st.clients c (f (st.clients c)) }

/-- The value of a key is changed. -/
def State.setKey (key : Key) (value : Option Value) (st : State) : State :=
  { st with keyspace := Function.update st.keyspace key value }

/-- `propagate`, on behalf of the client `c`. -/
def propagate (c : Nat) (dictid : Int) (argv : List Robj) (st : State) : State :=
  let repl := st.repl.feed dictid argv
  if repl.masterReplOffset = st.repl.masterReplOffset then { st with repl }
  else { st with repl }.modify c fun k =>
    { k with last := repl.masterReplOffset, behind := true }

/-! ## Blocking for lists -/

def signalListAsReady (key : Key) (st : State) : State :=
  if st.blocking key = [] then st
  else if key ∈ st.readyKeys then st
  else { st with ready := st.ready ++ [key], readyKeys := key :: st.readyKeys }

def blockForKeys (c : Nat) (keys : List Key) (target : Option Key) (head : Bool) (st : State) :
    State :=
  let keys := keys.eraseDups
  { st with blocking := fun k => if k ∈ keys then st.blocking k ++ [c] else st.blocking k }.modify c
    fun k => { k with blocked := some (.list keys target head) }

def unblockClient (c : Nat) (st : State) : State :=
  let st := match (st.clients c).blocked with
    | none => st
    | some (.list keys _ _) =>
      { st with blocking := fun k => if k ∈ keys then (st.blocking k).erase c else st.blocking k }
    | some (.wait _ _) => { st with clientsWaitingAcks := st.clientsWaitingAcks.erase c }
  st.modify c fun k => { k with blocked := none }

def listTypePop (head : Bool) (l : List Bytes) : Option (Bytes × List Bytes) :=
  if head then
    match l with
    | [] => none
    | x :: xs => some (x, xs)
  else l.getLast?.map fun x => (x, l.dropLast)

/-- `LPOP` or `RPOP` of a key. -/
def popArgv (head : Bool) (key : Bytes) : List Robj :=
  [.raw (if head then [76, 80, 79, 80] else [82, 80, 79, 80]), .raw key]

/-- `LPUSH` of a value. -/
def lpushArgv (key value : Bytes) : List Robj :=
  [.raw [76, 80, 85, 83, 72], .raw key, .raw value]

/-- `rpoplpushHandlePush`; a list that is created is signaled by `dbAdd`. -/
def rpoplpushHandlePush (dstkey : Key) (value : Bytes) (st : State) : State :=
  match st.keyspace dstkey with
  | some (.list l) => st.setKey dstkey (some (.list (value :: l)))
  | _ => signalListAsReady dstkey (st.setKey dstkey (some (.list [value])))

/-- A list that has become empty is deleted. -/
def deleteIfEmpty (key : Key) (st : State) : State :=
  match st.keyspace key with
  | some (.list []) => st.setKey key none
  | _ => st

/-- The loop of `blockingPopGenericCommand`; `none` means that there is nothing to pop. -/
def blockingPopLoop (c : Nat) (head : Bool) : List Bytes → State → Option State
  | [], _ => none
  | name :: names, st =>
    let key := ((st.clients c).db, name)
    match st.keyspace key with
    | none => blockingPopLoop c head names st
    | some .other => some st
    | some (.list l) =>
      match listTypePop head l with
      | none => blockingPopLoop c head names st
      | some (_, rest) =>
        some (propagate c key.1 (popArgv head name)
          (deleteIfEmpty key (st.setKey key (some (.list rest)))))

def blockingPopGenericCommand (c : Nat) (head : Bool) (keys : List Bytes) (st : State) :
    State :=
  match blockingPopLoop c head keys st with
  | some st => st
  | none =>
    if (st.clients c).multi.isSome then st
    else blockForKeys c (keys.map fun name => ((st.clients c).db, name)) none head st

/-- `rpoplpushCommand`, for a source that is a list. -/
def rpoplpushCommand (c : Nat) (argv : List Robj) (key dstkey : Key) (l : List Bytes)
    (st : State) : State :=
  match listTypePop false l, st.keyspace dstkey with
  | none, _ => st
  | some _, some .other => st
  | some (value, rest), _ =>
    propagate c key.1 argv (deleteIfEmpty key
      (rpoplpushHandlePush dstkey value (st.setKey key (some (.list rest)))))

def brpoplpushCommand (c : Nat) (argv : List Robj) (key dstkey : Bytes) (st : State) : State :=
  let db := (st.clients c).db
  match st.keyspace (db, key) with
  | none =>
    if (st.clients c).multi.isSome then st
    else blockForKeys c [(db, key)] (some (db, dstkey)) false st
  | some .other => st
  | some (.list l) => rpoplpushCommand c argv (db, key) (db, dstkey) l st

/-! ## Serving blocked clients -/

/-- `serveClientBlockedOnList`; `none` is `REDIS_ERR`. -/
def serveClientBlockedOnList (receiver : Nat) (key : Key) (dstkey : Option Key)
    (value : Bytes) (head : Bool) (st : State) : Option State :=
  match dstkey with
  | none => some (propagate receiver key.1 (popArgv head key.2) st)
  | some dst =>
    match st.keyspace dst with
    | some .other => none
    | _ =>
      some (propagate receiver key.1 (lpushArgv dst.2 value)
        (rpoplpushHandlePush dst value (propagate receiver key.1 (popArgv false key.2) st)))

/-- The `while(numclients--)` loop of `handleClientsBlockedOnLists`. -/
def serveLoop (key : Key) : Nat → State → State
  | 0, st => st
  | numclients + 1, st =>
    match st.blocking key, st.keyspace key with
    | receiver :: _, some (.list l) =>
      match (st.clients receiver).blocked with
      | some (.list _ target head) =>
        match listTypePop head l with
        | none => st
        | some (value, rest) =>
          let st := unblockClient receiver (st.setKey key (some (.list rest)))
          match serveClientBlockedOnList receiver key target value head st with
          | some st => serveLoop key numclients st
          | none => serveLoop key numclients (st.setKey key (some (.list l)))
      | _ => st
    | _, _ => st

/-- The body of the loop over the keys that are ready. -/
def handleKey (st : State) (key : Key) : State :=
  let st := { st with readyKeys := st.readyKeys.erase key }
  match st.keyspace key with
  | some (.list _) => deleteIfEmpty key (serveLoop key (st.blocking key).length st)
  | _ => st

/-- One round of `handleClientsBlockedOnLists`. -/
def handlePass (st : State) : State := st.ready.foldl handleKey { st with ready := [] }

/-- `handleClientsBlockedOnLists`: rounds, until no key is ready. -/
inductive Handled : State → State → Prop
  | done {st : State} : st.ready = [] → Handled st st
  | pass {st st' : State} : st.ready ≠ [] → Handled (handlePass st) st' → Handled st st'

/-! ## WAIT -/

/-- A reply of `n` to a `WAIT` of the client `c`. -/
def replyWait (c n : Nat) (numreplicas : Int) (timedOut : Bool) (st : State) : State :=
  let k := st.clients c
  { st with log :=
      ⟨c, n, numreplicas, k.multi.isSome, timedOut, replicationCountAcksByOffset k.last st.repl⟩ ::
        st.log }

def waitCommand (c : Nat) (numreplicas : Int) (st : State) : State :=
  let k := st.clients c
  let ackreplicas := replicationCountAcksByOffset k.woff st.repl
  if ackreplicas ≥ numreplicas ∨ k.multi.isSome then replyWait c ackreplicas numreplicas false st
  else
    { st with clientsWaitingAcks := st.clientsWaitingAcks ++ [c] }.modify c
      fun k => { k with blocked := some (.wait k.woff numreplicas) }

/-- The loop of `processClientsWaitingReplicas`. -/
def waitingLoop : List Nat → (lastOffset lastNumreplicas : Nat) → State → State
  | [], _, _, st => st
  | c :: cs, lastOffset, lastNumreplicas, st =>
    match (st.clients c).blocked with
    | some (.wait reploffset numreplicas) =>
      if lastOffset ≠ 0 ∧ lastOffset > reploffset ∧ (lastNumreplicas : Int) > numreplicas then
        waitingLoop cs lastOffset lastNumreplicas
          (replyWait c lastNumreplicas numreplicas false (unblockClient c st))
      else
        let n := replicationCountAcksByOffset reploffset st.repl
        if (n : Int) ≥ numreplicas then
          waitingLoop cs reploffset n (replyWait c n numreplicas false (unblockClient c st))
        else waitingLoop cs lastOffset lastNumreplicas st
    | _ => waitingLoop cs lastOffset lastNumreplicas st

def processClientsWaitingReplicas (st : State) : State :=
  waitingLoop st.clientsWaitingAcks 0 0 st

/-- A blocked client has timed out: `replyToBlockedClientTimedOut` and `unblockClient`. -/
def clientTimedOut (c : Nat) (st : State) : State :=
  match (st.clients c).blocked with
  | none => st
  | some (.list ..) => unblockClient c st
  | some (.wait reploffset numreplicas) =>
    unblockClient c
      (replyWait c (replicationCountAcksByOffset reploffset st.repl) numreplicas true st)

/-! ## Commands -/

/-- A command that neither blocks nor waits. -/
def runCommand (c : Nat) (effect : Int → (Key → Option Value) → Effect) (st : State) : State :=
  let e := effect (st.clients c).db st.keyspace
  let st := e.signaled.foldl (fun st key => signalListAsReady key st)
    { st with keyspace := e.keyspace }
  let st := st.modify c fun k => { k with db := e.db }
  e.propagated.foldl (fun st p => propagate c p.1 p.2 st) st

def call (c : Nat) (cmd : Command) (st : State) : State :=
  match cmd with
  | .run _ effect => runCommand c effect st
  | .bpop head keys => blockingPopGenericCommand c head keys st
  | .brpoplpush argv key dstkey => brpoplpushCommand c argv key dstkey st
  | .wait numreplicas => waitCommand c numreplicas st

/-- The loop of `execCommand`, with `must_propagate`. -/
def execLoop (c : Nat) : List Command → Bool → State → State × Bool
  | [], mustPropagate, st => (st, mustPropagate)
  | cmd :: cmds, mustPropagate, st =>
    if !mustPropagate && !cmd.readonly then
      -- `execCommandPropagateMulti`
      execLoop c cmds true
        (call c cmd (propagate c (st.clients c).db [.raw [77, 85, 76, 84, 73]] st))
    else execLoop c cmds mustPropagate (call c cmd st)

def discardTransaction (c : Nat) (st : State) : State := st.modify c ({ · with multi := none })

/-- `execCommand`, with whether the client has `REDIS_DIRTY_CAS` or `REDIS_DIRTY_EXEC`; when
`MULTI` was propagated `call` propagates `EXEC`. -/
def execCommand (c : Nat) (dirty : Bool) (st : State) : State :=
  match (st.clients c).multi with
  | none => st
  | some cmds =>
    if dirty then discardTransaction c st
    else
      let (st, mustPropagate) := execLoop c cmds false st
      let st := discardTransaction c st
      if mustPropagate then propagate c (st.clients c).db [.raw [69, 88, 69, 67]] st else st

/-- What a client asks for. -/
inductive Request where
  | command (cmd : Command)
  | multi
  | exec (dirty : Bool)
  | discard

/-- `call` of a request. -/
def callRequest (c : Nat) (req : Request) (st : State) : State :=
  match req with
  | .command cmd => call c cmd st
  | .multi => if (st.clients c).multi.isSome then st else st.modify c ({ · with multi := some [] })
  | .exec dirty => execCommand c dirty st
  | .discard => if (st.clients c).multi.isSome then discardTransaction c st else st

/-- `c->woff = server.master_repl_offset`. -/
def sampleWoff (c : Nat) (st : State) : State :=
  st.modify c fun k => { k with woff := st.repl.masterReplOffset, behind := false }

/-- The end of `processCommand`, up to `handleClientsBlockedOnLists`. -/
def processCommand (c : Nat) (req : Request) (st : State) : State :=
  match (st.clients c).multi, req with
  | some cmds, .command cmd => st.modify c ({ · with multi := some (cmds ++ [cmd]) })
  | _, _ => sampleWoff c (callRequest c req st)

/-! ## Runs -/

/-- What happens to a server. -/
inductive Event where
  | request (c : Nat) (req : Request)
  /-- `REPLCONF ACK`. -/
  | ack (id : Nat) (offset : Int)
  /-- Replicas come and go and change their state, a backlog is created or freed. -/
  | replicas (slaves : List Slave) (replBacklog : Bool) (slaveseldb : Int) (grown : Nat)
  /-- Something is propagated that no client has asked for: `PING`, `REPLCONF GETACK`, the
  deletion of keys that have expired. -/
  | feed (dictid : Int) (argv : List Robj)
  | beforeSleep
  | timeout (c : Nat)
  | disconnect (c : Nat)

/-- The next state.  The requests of a client that is blocked are not looked at. -/
inductive Step : State → Event → State → Prop
  | request {st st' : State} (c : Nat) (req : Request) : (st.clients c).blocked = none →
      Handled (processCommand c req st) st' → Step st (.request c req) st'
  | ack {st : State} (id : Nat) (offset : Int) :
      Step st (.ack id offset) { st with repl := st.repl.ack id offset }
  | replicas {st : State} (slaves : List Slave) (replBacklog : Bool) (slaveseldb : Int)
      (grown : Nat) : Step st (.replicas slaves replBacklog slaveseldb grown)
        { st with repl := ⟨st.repl.masterReplOffset + grown, replBacklog, slaveseldb, slaves⟩ }
  | feed {st : State} (dictid : Int) (argv : List Robj) :
      Step st (.feed dictid argv) { st with repl := st.repl.feed dictid argv }
  | beforeSleep {st : State} : Step st .beforeSleep (processClientsWaitingReplicas st)
  | timeout {st : State} (c : Nat) : Step st (.timeout c) (clientTimedOut c st)
  | disconnect {st : State} (c : Nat) :
      Step st (.disconnect c) ((unblockClient c st).modify c fun _ => .fresh)

/-- A server with no clients. -/
def State.init (keyspace : Key → Option Value) : State where
  repl := ⟨0, false, -1, []⟩
  keyspace
  blocking := fun _ => []
  ready := []
  readyKeys := []
  clientsWaitingAcks := []
  clients := fun _ => .fresh
  log := []

/-- The states that are reached by events that meet `ok`. -/
inductive Reachable (ok : State → Event → Prop) : State → Prop
  | init (keyspace : Key → Option Value) : Reachable ok (.init keyspace)
  | step {st st' : State} {ev : Event} : Reachable ok st → ok st ev → Step st ev st' →
      Reachable ok st'

/-- What a reply promises. -/
def WaitReply.Sound (r : WaitReply) : Prop :=
  r.timedOut = false → r.n ≤ r.acked ∧ (r.numreplicas ≤ r.n ∨ r.multi = true)

/-- The condition on an event: a `WAIT` is called for a client only when nothing was
propagated on its behalf since its `woff` was sampled. -/
def Sampled (st : State) : Event → Prop
  | .request c (.command (.wait _)) =>
    (st.clients c).multi = none → (st.clients c).behind = false
  | .request c (.exec false) =>
    ∀ pre numreplicas post, (st.clients c).multi = some (pre ++ .wait numreplicas :: post) →
      ((execLoop c pre false st).1.clients c).behind = false
  | _ => True

/-! ## The invariant -/

/-- The invariant of a client: `last` is at most `woff`, unless the client is behind, and at
most the offset that the client waits for. -/
structure Conn.Ok (offset : Nat) (k : Conn) : Prop where
  last_le : k.last ≤ offset
  sampled : k.behind = false → k.last ≤ k.woff
  wait : ∀ reploffset numreplicas, k.blocked = some (.wait reploffset numreplicas) →
    k.last ≤ reploffset

/-- The invariant of a server. -/
structure Inv (st : State) : Prop where
  clients : ∀ c, (st.clients c).Ok st.repl.masterReplOffset
  log : ∀ r ∈ st.log, r.Sound

variable {st st' st'' : State} {c : Nat}

variable {cmd : Command} {head : Bool} {m n : Nat} {req : Request} (key : Key)

theorem Conn.Ok.mono {k : Conn} (h : k.Ok m) (hle : m ≤ n) : k.Ok n :=
  ⟨h.last_le.trans hle, h.sampled, h.wait⟩

theorem Inv.congr (h : Inv st) (hclients : st'.clients = st.clients)
    (hoff : st.repl.masterReplOffset ≤ st'.repl.masterReplOffset) (hlog : st'.log = st.log) :
    Inv st' :=
  ⟨fun c => hclients ▸ (h.clients c).mono hoff, hlog ▸ h.log⟩

theorem Inv.modify (h : Inv st) {f : Conn → Conn}
    (hf : (f (st.clients c)).Ok st.repl.masterReplOffset) : Inv (st.modify c f) := by
  refine ⟨fun c' => ?_, h.log⟩
  by_cases hc : c' = c
  · subst hc
    simpa [State.modify] using hf
  · simpa [State.modify, hc] using h.clients c'

theorem Repl.le_feed (r : Repl) (dictid : Int) (argv : List Robj) :
    r.masterReplOffset ≤ (r.feed dictid argv).masterReplOffset := by
  rw [Repl.feed]
  split <;> simp

theorem count_le_count (h : m ≤ n) (r : Repl) :
    replicationCountAcksByOffset n r ≤ replicationCountAcksByOffset m r := by
  rw [replicationCountAcksByOffset, replicationCountAcksByOffset, ← countP_eq_length_filter,
    ← countP_eq_length_filter]
  apply countP_mono_left
  intro s _
  simp only [Bool.and_eq_true, decide_eq_true_eq]
  exact fun hs => ⟨hs.1, by omega⟩

/-! ## Steps that keep the client free -/

/-- The client does not wait for replicas. -/
def Free (c : Nat) (st : State) : Prop :=
  ∀ reploffset numreplicas, (st.clients c).blocked ≠ some (.wait reploffset numreplicas)

/-- A step on behalf of the client `c` that does not block it. -/
structure Keeps (c : Nat) (st st' : State) : Prop where
  inv : Inv st → Free c st → Inv st'
  multi : (st'.clients c).multi = (st.clients c).multi
  blocked : (st'.clients c).blocked = (st.clients c).blocked

theorem Keeps.refl (c : Nat) (st : State) : Keeps c st st := ⟨fun h _ => h, rfl, rfl⟩

theorem Keeps.free (h : Keeps c st st') (hf : Free c st) : Free c st' := by
  rwa [Free, h.blocked]

theorem Keeps.trans (h : Keeps c st st') (h' : Keeps c st' st'') : Keeps c st st'' where
  inv hi hf := h'.inv (h.inv hi hf) (h.free hf)
  multi := h'.multi.trans h.multi
  blocked := h'.blocked.trans h.blocked

theorem keeps_of_eq (hclients : st'.clients = st.clients) (hrepl : st'.repl = st.repl)
    (hlog : st'.log = st.log) : Keeps c st st' :=
  ⟨fun h _ => h.congr hclients (by rw [hrepl]) hlog, by rw [hclients], by rw [hclients]⟩

theorem keeps_foldl {α : Type} (f : State → α → State) (hf : ∀ st a, Keeps c st (f st a))
    (l : List α) (st : State) : Keeps c st (l.foldl f st) := by
  induction l generalizing st with
  | nil => exact .refl c st
  | cons a l ih => exact (hf st a).trans (ih _)

theorem keeps_propagate (c : Nat) (dictid : Int) (argv : List Robj) (st : State) :
    Keeps c st (propagate c dictid argv st) := by
  have hle := st.repl.le_feed dictid argv
  rw [propagate]
  split
  next heq => exact ⟨fun h _ => h.congr rfl hle rfl, rfl, rfl⟩
  next hne =>
    refine ⟨fun h hf => ?_, by simp [State.modify], by simp [State.modify]⟩
    have hfed : Inv { st with repl := st.repl.feed dictid argv } := h.congr rfl hle rfl
    exact hfed.modify ⟨le_rfl, nofun, fun reploffset numreplicas hb => absurd hb (hf _ _)⟩

theorem keeps_setKey (value : Option Value) : Keeps c st (st.setKey key value) :=
  keeps_of_eq rfl rfl rfl

theorem keeps_signalListAsReady (st : State) : Keeps c st (signalListAsReady key st) := by
  rw [signalListAsReady]
  split
  · exact .refl c st
  split
  · exact .refl c st
  · exact keeps_of_eq rfl rfl rfl

theorem keeps_deleteIfEmpty (st : State) : Keeps c st (deleteIfEmpty key st) := by
  rw [deleteIfEmpty]
  split
  · exact keeps_setKey key none
  · exact .refl c st

theorem keeps_rpoplpushHandlePush (dstkey : Key) (value : Bytes) (st : State) :
    Keeps c st (rpoplpushHandlePush dstkey value st) := by
  rw [rpoplpushHandlePush]
  split
  · exact keeps_setKey _ _
  · exact (keeps_setKey _ _).trans (keeps_signalListAsReady _ _)

theorem keeps_rpoplpushCommand (argv : List Robj) (key dstkey : Key) (l : List Bytes) :
    Keeps c st (rpoplpushCommand c argv key dstkey l st) := by
  rw [rpoplpushCommand]
  split
  · exact .refl c st
  · exact .refl c st
  · exact (((keeps_setKey _ _).trans (keeps_rpoplpushHandlePush _ _ _)).trans
      (keeps_deleteIfEmpty _ _)).trans (keeps_propagate _ _ _ _)

theorem keeps_blockingPopLoop {names : List Bytes}
    (h : blockingPopLoop c head names st = some st') : Keeps c st st' := by
  induction names with
  | nil => cases h
  | cons name names ih =>
    rw [blockingPopLoop] at h
    simp only at h
    split at h
    · exact ih h
    · cases h
      exact .refl c st
    · split at h
      · exact ih h
      · cases h
        exact ((keeps_setKey _ _).trans (keeps_deleteIfEmpty _ _)).trans (keeps_propagate _ _ _ _)

theorem keeps_runCommand (effect : Int → (Key → Option Value) → Effect) :
    Keeps c st (runCommand c effect st) := by
  unfold runCommand
  extract_lets e st₁ st₂
  have h₀ : Keeps c st { st with keyspace := e.keyspace } := keeps_of_eq rfl rfl rfl
  have h₁ : Keeps c st st₁ :=
    h₀.trans (keeps_foldl _ (fun st key => keeps_signalListAsReady key st) _ _)
  have h₂ : Keeps c st₁ st₂ := by
    refine ⟨fun h _ => h.modify ?_, by simp [st₂, State.modify], by simp [st₂, State.modify]⟩
    exact ⟨(h.clients c).last_le, (h.clients c).sampled, (h.clients c).wait⟩
  exact (h₁.trans h₂).trans (keeps_foldl _
    (fun st (p : Int × List Robj) => keeps_propagate c p.1 p.2 st) _ _)

/-! ## Replies -/

/-- A reply with the acknowledgements of an offset that covers what was propagated. -/
theorem Inv.replyWait (h : Inv st) {numreplicas : Int}
    (hn : n ≤ replicationCountAcksByOffset (st.clients c).last st.repl)
    (henough : numreplicas ≤ n ∨ (st.clients c).multi.isSome) :
    Inv (replyWait c n numreplicas false st) := by
  refine ⟨h.clients, ?_⟩
  intro r hr
  rcases mem_cons.mp hr with rfl | hr
  · exact fun _ => ⟨hn, henough⟩
  · exact h.log r hr

theorem Inv.replyWait_timedOut (h : Inv st) (n : Nat) (numreplicas : Int) :
    Inv (Wait.replyWait c n numreplicas true st) := by
  refine ⟨h.clients, ?_⟩
  intro r hr
  rcases mem_cons.mp hr with rfl | hr
  · exact nofun
  · exact h.log r hr

theorem Inv.unblockClient (h : Inv st) (c : Nat) : Inv (unblockClient c st) := by
  have hok := h.clients c
  unfold Wait.unblockClient
  extract_lets st₁
  have hrepl : st₁.repl = st.repl ∧ st₁.clients = st.clients ∧ st₁.log = st.log := by
    unfold st₁
    split <;> exact ⟨rfl, rfl, rfl⟩
  obtain ⟨hrepl, hclients, hlog⟩ := hrepl
  refine Inv.modify (h.congr hclients (by rw [hrepl]) hlog) ?_
  rw [hclients, hrepl]
  exact ⟨hok.last_le, hok.sampled, nofun⟩

theorem unblockClient_repl (c : Nat) (st : State) : (unblockClient c st).repl = st.repl := by
  unfold unblockClient
  extract_lets st₁
  change st₁.repl = st.repl
  unfold st₁
  split <;> rfl

theorem unblockClient_clients (c : Nat) (st : State) :
    (unblockClient c st).clients =
      Function.update st.clients c { st.clients c with blocked := none } := by
  unfold unblockClient
  extract_lets st₁
  have hclients : st₁.clients = st.clients := by
    unfold st₁
    split <;> rfl
  rw [State.modify, hclients]

theorem unblockClient_self (c : Nat) (st : State) :
    (unblockClient c st).clients c = { st.clients c with blocked := none } := by
  rw [unblockClient_clients, Function.update_self]

theorem free_unblockClient (c : Nat) (st : State) : Free c (unblockClient c st) := by
  rw [Free, unblockClient_self]
  exact nofun

theorem Inv.waitCommand (h : Inv st) (hb : (st.clients c).behind = false) (numreplicas : Int) :
    Inv (waitCommand c numreplicas st) := by
  have hok := h.clients c
  have hle := hok.sampled hb
  rw [Wait.waitCommand]
  split
  next hif => exact h.replyWait (count_le_count hle st.repl) hif
  next =>
    have hwaiting : Inv { st with clientsWaitingAcks := st.clientsWaitingAcks ++ [c] } :=
      h.congr rfl le_rfl rfl
    refine hwaiting.modify ⟨hok.last_le, hok.sampled, ?_⟩
    rintro reploffset n hwait
    cases hwait
    exact hle

/-- In a transaction `WAIT` does not block. -/
theorem keeps_waitCommand (hm : (st.clients c).multi.isSome) (hb : (st.clients c).behind = false)
    (numreplicas : Int) : Keeps c st (waitCommand c numreplicas st) := by
  refine ⟨fun h _ => h.waitCommand hb numreplicas, ?_, ?_⟩
  · rw [waitCommand, if_pos (.inr hm)]
    rfl
  · rw [waitCommand, if_pos (.inr hm)]
    rfl

theorem Inv.blockForKeys (h : Inv st) (keys : List Key) (target : Option Key) (head : Bool) :
    Inv (blockForKeys c keys target head st) := by
  have hok := h.clients c
  unfold Wait.blockForKeys
  extract_lets keys
  have hblocking : Inv { st with
      blocking := fun k => if k ∈ keys then st.blocking k ++ [c] else st.blocking k } :=
    h.congr rfl le_rfl rfl
  exact hblocking.modify ⟨hok.last_le, hok.sampled, nofun⟩

/-! ## Commands and transactions -/

theorem keeps_call (hm : (st.clients c).multi.isSome)
    (hb : ∀ numreplicas, cmd = .wait numreplicas → (st.clients c).behind = false) :
    Keeps c st (call c cmd st) := by
  cases cmd with
  | run _ effect => exact keeps_runCommand effect
  | bpop head keys =>
    rw [call, blockingPopGenericCommand]
    split
    next heq => exact keeps_blockingPopLoop heq
    next =>
      rw [if_pos hm]
      exact .refl c st
  | brpoplpush argv key dstkey =>
    rw [call, brpoplpushCommand]
    split
    · rw [if_pos hm]
      exact .refl c st
    · exact .refl c st
    · exact keeps_rpoplpushCommand _ _ _ _
  | wait numreplicas => exact keeps_waitCommand hm (hb _ rfl) numreplicas

theorem Inv.call (h : Inv st) (hf : Free c st)
    (hb : ∀ numreplicas, cmd = .wait numreplicas → (st.clients c).behind = false) :
    Inv (call c cmd st) := by
  cases cmd with
  | run _ effect => exact (keeps_runCommand effect).inv h hf
  | bpop head keys =>
    rw [Wait.call, blockingPopGenericCommand]
    split
    next heq => exact (keeps_blockingPopLoop heq).inv h hf
    next =>
      split
      · exact h
      · exact h.blockForKeys _ _ _
  | brpoplpush argv key dstkey =>
    rw [Wait.call, brpoplpushCommand]
    split
    · split
      · exact h
      · exact h.blockForKeys _ _ _
    · exact h
    · exact (keeps_rpoplpushCommand _ _ _ _).inv h hf
  | wait numreplicas => exact h.waitCommand (hb _ rfl) numreplicas

/-- The commands of a transaction, when no `WAIT` finds the client behind. -/
theorem keeps_execLoop {cmds : List Command} {must : Bool} (hm : (st.clients c).multi.isSome)
    (hb : ∀ pre numreplicas post, cmds = pre ++ .wait numreplicas :: post →
      ((execLoop c pre must st).1.clients c).behind = false) :
    Keeps c st (execLoop c cmds must st).1 := by
  induction cmds generalizing must st with
  | nil => exact .refl c st
  | cons cmd cmds ih =>
    rw [execLoop]
    split
    next hmulti =>
      -- `MULTI` goes in front of the first write, which is no `WAIT`
      have hp := keeps_propagate c (st.clients c).db [.raw [77, 85, 76, 84, 73]] st
      have hc : Keeps c st (call c cmd
          (propagate c (st.clients c).db [.raw [77, 85, 76, 84, 73]] st)) := by
        refine hp.trans (keeps_call (by rwa [hp.multi]) ?_)
        rintro numreplicas rfl
        simp [Command.readonly] at hmulti
      refine hc.trans (ih (by rwa [hc.multi]) fun pre numreplicas post heq => ?_)
      have := hb (cmd :: pre) numreplicas post (by rw [heq]; rfl)
      rwa [execLoop, if_pos hmulti] at this
    next hmulti =>
      have hc : Keeps c st (call c cmd st) := by
        refine keeps_call hm ?_
        rintro numreplicas rfl
        exact hb [] numreplicas cmds rfl
      refine hc.trans (ih (by rwa [hc.multi]) fun pre numreplicas post heq => ?_)
      have := hb (cmd :: pre) numreplicas post (by rw [heq]; rfl)
      rwa [execLoop, if_neg hmulti] at this

theorem Inv.discardTransaction (h : Inv st) (c : Nat) : Inv (discardTransaction c st) := by
  have hok := h.clients c
  exact h.modify ⟨hok.last_le, hok.sampled, hok.wait⟩

theorem free_discardTransaction (hf : Free c st) : Free c (discardTransaction c st) := by
  intro reploffset numreplicas
  simpa [discardTransaction, State.modify] using hf reploffset numreplicas

theorem Inv.execCommand (h : Inv st) (hf : Free c st) {dirty : Bool}
    (hok : Sampled st (.request c (.exec dirty))) : Inv (execCommand c dirty st) := by
  rw [Wait.execCommand]
  split
  · exact h
  next cmds hmulti =>
    cases dirty with
    | true => exact h.discardTransaction c
    | false =>
      have hloop := @keeps_execLoop st c cmds false (by simp [hmulti])
        fun pre numreplicas post heq => hok pre numreplicas post (heq ▸ hmulti)
      have hinv := (hloop.inv h hf).discardTransaction c
      simp only [Bool.false_eq_true, if_false]
      split
      · exact (keeps_propagate _ _ _ _).inv hinv (free_discardTransaction (hloop.free hf))
      · exact hinv

theorem Inv.sampleWoff (h : Inv st) (c : Nat) : Inv (sampleWoff c st) := by
  have hok := h.clients c
  exact h.modify ⟨hok.last_le, fun _ => hok.last_le, hok.wait⟩

theorem processCommand_of_call (h : ∀ cmd, req = .command cmd → (st.clients c).multi = none) :
    processCommand c req st = sampleWoff c (callRequest c req st) := by
  unfold processCommand
  split
  next cmds cmd hmulti =>
    rw [h cmd rfl] at hmulti
    cases hmulti
  next => rfl

theorem Inv.processCommand (h : Inv st) (hfree : (st.clients c).blocked = none)
    (hok : Sampled st (.request c req)) : Inv (processCommand c req st) := by
  have hf : Free c st := fun reploffset numreplicas => by simp [hfree]
  have hconn := h.clients c
  cases req with
  | command cmd =>
    cases hmulti : (st.clients c).multi with
    | some cmds =>
      simp only [Wait.processCommand, hmulti]
      exact h.modify ⟨hconn.last_le, hconn.sampled, hconn.wait⟩
    | none =>
      rw [processCommand_of_call fun _ _ => hmulti]
      refine (h.call hf ?_).sampleWoff c
      rintro numreplicas rfl
      exact hok hmulti
  | multi =>
    rw [@processCommand_of_call st c .multi (by simp), callRequest]
    split
    · exact h.sampleWoff c
    · have hm : Inv (st.modify c ({ · with multi := some [] })) :=
        h.modify ⟨hconn.last_le, hconn.sampled, hconn.wait⟩
      exact hm.sampleWoff c
  | exec dirty =>
    rw [@processCommand_of_call st c (.exec dirty) (by simp)]
    exact (h.execCommand hf hok).sampleWoff c
  | discard =>
    rw [@processCommand_of_call st c .discard (by simp), callRequest]
    split
    · exact (h.discardTransaction c).sampleWoff c
    · exact h.sampleWoff c

/-! ## Serving -/

theorem keeps_serveClientBlockedOnList {key : Key} {dstkey : Option Key} {value : Bytes}
    (h : serveClientBlockedOnList c key dstkey value head st = some st') : Keeps c st st' := by
  unfold serveClientBlockedOnList at h
  split at h
  · cases h
    exact keeps_propagate _ _ _ _
  · split at h
    · cases h
    · cases h
      exact ((keeps_propagate _ _ _ _).trans (keeps_rpoplpushHandlePush _ _ _)).trans
        (keeps_propagate _ _ _ _)

theorem Inv.setKey (h : Inv st) (key : Key) (value : Option Value) : Inv (st.setKey key value) :=
  h.congr rfl le_rfl rfl

/-- A client is served after it has been unblocked. -/
theorem Inv.serveLoop (h : Inv st) (key : Key) (n : Nat) : Inv (serveLoop key n st) := by
  induction n generalizing st with
  | zero => exact h
  | succ n ih =>
    rw [Wait.serveLoop]
    split
    next receiver _ l _ _ =>
      split
      next keys target head _ =>
        split
        · exact h
        next value rest _ =>
          have hun := (h.setKey key (some (.list rest))).unblockClient receiver
          dsimp only
          split
          next hserve =>
            exact ih ((keeps_serveClientBlockedOnList hserve).inv hun (free_unblockClient _ _))
          next => exact ih (hun.setKey _ _)
      next => exact h
    next => exact h

theorem Inv.deleteIfEmpty (h : Inv st) (key : Key) : Inv (deleteIfEmpty key st) := by
  rw [Wait.deleteIfEmpty]
  split
  · exact h.setKey _ _
  · exact h

theorem Inv.handleKey (h : Inv st) (key : Key) : Inv (handleKey st key) := by
  have hready : Inv { st with readyKeys := st.readyKeys.erase key } := h.congr rfl le_rfl rfl
  rw [Wait.handleKey]
  split
  · exact (hready.serveLoop _ _).deleteIfEmpty key
  · exact hready

theorem Inv.handlePass (h : Inv st) : Inv (handlePass st) := by
  have hfold : ∀ (keys : List Key) (st : State), Inv st → Inv (keys.foldl Wait.handleKey st) := by
    intro keys
    induction keys with
    | nil => exact fun st h => h
    | cons key keys ih => exact fun st h => ih _ (h.handleKey key)
  exact hfold _ _ (h.congr rfl le_rfl rfl)

theorem Handled.inv (hh : Handled st st') (h : Inv st) : Inv st' := by
  induction hh with
  | done => exact h
  | pass _ _ ih => exact ih h.handlePass

/-! ## Clients that wait -/

/-- The pair that the loop keeps is the number of acknowledgements of an offset, so that a
client that waits for a smaller one has at least as many. -/
theorem Inv.waitingLoop (h : Inv st) {cs : List Nat} {lastOffset lastNumreplicas : Nat}
    (hlast : lastOffset = 0 ∨
      lastNumreplicas = replicationCountAcksByOffset lastOffset st.repl) :
    Inv (waitingLoop cs lastOffset lastNumreplicas st) := by
  induction cs generalizing st lastOffset lastNumreplicas with
  | nil => exact h
  | cons c cs ih =>
    rw [Wait.waitingLoop]
    split
    next reploffset numreplicas hblocked =>
      have hle := (h.clients c).wait _ _ hblocked
      have hun := h.unblockClient c
      have hrepl := unblockClient_repl c st
      -- a reply with the acknowledgements of an offset that is not below `reploffset`
      have hreply : ∀ offset, reploffset ≤ offset →
          numreplicas ≤ replicationCountAcksByOffset offset st.repl →
          Inv (Wait.replyWait c (replicationCountAcksByOffset offset st.repl) numreplicas false
            (Wait.unblockClient c st)) := by
        intro offset hoff henough
        refine hun.replyWait ?_ (.inl henough)
        rw [unblockClient_self, hrepl]
        exact count_le_count (hle.trans hoff) _
      dsimp only
      split
      next hshort =>
        obtain ⟨hne, hgt, hnum⟩ := hshort
        have heq := hlast.resolve_left hne
        refine ih ?_ (.inr (by rw [heq, Wait.replyWait, hrepl]))
        rw [heq] at hnum ⊢
        exact hreply lastOffset (by omega) (by omega)
      next =>
        split
        next henough =>
          exact ih (hreply reploffset le_rfl henough) (.inr (by rw [Wait.replyWait, hrepl]))
        next => exact ih h hlast
    next => exact ih h hlast

theorem Inv.clientTimedOut (h : Inv st) (c : Nat) : Inv (clientTimedOut c st) := by
  rw [Wait.clientTimedOut]
  split
  · exact h
  · exact h.unblockClient c
  · exact (h.replyWait_timedOut _ _).unblockClient c

/-! ## The main result -/

theorem Inv.step (h : Inv st) {ev : Event} (hok : Sampled st ev) (hstep : Step st ev st') :
    Inv st' := by
  cases hstep with
  | request c req hfree hh => exact hh.inv (h.processCommand hfree hok)
  | ack id offset => exact h.congr rfl le_rfl rfl
  | replicas slaves replBacklog slaveseldb grown => exact h.congr rfl (Nat.le_add_right _ _) rfl
  | feed dictid argv => exact h.congr rfl (st.repl.le_feed dictid argv) rfl
  | beforeSleep => exact h.waitingLoop (.inl rfl)
  | timeout c => exact h.clientTimedOut c
  | disconnect c =>
    exact (h.unblockClient c).modify ⟨Nat.zero_le _, fun _ => le_rfl, nofun⟩

theorem Reachable.inv (h : Reachable Sampled st) : Inv st := by
  induction h with
  | init keyspace => exact ⟨fun c => ⟨Nat.zero_le _, fun _ => le_rfl, nofun⟩, by simp [State.init]⟩
  | step _ hok hstep ih => exact ih.step hok hstep

/-- In every run in which `WAIT` is called for clients that are not behind, a reply that is
not a timeout counts replicas that have acknowledged all that was propagated on behalf of
the client, and is enough unless the client was in a transaction. -/
theorem wait_counts_acked (h : Reachable Sampled st) : ∀ r ∈ st.log, r.timedOut = false →
    r.n ≤ r.acked ∧ (r.numreplicas ≤ r.n ∨ r.multi = true) :=
  h.inv.log

/-- A replica that is online and has acknowledged nothing. -/
def oneReplica : Event := .replicas [⟨9, .online, 0⟩] true (-1) 1

/-- The `WAIT 1` of a client that has written nothing. -/
theorem wait_counts_acked_one : ∃ (st : State) (r : WaitReply), r ∈ st.log ∧ r.n = 1 ∧
    r.n ≤ r.acked := by
  have h₀ : Reachable Sampled (.init fun _ => none) := .init _
  have h₁ := h₀.step (show Sampled _ oneReplica from trivial) (.replicas _ _ _ _)
  have h₂ := h₁.step (show Sampled _ (.request 1 (.command (.wait 1))) from fun _ => rfl)
    (.request 1 _ rfl (.done rfl))
  obtain ⟨st, hst, r, hr, hn, htimed⟩ : ∃ st, Reachable Sampled st ∧ ∃ r ∈ st.log, r.n = 1 ∧
      r.timedOut = false := ⟨_, h₂, _, .head _, rfl, rfl⟩
  exact ⟨st, r, hr, hn, (wait_counts_acked hst r hr htimed).1⟩

/-- `RPUSH k v` on a key that does not exist. -/
def rpush : Command := .run false fun db keyspace =>
  { keyspace := Function.update keyspace (db, [107]) (some (.list [[118]]))
    db
    propagated := [(db, [.raw [82, 80, 85, 83, 72], .raw [107], .raw [118]])]
    signaled := [(db, [107])] }

/-- Client 1 is blocked in a `BLPOP k` that the `RPUSH` of client 2 serves.  The replica has
acknowledged nothing but the creation of the backlog, and answers the `WAIT 1` of client 1. -/
theorem wait_misses_pop : ¬ ∀ st, Reachable (fun _ _ => True) st → ∀ r ∈ st.log,
    r.timedOut = false → r.n ≤ r.acked := by
  intro hall
  have h₀ : Reachable (fun _ _ => True) (.init fun _ => none) := .init _
  have h₁ := h₀.step trivial (.replicas [⟨9, .online, 0⟩] true (-1) 1)
  have h₂ := h₁.step trivial (.request 1 (.command (.bpop true [[107]])) rfl (.done rfl))
  have h₃ := h₂.step trivial (.request 2 (.command rpush) rfl
    (.pass (cons_ne_nil _ _) (.done rfl)))
  have h₄ := h₃.step trivial (.ack 9 1)
  have h₅ := h₄.step trivial (.request 1 (.command (.wait 1)) rfl (.done rfl))
  have hle : 1 ≤ 0 := hall _ h₅ _ (.head _) rfl
  cases hle

end Redis.Wait
