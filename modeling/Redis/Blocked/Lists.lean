import Mathlib.Logic.Function.Basic
import Redis.Bytes

/-!
# Redis.Blocked.Lists

The lists of the keyspace and the clients that are blocked for them: `BLPOP`, `BRPOP` and
`BRPOPLPUSH`, the commands that put a list under a key, and `handleClientsBlockedOnLists`.

Elements carry the number of the push that made them.  Replies that hand out an element are
kept, and so is, for each client that was unblocked because a key became ready, who waited
for the key at that time.  No key expires.
-/

namespace Redis.Blocked

/-! ## The state -/

/-- A database and the name of a key in it. -/
abbrev Key := Int × Bytes

/-- A string that was pushed, with the number of the push. -/
structure Element where
  tag : Nat
  value : Bytes
  deriving DecidableEq

/-- A list, or a value of another type. -/
inductive Value where
  | list (elements : List Element)
  | other
  deriving DecidableEq

/-- What a client is blocked for: `bpop.keys`, `bpop.target`, whether `lastcmd` is `BLPOP`,
and the time at which it blocked. -/
structure Bpop where
  keys : List Key
  target : Option Key
  head : Bool
  since : Nat

/-- The commands.  Of `SORT ... STORE` only what it stores is left, `none` after an error. -/
inductive Command where
  | push (head : Bool) (key : Bytes) (values : List Bytes)
  | pushx (head : Bool) (key value : Bytes)
  | pop (head : Bool) (key : Bytes)
  | rpoplpush (key dstkey : Bytes)
  | bpop (head : Bool) (keys : List Bytes)
  | brpoplpush (key dstkey : Bytes)
  | rename (key newkey : Bytes)
  | move (key : Bytes) (dbid : Int)
  | del (keys : List Bytes)
  | set (key : Bytes)
  | sortStore (output : (Key → Option Value) → Option (List Bytes))
      (storekey : Bytes)
  | select (dbid : Int)

/-- A client; `multi` is its queue in a transaction. -/
structure Client where
  db : Int
  multi : Option (List Command)
  blocked : Option Bpop

def Client.fresh : Client := ⟨0, none, none⟩

/-- A reply with an element; `moved` says that `BRPOPLPUSH` or `RPOPLPUSH` has pushed it
elsewhere. -/
structure Reply where
  client : Nat
  element : Element
  moved : Bool
  deriving DecidableEq

/-- A client that was unblocked because the key was ready, and the times since which clients
waited for it, its own first. -/
structure Service where
  client : Nat
  key : Key
  since : Nat
  waiting : List Nat

structure State where
  keyspace : Key → Option Value
  /-- `blocking_keys` of the databases. -/
  blocking : Key → List Nat
  /-- `server.ready_keys`. -/
  ready : List Key
  /-- `ready_keys` of the databases. -/
  readyKeys : List Key
  clients : Nat → Client
  bpopBlockedClients : Nat
  clock : Nat
  pushes : Nat
  replies : List Reply
  services : List Service

/-- A server without keys and clients. -/
def State.init : State :=
  ⟨fun _ => none, fun _ => [], [], [], fun _ => .fresh, 0, 0, 0, [], []⟩

/-- The client `c` is changed by `f`. -/
def State.modify (c : Nat) (f : Client → Client) (st : State) : State :=
  { st with clients := Function.update st.clients c (f (st.clients c)) }

/-- The value of a key is changed. -/
def State.put (key : Key) (value : Option Value) (st : State) : State :=
  { st with keyspace := Function.update st.keyspace key value }

/-! ## The keyspace -/

def signalListAsReady (key : Key) (st : State) : State :=
  if st.blocking key = [] then st
  else if key ∈ st.readyKeys then st
  else { st with ready := st.ready ++ [key], readyKeys := key :: st.readyKeys }

def dbAdd (key : Key) (value : Value) (st : State) : State :=
  match value with
  | .list _ => signalListAsReady key (st.put key (some value))
  | .other => st.put key (some value)

def dbDelete (key : Key) (st : State) : State := st.put key none

/-- `setKey`: `dbAdd`, or `dbOverwrite`. -/
def setKey (key : Key) (value : Value) (st : State) : State :=
  match st.keyspace key with
  | none => dbAdd key value st
  | some _ => st.put key (some value)

def listTypePop (head : Bool) (l : List Element) : Option (Element × List Element) :=
  if head then
    match l with
    | [] => none
    | x :: xs => some (x, xs)
  else l.getLast?.map fun x => (x, l.dropLast)

def listTypePush (head : Bool) (e : Element) (l : List Element) : List Element :=
  if head then e :: l else l ++ [e]

/-- A list that has become empty is deleted. -/
def deleteIfEmpty (key : Key) (st : State) : State :=
  match st.keyspace key with
  | some (.list []) => dbDelete key st
  | _ => st

/-- A reply with an element. -/
def reply (c : Nat) (element : Element) (moved : Bool) (st : State) : State :=
  { st with replies := ⟨c, element, moved⟩ :: st.replies }

/-! ## Pushes and pops -/

/-- A string is pushed to the list of a key. -/
def pushValue (head : Bool) (key : Key) (value : Bytes) (st : State) : State :=
  match st.keyspace key with
  | some (.list l) =>
    { st.put key (some (.list (listTypePush head ⟨st.pushes, value⟩ l))) with
      pushes := st.pushes + 1 }
  | _ => st

/-- The list of a key, made if there is none. -/
def createList (key : Key) (st : State) : State :=
  match st.keyspace key with
  | none => dbAdd key (.list []) st
  | some _ => st

def pushGenericCommand (head : Bool) (key : Key) (values : List Bytes) (st : State) :
    State :=
  match st.keyspace key with
  | some .other => st
  | _ => values.foldl (fun st value => pushValue head key value (createList key st)) st

def pushxGenericCommand (head : Bool) (key : Key) (value : Bytes) (st : State) : State :=
  pushValue head key value st

/-- `listTypePop` of the list of a key. -/
def popKey (head : Bool) (key : Key) (st : State) : Option (Element × State) :=
  match st.keyspace key with
  | some (.list l) =>
    (listTypePop head l).map fun p => (p.1, st.put key (some (.list p.2)))
  | _ => none

def popGenericCommand (c : Nat) (head : Bool) (key : Key) (st : State) : State :=
  match popKey head key st with
  | none => st
  | some (element, st) => deleteIfEmpty key (reply c element false st)

def rpoplpushHandlePush (c : Nat) (dstkey : Key) (element : Element) (st : State) : State :=
  let st := createList dstkey st
  match st.keyspace dstkey with
  | some (.list l) =>
    reply c element true (st.put dstkey (some (.list (listTypePush true element l))))
  | _ => st

def rpoplpushCommand (c : Nat) (key dstkey : Key) (st : State) : State :=
  match st.keyspace dstkey with
  | some .other => st
  | _ =>
    match popKey false key st with
    | none => st
    | some (element, st) => deleteIfEmpty key (rpoplpushHandlePush c dstkey element st)

/-! ## Blocking -/

/-- `blockForKeys` and `blockClient`. -/
def blockForKeys (c : Nat) (keys : List Key) (target : Option Key) (head : Bool) (st : State) :
    State :=
  let keys := keys.eraseDups
  { st with
    blocking := fun k => if k ∈ keys then st.blocking k ++ [c] else st.blocking k
    bpopBlockedClients := st.bpopBlockedClients + 1
    clock := st.clock + 1 }.modify c
    fun k => { k with blocked := some ⟨keys, target, head, st.clock⟩ }

/-- `unblockClient` with `unblockClientWaitingData`. -/
def unblockClient (c : Nat) (st : State) : State :=
  match (st.clients c).blocked with
  | none => st
  | some bpop =>
    { st with
      blocking := fun k => if k ∈ bpop.keys then (st.blocking k).erase c else st.blocking k
      bpopBlockedClients := st.bpopBlockedClients - 1 }.modify c
      fun k => { k with blocked := none }

/-- The loop of `blockingPopGenericCommand`; `none` means that there is nothing to pop. -/
def blockingPopLoop (c : Nat) (head : Bool) : List Key → State → Option State
  | [], _ => none
  | key :: keys, st =>
    match st.keyspace key with
    | none => blockingPopLoop c head keys st
    | some .other => some st
    | some (.list []) => blockingPopLoop c head keys st
    | some (.list (_ :: _)) => some (popGenericCommand c head key st)

def blockingPopGenericCommand (c : Nat) (head : Bool) (keys : List Key) (st : State) : State :=
  match blockingPopLoop c head keys st with
  | some st => st
  | none => if (st.clients c).multi.isSome then st else blockForKeys c keys none head st

def brpoplpushCommand (c : Nat) (key dstkey : Key) (st : State) : State :=
  match st.keyspace key with
  | none =>
    if (st.clients c).multi.isSome then st else blockForKeys c [key] (some dstkey) false st
  | some .other => st
  | some (.list _) => rpoplpushCommand c key dstkey st

/-! ## Serving blocked clients -/

/-- `serveClientBlockedOnList`; `none` is `REDIS_ERR`. -/
def serveClientBlockedOnList (receiver : Nat) (dstkey : Option Key) (element : Element)
    (st : State) : Option State :=
  match dstkey with
  | none => some (reply receiver element false st)
  | some dst =>
    match st.keyspace dst with
    | some .other => none
    | _ => some (rpoplpushHandlePush receiver dst element st)

/-- The client at the head of the list for a key is unblocked, and served or not; `none` when
there is no such client or no element for it. -/
def serveFirst (key : Key) (st : State) : Option State :=
  match st.blocking key with
  | [] => none
  | receiver :: _ =>
    match (st.clients receiver).blocked with
    | none => none
    | some bpop =>
      match st.keyspace key with
      | some (.list l) =>
        match listTypePop bpop.head l with
        | none => none
        | some (element, rest) =>
          let waiting := (st.blocking key).map fun c =>
            ((st.clients c).blocked.map Bpop.since).getD 0
          let st := unblockClient receiver
            { st.put key (some (.list rest)) with
              services := ⟨receiver, key, bpop.since, waiting⟩ :: st.services }
          match serveClientBlockedOnList receiver bpop.target element st with
          | some st => some st
          -- the pop is undone
          | none => some (st.put key (some (.list (listTypePush bpop.head element rest))))
      | _ => none

/-- The `while(numclients--)` loop of `handleClientsBlockedOnLists`. -/
def serveLoop (key : Key) : Nat → State → State
  | 0, st => st
  | numclients + 1, st =>
    match serveFirst key st with
    | none => st
    | some st => serveLoop key numclients st

/-- The body of the loop over the keys that are ready. -/
def handleKey (st : State) (key : Key) : State :=
  let st := { st with readyKeys := st.readyKeys.filter (· ≠ key) }
  match st.keyspace key with
  | some (.list _) => deleteIfEmpty key (serveLoop key (st.blocking key).length st)
  | _ => st

/-- One round of `handleClientsBlockedOnLists`. -/
def handleRound (st : State) : State := st.ready.foldl handleKey { st with ready := [] }

/-- The rounds, until no key is ready. -/
def handleRounds : Nat → State → State
  | 0, st => st
  | fuel + 1, st => if st.ready = [] then st else handleRounds fuel (handleRound st)

/-- `handleClientsBlockedOnLists`.  Each round but the last unblocks a client. -/
def handleClientsBlockedOnLists (st : State) : State :=
  handleRounds (st.bpopBlockedClients + 1) st

/-! ## Commands -/

def renameCommand (key newkey : Key) (st : State) : State :=
  if key = newkey then st
  else
    match st.keyspace key with
    | none => st
    | some o => dbDelete key (dbAdd newkey o (dbDelete newkey st))

def moveCommand (key dst : Key) (st : State) : State :=
  if key = dst then st
  else
    match st.keyspace key, st.keyspace dst with
    | some o, none => dbDelete key (dbAdd dst o st)
    | _, _ => st

def delCommand (keys : List Key) (st : State) : State :=
  keys.foldl (fun st key => dbDelete key st) st

/-- Strings as elements, numbered from `n` on. -/
def elements (n : Nat) : List Bytes → List Element
  | [] => []
  | value :: values => ⟨n, value⟩ :: elements (n + 1) values

/-- The end of `sortCommand` with `STORE`. -/
def sortStore (output : (Key → Option Value) → Option (List Bytes)) (storekey : Key)
    (st : State) : State :=
  match output st.keyspace with
  | none => st
  | some [] => dbDelete storekey st
  | some values =>
    setKey storekey (.list (elements st.pushes values))
      { st with pushes := st.pushes + values.length }

/-- `call` of a command of the client `c`. -/
def call (c : Nat) (cmd : Command) (st : State) : State :=
  let db := (st.clients c).db
  match cmd with
  | .push head key values => pushGenericCommand head (db, key) values st
  | .pushx head key value => pushxGenericCommand head (db, key) value st
  | .pop head key => popGenericCommand c head (db, key) st
  | .rpoplpush key dstkey => rpoplpushCommand c (db, key) (db, dstkey) st
  | .bpop head keys => blockingPopGenericCommand c head (keys.map fun key => (db, key)) st
  | .brpoplpush key dstkey => brpoplpushCommand c (db, key) (db, dstkey) st
  | .rename key newkey => renameCommand (db, key) (db, newkey) st
  | .move key dbid => moveCommand (db, key) (dbid, key) st
  | .del keys => delCommand (keys.map fun key => (db, key)) st
  | .set key => setKey (db, key) .other st
  | .sortStore output storekey => sortStore output (db, storekey) st
  | .select dbid => st.modify c fun k => { k with db := dbid }

/-- What a client asks for; `dirty` is `REDIS_DIRTY_CAS` or `REDIS_DIRTY_EXEC`. -/
inductive Request where
  | command (cmd : Command)
  | multi
  | exec (dirty : Bool)
  | discard

def discardTransaction (c : Nat) (st : State) : State :=
  st.modify c fun k => { k with multi := none }

def execCommand (c : Nat) (dirty : Bool) (st : State) : State :=
  match (st.clients c).multi with
  | none => st
  | some cmds =>
    if dirty then discardTransaction c st
    else discardTransaction c (cmds.foldl (fun st cmd => call c cmd st) st)

/-- `call` of a request. -/
def callRequest (c : Nat) (req : Request) (st : State) : State :=
  match req with
  | .command cmd => call c cmd st
  | .multi =>
    if (st.clients c).multi.isSome then st else st.modify c fun k => { k with multi := some [] }
  | .exec dirty => execCommand c dirty st
  | .discard => if (st.clients c).multi.isSome then discardTransaction c st else st

/-- The end of `processCommand`. -/
def processCommand (c : Nat) (req : Request) (st : State) : State :=
  match req, (st.clients c).multi with
  | .command cmd, some cmds => st.modify c fun k => { k with multi := some (cmds ++ [cmd]) }
  | _, _ => handleClientsBlockedOnLists (callRequest c req st)

/-- What happens to the server. -/
inductive Event where
  | request (c : Nat) (req : Request)
  | timeout (c : Nat)
  | disconnect (c : Nat)

/-- A step.  The input of a client that is blocked is not processed. -/
def step (st : State) : Event → State
  | .request c req => if (st.clients c).blocked.isSome then st else processCommand c req st
  | .timeout c => unblockClient c st
  | .disconnect c => (unblockClient c st).modify c fun _ => .fresh

end Redis.Blocked
