import Mathlib
import Redis.TwoSided
import Redis.Util.Match

/-!
# Redis.Pubsub

The tables of `pubsub.c`: the clients of a channel, the subscribed patterns of all
clients, and in each client its own channels and patterns.

A client is an address, and the access to one that is closed is `none`, as is a
failed assertion.  Names are compared by value, so that they are byte strings.  A
dictionary of channels is a list without an order of its own: what an iterator
returns is another arrangement of it.
-/

namespace Redis.Pubsub

variable {C : Type} [DecidableEq C]

/-! ## Clients -/

/-- What the functions `addReply` are called with. -/
inductive Reply
  | mbulkhdr (n : Nat)
  | subscribebulk
  | psubscribebulk
  | unsubscribebulk
  | punsubscribebulk
  | messagebulk
  | pmessagebulk
  | nullbulk
  | bulk (obj : Bytes)
  | longLong (ll : Int)
deriving DecidableEq, Repr

structure RedisClient where
  /-- The keys of the dictionary. -/
  pubsubChannels : List Bytes
  pubsubPatterns : List Bytes
  /-- `REDIS_PUBSUB`. -/
  pubsub : Bool
  /-- What was added so far. -/
  reply : List Reply
deriving DecidableEq, Repr

structure RedisServer (C : Type) where
  clients : List C
  /-- The memory. -/
  client : C → Option RedisClient
  pubsubChannels : Bytes → Option (List C)
  /-- The `client` and the `pattern` of each `pubsubPattern`. -/
  pubsubPatterns : List (C × Bytes)

/-- The server without clients. -/
def initServer : RedisServer C := ⟨[], fun _ => none, fun _ => none, []⟩

def RedisServer.setClient (s : RedisServer C) (c : C) (cl : RedisClient) : RedisServer C :=
  { s with client := Function.update s.client c (some cl) }

/-- The order in which an iterator returns the keys of a dictionary. -/
structure Walk where
  order : List Bytes → List Bytes
  perm : ∀ keys, (order keys).Perm keys

def toInt (n : Int) : Int := n.bmod (2 ^ 32)

/-- Calls of the functions `addReply`. -/
def addReply (s : RedisServer C) (c : C) (rs : List Reply) : Option (RedisServer C) := do
  let cl ← s.client c
  return s.setClient c { cl with reply := cl.reply ++ rs }

/-- `dictSize(c->pubsub_channels) + listLength(c->pubsub_patterns)`. -/
def RedisClient.subscriptions (cl : RedisClient) : Nat :=
  cl.pubsubChannels.length + cl.pubsubPatterns.length

def clientSubscriptionsCount (cl : RedisClient) : Int := toInt cl.subscriptions

/-- What a client is told about one name, if it is told: `shared.mbulkhdr[3]`, the kind, the name
and how many subscriptions it has now. -/
def notice (tell : Bool) (bulk : Reply) (count : RedisClient → Int) (s : RedisServer C) (c : C)
    (name : Bytes) : Option (RedisServer C) :=
  if tell then do
    let cl ← s.client c
    addReply s c [.mbulkhdr 3, bulk, .bulk name, .longLong (count cl)]
  else some s

/-! ## Subscribing -/

/-- The channel goes to the dictionary of the client, and the client to the list of the channel. -/
def addChannel (s : RedisServer C) (c : C) (cl : RedisClient) (channel : Bytes) :
    RedisServer C :=
  { s.setClient c { cl with pubsubChannels := cl.pubsubChannels ++ [channel] } with
    pubsubChannels := Function.update s.pubsubChannels channel
      (addMember (s.pubsubChannels channel) c) }

def pubsubSubscribeChannel (s : RedisServer C) (c : C) (channel : Bytes) :
    Option (RedisServer C × Int) := do
  let cl ← s.client c
  let r := if channel ∈ cl.pubsubChannels then (s, 0) else (addChannel s c cl channel, 1)
  let s ← notice true .subscribebulk clientSubscriptionsCount r.1 c channel
  return (s, r.2)

/-- The channel leaves the dictionary of the client, and the client the list of the channel, which
asserts that the list and the client in it are there. -/
def dropChannel (s : RedisServer C) (c : C) (cl : RedisClient) (channel : Bytes) :
    Option (RedisServer C) := do
  let clients ← s.pubsubChannels channel
  if c ∈ clients then
    return { s.setClient c { cl with pubsubChannels := cl.pubsubChannels.erase channel } with
      pubsubChannels := Function.update s.pubsubChannels channel (dropMember clients c) }
  else none

def pubsubUnsubscribeChannel (tell : Bool) (s : RedisServer C) (c : C) (channel : Bytes) :
    Option (RedisServer C × Int) := do
  let cl ← s.client c
  let r ← (if channel ∈ cl.pubsubChannels then (dropChannel s c cl channel).map (·, 1) else some (s, 0))
  let s ← notice tell .unsubscribebulk (·.subscriptions) r.1 c channel
  return (s, r.2)

/-- The pattern goes to the end of both lists. -/
def addPattern (s : RedisServer C) (c : C) (cl : RedisClient) (pattern : Bytes) :
    RedisServer C :=
  { s.setClient c { cl with pubsubPatterns := cl.pubsubPatterns ++ [pattern] } with
    pubsubPatterns := s.pubsubPatterns ++ [(c, pattern)] }

def pubsubSubscribePattern (s : RedisServer C) (c : C) (pattern : Bytes) :
    Option (RedisServer C × Int) := do
  let cl ← s.client c
  let r := if pattern ∈ cl.pubsubPatterns then (s, 0) else (addPattern s c cl pattern, 1)
  let s ← notice true .psubscribebulk clientSubscriptionsCount r.1 c pattern
  return (s, r.2)

/-- The pattern leaves both lists; the node that is found in the list of the server is deleted
without a test for `NULL`. -/
def dropPattern (s : RedisServer C) (c : C) (cl : RedisClient) (pattern : Bytes) :
    Option (RedisServer C) :=
  if (c, pattern) ∈ s.pubsubPatterns then
    some { s.setClient c { cl with pubsubPatterns := cl.pubsubPatterns.erase pattern } with
      pubsubPatterns := s.pubsubPatterns.erase (c, pattern) }
  else none

def pubsubUnsubscribePattern (tell : Bool) (s : RedisServer C) (c : C) (pattern : Bytes) :
    Option (RedisServer C × Int) := do
  let cl ← s.client c
  let r ← (if pattern ∈ cl.pubsubPatterns then (dropPattern s c cl pattern).map (·, 1) else some (s, 0))
  let s ← notice tell .punsubscribebulk (·.subscriptions) r.1 c pattern
  return (s, r.2)

/-- What `pubsubUnsubscribeAllChannels` and `pubsubUnsubscribeAllPatterns` do: the loop over the
names, each of which is removed while the iterator stands behind it. -/
def unsubscribeAll (unsubscribe : RedisServer C → C → Bytes → Option (RedisServer C × Int))
    (bulk : Reply) (tell : Bool) (s : RedisServer C) (c : C) (names : List Bytes) :
    Option (RedisServer C × Int) := do
  let (s, count) ← names.foldlM (fun (s, count) name => do
      let (s, retval) ← unsubscribe s c name
      return (s, toInt (count + retval))) (s, 0)
  let cl ← s.client c
  let s ← (if tell ∧ count = 0 then
      addReply s c [.mbulkhdr 3, bulk, .nullbulk, .longLong cl.subscriptions]
    else some s)
  return (s, count)

def pubsubUnsubscribeAllChannels (tell : Bool) (walk : Walk) (s : RedisServer C) (c : C) :
    Option (RedisServer C × Int) := do
  let cl ← s.client c
  unsubscribeAll (pubsubUnsubscribeChannel tell) .unsubscribebulk tell s c
    (walk.order cl.pubsubChannels)

def pubsubUnsubscribeAllPatterns (tell : Bool) (s : RedisServer C) (c : C) :
    Option (RedisServer C × Int) := do
  let cl ← s.client c
  unsubscribeAll (pubsubUnsubscribePattern tell) .punsubscribebulk tell s c cl.pubsubPatterns

/-! ## Publishing -/

/-- The message to a client of the channel. -/
def channelMessage (channel message : Bytes) : List Reply :=
  [.mbulkhdr 3, .messagebulk, .bulk channel, .bulk message]

/-- The message to a client with a matching pattern. -/
def patternMessage (channel message pattern : Bytes) : List Reply :=
  [.mbulkhdr 4, .pmessagebulk, .bulk pattern, .bulk channel, .bulk message]

def pubsubPublishMessage (s : RedisServer C) (channel message : Bytes) :
    Option (RedisServer C × Int) := do
  let (s, receivers) ← ((s.pubsubChannels channel).getD []).foldlM (fun (s, receivers) c => do
      let s ← addReply s c (channelMessage channel message)
      return (s, toInt (receivers + 1))) (s, 0)
  s.pubsubPatterns.foldlM (fun (s, receivers) pat => do
      if ← stringmatchlen false pat.2 (some channel) then
        let s ← addReply s pat.1 (patternMessage channel message pat.2)
        return (s, toInt (receivers + 1))
      else return (s, receivers)) (s, receivers)

/-! ## Commands -/

/-- `c->flags |= REDIS_PUBSUB`. -/
def markPubsub (s : RedisServer C) (c : C) : Option (RedisServer C) := do
  let cl ← s.client c
  return s.setClient c { cl with pubsub := true }

/-- `if (clientSubscriptionsCount(c) == 0) c->flags &= ~REDIS_PUBSUB`. -/
def unmarkPubsub (s : RedisServer C) (c : C) : Option (RedisServer C) := do
  let cl ← s.client c
  return if clientSubscriptionsCount cl = 0 then s.setClient c { cl with pubsub := false } else s

/-- The loop of a command over its arguments. -/
def eachName (f : RedisServer C → C → Bytes → Option (RedisServer C × Int))
    (s : RedisServer C) (c : C) (names : List Bytes) : Option (RedisServer C) :=
  names.foldlM (fun s name => (f s c name).map Prod.fst) s

def subscribeCommand (s : RedisServer C) (c : C) (channels : List Bytes) :
    Option (RedisServer C) := do
  let s ← eachName pubsubSubscribeChannel s c channels
  markPubsub s c

def unsubscribeCommand (walk : Walk) (s : RedisServer C) (c : C) (channels : List Bytes) :
    Option (RedisServer C) := do
  let s ← if channels = [] then (pubsubUnsubscribeAllChannels true walk s c).map Prod.fst
    else eachName (pubsubUnsubscribeChannel true) s c channels
  unmarkPubsub s c

def psubscribeCommand (s : RedisServer C) (c : C) (patterns : List Bytes) :
    Option (RedisServer C) := do
  let s ← eachName pubsubSubscribePattern s c patterns
  markPubsub s c

def punsubscribeCommand (s : RedisServer C) (c : C) (patterns : List Bytes) :
    Option (RedisServer C) := do
  let s ← if patterns = [] then (pubsubUnsubscribeAllPatterns true s c).map Prod.fst
    else eachName (pubsubUnsubscribePattern true) s c patterns
  unmarkPubsub s c

def publishCommand (s : RedisServer C) (c : C) (channel message : Bytes) :
    Option (RedisServer C) := do
  let (s, receivers) ← pubsubPublishMessage s channel message
  addReply s c [.longLong receivers]

/-! ## Connections -/

def createClient (s : RedisServer C) (c : C) : RedisServer C :=
  { s.setClient c ⟨[], [], false, []⟩ with clients := s.clients ++ [c] }

/-- `freeClient`: its address is free for another connection. -/
def freeClient (walk : Walk) (s : RedisServer C) (c : C) : Option (RedisServer C) := do
  let (s, _) ← pubsubUnsubscribeAllChannels false walk s c
  let (s, _) ← pubsubUnsubscribeAllPatterns false s c
  -- redisAssert(ln != NULL)
  if c ∈ s.clients then
    return { s with clients := s.clients.erase c, client := Function.update s.client c none }
  else none

/-- A connection, a command of a client, a message of the server itself (the notifications of
`notify.c`, the cluster bus), or the end of a connection. -/
inductive Event (C : Type) where
  | connect (c : C)
  | subscribe (c : C) (channels : List Bytes)
  | unsubscribe (c : C) (channels : List Bytes) (walk : Walk)
  | psubscribe (c : C) (patterns : List Bytes)
  | punsubscribe (c : C) (patterns : List Bytes)
  | publish (c : C) (channel message : Bytes)
  | notify (channel message : Bytes)
  | disconnect (c : C) (walk : Walk)

/-- What a client does, which is nothing when it is not connected. -/
def ofClient (s : RedisServer C) (c : C) (f : Option (RedisServer C)) : Option (RedisServer C) :=
  if (s.client c).isSome then f else some s

def step (s : RedisServer C) : Event C → Option (RedisServer C)
  | .connect c => some (if (s.client c).isSome then s else createClient s c)
  | .subscribe c channels => ofClient s c (subscribeCommand s c channels)
  | .unsubscribe c channels walk => ofClient s c (unsubscribeCommand walk s c channels)
  | .psubscribe c patterns => ofClient s c (psubscribeCommand s c patterns)
  | .punsubscribe c patterns => ofClient s c (punsubscribeCommand s c patterns)
  | .publish c channel message => ofClient s c (publishCommand s c channel message)
  | .notify channel message => (pubsubPublishMessage s channel message).map Prod.fst
  | .disconnect c walk => ofClient s c (freeClient walk s c)

def run : RedisServer C → List (Event C) → Option (RedisServer C)
  | s, [] => some s
  | s, ev :: evs => (step s ev).bind fun s' => run s' evs

end Redis.Pubsub
