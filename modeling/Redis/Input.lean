import Redis.Replication.Query

/-!
# Redis.Input

How the requests of a client come in: `readQueryFromClient` and `processInputBuffer`, for a client
that may be paused or blocked at any moment while bytes arrive.

The stream of requests is cut into reads in any way.  Two things can go wrong, and both need a
client that is not served for a while: a big argument is complete in the buffer when the next
bytes arrive, or the buffer is longer than `REDIS_INLINE_MAX_SIZE` and ends in the line with the
length of an argument.
-/

namespace Redis.Input

open Replication (Query ReqType Parse processInlineBuffer processMultibulkBuffer resetClient
  requestType numLine encode restBytes BulkOk crlf bulk REDIS_INLINE_MAX_SIZE REDIS_MBULK_BIG_ARG
  REDIS_IOBUF_LEN)

/-! ## The functions -/

/-- A client: what it has sent, whether it is to be closed after the reply or is freed, and the
argument vectors that were read; `processCommand` gets those that are not empty. -/
structure Client where
  query : Query
  closeAfterReply : Bool
  freed : Bool
  argvs : List (List Bytes)

/-- `readlen` of `readQueryFromClient`, an `int`. -/
def readlen (q : Query) : Int :=
  match q.bulklen with
  | none => REDIS_IOBUF_LEN
  | some len =>
    if q.reqtype = some .multibulk ∧ q.multibulklen ≠ 0 ∧ len ≥ REDIS_MBULK_BIG_ARG then
      let remaining : Int := (len + 2 : Nat) - (q.querybuf.length : Int)
      if remaining < REDIS_IOBUF_LEN then remaining else REDIS_IOBUF_LEN
    else REDIS_IOBUF_LEN

/-- The loop of `processInputBuffer`, until the client is found paused or blocked at the beginning
of a round. -/
def processInputBuffer : (rounds : Nat) → Client → Client
  | 0, c => c
  | rounds + 1, c =>
    if c.query.querybuf = [] ∨ c.closeAfterReply then c
    else
      let q := { c.query with reqtype := some (requestType c.query) }
      match (match requestType c.query with
        | .inline => processInlineBuffer q
        | .multibulk => processMultibulkBuffer q) with
      | (.err, q) => { c with query := q }
      | (.protocolError, q) => { c with query := q, closeAfterReply := true }
      | (.ok, q) =>
        processInputBuffer rounds
          { c with query := resetClient q, argvs := c.argvs ++ [q.argv] }

/-- The rounds of a call: every round takes a byte of the buffer at least, so that as many rounds
as there are bytes are all of them. -/
def rounds (stop : Option Nat) (q : Query) : Nat := stop.getD q.querybuf.length

/-- A connection: the client, what is still to come, and the lengths that `read` was asked for. -/
structure Conn where
  client : Client
  future : Bytes
  asked : List Int

/-- The server finds the socket readable, and `read` returns up to `nread` bytes; or the client is
served again after a pause.  With `stop` the client is paused or blocked after so many rounds. -/
inductive Event where
  | readable (nread : Nat) (stop : Option Nat)
  | wakeup (stop : Option Nat)

/-- `readQueryFromClient`, with `server.client_max_querybuf_len`.  A `read` of no bytes is taken
for the end of the connection, and one of a negative number fails; without bytes (`EAGAIN`)
nothing is done. -/
def readQueryFromClient (limit nread : Nat) (stop : Option Nat) (conn : Conn) : Conn :=
  let c := conn.client
  let asked := conn.asked ++ [readlen c.query]
  if readlen c.query ≤ 0 then { conn with client := { c with freed := true }, asked }
  else if nread = 0 then { conn with asked }
  else
    let n := min nread (readlen c.query).toNat
    let q := { c.query with querybuf := c.query.querybuf ++ conn.future.take n }
    let future := conn.future.drop n
    if q.querybuf.length > limit then ⟨{ c with query := q, freed := true }, future, asked⟩
    else ⟨processInputBuffer (rounds stop q) { c with query := q }, future, asked⟩

/-- One event; the socket is not readable when nothing is to come. -/
def step (limit : Nat) (conn : Conn) : Event → Conn
  | .readable nread stop =>
    if conn.client.freed ∨ conn.future = [] then conn else readQueryFromClient limit nread stop conn
  | .wakeup stop =>
    if conn.client.freed then conn
    else { conn with
      client := processInputBuffer (rounds stop conn.client.query) conn.client }

def run (limit : Nat) (conn : Conn) (events : List Event) : Conn := events.foldl (step limit) conn

/-- A new client, with all that it is going to send. -/
def start (stream : Bytes) : Conn := ⟨⟨⟨[], none, 0, none, []⟩, false, false, []⟩, stream, []⟩

/-! ## Requests -/

/-- The limits of the parser for a request. -/
structure InLimits (argv : List Bytes) : Prop where
  argc_le : argv.length ≤ 1024 * 1024
  length_le : ∀ a ∈ argv, a.length ≤ 512 * 1024 * 1024

/-- The bytes of the line with the length of an argument, without its CRLF. -/
def lineLength (a : Bytes) : Nat := (numLine 36 a.length).length

/-- A buffer of `size` bytes, read up to `pos`, is longer than `REDIS_INLINE_MAX_SIZE` and ends in
the line with the length of one of the arguments `todo`; with `bulklen` the line of the first one
has been read.  Where a big argument begins the buffer is cut, and an argument that is all that
is in the buffer takes it along. -/
def lineCut : (todo : List Bytes) → (size pos : Nat) → (bulklen : Option Nat) → Bool
  | [], _, _, _ => false
  | a :: todo, size, pos, bulklen =>
    let body (size pos : Nat) : Bool :=
      if size - pos < a.length + 2 then false
      else if pos = 0 ∧ a.length ≥ REDIS_MBULK_BIG_ARG ∧ size = a.length + 2 then false
      else lineCut todo size (pos + a.length + 2) none
    if bulklen.isSome then body size pos
    else if size - pos ≤ lineLength a then decide (size > REDIS_INLINE_MAX_SIZE)
    else if size - pos < lineLength a + 2 then false
    else if a.length ≥ REDIS_MBULK_BIG_ARG then body (size - (pos + lineLength a + 2)) 0
    else body size (pos + lineLength a + 2)

/-- The same in a round on the request `cmd`, of which `q` may have read a part. -/
def requestCut (q : Query) (cmd : List Bytes) : Bool :=
  if q.multibulklen = 0 then
    let pos := (numLine 42 cmd.length).length + 2
    decide (pos ≤ q.querybuf.length) && lineCut cmd q.querybuf.length pos none
  else lineCut (cmd.drop q.argv.length) q.querybuf.length 0 q.bulklen

/-- The bytes of `cmd` that `q` has not read. -/
def leftBytes (q : Query) (cmd : List Bytes) : Nat :=
  if q.multibulklen = 0 then (encode cmd).length
  else (restBytes q.bulklen (cmd.drop q.argv.length)).length

/-- The same in some rounds on the requests `cmds`. -/
def inputCut : (rounds : Nat) → Query → List (List Bytes) → Bool
  | 0, _, _ => false
  | _, _, [] => false
  | rounds + 1, q, cmd :: cmds =>
    requestCut q cmd ||
      (decide (leftBytes q cmd ≤ q.querybuf.length) &&
        inputCut rounds ⟨q.querybuf.drop (leftBytes q cmd), none, 0, none, []⟩ cmds)

/-- A big argument is complete in the buffer, and not yet processed. -/
def bigArgWaits (q : Query) : Prop :=
  q.multibulklen ≠ 0 ∧ ∃ len, q.bulklen = some len ∧ len ≥ REDIS_MBULK_BIG_ARG ∧
    len + 2 ≤ q.querybuf.length

/-- The event does not meet one of the two situations, on a stream of the requests `cmds`. -/
def Harmless (cmds : List (List Bytes)) (conn : Conn) : Event → Prop
  | .readable nread stop =>
    conn.future ≠ [] → ¬bigArgWaits conn.client.query ∧
      let q := conn.client.query
      let q := { q with
        querybuf := q.querybuf ++ conn.future.take (min nread (readlen q).toNat) }
      (nread ≠ 0 → inputCut (rounds stop q) q (cmds.drop conn.client.argvs.length) = false)
  | .wakeup stop =>
    inputCut (rounds stop conn.client.query) conn.client.query
      (cmds.drop conn.client.argvs.length) = false

/-- No event of a run does. -/
def RunHarmless (limit : Nat) (cmds : List (List Bytes)) : Conn → List Event → Prop
  | _, [] => True
  | conn, event :: events =>
    Harmless cmds conn event ∧ RunHarmless limit cmds (step limit conn event) events

/-- The event is one on which the client is served, and not stopped then. -/
def Event.Serves (conn : Conn) : Event → Prop
  | .readable _ stop => conn.future ≠ [] ∧ stop = none
  | .wakeup stop => stop = none

/-- Nothing has gone wrong: the client is not freed and has no protocol error, `read` was asked for
bytes each time, and the requests read are the first ones of the stream. -/
structure Fine (cmds : List (List Bytes)) (conn : Conn) : Prop where
  freed : conn.client.freed = false
  closeAfterReply : conn.client.closeAfterReply = false
  asked : ∀ n ∈ conn.asked, 0 < n
  argvs : conn.client.argvs <+: cmds

end Redis.Input
