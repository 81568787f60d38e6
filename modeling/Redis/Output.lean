import Redis.Util.Buffers

/-!
# Redis.Output

The output of a client in `networking.c`: a static buffer, behind it a list of
objects, and how far the first of what is there has been sent.

A string object is its value: the last object of the list is duplicated before it
grows if something else refers to it.  The counting of `reply_bytes` and the limits
that close a client are left out.  A result `none` is an access to `NULL` or to a
node that is not there, or a connection that is closed.
-/

namespace Redis.Output

/-! ## Strings -/

/-- An sds, whose length is an `unsigned int`. -/
structure Sds where
  bytes : Bytes
  short : bytes.length < 2 ^ 32
deriving DecidableEq

/-- `sdsnewlen`, and what `sdscatlen` leaves: the length is cut to 32 bits. -/
def sdsnewlen (s : Bytes) : Sds where
  bytes := s.take (s.length % 2 ^ 32)
  short := by
    rw [List.length_take]
    exact Nat.lt_of_le_of_lt (Nat.min_le_left ..) (Nat.mod_lt _ (by decide))

def sdscatlen (s : Sds) (t : Bytes) : Sds := sdsnewlen (s.bytes ++ t)

/-- A string object: `REDIS_ENCODING_RAW`, `REDIS_ENCODING_EMBSTR` or `REDIS_ENCODING_INT`. -/
inductive RObj where
  | raw (s : Sds)
  | embstr (s : Sds)
  | int (v : Int64)
deriving DecidableEq

/-- `REDIS_ENCODING_EMBSTR_SIZE_LIMIT`. -/
def embstrSizeLimit : Nat := 39

def toInt (n : Nat) : Int := (n : Int).bmod (2 ^ 32)

/-! ## Clients -/

/-- A node of the list with its object; `ptr` is `NULL` until the length is set. -/
structure ReplyNode where
  /-- The address. -/
  id : Nat
  ptr : Option Sds
  /-- The encoding is `REDIS_ENCODING_RAW`. -/
  raw : Bool
deriving DecidableEq

structure RedisClient where
  /-- The first `bufpos` bytes of the buffer. -/
  buf : Bytes
  sentlen : Nat
  reply : List ReplyNode
  /-- `REDIS_CLOSE_AFTER_REPLY`. -/
  closeAfterReply : Bool
  /-- What `prepareClientToWrite` returns. -/
  writable : Bool
  /-- The address of the next node. -/
  next : Nat
deriving DecidableEq

/-- `createClient`, with a connection. -/
def createClient : RedisClient := ⟨[], 0, [], false, true, 0⟩

/-- `REDIS_REPLY_CHUNK_BYTES`, also the size of the buffer. -/
def replyChunkBytes : Nat := 16 * 1024

/-- `REDIS_MAX_WRITE_PER_EVENT`. -/
def maxWritePerEvent : Nat := 1024 * 64

/-- `REDIS_SHARED_BULKHDR_LEN`. -/
def sharedBulkhdrLen : Nat := 32

/-! ## Adding bytes -/

/-- `_addReplyToBuffer`; the `Bool` is `REDIS_OK`. -/
def addReplyToBuffer (c : RedisClient) (s : Bytes) : RedisClient × Bool :=
  let available := replyChunkBytes - c.buf.length
  if c.closeAfterReply then (c, true)
  else if c.reply.length > 0 then (c, false)
  else if s.length > available then (c, false)
  else ({ c with buf := c.buf ++ s }, true)

def listAddNodeTail (c : RedisClient) (ptr : Option Sds) (raw : Bool) : RedisClient :=
  { c with reply := c.reply ++ [⟨c.next, ptr, raw⟩], next := c.next + 1 }

/-- What `_addReplyObjectToList`, `_addReplySdsToList` and `_addReplyStringToList` do: the bytes go
to the end of the last object, or `ptr` to a new node. -/
def addToList (c : RedisClient) (s : Bytes) (ptr : Sds) (raw : Bool) : RedisClient :=
  if c.closeAfterReply then c
  else
    match c.reply.getLast? with
    | none => listAddNodeTail c (some ptr) raw
    | some tail =>
      match tail.ptr with
      | none => listAddNodeTail c (some ptr) raw
      | some t =>
        if tail.raw ∧ t.bytes.length + s.length ≤ replyChunkBytes then
          { c with reply := c.reply.dropLast ++ [{ tail with ptr := some (sdscatlen t s) }] }
        else listAddNodeTail c (some ptr) raw

def addReplyObjectToList (c : RedisClient) (s : Sds) (raw : Bool) : RedisClient :=
  addToList c s.bytes s raw

def addReplySdsToList (c : RedisClient) (s : Sds) : RedisClient := addToList c s.bytes s true

/-- `_addReplyStringToList`: the new object is made by `createStringObject`. -/
def addReplyStringToList (c : RedisClient) (s : Bytes) : RedisClient :=
  addToList c s (sdsnewlen s) (decide (embstrSizeLimit < s.length))

/-- To the buffer, or else to the list. -/
def orElseList (r : RedisClient × Bool) (toList : RedisClient → RedisClient) : RedisClient :=
  if r.2 then r.1 else toList r.1

def addReply (c : RedisClient) (obj : RObj) : RedisClient :=
  if !c.writable then c
  else
    match obj with
    | .raw s => orElseList (addReplyToBuffer c s.bytes) (addReplyObjectToList · s true)
    | .embstr s => orElseList (addReplyToBuffer c s.bytes) (addReplyObjectToList · s false)
    | .int v =>
      let buf := ll2string v.toInt
      -- what getDecodedObject returns is short enough for an embedded string
      let decoded := orElseList (addReplyToBuffer c buf) (addReplyObjectToList · (sdsnewlen buf) false)
      if c.reply.length = 0 ∧ replyChunkBytes - c.buf.length ≥ 32 then
        let r := addReplyToBuffer c buf
        if r.2 then r.1 else decoded
      else decoded

def addReplySds (c : RedisClient) (s : Sds) : RedisClient :=
  if !c.writable then c else orElseList (addReplyToBuffer c s.bytes) (addReplySdsToList · s)

def addReplyString (c : RedisClient) (s : Bytes) : RedisClient :=
  if !c.writable then c else orElseList (addReplyToBuffer c s) (addReplyStringToList · s)

/-! ## Lengths -/

def crlf : Bytes := [13, 10]

def sharedCrlf : RObj := .raw (sdsnewlen crlf)

/-- `shared.bulkhdr[n]`, which `"$%d\r\n"` prints. -/
def sharedBulkhdr (n : Nat) : RObj := .raw (sdsnewlen (36 :: canonical n ++ crlf))

/-- `addReplyLongLongWithPrefix` with the prefix `$`. -/
def addReplyLongLongWithPrefix (c : RedisClient) (ll : Nat) : RedisClient :=
  if ll < sharedBulkhdrLen then addReply c (sharedBulkhdr ll)
  else addReplyString c (36 :: ll2string ll ++ crlf)

/-- `while((n = n/10) != 0) len++`. -/
def longLenLoop (n : Int) (len : Nat) : Nat :=
  if h : n.tdiv 10 = 0 then len else longLenLoop (n.tdiv 10) (len + 1)
termination_by n.natAbs
decreasing_by
  rw [Int.natAbs_tdiv]
  have hpos : n.natAbs ≠ 0 := by
    intro hzero
    rw [Int.natAbs_eq_zero.mp hzero] at h
    exact h rfl
  exact Nat.div_lt_self (Nat.pos_of_ne_zero hpos) (by decide)

/-- How many bytes a `long` takes in decimal; `-n` wraps. -/
def longLen (n : Int64) : Nat :=
  if n < 0 then longLenLoop (-n).toInt 2 else longLenLoop n.toInt 1

/-- The length that `addReplyBulkLen` computes. -/
def RObj.len : RObj → Nat
  | .raw s => s.bytes.length
  | .embstr s => s.bytes.length
  | .int v => longLen v

def addReplyBulkLen (c : RedisClient) (obj : RObj) : RedisClient :=
  let len := obj.len
  if len < sharedBulkhdrLen then addReply c (sharedBulkhdr len)
  else addReplyLongLongWithPrefix c len

def addReplyBulk (c : RedisClient) (obj : RObj) : RedisClient :=
  addReply (addReply (addReplyBulkLen c obj) obj) sharedCrlf

/-! ## Deferred lengths -/

def addDeferredMultiBulkLength (c : RedisClient) : RedisClient × Option Nat :=
  if !c.writable then (c, none) else (listAddNodeTail c none true, some c.next)

/-- `"*%ld\r\n"`. -/
def multiBulkHeader (length : Int64) : Bytes := 42 :: canonical length.toInt ++ crlf

/-- A node with its text, and what comes behind it: the next object is glued to it if it has a text,
and its node deleted. -/
def glue (id : Nat) (s : Sds) : List ReplyNode → List ReplyNode
  | [] => [⟨id, some s, true⟩]
  | next :: rest =>
    match next.ptr with
    | none => ⟨id, some s, true⟩ :: next :: rest
    | some t => ⟨id, some (sdscatlen s t.bytes), true⟩ :: rest

/-- The object of the node at an address gets its text. -/
def setNode (id : Nat) (s : Sds) : List ReplyNode → Option (List ReplyNode)
  | [] => none
  | n :: rest => if n.id = id then some (glue id s rest) else (setNode id s rest).map (n :: ·)

def setDeferredMultiBulkLength (c : RedisClient) (node : Option Nat) (length : Int64) :
    Option RedisClient :=
  match node with
  | none => some c
  | some id => do
    let reply ← setNode id (sdsnewlen (multiBulkHeader length)) c.reply
    return { c with reply := reply }

/-! ## Sending -/

/-- The nodes of length 0 at the front of the list are deleted when the buffer is empty. -/
def dropEmpty (c : RedisClient) : RedisClient :=
  if c.buf = [] then
    { c with reply := c.reply.dropWhile fun n => n.ptr.any fun t => toInt t.bytes.length = 0 }
  else c

/-- What is given to `write` of an object.  The count is a difference of two `int`; `write` fails when
it is negative, and the client is freed. -/
def pendingObject (s : Sds) (sentlen : Nat) : Option Bytes :=
  let count := toInt s.bytes.length - sentlen
  if count < 0 then none else some ((s.bytes.drop sentlen).take count.toNat)

/-- What is given to `write`. -/
def pending (c : RedisClient) : Option Bytes :=
  if c.buf ≠ [] then some (c.buf.drop c.sentlen)
  else
    match c.reply with
    | [] => some []
    | n :: _ => n.ptr.bind (pendingObject · c.sentlen)

/-- `c->sentlen += nwritten`, and the end of the buffer or of the first object. -/
def advance (c : RedisClient) (nwritten : Nat) : RedisClient :=
  let sentlen := c.sentlen + nwritten
  if c.buf ≠ [] then
    if sentlen = c.buf.length then { c with buf := [], sentlen := 0 }
    else { c with sentlen := sentlen }
  else
    match c.reply with
    | [] => c
    | n :: rest =>
      if (sentlen : Int) = toInt (n.ptr.elim 0 (·.bytes.length)) then
        { c with reply := rest, sentlen := 0 }
      else { c with sentlen := sentlen }

/-- The loop of `sendReplyToClient`, which also returns what was written.  A `write` takes a part of
what it is given: of each one there is how much that is at most, and whether the server is
below `maxmemory` behind it; when no more is taken it returns 0 or -1 with `EAGAIN`. -/
def sendLoop (c : RedisClient) (totwritten : Nat) :
    List (Nat × Bool) → Option (RedisClient × Bytes)
  | [] => do
    let _ ← pending (dropEmpty c)
    return (dropEmpty c, [])
  | (taken, below) :: writes => do
    let bytes ← pending (dropEmpty c)
    let written := bytes.take taken
    if written = [] then return (dropEmpty c, [])
    else
      let c := advance (dropEmpty c) written.length
      let totwritten := totwritten + written.length
      if totwritten > maxWritePerEvent ∧ below then return (c, written)
      else
        let (c, more) ← sendLoop c totwritten writes
        return (c, written ++ more)

def sendReplyToClient (c : RedisClient) (writes : List (Nat × Bool)) :
    Option (RedisClient × Bytes) := do
  let (c, written) ← sendLoop c 0 writes
  if c.buf = [] ∧ c.reply = [] then
    if c.closeAfterReply then none else return ({ c with sentlen := 0 }, written)
  else return (c, written)

end Redis.Output
