import Redis.Replication.Backlog
import Redis.Util

/-!
# Redis.Replication.Feed

`replicationFeedSlaves`: the commands that the master propagates are written to
the backlog and to the output buffer of each replica, by two pieces of code that
build the same bytes in different ways.

The output buffer of a client (`buf` and the `reply` list) is one list of bytes.
The handler that `prepareClientToWrite` installs is not modelled, and neither are
the failures to install it.
-/

namespace Redis.Replication

open List

/-! ## Objects and clients -/

/-- A string object: an sds, or an integer in the pointer itself. -/
inductive Robj where
  | raw (s : Bytes)
  | int (n : Int64)
  deriving DecidableEq

/-- `REDIS_REPL_WAIT_BGSAVE_START` and the states that follow it. -/
inductive ReplState where
  | waitBgsaveStart
  | waitBgsaveEnd
  | sendBulk
  | online
  deriving DecidableEq

/-- A client that is a replica.  `written` is what the socket has taken of its output
buffer; `fullresync` is the offset of the `+FULLRESYNC` line that it was sent, `since`
the length of the stream when its differences began to be recorded, and `rdb` the
process that made the RDB that it was or is being sent. -/
structure Client where
  id : Nat
  replstate : ReplState
  closeAfterReply : Bool
  prePsync : Bool
  replPutOnlineOnAck : Bool
  replAckTime : Int
  lastinteraction : Int
  reply : Bytes
  written : Bytes
  fullresync : Option Int
  since : Nat
  rdb : Option Nat
  deriving DecidableEq

/-- All that was ever queued. -/
def Client.queued (c : Client) : Bytes := c.written ++ c.reply

/-- The bytes of an object, as `ll2string` writes an integer. -/
def Robj.bytes : Robj → Bytes
  | .raw s => s
  | .int n => ll2string n.toInt

def stringObjectLen (o : Robj) : Nat := o.bytes.length

def crlf : Bytes := [13, 10]

/-! ## Replies -/

def REDIS_SHARED_BULKHDR_LEN : Nat := 32

def REDIS_SHARED_SELECT_CMDS : Int := 10

/-- `shared.mbulkhdr` and `shared.bulkhdr`, which `createSharedObjects` prints with `%d`. -/
def sharedHdr (c : UInt8) (n : Nat) : Bytes := c :: (decimal n ++ crlf)

/-- `addReplyString`; a client that is closed after its reply takes nothing more. -/
def addReplyString (s : Bytes) (c : Client) : Client :=
  if c.closeAfterReply then c else { c with reply := c.reply ++ s }

def addReply (o : Robj) (c : Client) : Client := addReplyString o.bytes c

/-- The bytes that `addReplyLongLongWithPrefix` adds for a prefix `*` or `$`. -/
def longLongWithPrefix (ll : Nat) (pre : UInt8) : Bytes :=
  if ll < REDIS_SHARED_BULKHDR_LEN then sharedHdr pre ll else pre :: (ll2string ll ++ crlf)

def addReplyMultiBulkLen (length : Nat) (c : Client) : Client :=
  if length < REDIS_SHARED_BULKHDR_LEN then addReply (.raw (sharedHdr 42 length)) c
  else addReplyString (longLongWithPrefix length 42) c

/-- The loop of `addReplyBulkLen` that counts the digits of a number of `fuel` digits
at most. -/
def digitsLoop : Nat → Int64 → Nat → Nat
  | 0, _, len => len
  | fuel + 1, n, len =>
    let n := n / 10
    if n ≠ 0 then digitsLoop fuel n (len + 1) else len

/-- The length that `addReplyBulkLen` announces. -/
def bulkLen : Robj → Nat
  | .raw s => s.length
  | .int n =>
    let len := 1
    let (len, n) := if n < 0 then (len + 1, -n) else (len, n)
    digitsLoop 19 n len

def addReplyBulkLen (o : Robj) (c : Client) : Client :=
  if bulkLen o < REDIS_SHARED_BULKHDR_LEN then addReply (.raw (sharedHdr 36 (bulkLen o))) c
  else addReplyString (longLongWithPrefix (bulkLen o) 36) c

def addReplyBulk (o : Robj) (c : Client) : Client :=
  addReply (.raw crlf) (addReply o (addReplyBulkLen o c))

/-! ## Feeding the replicas -/

/-- The part of the server that is concerned with its replicas.  `stream` is all that
has ever been appended to a backlog, one place for each offset. -/
structure Master where
  backlog : Backlog
  stream : List (Option UInt8)
  slaves : List Client
  slaveseldb : Int

/-- `feedReplicationBacklog`, recording the bytes in the stream. -/
def Master.feed (p : Bytes) (m : Master) : Option Master := do
  let backlog ← feedReplicationBacklog p m.backlog
  pure { m with backlog, stream := m.stream ++ p.map some }

def feedReplicationBacklogWithObject (o : Robj) (m : Master) : Option Master := m.feed o.bytes

/-- `*2\r\n$6\r\nSELECT\r\n$%d\r\n%s\r\n`, in `createSharedObjects` and in
`replicationFeedSlaves`. -/
def selectCmd (dictid : Int) : Bytes :=
  [42, 50, 13, 10, 36, 54, 13, 10, 83, 69, 76, 69, 67, 84, 13, 10, 36] ++
    decimal (ll2string dictid).length ++ crlf ++ ll2string dictid ++ crlf

def sharedSelect (j : Int) : Robj := .raw (selectCmd j)

/-- The `SELECT` part of `replicationFeedSlaves`. -/
def feedSelect (dictid : Int) (m : Master) : Option Master :=
  if m.slaveseldb ≠ dictid then do
    let selectcmd :=
      if dictid ≥ 0 ∧ dictid < REDIS_SHARED_SELECT_CMDS then sharedSelect dictid
      else .raw (selectCmd dictid)
    let m ← if m.backlog.replBacklog.isSome then feedReplicationBacklogWithObject selectcmd m
      else some m
    pure { m with slaves := m.slaves.map (addReply selectcmd) }
  else some m

/-- One argument in the backlog: `$..CRLF` of its length, the object, and the CRLF. -/
def feedBulk (o : Robj) (m : Master) : Option Master := do
  let hdr := ll2string (stringObjectLen o)
  let m ← m.feed (36 :: (hdr ++ crlf))
  let m ← feedReplicationBacklogWithObject o m
  m.feed crlf

/-- The command in the backlog. -/
def feedCommand (argv : List Robj) (m : Master) : Option Master := do
  let m ← m.feed (42 :: (ll2string argv.length ++ crlf))
  argv.foldlM (fun m o => feedBulk o m) m

/-- The command in the output buffer of a replica. -/
def feedSlave (argv : List Robj) (c : Client) : Client :=
  if c.replstate = .waitBgsaveStart then c
  else argv.foldl (fun c o => addReplyBulk o c) (addReplyMultiBulkLen argv.length c)

/-- `replicationFeedSlaves`; `none` is the failed assertion. -/
def replicationFeedSlaves (dictid : Int) (argv : List Robj) (m : Master) : Option Master := do
  if m.backlog.replBacklog.isNone ∧ m.slaves = [] then return m
  guard (¬ (m.slaves ≠ [] ∧ m.backlog.replBacklog.isNone))
  let m ← feedSelect dictid m
  let m := { m with slaveseldb := dictid }
  let m ← if m.backlog.replBacklog.isSome then feedCommand argv m else some m
  return { m with slaves := m.slaves.map (feedSlave argv) }

/-! ## The two encoders agree -/

theorem length_decimal_of_lt {n : Nat} (h : n < 10) : (decimal n).length = 1 := by
  rw [decimal_of_lt h, length_singleton]

theorem length_decimal_of_ge {n : Nat} (h : 10 ≤ n) :
    (decimal n).length = (decimal (n / 10)).length + 1 := by
  have hsplit : n = n / 10 * 10 + n % 10 := by omega
  conv_lhs => rw [hsplit]
  rw [decimal_append (by omega) (by omega), length_append, length_singleton]

theorem natAbs_toInt_neg (n : Int64) : (-n).toInt.natAbs = n.toInt.natAbs := by
  have hlo := n.le_toInt
  have hhi := n.toInt_lt
  rw [Int64.toInt_neg]
  by_cases h : n.toInt = -2 ^ 63
  · rw [h]
    rfl
  · rw [Int.bmod_eq_of_le (by omega) (by omega), Int.natAbs_neg]

theorem natAbs_toInt_div (n : Int64) : (n / 10).toInt.natAbs = n.toInt.natAbs / 10 := by
  rw [Int64.toInt_div_of_ne_right _ _ (by decide), show (10 : Int64).toInt = 10 from rfl,
    Int.natAbs_tdiv]
  rfl

theorem digitsLoop_eq {fuel len : Nat} {n : Int64} (h : n.toInt.natAbs < 10 ^ (fuel + 1)) :
    digitsLoop fuel n len + 1 = len + (decimal n.toInt.natAbs).length := by
  induction fuel generalizing n len with
  | zero => rw [digitsLoop, length_decimal_of_lt (by simpa using h)]
  | succ fuel ih =>
    have hdiv := natAbs_toInt_div n
    have hzero : n / 10 = 0 ↔ n.toInt.natAbs < 10 := by
      rw [← Int64.toInt_inj, show (0 : Int64).toInt = 0 from rfl]
      omega
    simp only [digitsLoop]
    split
    next hne =>
      rw [Ne, hzero] at hne
      rw [Nat.pow_succ] at h
      rw [ih (by omega), hdiv, length_decimal_of_ge (n := n.toInt.natAbs) (by omega)]
      omega
    next heq =>
      rw [not_not, hzero] at heq
      rw [length_decimal_of_lt heq]

/-- The digits that `addReplyBulkLen` counts are those that `ll2string` writes. -/
theorem bulkLen_eq (o : Robj) : bulkLen o = stringObjectLen o := by
  cases o with
  | raw s => rfl
  | int n =>
    have hlo := n.le_toInt
    have hhi := n.toInt_lt
    have hneg : n < 0 ↔ n.toInt < 0 := Int64.lt_iff_toInt_lt
    have hloop := fun len (k : Int64) (hk : k.toInt.natAbs = n.toInt.natAbs) =>
      @digitsLoop_eq 19 len k (by omega)
    rw [stringObjectLen, Robj.bytes, ll2string_eq hlo hhi, bulkLen]
    by_cases h : n.toInt < 0
    · have := hloop (1 + 1) (-n) (natAbs_toInt_neg n)
      rw [natAbs_toInt_neg] at this
      simp only [hneg, h, if_true, length_cons]
      omega
    · have := hloop 1 n rfl
      simp only [hneg, h, if_false]
      omega

theorem longLongWithPrefix_eq (n : Nat) (pre : UInt8) :
    longLongWithPrefix n pre = pre :: (ll2string n ++ crlf) := by
  rw [longLongWithPrefix]
  split
  next h =>
    have h32 : n < 32 := h
    rw [sharedHdr, ll2string_eq (by omega) (by omega), if_neg (by omega), Int.natAbs_natCast]
  next => rfl

/-- An argument as a bulk string. -/
def bulk (o : Robj) : Bytes :=
  36 :: (ll2string (stringObjectLen o) ++ crlf) ++ (o.bytes ++ crlf)

/-- A command as a multi bulk request. -/
def command (argv : List Robj) : Bytes :=
  42 :: (ll2string argv.length ++ crlf) ++ argv.flatMap bulk

variable {dictid : Int} (s : Bytes) (argv : List Robj) (c : Client)

@[simp] theorem addReplyString_addReplyString (t : Bytes) (c : Client) :
    addReplyString t (addReplyString s c) = addReplyString (s ++ t) c := by
  by_cases h : c.closeAfterReply <;> simp [addReplyString, h]

theorem addReplyMultiBulkLen_eq (length : Nat) (c : Client) :
    addReplyMultiBulkLen length c = addReplyString (42 :: (ll2string length ++ crlf)) c := by
  rw [addReplyMultiBulkLen, ← longLongWithPrefix_eq]
  split
  next h => rw [longLongWithPrefix, if_pos h]; rfl
  next => rfl

theorem addReplyBulk_eq (o : Robj) (c : Client) : addReplyBulk o c = addReplyString (bulk o) c := by
  have hlen : addReplyBulkLen o c =
      addReplyString (36 :: (ll2string (stringObjectLen o) ++ crlf)) c := by
    rw [addReplyBulkLen, bulkLen_eq, ← longLongWithPrefix_eq]
    split
    next h => rw [longLongWithPrefix, if_pos h]; rfl
    next => rfl
  rw [addReplyBulk, hlen]
  simp [addReply, Robj.bytes, bulk]

theorem foldl_addReplyBulk :
    argv.foldl (fun c o => addReplyBulk o c) c = addReplyString (argv.flatMap bulk) c := by
  induction argv generalizing c with
  | nil => simp [addReplyString]
  | cons o argv ih =>
    rw [foldl_cons, ih, addReplyBulk_eq]
    simp

theorem feedSlave_eq :
    feedSlave argv c =
      if c.replstate = .waitBgsaveStart then c else addReplyString (command argv) c := by
  rw [feedSlave, foldl_addReplyBulk, addReplyMultiBulkLen_eq, addReplyString_addReplyString,
    command]

/-! ## What a call does -/

/-- The backlog holds the end of the stream, and exists while there are replicas. -/
structure Master.Wf (m : Master) : Prop where
  inv : m.backlog.Inv m.stream
  backlog : m.slaves ≠ [] → m.backlog.replBacklog.isSome

/-- `m'` is `m` with `p` appended to the backlog. -/
structure Master.Fed (p : Bytes) (m m' : Master) : Prop where
  inv : m'.backlog.Inv m'.stream
  isSome : m'.backlog.replBacklog.isSome
  stream : m'.stream = m.stream ++ p.map some
  offset : m'.backlog.masterReplOffset = m.backlog.masterReplOffset + p.length
  slaves : m'.slaves = m.slaves
  slaveseldb : m'.slaveseldb = m.slaveseldb

variable {m m' m'' : Master} {p q : Bytes}

theorem Master.Fed.refl (h : m.backlog.Inv m.stream) (hb : m.backlog.replBacklog.isSome) :
    Master.Fed [] m m where
  inv := h
  isSome := hb
  stream := by simp
  offset := rfl
  slaves := rfl
  slaveseldb := rfl

theorem Master.Fed.trans (h : Fed p m m') (h' : Fed q m' m'') : Fed (p ++ q) m m'' where
  inv := h'.inv
  isSome := h'.isSome
  stream := by simp [h'.stream, h.stream]
  offset := by
    rw [h'.offset, h.offset, length_append]
    omega
  slaves := by rw [h'.slaves, h.slaves]
  slaveseldb := by rw [h'.slaveseldb, h.slaveseldb]

theorem Master.feed_spec (h : m.backlog.Inv m.stream) (hb : m.backlog.replBacklog.isSome)
    (p : Bytes) : ∃ m', m.feed p = some m' ∧ Fed p m m' := by
  obtain ⟨buf, hbuf⟩ := Option.isSome_iff_exists.mp hb
  obtain ⟨b', heq, hinv, hoff, hsome, -⟩ := feedReplicationBacklog_spec h hbuf p
  exact ⟨{ m with backlog := b', stream := m.stream ++ p.map some }, by simp [Master.feed, heq],
    hinv, hsome, rfl, hoff, rfl, rfl⟩

theorem feedBulk_spec (h : m.backlog.Inv m.stream) (hb : m.backlog.replBacklog.isSome)
    (o : Robj) : ∃ m', feedBulk o m = some m' ∧ m.Fed (bulk o) m' := by
  obtain ⟨m₁, h₁, f₁⟩ := Master.feed_spec h hb (36 :: (ll2string (stringObjectLen o) ++ crlf))
  obtain ⟨m₂, h₂, f₂⟩ := Master.feed_spec f₁.inv f₁.isSome o.bytes
  obtain ⟨m₃, h₃, f₃⟩ := Master.feed_spec f₂.inv f₂.isSome crlf
  refine ⟨m₃, ?_, f₁.trans (f₂.trans f₃)⟩
  simp [feedBulk, h₁, feedReplicationBacklogWithObject, h₂, h₃]

theorem feedCommand_spec (h : m.backlog.Inv m.stream) (hb : m.backlog.replBacklog.isSome)
    (argv : List Robj) : ∃ m', feedCommand argv m = some m' ∧ m.Fed (command argv) m' := by
  have hargs : ∀ (argv : List Robj) (m : Master), m.backlog.Inv m.stream →
      m.backlog.replBacklog.isSome →
      ∃ m', argv.foldlM (fun m o => feedBulk o m) m = some m' ∧ m.Fed (argv.flatMap bulk) m' := by
    intro argv
    induction argv with
    | nil => exact fun m h hb => ⟨m, rfl, .refl h hb⟩
    | cons o argv ih =>
      intro m h hb
      obtain ⟨m₁, h₁, f₁⟩ := feedBulk_spec h hb o
      obtain ⟨m₂, h₂, f₂⟩ := ih m₁ f₁.inv f₁.isSome
      exact ⟨m₂, by simp [foldlM_cons, h₁, h₂], f₁.trans f₂⟩
  obtain ⟨m₁, h₁, f₁⟩ := Master.feed_spec h hb (42 :: (ll2string argv.length ++ crlf))
  obtain ⟨m₂, h₂, f₂⟩ := hargs argv m₁ f₁.inv f₁.isSome
  exact ⟨m₂, by simp [feedCommand, h₁, h₂], f₁.trans f₂⟩

/-- The `SELECT` that a call emits. -/
def selectBytes (m : Master) (dictid : Int) : Bytes :=
  if m.slaveseldb ≠ dictid then selectCmd dictid else []

/-- The bytes that a call appends to the backlog. -/
def callBytes (m : Master) (dictid : Int) (argv : List Robj) : Bytes :=
  selectBytes m dictid ++ command argv

/-- What a call queues to a replica: the `SELECT` in any state, the command only from
`WAIT_BGSAVE_END` on. -/
def callClient (m : Master) (dictid : Int) (argv : List Robj) (c : Client) : Client :=
  addReplyString (selectBytes m dictid ++
    if c.replstate = .waitBgsaveStart then [] else command argv) c

@[simp] theorem addReplyString_nil : addReplyString [] c = c := by
  simp [addReplyString]

@[simp] theorem addReplyString_replstate : (addReplyString s c).replstate = c.replstate := by
  by_cases h : c.closeAfterReply <;> simp [addReplyString, h]

theorem feedSelect_spec (h : m.backlog.Inv m.stream) (hb : m.backlog.replBacklog.isSome)
    (dictid : Int) :
    ∃ m', feedSelect dictid m =
        some { m' with slaves := m.slaves.map (addReplyString (selectBytes m dictid)) } ∧
      m.Fed (selectBytes m dictid) m' := by
  rw [feedSelect, selectBytes]
  split
  next hne =>
    obtain ⟨m', h', f'⟩ := Master.feed_spec h hb (selectCmd dictid)
    refine ⟨m', ?_, f'⟩
    have hcmd : (if dictid ≥ 0 ∧ dictid < REDIS_SHARED_SELECT_CMDS then sharedSelect dictid
        else .raw (selectCmd dictid)) = Robj.raw (selectCmd dictid) := by
      split <;> rfl
    have hfun : addReply (.raw (selectCmd dictid)) = addReplyString (selectCmd dictid) := rfl
    simp [hcmd, feedReplicationBacklogWithObject, Robj.bytes, h', f'.slaves, hfun]
  next =>
    have hid : addReplyString [] = id := funext addReplyString_nil
    exact ⟨m, by rw [hid, map_id], .refl h hb⟩

/-- A call is a no-op without a backlog, and otherwise feeds backlog and replicas. -/
theorem replicationFeedSlaves_spec (h : m.Wf) (dictid : Int) (argv : List Robj) :
    (m.backlog.replBacklog.isNone ∧ m.slaves = [] ∧ replicationFeedSlaves dictid argv m = some m) ∨
    (m.backlog.replBacklog.isSome ∧ ∃ m', replicationFeedSlaves dictid argv m = some m' ∧
      m'.backlog.Inv m'.stream ∧ m'.backlog.replBacklog.isSome ∧
      m'.stream = m.stream ++ (callBytes m dictid argv).map some ∧
      m'.backlog.masterReplOffset = m.backlog.masterReplOffset + (callBytes m dictid argv).length ∧
      m'.slaveseldb = dictid ∧ m'.slaves = m.slaves.map (callClient m dictid argv)) := by
  cases hb : m.backlog.replBacklog with
  | none =>
    have hs : m.slaves = [] := by
      by_contra hne
      simpa [hb] using h.backlog hne
    exact .inl ⟨rfl, hs, by simp [replicationFeedSlaves, hb, hs]⟩
  | some buf =>
    have hsome : m.backlog.replBacklog.isSome := by simp [hb]
    obtain ⟨m₁, h₁, f₁⟩ := feedSelect_spec h.inv hsome dictid
    obtain ⟨m₂, h₂, f₂⟩ := feedCommand_spec (m := { m₁ with
      slaves := m.slaves.map (addReplyString (selectBytes m dictid))
      slaveseldb := dictid }) f₁.inv f₁.isSome argv
    refine .inr ⟨rfl, { m₂ with slaves := m₂.slaves.map (feedSlave argv) }, ?_, f₂.inv,
      f₂.isSome, ?_, ?_, f₂.slaveseldb, ?_⟩
    · simp [replicationFeedSlaves, hb, h₁, f₁.isSome, h₂, guard]
    · simp [f₂.stream, f₁.stream, callBytes]
    · rw [f₂.offset]
      simp [f₁.offset, callBytes]
      omega
    · rw [f₂.slaves, map_map]
      apply map_congr_left
      intro c _
      simp only [Function.comp, feedSlave_eq, addReplyString_replstate, callClient]
      split <;> simp

/-! ## One stream for all -/

/-- Backlog and replicas are extended by the same bytes, and replicas that wait for a
BGSAVE to start by none. -/
def OneStream (m m' : Master) : Prop :=
  ∃ bytes : Bytes, m'.stream = m.stream ++ bytes.map some ∧
    m'.backlog.masterReplOffset = m.backlog.masterReplOffset + bytes.length ∧
    Forall₂ (fun c c' : Client =>
      c'.queued = c.queued ++ if c.replstate = .waitBgsaveStart then [] else bytes)
      m.slaves m'.slaves

/-- The condition on a call: no replica past `WAIT_BGSAVE_START` is being closed, and
where a `SELECT` is due all that are still in that state are. -/
def Calm (m : Master) (dictid : Int) : Prop :=
  (∀ c ∈ m.slaves, c.replstate ≠ .waitBgsaveStart → c.closeAfterReply = false) ∧
    (m.slaveseldb = dictid ∨
      ∀ c ∈ m.slaves, c.replstate = .waitBgsaveStart → c.closeAfterReply = true)

/-- A run of calls.  Between the calls the backlog may be created, freed or resized,
replicas come and go and change their state, and `SYNC` resets `slaveseldb`; the trace
has the calls with the states around them. -/
inductive FeedRun : Master → List (Master × Int × List Robj × Master) → Prop
  | init : FeedRun ⟨Backlog.init, [], [], -1⟩ []
  | call {m m' : Master} {trace : List (Master × Int × List Robj × Master)} (dictid : Int)
      (argv : List Robj) : FeedRun m trace → replicationFeedSlaves dictid argv m = some m' →
      FeedRun m' ((m, dictid, argv, m') :: trace)
  | backlog {m : Master} {b : Backlog} {trace : List (Master × Int × List Robj × Master)}
      (op : BacklogOp) : FeedRun m trace → m.backlog.step op = some b →
      (m.slaves ≠ [] → b.replBacklog.isSome) →
      FeedRun { m with backlog := b, stream := m.stream ++ op.bytes } trace
  | slaves {m : Master} {trace : List (Master × Int × List Robj × Master)}
      (slaves : List Client) (slaveseldb : Int) : FeedRun m trace →
      (slaves ≠ [] → m.backlog.replBacklog.isSome) →
      FeedRun { m with slaves, slaveseldb } trace

theorem queued_addReplyString :
    (addReplyString s c).queued = c.queued ++ if c.closeAfterReply then [] else s := by
  by_cases h : c.closeAfterReply <;> simp [addReplyString, Client.queued, h]

theorem command_ne_nil : command argv ≠ [] := by simp [command]

theorem selectBytes_eq_nil : selectBytes m dictid = [] ↔ m.slaveseldb = dictid := by
  rw [selectBytes]
  split <;> simp_all [selectCmd]

/-- A replica gets what the backlog gets exactly when the condition holds of it. -/
theorem queued_callClient {argv : List Robj} :
    (callClient m dictid argv c).queued =
        c.queued ++ (if c.replstate = .waitBgsaveStart then [] else callBytes m dictid argv) ↔
      (c.replstate ≠ .waitBgsaveStart → c.closeAfterReply = false) ∧
        (m.slaveseldb = dictid ∨ (c.replstate = .waitBgsaveStart → c.closeAfterReply = true)) := by
  have hne := command_ne_nil argv
  rw [callClient, queued_addReplyString, append_cancel_left_eq, callBytes,
    ← selectBytes_eq_nil]
  by_cases hs : c.replstate = .waitBgsaveStart <;> by_cases hc : c.closeAfterReply <;>
    simp [hs, hc, hne]

/-- One call extends all sinks by one string of bytes if and only if it is calm. -/
theorem oneStream_iff (h : m.Wf) {argv : List Robj}
    (hcall : replicationFeedSlaves dictid argv m = some m') : OneStream m m' ↔ Calm m dictid := by
  obtain ⟨-, hs, heq⟩ | ⟨-, m'', heq, -, -, hstream, hoff, -, hslaves⟩ :=
    replicationFeedSlaves_spec h dictid argv
  · obtain rfl := Option.some.inj (heq.symm.trans hcall)
    simp [OneStream, Calm, hs]
  · obtain rfl := Option.some.inj (heq.symm.trans hcall)
    have hbytes : OneStream m m'' ↔ Forall₂ (fun c c' : Client =>
        c'.queued = c.queued ++
          if c.replstate = .waitBgsaveStart then [] else callBytes m dictid argv)
        m.slaves m''.slaves := by
      refine ⟨?_, fun hall => ⟨_, hstream, hoff, hall⟩⟩
      rintro ⟨bytes, hstream', -, hall⟩
      rw [hstream, append_cancel_left_eq] at hstream'
      rwa [map_injective_iff.mpr (Option.some_injective _) hstream']
    rw [hbytes, hslaves, forall₂_map_right_iff, forall₂_same, Calm]
    simp only [queued_callClient]
    constructor
    · intro hall
      refine ⟨fun c hc => (hall c hc).1, ?_⟩
      by_cases hsel : m.slaveseldb = dictid
      · exact .inl hsel
      · exact .inr fun c hc => ((hall c hc).2).resolve_left hsel
    · exact fun ⟨h₁, h₂⟩ c hc => ⟨h₁ c hc, h₂.imp_right fun h => h c hc⟩

theorem Master.Wf.call (h : m.Wf) {argv : List Robj}
    (hcall : replicationFeedSlaves dictid argv m = some m') : m'.Wf := by
  obtain ⟨-, -, heq⟩ | ⟨-, m'', heq, hinv, hsome, -⟩ := replicationFeedSlaves_spec h dictid argv
  · obtain rfl := Option.some.inj (heq.symm.trans hcall)
    exact h
  · obtain rfl := Option.some.inj (heq.symm.trans hcall)
    exact ⟨hinv, fun _ => hsome⟩

theorem FeedRun.wf {trace : List (Master × Int × List Robj × Master)} (h : FeedRun m trace) :
    m.Wf ∧ ∀ x ∈ trace, x.1.Wf ∧ replicationFeedSlaves x.2.1 x.2.2.1 x.1 = some x.2.2.2 := by
  induction h with
  | init => exact ⟨⟨⟨rfl, by decide, by simp [Backlog.init]⟩, by simp⟩, by simp⟩
  | call dictid argv _ hcall ih =>
    exact ⟨ih.1.call hcall, forall_mem_cons.mpr ⟨⟨ih.1, hcall⟩, ih.2⟩⟩
  | backlog op _ hstep hb ih => exact ⟨⟨ih.1.inv.step hstep, hb⟩, ih.2⟩
  | slaves slaves slaveseldb _ hb ih => exact ⟨⟨ih.1.inv, hb⟩, ih.2⟩

/-- A replica that has just asked for a full resynchronisation. -/
def Client.waiting : Client where
  id := 1
  replstate := .waitBgsaveStart
  closeAfterReply := false
  prePsync := false
  replPutOnlineOnAck := false
  replAckTime := 0
  lastinteraction := 0
  reply := []
  written := []
  fullresync := none
  since := 0
  rdb := none

/-- A run with one call, of `PING` in database 0, while a replica waits for a BGSAVE. -/
theorem feedRun_waiting : ∃ m m' trace, m.slaves = [Client.waiting] ∧ m.slaveseldb = -1 ∧
    FeedRun m' ((m, 0, [.raw [80, 73, 78, 71]], m') :: trace) := by
  obtain ⟨b, hb⟩ : ∃ b, Backlog.init.step (.create fun _ => 0) = some b := ⟨_, rfl⟩
  have hsome : b.replBacklog.isSome := by
    obtain rfl := Option.some.inj hb
    rfl
  have h₁ := FeedRun.init.backlog _ hb (by simp)
  have h₂ := h₁.slaves [Client.waiting] (-1) fun _ => hsome
  obtain ⟨hnone, -⟩ | ⟨-, m', hcall, -⟩ :=
    replicationFeedSlaves_spec h₂.wf.1 0 [.raw [80, 73, 78, 71]]
  · simp [Option.isSome_iff_ne_none] at hsome hnone
    exact absurd hnone hsome
  · exact ⟨_, m', _, rfl, rfl, h₂.call _ _ hcall⟩

/-- In every run, the calls that extend backlog and replicas by one string of bytes are
the calm ones. -/
theorem sinks_agree_iff {trace : List (Master × Int × List Robj × Master)}
    (h : FeedRun m trace) :
    ∀ x ∈ trace, (OneStream x.1 x.2.2.2 ↔ Calm x.1 x.2.1) := by
  intro x hx
  obtain ⟨hwf, hcall⟩ := h.wf.2 x hx
  exact oneStream_iff hwf hcall

theorem sinks_agree_iff_waiting : ∃ m m', ¬ Calm m 0 ∧ ¬ OneStream m m' := by
  obtain ⟨m, m', trace, hs, hsel, h⟩ := feedRun_waiting
  have hcalm : ¬ Calm m 0 := by simp [Calm, hs, hsel, Client.waiting]
  exact ⟨m, m', hcalm, (sinks_agree_iff h _ (.head _)).not.mpr hcalm⟩

/-- A replica that waits for a BGSAVE to start is queued the `SELECT`. -/
theorem select_to_waiting : ¬ ∀ m trace, FeedRun m trace → ∀ x ∈ trace, OneStream x.1 x.2.2.2 := by
  intro hall
  obtain ⟨m, m', trace, hs, hsel, h⟩ := feedRun_waiting
  have hone := hall _ _ h _ (.head _)
  have hx := h.wf.2 _ (.head _)
  have hcalm := (oneStream_iff hx.1 hx.2).mp hone
  simp [Calm, hs, hsel, Client.waiting] at hcalm

end Redis.Replication
