import Redis.Replication.Query

/-!
# Redis.Replication.Resume

The replica's end of the link to its master.  When the link is lost the client that
stands for the master is cached with all of its state, and a partial resynchronisation
revives it on another socket.

The master's commands are a stream of bytes, `readQueryFromClient` reads it in pieces,
and a connection that was resumed delivers the stream from the offset on that the
replica has asked for.
-/

namespace Redis.Replication

open List

variable {κ δ : Type}

/-! ## The link -/

/-- The client of a replica that stands for its master. -/
structure MasterClient (κ : Type) extends Sender κ where
  fd : Int
  reploff : Int
  replrunid : Bytes
  closeAsap : Bool
  unblocked : Bool
  authenticated : Bool
  lastinteraction : Int

/-- The part of a replica that is concerned with its master; `data` is all that commands
read and change outside of the client. -/
structure Replica (κ δ : Type) where
  master : Option (MasterClient κ)
  cachedMaster : Option (MasterClient κ)
  connected : Bool
  unixtime : Int
  data : δ

def replicationHandleMasterDisconnection (r : Replica κ δ) : Replica κ δ :=
  { r with master := none, connected := false }

/-- `replicationCacheMaster`; `none` is the failed assertion. -/
def replicationCacheMaster (c : MasterClient κ) (r : Replica κ δ) : Option (Replica κ δ) :=
  if r.cachedMaster.isNone then
    some (replicationHandleMasterDisconnection { r with cachedMaster := some { c with fd := -1 } })
  else none

/-- `freeClient` of the master. -/
def freeMaster (r : Replica κ δ) : Option (Replica κ δ) := do
  let c ← r.master
  if !(c.closeAfterReply || c.closeAsap || c.blocked || c.unblocked) then
    replicationCacheMaster c r
  else pure (replicationHandleMasterDisconnection r)

def replicationDiscardCachedMaster (r : Replica κ δ) : Replica κ δ :=
  { r with cachedMaster := none }

/-- `replicationResurrectCachedMaster`, when the event handlers can be installed. -/
def replicationResurrectCachedMaster (newfd : Int) (r : Replica κ δ) : Replica κ δ :=
  { r with
    master := r.cachedMaster.map fun c =>
      { c with
        fd := newfd
        closeAfterReply := false
        closeAsap := false
        authenticated := true
        lastinteraction := r.unixtime }
    cachedMaster := none
    connected := true }

/-- The run id and the offset that `slaveTryPartialResynchronization` asks for. -/
def psyncRequest (r : Replica κ δ) : Bytes × Int :=
  match r.cachedMaster with
  | some c => (c.replrunid, c.reploff + 1)
  | none => ([63], -1)

/-- What `slaveTryPartialResynchronization` does with the answer: `+CONTINUE`, or any
other one. -/
def slaveTryPartialResynchronization (newfd : Int) (accepted : Bool) (r : Replica κ δ) :
    Replica κ δ :=
  if accepted then replicationResurrectCachedMaster newfd r else replicationDiscardCachedMaster r

section

variable (processCommand : List Bytes → κ → δ → κ × δ)

/-- `readQueryFromClient` when the socket of the master delivers `bytes`. -/
def readQueryFromClient (bytes : Bytes) (r : Replica κ δ) : Option (Replica κ δ) := do
  let c ← r.master
  let c := { c with
    query := { c.query with querybuf := c.query.querybuf ++ bytes }
    lastinteraction := r.unixtime
    reploff := c.reploff + bytes.length }
  let r := { r with master := some c }
  if c.query.querybuf.length > REDIS_MAX_QUERYBUF_LEN then freeMaster r
  else
    let (s, data) ← processInputBuffer processCommand c.query.querybuf.length c.toSender r.data
    pure { r with master := some { c with toSender := s }, data }

/-- A replica, the position in the stream from which on its connection delivers, and the
number of bytes that it has received. -/
structure Link (κ δ : Type) where
  replica : Replica κ δ
  cursor : Nat
  received : Nat

/-- What happens to the link, for the stream that the master sends behind the offset
`initial`: reads of any size up to the one that is asked for, losses, and partial
resynchronisations. -/
inductive Link.Step (stream : Bytes) (initial : Int) : Link κ δ → Link κ δ → Prop
  | read {l : Link κ δ} {c : MasterClient κ} {r : Replica κ δ} (n : Nat) :
      l.replica.master = some c → 0 < n → n ≤ readlen c.query → l.cursor + n ≤ stream.length →
      readQueryFromClient processCommand ((stream.drop l.cursor).take n) l.replica = some r →
      Step stream initial l ⟨r, l.cursor + n, l.received + n⟩
  | lose {l : Link κ δ} {r : Replica κ δ} : freeMaster l.replica = some r →
      Step stream initial l { l with replica := r }
  | resume {l : Link κ δ} (newfd : Int) : l.replica.master = none →
      Step stream initial l
        { l with
          replica := slaveTryPartialResynchronization newfd true l.replica
          cursor := ((psyncRequest l.replica).2 - initial - 1).toNat }
  | tick {l : Link κ δ} (unixtime : Int) :
      Step stream initial l { l with replica := { l.replica with unixtime } }

/-- The client that `readSyncBulkPayload` creates behind a full resynchronisation. -/
def MasterClient.fresh (fd initial : Int) (runid : Bytes) (unixtime : Int) (ctx : κ) :
    MasterClient κ where
  query := ⟨[], none, 0, none, []⟩
  closeAfterReply := false
  blocked := false
  ctx
  fd
  reploff := initial
  replrunid := runid
  closeAsap := false
  unblocked := false
  authenticated := true
  lastinteraction := unixtime

/-- The links that are reached behind a full resynchronisation. -/
inductive Link.Reachable (stream : Bytes) (initial : Int) (ctx : κ) (data : δ) :
    Link κ δ → Prop
  | init (fd : Int) (runid : Bytes) (unixtime : Int) :
      Reachable stream initial ctx data
        ⟨⟨some (.fresh fd initial runid unixtime ctx), none, true, unixtime, data⟩, 0, 0⟩
  | step {l l' : Link κ δ} : Reachable stream initial ctx data l →
      Link.Step processCommand stream initial l l' → Reachable stream initial ctx data l'

end

/-! ## The commands that have been received -/

/-- The commands whose bytes are all among the first `n` of the stream. -/
def completed : List (List Bytes) → Nat → List (List Bytes)
  | [], _ => []
  | cmd :: cmds, n =>
    if (encode cmd).length ≤ n then cmd :: completed cmds (n - (encode cmd).length) else []

theorem completed_append {done rest : List (List Bytes)} {n : Nat}
    (hdone : (done.flatMap encode).length ≤ n)
    (hrest : ∀ cmd cmds, rest = cmd :: cmds →
      n < (done.flatMap encode).length + (encode cmd).length) :
    completed (done ++ rest) n = done := by
  induction done generalizing n with
  | nil =>
    cases rest with
    | nil => rfl
    | cons cmd cmds =>
      have := hrest cmd cmds rfl
      rw [nil_append, completed, if_neg (by simpa using this)]
  | cons c done ih =>
    rw [flatMap_cons, length_append] at hdone hrest
    rw [cons_append, completed, if_pos (by omega), ih (by omega)]
    intro cmd cmds hcons
    have := hrest cmd cmds hcons
    omega

theorem completed_all (cmds : List (List Bytes)) :
    completed cmds (cmds.flatMap encode).length = cmds := by
  simpa using @completed_append cmds [] _ le_rfl (by simp)

variable {q : Query} {future bytes : Bytes} {cmds done rest : List (List Bytes)}

theorem length_restBytes_le (bulklen : Option Nat) {argv todo : List Bytes}
    (h : WellFormed (argv ++ todo)) :
    (restBytes bulklen todo).length ≤ (encode (argv ++ todo)).length := by
  have hle : (restBytes bulklen todo).length ≤ (restBytes none todo).length := by
    cases todo with
    | nil => cases bulklen <;> simp [restBytes]
    | cons a todo =>
      cases bulklen with
      | none => exact le_rfl
      | some len =>
        simp only [restBytes, flatMap_cons, bulk_eq (h.length_le a (by simp)),
          length_append]
        omega
  rw [encode_eq h]
  simp only [restBytes, flatMap_append, length_append] at hle ⊢
  omega

/-- What is to come is no more than the commands that are left. -/
theorem Query.Pending.length_le (h : q.Pending future cmds)
    (hcmds : ∀ cmd ∈ cmds, WellFormed cmd) : future.length ≤ (cmds.flatMap encode).length := by
  cases h with
  | idle _ _ _ _ hbytes =>
    have := congrArg length hbytes
    rw [length_append] at this
    omega
  | reading _ _ _ _ hbytes =>
    have hlen := congrArg length hbytes
    have hle := length_restBytes_le q.bulklen (hcmds _ mem_cons_self)
    rw [length_append, length_append] at hlen
    rw [flatMap_cons, length_append]
    omega

/-- A parser that is stuck has executed the commands that are complete. -/
theorem Query.Stuck.completed_eq {stream : Bytes} {n : Nat}
    (h : q.Stuck (stream.drop n) rest) (hrest : ∀ cmd ∈ rest, WellFormed cmd)
    (hstream : stream = (done ++ rest).flatMap encode) (hn : n ≤ stream.length) :
    completed (done ++ rest) n = done := by
  have hlen := congrArg length hstream
  rw [flatMap_append, length_append] at hlen
  have hle := h.pending.length_le hrest
  rw [length_drop] at hle
  apply completed_append (by omega)
  rintro cmd cmds rfl
  have hnext := h.next cmd cmds rfl
  rw [length_drop] at hnext
  rw [flatMap_cons, length_append] at hlen
  omega

/-- A read of at most the length that was asked for. -/
theorem Query.Stuck.extend (h : q.Stuck (bytes ++ future) cmds)
    (hcmds : ∀ cmd ∈ cmds, WellFormed cmd) (hle : bytes.length ≤ readlen q) :
    Query.Pending { q with querybuf := q.querybuf ++ bytes } future cmds ∧
      (q.querybuf ++ bytes).length ≤ REDIS_MAX_QUERYBUF_LEN := by
  have hshort := h.short
  rw [Query.Short] at hshort
  rw [readlen] at hle
  cases h.pending with
  | idle hreq hlen hbulk hargv hbytes hsmall =>
    simp only [hbulk, REDIS_IOBUF_LEN] at hshort hle
    have hlength : (q.querybuf ++ bytes).length ≤ 16396 := by
      rw [length_append]
      omega
    refine ⟨.idle hreq hlen hbulk hargv (by simpa using hbytes) ?_, ?_⟩
    · exact hlength.trans (by decide)
    · exact hlength.trans (by decide)
  | reading htodo hreq hlen hbulk hbytes hfits =>
    suffices hfits' : Fits (q.querybuf ++ bytes) 0 q.bulklen ∧
        (q.querybuf ++ bytes).length ≤ REDIS_MAX_QUERYBUF_LEN from
      ⟨.reading htodo hreq hlen hbulk (by simpa using hbytes) hfits'.1, hfits'.2⟩
    have hpos := length_pos_iff.mpr htodo
    have hinline : REDIS_INLINE_MAX_SIZE = 65536 := rfl
    have hbigarg : REDIS_MBULK_BIG_ARG = 32768 := rfl
    have hmax : REDIS_MAX_QUERYBUF_LEN = 1073741824 := rfl
    have hiobuf : REDIS_IOBUF_LEN = 16384 := rfl
    rw [Fits, length_append]
    cases hb : q.bulklen with
    | none =>
      simp only [hb] at hshort hle
      exact ⟨.inl (by omega), by omega⟩
    | some len =>
      obtain ⟨a, todo', rfl, rfl⟩ := hbulk len hb
      have ha := (hcmds _ mem_cons_self).length_le a (by simp)
      simp only [hb] at hshort hle
      by_cases hbig : a.length ≥ REDIS_MBULK_BIG_ARG
      · rw [if_pos ⟨hreq, by omega, hbig⟩] at hle
        exact ⟨.inr ⟨rfl, a.length, rfl, hbig, by omega⟩, by omega⟩
      · rw [if_neg (by omega)] at hle
        exact ⟨.inl (by omega), by omega⟩

/-! ## The invariant -/

/-- The client that stands for the master, connected or cached. -/
def Replica.Holds (r : Replica κ δ) (c : MasterClient κ) : Prop :=
  r.master = some c ∧ r.cachedMaster = none ∨ r.master = none ∧ r.cachedMaster = some c

section

variable {processCommand : List Bytes → κ → δ → κ × δ} {stream : Bytes}
  {initial : Int} {l l' : Link κ δ} {ctx : κ} {data : δ}

/-- The invariant of a link: `done` has been executed and `rest` has not. -/
structure Link.Inv (processCommand : List Bytes → κ → δ → κ × δ) (stream : Bytes)
    (initial : Int) (start : κ × δ) (l : Link κ δ) (c : MasterClient κ)
    (done rest : List (List Bytes)) : Prop where
  holds : l.replica.Holds c
  reploff : c.reploff = initial + l.received
  received_le : l.received ≤ stream.length
  cursor : l.replica.master = some c → l.cursor = l.received
  stuck : c.query.Stuck (stream.drop l.received) rest
  flags : c.closeAfterReply = false ∧ c.closeAsap = false ∧ c.blocked = false ∧ c.unblocked = false
  state : (c.ctx, l.replica.data) = execAll processCommand done start

theorem execAll_append (xs ys : List (List Bytes)) (s : κ × δ) :
    execAll processCommand (xs ++ ys) s =
      execAll processCommand ys (execAll processCommand xs s) := by
  rw [execAll, foldl_append]
  rfl

variable {c : MasterClient κ}

/-- A read executes the commands that it completes. -/
theorem Link.Inv.read (hrest : ∀ cmd ∈ rest, WellFormed cmd)
    (h : l.Inv processCommand stream initial (ctx, data) c done rest)
    (hc : l.replica.master = some c) {n : Nat} (hn : n ≤ readlen c.query)
    (hle : l.cursor + n ≤ stream.length) :
    ∃ r c' done' rest', readQueryFromClient processCommand ((stream.drop l.cursor).take n)
        l.replica = some r ∧ rest = done' ++ rest' ∧
      Link.Inv processCommand stream initial (ctx, data) ⟨r, l.cursor + n, l.received + n⟩ c'
        (done ++ done') rest' := by
  have hcur := h.cursor hc
  rw [hcur] at hle ⊢
  obtain ⟨bytes, hbytes⟩ : ∃ bytes, (stream.drop l.received).take n = bytes := ⟨_, rfl⟩
  rw [hbytes]
  have hlen : bytes.length = n := by
    rw [← hbytes, length_take, length_drop]
    omega
  have hsplit : stream.drop l.received = bytes ++ stream.drop (l.received + n) := by
    rw [← hbytes, ← drop_drop, take_append_drop]
  have hstuck := h.stuck
  rw [hsplit] at hstuck
  obtain ⟨hpending, hmax⟩ := hstuck.extend hrest (by omega)
  obtain ⟨hclose, hasap, hblocked, hunblocked⟩ := h.flags
  obtain ⟨done', rest', q', hcmds, hstuck', hrun⟩ :=
    @processInputBuffer_spec _ _ κ δ processCommand (c.query.querybuf ++ bytes).length
      { c.toSender with query := { c.query with querybuf := c.query.querybuf ++ bytes } }
      l.replica.data hrest hpending hblocked hclose le_rfl
  have hread : ∃ r c', readQueryFromClient processCommand bytes l.replica = some r ∧
      r.master = some c' ∧ r.cachedMaster = l.replica.cachedMaster ∧ c'.query = q' ∧
      c'.reploff = c.reploff + n ∧
      (c'.ctx, r.data) = execAll processCommand done' (c.ctx, l.replica.data) ∧
      (c'.closeAfterReply = false ∧ c'.closeAsap = false ∧ c'.blocked = false ∧
        c'.unblocked = false) := by
    refine ⟨{ l.replica with
        master := some { c with
          query := q'
          ctx := (execAll processCommand done' (c.ctx, l.replica.data)).1
          lastinteraction := l.replica.unixtime
          reploff := c.reploff + bytes.length }
        data := (execAll processCommand done' (c.ctx, l.replica.data)).2 }, _, ?_, rfl, rfl, rfl, ?_,
      rfl, hclose, hasap, hblocked, hunblocked⟩
    · simp only [readQueryFromClient, hc, some_bind]
      rw [if_neg (by omega), hrun]
      rfl
    · simp [hlen]
  obtain ⟨r, c', hr, hm, hcached, hq, hoff, hstate, hflags⟩ := hread
  have hnone : l.replica.cachedMaster = none := by
    rcases h.holds with ⟨-, hnone⟩ | ⟨hm', -⟩
    · exact hnone
    · rw [hc] at hm'
      cases hm'
  refine ⟨r, c', done', rest', hr, hcmds, .inl ⟨hm, hcached.trans hnone⟩, ?_, hle, fun _ => rfl,
    hq ▸ hstuck', hflags, ?_⟩
  · rw [hoff, h.reploff]
    push_cast
    ring
  · rw [hstate, h.state, execAll_append]

/-- A loss caches the client, and a partial resynchronisation revives it. -/
theorem Link.Inv.lose (h : l.Inv processCommand stream initial (ctx, data) c done rest)
    {r : Replica κ δ} (hr : freeMaster l.replica = some r) :
    Link.Inv processCommand stream initial (ctx, data) { l with replica := r }
      { c with fd := -1 } done rest := by
  obtain ⟨hclose, hasap, hblocked, hunblocked⟩ := h.flags
  rcases h.holds with ⟨hm, hc⟩ | ⟨hm, -⟩
  · have hcache : freeMaster l.replica = replicationCacheMaster c l.replica := by
      simp [freeMaster, hm, hclose, hasap, hblocked, hunblocked]
    rw [hcache, replicationCacheMaster, if_pos (by simp [hc])] at hr
    obtain rfl := Option.some.inj hr
    exact ⟨.inr ⟨rfl, rfl⟩, h.reploff, h.received_le, by simp [replicationHandleMasterDisconnection],
      h.stuck, h.flags, h.state⟩
  · simp [freeMaster, hm] at hr

theorem Link.Inv.resume (h : l.Inv processCommand stream initial (ctx, data) c done rest)
    (hm : l.replica.master = none) (newfd : Int) :
    Link.Inv processCommand stream initial (ctx, data)
      { l with
        replica := slaveTryPartialResynchronization newfd true l.replica
        cursor := ((psyncRequest l.replica).2 - initial - 1).toNat }
      { c with
        fd := newfd
        closeAfterReply := false
        closeAsap := false
        authenticated := true
        lastinteraction := l.replica.unixtime } done rest := by
  obtain ⟨-, -, hblocked, hunblocked⟩ := h.flags
  have hc : l.replica.cachedMaster = some c := by
    rcases h.holds with ⟨hm', -⟩ | ⟨-, hc⟩
    · rw [hm] at hm'
      cases hm'
    · exact hc
  refine ⟨.inl ⟨?_, rfl⟩, h.reploff, h.received_le, fun _ => ?_, h.stuck,
    ⟨rfl, rfl, hblocked, hunblocked⟩, h.state⟩
  · simp [slaveTryPartialResynchronization, replicationResurrectCachedMaster, hc]
  · have := h.reploff
    simp only [psyncRequest, hc]
    omega

theorem Link.Reachable.inv {cmds : List (List Bytes)}
    (hcmds : ∀ cmd ∈ cmds, WellFormed cmd)
    (h : Link.Reachable processCommand (cmds.flatMap encode) initial ctx data l) :
    ∃ c done rest, cmds = done ++ rest ∧
      l.Inv processCommand (cmds.flatMap encode) initial (ctx, data) c done rest := by
  induction h with
  | init fd runid unixtime =>
    have hp : (MasterClient.fresh fd initial runid unixtime ctx).query.Pending
        (cmds.flatMap encode) cmds := .idle (by simp [MasterClient.fresh]) rfl rfl rfl rfl (by
          simp [MasterClient.fresh])
    exact ⟨_, [], cmds, rfl, .inl ⟨rfl, rfl⟩, by simp [MasterClient.fresh], Nat.zero_le _,
      fun _ => rfl, hp.stuck_of_nil hcmds rfl, ⟨rfl, rfl, rfl, rfl⟩, rfl⟩
  | step _ hstep ih =>
    obtain ⟨c, done, rest, hsplit, hinv⟩ := ih
    have hrest : ∀ cmd ∈ rest, WellFormed cmd := fun cmd hmem => hcmds cmd (by simp [hsplit, hmem])
    cases hstep with
    | read n hm _ hn hle hread =>
      obtain rfl : _ = c := by
        rcases hinv.holds with ⟨hm', -⟩ | ⟨hm', -⟩
        · exact Option.some.inj (hm.symm.trans hm')
        · rw [hm] at hm'
          cases hm'
      obtain ⟨r, c', done', rest', hr, hsplit', hinv'⟩ := hinv.read hrest hm hn hle
      obtain rfl := Option.some.inj (hr.symm.trans hread)
      exact ⟨c', done ++ done', rest', by rw [hsplit, hsplit', append_assoc], hinv'⟩
    | lose hr => exact ⟨_, done, rest, hsplit, hinv.lose hr⟩
    | resume newfd hm => exact ⟨_, done, rest, hsplit, hinv.resume hm newfd⟩
    | tick unixtime =>
      exact ⟨c, done, rest, hsplit, hinv.holds, hinv.reploff, hinv.received_le, hinv.cursor,
        hinv.stuck, hinv.flags, hinv.state⟩

theorem Query.Short.readlen_pos (h : q.Short) : 0 < readlen q := by
  rw [Query.Short] at h
  rw [readlen]
  have hiobuf : REDIS_IOBUF_LEN = 16384 := rfl
  cases hb : q.bulklen with
  | none => exact Nat.zero_lt_succ _
  | some len =>
    rw [hb] at h
    simp only
    split <;> omega

end

end Redis.Replication
