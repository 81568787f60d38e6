import Redis.Sentinel.Reload

/-!
# Redis.Sentinel.Vote

One Sentinel over its whole life: it votes, writes its configuration file, crashes, and
starts again from the file.  The run id it voted for is kept in memory only, the epoch of
the vote also in the file, so that after a restart it has no vote to report, but does not
vote again in the epoch either.

A crash can come between any two writes of the file.  A vote is reported or counted when
`sentinelVoteLeader` has returned.  Time is not modelled.
-/

namespace Redis.Sentinel

open Redis.Config List Option
open Redis.Sds
open Redis.Bus (strcaseEq)

variable {m' : Master} {f : Master → Master} {name : Bytes} {s : Server}

/-! ## The Sentinel -/

/-- The lines that `rewriteConfig` writes for the options that are not of Sentinel.  Each is
one line: texts are quoted there. -/
structure OtherOptions where
  calls : List Rewrite
  clean : ∀ c ∈ calls, c.Foreign Clean

/-- A Sentinel, its configuration file, and all votes that it has reported or counted.  The
voter of such a vote is the name of the master it is about. -/
structure Server where
  state : SentinelState
  runid : Bytes
  others : OtherOptions
  file : Bytes
  votes : List (Ballot.Vote Bytes Bytes)

/-- What a function of the source does: the states that it writes with
`sentinelFlushConfig`, the state it leaves, and the vote it reports or counts. -/
structure Outcome where
  writes : List SentinelState
  state : SentinelState
  vote : Option (Ballot.Vote Bytes Bytes)

/-- A function that writes nothing. -/
def Outcome.silent (st : SentinelState) : Outcome := ⟨[], st, none⟩

/-- A function that ends with a write. -/
def Outcome.flushed (st : SentinelState) : Outcome := ⟨[st], st, none⟩

/-- Changes the master of a name. -/
def SentinelState.update (st : SentinelState) (name : Bytes) (f : Master → Master) :
    SentinelState :=
  { st with masters := st.masters.map fun m => if m.name = name then f m else m }

variable {o : Outcome}

/-! ## Voting -/

def epochsOf (st : SentinelState) (m : Master) : Epochs Bytes :=
  ⟨st.currentEpoch, m.leader, m.leaderEpoch⟩

/-- The state with new epochs. -/
def SentinelState.setEpochs (st : SentinelState) (name : Bytes) (v : Epochs Bytes) :
    SentinelState :=
  { st.update name fun m => { m with leader := v.leader, leaderEpoch := v.leaderEpoch } with
    currentEpoch := v.currentEpoch }

/-- `sentinelVoteLeader` with the states that it writes: one for a new epoch, and one for a
vote. -/
def voteLeader (st : SentinelState) (m : Master) (reqEpoch : Nat) (reqRunid : Bytes) :
    List SentinelState × SentinelState :=
  let v := epochsOf st m
  let adopted := st.setEpochs m.name (v.adopt reqEpoch)
  let voted := st.setEpochs m.name (sentinelVoteLeader v reqEpoch reqRunid)
  ((if reqEpoch > st.currentEpoch then [adopted] else []) ++
    (if (v.adopt reqEpoch).Casts reqEpoch then [voted] else []), voted)

/-- The vote that `sentinelVoteLeader` returns. -/
def returnedVote (m : Master) (v : Epochs Bytes) : Option (Ballot.Vote Bytes Bytes) :=
  v.leader.map fun runid => ⟨m.name, v.leaderEpoch, runid⟩

/-- `SENTINEL is-master-down-by-addr`.  The port is a `long` that is passed as an `int`, the
epoch a `long long` that is passed as an `uint64_t`. -/
def isMasterDownByAddr (st : SentinelState) (ip : Bytes) (port epoch : Int)
    (runid : Bytes) : Outcome :=
  let found := st.masters.find? fun m =>
    m.addr.ip == cstr ip && (m.addr.port : Int) == port.bmod (2 ^ 32)
  match found with
  | some m =>
    if cstr runid = str "*" then .silent st
    else
      let reqEpoch := (epoch % 2 ^ 64).toNat
      let (writes, st') := voteLeader st m reqEpoch (cstr runid)
      ⟨writes, st', returnedVote m (sentinelVoteLeader (epochsOf st m) reqEpoch (cstr runid))⟩
  | none => .silent st

/-- The last votes of the other Sentinels that watch a master. -/
def knownVotes (m : Master) : List (Option Bytes × Nat) :=
  m.sentinels.map fun ri => (ri.leader, ri.leaderEpoch)

/-- The run ids that have a counter in `sentinelGetLeader`. -/
def counterKeys (currentEpoch : Nat) (votes : List (Option Bytes × Nat)) : List Bytes :=
  (votes.filterMap fun vote => if vote.2 = currentEpoch then vote.1 else none).dedup

/-- `sentinelFailoverWaitStart` with its call of `sentinelGetLeader`: the own vote counts if
it is one of the epoch of the failover. -/
def sentinelFailoverWaitStart (st : SentinelState) (myself : Bytes) (m : Master)
    (order : List Bytes) : Outcome :=
  let v := epochsOf st m
  let r := sentinelGetLeader v (knownVotes m) m.quorum myself m.failoverEpoch order
  let (writes, st') := voteLeader st m m.failoverEpoch (candidate v (knownVotes m) myself order)
  let isleader := r.1.any fun leader => strcaseEq leader myself
  ⟨writes,
    if isleader then st'.update m.name fun m => { m with failoverState := .selectSlave } else st',
    if r.2.leaderEpoch = m.failoverEpoch then returnedVote m r.2 else none⟩

/-! ## The other functions -/

/-- Changes what is known of another Sentinel that watches the master. -/
def Master.updateSentinel (m : Master) (name : Bytes) (f : Instance → Instance) : Master :=
  { m with sentinels := m.sentinels.map fun ri => if ri.name = name then f ri else ri }

def sentinelReceiveIsMasterDownReply (leader : Bytes) (epoch : Int) (ri : Instance) : Instance :=
  if cstr leader = str "*" then ri
  else { ri with leader := some (cstr leader), leaderEpoch := (epoch % 2 ^ 64).toNat }

def sentinelStartFailover (st : SentinelState) (m : Master) : SentinelState :=
  let currentEpoch := (st.currentEpoch + 1) % 2 ^ 64
  { st.update m.name fun m =>
      { m with
        failoverState := .waitStart
        failoverInProgress := true
        failoverEpoch := currentEpoch } with
    currentEpoch }

/-- The rest of a failover: how the state of the master goes on.  `slave` is the address of
the slave that is selected. -/
def proceedFailover (m : Master) (state : FailoverState) (slave : Option Addr) : Option Master :=
  match m.failoverState, state, slave with
  | .selectSlave, .sendSlaveofNoone, some addr =>
    if addr ∈ m.slaves.map (·.addr) then
      some { m with failoverState := .sendSlaveofNoone, promotedSlave := some addr }
    else none
  | .sendSlaveofNoone, .waitPromotion, none => some { m with failoverState := .waitPromotion }
  | .waitPromotion, .reconfSlaves, none =>
    some { m with failoverState := .reconfSlaves, configEpoch := m.failoverEpoch }
  | .reconfSlaves, .updateConfig, none => some { m with failoverState := .updateConfig }
  | s, .none, none =>
    -- `sentinelAbortFailover` and its assertions
    if m.failoverInProgress ∧ s.num ≤ FailoverState.waitPromotion.num then
      some { m with failoverInProgress := false, failoverState := .none, promotedSlave := none }
    else none
  | _, _, _ => none

/-- `sentinelResetMaster`.  The epoch of the last vote stays. -/
def sentinelResetMaster (m : Master) (noSentinels : Bool) : Master :=
  { m with
    slaves := []
    sentinels := if noSentinels then m.sentinels else []
    leader := none
    failoverInProgress := false
    failoverState := .none
    promotedSlave := none }

def sentinelAddrIsEqual (a b : Addr) : Bool := a.port == b.port && strcaseEq a.ip b.ip

/-- The loop that adds the slaves back.  Each is written as soon as it is added; `state` is
the state with a table of slaves. -/
def addSlaves (env : Env) (state : List Instance → SentinelState) :
    List Instance → List Addr → List SentinelState × List Instance
  | table, [] => ([], table)
  | table, addr :: addrs =>
    match createInstance env table addr.ip addr.port none with
    | .ok table =>
      let r := addSlaves env state table addrs
      (state table :: r.1, r.2)
    | .error _ => addSlaves env state table addrs

/-- `sentinelResetMasterAndChangeAddress`, whose caller may have taken over a configuration
epoch.  An address that does not resolve changes nothing. -/
def sentinelResetMasterAndChangeAddress (env : Env) (st : SentinelState) (m : Master)
    (configEpoch : Nat) (ip : Bytes) (port : Int) : Option Outcome := do
  let newaddr ← (createSentinelAddr env (cstr ip) port).toOption
  let saved := (m.slaves.map (·.addr)).filter (fun a => !sentinelAddrIsEqual a newaddr) ++
    (if sentinelAddrIsEqual newaddr m.addr then [] else [m.addr])
  let slaves ← saved.mapM fun a => (createSentinelAddr env a.ip a.port).toOption
  let state := fun table => st.update m.name fun m =>
    { sentinelResetMaster m true with addr := newaddr, slaves := table, configEpoch }
  let r := addSlaves env state [] slaves
  pure ⟨r.1 ++ [state r.2], state r.2, none⟩

/-! ## Runs -/

/-- What the Sentinel does. -/
inductive Op where
  /-- `SENTINEL is-master-down-by-addr`. -/
  | request (ip : Bytes) (port epoch : Int) (runid : Bytes)
  /-- The reply of another Sentinel. -/
  | reply (master sentinel leader : Bytes) (epoch : Int)
  /-- `sentinelAskMasterStateToOtherSentinels` where the last reply is too old. -/
  | expire (master sentinel : Bytes)
  | startFailover (master : Bytes)
  /-- `sentinelFailoverWaitStart`, where the counters are visited in the order `order`. -/
  | waitStart (master : Bytes) (order : List Bytes)
  | proceed (master : Bytes) (state : FailoverState) (slave : Option Addr)
  /-- `SENTINEL RESET` with a pattern that matches the given names. -/
  | reset (matched : List Bytes)
  | switchMaster (master : Bytes) (configEpoch : Nat) (ip : Bytes) (port : Int)
  /-- A greater epoch of a hello message. -/
  | newEpoch (epoch : Nat)
  /-- A table is rehashed and visited in another order. -/
  | rehash (masters : List Master)
  | rehashInstances (master : Bytes) (slaves sentinels : List Instance)

def sentinelGetMasterByName (st : SentinelState) (name : Bytes) : Option Master :=
  st.masters.find? fun m => m.name == name

/-- A `long` or a `long long`. -/
def isLong (v : Int) : Prop := -2 ^ 63 ≤ v ∧ v < 2 ^ 63

instance (v : Int) : Decidable (isLong v) := inferInstanceAs (Decidable (_ ∧ _))

/-- What the Sentinel does, if it can be done. -/
def perform (env : Env) (s : Server) : Op → Option Outcome
  | .request ip port epoch runid =>
    if isLong port ∧ isLong epoch then some (isMasterDownByAddr s.state ip port epoch runid)
    else none
  | .reply master sentinel leader epoch =>
    if isLong epoch then
      some (.silent (s.state.update master fun m =>
        m.updateSentinel sentinel (sentinelReceiveIsMasterDownReply leader epoch)))
    else none
  | .expire master sentinel =>
    some (.silent (s.state.update master fun m =>
      m.updateSentinel sentinel fun ri => { ri with leader := none }))
  | .startFailover master => do
    let m ← sentinelGetMasterByName s.state master
    if m.failoverInProgress then none else some (.silent (sentinelStartFailover s.state m))
  | .waitStart master order => do
    let m ← sentinelGetMasterByName s.state master
    if m.failoverState = .waitStart ∧
        order.Perm (counterKeys s.state.currentEpoch (knownVotes m)) then
      some (sentinelFailoverWaitStart s.state s.runid m order)
    else none
  | .proceed master state slave => do
    let m ← sentinelGetMasterByName s.state master
    let m' ← proceedFailover m state slave
    let st := s.state.update m.name fun _ => m'
    some (if state = .reconfSlaves then .flushed st else .silent st)
  | .reset matched =>
    some (.silent { s.state with
      masters := s.state.masters.map fun m =>
        if m.name ∈ matched then sentinelResetMaster m false else m })
  | .switchMaster master configEpoch ip port => do
    let m ← sentinelGetMasterByName s.state master
    if m.configEpoch ≤ configEpoch ∧ configEpoch < 2 ^ 64 then
      sentinelResetMasterAndChangeAddress env s.state m configEpoch ip port
    else none
  | .newEpoch epoch =>
    if s.state.currentEpoch < epoch ∧ epoch < 2 ^ 64 then
      some (.flushed { s.state with currentEpoch := epoch })
    else none
  | .rehash masters =>
    if masters.Perm s.state.masters then some (.silent { s.state with masters }) else none
  | .rehashInstances master slaves sentinels => do
    let m ← sentinelGetMasterByName s.state master
    if slaves.Perm m.slaves ∧ sentinels.Perm m.sentinels then
      some (.silent (s.state.update m.name fun m => { m with slaves, sentinels }))
    else none

/-- What can happen: the Sentinel does something, or it crashes meanwhile, after some of the
writes, and starts again with a new run id. -/
inductive Event where
  | run (op : Op)
  | crash (op : Op) (written : Nat) (runid : Bytes) (others : OtherOptions)

/-- The file after some writes. -/
def flushAll (others : OtherOptions) (file : Bytes) (writes : List SentinelState) : Bytes :=
  writes.foldl (fun file st => sentinelFlushConfig others.calls st file) file

/-- The Sentinel after an event, if the event can happen.  A file that does not load ends
the run. -/
def step (env : Env) (directive : Bytes → List Bytes → Option String) (s : Server) :
    Event → Option Server
  | .run op => do
    let o ← perform env s op
    some { s with
      state := o.state
      file := flushAll s.others s.file o.writes
      votes := o.vote.toList ++ s.votes }
  | .crash op written runid others => do
    let o ← perform env s op
    let file := flushAll s.others s.file (o.writes.take written)
    let state ← (loadSentinel env directive file).toOption
    some { state, runid, others, file, votes := s.votes }

/-- A Sentinel that has just started on its file. -/
structure Initial (env : Env) (directive : Bytes → List Bytes → Option String)
    (s : Server) : Prop where
  load : loadSentinel env directive s.file = .ok s.state
  votes : s.votes = []

/-- The Sentinels that a run reaches, where the first one meets `P`. -/
inductive Reachable (env : Env) (directive : Bytes → List Bytes → Option String)
    (P : Server → Prop) : Server → Prop where
  | init {s : Server} : Initial env directive s → P s → Reachable env directive P s
  | step {s s' : Server} {e : Event} :
      Reachable env directive P s → step env directive s e = some s' → Reachable env directive P s'

/-! ## Changes that are no vote -/

/-- All words of a master are plain, also those of an address that is not the current one. -/
structure Master.Words (m : Master) : Prop where
  plain : m.Plain
  addr : Sds.plain m.addr.ip = true
  promoted : ∀ a, m.promotedSlave = some a → Sds.plain a.ip = true

theorem Master.Words.change {m : Master} (h : m.Words) (hname : m'.name = m.name)
    (hns : m'.notificationScript = m.notificationScript)
    (hcs : m'.clientReconfigScript = m.clientReconfigScript) (hpass : m'.authPass = m.authPass)
    (haddr : Sds.plain m'.addr.ip = true)
    (hpromoted : ∀ a, m'.promotedSlave = some a → Sds.plain a.ip = true)
    (hslaves : ∀ ri ∈ m'.slaves, Sds.plain ri.addr.ip = true) (hsentinels : ∀ ri ∈ m'.sentinels,
      Sds.plain ri.addr.ip = true ∧ ∀ r, ri.runid = some r → Sds.plain r = true) : m'.Words where
  plain :=
    { name := by
        rw [hname]
        exact h.plain.name
      addr := by
        unfold sentinelGetCurrentMasterAddress
        split
        · rename_i a ha
          split
          · exact hpromoted a ha
          · exact haddr
        · exact haddr
      notificationScript := by
        rw [hns]
        exact h.plain.notificationScript
      clientReconfigScript := by
        rw [hcs]
        exact h.plain.clientReconfigScript
      authPass := by
        rw [hpass]
        exact h.plain.authPass
      slaves := hslaves
      sentinels := hsentinels }
  addr := haddr
  promoted := hpromoted

/-- What becomes of a master if no vote is cast. -/
structure Master.Kept (m m' : Master) : Prop where
  name : m'.name = m.name
  leaderEpoch : m'.leaderEpoch = m.leaderEpoch
  leader : ∀ r, m'.leader = some r → m.leader = some r
  failoverEpoch : m.failoverEpoch < 2 ^ 64 → m'.failoverEpoch < 2 ^ 64
  words : m.Words → m'.Words

theorem Master.Kept.refl (m : Master) : m.Kept m :=
  ⟨rfl, rfl, fun _ h => h, fun h => h, fun h => h⟩

/-- The masters, if no vote is cast. -/
structure Keeps (ms ms' : List Master) : Prop where
  names : (names ms').Perm (names ms)
  kept : ∀ m' ∈ ms', ∃ m ∈ ms, m.Kept m'

theorem keeps_map {ms : List Master} (h : ∀ m ∈ ms, m.Kept (f m)) : Keeps ms (ms.map f) where
  names := by
    have heq : names (ms.map f) = names ms := by
      unfold names
      rw [List.map_map]
      exact map_congr_left fun m hm => (h m hm).name
    rw [heq]
  kept := by
    intro m' hm'
    obtain ⟨m, hm, rfl⟩ := mem_map.mp hm'
    exact ⟨m, hm, h m hm⟩

theorem Keeps.refl (ms : List Master) : Keeps ms ms :=
  ⟨List.Perm.refl _, fun m hm => ⟨m, hm, .refl m⟩⟩

theorem keeps_update {st : SentinelState} (h : ∀ m ∈ st.masters, m.name = name → m.Kept (f m)) :
    Keeps st.masters (st.update name f).masters := by
  apply keeps_map
  intro m hm
  split
  · rename_i hname
    exact h m hm hname
  · exact .refl m

/-! ## The invariant -/

variable {env : Env} {directive : Bytes → List Bytes → Option String}
  {votes : List (Ballot.Vote Bytes Bytes)} {ms ms' : List Master}

/-- No vote is of a later epoch than the last one of its master. -/
def Bounded (votes : List (Ballot.Vote Bytes Bytes)) (ms : List Master) : Prop :=
  ∀ v ∈ votes, ∀ m ∈ ms, m.name = v.voter → v.round ≤ m.leaderEpoch

/-- What holds of the masters in memory, and of those that are written. -/
structure Good (votes : List (Ballot.Vote Bytes Bytes)) (ms : List Master) :
    Prop where
  names : (names ms).Nodup
  words : ∀ m ∈ ms, m.Words
  epochs : ∀ m ∈ ms, m.leaderEpoch < 2 ^ 64 ∧ m.failoverEpoch < 2 ^ 64
  bound : Bounded votes ms

/-- A vote that is kept in memory was reported or counted. -/
def Own (votes : List (Ballot.Vote Bytes Bytes)) (ms : List Master) : Prop :=
  ∀ m ∈ ms, ∀ r, m.leader = some r → ⟨m.name, m.leaderEpoch, r⟩ ∈ votes

/-- What a restart finds in the file. -/
def OnDisk (env : Env) (directive : Bytes → List Bytes → Option String)
    (votes : List (Ballot.Vote Bytes Bytes)) (file : Bytes) : Prop :=
  ∀ st, loadSentinel env directive file = .ok st →
    (∀ m ∈ st.masters, m.Plain) ∧ Bounded votes st.masters

structure Inv (env : Env) (directive : Bytes → List Bytes → Option String)
    (s : Server) : Prop where
  good : Good s.votes s.state.masters
  own : Own s.votes s.state.masters
  oneVote : Ballot.OneVote s.votes
  disk : OnDisk env directive s.votes s.file

variable {votes' : List (Ballot.Vote Bytes Bytes)}

theorem Bounded.subset (h : Bounded votes ms) (hsub : votes' ⊆ votes) : Bounded votes' ms :=
  fun v hv => h v (hsub hv)

theorem Good.subset (h : Good votes ms) (hsub : votes' ⊆ votes) : Good votes' ms :=
  ⟨h.names, h.words, h.epochs, h.bound.subset hsub⟩

theorem Good.keeps (h : Good votes ms) (hk : Keeps ms ms') : Good votes ms' where
  names := hk.names.nodup_iff.mpr h.names
  words := by
    intro m' hm'
    obtain ⟨m, hm, hkept⟩ := hk.kept m' hm'
    exact hkept.words (h.words m hm)
  epochs := by
    intro m' hm'
    obtain ⟨m, hm, hkept⟩ := hk.kept m' hm'
    rw [hkept.leaderEpoch]
    exact ⟨(h.epochs m hm).1, hkept.failoverEpoch (h.epochs m hm).2⟩
  bound := by
    intro v hv m' hm' hname
    obtain ⟨m, hm, hkept⟩ := hk.kept m' hm'
    rw [hkept.leaderEpoch]
    exact h.bound v hv m hm (by rw [← hkept.name, hname])

theorem Own.keeps (h : Own votes ms) (hk : Keeps ms ms') : Own votes ms' := by
  intro m' hm' r hr
  obtain ⟨m, hm, hkept⟩ := hk.kept m' hm'
  rw [hkept.name, hkept.leaderEpoch]
  exact h m hm r (hkept.leader r hr)

theorem Good.eq_of_name (h : Good votes ms) {m x : Master} (hm : m ∈ ms) (hx : x ∈ ms)
    (hname : x.name = m.name) : x = m :=
  inj_on_of_nodup_map h.names hx hm hname

/-- What is written is found by a restart. -/
theorem Good.onDisk (henv : ∀ h ip, env.resolve h = some ip → plain ip = true)
    {st : SentinelState} (h : Good votes st.masters) (others : OtherOptions)
    (file : Bytes) :
    OnDisk env directive votes (sentinelFlushConfig others.calls st file) := by
  intro st' hload
  obtain ⟨hsame, hplain⟩ := sameVotes_of_load henv others.clean
    (fun m hm => ⟨(h.words m hm).plain, (h.epochs m hm).1⟩) h.names hload
  refine ⟨hplain, ?_⟩
  intro v hv m' hm' hname
  -- the master of that name in the file is the one that was written
  have hm : m'.name ∈ Sentinel.names st.masters := by
    rw [← hsame.names]
    exact mem_map_of_mem hm'
  obtain ⟨m, hm, heq⟩ := mem_map.mp hm
  have hepoch := hsame.votedEpoch m'.name
  rw [votedEpoch_of_mem (fresh_loadSentinel hload).names hm', ← heq,
    votedEpoch_of_mem h.names hm, Option.some.injEq] at hepoch
  rw [hepoch]
  exact h.bound v hv m hm (by rw [heq, hname])

theorem OnDisk.flushAll (henv : ∀ h ip, env.resolve h = some ip → plain ip = true)
    {others : OtherOptions} {writes : List SentinelState} : ∀ {file : Bytes},
      OnDisk env directive votes file → (∀ w ∈ writes, Good votes w.masters) →
      OnDisk env directive votes (flushAll others file writes) := by
  induction writes with
  | nil => exact fun h _ => h
  | cons w writes ih =>
    intro file _ hw
    have hfirst : OnDisk env directive votes (sentinelFlushConfig others.calls w file) :=
      (hw w mem_cons_self).onDisk henv others file
    exact ih hfirst fun x hx => hw x (mem_cons_of_mem _ hx)

/-- What a function of the source keeps: every state that it writes is good, its vote is no
second one, and it is covered by the last write unless it is an old one. -/
structure Outcome.Sound (votes : List (Ballot.Vote Bytes Bytes)) (o : Outcome) :
    Prop where
  writes : ∀ w ∈ o.writes, Good votes w.masters
  good : Good (o.vote.toList ++ votes) o.state.masters
  own : Own (o.vote.toList ++ votes) o.state.masters
  oneVote : Ballot.OneVote (o.vote.toList ++ votes)
  covered : o.vote.toList ⊆ votes ∨
    ∃ before w, o.writes = before ++ [w] ∧ Good (o.vote.toList ++ votes) w.masters

theorem sound_keeps (h : Inv env directive s)
    (hwrites : ∀ w ∈ o.writes, Keeps s.state.masters w.masters)
    (hstate : Keeps s.state.masters o.state.masters) (hvote : o.vote.toList ⊆ s.votes) :
    o.Sound s.votes := by
  have hsub : o.vote.toList ++ s.votes ⊆ s.votes := by
    intro v hv
    rcases mem_append.mp hv with hv | hv
    · exact hvote hv
    · exact hv
  refine ⟨fun w hw => h.good.keeps (hwrites w hw), (h.good.keeps hstate).subset hsub, ?_,
    h.oneVote.subset hsub, .inl hvote⟩
  intro m hm r hr
  exact mem_append_right _ (h.own.keeps hstate m hm r hr)

theorem sound_silent (h : Inv env directive s) {st : SentinelState}
    (hstate : Keeps s.state.masters st.masters) : (Outcome.silent st).Sound s.votes :=
  sound_keeps h (by simp [Outcome.silent]) hstate (by simp [Outcome.silent])

theorem sound_flushed (h : Inv env directive s) {st : SentinelState}
    (hstate : Keeps s.state.masters st.masters) : (Outcome.flushed st).Sound s.votes :=
  sound_keeps h (by simpa [Outcome.flushed] using hstate) hstate (by simp [Outcome.flushed])

/-- The state may change behind the vote. -/
theorem Outcome.Sound.keeps (h : o.Sound votes) {st : SentinelState}
    (hk : Keeps o.state.masters st.masters) : Outcome.Sound votes { o with state := st } :=
  ⟨h.writes, h.good.keeps hk, h.own.keeps hk, h.oneVote, h.covered⟩

/-! ## Casting a vote -/

theorem mem_update {st : SentinelState} (h : m' ∈ (st.update name f).masters) :
    ∃ m ∈ st.masters, (m.name = name ∧ m' = f m) ∨ (m.name ≠ name ∧ m' = m) := by
  obtain ⟨m, hm, rfl⟩ := mem_map.mp h
  refine ⟨m, hm, ?_⟩
  by_cases hname : m.name = name
  · exact .inl ⟨hname, if_pos hname⟩
  · exact .inr ⟨hname, if_neg hname⟩

theorem names_setEpochs (st : SentinelState) (name : Bytes) (v : Epochs Bytes) :
    names (st.setEpochs name v).masters = names st.masters := by
  simp only [SentinelState.setEpochs, SentinelState.update, names, List.map_map]
  apply map_congr_left
  intro m _
  simp only [Function.comp_apply]
  split <;> rfl

section Cast

variable {st : SentinelState} {m : Master} {e : Nat} {r : Bytes}

theorem Good.cast (h : Good votes st.masters) (hm : m ∈ st.masters) (hlt : m.leaderEpoch < e)
    (he : e < 2 ^ 64) :
    Good (⟨m.name, e, r⟩ :: votes) (st.setEpochs m.name ⟨e, some r, e⟩).masters where
  names := by
    rw [names_setEpochs]
    exact h.names
  words := by
    intro m' hm'
    obtain ⟨x, hx, ⟨-, rfl⟩ | ⟨-, rfl⟩⟩ := mem_update hm'
    · have hw := h.words x hx
      exact hw.change rfl rfl rfl rfl hw.addr hw.promoted hw.plain.slaves hw.plain.sentinels
    · exact h.words _ hx
  epochs := by
    intro m' hm'
    obtain ⟨x, hx, ⟨-, rfl⟩ | ⟨-, rfl⟩⟩ := mem_update hm'
    · exact ⟨he, (h.epochs x hx).2⟩
    · exact h.epochs _ hx
  bound := by
    intro v hv m' hm' hname
    obtain ⟨x, hx, ⟨hxm, rfl⟩ | ⟨hxm, rfl⟩⟩ := mem_update hm'
    · rcases mem_cons.mp hv with rfl | hv
      · exact Nat.le_refl e
      · have hround := h.bound v hv m hm (by rw [← hxm]; exact hname)
        exact hround.trans hlt.le
    · rcases mem_cons.mp hv with rfl | hv
      · exact absurd hname hxm
      · exact h.bound v hv _ hx hname

theorem Own.cast (h : Own votes st.masters) :
    Own (⟨m.name, e, r⟩ :: votes) (st.setEpochs m.name ⟨e, some r, e⟩).masters := by
  intro m' hm' r' hr'
  obtain ⟨x, hx, ⟨hxm, rfl⟩ | ⟨-, rfl⟩⟩ := mem_update hm'
  · simp only [Option.some.injEq] at hr'
    rw [hr']
    simp only [hxm]
    exact mem_cons_self
  · exact mem_cons_of_mem _ (h _ hx r' hr')

/-- A change of the current epoch only. -/
theorem keeps_adopt (h : Good votes st.masters) (hm : m ∈ st.masters) :
    Keeps st.masters (st.setEpochs m.name ((epochsOf st m).adopt e)).masters := by
  apply keeps_update
  intro x hx hname
  have hxm := h.eq_of_name hm hx hname
  subst hxm
  refine ⟨rfl, ?_, ?_, fun hf => hf, ?_⟩
  · rw [Epochs.adopt_leaderEpoch]
    rfl
  · intro r hr
    rw [Epochs.adopt_leader] at hr
    exact hr
  · intro hw
    exact hw.change rfl rfl rfl rfl hw.addr hw.promoted hw.plain.slaves hw.plain.sentinels

/-- `sentinelVoteLeader` returns the vote of the epoch, or casts it and writes it. -/
theorem sound_voteLeader (h : Inv env directive s) (hm : m ∈ s.state.masters) (he : e < 2 ^ 64)
    {vote : Option (Ballot.Vote Bytes Bytes)}
    (hvote : vote = returnedVote m (sentinelVoteLeader (epochsOf s.state m) e r) ∨
      (vote = none ∧ (sentinelVoteLeader (epochsOf s.state m) e r).leaderEpoch ≠ e)) :
    Outcome.Sound s.votes
      ⟨(voteLeader s.state m e r).1, (voteLeader s.state m e r).2, vote⟩ := by
  have hadopt := keeps_adopt (e := e) h.good hm
  by_cases hcast : ((epochsOf s.state m).adopt e).Casts e
  · obtain ⟨hv, hlt⟩ := Epochs.cast_of_casts (r := r) hcast
    have hvote' : vote = some ⟨m.name, e, r⟩ := by
      rcases hvote with rfl | ⟨-, hne⟩
      · rw [hv]
        rfl
      · rw [hv] at hne
        exact absurd rfl hne
    have hgood : Good (⟨m.name, e, r⟩ :: s.votes) (voteLeader s.state m e r).2.masters := by
      simp only [voteLeader, hv]
      exact h.good.cast hm hlt he
    have hwrites : (voteLeader s.state m e r).1 =
        (if e > s.state.currentEpoch then
          [s.state.setEpochs m.name ((epochsOf s.state m).adopt e)] else []) ++
        [(voteLeader s.state m e r).2] := by
      simp only [voteLeader, if_pos hcast]
    subst hvote'
    refine ⟨?_, hgood, ?_, ?_, .inr ⟨_, _, hwrites, hgood⟩⟩
    · intro w hw
      simp only [hwrites, mem_append, mem_singleton] at hw
      rcases hw with hw | rfl
      · split at hw
        · rw [mem_singleton.mp hw]
          exact h.good.keeps hadopt
        · simp at hw
      · exact hgood.subset (subset_cons_self _ _)
    · simp only [voteLeader, hv]
      exact h.own.cast
    · apply h.oneVote.cons
      intro u hu hvoter hround
      have hle := h.good.bound u hu m hm hvoter.symm
      simp only at hround
      exact absurd hlt (by simp only [epochsOf]; omega)
  · have hv := Epochs.cast_of_not_casts (r := r) hcast
    have hstate : Keeps s.state.masters (voteLeader s.state m e r).2.masters := by
      simp only [voteLeader, hv]
      exact hadopt
    apply sound_keeps h _ hstate
    · rcases hvote with rfl | ⟨rfl, -⟩
      · rw [hv]
        intro v hmem
        simp only [returnedVote, Epochs.adopt_leader, Epochs.adopt_leaderEpoch, mem_toList,
          map_eq_some_iff] at hmem
        obtain ⟨runid, hleader, rfl⟩ := hmem
        exact h.own m hm runid hleader
      · simp
    · intro w hw
      simp only [voteLeader, if_neg hcast, append_nil] at hw
      split at hw
      · rw [mem_singleton.mp hw]
        exact hadopt
      · simp at hw

end Cast

/-! ## The other functions cast no vote -/

theorem kept_updateSentinel (m : Master) (name : Bytes) {f : Instance → Instance}
    (hf : ∀ ri, (f ri).addr = ri.addr ∧ (f ri).runid = ri.runid) :
    m.Kept (m.updateSentinel name f) where
  name := rfl
  leaderEpoch := rfl
  leader := fun _ h => h
  failoverEpoch := fun h => h
  words := by
    intro h
    refine h.change rfl rfl rfl rfl h.addr h.promoted h.plain.slaves ?_
    intro ri' hri'
    obtain ⟨ri, hri, rfl⟩ := mem_map.mp hri'
    split
    · rw [(hf ri).1, (hf ri).2]
      exact h.plain.sentinels ri hri
    · exact h.plain.sentinels ri hri

theorem kept_resetMaster (m : Master) (noSentinels : Bool) :
    m.Kept (sentinelResetMaster m noSentinels) where
  name := rfl
  leaderEpoch := rfl
  leader := by simp [sentinelResetMaster]
  failoverEpoch := fun h => h
  words := by
    intro h
    refine h.change rfl rfl rfl rfl h.addr (by simp [sentinelResetMaster])
      (by simp [sentinelResetMaster]) ?_
    intro ri hri
    cases noSentinels with
    | true => exact h.plain.sentinels ri hri
    | false => simp [sentinelResetMaster] at hri

/-- A change of the state of a failover. -/
theorem kept_failover {m : Master} (hname : m'.name = m.name)
    (hepoch : m'.leaderEpoch = m.leaderEpoch) (hleader : m'.leader = m.leader)
    (hfailover : m.failoverEpoch < 2 ^ 64 → m'.failoverEpoch < 2 ^ 64)
    (hwords : m.Words → m'.Words) : m.Kept m' :=
  ⟨hname, hepoch, fun r hr => by rwa [hleader] at hr, hfailover, hwords⟩

theorem kept_proceedFailover {m : Master} {state : FailoverState} {slave : Option Addr}
    (h : proceedFailover m state slave = some m') : m.Kept m' := by
  have hsame : ∀ (st : FailoverState) (configEpoch : Nat),
      m.Kept { m with failoverState := st, configEpoch } := by
    intro st configEpoch
    refine kept_failover rfl rfl rfl (fun hf => hf) fun hw => ?_
    exact hw.change rfl rfl rfl rfl hw.addr hw.promoted hw.plain.slaves hw.plain.sentinels
  unfold proceedFailover at h
  split at h
  · split at h
    · rename_i addr _ hmem
      cases h
      refine kept_failover rfl rfl rfl (fun hf => hf) fun hw => ?_
      refine hw.change rfl rfl rfl rfl hw.addr ?_ hw.plain.slaves hw.plain.sentinels
      rintro a ⟨⟩
      obtain ⟨ri, hri, rfl⟩ := mem_map.mp hmem
      exact hw.plain.slaves ri hri
    · simp at h
  · cases h
    exact hsame _ _
  · cases h
    exact hsame _ _
  · cases h
    exact hsame _ _
  · split at h
    · cases h
      refine kept_failover rfl rfl rfl (fun hf => hf) fun hw => ?_
      exact hw.change rfl rfl rfl rfl hw.addr (by simp) hw.plain.slaves hw.plain.sentinels
    · simp at h
  · simp at h

/-- A switch to a new address with the slaves that are added back. -/
theorem kept_switch (m : Master) {newaddr : Addr} {table : List Instance} {configEpoch : Nat}
    (hip : plain newaddr.ip = true) (htable : ∀ ri ∈ table, plain ri.addr.ip = true) :
    m.Kept { sentinelResetMaster m true with addr := newaddr, slaves := table, configEpoch } where
  name := rfl
  leaderEpoch := rfl
  leader := by simp [sentinelResetMaster]
  failoverEpoch := fun h => h
  words := by
    intro h
    exact h.change rfl rfl rfl rfl hip (by simp [sentinelResetMaster]) htable h.plain.sentinels

theorem addSlaves_plain (henv : ∀ h ip, env.resolve h = some ip → plain ip = true)
    (state : List Instance → SentinelState) (addrs : List Addr) : ∀ table : List Instance,
      (∀ ri ∈ table, plain ri.addr.ip = true) →
      (∀ w ∈ (addSlaves env state table addrs).1,
        ∃ table', w = state table' ∧ ∀ ri ∈ table', plain ri.addr.ip = true) ∧
      ∀ ri ∈ (addSlaves env state table addrs).2, plain ri.addr.ip = true := by
  induction addrs with
  | nil =>
    intro table h
    exact ⟨by simp [addSlaves], h⟩
  | cons addr addrs ih =>
    intro table h
    unfold addSlaves
    split
    · rename_i table' hcreate
      obtain ⟨ri, rfl, hip, -⟩ := createInstance_spec hcreate
      have htable : ∀ x ∈ table ++ [ri], plain x.addr.ip = true := by
        intro x hx
        rcases mem_append.mp hx with hx | hx
        · exact h x hx
        · rw [mem_singleton.mp hx]
          exact henv _ _ hip
      obtain ⟨hw, hr⟩ := ih _ htable
      refine ⟨?_, hr⟩
      intro w hmem
      rcases mem_cons.mp hmem with rfl | hmem
      · exact ⟨_, rfl, htable⟩
      · exact hw w hmem
    · exact ih table h

theorem eq_ok_of_toOption {ε α : Type} {x : Except ε α} {a : α} (h : x.toOption = some a) :
    x = .ok a := by
  cases x with
  | error e => simp [Except.toOption] at h
  | ok b =>
    simp only [Except.toOption, Option.some.injEq] at h
    rw [h]

theorem sound_switch (henv : ∀ h ip, env.resolve h = some ip → plain ip = true)
    (h : Inv env directive s) {m : Master} {configEpoch : Nat} {ip : Bytes} {port : Int}
    (hp : sentinelResetMasterAndChangeAddress env s.state m configEpoch ip port = some o) :
    o.Sound s.votes := by
  obtain ⟨newaddr, hnew, hp⟩ := bind_eq_some_iff.mp hp
  obtain ⟨slaves, -, hp⟩ := bind_eq_some_iff.mp hp
  cases hp
  have hip := henv _ _ (createSentinelAddr_ip (eq_ok_of_toOption hnew))
  have hkeeps : ∀ table : List Instance, (∀ ri ∈ table, plain ri.addr.ip = true) →
      Keeps s.state.masters (s.state.update m.name fun m =>
        { sentinelResetMaster m true with
          addr := newaddr
          slaves := table
          configEpoch }).masters := by
    intro table htable
    apply keeps_update
    intro x _ _
    exact kept_switch x hip htable
  obtain ⟨hw, hr⟩ := addSlaves_plain henv (fun table => s.state.update m.name fun m =>
    { sentinelResetMaster m true with addr := newaddr, slaves := table, configEpoch })
    slaves [] (by simp)
  apply sound_keeps h _ (hkeeps _ hr) (by simp)
  intro w hmem
  rcases mem_append.mp hmem with hmem | hmem
  · obtain ⟨table, rfl, htable⟩ := hw w hmem
    exact hkeeps table htable
  · rw [mem_singleton.mp hmem]
    exact hkeeps _ hr

theorem mem_of_getMasterByName {st : SentinelState} {m : Master}
    (h : sentinelGetMasterByName st name = some m) : m ∈ st.masters :=
  mem_of_find?_eq_some h

theorem sound_request (h : Inv env directive s) (ip : Bytes) (port epoch : Int)
    (runid : Bytes) : (isMasterDownByAddr s.state ip port epoch runid).Sound s.votes := by
  unfold isMasterDownByAddr
  dsimp only
  split
  · rename_i m hfound
    split
    · exact sound_silent h (.refl _)
    · have hm := mem_of_find?_eq_some hfound
      exact sound_voteLeader h hm (by omega) (.inl rfl)
  · exact sound_silent h (.refl _)

theorem sound_waitStart (h : Inv env directive s) {m : Master} (hm : m ∈ s.state.masters)
    (order : List Bytes) :
    (sentinelFailoverWaitStart s.state s.runid m order).Sound s.votes := by
  have hown : (sentinelGetLeader (epochsOf s.state m) (knownVotes m) m.quorum s.runid
      m.failoverEpoch order).2 = sentinelVoteLeader (epochsOf s.state m) m.failoverEpoch
        (candidate (epochsOf s.state m) (knownVotes m) s.runid order) := rfl
  have hsound : Outcome.Sound s.votes
      ⟨(voteLeader s.state m m.failoverEpoch
          (candidate (epochsOf s.state m) (knownVotes m) s.runid order)).1,
        (voteLeader s.state m m.failoverEpoch
          (candidate (epochsOf s.state m) (knownVotes m) s.runid order)).2,
        (sentinelFailoverWaitStart s.state s.runid m order).vote⟩ := by
    apply sound_voteLeader h hm (h.good.epochs m hm).2
    simp only [sentinelFailoverWaitStart, hown]
    split
    · exact .inl rfl
    · rename_i hne
      exact .inr ⟨rfl, hne⟩
  refine hsound.keeps ?_
  split
  · apply keeps_update
    intro x _ _
    refine kept_failover rfl rfl rfl (fun hf => hf) fun hw => ?_
    exact hw.change rfl rfl rfl rfl hw.addr hw.promoted hw.plain.slaves hw.plain.sentinels
  · exact .refl _

/-- Whatever the Sentinel does is sound. -/
theorem perform_sound (henv : ∀ h ip, env.resolve h = some ip → plain ip = true)
    (h : Inv env directive s) {op : Op} (hp : perform env s op = some o) : o.Sound s.votes := by
  cases op with
  | request ip port epoch runid =>
    simp only [perform, ite_none_right_eq_some, Option.some.injEq] at hp
    obtain ⟨-, rfl⟩ := hp
    exact sound_request h ip port epoch runid
  | reply master sentinel leader epoch =>
    simp only [perform, ite_none_right_eq_some, Option.some.injEq] at hp
    obtain ⟨-, rfl⟩ := hp
    apply sound_silent h
    apply keeps_update
    intro m _ _
    apply kept_updateSentinel
    intro ri
    unfold sentinelReceiveIsMasterDownReply
    split <;> exact ⟨rfl, rfl⟩
  | expire master sentinel =>
    cases hp
    apply sound_silent h
    apply keeps_update
    intro m _ _
    exact kept_updateSentinel m sentinel fun _ => ⟨rfl, rfl⟩
  | startFailover master =>
    obtain ⟨m, -, hp⟩ := bind_eq_some_iff.mp hp
    simp only [ite_none_left_eq_some, Option.some.injEq] at hp
    obtain ⟨-, rfl⟩ := hp
    apply sound_silent h
    apply keeps_update
    intro x _ _
    refine kept_failover rfl rfl rfl (fun _ => Nat.mod_lt _ (by decide)) fun hw => ?_
    exact hw.change rfl rfl rfl rfl hw.addr hw.promoted hw.plain.slaves hw.plain.sentinels
  | waitStart master order =>
    obtain ⟨m, hm, hp⟩ := bind_eq_some_iff.mp hp
    simp only [ite_none_right_eq_some, Option.some.injEq] at hp
    obtain ⟨-, rfl⟩ := hp
    exact sound_waitStart h (mem_of_getMasterByName hm) order
  | proceed master state slave =>
    obtain ⟨m, hm, hp⟩ := bind_eq_some_iff.mp hp
    obtain ⟨m', hm', hp⟩ := bind_eq_some_iff.mp hp
    have hkeeps : Keeps s.state.masters (s.state.update m.name fun _ => m').masters := by
      apply keeps_update
      intro x hx hname
      rw [h.good.eq_of_name (mem_of_getMasterByName hm) hx hname]
      exact kept_proceedFailover hm'
    cases hp
    split
    · exact sound_flushed h hkeeps
    · exact sound_silent h hkeeps
  | reset matched =>
    cases hp
    apply sound_silent h
    apply keeps_map
    intro m _
    split
    · exact kept_resetMaster m false
    · exact .refl m
  | switchMaster master configEpoch ip port =>
    obtain ⟨m, -, hp⟩ := bind_eq_some_iff.mp hp
    simp only [ite_none_right_eq_some] at hp
    exact sound_switch henv h hp.2
  | newEpoch epoch =>
    simp only [perform, ite_none_right_eq_some, Option.some.injEq] at hp
    obtain ⟨-, rfl⟩ := hp
    exact sound_flushed h (.refl _)
  | rehash masters =>
    simp only [perform, ite_none_right_eq_some, Option.some.injEq] at hp
    obtain ⟨hperm, rfl⟩ := hp
    apply sound_silent h
    exact ⟨hperm.map _, fun m hm => ⟨m, hperm.mem_iff.mp hm, .refl m⟩⟩
  | rehashInstances master slaves sentinels =>
    obtain ⟨m, hm, hp⟩ := bind_eq_some_iff.mp hp
    simp only [ite_none_right_eq_some, Option.some.injEq] at hp
    obtain ⟨⟨hslaves, hsentinels⟩, rfl⟩ := hp
    apply sound_silent h
    apply keeps_update
    intro x hx hname
    rw [h.good.eq_of_name (mem_of_getMasterByName hm) hx hname]
    refine kept_failover rfl rfl rfl (fun hf => hf) fun hw => ?_
    refine hw.change rfl rfl rfl rfl hw.addr hw.promoted ?_ ?_
    · intro ri hri
      exact hw.plain.slaves ri (hslaves.mem_iff.mp hri)
    · intro ri hri
      exact hw.plain.sentinels ri (hsentinels.mem_iff.mp hri)

/-! ## Every run -/

/-- A Sentinel that has just started, with plain words and epochs that cover the votes. -/
theorem Inv.start (hload : loadSentinel env directive s.file = .ok s.state)
    (hone : Ballot.OneVote s.votes) (hdisk : OnDisk env directive s.votes s.file) :
    Inv env directive s where
  good := by
    have hfresh := fresh_loadSentinel hload
    obtain ⟨hplain, hbound⟩ := hdisk _ hload
    refine ⟨hfresh.names, ?_, ?_, hbound⟩
    · intro m hm
      have hnone := hfresh.promoted m hm
      have haddr : sentinelGetCurrentMasterAddress m = m.addr := by
        simp [sentinelGetCurrentMasterAddress, hnone]
      refine ⟨hplain m hm, ?_, by simp [hnone]⟩
      rw [← haddr]
      exact (hplain m hm).addr
    · intro m hm
      exact ⟨hfresh.leaderEpoch m hm, by simp [hfresh.failoverEpoch m hm]⟩
  own := by
    intro m hm r hr
    rw [(fresh_loadSentinel hload).leader m hm] at hr
    simp at hr
  oneVote := hone
  disk := hdisk

theorem Inv.run (henv : ∀ h ip, env.resolve h = some ip → plain ip = true)
    (h : Inv env directive s) (ho : o.Sound s.votes) :
    Inv env directive { s with
      state := o.state
      file := flushAll s.others s.file o.writes
      votes := o.vote.toList ++ s.votes } where
  good := ho.good
  own := ho.own
  oneVote := ho.oneVote
  disk := by
    rcases ho.covered with hsub | ⟨before, w, hwrites, hgood⟩
    · intro st hload
      obtain ⟨hplain, hbound⟩ := h.disk.flushAll henv ho.writes st hload
      refine ⟨hplain, hbound.subset ?_⟩
      intro v hv
      rcases mem_append.mp hv with hv | hv
      · exact hsub hv
      · exact hv
    · -- the last write has the vote
      simp only [hwrites, flushAll, foldl_append, foldl_cons, foldl_nil]
      exact hgood.onDisk henv s.others _

theorem Inv.step (henv : ∀ h ip, env.resolve h = some ip → plain ip = true) {s' : Server}
    (h : Inv env directive s) {e : Event} (hstep : step env directive s e = some s') :
    Inv env directive s' := by
  cases e with
  | run op =>
    obtain ⟨o, ho, hstep⟩ := bind_eq_some_iff.mp hstep
    cases hstep
    exact h.run henv (perform_sound henv h ho)
  | crash op written runid others =>
    obtain ⟨o, ho, hstep⟩ := bind_eq_some_iff.mp hstep
    obtain ⟨st, hload, hstep⟩ := bind_eq_some_iff.mp hstep
    cases hstep
    have hsound := perform_sound henv h ho
    refine Inv.start ?_ h.oneVote ?_
    · exact eq_ok_of_toOption hload
    · exact h.disk.flushAll henv fun w hw => hsound.writes w (mem_of_mem_take hw)

/-- The words of the configuration that a Sentinel starts with are plain. -/
def PlainWords (s : Server) : Prop := ∀ m ∈ s.state.masters, m.Plain

theorem Reachable.inv (henv : ∀ h ip, env.resolve h = some ip → plain ip = true)
    (h : Reachable env directive PlainWords s) : Inv env directive s := by
  induction h with
  | init hinit hplain =>
    refine Inv.start hinit.load ?_ ?_
    · rw [hinit.votes]
      intro v hv
      simp at hv
    · intro st hload
      rw [hinit.load] at hload
      cases hload
      refine ⟨hplain, ?_⟩
      rw [hinit.votes]
      intro v hv
      simp at hv
  | step _ hstep ih => exact ih.step henv hstep

theorem Reachable.steps {P : Server → Prop} {es : List Event} : ∀ {s s' : Server},
    Reachable env directive P s → es.foldlM (Sentinel.step env directive) s = some s' →
      Reachable env directive P s' := by
  induction es with
  | nil =>
    intro s s' h hrun
    cases hrun
    exact h
  | cons e es ih =>
    intro s s' h hrun
    rw [foldlM_cons] at hrun
    obtain ⟨s₁, h₁, hrun⟩ := bind_eq_some_iff.mp hrun
    exact ih (h.step h₁) hrun

/-- A host that knows plain words as addresses. -/
def plainEnv : Env := ⟨fun host => if plain host then some host else none, fun _ => true⟩

end Redis.Sentinel
