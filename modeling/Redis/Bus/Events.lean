import Redis.Bus.Restart

/-!
# Redis.Bus.Events

Runs of a node: every event but a restart is a run of small changes
(`Steps.runEvent`), and the file a restart reads was written in a state of the
run.  `Reachable.invariant` is the rule for the invariants of a run.
-/

namespace Redis.Bus

open List

variable {N : Type} [LinearOrder N] {g : Guard N} {st st' : State N}
variable {ev : Event N} {ok : State N → Event N → Prop}

/-! ## One event -/

/-- The names an event can create nodes with. -/
def Event.draws (ev : Event N) (name : N) : Prop :=
  match ev with
  | .packet env _ _ => ∃ p, env.newName p = name
  | .command env _ => ∃ p, env.newName p = name
  | _ => False

/-- A packet comes on a link of the table or on one without a node, its bitmaps
have the size of a bitmap, and the random names differ from the name of its
sender. -/
def Event.Ok (st : State N) : Event N → Prop
  | .packet env link hdr => PacketOk st env link hdr
  | _ => True

/-- The event takes over no configuration epoch above the current epoch of its
packet. -/
def Event.Epochs (st : State N) : Event N → Prop
  | .packet _ _ hdr => PacketEpochs st hdr
  | _ => True

/-- An increment of the current epoch in the event does not overflow. -/
def Event.NoWrap (st : State N) : Event N → Prop
  | .packet _ _ hdr => st.currentEpoch + 1 < 2 ^ 64 ∧ hdr.currentEpoch + 1 < 2 ^ 64
  | .restart _ => True
  | _ => st.currentEpoch + 1 < 2 ^ 64

/-- The event gives slots to this node while it is a slave. -/
def Event.slaveSlots (st : State N) : Event N → Prop
  | .command _ cmd => cmd.slaveSlots st
  | _ => False

/-- The nodes the event deletes or turns into slaves leave no links behind. -/
def Event.TidyLinks (st : State N) : Event N → Prop
  | .packet _ link hdr => PacketLinks st link hdr
  | .command _ cmd => cmd.TidyLinks st
  | .cron env => ∀ p ∈ st.nodes, handshakeTimedOut env st p = true → Tidy st p
  | _ => True

/-- The event is a command that deletes nodes. -/
def Event.forgets : Event N → Prop
  | .command _ cmd => cmd.forgets
  | _ => False

/-- `CLUSTER RESET HARD`. -/
def Event.isHardReset : Event N → Prop
  | .command _ cmd => cmd = .reset true
  | _ => False

/-- The guard that allows everything, with the names of the event. -/
def Event.guard (ev : Event N) : Guard N := ⟨ev.draws, True, True, True, True, True, True⟩

/-- The small changes of the event are those the guard allows. -/
structure Event.Allowed (g : Guard N) (st : State N) (ev : Event N) : Prop where
  ok : ev.Ok st
  names : ∀ name, ev.draws name → g.names name
  sender : ∀ env link hdr, ev = .packet env link hdr → ¬g.names hdr.sender
  epochs : g.anyEpoch ∨ ev.Epochs st
  wrap : g.wrap ∨ ev.NoWrap st
  slaveSlots : g.slaveSlots ∨ ¬ev.slaveSlots st
  links : g.links ∨ ev.TidyLinks st
  forget : ev.forgets → g.forget
  hardReset : ev.isHardReset → g.hardReset

omit [LinearOrder N] in
/-- The random names of an event are not that of the sender of its packet. -/
theorem Event.Ok.sender (h : ev.Ok st) :
    ∀ env link hdr, ev = .packet env link hdr → ¬ev.draws hdr.sender := by
  rintro env link hdr rfl ⟨p, hp⟩
  exact h.newName p hp

theorem Run.verifySlot (hw : Wf st) (hslave : st.me.flags.slave = false) (env : Env N) (n : Nat)
    {j : Nat} (hj : j < clusterSlots) :
    Run g st (verifySlot env (st, n) j).1 ∧ (verifySlot env (st, n) j).1.me.flags = st.me.flags := by
  unfold Bus.verifySlot
  dsimp only
  split
  · exact ⟨.refl st, rfl⟩
  · split
    · exact ⟨Run.addSlot hw.myself.mem hj (.inr (.inl hslave)), (Frame.addSlot st _ j).me_flags⟩
    · refine ⟨(Calm.setImporting j fun p hp => ?_).toRun, rfl⟩
      exact ⟨hj, ((hw.slots.owner j p).mp hp).1⟩

theorem Run.verifySlots (hw : Wf st) (hslave : st.me.flags.slave = false) (env : Env N) (n : Nat)
    {js : List Nat} (hjs : ∀ j ∈ js, j < clusterSlots) :
    Run g st (js.foldl (Bus.verifySlot env) (st, n)).1 := by
  induction js generalizing st n with
  | nil => exact .refl st
  | cons j js ih =>
    obtain ⟨h1, hme⟩ := Run.verifySlot (g := g) hw hslave env n (hjs j mem_cons_self)
    rw [foldl_cons]
    refine h1.trans (ih (hw.steps h1.steps) ?_ _ fun i hi => hjs i (mem_cons_of_mem j hi))
    rw [hme]
    exact hslave

theorem Steps.verifyData (hw : Wf st) (env : Env N) :
    Steps g st (verifyClusterConfigWithData env st) := by
  unfold verifyClusterConfigWithData
  split
  · exact .refl
  · next hslave =>
    have h : Run g st ((range clusterSlots).foldl (Bus.verifySlot env) (st, 0)).1 :=
      Run.verifySlots hw (by simpa using hslave) env 0 fun j hj => mem_range.mp hj
    generalize (range clusterSlots).foldl (Bus.verifySlot env) (st, 0) = acc at h ⊢
    obtain ⟨st1, n⟩ := acc
    dsimp only
    split
    · exact h.steps.tail (.save st1 true)
    · exact h.steps

theorem Steps.runEvent (hw : Wf st) (hr : ∀ env, ev ≠ .restart env) (h : ev.Allowed g st) :
    Steps g st (runEvent st ev) := by
  cases ev with
  | packet env link hdr =>
    exact Steps.processPacket hw h.ok (fun p => h.names _ ⟨p, rfl⟩) (h.sender env link hdr rfl)
      h.epochs h.wrap h.links
  | command env cmd =>
    exact Steps.command hw (fun p => h.names _ ⟨p, rfl⟩) cmd h.wrap h.slaveSlots h.forget
      (fun hc => h.hardReset hc) h.links
  | cron env => exact Steps.cron hw env h.wrap h.links
  | beforeSleep env => exact (Steps.beforeSleep hw env h.wrap).tail (.flush _)
  | linkError p =>
    rw [Bus.runEvent]
    exact .single (.soft (.modNode st p fun _ => .rest (Sublist.refl _)))
  | verifyData env => exact Steps.verifyData hw env
  | restart env => exact absurd rfl (hr env)

/-! ## The ledger -/

/-- The epochs and votes of the node, its file and its packets are the same. -/
structure SameLedger (st st' : State N) : Prop where
  currentEpoch : st'.currentEpoch = st.currentEpoch
  lastVoteEpoch : st'.lastVoteEpoch = st.lastVoteEpoch
  failoverAuthEpoch : st'.failoverAuthEpoch = st.failoverAuthEpoch
  file : st'.file = st.file
  queued : st'.queued = st.queued
  sent : st'.sent = st.sent

omit [LinearOrder N] in
theorem SameLedger.refl (st : State N) : SameLedger st st := ⟨rfl, rfl, rfl, rfl, rfl, rfl⟩

omit [LinearOrder N] in
theorem Links.sameLedger (h : Links st st') : SameLedger st st' :=
  ⟨h.currentEpoch, h.lastVoteEpoch, h.failoverAuthEpoch, h.file, h.queued, h.sent⟩

omit [LinearOrder N] in
theorem SameLedger.addSlot (st : State N) (n : Ptr) (j : Nat) :
    SameLedger st (clusterAddSlot st n j) := by
  unfold clusterAddSlot
  cases st.slots j with
  | none => exact { SameLedger.refl st with }
  | some n => exact SameLedger.refl st

omit [LinearOrder N] in
theorem SameLedger.delSlot (st : State N) (j : Nat) : SameLedger st (clusterDelSlot st j) := by
  unfold clusterDelSlot
  cases st.slots j with
  | none => exact SameLedger.refl st
  | some n =>
    dsimp only
    rw [State.assert_eq]
    exact { SameLedger.refl st with }

/-- A small change, where the changes that keep the ledger are one case. -/
inductive LedgerStep (g : Guard N) (st : State N) : State N → Prop
  | same {st' : State N} : SameLedger st st' → LedgerStep g st st'
  | current (e : Nat) : st.currentEpoch ≤ e → LedgerStep g st { st with currentEpoch := e }
  | newEpoch : (g.wrap ∨ st.currentEpoch + 1 < 2 ^ 64) → LedgerStep g st (takeNewEpoch st)
  | election : (g.wrap ∨ st.currentEpoch + 1 < 2 ^ 64) →
      LedgerStep g st { st with currentEpoch := incr64 st.currentEpoch,
                                failoverAuthEpoch := incr64 st.currentEpoch }
  | vote (env : Env N) (n : Ptr) : st.lastVoteEpoch ≠ st.currentEpoch →
      LedgerStep g st { clusterSendFailoverAuth env st n with
        lastVoteEpoch := (clusterSendFailoverAuth env st n).currentEpoch }
  | send (p : Option Ptr) (msg : Msg N) : Honest st msg → LedgerStep g st (clusterSendMessage st p msg)
  | save (fsync : Bool) : LedgerStep g st (clusterSaveConfig st fsync)
  | flush : LedgerStep g st (flush st)
  | hardReset (env : Env N) : g.hardReset → st.nodes = [st.myself] →
      LedgerStep g st (hardReset env st)

theorem Micro.ledger (hw : Wf st) (hm : Micro g st st') : LedgerStep g st st' := by
  cases hm with
  | soft hs =>
    exact .same ⟨hs.currentEpoch, hs.lastVoteEpoch, hs.failoverAuthEpoch, hs.file, hs.queued, hs.sent⟩
  | assert _ b a =>
    rw [State.assert_eq]
    exact .same { SameLedger.refl st with }
  | addSlot _ n j => exact .same (SameLedger.addSlot st n j)
  | delSlot _ j => exact .same (SameLedger.delSlot st j)
  | create _ now name f =>
    rw [hw.table.create_eq]
    exact .same { SameLedger.refl st with }
  | free _ n hn =>
    have h := (Links.free hw.table hn).sameLedger
    exact .same { h with }
  | endHandshake _ p name m s hp _ _ hnone =>
    rw [hw.table.rename_eq hp hnone]
    exact .same ⟨rfl, rfl, rfl, rfl, rfl, rfl⟩
  | setNodeAsMaster _ n => exact .same (Links.setNodeAsMaster st n).sameLedger
  | demote _ s => exact .same (Links.demote st s).sameLedger
  | changeMaster _ s m => exact .same (Links.changeMaster st s m).sameLedger
  | setMaster _ n => exact .same (Links.setMaster st n).sameLedger
  | failureReport _ now f s => exact .same ⟨rfl, rfl, rfl, rfl, rfl, rfl⟩
  | openSlots _ mig imp => exact .same ⟨rfl, rfl, rfl, rfl, rfl, rfl⟩
  | mfSlave _ s => exact .same ⟨rfl, rfl, rfl, rfl, rfl, rfl⟩
  | current _ e he => exact .current e he
  | config _ n e => exact .same ⟨rfl, rfl, rfl, rfl, rfl, rfl⟩
  | newEpoch _ h => exact .newEpoch h
  | election _ h => exact .election h
  | win => exact .same ⟨rfl, rfl, rfl, rfl, rfl, rfl⟩
  | vote env _ n h => exact .vote env n h
  | send _ p msg h => exact .send p msg h
  | save _ fsync => exact .save fsync
  | flush => exact .flush
  | hardReset env _ h hnodes => exact .hardReset env h hnodes

/-- A small change keeps the file, or writes that of the state. -/
theorem LedgerStep.file (hw : Wf st) (h : LedgerStep g st st') :
    st'.file = st.file ∨ st'.file = some (configLines st) := by
  cases h with
  | same hs => exact .inl hs.file
  | current e _ => exact .inl rfl
  | newEpoch _ => exact .inl rfl
  | election _ => exact .inl rfl
  | vote env n _ =>
    left
    unfold clusterSendFailoverAuth clusterSendIfLink
    split
    · rfl
    · rfl
  | send p msg _ => exact .inl rfl
  | save fsync => exact .inr rfl
  | flush => exact .inl rfl
  | hardReset env _ hnodes =>
    rw [hw.table.hardReset_eq hnodes]
    exact .inl rfl

/-! ## Runs -/

/-- An environment in which no time passes, the node has no keys and every
connection succeeds; the node created at the address `p` is named `100 + p`. -/
def quietEnv : Env Nat where
  now := 0
  unixtime := 0
  random := 0
  newName := fun p => 100 + p
  dbSize := 0
  countKeysInSlot := fun _ => 0
  replicationGetSlaveOffset := 0
  masterReplOffset := 0
  replConnected := true
  lastinteraction := 0
  replDownSince := 0
  peerIp := []
  sockName := none
  normIp := some
  connects := fun _ => true
  randomNodes := []
  gossipNodes := []
  port := 6379
  clusterNodeTimeout := 15000
  clusterSlaveValidityFactor := 10
  replPingSlavePeriod := 10
  clusterMigrationBarrier := 1
  clusterRequireFullCoverage := true

/-- A `PONG` of the master named `name`, without slots. -/
def masterPong (name : Nat) : Msg Nat where
  data := .pong []
  sender := name
  currentEpoch := 0
  configEpoch := 0
  offset := 0
  myslots := []
  slaveof := none
  port := 6379
  flags := { master := true }
  paused := false
  forceack := false

/-- `CLUSTER MEET`, the first connection, the `PONG` of the node named 7 that
ends the handshake, and `CLUSTER REPLICATE`. -/
def replicateEvents : List (Event Nat) :=
  [.command quietEnv (.meet [49] 6379), .cron quietEnv, .packet quietEnv (some 2) (masterPong 7),
    .command quietEnv (.replicate 7)]

theorem step_eq (st : State N) (hr : ∀ env, ev ≠ .restart env) :
    step st ev = if st.failed.isSome then st else runEvent st ev := by
  cases ev with
  | restart env => exact absurd rfl (hr env)
  | _ => rfl

/-- The states a node reaches from its first start, where `ok` holds of every
event in the state it meets. -/
inductive Reachable (ok : State N → Event N → Prop) : State N → Prop
  | start (env : Env N) : Reachable ok (clusterInit env none [])
  | step {st : State N} (ev : Event N) : Reachable ok st → ok st ev → Reachable ok (step st ev)

/-- `ok` holds of each event of a list in the state it meets. -/
def RunOk (ok : State N → Event N → Prop) (st : State N) : List (Event N) → Prop
  | [] => True
  | ev :: evs => ok st ev ∧ RunOk ok (step st ev) evs

theorem Reachable.run {evs : List (Event N)} (h : Reachable ok st) (hok : RunOk ok st evs) :
    Reachable ok (evs.foldl Bus.step st) := by
  induction evs generalizing st with
  | nil => exact h
  | cons ev evs ih => exact ih (.step ev h hok.1) hok.2

theorem quietPacket_ok {st : State Nat} {env : Env Nat} {link : Option Ptr} {hdr : Msg Nat}
    (hname : env.newName = quietEnv.newName) (hlink : ∀ l, link = some l → l ∈ st.nodes)
    (hslots : hdr.myslots = []) (hdata : ∀ e name slots, hdr.data ≠ .update e name slots)
    (hsender : hdr.sender < 100) : PacketOk st env link hdr where
  link := hlink
  myslots := by
    rw [hslots]
    exact fun j hj => absurd hj not_mem_nil
  update := fun e name slots hupdate => absurd hupdate (hdata e name slots)
  newName := by
    intro p hp
    rw [hname] at hp
    have hp' : (100 + p : Nat) = hdr.sender := hp
    omega

theorem masterPong_ok {st : State Nat} {l : Ptr} (hl : l ∈ st.nodes) :
    PacketOk st quietEnv (some l) (masterPong 7) := by
  refine quietPacket_ok rfl ?_ rfl (by simp [masterPong]) (by decide)
  rintro _ ⟨⟩
  exact hl

theorem replicateEvents_ok :
    RunOk (fun st ev => ev.Ok st ∧ ¬ev.slaveSlots st) (clusterInit quietEnv none []) replicateEvents :=
  ⟨⟨trivial, fun h => h⟩, ⟨trivial, fun h => h⟩, ⟨masterPong_ok (by decide), fun h => h⟩,
    ⟨trivial, fun h => h⟩, trivial⟩

/-- The file was written in a well formed state in which `I` held. -/
def Saved (I : State N → Prop) (st : State N) : Prop :=
  ∃ st0, Wf st0 ∧ I st0 ∧ st.file = some (configLines st0)

/-- A run of small changes keeps an invariant that each of them keeps, and the
file stays one that was written under the invariant. -/
theorem Steps.invariant {I : State N → Prop}
    (hmicro : ∀ st st', Wf st → I st → Micro g st st' → I st') (hs : Steps g st st') (hw : Wf st)
    (hi : I st) (hsaved : Saved I st) : Wf st' ∧ I st' ∧ Saved I st' := by
  induction hs with
  | refl => exact ⟨hw, hi, hsaved⟩
  | tail _ hm ih =>
    obtain ⟨hw1, hi1, hsaved1⟩ := ih
    refine ⟨hw1.micro hm, hmicro _ _ hw1 hi1 hm, ?_⟩
    rcases (hm.ledger hw1).file hw1 with hfile | hfile
    · obtain ⟨st0, hw0, hi0, hf0⟩ := hsaved1
      exact ⟨st0, hw0, hi0, hfile.trans hf0⟩
    · exact ⟨_, hw1, hi1, hfile⟩

/-- The rule for invariants: the small changes the events allow keep `I`, and it
holds after the first start and after a restart from a file that was written
under it. -/
theorem Reachable.invariant {I : State N → Prop} (g : Event N → Guard N)
    (hallowed : ∀ st ev, Wf st → I st → ok st ev → (∀ env, ev ≠ .restart env) → ev.Allowed (g ev) st)
    (hmicro : ∀ ev st st', Wf st → I st → Micro (g ev) st st' → I st')
    (hfresh : ∀ env, I (freshState env []))
    (hload : ∀ env st st0, I st → Wf st0 → I st0 → st.file = some (configLines st0) →
      ok st (.restart env) → I (clusterInit env (some (configLines st0)) st.sent))
    (h : Reachable ok st) : Wf st ∧ I st ∧ Saved I st := by
  induction h with
  | start env =>
    have hw := freshState_wf env []
    have hsave : Micro (g (.restart env)) (freshState env []) (clusterSaveConfig (freshState env []) true) :=
      .save _ true
    exact (clusterInit_none env []).invariant (hmicro (.restart env)) (hw.micro hsave)
      (hmicro _ _ _ hw (hfresh env) hsave) ⟨_, hw, hfresh env, rfl⟩
  | @step st ev _ hok ih =>
    obtain ⟨hw, hi, hsaved⟩ := ih
    have hrun : (∀ env, ev ≠ .restart env) → Wf (runEvent st ev) ∧ I (runEvent st ev) ∧
        Saved I (runEvent st ev) := fun hr =>
      (Steps.runEvent hw hr (hallowed st ev hw hi hok hr)).invariant (hmicro ev) hw hi hsaved
    cases ev with
    | restart env =>
      obtain ⟨st0, hw0, hi0, hfile⟩ := hsaved
      obtain ⟨st1, hl, heq⟩ := clusterInit_eq env hw0.nodeLines st0.currentEpoch
        st0.lastVoteEpoch st.sent
      have hi1 := hload env st st0 hi hw0 hi0 hfile hok
      rw [Bus.step, hfile]
      refine ⟨?_, hi1, st0, hw0, hi0, ?_⟩
      · rw [configLines_eq, heq]
        exact hl.wf hw0.nodeLines env _ _
      · rw [configLines_eq, heq]
        exact hl.file
    | _ =>
      rw [step_eq _ (by simp)]
      split
      · exact ⟨hw, hi, hsaved⟩
      · exact hrun (by simp)

theorem Reachable.wf (hok : ∀ st ev, ok st ev → ev.Ok st) (h : Reachable ok st) : Wf st := by
  refine (h.invariant (I := fun _ => True) Event.guard ?_
    (fun _ _ _ _ _ _ => trivial) (fun _ => trivial) fun _ _ _ _ _ _ _ _ => trivial).1
  intro st ev _ _ hev _
  exact ⟨hok st ev hev, fun _ hn => hn, (hok st ev hev).sender, .inl trivial, .inl trivial,
    .inl trivial, .inl trivial, fun _ => trivial, fun _ => trivial⟩

end Redis.Bus
