import Redis.Bus.Events

/-!
# Redis.Bus.Vote

The votes a node gives.  A vote is recorded in `lastVoteEpoch` before the next
one is asked for, so a process that runs votes once in an epoch; but the vote
is not written to `nodes.conf` before the `FAILOVER_AUTH_ACK` leaves.  A node
that restarts from a file older than a vote it gave votes a second time.
-/

namespace Redis.Bus

open List

variable {N : Type}

def MsgData.isAck : MsgData N → Bool
  | .failoverAuthAck => true
  | _ => false

/-- The epochs of the votes among the packets. -/
def ackEpochs (packets : List (Option N × Msg N)) : List Nat :=
  (packets.filter fun x => x.2.data.isAck).map fun x => x.2.currentEpoch

/-- No two slaves were sent a vote for the same epoch. -/
def OneVote (packets : List (Option N × Msg N)) : Prop :=
  ∀ x ∈ packets, ∀ y ∈ packets, x.2.data.isAck = true → y.2.data.isAck = true →
    x.2.currentEpoch = y.2.currentEpoch → x.1 = y.1

/-- `lastVoteEpoch` in the file. -/
def fileVoteEpoch (file : Option (List (ConfigLine N))) : Nat :=
  match file with
  | none => 0
  | some lines => lines.foldl (fun v line =>
    match line with
    | .vars _ lastVoteEpoch => lastVoteEpoch
    | .node _ => v) 0

/-- A restart finds every vote that has left the node in the file. -/
def Event.VotesSaved (st : State N) : Event N → Prop
  | .restart _ => ∀ e ∈ ackEpochs st.sent, e ≤ fileVoteEpoch st.file
  | _ => True

theorem ackEpochs_append (xs ys : List (Option N × Msg N)) :
    ackEpochs (xs ++ ys) = ackEpochs xs ++ ackEpochs ys := by
  simp [ackEpochs]

theorem OneVote.of_nodup {packets : List (Option N × Msg N)} (h : (ackEpochs packets).Nodup) :
    OneVote packets := by
  intro x hx y hy hxa hya heq
  have hx' : x ∈ packets.filter fun x => x.2.data.isAck := mem_filter.mpr ⟨hx, hxa⟩
  have hy' : y ∈ packets.filter fun x => x.2.data.isAck := mem_filter.mpr ⟨hy, hya⟩
  rw [inj_on_of_nodup_map h hx' hy' heq]

theorem fileVoteEpoch_configLines (st : State N) :
    fileVoteEpoch (some (configLines st)) = st.lastVoteEpoch := by
  simp [fileVoteEpoch, configLines, foldl_append]

/-- The votes are for different epochs, up to `lastVoteEpoch`, which is not above
the current epoch. -/
structure VoteInv (st : State N) : Prop where
  nodup : (ackEpochs (st.sent ++ st.queued)).Nodup
  le : ∀ e ∈ ackEpochs (st.sent ++ st.queued), e ≤ st.lastVoteEpoch
  current : st.lastVoteEpoch ≤ st.currentEpoch

namespace VoteInv

variable {st st' : State N}

theorem of_le (h : VoteInv st) (hacks : ackEpochs (st'.sent ++ st'.queued) = ackEpochs (st.sent ++ st.queued))
    (hvote : st'.lastVoteEpoch = st.lastVoteEpoch) (hcur : st.currentEpoch ≤ st'.currentEpoch) :
    VoteInv st' where
  nodup := by
    rw [hacks]
    exact h.nodup
  le := by
    rw [hacks, hvote]
    exact h.le
  current := by
    rw [hvote]
    exact h.current.trans hcur

theorem incr64_eq {e : Nat} (h : e + 1 < 2 ^ 64) : incr64 e = e + 1 := Nat.mod_eq_of_lt h

theorem vote (h : VoteInv st) (env : Env N) (n : Ptr) (hne : st.lastVoteEpoch ≠ st.currentEpoch) :
    VoteInv { clusterSendFailoverAuth env st n with
      lastVoteEpoch := (clusterSendFailoverAuth env st n).currentEpoch } := by
  have hlt : st.lastVoteEpoch < st.currentEpoch := Nat.lt_of_le_of_ne h.current hne
  unfold clusterSendFailoverAuth clusterSendIfLink
  split
  · have hacks : ackEpochs (st.sent ++ (st.queued ++ [(some (st.node n).name,
        clusterBuildMessageHdr env st .failoverAuthAck)])) =
        ackEpochs (st.sent ++ st.queued) ++ [st.currentEpoch] := by
      rw [← append_assoc, ackEpochs_append]
      rfl
    refine ⟨?_, ?_, Nat.le_refl _⟩
    · refine hacks ▸ nodup_append.mpr ⟨h.nodup, nodup_singleton _, fun a ha b hb hab => ?_⟩
      rw [mem_singleton.mp hb] at hab
      have ha' := h.le a ha
      omega
    · intro e he
      have he : e ∈ ackEpochs (st.sent ++ st.queued) ++ [st.currentEpoch] := hacks ▸ he
      rcases mem_append.mp he with he | he
      · exact (h.le e he).trans hlt.le
      · exact (mem_singleton.mp he).le
  · exact ⟨h.nodup, fun e he => (h.le e he).trans hlt.le, Nat.le_refl _⟩

variable [LinearOrder N] {g : Guard N}

theorem ledger (hwrap : ¬g.wrap) (hhard : ¬g.hardReset) (h : VoteInv st) (hs : LedgerStep g st st') :
    VoteInv st' := by
  cases hs with
  | same hs => exact h.of_le (by rw [hs.sent, hs.queued]) hs.lastVoteEpoch hs.currentEpoch.ge
  | current e he => exact h.of_le rfl rfl he
  | newEpoch hlt =>
    refine h.of_le rfl rfl ?_
    change st.currentEpoch ≤ incr64 st.currentEpoch
    rw [incr64_eq (hlt.resolve_left hwrap)]
    exact Nat.le_succ _
  | election hlt =>
    refine h.of_le rfl rfl ?_
    change st.currentEpoch ≤ incr64 st.currentEpoch
    rw [incr64_eq (hlt.resolve_left hwrap)]
    exact Nat.le_succ _
  | vote env n hne => exact h.vote env n hne
  | send p msg hmsg =>
    refine h.of_le ?_ rfl (Nat.le_refl _)
    have hack : msg.data.isAck = false := by
      cases hd : msg.data with
      | failoverAuthAck => exact absurd hd hmsg.noAck
      | _ => rfl
    change ackEpochs (st.sent ++ (st.queued ++ [(_, msg)])) = _
    rw [← append_assoc, ackEpochs_append]
    simp [ackEpochs, hack]
  | save fsync => exact h.of_le rfl rfl (Nat.le_refl _)
  | flush =>
    refine h.of_le ?_ rfl (Nat.le_refl _)
    simp [flush]
  | hardReset env hg _ => exact absurd hg hhard

theorem load {st0 : State N} (hw : Wf st0) (h : VoteInv st) (h0 : VoteInv st0) (env : Env N)
    (hsaved : ∀ e ∈ ackEpochs st.sent, e ≤ st0.lastVoteEpoch) :
    VoteInv (clusterInit env (some (configLines st0)) st.sent) := by
  obtain ⟨st1, hl, heq⟩ := clusterInit_eq env hw.nodeLines st0.currentEpoch st0.lastVoteEpoch st.sent
  rw [configLines_eq, heq]
  have hacks : ackEpochs ((loadedState env st1 st0.currentEpoch st0.lastVoteEpoch).sent ++
      (loadedState env st1 st0.currentEpoch st0.lastVoteEpoch).queued) = ackEpochs st.sent := by
    have hsent : (loadedState env st1 st0.currentEpoch st0.lastVoteEpoch).sent = st.sent := hl.sent
    have hqueued : (loadedState env st1 st0.currentEpoch st0.lastVoteEpoch).queued = [] := hl.queued
    rw [hsent, hqueued, append_nil]
  have hnodup := h.nodup
  rw [ackEpochs_append] at hnodup
  refine ⟨hacks ▸ (nodup_append.mp hnodup).1, hacks ▸ hsaved, ?_⟩
  exact h0.current.trans (loadedState_currentEpoch env st1 _ _)

end VoteInv

variable [LinearOrder N] {st : State N}

/-- The events of a run in which no vote is forgotten: there is no hard reset,
the current epoch does not overflow, and a restart finds the votes that have
left in the file. -/
structure Event.KeepsVotes (st : State N) (ev : Event N) : Prop where
  ok : ev.Ok st
  soft : ¬ev.isHardReset
  noWrap : ev.NoWrap st
  saved : ev.VotesSaved st

/-- In a run in which no vote is forgotten, no two slaves are sent a vote for the
same epoch. -/
theorem reachable_oneVote (h : Reachable (fun st ev => ev.KeepsVotes st) st) : OneVote st.sent := by
  have hinv : VoteInv st := by
    refine (h.invariant (fun ev => { ev.guard with hardReset := False, wrap := False }) ?_ ?_ ?_ ?_).2.1
    · intro st ev _ _ hok _
      exact ⟨hok.ok, fun _ hn => hn, hok.ok.sender, .inl trivial, .inr hok.noWrap, .inl trivial,
        .inl trivial, fun _ => trivial, fun hhard => absurd hhard hok.soft⟩
    · exact fun ev st st' hw hi hm => hi.ledger (fun hg => hg) (fun hg => hg) (hm.ledger hw)
    · exact fun env => ⟨nodup_nil, fun e he => absurd he not_mem_nil, Nat.le_refl _⟩
    · intro env st st0 hi hw hi0 hfile hok
      refine hi.load hw hi0 env fun e he => ?_
      have hle := hok.saved e he
      rwa [hfile, fileVoteEpoch_configLines] at hle
  have hnodup := hinv.nodup
  rw [ackEpochs_append] at hnodup
  exact OneVote.of_nodup (nodup_append.mp hnodup).1

/-- A quiet environment after the start. -/
def laterEnv : Env Nat := { quietEnv with now := 100000 }

/-- A `PONG` of a slave of this node. -/
def slavePong (name : Nat) : Msg Nat :=
  { masterPong name with slaveof := some 101, flags := { slave := true } }

/-- A slave of this node asks for a vote in epoch 1, in a manual failover. -/
def authRequest (name : Nat) : Msg Nat :=
  { slavePong name with data := .failoverAuthRequest, currentEpoch := 1, forceack := true }

/-- Two slaves join, and this node is given a slot. -/
def joinEvents : List (Event Nat) :=
  [.command laterEnv (.meet [49] 6379), .command laterEnv (.meet [49] 6380), .cron laterEnv,
    .packet laterEnv (some 2) (slavePong 8), .packet laterEnv (some 3) (slavePong 9),
    .packet laterEnv (some 2) (slavePong 8), .packet laterEnv (some 3) (slavePong 9),
    .command laterEnv (.addslots [some 0])]

/-- The state in which the two slaves have joined. -/
def joinedState : State Nat := joinEvents.foldl step (clusterInit laterEnv none [])

/-- The configuration is saved, and one of the slaves is given a vote that leaves
the node. -/
def voteEvents : List (Event Nat) :=
  [.command laterEnv .saveconfig, .packet laterEnv none (authRequest 8), .beforeSleep laterEnv]

/-- The process is killed and starts again, and the other slave asks for a vote. -/
def revoteEvents : List (Event Nat) :=
  [.restart laterEnv, .cron laterEnv, .packet laterEnv none (authRequest 9), .beforeSleep laterEnv]

/-- The packets of the two slaves, on the link of a node of the table. -/
theorem slavePong_ok {st : State Nat} {l : Ptr} (hl : l ∈ st.nodes) {name : Nat} (hname : name < 100) :
    PacketOk st laterEnv (some l) (slavePong name) := by
  refine quietPacket_ok rfl ?_ rfl (by simp [slavePong, masterPong]) hname
  rintro _ ⟨⟩
  exact hl

theorem authRequest_ok (st : State Nat) {name : Nat} (hname : name < 100) :
    PacketOk st laterEnv none (authRequest name) :=
  quietPacket_ok rfl (by simp) rfl (by simp [authRequest]) hname

/-- A vote leaves the node. -/
theorem oneVote_vote :
    ackEpochs (voteEvents.foldl step joinedState).sent = [1] ∧
      OneVote (voteEvents.foldl step joinedState).sent := by
  have h : Reachable (fun st ev => ev.KeepsVotes st) (clusterInit laterEnv none []) := .start laterEnv
  -- the epochs stay small
  have hcmd : ∀ (st : State Nat) (cmd : Command Nat), st.currentEpoch ≤ 1 → cmd ≠ .reset true →
      (Event.command laterEnv cmd).KeepsVotes st := fun st cmd hle hc =>
    ⟨trivial, hc, by simp only [Event.NoWrap]; omega, trivial⟩
  have hcron : ∀ st : State Nat, st.currentEpoch ≤ 1 → (Event.cron laterEnv).KeepsVotes st :=
    fun st hle => ⟨trivial, fun hf => hf, by simp only [Event.NoWrap]; omega, trivial⟩
  have hsleep : ∀ st : State Nat, st.currentEpoch ≤ 1 → (Event.beforeSleep laterEnv).KeepsVotes st :=
    fun st hle => ⟨trivial, fun hf => hf, by simp only [Event.NoWrap]; omega, trivial⟩
  have hpacket : ∀ (st : State Nat) (link : Option Ptr) (hdr : Msg Nat), st.currentEpoch ≤ 1 →
      hdr.currentEpoch ≤ 1 → PacketOk st laterEnv link hdr →
      (Event.packet laterEnv link hdr).KeepsVotes st := fun st link hdr hle hle' hok =>
    ⟨hok, fun hf => hf, by simp only [Event.NoWrap]; omega, trivial⟩
  have hjoin : Reachable (fun st ev => ev.KeepsVotes st) joinedState := by
    refine h.run ⟨hcmd _ _ ?_ (by simp), hcmd _ _ ?_ (by simp), hcron _ ?_,
      hpacket _ _ _ ?_ ?_ (slavePong_ok ?_ ?_), hpacket _ _ _ ?_ ?_ (slavePong_ok ?_ ?_),
      hpacket _ _ _ ?_ ?_ (slavePong_ok ?_ ?_), hpacket _ _ _ ?_ ?_ (slavePong_ok ?_ ?_),
      hcmd _ _ ?_ (by simp), trivial⟩
    all_goals decide +kernel
  refine ⟨by decide +kernel, reachable_oneVote (hjoin.run ⟨hcmd _ _ ?_ (by simp),
    hpacket _ _ _ ?_ ?_ (authRequest_ok _ ?_), hsleep _ ?_, trivial⟩)⟩
  all_goals decide +kernel

/-- The file that is saved before the vote. -/
def votedFile : List (ConfigLine Nat) :=
  [.node ⟨101, [], 6379, { master := true, myself := true }, none, 0, 0, 0, [0], []⟩,
    .node ⟨8, [49], 6379, { slave := true }, some 101, 0, 100000, 0, [], []⟩,
    .node ⟨9, [49], 6380, { slave := true }, some 101, 0, 100000, 0, [], []⟩, .vars 0 0]

theorem joinedState_configLines : configLines joinedState = votedFile := by
  have hmig : ∀ j, joinedState.migratingSlotsTo j = none := fun _ => rfl
  have himp : ∀ j, joinedState.importingSlotsFrom j = none := by
    intro j
    change Function.update (fun _ => none) 0 none j = none
    rw [Function.update_apply, ite_self]
  have h1 : clusterGenNodeDescription joinedState (joinedState.node 1) =
      ⟨101, [], 6379, { master := true, myself := true }, none, 0, 0, 0, [0], []⟩ :=
    (genNodeDescription_eq (by decide +kernel) (by decide +kernel) hmig himp).trans
      (by decide +kernel)
  have h2 : clusterGenNodeDescription joinedState (joinedState.node 2) =
      ⟨8, [49], 6379, { slave := true }, some 101, 0, 100000, 0, [], []⟩ :=
    (genNodeDescription_eq (by decide +kernel) (by decide +kernel) hmig himp).trans
      (by decide +kernel)
  have h3 : clusterGenNodeDescription joinedState (joinedState.node 3) =
      ⟨9, [49], 6380, { slave := true }, some 101, 0, 100000, 0, [], []⟩ :=
    (genNodeDescription_eq (by decide +kernel) (by decide +kernel) hmig himp).trans
      (by decide +kernel)
  have hnodes : joinedState.nodes.filter (fun p => !(joinedState.node p).flags.handshake) =
      [1, 2, 3] := by decide +kernel
  have hvars : joinedState.currentEpoch = 0 ∧ joinedState.lastVoteEpoch = 0 := by decide +kernel
  rw [configLines, hnodes, hvars.1, hvars.2]
  simp only [map_cons, map_nil, h1, h2, h3]
  rfl

/-- The process is killed after the vote left, starts again from the file and
votes for the other slave. -/
theorem restart_votes_twice : ∃ st : State Nat,
    Reachable (fun st ev => ev.Ok st ∧ ¬ev.isHardReset) st ∧ ¬OneVote st.sent := by
  have h : Reachable (fun st ev => ev.Ok st ∧ ¬ev.isHardReset) (clusterInit laterEnv none []) :=
    .start laterEnv
  have hno : ∀ cmd : Command Nat, cmd ≠ .reset true → ¬(Event.command laterEnv cmd).isHardReset :=
    fun cmd hc hf => hc hf
  have hjoin : Reachable (fun st ev => ev.Ok st ∧ ¬ev.isHardReset) joinedState := by
    refine h.run ⟨⟨trivial, hno _ (by simp)⟩, ⟨trivial, hno _ (by simp)⟩, ⟨trivial, fun hf => hf⟩,
      ⟨slavePong_ok ?_ ?_, fun hf => hf⟩, ⟨slavePong_ok ?_ ?_, fun hf => hf⟩,
      ⟨slavePong_ok ?_ ?_, fun hf => hf⟩, ⟨slavePong_ok ?_ ?_, fun hf => hf⟩,
      ⟨trivial, hno _ (by simp)⟩, trivial⟩
    all_goals decide +kernel
  have hrun : Reachable (fun st ev => ev.Ok st ∧ ¬ev.isHardReset)
      ((voteEvents ++ revoteEvents).foldl step joinedState) :=
    hjoin.run ⟨⟨trivial, hno _ (by simp)⟩, ⟨authRequest_ok _ (by decide), fun hf => hf⟩,
      ⟨trivial, fun hf => hf⟩, ⟨trivial, fun hf => hf⟩, ⟨trivial, fun hf => hf⟩,
      ⟨authRequest_ok _ (by decide), fun hf => hf⟩, ⟨trivial, fun hf => hf⟩, trivial⟩
  -- what the events make of the file that was saved
  have hsave : (voteEvents ++ revoteEvents).foldl step joinedState =
      (voteEvents.tail ++ revoteEvents).foldl step
        { joinedState with file := some votedFile, todoSaveConfig := false, todoFsyncConfig := false } := by
    rw [← joinedState_configLines]
    have hfailed : joinedState.failed.isSome = false := by decide +kernel
    have hstep : step joinedState (.command laterEnv .saveconfig) = clusterSaveConfig joinedState true := by
      rw [step_eq _ (by simp), hfailed]
      rfl
    have hfsync : (joinedState.todoFsyncConfig && !true) = false := Bool.and_false _
    rw [voteEvents, cons_append, foldl_cons, hstep, clusterSaveConfig, hfsync]
    rfl
  have hsent : (((voteEvents.tail ++ revoteEvents).foldl step { joinedState with
      file := some votedFile, todoSaveConfig := false, todoFsyncConfig := false }).sent.filter
      fun x => x.2.data.isAck).map (fun x => (x.1, x.2.currentEpoch)) = [(some 8, 1), (some 9, 1)] := by
    decide +kernel
  rw [hsave] at hrun
  generalize (voteEvents.tail ++ revoteEvents).foldl step { joinedState with
    file := some votedFile, todoSaveConfig := false, todoFsyncConfig := false } = st at hrun hsent
  refine ⟨st, hrun, fun hone => ?_⟩
  have hmem : ∀ name ∈ [8, 9], ∃ x ∈ st.sent,
      x.2.data.isAck = true ∧ x.1 = some name ∧ x.2.currentEpoch = 1 := by
    intro name hname
    have hin : (some name, 1) ∈ [(some 8, 1), (some 9, 1)] := by
      simpa using hname
    rw [← hsent] at hin
    obtain ⟨x, hx, heq⟩ := mem_map.mp hin
    obtain ⟨hx, hack⟩ := mem_filter.mp hx
    simp only [Prod.mk.injEq] at heq
    exact ⟨x, hx, hack, heq.1, heq.2⟩
  obtain ⟨x, hx, hxa, hx1, hxe⟩ := hmem 8 (by simp)
  obtain ⟨y, hy, hya, hy1, hye⟩ := hmem 9 (by simp)
  have heq := hone x hx y hy hxa hya (hxe.trans hye.symm)
  rw [hx1, hy1] at heq
  cases heq

end Redis.Bus
