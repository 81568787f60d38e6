import Mathlib
import Redis.Ballot
import Redis.Sentinel

/-!
# Redis.Sentinel.Election

Sentinels that watch one master and elect the leader of its failover.  The messages
between them are in flight for any time.  Time itself is not modelled: whether a
timeout is over, or an instance does not answer, is a choice of the event.
-/

namespace Redis.Sentinel.Election

open Option Finset

variable {n : Nat}

/-- What a Sentinel knows of another one: its last vote, and `SRI_MASTER_DOWN`. -/
structure Peer (n : Nat) where
  leader : Option (Fin n)
  leaderEpoch : Nat
  masterDown : Bool

/-- A Sentinel and the master it watches.  The run id of a Sentinel is its number.  The
entry of `sentinels` for the Sentinel itself is not used. -/
structure Node (n : Nat) where
  epochs : Epochs (Fin n)
  addr : Addr
  quorum : Nat
  sdown : Bool
  odown : Bool
  tilt : Bool
  state : FailoverState
  failoverEpoch : Nat
  sentinels : Fin n → Peer n

/-- The request `SENTINEL is-master-down-by-addr`, whose run id may be `*`, and its reply,
whose leader may be `*`. -/
inductive Msg (n : Nat) where
  | request (src dst : Fin n) (addr : Addr) (epoch : Nat) (runid : Option (Fin n))
  | reply (src dst : Fin n) (isdown : Bool) (leader : Option (Fin n)) (leaderEpoch : Nat)
  deriving DecidableEq

/-- All Sentinels and the messages in flight.  `votes` are all votes cast so far and
`elected` the Sentinels that left `WAIT_START` as the leader, with the epoch of their
failover. -/
structure State (n : Nat) where
  nodes : Fin n → Node n
  msgs : List (Msg n)
  votes : List (Ballot.Vote (Fin n) (Fin n))
  elected : List (Fin n × Nat)

/-- The entries of `master->sentinels`. -/
def others (i : Fin n) : List (Fin n) := (List.finRange n).filter (· ≠ i)

/-- The votes of the others that a Sentinel knows. -/
def Node.votes (nd : Node n) (i : Fin n) : List (Option (Fin n) × Nat) :=
  (others i).map fun j => ((nd.sentinels j).leader, (nd.sentinels j).leaderEpoch)

/-! ## Steps -/

/-- What can happen.  The flags say how the clock and the connections decide. -/
inductive Event (n : Nat) where
  /-- `sentinelCheckSubjectivelyDown` and `sentinelCheckObjectivelyDown`. -/
  | checkDown (i : Fin n) (sdown : Bool)
  | tilt (i : Fin n) (on : Bool)
  /-- `sentinelStartFailoverIfNeeded` with its delay over. -/
  | start (i : Fin n)
  /-- `sentinelFailoverWaitStart`. -/
  | waitStart (i : Fin n) (order : List (Fin n)) (timeout : Bool)
  /-- The rest of a failover, and how it is aborted. -/
  | proceed (i : Fin n) (state : FailoverState)
  /-- `sentinelAskMasterStateToOtherSentinels` at one of the others. -/
  | ask (i j : Fin n)
  /-- The same function, where the last reply is too old. -/
  | expire (i j : Fin n)
  | deliver (m : Msg n)
  /-- A greater epoch of a hello message, or of another master. -/
  | newEpoch (i : Fin n) (epoch : Nat)
  /-- `sentinelResetMasterAndChangeAddress`. -/
  | switchMaster (i : Fin n) (addr : Addr)

/-- Replaces one Sentinel. -/
def State.set (st : State n) (i : Fin n) (nd : Node n) : State n :=
  { st with nodes := Function.update st.nodes i nd }

def sentinelCheckObjectivelyDown (i : Fin n) (nd : Node n) : Bool :=
  nd.sdown && decide (nd.quorum ≤ 1 + (others i).countP fun j => (nd.sentinels j).masterDown)

def sentinelStartFailover (nd : Node n) : Node n :=
  let currentEpoch := (nd.epochs.currentEpoch + 1) % 2 ^ 64
  { nd with
    state := .waitStart
    epochs := { nd.epochs with currentEpoch }
    failoverEpoch := currentEpoch }

def sentinelAbortFailover (nd : Node n) : Node n := { nd with state := .none }

/-- The vote that `sentinelVoteLeader` adds to those cast. -/
def castVotes (i : Fin n) (v : Epochs (Fin n)) (epoch : Nat) (runid : Fin n)
    (votes : List (Ballot.Vote (Fin n) (Fin n))) : List (Ballot.Vote (Fin n) (Fin n)) :=
  if (v.adopt epoch).Casts epoch then ⟨i, epoch, runid⟩ :: votes else votes

def sentinelFailoverWaitStart (st : State n) (i : Fin n) (order : List (Fin n))
    (timeout : Bool) : State n :=
  let nd := st.nodes i
  let r := sentinelGetLeader nd.epochs (nd.votes i) nd.quorum i nd.failoverEpoch order
  let votes := castVotes i nd.epochs nd.failoverEpoch
    (candidate nd.epochs (nd.votes i) i order) st.votes
  let nd := { nd with epochs := r.2 }
  if r.1 = some i then
    { st.set i { nd with state := .selectSlave } with
      votes
      elected := (i, nd.failoverEpoch) :: st.elected }
  else if timeout then { st.set i (sentinelAbortFailover nd) with votes }
  else { st.set i nd with votes }

/-- The request that `sentinelAskMasterStateToOtherSentinels` sends. -/
def askRequest (i j : Fin n) (nd : Node n) : Msg n :=
  .request i j nd.addr nd.epochs.currentEpoch (if nd.state = .none then none else some i)

/-- `SENTINEL is-master-down-by-addr`: an epoch that is not a `long long` gets an error,
which the sender ignores; `*` is no request for a vote, and an address that is not the
one of the master finds nothing. -/
def isMasterDownByAddr (st : State n) (src dst : Fin n) (addr : Addr) (epoch : Nat)
    (runid : Option (Fin n)) : State n :=
  let nd := st.nodes dst
  if 2 ^ 63 ≤ epoch then st
  else
    let found := decide (nd.addr = addr)
    let isdown := !nd.tilt && found && nd.sdown
    match runid, found with
    | some runid, true =>
      let epochs := sentinelVoteLeader nd.epochs epoch runid
      { st.set dst { nd with epochs } with
        votes := castVotes dst nd.epochs epoch runid st.votes
        msgs := .reply dst src isdown epochs.leader epochs.leaderEpoch :: st.msgs }
    | _, _ => { st with msgs := .reply dst src isdown none 0 :: st.msgs }

/-- `sentinelReceiveIsMasterDownReply`: a leader `*` leaves the last vote. -/
def sentinelReceiveIsMasterDownReply (ri : Peer n) (isdown : Bool) (leader : Option (Fin n))
    (leaderEpoch : Nat) : Peer n :=
  match leader with
  | some runid => ⟨some runid, leaderEpoch, isdown⟩
  | none => { ri with masterDown := isdown }

/-- Replaces what a Sentinel knows of another one. -/
def Node.setPeer (nd : Node n) (j : Fin n) (ri : Peer n) : Node n :=
  { nd with sentinels := Function.update nd.sentinels j ri }

/-- The handling of a message. -/
def receive (st : State n) : Msg n → State n
  | .request src dst addr epoch runid => isMasterDownByAddr st src dst addr epoch runid
  | .reply src dst isdown leader leaderEpoch =>
    let nd := st.nodes dst
    st.set dst (nd.setPeer src
      (sentinelReceiveIsMasterDownReply (nd.sentinels src) isdown leader leaderEpoch))

/-- How a failover goes on after `WAIT_START`. -/
def proceeds (s s' : FailoverState) : Bool :=
  match s, s' with
  | .selectSlave, .sendSlaveofNoone | .selectSlave, .none
  | .sendSlaveofNoone, .waitPromotion | .sendSlaveofNoone, .none
  | .waitPromotion, .reconfSlaves | .waitPromotion, .none
  | .reconfSlaves, .updateConfig => true
  | _, _ => false

/-- The state after an event, if the event can happen. -/
def step (st : State n) : Event n → Option (State n)
  | .checkDown i sdown =>
    let nd := { st.nodes i with sdown }
    if nd.tilt then none
    else some (st.set i { nd with odown := sentinelCheckObjectivelyDown i nd })
  | .tilt i on => some (st.set i { st.nodes i with tilt := on })
  | .start i =>
    let nd := st.nodes i
    if nd.tilt = false ∧ nd.odown ∧ nd.state = .none then
      some (st.set i (sentinelStartFailover nd))
    else none
  | .waitStart i order timeout =>
    let nd := st.nodes i
    if nd.tilt = false ∧ nd.state = .waitStart ∧ order.Perm (List.finRange n) then
      some (sentinelFailoverWaitStart st i order timeout)
    else none
  | .proceed i state =>
    let nd := st.nodes i
    if proceeds nd.state state then some (st.set i { nd with state }) else none
  | .ask i j =>
    let nd := st.nodes i
    if nd.tilt = false ∧ i ≠ j ∧ nd.sdown then
      some { st with msgs := askRequest i j nd :: st.msgs }
    else none
  | .expire i j =>
    let nd := st.nodes i
    some (st.set i (nd.setPeer j { nd.sentinels j with leader := none, masterDown := false }))
  | .deliver m =>
    if m ∈ st.msgs then some (receive { st with msgs := st.msgs.erase m } m) else none
  | .newEpoch i epoch =>
    let nd := st.nodes i
    if nd.epochs.currentEpoch < epoch ∧ epoch < 2 ^ 64 then
      some (st.set i { nd with epochs := { nd.epochs with currentEpoch := epoch } })
    else none
  | .switchMaster i addr =>
    let nd := st.nodes i
    some (st.set i
      { nd with
        epochs := { nd.epochs with leader := none }
        addr
        state := .none
        sdown := false
        odown := false })

/-- The Sentinels when they start: nothing is in flight, no vote is known, and the epochs
are those of their configuration files. -/
structure Initial (st : State n) : Prop where
  msgs : st.msgs = []
  votes : st.votes = []
  elected : st.elected = []
  leader : ∀ i, (st.nodes i).epochs.leader = none
  state : ∀ i, (st.nodes i).state = .none
  peers : ∀ i j, ((st.nodes i).sentinels j).leader = none
  addr : ∀ i j, (st.nodes i).addr = (st.nodes j).addr

/-- The states that a run reaches whose steps all meet `P`. -/
inductive Reachable (P : State n → Event n → Prop) : State n → Prop where
  | init {st : State n} : Initial st → Reachable P st
  | step {st st' : State n} {e : Event n} :
      Reachable P st → P st e → step st e = some st' → Reachable P st'

/-! ## The invariant -/

/-- Nobody votes twice in an epoch, what is known of a vote is a vote that was cast, and a
leader has the votes of a majority in the epoch of its failover. -/
structure Inv (st : State n) : Prop where
  oneVote : Ballot.OneVote st.votes
  bound : ∀ v ∈ st.votes, v.round ≤ (st.nodes v.voter).epochs.leaderEpoch
  own : ∀ i c, (st.nodes i).epochs.leader = some c →
    ⟨i, (st.nodes i).epochs.leaderEpoch, c⟩ ∈ st.votes
  peers : ∀ i j c, ((st.nodes i).sentinels j).leader = some c →
    ⟨j, ((st.nodes i).sentinels j).leaderEpoch, c⟩ ∈ st.votes
  replies : ∀ src dst isdown c e, Msg.reply src dst isdown (some c) e ∈ st.msgs →
    ⟨src, e, c⟩ ∈ st.votes
  elected : ∀ x ∈ st.elected, Ballot.Elected univ st.votes x.2 x.1

variable {st : State n} {i r : Fin n} {nd : Node n} {e : Nat} {order : List (Fin n)}
  {timeout : Bool}

theorem Initial.inv (h : Initial st) : Inv st where
  oneVote := by
    intro v hv
    rw [h.votes] at hv
    simp at hv
  bound := by simp [h.votes]
  own := by simp [h.leader]
  peers := by simp [h.peers]
  replies := by simp [h.msgs]
  elected := by simp [h.elected]

theorem State.set_nodes (st : State n) (i j : Fin n) (nd : Node n) :
    (st.set i nd).nodes j = if j = i then nd else st.nodes j := by
  simp only [State.set, Function.update_apply]

theorem Inv.set (h : Inv st) (hepoch : nd.epochs.leaderEpoch = (st.nodes i).epochs.leaderEpoch)
    (hleader : ∀ c, nd.epochs.leader = some c → (st.nodes i).epochs.leader = some c)
    (hpeers : ∀ j c, (nd.sentinels j).leader = some c →
      ⟨j, (nd.sentinels j).leaderEpoch, c⟩ ∈ st.votes) : Inv (st.set i nd) where
  oneVote := h.oneVote
  bound := by
    intro v hv
    rw [State.set_nodes]
    split
    · rename_i hi
      rw [hepoch, ← hi]
      exact h.bound v hv
    · exact h.bound v hv
  own := by
    intro j c hj
    rw [State.set_nodes] at hj ⊢
    split at hj
    · rename_i hi
      subst hi
      rw [if_pos rfl, hepoch]
      exact h.own j c (hleader c hj)
    · rename_i hi
      rw [if_neg hi]
      exact h.own j c hj
  peers := by
    intro j k c hj
    rw [State.set_nodes] at hj ⊢
    split at hj
    · rename_i hi
      rw [if_pos hi]
      exact hpeers k c hj
    · rename_i hi
      rw [if_neg hi]
      exact h.peers j k c hj
  replies := h.replies
  elected := h.elected

/-- A step that changes neither the epochs nor what is known of the votes of the others. -/
theorem Inv.set_same (h : Inv st) (hepoch : nd.epochs = (st.nodes i).epochs)
    (hpeers : nd.sentinels = (st.nodes i).sentinels) : Inv (st.set i nd) := by
  refine h.set (by rw [hepoch]) (fun c hc => by rwa [hepoch] at hc) ?_
  intro j c hj
  rw [hpeers] at hj ⊢
  exact h.peers i j c hj

/-- Messages that bring no new vote. -/
theorem Inv.setMsgs (h : Inv st) {msgs : List (Msg n)}
    (hmsgs : ∀ src dst isdown c e, Msg.reply src dst isdown (some c) e ∈ msgs →
      ⟨src, e, c⟩ ∈ st.votes) : Inv { st with msgs } where
  oneVote := h.oneVote
  bound := h.bound
  own := h.own
  peers := h.peers
  replies := hmsgs
  elected := h.elected

theorem subset_castVotes (i : Fin n) (v : Epochs (Fin n)) (e : Nat) (r : Fin n)
    (votes : List (Ballot.Vote (Fin n) (Fin n))) : votes ⊆ castVotes i v e r votes := by
  unfold castVotes
  split
  · exact List.subset_cons_self _ _
  · exact List.Subset.refl _

/-- A vote is the first one of its voter in its epoch. -/
theorem Inv.oneVote_cast (h : Inv st) (i : Fin n) (e : Nat) (r : Fin n) :
    Ballot.OneVote (castVotes i (st.nodes i).epochs e r st.votes) := by
  unfold castVotes
  split
  · rename_i hc
    apply h.oneVote.cons
    intro u hu hui hue
    have hle := h.bound u hu
    have hlt := hc.1
    simp only [Epochs.adopt_leaderEpoch] at hlt
    simp only at hui hue
    rw [hui] at hle
    omega
  · exact h.oneVote

theorem Inv.bound_cast (h : Inv st) (hep : nd.epochs = sentinelVoteLeader (st.nodes i).epochs e r)
    {v : Ballot.Vote (Fin n) (Fin n)} (hv : v ∈ castVotes i (st.nodes i).epochs e r st.votes) :
    v.round ≤ ((st.set i nd).nodes v.voter).epochs.leaderEpoch := by
  have hold : ∀ u ∈ st.votes, u.round ≤ ((st.set i nd).nodes u.voter).epochs.leaderEpoch := by
    intro u hu
    have hb := h.bound u hu
    rw [State.set_nodes]
    split
    · rename_i hi
      rw [hi] at hb
      rw [hep]
      exact hb.trans (le_sentinelVoteLeader _ _ _)
    · exact hb
  unfold castVotes at hv
  split at hv
  · rename_i hc
    rcases List.mem_cons.mp hv with rfl | hv
    · simp only [State.set_nodes, if_true, hep, (Epochs.cast_of_casts (r := r) hc).1, le_refl]
    · exact hold v hv
  · exact hold v hv

theorem Inv.own_cast (h : Inv st) {c : Fin n}
    (hc : (sentinelVoteLeader (st.nodes i).epochs e r).leader = some c) :
    ⟨i, (sentinelVoteLeader (st.nodes i).epochs e r).leaderEpoch, c⟩ ∈
      castVotes i (st.nodes i).epochs e r st.votes := by
  rcases sentinelVoteLeader_cases (st.nodes i).epochs e r with
    ⟨hcast, -, hl, he⟩ | ⟨-, hl, he⟩
  · rw [hl] at hc
    rw [he, castVotes, if_pos hcast]
    simp only [some.injEq] at hc
    simp [hc]
  · rw [hl] at hc
    rw [he]
    exact subset_castVotes _ _ _ _ _ (h.own i c hc)

theorem Inv.vote (h : Inv st) (nd : Node n)
    (hep : nd.epochs = sentinelVoteLeader (st.nodes i).epochs e r)
    (hpeers : nd.sentinels = (st.nodes i).sentinels) :
    Inv { st.set i nd with votes := castVotes i (st.nodes i).epochs e r st.votes } where
  oneVote := h.oneVote_cast i e r
  bound := fun _ hv => h.bound_cast hep hv
  own := by
    intro j c hj
    simp only [State.set_nodes] at hj ⊢
    split at hj
    · rename_i hi
      rw [if_pos hi, hi, hep]
      exact h.own_cast (by rw [← hep]; exact hj)
    · rename_i hi
      rw [if_neg hi]
      exact subset_castVotes _ _ _ _ _ (h.own j c hj)
  peers := by
    intro j k c hj
    apply subset_castVotes
    simp only [State.set_nodes] at hj ⊢
    split at hj
    · rename_i hi
      rw [if_pos hi, hpeers]
      exact h.peers i k c (by rw [← hpeers]; exact hj)
    · rename_i hi
      rw [if_neg hi]
      exact h.peers j k c hj
  replies := fun src dst isdown c e' hm =>
    subset_castVotes _ _ _ _ _ (h.replies src dst isdown c e' hm)
  elected := fun x hx => (h.elected x hx).mono (subset_castVotes _ _ _ _ _)

/-! ## Whole runs -/

theorem length_others (i : Fin n) : (others i).length + 1 = n := by
  have h := List.length_erase_of_mem (List.mem_finRange i)
  have he : (List.finRange n).erase i = others i := by
    rw [(List.nodup_finRange n).erase_eq_filter, others]
    congr 1
    funext j
    simp [bne, beq_eq_decide]
  rw [he, List.length_finRange] at h
  have := i.isLt
  omega

/-- Sentinel `j` is known to have voted for `c` in the current epoch. -/
def VotedFor (nd : Node n) (c j : Fin n) : Prop :=
  (nd.sentinels j).leader = some c ∧ (nd.sentinels j).leaderEpoch = nd.epochs.currentEpoch

instance (nd : Node n) (c j : Fin n) : Decidable (VotedFor nd c j) :=
  inferInstanceAs (Decidable (_ ∧ _))

theorem count_votes (nd : Node n) (i c : Fin n) :
    (nd.votes i).count (some c, nd.epochs.currentEpoch) =
      ((others i).filter fun j => VotedFor nd c j).length := by
  rw [Node.votes, List.count, List.countP_map, List.countP_eq_length_filter]
  congr 2
  funext j
  rw [Bool.eq_iff_iff, decide_eq_true_iff]
  simp [VotedFor]

/-- `WAIT_START` is handled while the current epoch is that of the failover, or while no
vote for this Sentinel is known in the current epoch. -/
def Timely (st : State n) : Event n → Prop
  | .waitStart i _ _ =>
    (st.nodes i).epochs.currentEpoch = (st.nodes i).failoverEpoch ∨
      ∀ j ≠ i, ¬ VotedFor (st.nodes i) i j
  | _ => True

/-- The votes that are counted for the own run id are cast in the epoch of the failover. -/
theorem Inv.count_votes_le (h : Inv st) (ht : Timely st (.waitStart i order timeout)) :
    ((st.nodes i).votes i).count (some i, (st.nodes i).epochs.currentEpoch) ≤
      ((Ballot.voters univ st.votes (st.nodes i).failoverEpoch i).erase i).card := by
  rw [count_votes]
  have hnodup : ((others i).filter fun j => VotedFor (st.nodes i) i j).Nodup :=
    ((List.nodup_finRange n).filter _).filter _
  rw [← List.toFinset_card_of_nodup hnodup]
  apply card_le_card
  intro j hj
  simp only [List.mem_toFinset, List.mem_filter, others, decide_eq_true_eq] at hj
  obtain ⟨⟨-, hji⟩, hvote⟩ := hj
  rcases ht with hepoch | hno
  · have hcast := h.peers i j i hvote.1
    rw [hvote.2, hepoch] at hcast
    simp [Ballot.voters, hcast, hji]
  · exact absurd hvote (hno j hji)

theorem mem_voters_univ {votes : List (Ballot.Vote (Fin n) (Fin n))} {j c : Fin n} :
    j ∈ Ballot.voters univ votes e c ↔ ⟨j, e, c⟩ ∈ votes := by
  simp [Ballot.voters]

/-- A Sentinel that finds itself the leader has a majority of the votes of the epoch of
its failover. -/
theorem Inv.elected_waitStart (h : Inv st) (ht : Timely st (.waitStart i order timeout))
    (hl : (sentinelGetLeader (st.nodes i).epochs ((st.nodes i).votes i) (st.nodes i).quorum i
      (st.nodes i).failoverEpoch order).1 = some i) :
    Ballot.Elected univ
      (castVotes i (st.nodes i).epochs (st.nodes i).failoverEpoch
        (candidate (st.nodes i).epochs ((st.nodes i).votes i) i order) st.votes)
      (st.nodes i).failoverEpoch i := by
  have hmaj := sentinelGetLeader_majority hl
  have hlen : ((st.nodes i).votes i).length + 1 = n := by
    rw [Node.votes, List.length_map, length_others]
  rw [hlen] at hmaj
  have hothers := h.count_votes_le ht
  set e := (st.nodes i).failoverEpoch with he
  set r := candidate (st.nodes i).epochs ((st.nodes i).votes i) i order with hr
  set votes := castVotes i (st.nodes i).epochs e r st.votes with hvotes
  have hmono : ((Ballot.voters univ st.votes e i).erase i).card ≤
      ((Ballot.voters univ votes e i).erase i).card :=
    card_le_card
      (erase_subset_erase i (Ballot.voters_mono (subset_castVotes _ _ _ _ _) e i))
  have hown : ownVotes (sentinelGetLeader (st.nodes i).epochs ((st.nodes i).votes i)
      (st.nodes i).quorum i e order).2 e i +
      ((Ballot.voters univ votes e i).erase i).card ≤
      (Ballot.voters univ votes e i).card := by
    unfold ownVotes
    split
    · rename_i hvote
      have hcast : (⟨i, e, i⟩ : Ballot.Vote (Fin n) (Fin n)) ∈ votes := by
        have hc := h.own_cast (e := e) (r := r) hvote.1
        have hepoch : (sentinelVoteLeader (st.nodes i).epochs e r).leaderEpoch = e := hvote.2
        rwa [hepoch] at hc
      have := card_erase_add_one (mem_voters_univ.mpr hcast)
      omega
    · have := card_erase_le (s := Ballot.voters univ votes e i) (a := i)
      omega
  unfold Ballot.Elected Ballot.quorum
  rw [card_univ, Fintype.card_fin]
  omega

theorem Inv.waitStart (h : Inv st) (ht : Timely st (.waitStart i order timeout)) :
    Inv (sentinelFailoverWaitStart st i order timeout) := by
  have hvote : ∀ nd : Node n,
      nd.epochs = (sentinelGetLeader (st.nodes i).epochs ((st.nodes i).votes i)
        (st.nodes i).quorum i (st.nodes i).failoverEpoch order).2 →
      nd.sentinels = (st.nodes i).sentinels → _ :=
    fun nd hep hpeers => h.vote (i := i) nd hep hpeers
  unfold sentinelFailoverWaitStart
  dsimp only
  split
  · rename_i hl
    have h' := hvote { st.nodes i with
      epochs := (sentinelGetLeader (st.nodes i).epochs ((st.nodes i).votes i)
        (st.nodes i).quorum i (st.nodes i).failoverEpoch order).2
      state := .selectSlave } rfl rfl
    exact
      { oneVote := h'.oneVote
        bound := h'.bound
        own := h'.own
        peers := h'.peers
        replies := h'.replies
        elected := by
          intro x hx
          rcases List.mem_cons.mp hx with rfl | hx
          · exact h.elected_waitStart ht hl
          · exact h'.elected x hx }
  · split
    · exact hvote (sentinelAbortFailover _) rfl rfl
    · exact hvote _ rfl rfl

theorem Inv.request (h : Inv st) (src dst : Fin n) (addr : Addr) (epoch : Nat)
    (runid : Option (Fin n)) : Inv (isMasterDownByAddr st src dst addr epoch runid) := by
  unfold isMasterDownByAddr
  dsimp only
  split
  · exact h
  · split
    · rename_i r _
      have h' := h.vote (i := dst) (e := epoch) (r := r)
        { st.nodes dst with epochs := sentinelVoteLeader (st.nodes dst).epochs epoch r } rfl rfl
      refine h'.setMsgs ?_
      intro src' dst' isdown c e hm
      rcases List.mem_cons.mp hm with hm | hm
      · simp only [Msg.reply.injEq] at hm
        obtain ⟨rfl, -, -, hl, rfl⟩ := hm
        exact h.own_cast hl.symm
      · exact h'.replies src' dst' isdown c e hm
    · refine h.setMsgs ?_
      intro src' dst' isdown c e hm
      rcases List.mem_cons.mp hm with hm | hm
      · simp at hm
      · exact h.replies src' dst' isdown c e hm

theorem Inv.setPeer (h : Inv st) {j : Fin n} {ri : Peer n}
    (hri : ∀ c, ri.leader = some c → ⟨j, ri.leaderEpoch, c⟩ ∈ st.votes) :
    Inv (st.set i ((st.nodes i).setPeer j ri)) := by
  refine h.set rfl (fun _ hc => hc) ?_
  intro k c hk
  simp only [Node.setPeer, Function.update_apply] at hk ⊢
  split at hk
  · rename_i hkj
    subst hkj
    rw [if_pos rfl]
    exact hri c hk
  · rename_i hkj
    rw [if_neg hkj]
    exact h.peers i k c hk

theorem Inv.receive (h : Inv st) {m : Msg n} (hm : m ∈ st.msgs) :
    Inv (receive { st with msgs := st.msgs.erase m } m) := by
  have h' : Inv { st with msgs := st.msgs.erase m } :=
    h.setMsgs fun src dst isdown c e hr =>
      h.replies src dst isdown c e (List.mem_of_mem_erase hr)
  cases m with
  | request src dst addr epoch runid => exact h'.request src dst addr epoch runid
  | reply src dst isdown leader leaderEpoch =>
    refine h'.setPeer ?_
    intro c hc
    unfold sentinelReceiveIsMasterDownReply at hc ⊢
    cases leader with
    | some runid =>
      simp only [some.injEq] at hc ⊢
      subst hc
      exact h.replies src dst isdown runid leaderEpoch hm
    | none => exact h.peers dst src c hc

/-- Every step keeps the invariant, the handling of `WAIT_START` if it is timely. -/
theorem Inv.step {st' : State n} {e : Event n} (h : Inv st) (ht : Timely st e)
    (hstep : step st e = some st') : Inv st' := by
  unfold Election.step at hstep
  cases e with
  | checkDown i sdown =>
    simp only at hstep
    split at hstep
    · simp at hstep
    · cases hstep
      exact h.set_same rfl rfl
  | tilt i on =>
    cases hstep
    exact h.set_same rfl rfl
  | start i =>
    simp only at hstep
    split at hstep
    · cases hstep
      exact h.set rfl (fun _ hc => hc) (h.peers i)
    · simp at hstep
  | waitStart i order timeout =>
    simp only at hstep
    split at hstep
    · cases hstep
      exact h.waitStart ht
    · simp at hstep
  | proceed i state =>
    simp only at hstep
    split at hstep
    · cases hstep
      exact h.set_same rfl rfl
    · simp at hstep
  | ask i j =>
    simp only at hstep
    split at hstep
    · cases hstep
      refine h.setMsgs ?_
      intro src dst isdown c e hm
      rcases List.mem_cons.mp hm with hm | hm
      · simp [askRequest] at hm
      · exact h.replies src dst isdown c e hm
    · simp at hstep
  | expire i j =>
    cases hstep
    exact h.setPeer (by simp)
  | deliver m =>
    simp only at hstep
    split at hstep
    · rename_i hm
      cases hstep
      exact h.receive hm
    · simp at hstep
  | newEpoch i epoch =>
    simp only at hstep
    split at hstep
    · cases hstep
      exact h.set rfl (fun _ hc => hc) (h.peers i)
    · simp at hstep
  | switchMaster i addr =>
    cases hstep
    exact h.set rfl (by simp) (h.peers i)

theorem Reachable.inv (h : Reachable Timely st) : Inv st := by
  induction h with
  | init h => exact h.inv
  | step _ ht hstep ih => exact ih.step ht hstep

/-- A step that is only made if it meets `P`. -/
def stepIf (P : State n → Event n → Prop) [∀ st e, Decidable (P st e)] (st : State n)
    (e : Event n) : Option (State n) :=
  if P st e then step st e else none

theorem Reachable.run {P : State n → Event n → Prop} [∀ st e, Decidable (P st e)]
    {es : List (Event n)} : ∀ {st st' : State n}, Reachable P st →
      es.foldlM (stepIf P) st = some st' → Reachable P st' := by
  induction es with
  | nil =>
    intro st st' h hrun
    cases hrun
    exact h
  | cons e es ih =>
    intro st st' h hrun
    rw [List.foldlM_cons] at hrun
    obtain ⟨st₁, h₁, hrun⟩ := bind_eq_some_iff.mp hrun
    unfold stepIf at h₁
    split at h₁
    · rename_i hP
      exact ih (h.step hP h₁) hrun
    · simp at h₁

instance (st : State n) (e : Event n) : Decidable (Timely st e) :=
  match e with
  | .waitStart _ _ _ => inferInstanceAs (Decidable (_ ∨ _))
  | .checkDown _ _ | .tilt _ _ | .start _ | .proceed _ _ | .ask _ _ | .expire _ _
  | .deliver _ | .newEpoch _ _ | .switchMaster _ _ => isTrue trivial

/-- In a run whose `WAIT_START` steps are timely, no two Sentinels leave `WAIT_START` as
the elected leader with the same epoch. -/
theorem leader_unique {st : State n} (h : Reachable Timely st) {i j : Fin n} {epoch : Nat}
    (hi : (i, epoch) ∈ st.elected) (hj : (j, epoch) ∈ st.elected) : i = j :=
  Ballot.elected_unique h.inv.oneVote (h.inv.elected _ hi) (h.inv.elected _ hj)

/-! ## Two leaders of one epoch -/

/-- Three Sentinels with a quorum of two that have just started. -/
def three : State 3 where
  nodes _ :=
    { epochs := ⟨0, none, 0⟩
      addr := ⟨[49], 6379⟩
      quorum := 2
      sdown := false
      odown := false
      tilt := false
      state := .none
      failoverEpoch := 0
      sentinels := fun _ => ⟨none, 0, false⟩ }
  msgs := []
  votes := []
  elected := []

theorem three_initial : Initial three where
  msgs := rfl
  votes := rfl
  elected := rfl
  leader := fun _ => rfl
  state := fun _ => rfl
  peers := fun _ _ => rfl
  addr := fun _ _ => rfl

/-- One Sentinel asks another one and gets its reply. -/
def askReply (i j : Fin 3) (epoch : Nat) (runid : Option (Fin 3)) (leader : Option (Fin 3))
    (leaderEpoch : Nat) : List (Event 3) :=
  [.ask i j, .deliver (.request i j ⟨[49], 6379⟩ epoch runid),
    .deliver (.reply j i true leader leaderEpoch)]

/-- The first half of a run: Sentinels 0 and 1 start a failover in epoch 1, each votes for
itself, and 0 wins the vote of 2. -/
def firstLeader : List (Event 3) :=
  [.checkDown 0 true, .checkDown 1 true, .checkDown 2 true] ++
  askReply 0 2 0 none none 0 ++ askReply 1 2 0 none none 0 ++ askReply 2 0 0 none none 0 ++
  [.checkDown 0 true, .checkDown 1 true, .checkDown 2 true] ++
  [.start 0, .waitStart 0 [0, 1, 2] false, .start 1, .waitStart 1 [0, 1, 2] false] ++
  askReply 0 2 1 (some 0) (some 0) 1 ++ [.waitStart 0 [0, 1, 2] false]

/-- The second half: 2 starts a failover in epoch 2, which 1 learns while it waits in epoch
1.  It wins the vote of 0 in epoch 2, and adds its own one of epoch 1. -/
def secondLeader : List (Event 3) :=
  [.start 2, .waitStart 2 [0, 1, 2] false, .newEpoch 1 2] ++
  askReply 1 0 2 (some 1) (some 1) 2 ++ [.waitStart 1 [0, 1, 2] false]

theorem firstLeader_run :
    (firstLeader.foldlM (stepIf Timely) three).map (·.elected) = some [(0, 1)] := by
  decide +kernel

/-- A timely run that elects a leader. -/
theorem leader_unique_three : ∃ st : State 3, Reachable Timely st ∧ (0, 1) ∈ st.elected ∧
    ∀ j : Fin 3, (j, 1) ∈ st.elected → j = 0 := by
  have hrun := firstLeader_run
  cases hst : firstLeader.foldlM (stepIf Timely) three with
  | none => simp [hst] at hrun
  | some st =>
    simp only [hst, map_some, some.injEq] at hrun
    have hreach : Reachable Timely st := Reachable.run (.init three_initial) hst
    have hmem : (0, 1) ∈ st.elected := by
      rw [hrun]
      decide
    exact ⟨st, hreach, hmem, fun j hj => leader_unique hreach hj hmem⟩

theorem secondLeader_run :
    ((firstLeader ++ secondLeader).foldlM (stepIf fun _ _ => True) three).map (·.elected) =
      some [(1, 1), (0, 1)] := by
  decide +kernel

/-- A Sentinel that learns a greater epoch while it waits counts votes of that epoch for
its own one: two Sentinels are elected in epoch 1. -/
theorem leader_not_unique :
    ¬ ∀ (n : Nat) (st : State n), Reachable (fun _ _ => True) st →
      ∀ (i j : Fin n) (epoch : Nat), (i, epoch) ∈ st.elected → (j, epoch) ∈ st.elected → i = j := by
  intro h
  have hrun := secondLeader_run
  cases hst : (firstLeader ++ secondLeader).foldlM (stepIf fun _ _ => True) three with
  | none => simp [hst] at hrun
  | some st =>
    simp only [hst, map_some, some.injEq] at hrun
    have hreach : Reachable (fun _ _ => True) st := Reachable.run (.init three_initial) hst
    have := h 3 st hreach 0 1 1 (by rw [hrun]; decide) (by rw [hrun]; decide)
    exact absurd this (by decide)

end Redis.Sentinel.Election
