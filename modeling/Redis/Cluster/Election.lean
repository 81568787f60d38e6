import Mathlib.Data.List.Perm.Basic
import Redis.Bytes
import Redis.Cluster

/-!
# Redis.Cluster.Election

Safety of the election of `Redis.Cluster`: with a fixed set `M` of masters
serving slots, no epoch promotes two slaves.

The servers exchange packets over a network that delays, reorders and loses
them.  Everything outside the election (gossip, failure detection, manual
failover commands) may change the rest of a server at any time, which is the
event `observe`.

A retry resets the counter of votes at once, but the epoch of the election is
bumped only when the delay is over.  A vote of the old epoch that arrives in
between is counted for the new one, so the safety holds of the runs in which
no such vote arrives.
-/

namespace Redis

open Ballot List
open Function (update)

variable {N : Type}

/-! ## The views of the servers -/

/-- `st` knows the set of masters that serve slots: any other node it takes
for one is in `M`, and as a slave it uses the size of `M`. -/
structure MastersKnown (M : Finset N) (st : ClusterState N) : Prop where
  serving : ∀ n ∈ st.nodes, n ≠ st.myself → st.serving n = true → n ∈ M
  size : st.me.master = false → st.size = M.card

/-- `st'` takes no node for a serving master that `st` did not, itself
excepted. -/
structure ViewLe (st st' : ClusterState N) : Prop where
  myself : st'.myself = st.myself
  size : st'.size = st.size
  nodes : st'.nodes = st.nodes
  serving : ∀ n, n ≠ st.myself → st'.serving n = true → st.serving n = true
  master : st'.me.master = false → st.me.master = false

/-- The view consists of the records and the size. -/
theorem ViewLe.of_eq {st st' : ClusterState N} (hmyself : st'.myself = st.myself)
    (hsize : st'.size = st.size) (hnodes : st'.nodes = st.nodes) (hnode : st'.node = st.node) :
    ViewLe st st' where
  myself := hmyself
  size := hsize
  nodes := hnodes
  serving := by simp [ClusterState.serving, hnode]
  master := by simp [ClusterState.me, hnode, hmyself]

variable {M : Finset N} {cfg : ClusterConfig} {e i j random : Nat} {m n : N}
  {net ps : List (ClusterMsg N)} {now unixtime : Int} {o : FailoverOutcome N} {x : ClusterNode N}
  (st : ClusterState N) (time : Int)

theorem ViewLe.refl : ViewLe st st := .of_eq rfl rfl rfl rfl

theorem ViewLe.trans {a b c : ClusterState N} (h : ViewLe a b) (h' : ViewLe b c) : ViewLe a c where
  myself := h'.myself.trans h.myself
  size := h'.size.trans h.size
  nodes := h'.nodes.trans h.nodes
  serving := fun n hn hs => h.serving n hn (h'.serving n (h.myself ▸ hn) hs)
  master := fun hm => h.master (h'.master hm)

theorem MastersKnown.of_viewLe {st st' : ClusterState N} (h : MastersKnown M st)
    (hv : ViewLe st st') : MastersKnown M st' where
  serving := by
    intro n hmem hn hs
    rw [hv.myself] at hn
    rw [hv.nodes] at hmem
    exact h.serving n hmem hn (hv.serving n hn hs)
  size := fun hm => hv.size.trans (h.size (hv.master hm))

/-- A step that leaves the election alone: the epoch may grow, the vote cast
last, the counter of votes and the epoch of the election stay. -/
structure Keeps (st st' : ClusterState N) : Prop extends ViewLe st st' where
  currentEpoch : st.currentEpoch ≤ st'.currentEpoch
  lastVoteEpoch : st'.lastVoteEpoch = st.lastVoteEpoch
  failoverAuthCount : st'.failoverAuthCount = st.failoverAuthCount
  failoverAuthSent : st'.failoverAuthSent = st.failoverAuthSent
  failoverAuthEpoch : st'.failoverAuthEpoch = st.failoverAuthEpoch

theorem Keeps.refl : Keeps st st :=
  ⟨ViewLe.refl st, le_rfl, rfl, rfl, rfl, rfl⟩

theorem Keeps.trans {a b c : ClusterState N} (h : Keeps a b) (h' : Keeps b c) : Keeps a c where
  toViewLe := h.toViewLe.trans h'.toViewLe
  currentEpoch := h.currentEpoch.trans h'.currentEpoch
  lastVoteEpoch := h'.lastVoteEpoch.trans h.lastVoteEpoch
  failoverAuthCount := h'.failoverAuthCount.trans h.failoverAuthCount
  failoverAuthSent := h'.failoverAuthSent.trans h.failoverAuthSent
  failoverAuthEpoch := h'.failoverAuthEpoch.trans h.failoverAuthEpoch

variable [DecidableEq N]

/-! ## What replacing a record does to the view -/

theorem node_setNode (n m : N) (x : ClusterNode N) :
    (st.setNode n x).node m = if m = n then x else st.node m := by
  simp only [ClusterState.setNode, Function.update_apply]

theorem ViewLe.setNode (hm : x.master = (st.node n).master)
    (hs : x.numslots ≤ (st.node n).numslots) :
    ViewLe st (st.setNode n x) where
  myself := rfl
  size := rfl
  nodes := rfl
  serving := by
    intro m _ h
    simp only [ClusterState.serving, node_setNode, Bool.and_eq_true, decide_eq_true_eq] at h ⊢
    by_cases hmn : m = n
    · subst hmn
      simp only [if_true] at h
      exact ⟨hm ▸ h.1, by omega⟩
    · simpa only [if_neg hmn] using h
  master := by
    intro h
    have hme : (st.setNode n x).me = if st.myself = n then x else st.me :=
      node_setNode st n st.myself x
    rw [hme] at h
    by_cases hmn : st.myself = n
    · rw [if_pos hmn, hm] at h
      rw [ClusterState.me, hmn, h]
    · rwa [if_neg hmn] at h

/-- Any record of the node itself that does not turn it into a slave. -/
theorem ViewLe.setMyself (hm : x.master = false → st.me.master = false) :
    ViewLe st (st.setNode st.myself x) where
  myself := rfl
  size := rfl
  nodes := rfl
  serving := by
    intro m hne h
    simpa only [ClusterState.serving, node_setNode, if_neg hne] using h
  master := by
    intro h
    have hme : (st.setNode st.myself x).me = x := by
      have := node_setNode st st.myself st.myself x
      rwa [if_pos rfl] at this
    exact hm (hme ▸ h)

theorem Keeps.setNode {st : ClusterState N} (h : ViewLe st (st.setNode n x)) :
    Keeps st (st.setNode n x) :=
  ⟨h, le_rfl, rfl, rfl, rfl, rfl⟩

/-! ## Promotion -/

theorem clusterAddSlot_keeps (j : Nat) : Keeps st (clusterAddSlot st st.myself j) := by
  unfold clusterAddSlot
  split
  · exact Keeps.refl st
  · have h := ViewLe.setMyself st (x := clusterNodeSetSlotBit (st.node st.myself) j) (fun h => h)
    exact ⟨⟨h.1, h.2, h.3, h.4, h.5⟩, le_rfl, rfl, rfl, rfl, rfl⟩

theorem clusterDelSlot_keeps {st st' : ClusterState N} (h : clusterDelSlot st j = some st') :
    Keeps st st' := by
  unfold clusterDelSlot at h
  split at h
  case h_1 =>
    cases h
    exact Keeps.refl st
  case h_2 n hn =>
    simp only at h
    split at h
    · cases h
      have hs : (clusterNodeClearSlotBit (st.node n) j).1.numslots ≤ (st.node n).numslots := by
        simp only [clusterNodeClearSlotBit]
        split <;> omega
      have h := ViewLe.setNode st (x := (clusterNodeClearSlotBit (st.node n) j).1) rfl hs
      exact ⟨h.trans (.of_eq rfl rfl rfl rfl), le_rfl, rfl, rfl, rfl, rfl⟩
    · cases h

theorem claimSlot_keeps {st st' : ClusterState N} (h : claimSlot m st j = some st') :
    Keeps st st' := by
  unfold claimSlot at h
  split at h
  · simp only [bind_eq_some, Option.pure_def, Option.some.injEq] at h
    obtain ⟨st₁, h₁, rfl⟩ := h
    exact (clusterDelSlot_keeps h₁).trans (clusterAddSlot_keeps st₁ j)
  · cases h
    exact Keeps.refl st

theorem foldlM_claimSlot_keeps {js : List Nat} {st st' : ClusterState N}
    (h : js.foldlM (claimSlot m) st = some st') : Keeps st st' := by
  induction js generalizing st with
  | nil =>
    simp only [foldlM_nil, Option.pure_def, Option.some.injEq] at h
    subst h
    exact Keeps.refl st
  | cons j js ih =>
    simp only [foldlM_cons, bind_eq_some] at h
    obtain ⟨st₁, h₁, h₂⟩ := h
    exact (claimSlot_keeps h₁).trans (ih h₂)

theorem clusterSetNodeAsMaster_keeps : Keeps st (clusterSetNodeAsMaster st st.myself) := by
  rw [clusterSetNodeAsMaster]
  cases hmaster : (st.node st.myself).master with
  | true => exact Keeps.refl st
  | false =>
    cases hslaveof : (st.node st.myself).slaveof with
    | none => exact Keeps.setNode (ViewLe.setMyself st (by simp))
    | some m =>
      have h₁ : Keeps st (st.setNode m { st.node m with
          slaves := (st.node m).slaves.erase st.myself }) :=
        Keeps.setNode (ViewLe.setNode st rfl le_rfl)
      exact h₁.trans (Keeps.setNode (ViewLe.setMyself _ (by simp)))

theorem claimConfigEpoch_keeps : Keeps st (claimConfigEpoch st) := by
  unfold claimConfigEpoch
  split
  · exact Keeps.setNode (ViewLe.setMyself st (fun h => h))
  · exact Keeps.refl st

theorem clusterFailoverReplaceYourMaster_keeps {st st' : ClusterState N}
    (h : clusterFailoverReplaceYourMaster st = some st') : Keeps st st' := by
  unfold clusterFailoverReplaceYourMaster at h
  split at h
  · cases h
    exact Keeps.refl st
  · split at h
    · cases h
      exact Keeps.refl st
    · simp only [bind_eq_some, Option.pure_def, Option.some.injEq] at h
      obtain ⟨st₁, h₁, rfl⟩ := h
      have hreset : Keeps st₁ (resetManualFailover st₁) :=
        ⟨ViewLe.of_eq rfl rfl rfl rfl, le_rfl, rfl, rfl, rfl, rfl⟩
      exact ((clusterSetNodeAsMaster_keeps st).trans (foldlM_claimSlot_keeps h₁)).trans hreset

/-! ## What a call of `clusterHandleSlaveFailover` does -/

/-- Setting the time and the rank of the election. -/
def withDelay (st : ClusterState N) (time : Int) (rank : Nat) : ClusterState N :=
  { st with failoverAuthTime := time, failoverAuthRank := rank }

omit [DecidableEq N] in
theorem withDelay_keeps (rank : Nat) : Keeps st (withDelay st time rank) :=
  ⟨ViewLe.of_eq rfl rfl rfl rfl, le_rfl, rfl, rfl, rfl, rfl⟩

/-- The outcomes of `clusterHandleSlaveFailover`. -/
inductive FailoverStep (st : ClusterState N) : FailoverOutcome N → Prop where
  /-- Nothing to do, or not yet. -/
  | wait (time : Int) (rank : Nat) : FailoverStep st ⟨withDelay st time rank, [], false⟩
  /-- A new attempt is scheduled. -/
  | schedule (time : Int) (rank : Nat) :
      FailoverStep st ⟨{ withDelay st time rank with
        failoverAuthCount := 0, failoverAuthSent := false }, [], false⟩
  /-- The epoch is bumped and the votes are asked for. -/
  | start (time : Int) (rank : Nat) (sent : st.failoverAuthSent = false) :
      FailoverStep st ⟨startElection (withDelay st time rank),
        clusterRequestFailoverAuth (startElection (withDelay st time rank)), false⟩
  /-- The quorum is reached. -/
  | promote (st' : ClusterState N) (slave : st.me.master = false)
      (sent : st.failoverAuthSent = true)
      (reached : quorum st.size ≤ st.failoverAuthCount) (keeps : Keeps st st') :
      FailoverStep st ⟨st', [], true⟩

theorem runElection_step {st : ClusterState N} (rank : Nat) {age : Int}
    (hslave : st.me.master = false)
    (h : runElection cfg (withDelay st time rank) now age = some o) : FailoverStep st o := by
  rw [runElection] at h
  split at h
  · cases h
    exact .wait time rank
  split at h
  · cases h
    exact .wait time rank
  split at h
  next hsent =>
    cases h
    exact .start time rank (by simpa [withDelay] using hsent)
  next hsent =>
    split at h
    next hcount =>
      simp only [bind_eq_some, Option.pure_def, Option.some.injEq] at h
      obtain ⟨st', hst', rfl⟩ := h
      have hkeeps := (withDelay_keeps st time rank).trans
        ((claimConfigEpoch_keeps _).trans (clusterFailoverReplaceYourMaster_keeps hst'))
      exact .promote st' hslave (by simpa [withDelay] using hsent) hcount hkeeps
    next =>
      cases h
      exact .wait time rank

theorem clusterHandleSlaveFailover_step {st : ClusterState N}
    (h : clusterHandleSlaveFailover cfg st now unixtime random = some o) : FailoverStep st o := by
  have hwait : FailoverStep st ⟨st, [], false⟩ :=
    .wait st.failoverAuthTime st.failoverAuthRank
  rw [clusterHandleSlaveFailover] at h
  split at h
  · cases h
    exact hwait
  next hmaster =>
    have hslave : st.me.master = false := by simpa using hmaster
    split at h
    · cases h
      exact hwait
    split at h
    · cases h
      exact hwait
    split at h
    · cases h
      exact hwait
    split at h
    · simp only [bind_eq_some, Option.pure_def, Option.some.injEq] at h
      obtain ⟨rank, _, rfl⟩ := h
      exact .schedule
        (if st.mfEnd ≠ 0 then now else now + 500 + (random % 500 : Nat) + rank * 1000)
        (if st.mfEnd ≠ 0 then 0 else rank)
    split at h
    · simp only [bind_eq_some] at h
      obtain ⟨newrank, _, h⟩ := h
      rw [updateRank] at h
      split at h
      · exact runElection_step _ newrank hslave h
      · exact runElection_step st.failoverAuthTime st.failoverAuthRank hslave h
    · exact runElection_step st.failoverAuthTime st.failoverAuthRank hslave h

/-! ## What a received packet does -/

theorem updateFromHeader_keeps (p : ClusterMsg N) : Keeps st (updateFromHeader st p) := by
  rw [updateFromHeader]
  split
  · exact Keeps.refl st
  · have hepoch : Keeps st { st with currentEpoch := max st.currentEpoch p.currentEpoch } :=
      ⟨ViewLe.of_eq rfl rfl rfl rfl, le_max_left _ _, rfl, rfl, rfl, rfl⟩
    exact hepoch.trans (Keeps.setNode (ViewLe.setNode _ rfl le_rfl))

theorem updateFromHeader_node (p : ClusterMsg N) (n : N) :
    ((updateFromHeader st p).node n).master = (st.node n).master ∧
    ((updateFromHeader st p).node n).numslots = (st.node n).numslots ∧
    ((updateFromHeader st p).node n).handshake = (st.node n).handshake := by
  rw [updateFromHeader]
  split
  · simp
  · simp only [node_setNode]
    by_cases hn : n = p.sender
    · simp [hn]
    · simp [hn]

/-- Reading the header does not change whether an ACK is counted. -/
theorem ackCounted_updateFromHeader (p : ClusterMsg N) :
    ackCounted (updateFromHeader st p) p = ackCounted st p := by
  have h := updateFromHeader_node st p p.sender
  rw [ackCounted, ackCounted, senderCurrentEpoch, senderCurrentEpoch, ClusterState.serving,
    ClusterState.serving, h.1, h.2.1, h.2.2, (updateFromHeader_keeps st p).failoverAuthEpoch]

omit [DecidableEq N] in
theorem clusterSendFailoverAuth_spec (n : N) :
    (clusterSendFailoverAuth st n).length ≤ 1 ∧
    ∀ p ∈ clusterSendFailoverAuth st n, p.type = .failoverAuthAck ∧ p.sender = st.myself ∧
      p.dest = n ∧ p.currentEpoch = st.currentEpoch := by
  rw [clusterSendFailoverAuth]
  split
  · simp [clusterBuildMessageHdr]
  · simp

/-- A vote is cast in the epoch `st'.currentEpoch`. -/
structure CastsVote (st st' : ClusterState N) : Prop extends ViewLe st st' where
  currentEpoch : st.currentEpoch ≤ st'.currentEpoch
  fresh : st.lastVoteEpoch ≠ st'.currentEpoch
  lastVoteEpoch : st'.lastVoteEpoch = st'.currentEpoch
  failoverAuthCount : st'.failoverAuthCount = st.failoverAuthCount
  failoverAuthSent : st'.failoverAuthSent = st.failoverAuthSent
  failoverAuthEpoch : st'.failoverAuthEpoch = st.failoverAuthEpoch

omit [DecidableEq N] in
theorem Keeps.trans_castsVote {a b c : ClusterState N} (h : Keeps a b) (h' : CastsVote b c) :
    CastsVote a c where
  toViewLe := h.toViewLe.trans h'.toViewLe
  currentEpoch := h.currentEpoch.trans h'.currentEpoch
  fresh := h.lastVoteEpoch ▸ h'.fresh
  lastVoteEpoch := h'.lastVoteEpoch
  failoverAuthCount := h'.failoverAuthCount.trans h.failoverAuthCount
  failoverAuthSent := h'.failoverAuthSent.trans h.failoverAuthSent
  failoverAuthEpoch := h'.failoverAuthEpoch.trans h.failoverAuthEpoch

/-- The outcomes of `clusterProcessPacket` on a packet `p`. -/
inductive PacketStep (st : ClusterState N) (p : ClusterMsg N) : PacketOutcome N → Prop where
  | ignore (st' : ClusterState N) (keeps : Keeps st st') : PacketStep st p ⟨st', [], false⟩
  /-- The vote goes to the sender. -/
  | vote (st' : ClusterState N) (ps : List (ClusterMsg N)) (type : p.type = .failoverAuthRequest)
      (votes : CastsVote st st') (epoch : st'.currentEpoch ≤ p.currentEpoch)
      (length : ps.length ≤ 1)
      (acks : ∀ q ∈ ps, q.type = .failoverAuthAck ∧ q.sender = st.myself ∧ q.dest = p.sender ∧
        q.currentEpoch = st'.currentEpoch) :
      PacketStep st p ⟨st', ps, true⟩
  | count (st₁ : ClusterState N) (type : p.type = .failoverAuthAck) (keeps : Keeps st st₁)
      (known : p.sender ∈ st.nodes) (counted : ackCounted st p = true) :
      PacketStep st p ⟨{ st₁ with failoverAuthCount := st₁.failoverAuthCount + 1 }, [], false⟩

theorem clusterSendFailoverAuthIfNeeded_some {st : ClusterState N} {p : ClusterMsg N}
    {st' : ClusterState N} (h : clusterSendFailoverAuthIfNeeded cfg st n p now = some (st', ps)) :
    CastsVote st st' ∧ st'.currentEpoch = st.currentEpoch ∧ st.currentEpoch ≤ p.currentEpoch ∧
      ps = clusterSendFailoverAuth st n := by
  rw [clusterSendFailoverAuthIfNeeded] at h
  split at h
  · cases h
  split at h
  · cases h
  next hepoch =>
    split at h
    · cases h
    next hfresh =>
      split at h
      · cases h
      split at h
      · cases h
      next m _ =>
        split at h
        · cases h
        split at h
        · cases h
        split at h
        · cases h
        · obtain ⟨rfl, rfl⟩ := Prod.mk.inj (Option.some.inj h)
          have hview : ViewLe st { st with lastVoteEpoch := st.currentEpoch } :=
            .of_eq rfl rfl rfl rfl
          have hvotes : CastsVote st ({ st with lastVoteEpoch := st.currentEpoch }.setNode m
              { st.node m with votedTime := now }) :=
            ⟨hview.trans (ViewLe.setNode _ rfl le_rfl), le_rfl, hfresh, rfl, rfl, rfl, rfl⟩
          exact ⟨hvotes, rfl, by omega, rfl⟩

theorem clusterProcessPacket_step (cfg : ClusterConfig) (st : ClusterState N) (p : ClusterMsg N)
    (now : Int) : PacketStep st p (clusterProcessPacket cfg st p now) := by
  have hkeeps := updateFromHeader_keeps st p
  rw [clusterProcessPacket]
  split
  · exact .ignore st (Keeps.refl st)
  next hknown =>
    simp only
    cases htype : p.type with
    | failoverAuthRequest =>
      simp only
      cases hvote : clusterSendFailoverAuthIfNeeded cfg (updateFromHeader st p) p.sender p now with
      | none => exact .ignore _ hkeeps
      | some r =>
        obtain ⟨st', ps⟩ := r
        obtain ⟨hvotes, hsame, hepoch, rfl⟩ := clusterSendFailoverAuthIfNeeded_some hvote
        obtain ⟨hlen, hacks⟩ := clusterSendFailoverAuth_spec (updateFromHeader st p) p.sender
        rw [hkeeps.myself, ← hsame] at hacks
        exact .vote st' _ htype (hkeeps.trans_castsVote hvotes) (hsame ▸ hepoch) hlen hacks
    | failoverAuthAck =>
      simp only
      split
      next hack =>
        rw [ackCounted_updateFromHeader] at hack
        exact .count _ htype hkeeps (by simpa using hknown) hack
      next => exact .ignore _ hkeeps

/-! ## Runs of the cluster -/

/-- The servers and the packets in flight.  `votes` and `promoted` record the
votes granted and the promotions with their `failover_auth_epoch`; no server
reads them. -/
structure ClusterWorld (N : Type) where
  server : N → ClusterState N
  net : List (ClusterMsg N)
  votes : List (Vote N N)
  promoted : List (N × Nat)

inductive ClusterEvent (N : Type) where
  /-- A call of `clusterHandleSlaveFailover` by `clusterCron` or
  `clusterBeforeSleep`. -/
  | handleSlaveFailover (n : N) (now unixtime : Int) (random : Nat)
  /-- A packet arrives. -/
  | deliver (i : Nat) (now : Int)
  /-- A packet is lost. -/
  | lose (i : Nat)
  /-- Anything outside the election changes a server. -/
  | observe (n : N) (st : ClusterState N)

/-- The state `st`, with the election of `old`; `currentEpoch` may have grown
by the header of another packet. -/
def withElectionOf (old st : ClusterState N) : ClusterState N :=
  { st with
    myself := old.myself
    currentEpoch := max old.currentEpoch st.currentEpoch
    failoverAuthTime := old.failoverAuthTime
    failoverAuthCount := old.failoverAuthCount
    failoverAuthSent := old.failoverAuthSent
    failoverAuthRank := old.failoverAuthRank
    failoverAuthEpoch := old.failoverAuthEpoch
    lastVoteEpoch := old.lastVoteEpoch }

namespace ClusterWorld

/-- One event.  A server that fails an assertion is gone: it takes no step,
and the others cannot tell it from one that is never scheduled. -/
def step (cfg : ClusterConfig) (w : ClusterWorld N) : ClusterEvent N → ClusterWorld N
  | .handleSlaveFailover n now unixtime random =>
    match clusterHandleSlaveFailover cfg (w.server n) now unixtime random with
    | none => w
    | some o =>
      { w with
        server := update w.server n o.state
        net := w.net ++ o.packets
        promoted :=
          if o.promoted then (n, o.state.failoverAuthEpoch) :: w.promoted else w.promoted }
  | .deliver i now =>
    match w.net[i]? with
    | none => w
    | some p =>
      let o := clusterProcessPacket cfg (w.server p.dest) p now
      { w with
        server := update w.server p.dest o.state
        net := w.net.eraseIdx i ++ o.packets
        votes :=
          if o.voted then ⟨p.dest, o.state.currentEpoch, p.sender⟩ :: w.votes else w.votes }
  | .lose i => { w with net := w.net.eraseIdx i }
  | .observe n st =>
    { w with server := update w.server n (withElectionOf (w.server n) st) }

def run (cfg : ClusterConfig) (w : ClusterWorld N) (evs : List (ClusterEvent N)) : ClusterWorld N :=
  evs.foldl (step cfg) w

end ClusterWorld

/-- The start of the servers: no packets and no votes yet, the election fields
as `clusterInit` leaves them (it does not set `failover_auth_sent`). -/
structure ClusterInit (M : Finset N) (w : ClusterWorld N) : Prop where
  net : w.net = []
  votes : w.votes = []
  promoted : w.promoted = []
  myself : ∀ n, (w.server n).myself = n
  known : ∀ n, MastersKnown M (w.server n)
  lastVoteEpoch : ∀ n, (w.server n).lastVoteEpoch ≤ (w.server n).currentEpoch
  failoverAuthCount : ∀ n, (w.server n).failoverAuthCount = 0
  failoverAuthEpoch : ∀ n, (w.server n).failoverAuthEpoch = 0

/-- The set of masters serving slots stays `M` for every server. -/
def MastersFixed (M : Finset N) (cfg : ClusterConfig) (w : ClusterWorld N) :
    List (ClusterEvent N) → Prop
  | [] => True
  | ev :: evs =>
    (∀ n st, ev = .observe n st → MastersKnown M (withElectionOf (w.server n) st)) ∧
      MastersFixed M cfg (w.step cfg ev) evs

/-- The event `ev` does not let a stale vote in: an ACK that is counted finds
the election started, that is, it does not arrive between the reset of the
counter and the bump of the epoch.  A slave that may start an election has an
epoch left to start it with. -/
def VoteInTime (w : ClusterWorld N) : ClusterEvent N → Prop
  | .handleSlaveFailover n _ _ _ => (w.server n).currentEpoch + 1 < 2 ^ 64
  | .deliver i _ =>
    ∀ p ∈ w.net[i]?, p.type = .failoverAuthAck → p.sender ∈ (w.server p.dest).nodes →
      ackCounted (w.server p.dest) p = true → (w.server p.dest).failoverAuthSent = true
  | _ => True

instance (w : ClusterWorld N) : DecidablePred (VoteInTime w)
  | .handleSlaveFailover _ _ _ _ => inferInstanceAs (Decidable (_ < _))
  | .deliver i _ => inferInstanceAs (Decidable (∀ p ∈ w.net[i]?, _ → _ → _ → _))
  | .lose _ => inferInstanceAs (Decidable True)
  | .observe _ _ => inferInstanceAs (Decidable True)

/-- No event of the run lets a stale vote in. -/
def VotesInTime (cfg : ClusterConfig) (w : ClusterWorld N) : List (ClusterEvent N) → Prop
  | [] => True
  | ev :: evs => VoteInTime w ev ∧ VotesInTime cfg (w.step cfg ev) evs

instance decidableVotesInTime (cfg : ClusterConfig) :
    (w : ClusterWorld N) → (evs : List (ClusterEvent N)) → Decidable (VotesInTime cfg w evs)
  | _, [] => inferInstanceAs (Decidable True)
  | w, ev :: evs =>
    have := decidableVotesInTime cfg (w.step cfg ev) evs
    inferInstanceAs (Decidable (_ ∧ _))

/-! ## The invariant -/

/-- A vote for `n` in the epoch `e` that is on its way. -/
def pendingAck (M : Finset N) (n : N) (e : Nat) (p : ClusterMsg N) : Bool :=
  decide (p.type = .failoverAuthAck) && decide (p.dest = n) && decide (p.currentEpoch = e) &&
    decide (p.sender ∈ M)

/-- The counter of a slave never exceeds the votes it got in the epoch of its
election, even when the votes on their way arrive. -/
def VotesCounted (M : Finset N) (votes : List (Vote N N)) (net : List (ClusterMsg N)) (n : N)
    (st : ClusterState N) : Prop :=
  if st.failoverAuthSent then
    st.failoverAuthCount + net.countP (pendingAck M n st.failoverAuthEpoch) ≤
      (voters M votes st.failoverAuthEpoch n).card
  else st.failoverAuthCount = 0

structure ElectionInv (M : Finset N) (w : ClusterWorld N) : Prop where
  myself : ∀ n, (w.server n).myself = n
  known : ∀ n, MastersKnown M (w.server n)
  lastVoteEpoch : ∀ n, (w.server n).lastVoteEpoch ≤ (w.server n).currentEpoch
  authEpoch : ∀ n, (w.server n).failoverAuthEpoch ≤ (w.server n).currentEpoch
  oneVote : OneVote w.votes
  voterEpoch : ∀ v ∈ w.votes, v.round ≤ (w.server v.voter).lastVoteEpoch
  candidateEpoch : ∀ v ∈ w.votes, v.round ≤ (w.server v.candidate).failoverAuthEpoch
  requests : ∀ p ∈ w.net, p.type = .failoverAuthRequest →
    p.currentEpoch ≤ (w.server p.sender).failoverAuthEpoch
  acks : ∀ p ∈ w.net, p.type = .failoverAuthAck →
    (⟨p.sender, p.currentEpoch, p.dest⟩ : Vote N N) ∈ w.votes
  sender : ∀ p ∈ w.net, p.sender ≠ p.dest
  counted : ∀ n, VotesCounted M w.votes w.net n (w.server n)
  promoted : ∀ x ∈ w.promoted, Elected M w.votes x.2 x.1

theorem ClusterInit.inv {w : ClusterWorld N} (h : ClusterInit M w) : ElectionInv M w where
  myself := h.myself
  known := h.known
  lastVoteEpoch := h.lastVoteEpoch
  authEpoch := by simp [h.failoverAuthEpoch]
  oneVote := by simp [OneVote, h.votes]
  voterEpoch := by simp [h.votes]
  candidateEpoch := by simp [h.votes]
  requests := by simp [h.net]
  acks := by simp [h.net]
  sender := by simp [h.net]
  counted := by simp [VotesCounted, h.net, h.failoverAuthCount]
  promoted := by simp [h.promoted]

theorem ElectionInv.setServer {w : ClusterWorld N} (h : ElectionInv M w) {st : ClusterState N}
    (hmyself : st.myself = n) (hknown : MastersKnown M st)
    (hlast : st.lastVoteEpoch ≤ st.currentEpoch) (hauth : st.failoverAuthEpoch ≤ st.currentEpoch)
    (hlast' : (w.server n).lastVoteEpoch ≤ st.lastVoteEpoch)
    (hauth' : (w.server n).failoverAuthEpoch ≤ st.failoverAuthEpoch)
    (hcounted : VotesCounted M w.votes w.net n st) :
    ElectionInv M { w with server := update w.server n st } := by
  have hupd : ∀ m, (update w.server n st) m = if m = n then st else w.server m :=
    fun m => Function.update_apply w.server n st m
  constructor <;> simp only [hupd]
  case myself => intro m; split <;> simp [h.myself, *]
  case known => intro m; split <;> simp [h.known, hknown]
  case lastVoteEpoch => intro m; split <;> simp [h.lastVoteEpoch, hlast]
  case authEpoch => intro m; split <;> simp [h.authEpoch, hauth]
  case oneVote => exact h.oneVote
  case voterEpoch =>
    intro v hv
    have := h.voterEpoch v hv
    split
    next heq => rw [heq] at this; omega
    next => exact this
  case candidateEpoch =>
    intro v hv
    have := h.candidateEpoch v hv
    split
    next heq => rw [heq] at this; omega
    next => exact this
  case requests =>
    intro p hp ht
    have := h.requests p hp ht
    split
    next heq => rw [heq] at this; omega
    next => exact this
  case acks => exact h.acks
  case sender => exact h.sender
  case counted =>
    intro m
    split
    next heq => rw [heq]; exact hcounted
    next => exact h.counted m
  case promoted => exact h.promoted

theorem ElectionInv.setServer_keeps {w : ClusterWorld N} (h : ElectionInv M w)
    {st : ClusterState N} (hk : Keeps (w.server n) st) :
    ElectionInv M { w with server := update w.server n st } := by
  apply h.setServer
  · rw [hk.myself, h.myself]
  · exact (h.known n).of_viewLe hk.toViewLe
  · rw [hk.lastVoteEpoch]
    exact (h.lastVoteEpoch n).trans hk.currentEpoch
  · rw [hk.failoverAuthEpoch]
    exact (h.authEpoch n).trans hk.currentEpoch
  · rw [hk.lastVoteEpoch]
  · rw [hk.failoverAuthEpoch]
  · have hc := h.counted n
    rwa [VotesCounted, ← hk.failoverAuthSent, ← hk.failoverAuthCount, ← hk.failoverAuthEpoch] at hc

theorem ElectionInv.lose {w : ClusterWorld N} (h : ElectionInv M w) (hnet : net.Sublist w.net) :
    ElectionInv M { w with net := net } where
  myself := h.myself
  known := h.known
  lastVoteEpoch := h.lastVoteEpoch
  authEpoch := h.authEpoch
  oneVote := h.oneVote
  voterEpoch := h.voterEpoch
  candidateEpoch := h.candidateEpoch
  requests := fun p hp => h.requests p (hnet.subset hp)
  acks := fun p hp => h.acks p (hnet.subset hp)
  sender := fun p hp => h.sender p (hnet.subset hp)
  counted := by
    intro n
    have hc := h.counted n
    simp only [VotesCounted] at hc ⊢
    split
    next hsent =>
      rw [if_pos hsent] at hc
      have := hnet.countP_le (p := pendingAck M n (w.server n).failoverAuthEpoch)
      omega
    next hsent => rwa [if_neg hsent] at hc
  promoted := h.promoted

theorem ElectionInv.request {w : ClusterWorld N} (h : ElectionInv M w)
    (hps : ∀ p ∈ ps, p.type = .failoverAuthRequest ∧ p.sender ≠ p.dest ∧
      p.currentEpoch ≤ (w.server p.sender).failoverAuthEpoch) :
    ElectionInv M { w with net := w.net ++ ps } where
  myself := h.myself
  known := h.known
  lastVoteEpoch := h.lastVoteEpoch
  authEpoch := h.authEpoch
  oneVote := h.oneVote
  voterEpoch := h.voterEpoch
  candidateEpoch := h.candidateEpoch
  requests := by
    intro p hp ht
    rcases mem_append.mp hp with hp | hp
    · exact h.requests p hp ht
    · exact (hps p hp).2.2
  acks := by
    intro p hp ht
    rcases mem_append.mp hp with hp | hp
    · exact h.acks p hp ht
    · simp [(hps p hp).1] at ht
  sender := by
    intro p hp
    rcases mem_append.mp hp with hp | hp
    · exact h.sender p hp
    · exact (hps p hp).2.1
  counted := by
    intro n
    have hnone : ps.countP (pendingAck M n (w.server n).failoverAuthEpoch) = 0 := by
      rw [countP_eq_zero]
      intro p hp
      simp [pendingAck, (hps p hp).1]
    have hc := h.counted n
    simp only [VotesCounted, countP_append, hnone] at hc ⊢
    exact hc
  promoted := h.promoted

/-- Votes on their way are of epochs up to that of the election. -/
theorem ElectionInv.countP_pendingAck_eq_zero {w : ClusterWorld N} (h : ElectionInv M w)
    (he : (w.server n).failoverAuthEpoch < e) : w.net.countP (pendingAck M n e) = 0 := by
  rw [countP_eq_zero]
  intro p hp hack
  simp only [pendingAck, Bool.and_eq_true, decide_eq_true_eq] at hack
  obtain ⟨⟨⟨ht, rfl⟩, rfl⟩, _⟩ := hack
  have := h.candidateEpoch _ (h.acks p hp ht)
  simp only at this
  omega

theorem mem_clusterRequestFailoverAuth {st : ClusterState N} {p : ClusterMsg N}
    (h : p ∈ clusterRequestFailoverAuth st) :
    p.type = .failoverAuthRequest ∧ p.sender = st.myself ∧ p.dest ≠ st.myself ∧
      p.currentEpoch = st.currentEpoch := by
  simp only [clusterRequestFailoverAuth, List.mem_map, mem_filter] at h
  obtain ⟨n, hn, rfl⟩ := h
  refine ⟨rfl, rfl, ?_, rfl⟩
  rintro rfl
  simp at hn

theorem ElectionInv.handleSlaveFailover {w : ClusterWorld N} (h : ElectionInv M w)
    (hepoch : (w.server n).currentEpoch + 1 < 2 ^ 64) :
    ElectionInv M (w.step cfg (.handleSlaveFailover n now unixtime random)) := by
  simp only [ClusterWorld.step]
  cases hres : clusterHandleSlaveFailover cfg (w.server n) now unixtime random with
  | none => exact h
  | some o =>
    cases clusterHandleSlaveFailover_step hres with
    | wait time rank =>
      simpa using h.setServer_keeps (withDelay_keeps (w.server n) time rank)
    | schedule time rank =>
      have hk := withDelay_keeps (w.server n) time rank
      simp only [append_nil, Bool.false_eq_true, if_false]
      apply h.setServer
      · exact hk.myself.trans (h.myself n)
      · exact (h.known n).of_viewLe (.of_eq rfl rfl rfl rfl)
      · exact h.lastVoteEpoch n
      · exact h.authEpoch n
      · exact le_rfl
      · exact le_rfl
      · simp [VotesCounted]
    | start time rank hsent =>
      have hk := withDelay_keeps (w.server n) time rank
      have hauth := h.authEpoch n
      have hlast := h.lastVoteEpoch n
      have hbump : ((w.server n).currentEpoch + 1) % 2 ^ 64 = (w.server n).currentEpoch + 1 :=
        Nat.mod_eq_of_lt hepoch
      have hset : ElectionInv M { w with
          server := update w.server n (startElection (withDelay (w.server n) time rank)) } := by
        apply h.setServer
        · exact hk.myself.trans (h.myself n)
        · exact (h.known n).of_viewLe (.of_eq rfl rfl rfl rfl)
        · simp only [startElection, withDelay, hbump]
          omega
        · exact le_rfl
        · exact le_rfl
        · simp only [startElection, withDelay, hbump]
          omega
        · have hcount := h.counted n
          simp only [VotesCounted, hsent, Bool.false_eq_true, if_false] at hcount
          simp only [VotesCounted, startElection, withDelay, if_true, hbump, hcount,
            h.countP_pendingAck_eq_zero (Nat.lt_succ_of_le hauth)]
          omega
      simp only [Bool.false_eq_true, if_false]
      apply hset.request
      intro p hp
      obtain ⟨ht, hs, hd, he⟩ := mem_clusterRequestFailoverAuth hp
      have hself : p.sender = n := hs.trans (hk.myself.trans (h.myself n))
      refine ⟨ht, ?_, ?_⟩
      · rw [hs]
        exact hd.symm
      · simp only [hself, Function.update_self, he]
        exact le_rfl
    | promote st' hslave hsent hcount hk =>
      have hset := h.setServer_keeps hk
      simp only [append_nil, if_true]
      refine { hset with promoted := ?_ }
      intro x hx
      rcases mem_cons.mp hx with rfl | hx
      · have hc := h.counted n
        simp only [VotesCounted, hsent, if_true] at hc
        rw [(h.known n).size hslave] at hcount
        simp only [Elected, hk.failoverAuthEpoch]
        omega
      · exact h.promoted x hx

/-- A vote in an epoch the voter did not vote in yet, sent or not. -/
theorem ElectionInv.vote {w : ClusterWorld N} (h : ElectionInv M w) {v : Vote N N}
    (hlen : ps.length ≤ 1)
    (hps : ∀ p ∈ ps, p.type = .failoverAuthAck ∧ p.sender = v.voter ∧ p.dest = v.candidate ∧
      p.currentEpoch = v.round) (hfresh : ∀ u ∈ w.votes, u.voter = v.voter → u.round ≠ v.round)
    (hvoter : v.round ≤ (w.server v.voter).lastVoteEpoch)
    (hcand : v.round ≤ (w.server v.candidate).failoverAuthEpoch) (hne : v.voter ≠ v.candidate) :
    ElectionInv M { w with votes := v :: w.votes, net := w.net ++ ps } where
  myself := h.myself
  known := h.known
  lastVoteEpoch := h.lastVoteEpoch
  authEpoch := h.authEpoch
  oneVote := h.oneVote.cons hfresh
  voterEpoch := by
    intro u hu
    rcases mem_cons.mp hu with rfl | hu
    · exact hvoter
    · exact h.voterEpoch u hu
  candidateEpoch := by
    intro u hu
    rcases mem_cons.mp hu with rfl | hu
    · exact hcand
    · exact h.candidateEpoch u hu
  requests := by
    intro p hp ht
    rcases mem_append.mp hp with hp | hp
    · exact h.requests p hp ht
    · simp [(hps p hp).1] at ht
  acks := by
    intro p hp ht
    rcases mem_append.mp hp with hp | hp
    · exact mem_cons_of_mem v (h.acks p hp ht)
    · obtain ⟨-, hs, hd, he⟩ := hps p hp
      simp [hs, hd, he]
  sender := by
    intro p hp
    rcases mem_append.mp hp with hp | hp
    · exact h.sender p hp
    · obtain ⟨-, hs, hd, -⟩ := hps p hp
      rwa [hs, hd]
  counted := by
    intro n
    have hc := h.counted n
    simp only [VotesCounted, countP_append] at hc ⊢
    split
    next hsent =>
      rw [if_pos hsent] at hc
      by_cases hv : v.candidate = n ∧ v.round = (w.server n).failoverAuthEpoch ∧ v.voter ∈ M
      · obtain ⟨rfl, hr, hM⟩ := hv
        have hnew : v ∉ w.votes := fun hmem => hfresh v hmem rfl rfl
        have hcard := card_voters_cons hM hnew
        have hle := (countP_le_length (l := ps)
          (p := pendingAck M v.candidate (w.server v.candidate).failoverAuthEpoch))
        rw [← hr] at hc hle ⊢
        omega
      · have hnone : ps.countP (pendingAck M n (w.server n).failoverAuthEpoch) = 0 := by
          rw [countP_eq_zero]
          intro p hp hack
          obtain ⟨-, hs, hd, he⟩ := hps p hp
          simp only [pendingAck, Bool.and_eq_true, decide_eq_true_eq, hs, hd, he] at hack
          exact hv ⟨hack.1.1.2, hack.1.2, hack.2⟩
        have hcard := card_voters_le_cons M w.votes v (w.server n).failoverAuthEpoch n
        omega
    next hsent => rwa [if_neg hsent] at hc
  promoted := fun x hx => (h.promoted x hx).mono (subset_cons_self v w.votes)

theorem countP_pendingAck_eraseIdx {p : ClusterMsg N} (hp : net[i]? = some p)
    (h : pendingAck M n e p = true) :
    net.countP (pendingAck M n e) = (net.eraseIdx i).countP (pendingAck M n e) + 1 := by
  obtain ⟨hi, rfl⟩ := List.getElem?_eq_some_iff.mp hp
  rw [← (getElem_cons_eraseIdx_perm hi).countP_eq (pendingAck M n e)]
  exact countP_cons_of_pos h

/-- A counted ACK is a vote of a member of `M` in the epoch of the election. -/
theorem ElectionInv.pendingAck_of_ackCounted {w : ClusterWorld N} (h : ElectionInv M w)
    {p : ClusterMsg N} (hp : p ∈ w.net) (ht : p.type = .failoverAuthAck)
    (hknown : p.sender ∈ (w.server p.dest).nodes) (hack : ackCounted (w.server p.dest) p = true) :
    pendingAck M p.dest (w.server p.dest).failoverAuthEpoch p = true := by
  simp only [ackCounted, Bool.and_eq_true, decide_eq_true_eq] at hack
  have hM : p.sender ∈ M :=
    (h.known p.dest).serving p.sender hknown (by rw [h.myself]; exact h.sender p hp) hack.1
  have hle := h.candidateEpoch _ (h.acks p hp ht)
  have hepoch : senderCurrentEpoch (w.server p.dest) p ≤ p.currentEpoch := by
    rw [senderCurrentEpoch]
    split <;> omega
  simp only at hle
  simp only [pendingAck, ht, hM, decide_true, Bool.and_true, Bool.true_and, decide_eq_true_eq]
  omega

theorem ElectionInv.deliver {w : ClusterWorld N} (h : ElectionInv M w)
    (hok : VoteInTime w (.deliver i now)) : ElectionInv M (w.step cfg (.deliver i now)) := by
  simp only [ClusterWorld.step]
  cases hp : w.net[i]? with
  | none => exact h
  | some p =>
    have hmem : p ∈ w.net := mem_of_getElem? hp
    have hne := h.sender p hmem
    have hlose := h.lose (eraseIdx_sublist w.net i)
    simp only
    generalize ho : clusterProcessPacket cfg (w.server p.dest) p now = o
    have hstep := clusterProcessPacket_step cfg (w.server p.dest) p now
    rw [ho] at hstep
    cases hstep with
    | ignore st' hk => simpa using hlose.setServer_keeps hk
    | vote st' ps ht hvotes hepoch hlen hacks =>
      have hlast : (w.server p.dest).lastVoteEpoch < st'.currentEpoch := by
        have h₁ := h.lastVoteEpoch p.dest
        have h₂ := hvotes.currentEpoch
        have h₃ := hvotes.fresh
        omega
      have hset : ElectionInv M { w with
          net := w.net.eraseIdx i
          server := update w.server p.dest st' } := by
        apply hlose.setServer
        · exact hvotes.myself.trans (h.myself p.dest)
        · exact (h.known p.dest).of_viewLe hvotes.toViewLe
        · exact hvotes.lastVoteEpoch.le
        · exact hvotes.failoverAuthEpoch ▸ (h.authEpoch p.dest).trans hvotes.currentEpoch
        · exact hvotes.lastVoteEpoch ▸ hlast.le
        · exact hvotes.failoverAuthEpoch.ge
        · have hc := hlose.counted p.dest
          rwa [VotesCounted, ← hvotes.failoverAuthSent, ← hvotes.failoverAuthCount,
            ← hvotes.failoverAuthEpoch] at hc
      rw [h.myself] at hacks
      simp only [if_true]
      apply hset.vote (v := ⟨p.dest, st'.currentEpoch, p.sender⟩) hlen hacks
      · intro u hu hvoter hround
        have := h.voterEpoch u hu
        simp only at hvoter hround
        rw [hvoter] at this
        omega
      · simp [hvotes.lastVoteEpoch]
      · simp only [Function.update_of_ne hne]
        exact hepoch.trans (h.requests p hmem ht)
      · exact hne.symm
    | count st₁ ht hk hknown hack =>
      have hsent := hok p hp ht hknown hack
      have hpend := h.pendingAck_of_ackCounted hmem ht hknown hack
      have hc := h.counted p.dest
      simp only [VotesCounted, hsent, if_true, countP_pendingAck_eraseIdx hp hpend] at hc
      simp only [append_nil, Bool.false_eq_true, if_false]
      apply hlose.setServer
      · exact hk.myself.trans (h.myself p.dest)
      · exact (h.known p.dest).of_viewLe (hk.toViewLe.trans (.of_eq rfl rfl rfl rfl))
      · exact hk.lastVoteEpoch ▸ (h.lastVoteEpoch p.dest).trans hk.currentEpoch
      · exact hk.failoverAuthEpoch ▸ (h.authEpoch p.dest).trans hk.currentEpoch
      · exact hk.lastVoteEpoch.ge
      · exact hk.failoverAuthEpoch.ge
      · simp only [VotesCounted, hk.failoverAuthSent, hsent, if_true, hk.failoverAuthCount,
          hk.failoverAuthEpoch]
        omega

theorem ElectionInv.step {w : ClusterWorld N} (h : ElectionInv M w) {ev : ClusterEvent N}
    (hfixed : ∀ n st, ev = .observe n st → MastersKnown M (withElectionOf (w.server n) st))
    (hok : VoteInTime w ev) : ElectionInv M (w.step cfg ev) := by
  cases ev with
  | handleSlaveFailover n now unixtime random => exact h.handleSlaveFailover hok
  | deliver i now => exact h.deliver hok
  | lose i => exact h.lose (eraseIdx_sublist w.net i)
  | observe n st =>
    refine h.setServer ?_ (hfixed n st rfl) ?_ ?_ ?_ ?_ ?_
    · exact h.myself n
    · exact (h.lastVoteEpoch n).trans (le_max_left _ _)
    · exact (h.authEpoch n).trans (le_max_left _ _)
    · exact le_rfl
    · exact le_rfl
    · exact h.counted n

theorem ElectionInv.run {w : ClusterWorld N} {evs : List (ClusterEvent N)} (h : ElectionInv M w)
    (hfixed : MastersFixed M cfg w evs) (hok : VotesInTime cfg w evs) :
    ElectionInv M (w.run cfg evs) := by
  induction evs generalizing w with
  | nil => exact h
  | cons ev evs ih => exact ih (h.step hfixed.1 hok.1) hfixed.2 hok.2

/-- Election safety: with a fixed set of masters serving slots, two slaves
that promoted themselves with the same `failover_auth_epoch` are the same
slave, in every run in which no vote of an earlier attempt is counted between
the reset of the counter and the bump of the epoch. -/
theorem clusterElection_safe (M : Finset N) (cfg : ClusterConfig) (w : ClusterWorld N)
    (evs : List (ClusterEvent N)) (hinit : ClusterInit M w) (hfixed : MastersFixed M cfg w evs)
    (hok : VotesInTime cfg w evs) (n n' : N) (e : Nat)
    (hn : (n, e) ∈ (w.run cfg evs).promoted) (hn' : (n', e) ∈ (w.run cfg evs).promoted) :
    n = n' := by
  have hinv := hinit.inv.run hfixed hok
  exact elected_unique hinv.oneVote (hinv.promoted _ hn) (hinv.promoted _ hn')

/-! ## A cluster of five nodes -/

/-- The record of a node in a cluster of five: 0, 3 and 4 serve one slot
each, 0 has failed, 1 and 2 are its slaves. -/
def fiveNode (n : Fin 5) : ClusterNode (Fin 5) where
  master := n ≠ 1 ∧ n ≠ 2
  slave := n = 1 ∨ n = 2
  fail := n = 0
  handshake := false
  configEpoch := 0
  slots := if n = 1 ∨ n = 2 then [] else [n.val]
  numslots := if n = 1 ∨ n = 2 then 0 else 1
  slaves := if n = 0 then [1, 2] else []
  slaveof := if n = 1 ∨ n = 2 then some 0 else none
  votedTime := 0
  replOffset := 0
  link := true

def fiveServer (n : Fin 5) : ClusterState (Fin 5) where
  myself := n
  currentEpoch := 0
  size := 3
  nodes := [0, 1, 2, 3, 4]
  node := fiveNode
  slots := fun j => if j = 0 then some 0 else if j = 3 then some 3 else if j = 4 then some 4 else none
  failoverAuthTime := 0
  failoverAuthCount := 0
  failoverAuthSent := false
  failoverAuthRank := 0
  failoverAuthEpoch := 0
  mfEnd := 0
  mfCanStart := false
  lastVoteEpoch := 0
  replConnected := false
  lastinteraction := 0
  replDownSince := 10
  masterhost := true
  masterReploff := none
  cachedMasterReploff := some 0
  masterReplOffset := 0

def fiveWorld : ClusterWorld (Fin 5) := ⟨fiveServer, [], [], []⟩

def fiveConfig : ClusterConfig := ⟨1000, 10, 10⟩

theorem fiveServer_known (n : Fin 5) : MastersKnown {0, 3, 4} (fiveServer n) where
  serving := by
    revert n
    decide
  size := fun _ => rfl

theorem fiveWorld_init : ClusterInit {0, 3, 4} fiveWorld where
  net := rfl
  votes := rfl
  promoted := rfl
  myself := fun _ => rfl
  known := fiveServer_known
  lastVoteEpoch := fun _ => le_rfl
  failoverAuthCount := fun _ => rfl
  failoverAuthEpoch := fun _ => rfl

/-- Slave 1 is elected in epoch 1 by 3 and 4. -/
def oneWinnerRun : List (ClusterEvent (Fin 5)) :=
  [.handleSlaveFailover 1 10000 10 0,
   .handleSlaveFailover 1 10500 10 0,
   .lose 0, .deliver 0 10500, .deliver 0 10500, .deliver 0 10500,
   .deliver 0 10510, .deliver 0 10510,
   .handleSlaveFailover 1 10600 10 0]

theorem clusterElection_safe_oneWinnerRun :
    (1, 1) ∈ (fiveWorld.run fiveConfig oneWinnerRun).promoted ∧
    ∀ n', (n', 1) ∈ (fiveWorld.run fiveConfig oneWinnerRun).promoted → 1 = n' := by
  have hfixed : MastersFixed {0, 3, 4} fiveConfig fiveWorld oneWinnerRun := by
    simp [MastersFixed, oneWinnerRun]
  have hok : VotesInTime fiveConfig fiveWorld oneWinnerRun := by decide +kernel
  have hwin : (1, 1) ∈ (fiveWorld.run fiveConfig oneWinnerRun).promoted := by decide +kernel
  exact ⟨hwin, fun n' hn' => clusterElection_safe {0, 3, 4} fiveConfig fiveWorld oneWinnerRun
    fiveWorld_init hfixed hok 1 n' 1 hwin hn'⟩

/-- Slave 1 asks for votes in epoch 1; the ACKs of 3 and 4 are late.  It
schedules a second attempt, the ACKs arrive, and the attempt of epoch 2
starts with the two votes of epoch 1.  Slave 2 wins the votes of epoch 2. -/
def staleVoteRun : List (ClusterEvent (Fin 5)) :=
  [.handleSlaveFailover 1 10000 10 0,
   .handleSlaveFailover 1 10500 10 0,
   -- the requests of 1 reach 2, 3 and 4, the one for 0 is lost
   .lose 0, .deliver 0 10500, .deliver 0 10500, .deliver 0 10500,
   .handleSlaveFailover 1 15000 15 0,
   .handleSlaveFailover 2 15000 15 0,
   -- the ACKs of epoch 1
   .deliver 0 15001, .deliver 0 15001,
   .handleSlaveFailover 1 15500 15 0,
   .handleSlaveFailover 2 15500 15 0,
   -- the requests of 1 are lost, those of 2 reach 3 and 4
   .lose 0, .lose 0, .lose 0, .lose 0, .lose 0, .lose 0,
   .deliver 0 15500, .deliver 0 15500, .deliver 0 15550, .deliver 0 15550,
   .handleSlaveFailover 1 15600 15 0,
   .handleSlaveFailover 2 15600 15 0]

/-- Two slaves promote themselves in epoch 2. -/
theorem staleVoteRun_two_winners :
    ClusterInit {0, 3, 4} fiveWorld ∧
    MastersFixed {0, 3, 4} fiveConfig fiveWorld staleVoteRun ∧
    (1, 2) ∈ (fiveWorld.run fiveConfig staleVoteRun).promoted ∧
    (2, 2) ∈ (fiveWorld.run fiveConfig staleVoteRun).promoted := by
  refine ⟨fiveWorld_init, ?_, ?_, ?_⟩
  · simp [MastersFixed, staleVoteRun]
  · decide +kernel
  · decide +kernel

end Redis
