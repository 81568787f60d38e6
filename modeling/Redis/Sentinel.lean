import Mathlib.Data.List.Count
import Mathlib.Logic.Function.Basic
import Mathlib.Tactic.Common

/-!
# Redis.Sentinel

What the parts of `sentinel.c` share: the address of an instance, the states of a
failover, and the election of the leader of a failover, as far as one Sentinel goes:
`sentinelVoteLeader`, by which it votes, and `sentinelGetLeader`, by which it counts.
-/

namespace Redis.Sentinel

/-- `sentinelAddr`.  The address is a resolved one, a text of bytes. -/
structure Addr where
  ip : List UInt8
  port : Nat
  deriving DecidableEq, Repr

/-- `failover_state` of a master. -/
inductive FailoverState where
  | none
  | waitStart
  | selectSlave
  | sendSlaveofNoone
  | waitPromotion
  | reconfSlaves
  | updateConfig
  deriving DecidableEq, Repr

namespace FailoverState

/-- The numbers of the states, which the source compares. -/
def num : FailoverState → Nat
  | none => 0
  | waitStart => 1
  | selectSlave => 2
  | sendSlaveofNoone => 3
  | waitPromotion => 4
  | reconfSlaves => 5
  | updateConfig => 6

end FailoverState

/-- What `sentinelVoteLeader` reads and writes: `current_epoch` of the Sentinel, and
`leader` and `leader_epoch` of the master. -/
structure Epochs (R : Type) where
  currentEpoch : Nat
  leader : Option R
  leaderEpoch : Nat
  deriving DecidableEq, Repr

variable {R : Type}

namespace Epochs

/-- The first half of `sentinelVoteLeader`: a greater epoch is taken over. -/
def adopt (v : Epochs R) (reqEpoch : Nat) : Epochs R :=
  if reqEpoch > v.currentEpoch then { v with currentEpoch := reqEpoch } else v

/-- The condition of the second half. -/
def Casts (v : Epochs R) (reqEpoch : Nat) : Prop :=
  v.leaderEpoch < reqEpoch ∧ v.currentEpoch ≤ reqEpoch

instance (v : Epochs R) (reqEpoch : Nat) : Decidable (v.Casts reqEpoch) :=
  inferInstanceAs (Decidable (_ ∧ _))

/-- The second half of `sentinelVoteLeader`: the vote. -/
def cast (v : Epochs R) (reqEpoch : Nat) (reqRunid : R) : Epochs R :=
  if v.Casts reqEpoch then { v with leader := some reqRunid, leaderEpoch := v.currentEpoch }
  else v

end Epochs

/-- `sentinelVoteLeader` as far as the epochs go: it replies with the `leader` and the
`leaderEpoch` of the result. -/
def sentinelVoteLeader (v : Epochs R) (reqEpoch : Nat) (reqRunid : R) : Epochs R :=
  (v.adopt reqEpoch).cast reqEpoch reqRunid

namespace Epochs

variable (v : Epochs R) (e : Nat)

@[simp] theorem adopt_leader : (v.adopt e).leader = v.leader := by
  unfold adopt
  split <;> rfl

@[simp] theorem adopt_leaderEpoch : (v.adopt e).leaderEpoch = v.leaderEpoch := by
  unfold adopt
  split <;> rfl

theorem adopt_currentEpoch : (v.adopt e).currentEpoch = max v.currentEpoch e := by
  unfold adopt
  split
  · simp only
    omega
  · omega

/-- A vote goes to the requested epoch, which is later than that of the vote before. -/
theorem cast_of_casts {v : Epochs R} {e : Nat} {r : R} (h : (v.adopt e).Casts e) :
    sentinelVoteLeader v e r = ⟨e, some r, e⟩ ∧ v.leaderEpoch < e := by
  have hcur : (v.adopt e).currentEpoch = e := by
    have := v.adopt_currentEpoch e
    have := h.2
    omega
  have hlt : v.leaderEpoch < e := by simpa using h.1
  refine ⟨?_, hlt⟩
  simp only [sentinelVoteLeader, cast, h, if_true, hcur]

theorem cast_of_not_casts {v : Epochs R} {e : Nat} {r : R} (h : ¬ (v.adopt e).Casts e) :
    sentinelVoteLeader v e r = v.adopt e := by
  simp only [sentinelVoteLeader, cast, h, if_false]

end Epochs

/-- `sentinelVoteLeader` keeps the vote of the master, or casts one in a later epoch. -/
theorem sentinelVoteLeader_cases (v : Epochs R) (e : Nat) (r : R) :
    ((v.adopt e).Casts e ∧ v.leaderEpoch < e ∧
      (sentinelVoteLeader v e r).leader = some r ∧
      (sentinelVoteLeader v e r).leaderEpoch = e) ∨
    (¬ (v.adopt e).Casts e ∧
      (sentinelVoteLeader v e r).leader = v.leader ∧
      (sentinelVoteLeader v e r).leaderEpoch = v.leaderEpoch) := by
  by_cases h : (v.adopt e).Casts e
  · obtain ⟨hv, hlt⟩ := Epochs.cast_of_casts (r := r) h
    exact .inl ⟨h, hlt, by rw [hv], by rw [hv]⟩
  · have hv := Epochs.cast_of_not_casts (r := r) h
    refine .inr ⟨h, ?_, ?_⟩
    · rw [hv, Epochs.adopt_leader]
    · rw [hv, Epochs.adopt_leaderEpoch]

theorem le_sentinelVoteLeader (v : Epochs R) (e : Nat) (r : R) :
    v.leaderEpoch ≤ (sentinelVoteLeader v e r).leaderEpoch := by
  rcases sentinelVoteLeader_cases v e r with ⟨-, hlt, -, h⟩ | ⟨-, -, h⟩ <;> omega

/-! ## Counting votes -/

section Count

variable [DecidableEq R]

/-- `sentinelLeaderIncr`: the counters and the new count.  A run id that is not in the
table has no votes. -/
def sentinelLeaderIncr (counters : R → Nat) (runid : R) : (R → Nat) × Nat :=
  (Function.update counters runid (counters runid + 1), counters runid + 1)

/-- One turn of the loop over the other Sentinels in `sentinelGetLeader`, of which the last
vote and its epoch are known. -/
def countVote (currentEpoch : Nat) (counters : R → Nat) (vote : Option R × Nat) : R → Nat :=
  match vote.1 with
  | some runid =>
    if vote.2 = currentEpoch then (sentinelLeaderIncr counters runid).1 else counters
  | none => counters

/-- The votes of the other Sentinels. -/
def countVotes (currentEpoch : Nat) (votes : List (Option R × Nat)) : R → Nat :=
  votes.foldl (countVote currentEpoch) fun _ => 0

/-- One turn of the loop over the counters. -/
def better (counters : R → Nat) (best : Option R × Nat) (runid : R) : Option R × Nat :=
  if counters runid > best.2 then (some runid, counters runid) else best

/-- The run id with the most votes, where the table of counters is visited in the order
`order`. -/
def mostVoted (order : List R) (counters : R → Nat) : Option R × Nat :=
  order.foldl (better counters) (none, 0)

/-- The own vote counts when it is one of the epoch that is asked for. -/
def countOwn (counters : R → Nat) (best : Option R × Nat) (own : Epochs R) (epoch : Nat) :
    Option R × Nat :=
  match own.leader with
  | some myvote =>
    if own.leaderEpoch = epoch then
      let votes := (sentinelLeaderIncr counters myvote).2
      if votes > best.2 then (some myvote, votes) else best
    else best
  | none => best

/-- The run id a Sentinel votes for if it has not voted yet: the one with the most votes,
or its own one. -/
def candidate (v : Epochs R) (votes : List (Option R × Nat)) (myself : R) (order : List R) : R :=
  (mostVoted order (countVotes v.currentEpoch votes)).1.getD myself

/-- `sentinelGetLeader`: the leader, and what the own vote makes of the epochs. -/
def sentinelGetLeader (v : Epochs R) (votes : List (Option R × Nat)) (quorum : Nat) (myself : R)
    (epoch : Nat) (order : List R) : Option R × Epochs R :=
  let voters := votes.length + 1
  let counters := countVotes v.currentEpoch votes
  let best := mostVoted order counters
  let own := sentinelVoteLeader v epoch (candidate v votes myself order)
  let best := countOwn counters best own epoch
  let votersQuorum := voters / 2 + 1
  (if best.2 < votersQuorum ∨ best.2 < quorum then none else best.1, own)

variable {epoch : Nat} (e : Nat) (votes : List (Option R × Nat)) (counters : R → Nat) (c : R)

theorem countVote_apply (vote : Option R × Nat) (c : R) :
    countVote e counters vote c = counters c + if vote = (some c, e) then 1 else 0 := by
  obtain ⟨leader, epoch⟩ := vote
  cases leader with
  | none => simp [countVote]
  | some runid =>
    by_cases he : epoch = e
    · by_cases hr : runid = c
      · simp [countVote, he, hr, sentinelLeaderIncr]
      · have hr' : c ≠ runid := fun h => hr h.symm
        simp [countVote, he, hr, hr', sentinelLeaderIncr]
    · simp [countVote, he]

theorem foldl_countVote :
    votes.foldl (countVote e) counters c = counters c + votes.count (some c, e) := by
  induction votes generalizing counters with
  | nil => simp
  | cons vote votes ih =>
    rw [List.foldl_cons, ih, countVote_apply, List.count_cons]
    simp only [beq_iff_eq]
    omega

/-- A counter is the number of the others that are known to have voted so. -/
theorem countVotes_apply : countVotes e votes c = votes.count (some c, e) := by
  rw [countVotes, foldl_countVote, Nat.zero_add]

omit [DecidableEq R] in
/-- The number of votes of the best run id is its counter. -/
theorem mostVoted_eq (order : List R) (counters : R → Nat) :
    ∀ c, (mostVoted order counters).1 = some c → (mostVoted order counters).2 = counters c := by
  have hfold : ∀ (order : List R) (best : Option R × Nat),
      (∀ c, best.1 = some c → best.2 = counters c) →
      ∀ c, (order.foldl (better counters) best).1 = some c →
        (order.foldl (better counters) best).2 = counters c := by
    intro order
    induction order with
    | nil => exact fun best hbest => hbest
    | cons r order ih =>
      intro best hbest
      apply ih
      intro c hc
      unfold better at hc ⊢
      split at hc
      · rename_i hr
        rw [if_pos hr]
        simp only [Option.some.injEq] at hc
        rw [hc]
      · rename_i hr
        rw [if_neg hr]
        exact hbest c hc
  exact hfold order (none, 0) (by simp)

/-- The own vote as it is counted. -/
def ownVotes (own : Epochs R) (epoch : Nat) (c : R) : Nat :=
  if own.leader = some c ∧ own.leaderEpoch = epoch then 1 else 0

theorem countOwn_le {counters : R → Nat} {best : Option R × Nat} {own : Epochs R} {c : R}
    (hbest : ∀ c, best.1 = some c → best.2 = counters c)
    (h : (countOwn counters best own epoch).1 = some c) :
    (countOwn counters best own epoch).2 ≤ counters c + ownVotes own epoch c := by
  unfold countOwn at h ⊢
  split at h
  · rename_i myvote hmy
    by_cases he : own.leaderEpoch = epoch
    · simp only [if_pos he] at h ⊢
      split at h
      · rename_i hgt
        obtain rfl := Option.some.inj h
        rw [if_pos hgt, ownVotes, if_pos ⟨hmy, he⟩]
        exact Nat.le_refl _
      · rename_i hgt
        rw [if_neg hgt, hbest c h]
        omega
    · simp only [if_neg he] at h ⊢
      rw [hbest c h]
      omega
  · rw [hbest c h]
    omega

/-- A leader has a majority: the others that are known to have voted for it in the current
epoch, and the own vote if it is one of the epoch that is asked for. -/
theorem sentinelGetLeader_majority {v : Epochs R} {votes : List (Option R × Nat)} {quorum : Nat}
    {myself c : R} {order : List R}
    (h : (sentinelGetLeader v votes quorum myself epoch order).1 = some c) :
    (votes.length + 1) / 2 + 1 ≤ votes.count (some c, v.currentEpoch) +
      ownVotes (sentinelGetLeader v votes quorum myself epoch order).2 epoch c := by
  simp only [sentinelGetLeader] at h ⊢
  split at h
  · simp at h
  · rename_i hq
    have hle := countOwn_le (mostVoted_eq order (countVotes v.currentEpoch votes)) h
    rw [countVotes_apply] at hle
    omega

end Count

end Redis.Sentinel
