import Mathlib.Data.Finset.Card
import Mathlib.Data.Fintype.Basic
import Mathlib.Tactic.Common

/-!
# Redis.Ballot

Votes cast in numbered rounds.  A log records who voted in which round and
for whom; if nobody votes twice in a round, two candidates that each got
the votes of a majority of the same electorate in one round are the same
candidate.
-/

namespace Redis.Ballot

variable {V C : Type} [DecidableEq V] [DecidableEq C]

/-- One vote: voter, round, candidate. -/
structure Vote (V C : Type) where
  voter : V
  round : Nat
  candidate : C
deriving DecidableEq, Repr

/-- Nobody votes for two candidates in one round. -/
def OneVote (log : List (Vote V C)) : Prop :=
  ∀ v ∈ log, ∀ v' ∈ log, v.voter = v'.voter → v.round = v'.round → v.candidate = v'.candidate

/-- The members of the electorate `M` that voted for `c` in round `e`. -/
def voters (M : Finset V) (log : List (Vote V C)) (e : Nat) (c : C) : Finset V :=
  M.filter fun m => (⟨m, e, c⟩ : Vote V C) ∈ log

/-- The votes a candidate needs. -/
def quorum (size : Nat) : Nat := size / 2 + 1

/-- `c` has the votes of a majority of `M` in round `e`. -/
def Elected (M : Finset V) (log : List (Vote V C)) (e : Nat) (c : C) : Prop :=
  quorum M.card ≤ (voters M log e c).card

theorem voters_subset (M : Finset V) (log : List (Vote V C)) (e : Nat) (c : C) :
    voters M log e c ⊆ M :=
  Finset.filter_subset _ _

variable {M : Finset V} {log log' : List (Vote V C)}

theorem voters_mono (h : log ⊆ log') (e : Nat) (c : C) : voters M log e c ⊆ voters M log' e c := by
  intro m hm
  simp only [voters, Finset.mem_filter] at hm ⊢
  exact ⟨hm.1, h hm.2⟩

theorem card_voters_le_cons (M : Finset V) (log : List (Vote V C)) (v : Vote V C) (e : Nat)
    (c : C) : (voters M log e c).card ≤ (voters M (v :: log) e c).card :=
  Finset.card_le_card (voters_mono (List.subset_cons_self v log) e c)

/-- A vote that is not in the log yet is one more voter. -/
theorem card_voters_cons {v : Vote V C} (hm : v.voter ∈ M) (h : v ∉ log) :
    (voters M log v.round v.candidate).card + 1 ≤
      (voters M (v :: log) v.round v.candidate).card := by
  have hnot : v.voter ∉ voters M log v.round v.candidate := by simp [voters, h]
  rw [← Finset.card_insert_of_notMem hnot]
  apply Finset.card_le_card
  intro x hx
  rcases Finset.mem_insert.mp hx with rfl | hx
  · simp [voters, hm]
  · exact voters_mono (List.subset_cons_self v log) v.round v.candidate hx

theorem Elected.mono {e : Nat} {c : C} (h : Elected M log e c) (hl : log ⊆ log') :
    Elected M log' e c :=
  h.trans (Finset.card_le_card (voters_mono hl e c))

omit [DecidableEq V] [DecidableEq C] in
/-- A voter that did not vote in round `e` before may vote in it. -/
theorem OneVote.cons {v : Vote V C} (h : OneVote log)
    (hv : ∀ u ∈ log, u.voter = v.voter → u.round ≠ v.round) : OneVote (v :: log) := by
  intro a ha b hb hab hr
  simp only [List.mem_cons] at ha hb
  rcases ha with rfl | ha <;> rcases hb with rfl | hb
  · rfl
  · exact absurd hr.symm (hv b hb hab.symm)
  · exact absurd hr (hv a ha hab)
  · exact h a ha b hb hab hr

omit [DecidableEq V] [DecidableEq C] in
theorem OneVote.subset (h : OneVote log) (hl : log' ⊆ log) : OneVote log' :=
  fun a ha b hb => h a (hl ha) b (hl hb)

/-- Two majorities of one electorate share a voter, so a round elects one
candidate at most. -/
theorem elected_unique {e : Nat} {a b : C} (h : OneVote log) (ha : Elected M log e a)
    (hb : Elected M log e b) : a = b := by
  have hcard : M.card < (voters M log e a).card + (voters M log e b).card := by
    simp only [Elected, quorum] at ha hb
    omega
  obtain ⟨m, hm⟩ := Finset.inter_nonempty_of_card_lt_card_add_card
    (voters_subset M log e a) (voters_subset M log e b) hcard
  simp only [voters, Finset.mem_inter, Finset.mem_filter] at hm
  exact h _ hm.1.2 _ hm.2.2 rfl rfl

end Redis.Ballot
