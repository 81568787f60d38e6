import Mathlib.Data.Finset.Card
import Mathlib.Data.List.Nodup

/-!
# Redis.Roster

A list that holds exactly the members that a flag is set for, once each, and what setting and
clearing the flag of one member asks of the list.
-/

namespace Redis

open List

variable {ι : Type} {l : List ι} {p p' : ι → Prop}

/-- The list holds those of which `p` is true, once each. -/
structure Roster (l : List ι) (p : ι → Prop) : Prop where
  nodup : l.Nodup
  mem : ∀ c, c ∈ l ↔ p c

namespace Roster

theorem congr (h : Roster l p) (hp : ∀ c, p' c ↔ p c) : Roster l p' :=
  ⟨h.nodup, fun c => (h.mem c).trans (hp c).symm⟩

theorem enter (h : Roster l p) {c : ι} (hc : ¬ p c) (hp : ∀ c', p' c' ↔ p c' ∨ c' = c) :
    Roster (l ++ [c]) p' := by
  constructor
  · rw [nodup_append]
    refine ⟨h.nodup, nodup_singleton c, fun a ha b hb hab => hc ?_⟩
    rw [mem_singleton] at hb
    exact (h.mem c).mp (hb ▸ hab ▸ ha)
  · intro c'
    rw [mem_append, mem_singleton, h.mem, hp]

variable [DecidableEq ι]

theorem leave (h : Roster l p) {c : ι} (hp : ∀ c', p' c' ↔ p c' ∧ c' ≠ c) :
    Roster (l.erase c) p' := by
  constructor
  · exact h.nodup.erase c
  · intro c'
    rw [h.nodup.mem_erase_iff, h.mem, hp, and_comm]

theorem count (h : Roster l p) [DecidablePred p] (c : ι) :
    l.count c = if p c then 1 else 0 := by
  split
  · rename_i hc
    exact count_eq_one_of_mem h.nodup ((h.mem c).mpr hc)
  · rename_i hc
    exact count_eq_zero.mpr fun hmem => hc ((h.mem c).mp hmem)

theorem card (h : Roster l p) : ∃ s : Finset ι, (∀ c, c ∈ s ↔ p c) ∧ s.card = l.length :=
  ⟨l.toFinset, fun c => mem_toFinset.trans (h.mem c), toFinset_card_of_nodup h.nodup⟩

end Roster

/-- What happens to the list while the flag of `c` changes from `old` to `new`. -/
inductive Roster.Change [DecidableEq ι] (c : ι) (old new : Prop) (l : List ι) : List ι → Prop
  | keep : (new ↔ old) → Change c old new l l
  | enter : ¬ old → new → Change c old new l (l ++ [c])
  | leave : ¬ new → Change c old new l (l.erase c)

/-- The list follows the flag. -/
theorem Roster.change [DecidableEq ι] {l' : List ι} {c : ι} (h : Roster l p)
    (hchange : Roster.Change c (p c) (p' c) l l') (hother : ∀ c' ≠ c, (p' c' ↔ p c')) :
    Roster l' p' := by
  cases hchange with
  | keep hc =>
    refine h.congr fun c' => ?_
    by_cases hne : c' = c
    · rw [hne]
      exact hc
    · exact hother c' hne
  | enter hold hnew =>
    refine h.enter hold fun c' => ?_
    by_cases hne : c' = c
    · simp [hne, hnew]
    · simp [hne, hother c' hne]
  | leave hnew =>
    refine h.leave fun c' => ?_
    by_cases hne : c' = c
    · simp [hne, hnew]
    · simp [hne, hother c' hne]

end Redis
