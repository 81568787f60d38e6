import Mathlib.Data.List.Basic

/-!
# Redis.Globs

Patterns whose parts match one letter each, and whose stars match any letters.
-/

namespace Redis.Globs

inductive Part (τ : Type) where
  | star
  | one (t : τ)

variable {τ α : Type} {test test' : τ → α → Prop} {ps : List (Part τ)} {s : List α} {t : τ} {c : α}

/-- The strings that a pattern matches. -/
def Matches (test : τ → α → Prop) : List (Part τ) → List α → Prop
  | [], s => s = []
  | .star :: ps, s => ∃ s₁ s₂, s = s₁ ++ s₂ ∧ Matches test ps s₂
  | .one t :: ps, s => ∃ c s', s = c :: s' ∧ test t c ∧ Matches test ps s'

theorem matches_one_cons :
    Matches test (.one t :: ps) (c :: s) ↔ test t c ∧ Matches test ps s := by
  rw [Matches]
  constructor
  · rintro ⟨c', s', heq, h⟩
    obtain ⟨rfl, rfl⟩ := List.cons.inj heq
    exact h
  · exact fun h => ⟨c, s, rfl, h⟩

theorem matches_star_of (h : Matches test ps s) : Matches test (.star :: ps) s := ⟨[], s, rfl, h⟩

/-- A part may be compared with a letter: the parts before it match what is before the letter. -/
def Reached (test : τ → α → Prop) (ps : List (Part τ)) (s : List α) (t : τ) (c : α) : Prop :=
  ∃ before after s₁ s₂, ps = before ++ .one t :: after ∧ s = s₁ ++ c :: s₂ ∧ Matches test before s₁

namespace Reached

theorem here : Reached test (.one t :: ps) (c :: s) t c := ⟨[], ps, [], s, rfl, rfl, rfl⟩

theorem mem (h : Reached test ps s t c) : .one t ∈ ps := by
  obtain ⟨before, after, s₁, s₂, rfl, -, -⟩ := h
  exact List.mem_append_right before List.mem_cons_self

variable {t' : τ} {c' : α}

theorem one (htest : test t' c') (h : Reached test ps s t c) :
    Reached test (.one t' :: ps) (c' :: s) t c := by
  obtain ⟨before, after, s₁, s₂, rfl, rfl, hbefore⟩ := h
  exact ⟨.one t' :: before, after, c' :: s₁, s₂, rfl, rfl, matches_one_cons.mpr ⟨htest, hbefore⟩⟩

theorem star (h : Reached test ps s t c) : Reached test (.star :: ps) s t c := by
  obtain ⟨before, after, s₁, s₂, rfl, rfl, hbefore⟩ := h
  exact ⟨.star :: before, after, s₁, s₂, rfl, rfl, matches_star_of hbefore⟩

theorem append {before after : List (Part τ)} {s₁ s₂ : List α} (h : Reached test before s₁ t c) :
    Reached test (before ++ after) (s₁ ++ s₂) t c := by
  obtain ⟨before', after', s₁', s₂', rfl, rfl, hbefore⟩ := h
  exact ⟨before', after' ++ after, s₁', s₂' ++ s₂, by simp, by simp, hbefore⟩

end Reached

end Redis.Globs
