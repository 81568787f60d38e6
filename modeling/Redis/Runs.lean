import Mathlib.Logic.Basic

/-!
# Redis.Runs

Programs with a state that may fail, and what they do to an abstract state that the real one
represents.
-/

namespace Redis

variable {σ δ α β : Type} {Rep : σ → δ → Prop}

/-- From every state that represents `d`, the program `m` returns `r`, and its last state
represents `d'`. -/
def Runs (Rep : σ → δ → Prop) (m : StateT σ Option α) (d : δ) (r : α) (d' : δ) : Prop :=
  ∀ s, Rep s d → ∃ s', m.run s = some (r, s') ∧ Rep s' d'

namespace Runs

variable {m : StateT σ Option α} {f : α → StateT σ Option β} {d d' d'' : δ} {r : α} {r' : β}

theorem pure (r : α) (d : δ) : Runs Rep (Pure.pure r) d r d := fun s h => ⟨s, rfl, h⟩

theorem bind (h : Runs Rep m d r d') (h' : Runs Rep (f r) d' r' d'') :
    Runs Rep (m >>= f) d r' d'' := by
  intro s hs
  obtain ⟨s₁, h₁, hs₁⟩ := h s hs
  obtain ⟨s₂, h₂, hs₂⟩ := h' s₁ hs₁
  exact ⟨s₂, by rw [StateT.run_bind, h₁]; exact h₂, hs₂⟩

theorem map (h : Runs Rep m d r d') (g : α → β) : Runs Rep (g <$> m) d (g r) d' := by
  intro s hs
  obtain ⟨s₁, h₁, hs₁⟩ := h s hs
  exact ⟨s₁, by rw [StateT.run_map, h₁]; rfl, hs₁⟩

/-- A first step whose result is not used, and may depend on more than what is represented. -/
theorem seq (h : ∀ s, Rep s d → ∃ r s', m.run s = some (r, s') ∧ Rep s' d')
    {k : StateT σ Option β} (h' : Runs Rep k d' r' d'') :
    Runs Rep (m >>= fun _ => k) d r' d'' := by
  intro s hs
  obtain ⟨r, s₁, h₁, hs₁⟩ := h s hs
  obtain ⟨s₂, h₂, hs₂⟩ := h' s₁ hs₁
  exact ⟨s₂, by rw [StateT.run_bind, h₁]; exact h₂, hs₂⟩

end Runs

/-! ## Postconditions -/

namespace Ends

variable {m : StateT σ Option α} {f : α → StateT σ Option β} {d d' : δ} {r : α}
  {Q Q' : α → δ → Prop} {P : β → δ → Prop}

end Ends

/-! ## Results -/

/-- Whatever a program returns satisfies `P`. -/
def Replies (P : α → Prop) (m : StateT σ Option α) : Prop :=
  ∀ s r s', m.run s = some (r, s') → P r

namespace Replies

variable {m : StateT σ Option α} {f : α → StateT σ Option β} {P : α → Prop} {Q : β → Prop} {r : α}

theorem pure (h : P r) : Replies P (Pure.pure r : StateT σ Option α) := by
  rintro s r' s' hrun
  obtain ⟨rfl, -⟩ := Prod.mk.inj (Option.some.inj hrun)
  exact h

theorem bind (h : ∀ a, Replies Q (f a)) : Replies Q (m >>= f) := by
  intro s r s' hrun
  rw [StateT.run_bind] at hrun
  obtain ⟨⟨a, s₁⟩, -, hrun⟩ := Option.bind_eq_some_iff.mp hrun
  exact h a s₁ r s' hrun

end Replies

end Redis
