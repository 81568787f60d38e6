import Mathlib.Data.List.Nodup
import Mathlib.Logic.Function.Basic

/-!
# Redis.TwoWay

A forest stored in both directions: each node has a pointer to the node above
it and a list of the nodes below it.  The operations that change one edge, or
the nodes, keep the two directions in agreement.
-/

namespace Redis

open List

variable {α : Type} [DecidableEq α]

/-- Both directions stay within `nodes` and agree, and no node is listed twice. -/
structure TwoWay (nodes : List α) (below : α → List α) (above : α → Option α) : Prop where
  above_mem : ∀ n ∈ nodes, ∀ m, above n = some m → m ∈ nodes
  below_mem : ∀ m ∈ nodes, ∀ n ∈ below m, n ∈ nodes
  agree : ∀ m ∈ nodes, ∀ n ∈ nodes, n ∈ below m ↔ above n = some m
  nodup : ∀ m ∈ nodes, (below m).Nodup

namespace TwoWay

variable {nodes nodes' : List α} {below below' : α → List α} {above above' : α → Option α}

omit [DecidableEq α] in
theorem congr (h : TwoWay nodes below above) (hnodes : ∀ n, n ∈ nodes' ↔ n ∈ nodes)
    (hbelow : ∀ n ∈ nodes, below' n = below n) (habove : ∀ n ∈ nodes, above' n = above n) :
    TwoWay nodes' below' above' where
  above_mem := by
    intro n hn m hm
    rw [hnodes] at hn ⊢
    exact h.above_mem n hn m (habove n hn ▸ hm)
  below_mem := by
    intro m hm n hn
    rw [hnodes] at hm ⊢
    exact h.below_mem m hm n (hbelow m hm ▸ hn)
  agree := by
    intro m hm n hn
    rw [hnodes] at hm hn
    rw [hbelow m hm, habove n hn]
    exact h.agree m hm n hn
  nodup := by
    intro m hm
    rw [hnodes] at hm
    rw [hbelow m hm]
    exact h.nodup m hm

theorem leave (h : TwoWay nodes below above) {n : α} (hn : n ∈ nodes) :
    TwoWay nodes (fun m => if above n = some m then (below m).erase n else below m)
      (Function.update above n none) where
  above_mem := by
    intro p hp m hm
    rw [Function.update_apply] at hm
    split at hm
    · cases hm
    · exact h.above_mem p hp m hm
  below_mem := by
    intro m hm p hp
    split at hp
    · exact h.below_mem m hm p (mem_of_mem_erase hp)
    · exact h.below_mem m hm p hp
  agree := by
    intro m hm p hp
    by_cases hpn : p = n
    · subst hpn
      rw [Function.update_self]
      split
      · simpa using (h.nodup m hm).not_mem_erase
      · next hne => simp [h.agree m hm p hp, hne]
    · rw [Function.update_of_ne hpn, ← h.agree m hm p hp]
      split
      · exact mem_erase_of_ne hpn
      · exact Iff.rfl
  nodup := by
    intro m hm
    split
    · exact (h.nodup m hm).erase n
    · exact h.nodup m hm

/-- A node without a node above it is put below `m`. -/
theorem join (h : TwoWay nodes below above) {n m : α} (hn : n ∈ nodes) (hm : m ∈ nodes)
    (hnone : above n = none) :
    TwoWay nodes (fun q => if q = m then below q ++ [n] else below q)
      (Function.update above n (some m)) where
  above_mem := by
    intro p hp q hq
    rw [Function.update_apply] at hq
    split at hq
    · exact Option.some.inj hq ▸ hm
    · exact h.above_mem p hp q hq
  below_mem := by
    intro q hq p hp
    split at hp
    · rcases mem_append.mp hp with hp | hp
      · exact h.below_mem q hq p hp
      · exact mem_singleton.mp hp ▸ hn
    · exact h.below_mem q hq p hp
  agree := by
    intro q hq p hp
    have hiff := h.agree q hq p hp
    by_cases hpn : p = n
    · subst hpn
      rw [hnone] at hiff
      rw [Function.update_self]
      by_cases hqm : q = m
      · simp [hqm]
      · simp [hqm, hiff, Ne.symm hqm]
    · rw [Function.update_of_ne hpn]
      by_cases hqm : q = m
      · subst hqm
        simp [hpn, hiff]
      · simp [hqm, hiff]
  nodup := by
    intro q hq
    split
    · rw [nodup_append]
      refine ⟨h.nodup q hq, nodup_singleton n, fun a ha b hb hab => ?_⟩
      rw [mem_singleton.mp hb] at hab
      have hq' := (h.agree q hq n hn).mp (hab ▸ ha)
      rw [hnone] at hq'
      cases hq'
    · exact h.nodup q hq

/-- The nodes below `n` have no node above them any more. -/
theorem detach (h : TwoWay nodes below above) {n : α} (hn : n ∈ nodes) :
    TwoWay nodes (fun q => if q = n then [] else below q)
      (fun s => if s ∈ below n then none else above s) where
  above_mem := by
    intro p hp m hm
    split at hm
    · cases hm
    · exact h.above_mem p hp m hm
  below_mem := by
    intro m hm p hp
    split at hp
    · exact absurd hp not_mem_nil
    · exact h.below_mem m hm p hp
  agree := by
    intro m hm p hp
    have hiff := h.agree m hm p hp
    have hiffn := h.agree n hn p hp
    by_cases hmn : m = n
    · subst hmn
      by_cases hpm : p ∈ below m
      · simp [hpm]
      · simp [hpm, ← hiff]
    · by_cases hpn : p ∈ below n
      · have hnot : p ∉ below m := by
          rw [hiff, hiffn.mp hpn]
          exact fun heq => hmn (Option.some.inj heq).symm
        simp [hmn, hpn, hnot]
      · simp [hmn, hpn, hiff]
  nodup := by
    intro m hm
    split
    · exact nodup_nil
    · exact h.nodup m hm

theorem erase (h : TwoWay nodes below above) {n : α} (hn : n ∈ nodes)
    (hbelow : below n = []) (habove : above n = none) : TwoWay (nodes.erase n) below above where
  above_mem := by
    intro p hp m hm
    have hp' := mem_of_mem_erase hp
    refine (mem_erase_of_ne ?_).mpr (h.above_mem p hp' m hm)
    rintro rfl
    have hmem := (h.agree m hn p hp').mpr hm
    rw [hbelow] at hmem
    exact absurd hmem not_mem_nil
  below_mem := by
    intro m hm p hp
    have hm' := mem_of_mem_erase hm
    have hp' := h.below_mem m hm' p hp
    refine (mem_erase_of_ne ?_).mpr hp'
    rintro rfl
    have heq := (h.agree m hm' p hp').mp hp
    rw [habove] at heq
    cases heq
  agree := fun m hm p hp => h.agree m (mem_of_mem_erase hm) p (mem_of_mem_erase hp)
  nodup := fun m hm => h.nodup m (mem_of_mem_erase hm)

omit [DecidableEq α] in
theorem add (h : TwoWay nodes below above) {n : α} (hn : n ∉ nodes) (hbelow : below n = [])
    (habove : above n = none) : TwoWay (nodes ++ [n]) below above where
  above_mem := by
    intro p hp m hm
    rcases mem_append.mp hp with hp | hp
    · exact mem_append_left _ (h.above_mem p hp m hm)
    · rw [mem_singleton.mp hp, habove] at hm
      cases hm
  below_mem := by
    intro m hm p hp
    rcases mem_append.mp hm with hm | hm
    · exact mem_append_left _ (h.below_mem m hm p hp)
    · rw [mem_singleton.mp hm, hbelow] at hp
      exact absurd hp not_mem_nil
  agree := by
    intro m hm p hp
    rcases mem_append.mp hm with hm | hm
    · rcases mem_append.mp hp with hp | hp
      · exact h.agree m hm p hp
      · rw [mem_singleton.mp hp, habove]
        exact ⟨fun hmem => absurd (h.below_mem m hm n hmem) hn, fun heq => by cases heq⟩
    · rw [mem_singleton.mp hm, hbelow]
      refine ⟨fun hmem => absurd hmem not_mem_nil, fun heq => ?_⟩
      rcases mem_append.mp hp with hp | hp
      · exact absurd (h.above_mem p hp n heq) hn
      · rw [mem_singleton.mp hp, habove] at heq
        cases heq
  nodup := by
    intro m hm
    rcases mem_append.mp hm with hm | hm
    · exact h.nodup m hm
    · rw [mem_singleton.mp hm, hbelow]
      exact nodup_nil

end TwoWay

end Redis
