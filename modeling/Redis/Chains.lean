import Mathlib.Data.List.Basic
import Mathlib.Data.List.Pairwise
import Mathlib.Data.List.Perm.Basic

/-!
# Redis.Chains

Lists of chains, as a bucketed container holds them: what replacing one
chain does to the entries of the whole container, and what searching a
duplicate-free container returns.

Nothing here depends on how a container picks the chain of an entry.
-/

namespace Redis.Chains

open scoped List

/-! ## Replacing one chain -/

variable {L : List (List α)} {a : α} {c : List α} {i : Nat}

theorem flatten_set_perm (c' : List α) (h : L[i]? = some c) :
    ((L.set i c').flatten ++ c).Perm (L.flatten ++ c') := by
  induction L generalizing i with
  | nil => simp at h
  | cons x xs ih =>
    cases i with
    | zero =>
      simp only [List.getElem?_cons_zero, Option.some.injEq] at h
      subst h
      simp only [List.set_cons_zero, List.flatten_cons, List.append_assoc]
      calc c' ++ (xs.flatten ++ x)
          _ ~ (xs.flatten ++ x) ++ c' := List.perm_append_comm
          _ ~ (x ++ xs.flatten) ++ c' := List.perm_append_comm.append_right c'
          _ = x ++ (xs.flatten ++ c') := List.append_assoc _ _ _
    | succ i =>
      simp only [List.getElem?_cons_succ] at h
      simp only [List.set_cons_succ, List.flatten_cons, List.append_assoc]
      exact (ih h).append_left x

theorem flatten_set_cons_perm (a : α) (h : L[i]? = some c) :
    (L.set i (a :: c)).flatten.Perm (a :: L.flatten) := by
  have hp := flatten_set_perm (a :: c) h
  have hq : (L.flatten ++ a :: c).Perm ((a :: L.flatten) ++ c) := List.perm_middle
  exact (List.perm_append_right_iff c).mp (hp.trans hq)

theorem flatten_set_nil_perm (h : L[i]? = some c) : (c ++ (L.set i []).flatten).Perm L.flatten := by
  have hp := flatten_set_perm [] h
  rw [List.append_nil] at hp
  exact List.perm_append_comm.trans hp

/-- Erasing one position of a chain removes the entry that stood there. -/
theorem flatten_set_eraseIdx_perm {pos : Nat} {l : List α} (h : L[i]? = some l)
    (ha : l[pos]? = some a) : (a :: (L.set i (l.eraseIdx pos)).flatten).Perm L.flatten := by
  have hlt : pos < l.length := by
    by_contra hge
    rw [List.getElem?_eq_none (by omega)] at ha
    contradiction
  have hc : l.Perm (a :: l.eraseIdx pos) := by
    rw [List.getElem?_eq_getElem hlt, Option.some.injEq] at ha
    rw [← ha]
    exact (List.getElem_cons_eraseIdx_perm hlt).symm
  have hp := flatten_set_perm (l.eraseIdx pos) h
  have hq : ((a :: (L.set i (l.eraseIdx pos)).flatten) ++ l.eraseIdx pos).Perm
      ((L.set i (l.eraseIdx pos)).flatten ++ l) := by
    have hmid : (((L.set i (l.eraseIdx pos)).flatten) ++ a :: l.eraseIdx pos).Perm
        ((a :: (L.set i (l.eraseIdx pos)).flatten) ++ l.eraseIdx pos) := List.perm_middle
    exact hmid.symm.trans ((hc.append_left _).symm)
  exact (List.perm_append_right_iff _).mp (hq.trans hp)

/-- Overwriting one position of a chain exchanges the entry there. -/
theorem flatten_set_set_perm {pos : Nat} {l : List α} (b : α) (h : L[i]? = some l)
    (ha : l[pos]? = some a) : (a :: (L.set i (l.set pos b)).flatten).Perm (b :: L.flatten) := by
  have hlt : pos < l.length := by
    by_contra hge
    rw [List.getElem?_eq_none (by omega)] at ha
    contradiction
  have hc : l.Perm (a :: l.eraseIdx pos) := by
    rw [List.getElem?_eq_getElem hlt, Option.some.injEq] at ha
    rw [← ha]
    exact (List.getElem_cons_eraseIdx_perm hlt).symm
  have hcb : (l.set pos b).Perm (b :: l.eraseIdx pos) := List.set_perm_cons_eraseIdx hlt b
  have hp := flatten_set_perm (l.set pos b) h
  have hq : ((L.set i (l.set pos b)).flatten ++ l).Perm
      ((a :: (L.set i (l.set pos b)).flatten) ++ l.eraseIdx pos) :=
    (hc.append_left _).trans List.perm_middle
  have hr : (L.flatten ++ l.set pos b).Perm ((b :: L.flatten) ++ l.eraseIdx pos) :=
    (hcb.append_left _).trans List.perm_middle
  exact (List.perm_append_right_iff _).mp (hq.symm.trans (hp.trans hr))

/-- An entry of the container lies in one of its chains. -/
theorem exists_chain_of_mem_flatten (h : a ∈ L.flatten) :
    ∃ (i : Nat) (c : List α), L[i]? = some c ∧ a ∈ c := by
  obtain ⟨c, hc, ha⟩ := List.mem_flatten.mp h
  obtain ⟨i, hi, rfl⟩ := List.mem_iff_getElem.mp hc
  exact ⟨i, _, List.getElem?_eq_getElem hi, ha⟩

theorem mem_flatten_of_getElem? (h : L[i]? = some c) (ha : a ∈ c) : a ∈ L.flatten :=
  List.mem_flatten.mpr ⟨c, List.mem_of_getElem? h, ha⟩

/-- A container all of whose chains up to `n` are empty has its entries beyond. -/
theorem exists_nonempty_ge {n : Nat} (hlow : ∀ i < n, ∀ c, L[i]? = some c → c = [])
    (h : L.flatten ≠ []) : ∃ (i : Nat) (c : List α), n ≤ i ∧ L[i]? = some c ∧ c ≠ [] := by
  obtain ⟨a, ha⟩ := List.exists_mem_of_ne_nil _ h
  obtain ⟨i, c, hc, hac⟩ := exists_chain_of_mem_flatten ha
  have hne : c ≠ [] := List.ne_nil_of_mem hac
  refine ⟨i, c, ?_, hc, hne⟩
  by_contra hlt
  exact hne (hlow i (by omega) c hc)

/-! ## Searching a container without duplicates -/

section Search

variable {α : Type} {r : α → α → Prop} {p : α → Bool}

/-- At most one entry satisfies `p` when entries satisfying it are related and
no two entries are: the search result does not depend on the order. -/
theorem find?_eq_of_perm {l l' : List α} (hperm : l.Perm l')
    (hone : ∀ a ∈ l, ∀ b ∈ l, p a = true → p b = true → a = b) :
    l.find? p = l'.find? p := by
  cases h : l'.find? p with
  | none =>
    rw [List.find?_eq_none] at h ⊢
    intro x hx
    exact h x (hperm.mem_iff.mp hx)
  | some b =>
    have hb := hperm.mem_iff.mpr (List.mem_of_find?_eq_some h)
    have hpb := List.find?_some h
    cases ha : l.find? p with
    | none =>
      rw [List.find?_eq_none] at ha
      exact absurd hpb (ha b hb)
    | some a =>
      exact congrArg some
        (hone a (List.mem_of_find?_eq_some ha) b hb (List.find?_some ha) hpb)

end Search

end Redis.Chains
