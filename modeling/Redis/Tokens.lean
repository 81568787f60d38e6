import Mathlib.Data.Multiset.AddSub

/-!
# Redis.Tokens

Tokens that are moved between places: each token is at one place, once.

Tokens are numbered in the order in which they are made.  A state is a multiset of tokens for
each place.
-/

namespace Redis

variable {Place : Type} [DecidableEq Place] {places : Place → Multiset Nat} {n : Nat}

/-- The tokens below `n` are at one place each, and there are no others. -/
structure Distributed (places : Place → Multiset Nat) (n : Nat) : Prop where
  once : ∀ t < n, ∃ p, ∀ q, (places q).count t = if q = p then 1 else 0
  lt : ∀ p, ∀ t ∈ places p, t < n

namespace Distributed

theorem empty : Distributed (fun _ : Place => 0) 0 :=
  ⟨fun t ht => absurd ht t.not_lt_zero, fun _ t ht => absurd ht (Multiset.notMem_zero t)⟩

theorem count_eq_zero (h : Distributed places n) {p q : Place} (hne : q ≠ p) {t : Nat}
    (ht : t ∈ places p) : (places q).count t = 0 := by
  obtain ⟨r, hr⟩ := h.once t (h.lt p t ht)
  have hp : p = r := by
    by_contra hpr
    have hcount := Multiset.count_pos.mpr ht
    rw [hr, if_neg hpr] at hcount
    exact Nat.lt_irrefl 0 hcount
  rw [hr, if_neg fun hq => hne (hq.trans hp.symm)]

theorem move (h : Distributed places n) {p q : Place} (hne : p ≠ q) {a s : Multiset Nat}
    (hp : places p = a + s) :
    Distributed (Function.update (Function.update places p a) q (places q + s)) n := by
  have hcount (t : Nat) : (places p).count t = a.count t + s.count t := by
    rw [hp, Multiset.count_add]
  constructor
  · intro t ht
    obtain ⟨r, hr⟩ := h.once t ht
    by_cases hs : s.count t = 0
    · refine ⟨r, fun u => ?_⟩
      rw [← hr u]
      by_cases huq : u = q
      · simp [huq, hs]
      · by_cases hup : u = p
        · subst hup
          simp [hne, hcount, hs]
        · simp [huq, hup]
    · -- the token is one of those that go
      have hpr : p = r := by
        by_contra hpr
        have := hcount t
        rw [hr, if_neg hpr] at this
        omega
      subst hpr
      have hone := hcount t
      rw [hr, if_pos rfl] at hone
      refine ⟨q, fun u => ?_⟩
      by_cases huq : u = q
      · subst huq
        have hzero : (places u).count t = 0 := by rw [hr, if_neg (Ne.symm hne)]
        simp only [Function.update_self, Multiset.count_add, if_true]
        omega
      · by_cases hup : u = p
        · subst hup
          simp only [Function.update_of_ne hne, Function.update_self, if_neg huq]
          omega
        · simp [huq, hup, hr]
  · intro u t ht
    by_cases huq : u = q
    · subst huq
      rw [Function.update_self, Multiset.mem_add] at ht
      rcases ht with ht | ht
      · exact h.lt u t ht
      · exact h.lt p t (hp ▸ Multiset.mem_add.mpr (.inr ht))
    · rw [Function.update_of_ne huq] at ht
      by_cases hup : u = p
      · subst hup
        rw [Function.update_self] at ht
        exact h.lt u t (hp ▸ Multiset.mem_add.mpr (.inl ht))
      · rw [Function.update_of_ne hup] at ht
        exact h.lt u t ht

/-- A new token is put at `p`. -/
theorem add (h : Distributed places n) (p : Place) :
    Distributed (Function.update places p (places p + {n})) (n + 1) := by
  have hnew (q : Place) : (places q).count n = 0 :=
    Multiset.count_eq_zero.mpr fun hn => Nat.lt_irrefl n (h.lt q n hn)
  constructor
  · intro t ht
    by_cases htn : t = n
    · subst htn
      refine ⟨p, fun u => ?_⟩
      by_cases hup : u = p
      · subst hup
        simp [hnew]
      · simp [hup, hnew]
    · obtain ⟨r, hr⟩ := h.once t (by omega)
      refine ⟨r, fun u => ?_⟩
      rw [← hr u]
      by_cases hup : u = p
      · subst hup
        simp [htn]
      · simp [hup]
  · intro u t ht
    by_cases hup : u = p
    · subst hup
      rw [Function.update_self, Multiset.mem_add, Multiset.mem_singleton] at ht
      rcases ht with ht | rfl
      · exact Nat.lt_succ_of_lt (h.lt u t ht)
      · exact Nat.lt_succ_self t
    · rw [Function.update_of_ne hup] at ht
      exact Nat.lt_succ_of_lt (h.lt u t ht)

end Distributed

end Redis
