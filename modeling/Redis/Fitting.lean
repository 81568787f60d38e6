import Mathlib

/-!
# Redis.Fitting

The longest prefix of a list whose elements fit into a number of bytes: what is complete in
a file of records that was cut.
-/

namespace Redis

open List

/-- The elements that fit into `n`, from the first on. -/
def fitting (size : α → Nat) : Nat → List α → List α
  | _, [] => []
  | n, x :: xs => if size x ≤ n then x :: fitting size (n - size x) xs else []

section

attribute [local simp] fitting

end

variable {size : α → Nat}

variable {ys : List α} (n : Nat) (xs : List α)

theorem prefix_fitting : fitting size n xs <+: xs := by
  induction xs generalizing n with
  | nil => exact prefix_refl []
  | cons x xs ih =>
    rw [fitting]
    split
    · exact cons_prefix_cons.mpr ⟨rfl, ih _⟩
    · exact nil_prefix

theorem sum_fitting_le : ((fitting size n xs).map size).sum ≤ n := by
  induction xs generalizing n with
  | nil => exact Nat.zero_le n
  | cons x xs ih =>
    rw [fitting]
    split
    · have := ih (n - size x)
      rw [map_cons, sum_cons]
      omega
    · exact Nat.zero_le n

/-- No other prefix that fits is longer. -/
theorem fitting_longest {n : Nat} {xs : List α} (h : ys <+: xs) (hsum : (ys.map size).sum ≤ n) :
    ys <+: fitting size n xs := by
  induction xs generalizing n ys with
  | nil => simpa [fitting] using h
  | cons x xs ih =>
    cases ys with
    | nil => exact nil_prefix
    | cons y ys =>
      obtain ⟨rfl, hys⟩ := cons_prefix_cons.mp h
      rw [map_cons, sum_cons] at hsum
      rw [fitting, if_pos (by omega)]
      exact cons_prefix_cons.mpr ⟨rfl, ih hys (by omega)⟩

theorem fitting_of_sum_le {n : Nat} {xs : List α} (h : (xs.map size).sum ≤ n) :
    fitting size n xs = xs :=
  (prefix_fitting n xs).eq_of_length_le (fitting_longest (prefix_refl xs) h).length_le

theorem fitting_min : fitting size (min n (xs.map size).sum) xs = fitting size n xs := by
  rcases le_total n (xs.map size).sum with h | h
  · rw [min_eq_left h]
  · rw [min_eq_right h, fitting_of_sum_le le_rfl, fitting_of_sum_le h]

theorem fitting_append {n : Nat} {xs : List α} (h : (xs.map size).sum ≤ n) :
    fitting size n (xs ++ ys) = xs ++ fitting size (n - (xs.map size).sum) ys := by
  induction xs generalizing n with
  | nil => rfl
  | cons x xs ih =>
    rw [map_cons, sum_cons] at h ⊢
    rw [cons_append, fitting, if_pos (by omega), ih (by omega), cons_append,
      Nat.sub_sub]

theorem fitting_append_of_lt {n : Nat} {xs : List α} (h : n < (xs.map size).sum) :
    fitting size n (xs ++ ys) = fitting size n xs := by
  induction xs generalizing n with
  | nil => simp at h
  | cons x xs ih =>
    rw [map_cons, sum_cons] at h
    rw [cons_append, fitting, fitting]
    split
    · rw [ih (by omega)]
    · rfl

end Redis
