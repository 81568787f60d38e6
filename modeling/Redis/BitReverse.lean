import Mathlib.Data.List.Nodup
import Mathlib.Data.List.Perm.Subperm
import Mathlib.Data.List.Range
import Mathlib.Data.Nat.Bitwise

/-!
# Redis.BitReverse

Bit vectors ordered by their reversal: the low bits of a vector are the high
bits of its reversal, so the vectors that agree on their `a` low bits form an
interval of the reversed order.
-/

namespace Redis.BitReverse

open List Nat BitVec

variable {w : Nat}
variable {i : Nat} {x y : BitVec w}

theorem testBit_reverse (x : BitVec w) (h : i < w) :
    x.reverse.toNat.testBit i = x.toNat.testBit (w - 1 - i) := by
  rw [testBit_toNat, testBit_toNat, getLsbD_reverse, getMsbD_eq_getLsbD]
  simp [h]

theorem testBit_toNat_of_le (x : BitVec w) (h : w ≤ i) : x.toNat.testBit i = false := by
  rw [testBit_toNat]
  exact getLsbD_of_ge x i h

/-- The first difference, counted from the low bits, decides the reversed order. -/
theorem reverse_lt_of_first_diff {p : Nat} (hp : p < w)
    (hlow : ∀ j < p, x.toNat.testBit j = y.toNat.testBit j) (hx : x.toNat.testBit p = false)
    (hy : y.toNat.testBit p = true) : x.reverse.toNat < y.reverse.toNat := by
  refine lt_of_testBit (w - 1 - p) ?_ ?_ ?_
  · rw [testBit_reverse x (by omega), show w - 1 - (w - 1 - p) = p by omega, hx]
  · rw [testBit_reverse y (by omega), show w - 1 - (w - 1 - p) = p by omega, hy]
  · intro j hj
    by_cases hjw : j < w
    · rw [testBit_reverse x hjw, testBit_reverse y hjw]
      exact hlow _ (by omega)
    · rw [testBit_toNat_of_le _ (by omega), testBit_toNat_of_le _ (by omega)]

/-- In the reversed order, staying at or above a vector that shares its low
`a` bits means keeping the run of ones that follows them. -/
theorem ones_of_reverse_le {a k : Nat} (hk : k ≤ w) (hle : y.reverse.toNat ≤ x.reverse.toNat)
    (hlow : ∀ j < a, x.toNat.testBit j = y.toNat.testBit j)
    (hones : ∀ j, a ≤ j → j < k → y.toNat.testBit j = true) :
    ∀ j, a ≤ j → j < k → x.toNat.testBit j = true := by
  intro j
  induction j using Nat.strong_induction_on with
  | _ j ih =>
    intro haj hjk
    by_contra hne
    have hagree : ∀ i < j, x.toNat.testBit i = y.toNat.testBit i := by
      intro i hij
      by_cases hia : i < a
      · exact hlow i hia
      · rw [ih i hij (by omega) (by omega), hones i (by omega) (by omega)]
    have := reverse_lt_of_first_diff (by omega) hagree (by simpa using hne) (hones j haj hjk)
    omega

/-- Agreeing on the low `a` bits is agreeing on the high `a` bits of the
reversals. -/
theorem reverse_div_eq_of_mod_eq {a : Nat} (ha : a ≤ w) (h : x.toNat % 2 ^ a = y.toNat % 2 ^ a) :
    x.reverse.toNat / 2 ^ (w - a) = y.reverse.toNat / 2 ^ (w - a) := by
  refine eq_of_testBit_eq fun i => ?_
  rw [testBit_div_two_pow, testBit_div_two_pow]
  by_cases hi : i + (w - a) < w
  · rw [testBit_reverse x hi, testBit_reverse y hi]
    have hbit := congrArg (fun n => n.testBit (w - 1 - (i + (w - a)))) h
    simpa [testBit_mod_two_pow, show w - 1 - (i + (w - a)) < a by omega] using hbit
  · rw [testBit_toNat_of_le _ (by omega), testBit_toNat_of_le _ (by omega)]

theorem mod_eq_of_reverse_div_eq {a : Nat} (ha : a ≤ w)
    (h : x.reverse.toNat / 2 ^ (w - a) = y.reverse.toNat / 2 ^ (w - a)) :
    x.toNat % 2 ^ a = y.toNat % 2 ^ a := by
  refine eq_of_testBit_eq fun i => ?_
  rw [testBit_mod_two_pow, testBit_mod_two_pow]
  by_cases hi : i < a
  · have hbit := congrArg (fun n => n.testBit (a - 1 - i)) h
    rw [testBit_div_two_pow, testBit_div_two_pow, testBit_reverse x (by omega),
      testBit_reverse y (by omega), show w - 1 - (a - 1 - i + (w - a)) = i by omega] at hbit
    rw [hbit]
  · simp [hi]

theorem testBit_lowMask {a : Nat} (ha : a ≤ w) (i : Nat) :
    (BitVec.ofNat w (2 ^ a - 1)).getLsbD i = decide (i < a) := by
  have hlt : 2 ^ a - 1 < 2 ^ w := by
    have := Nat.pow_le_pow_right (n := 2) (by decide) ha
    have := Nat.two_pow_pos a
    omega
  rw [← testBit_toNat, toNat_ofNat, mod_eq_of_lt hlt, testBit_two_pow_sub_one]

/-- Setting all bits above the low `a` moves to the end of the interval. -/
theorem reverse_fill_toNat (x : BitVec w) {a : Nat} (ha : a ≤ w) :
    (x ||| ~~~BitVec.ofNat w (2 ^ a - 1)).reverse.toNat =
      x.reverse.toNat / 2 ^ (w - a) * 2 ^ (w - a) + (2 ^ (w - a) - 1) := by
  refine eq_of_testBit_eq fun i => ?_
  have hpos := Nat.two_pow_pos (w - a)
  rw [Nat.mul_comm, testBit_two_pow_mul_add _ (by omega), testBit_two_pow_sub_one,
    testBit_div_two_pow]
  by_cases hi : i < w
  · rw [testBit_reverse _ hi, testBit_toNat, getLsbD_or, getLsbD_not,
      testBit_lowMask ha]
    by_cases hia : i < w - a
    · simp [hia, show w - 1 - i < w by omega, show ¬ w - 1 - i < a by omega]
    · rw [if_neg hia, show i - (w - a) + (w - a) = i by omega, testBit_reverse x hi,
        testBit_toNat]
      simp [show w - 1 - i < a by omega]
  · rw [testBit_toNat_of_le _ (by omega)]
    by_cases hia : i < w - a
    · omega
    · rw [if_neg hia, show i - (w - a) + (w - a) = i by omega, testBit_toNat_of_le _ (by omega)]

/-- **The reversed successor.**  Fill the bits above the low `a`, reverse,
increment, reverse: in the reversed order this is the start of the next
interval, wrapping to zero after the last one. -/
theorem reverse_succ_toNat (x : BitVec w) {a : Nat} (ha : a ≤ w) :
    ((x ||| ~~~BitVec.ofNat w (2 ^ a - 1)).reverse + 1).reverse.reverse.toNat =
      (x.reverse.toNat / 2 ^ (w - a) + 1) * 2 ^ (w - a) % 2 ^ w := by
  have hpos := Nat.two_pow_pos (w - a)
  rw [reverse_reverse_eq, toNat_add, reverse_fill_toNat x ha, Nat.add_mul, Nat.one_mul]
  have hone : (1 : BitVec w).toNat = 1 % 2 ^ w := toNat_ofNat 1 w
  rw [hone, add_mod_mod]
  congr 1
  omega

/-- A vector beyond the interval of `x` in the reversed order is at or beyond
the reversed successor, which then does not wrap. -/
theorem reverse_succ_le {a : Nat} (ha : a ≤ w) (hle : x.reverse.toNat ≤ y.reverse.toNat)
    (hne : y.toNat % 2 ^ a ≠ x.toNat % 2 ^ a) :
    ((x ||| ~~~BitVec.ofNat w (2 ^ a - 1)).reverse + 1).reverse ≠ 0 ∧
      ((x ||| ~~~BitVec.ofNat w (2 ^ a - 1)).reverse + 1).reverse.reverse.toNat ≤
        y.reverse.toNat := by
  have hpos := Nat.two_pow_pos (w - a)
  have hdiv : x.reverse.toNat / 2 ^ (w - a) < y.reverse.toNat / 2 ^ (w - a) := by
    have hle' := Nat.div_le_div_right (c := 2 ^ (w - a)) hle
    have hne' : x.reverse.toNat / 2 ^ (w - a) ≠ y.reverse.toNat / 2 ^ (w - a) :=
      fun h => hne (mod_eq_of_reverse_div_eq ha h).symm
    omega
  have hmul : (x.reverse.toNat / 2 ^ (w - a) + 1) * 2 ^ (w - a) ≤ y.reverse.toNat :=
    (Nat.le_div_iff_mul_le hpos).mp hdiv
  have hlt := y.reverse.isLt
  have hsucc := reverse_succ_toNat x ha
  rw [mod_eq_of_lt (by omega)] at hsucc
  refine ⟨?_, by rw [hsucc]; exact hmul⟩
  intro hz
  rw [hz] at hsucc
  have hzero : (0 : BitVec w).reverse = 0 := reverse_eq_zero_iff.mpr rfl
  rw [hzero, ofNat_eq_ofNat, toNat_ofNat, zero_mod] at hsucc
  have : 0 < (x.reverse.toNat / 2 ^ (w - a) + 1) * 2 ^ (w - a) :=
    Nat.mul_pos (succ_pos _) hpos
  omega

/-! ## The vectors of `a` low bits, in the reversed order -/

def nth (w a k : Nat) : BitVec w := (BitVec.ofNat w (k * 2 ^ (w - a))).reverse

section Nth

variable {a k : Nat}

theorem mul_two_pow_lt (ha : a ≤ w) (hk : k < 2 ^ a) : k * 2 ^ (w - a) < 2 ^ w := by
  have hmul := (Nat.mul_lt_mul_right (Nat.two_pow_pos (w - a))).mpr hk
  rwa [← Nat.pow_add, Nat.add_sub_cancel' ha] at hmul

theorem toNat_reverse_nth (ha : a ≤ w) (hk : k < 2 ^ a) :
    (nth w a k).reverse.toNat = k * 2 ^ (w - a) := by
  rw [nth, reverse_reverse_eq, toNat_ofNat, mod_eq_of_lt (mul_two_pow_lt ha hk)]

theorem nth_zero (w a : Nat) : nth w a 0 = 0 := by
  rw [nth, Nat.zero_mul]
  exact reverse_eq_zero_iff.mpr rfl

theorem toNat_nth_lt (w a k : Nat) : (nth w a k).toNat < 2 ^ a := by
  refine lt_pow_two_of_testBit _ fun i hi => ?_
  by_cases hw : i < w
  · rw [nth, testBit_reverse _ hw, toNat_ofNat, testBit_mod_two_pow,
      testBit_mul_two_pow]
    simp
    omega
  · exact testBit_toNat_of_le _ (Nat.not_lt.mp hw)

/-- The reversed successor of each is the next one. -/
theorem reverse_succ_nth (ha : a ≤ w) (hk : k < 2 ^ a)
    (hx : x.toNat % 2 ^ a = (nth w a k).toNat % 2 ^ a) :
    ((x ||| ~~~BitVec.ofNat w (2 ^ a - 1)).reverse + 1).reverse = nth w a (k + 1) := by
  have hdiv : x.reverse.toNat / 2 ^ (w - a) = k := by
    rw [reverse_div_eq_of_mod_eq ha hx, toNat_reverse_nth ha hk,
      Nat.mul_div_cancel _ (Nat.two_pow_pos _)]
  have hsucc := reverse_succ_toNat x ha
  rw [hdiv] at hsucc
  rw [nth, reverse_reverse_eq] at *
  congr 1
  refine eq_of_toNat_eq ?_
  rw [hsucc, toNat_ofNat]

/-- After the last one comes zero again. -/
theorem nth_two_pow (ha : a ≤ w) : nth w a (2 ^ a) = 0 := by
  have hzero : BitVec.ofNat w (2 ^ w) = 0 :=
    eq_of_toNat_eq (by rw [toNat_ofNat, mod_self]; rfl)
  rw [nth, ← Nat.pow_add, Nat.add_sub_cancel' ha, hzero]
  exact reverse_eq_zero_iff.mpr rfl

theorem nth_injective (ha : a ≤ w) {j : Nat} (hi : i < 2 ^ a) (hj : j < 2 ^ a)
    (h : nth w a i = nth w a j) : i = j := by
  have hnat := congrArg (fun x => x.reverse.toNat) h
  simp only [toNat_reverse_nth ha hi, toNat_reverse_nth ha hj] at hnat
  exact eq_of_mul_eq_mul_right (Nat.two_pow_pos _) hnat

/-- Each number of `a` bits is reached once. -/
theorem map_nth_perm (ha : a ≤ w) :
    ((range (2 ^ a)).map fun k => (nth w a k).toNat).Perm (range (2 ^ a)) := by
  have hnodup : ((range (2 ^ a)).map fun k => (nth w a k).toNat).Nodup := by
    refine Nodup.map_on (fun i hi j hj heq => ?_) nodup_range
    exact nth_injective ha (mem_range.mp hi) (mem_range.mp hj) (eq_of_toNat_eq heq)
  refine (subperm_of_subset hnodup fun n hn => ?_).perm_of_length_le (by simp)
  obtain ⟨k, -, rfl⟩ := mem_map.mp hn
  exact mem_range.mpr (toNat_nth_lt w a k)

end Nth

end Redis.BitReverse
