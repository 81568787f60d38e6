import Mathlib.Data.Nat.Digits.Defs
import Mathlib.Data.Nat.Digits.Lemmas
import Mathlib.Tactic.NormNum
import Mathlib.Tactic.Ring
import Redis.Bytes

/-!
# Redis.Util

The conversions of `util.c` between 64-bit integers and strings.  A string
that `string2ll` reads is the one `ll2string` writes, which is what lets an
integer stand for the string it was parsed from.
-/

namespace Redis

open List Nat UInt8

variable {n : Nat} {v : Int}

def ULLONG_MAX : Nat := 2 ^ 64 - 1

def LLONG_MAX : Nat := 2 ^ 63 - 1

/-! ## Decimal digits -/

/-- The character of a decimal digit. -/
def digitChar (n : Nat) : UInt8 := ofNat (48 + n)

/-- The decimal digits of a number, the first one first. -/
def decimal (n : Nat) : Bytes :=
  if n = 0 then [digitChar 0] else ((digits 10 n).map digitChar).reverse

theorem digitChar_toNat (h : n < 10) : (digitChar n).toNat = 48 + n := by
  rw [digitChar, toNat_ofNat']
  omega

theorem decimal_of_lt (h : n < 10) : decimal n = [digitChar n] := by
  rw [decimal]
  split
  next h0 => rw [h0]
  next h0 => rw [digits_of_lt 10 n h0 h]; rfl

theorem decimal_append {d : Nat} (hn : 0 < n) (hd : d < 10) :
    decimal (n * 10 + d) = decimal n ++ [digitChar d] := by
  have hne : n ≠ 0 := by omega
  have hne' : n * 10 + d ≠ 0 := by omega
  have hdigits : digits 10 (n * 10 + d) = d :: digits 10 n := by
    rw [show n * 10 + d = d + 10 * n by ring]
    exact digits_add 10 (by norm_num) d n hd (.inr hne)
  rw [decimal, decimal, if_neg hne, if_neg hne', hdigits]
  simp

theorem decimal_injective {m : Nat} (h : decimal m = decimal n) : m = n := by
  have hmap : ∀ k : Nat, (decimal k).reverse.map (fun b => b.toNat - 48) =
      if k = 0 then [0] else digits 10 k := by
    intro k
    rw [decimal]
    split
    · rfl
    · rw [reverse_reverse, map_map]
      conv_rhs => rw [← map_id (digits 10 k)]
      apply map_congr_left
      intro d hd
      have hlt := digits_lt_base (by norm_num : 1 < 10) hd
      simp [digitChar_toNat hlt]
  have hval : ∀ k : Nat, ofDigits 10 ((decimal k).reverse.map (fun b => b.toNat - 48)) = k := by
    intro k
    rw [hmap]
    split
    next h0 => simp [h0]
    next => exact ofDigits_digits 10 k
  rw [← hval m, ← hval n, h]

/-- The digits of a number, read back. -/
theorem foldl_decimal (n : Nat) :
    (decimal n).foldl (fun v b => v * 10 + (b.toNat - 48)) 0 = n := by
  induction n using Nat.strong_induction_on with
  | h n ih =>
    by_cases hn : n < 10
    · rw [decimal_of_lt hn]
      simp [digitChar_toNat hn]
    · have hsplit : n = n / 10 * 10 + n % 10 := by omega
      conv_lhs => rw [hsplit]
      rw [decimal_append (by omega) (by omega), foldl_append, ih _ (by omega)]
      simp [digitChar_toNat (show n % 10 < 10 by omega)]
      omega

theorem decimal_ne_nil (n : Nat) : decimal n ≠ [] := by
  rw [decimal]
  split
  next => simp
  next h0 => simp [digits_ne_nil_iff_ne_zero.mpr h0]

theorem mem_decimal {b : UInt8} (h : b ∈ decimal n) : 48 ≤ b.toNat ∧ b.toNat ≤ 57 := by
  rw [decimal] at h
  split at h
  next =>
    rw [mem_singleton] at h
    subst h
    decide
  next =>
    rw [mem_reverse, mem_map] at h
    obtain ⟨d, hd, rfl⟩ := h
    have hlt := digits_lt_base (by norm_num : 1 < 10) hd
    rw [digitChar_toNat hlt]
    omega

/-! ## ll2string -/

/-- The loop of `ll2string` that writes two digits at a time in front of
`dst`, and the last one or two digits behind it. -/
def ll2stringLoop : Nat → Nat → Bytes → Bytes
  | fuel + 1, value, dst =>
    if value ≥ 100 then
      let i := value % 100
      ll2stringLoop fuel (value / 100) (digitChar (i / 10) :: digitChar (i % 10) :: dst)
    else if value < 10 then digitChar value :: dst
    else digitChar (value / 10) :: digitChar (value % 10) :: dst
  | 0, _, dst => dst

/-- `ll2string` into a buffer that is large enough.  A 64-bit value has ten
pairs of digits at most. -/
def ll2string (svalue : Int) : Bytes :=
  if svalue < 0 then 45 :: ll2stringLoop 10 svalue.natAbs []
  else ll2stringLoop 10 svalue.natAbs []

theorem decimal_two (h : 10 ≤ n) (h' : n < 100) :
    decimal n = [digitChar (n / 10), digitChar (n % 10)] := by
  have hsplit : n = n / 10 * 10 + n % 10 := by omega
  conv_lhs => rw [hsplit]
  rw [decimal_append (by omega) (by omega), decimal_of_lt (by omega)]
  rfl

theorem ll2stringLoop_eq {fuel value : Nat} (h : value < 100 ^ fuel) (hf : 0 < fuel)
    (dst : Bytes) : ll2stringLoop fuel value dst = decimal value ++ dst := by
  induction fuel generalizing value dst with
  | zero => omega
  | succ fuel ih =>
    rw [ll2stringLoop]
    split
    next hbig =>
      have hlt : value / 100 < 100 ^ fuel := by
        rw [Nat.pow_succ] at h
        omega
      have hpos : 0 < fuel := by
        cases fuel with
        | zero => simp at h; omega
        | succ => omega
      have hsplit : value = (value / 100 * 10 + value % 100 / 10) * 10 + value % 100 % 10 := by
        omega
      rw [ih hlt hpos]
      conv_rhs => rw [hsplit]
      rw [decimal_append (by omega) (by omega), decimal_append (by omega) (by omega)]
      simp
    next =>
      split
      next hlt => rw [decimal_of_lt hlt]; rfl
      next => rw [decimal_two (by omega) (by omega)]; rfl

theorem ll2string_eq (hlo : -2 ^ 63 ≤ v) (hhi : v < 2 ^ 63) :
    ll2string v = if v < 0 then 45 :: decimal v.natAbs else decimal v.natAbs := by
  have hlt : v.natAbs < 100 ^ 10 := by omega
  rw [ll2string, ll2stringLoop_eq hlt (by omega), append_nil]

theorem ll2string_injective {w : Int} (hv : -2 ^ 63 ≤ v ∧ v < 2 ^ 63)
    (hw : -2 ^ 63 ≤ w ∧ w < 2 ^ 63) (h : ll2string v = ll2string w) : v = w := by
  rw [ll2string_eq hv.1 hv.2, ll2string_eq hw.1 hw.2] at h
  have hminus : ∀ m n : Nat, 45 :: decimal m ≠ decimal n := by
    intro m n heq
    have := mem_decimal (n := n) (b := 45) (by rw [← heq]; simp)
    simp at this
  split at h
  · split at h
    · have := decimal_injective (List.cons.inj h).2
      omega
    · exact absurd h (hminus _ _)
  · split at h
    · exact absurd h.symm (hminus _ _)
    · have := decimal_injective h
      omega

/-! ## string2ll -/

/-- The digit loop of `string2ll`; `none` on overflow or when a byte is left
over. -/
def string2llLoop (v : Nat) : Bytes → Option Nat
  | [] => some v
  | b :: bs =>
    if 48 ≤ b ∧ b ≤ 57 then
      if v > ULLONG_MAX / 10 then none
      else if v * 10 > ULLONG_MAX - (b.toNat - 48) then none
      else string2llLoop (v * 10 + (b.toNat - 48)) bs
    else none

/-- `string2ll` behind the sign. -/
def string2llDigits (negative : Bool) : Bytes → Option Int
  | [] => none
  | b :: bs =>
    if 49 ≤ b ∧ b ≤ 57 then
      match string2llLoop (b.toNat - 48) bs with
      | none => none
      | some v =>
        if negative then
          if v > LLONG_MAX + 1 then none else some (-(v : Int))
        else if v > LLONG_MAX then none else some v
    else none

def string2ll (s : Bytes) : Option Int :=
  if s = [48] then some 0
  else
    match s with
    | [] => none
    | b :: bs => if b = 45 then string2llDigits true bs else string2llDigits false (b :: bs)

theorem digitChar_sub {b : UInt8} (h : 48 ≤ b) : digitChar (b.toNat - 48) = b := by
  have h' : 48 ≤ b.toNat := by simpa [le_iff_toNat_le] using h
  rw [digitChar, Nat.add_sub_cancel' h']
  simp

theorem string2llLoop_decimal {v w : Nat} {bs : Bytes} (hv : 0 < v)
    (h : string2llLoop v bs = some w) : decimal w = decimal v ++ bs := by
  induction bs generalizing v with
  | nil =>
    simp only [string2llLoop, Option.some.injEq] at h
    rw [h, append_nil]
  | cons b bs ih =>
    rw [string2llLoop] at h
    split at h
    next hb =>
      split at h
      · cases h
      split at h
      · cases h
      · have hle : b.toNat ≤ 57 := by simpa [le_iff_toNat_le] using hb.2
        rw [ih (by omega) h, decimal_append hv (by omega), digitChar_sub hb.1]
        simp
    next => cases h

theorem string2llDigits_spec {negative : Bool} {s : Bytes}
    (h : string2llDigits negative s = some v) :
    s = decimal v.natAbs ∧ -2 ^ 63 ≤ v ∧ v < 2 ^ 63 ∧ (v < 0 ↔ negative = true) := by
  cases s with
  | nil => cases h
  | cons b bs =>
    rw [string2llDigits] at h
    split at h
    next hb =>
      have hlo : 49 ≤ b.toNat := by simpa [le_iff_toNat_le] using hb.1
      have hhi : b.toNat ≤ 57 := by simpa [le_iff_toNat_le] using hb.2
      cases hloop : string2llLoop (b.toNat - 48) bs with
      | none => simp [hloop] at h
      | some w =>
        have hb48 : 48 ≤ b := by
          rw [le_iff_toNat_le]
          simp only [reduceToNat]
          omega
        have hdec : decimal w = [b] ++ bs := by
          rw [string2llLoop_decimal (by omega) hloop, decimal_of_lt (by omega : b.toNat - 48 < 10),
            digitChar_sub hb48]
        have hpos : 0 < w := by
          rcases Nat.eq_zero_or_pos w with rfl | hw
          · have hhead := congrArg head? hdec
            rw [decimal_of_lt (by omega : 0 < 10)] at hhead
            simp only [head?_cons, cons_append, nil_append,
              Option.some.injEq] at hhead
            have := congrArg UInt8.toNat hhead
            rw [digitChar_toNat (by omega)] at this
            omega
          · exact hw
        have hmax : LLONG_MAX = 2 ^ 63 - 1 := rfl
        simp only [hloop] at h
        split at h
        next hneg =>
          split at h
          · cases h
          · obtain rfl := Option.some.inj h
            simp only [Int.natAbs_neg, Int.natAbs_natCast, hdec, hneg, iff_true]
            exact ⟨rfl, by omega, by omega, by omega⟩
        next hneg =>
          split at h
          · cases h
          · obtain rfl := Option.some.inj h
            simp only [Int.natAbs_natCast, hdec, hneg]
            exact ⟨rfl, by omega, by omega, by simp⟩
    next => cases h

/-- What `string2ll` reads is a 64-bit integer, and `ll2string` writes the same
bytes. -/
theorem string2ll_spec {s : Bytes} (h : string2ll s = some v) :
    ll2string v = s ∧ -2 ^ 63 ≤ v ∧ v < 2 ^ 63 := by
  unfold string2ll at h
  split at h
  next hs =>
    cases h
    exact ⟨by rw [hs]; rfl, by omega, by omega⟩
  next =>
    cases s with
    | nil => cases h
    | cons b bs =>
      simp only at h
      split at h
      next hb =>
        obtain ⟨hdec, hlo, hhi, hneg⟩ := string2llDigits_spec h
        refine ⟨?_, hlo, hhi⟩
        rw [ll2string_eq hlo hhi, if_pos (hneg.mpr rfl), ← hdec, hb]
      next =>
        obtain ⟨hdec, hlo, hhi, hneg⟩ := string2llDigits_spec h
        refine ⟨?_, hlo, hhi⟩
        rw [ll2string_eq hlo hhi, if_neg (by rw [hneg]; simp), ← hdec]

theorem string2llLoop_append_singleton (v : Nat) (bs : Bytes) (b : UInt8) :
    string2llLoop v (bs ++ [b]) = (string2llLoop v bs).bind (string2llLoop · [b]) := by
  induction bs generalizing v with
  | nil => rfl
  | cons x bs ih =>
    rw [cons_append, string2llLoop, string2llLoop]
    split
    · split
      · rfl
      · split
        · rfl
        · exact ih _
    · rfl

theorem string2llLoop_digit {v d : Nat} (hd : d < 10) (h : v * 10 + d < 2 ^ 64) :
    string2llLoop v [digitChar d] = some (v * 10 + d) := by
  have hnat := digitChar_toNat hd
  have hmax : ULLONG_MAX = 2 ^ 64 - 1 := rfl
  have hdigit : 48 ≤ digitChar d ∧ digitChar d ≤ 57 := by
    simp only [le_iff_toNat_le, hnat, reduceToNat]
    omega
  rw [string2llLoop, if_pos hdigit, if_neg (by omega), if_neg (by omega), hnat, string2llLoop]
  congr 1
  omega

/-- The digits of a positive number: the first one is not 0. -/
theorem string2llLoop_digits (h0 : 0 < n) (h : n < 2 ^ 64) :
    ∃ b bs, decimal n = b :: bs ∧ 49 ≤ b ∧ b ≤ 57 ∧ string2llLoop (b.toNat - 48) bs = some n := by
  induction n using Nat.strongRecOn with
  | ind n ih =>
    by_cases hlt : n < 10
    · have hnat := digitChar_toNat hlt
      refine ⟨digitChar n, [], decimal_of_lt hlt, ?_, ?_, ?_⟩
      · simp only [le_iff_toNat_le, hnat, reduceToNat]
        omega
      · simp only [le_iff_toNat_le, hnat, reduceToNat]
        omega
      · rw [hnat, string2llLoop, Nat.add_sub_cancel_left]
    · obtain ⟨b, bs, hdec, hlo, hhi, hloop⟩ := ih (n / 10) (by omega) (by omega) (by omega)
      have hsplit : n / 10 * 10 + n % 10 = n := by omega
      refine ⟨b, bs ++ [digitChar (n % 10)], ?_, hlo, hhi, ?_⟩
      · rw [← cons_append, ← hdec, ← decimal_append (by omega) (by omega), hsplit]
      · rw [string2llLoop_append_singleton, hloop, Option.bind_some,
          string2llLoop_digit (by omega) (by omega), hsplit]

theorem string2llDigits_decimal (h0 : 0 < n) (h : n < 2 ^ 64) (negative : Bool) :
    string2llDigits negative (decimal n) =
      if negative then if n > LLONG_MAX + 1 then none else some (-(n : Int))
      else if n > LLONG_MAX then none else some n := by
  obtain ⟨b, bs, hdec, hlo, hhi, hloop⟩ := string2llLoop_digits h0 h
  rw [hdec, string2llDigits, if_pos ⟨hlo, hhi⟩, hloop]

theorem string2ll_decimal (h : n < 2 ^ 63) : string2ll (decimal n) = some (n : Int) := by
  obtain rfl | h0 := Nat.eq_zero_or_pos n
  · rfl
  · have hdigits := string2llDigits_decimal h0 (by omega) false
    obtain ⟨b, bs, hdec, hlo, hhi, hloop⟩ := string2llLoop_digits h0 (by omega)
    have hmax : ¬n > LLONG_MAX := by
      rw [LLONG_MAX]
      omega
    have hnot : b :: bs ≠ [48] := by
      rintro heq
      obtain rfl : b = 48 := (List.cons.inj heq).1
      exact absurd hlo (by decide)
    have hminus : b ≠ 45 := by
      rintro rfl
      exact absurd hlo (by decide)
    rw [hdec] at hdigits ⊢
    rw [string2ll, if_neg hnot]
    simp only [if_neg hminus, hdigits, Bool.false_eq_true, if_false, if_neg hmax]

theorem string2ll_ll2string (hlo : -2 ^ 63 ≤ v) (hhi : v < 2 ^ 63) :
    string2ll (ll2string v) = some v := by
  rw [ll2string_eq hlo hhi]
  split
  next hneg =>
    have hdigits := string2llDigits_decimal (by omega : 0 < v.natAbs) (by omega) true
    have hmax : ¬v.natAbs > LLONG_MAX + 1 := by
      rw [LLONG_MAX]
      omega
    have habs : -(v.natAbs : Int) = v := by omega
    have hnot : 45 :: decimal v.natAbs ≠ [48] := fun heq => absurd (List.cons.inj heq).1 (by decide)
    rw [string2ll, if_neg hnot]
    simp only [if_true, hdigits, if_neg hmax, habs]
  next hpos =>
    rw [string2ll_decimal (by omega)]
    congr 1
    omega

end Redis
