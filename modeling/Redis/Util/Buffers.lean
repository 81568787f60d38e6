import Mathlib.Data.Nat.Log
import Redis.Util

/-!
# Redis.Util.Buffers

`ll2string` of `util.c` and `sdsll2str` of `sds.c` in the buffers of their callers.  The first
computes the length before it writes the digits from the last one on, two at a time; the second
writes them in the wrong order and reverses them.  A write outside the buffer is `none`.
-/

namespace Redis

open Bytes List Nat Int64 UInt8

variable {s a c : Bytes} {n p : Nat}

/-! ## Canonical decimals -/

/-- The canonical decimal form of an integer. -/
def canonical (v : Int) : Bytes :=
  if v < 0 then 45 :: decimal v.natAbs else decimal v.natAbs

/-- The digits of a positive number: no leading zero, and every such string is one. -/
theorem decimal_pos_iff :
    (∃ n, 0 < n ∧ decimal n = s) ↔
      ∃ d ds, s = d :: ds ∧ 49 ≤ d ∧ d ≤ 57 ∧ ∀ b ∈ ds, 48 ≤ b ∧ b ≤ 57 := by
  constructor
  · rintro ⟨n, hn, rfl⟩
    induction n using Nat.strongRecOn with
    | ind n ih =>
      by_cases hlt : n < 10
      · have hnat := digitChar_toNat hlt
        refine ⟨digitChar n, [], decimal_of_lt hlt, ?_, ?_, by simp⟩
        · rw [le_iff_toNat_le, hnat]
          simp only [reduceToNat]
          omega
        · rw [le_iff_toNat_le, hnat]
          simp only [reduceToNat]
          omega
      · obtain ⟨d, ds, hdec, hlo, hhi, hds⟩ := ih (n / 10) (by omega) (by omega)
        have hsplit : n = n / 10 * 10 + n % 10 := by omega
        have hnat := digitChar_toNat (show n % 10 < 10 by omega)
        refine ⟨d, ds ++ [digitChar (n % 10)], ?_, hlo, hhi, ?_⟩
        · rw [← cons_append, ← hdec, ← decimal_append (by omega) (by omega), ← hsplit]
        · intro b hb
          rcases mem_append.mp hb with hb | hb
          · exact hds b hb
          · rw [mem_singleton.mp hb, le_iff_toNat_le, le_iff_toNat_le, hnat]
            simp only [reduceToNat]
            omega
  · rintro ⟨d, ds, rfl, hlo, hhi, hds⟩
    -- one digit after the other, as they are read
    have hread (n : Nat) (hn : 0 < n) : ∃ m, 0 < m ∧ decimal m = decimal n ++ ds := by
      clear hlo hhi d
      induction ds generalizing n with
      | nil => exact ⟨n, hn, by simp⟩
      | cons b ds ih =>
        obtain ⟨hb, hb'⟩ := hds b mem_cons_self
        have hle : b.toNat ≤ 57 := by simpa [le_iff_toNat_le] using hb'
        obtain ⟨m, hm, hdec⟩ := ih (fun b hb => hds b (mem_cons_of_mem _ hb))
          (n * 10 + (b.toNat - 48)) (by omega)
        refine ⟨m, hm, ?_⟩
        rw [hdec, decimal_append hn (by omega), digitChar_sub hb, append_assoc]
        rfl
    have hd : 49 ≤ d.toNat := by simpa [le_iff_toNat_le] using hlo
    have hd' : d.toNat ≤ 57 := by simpa [le_iff_toNat_le] using hhi
    have hd48 : 48 ≤ d := by
      rw [le_iff_toNat_le]
      simp only [reduceToNat]
      omega
    obtain ⟨m, hm, hdec⟩ := hread (d.toNat - 48) (by omega)
    refine ⟨m, hm, ?_⟩
    rw [hdec, decimal_of_lt (by omega), digitChar_sub hd48]
    rfl

/-- A canonical form is a single 0, or a digit that is not 0 and more digits, behind at most one
minus sign. -/
theorem canonical_iff :
    (∃ v, canonical v = s) ↔ s = [48] ∨ ∃ sign d ds, s = sign ++ d :: ds ∧
      (sign = [] ∨ sign = [45]) ∧ 49 ≤ d ∧ d ≤ 57 ∧ ∀ b ∈ ds, 48 ≤ b ∧ b ≤ 57 := by
  constructor
  · rintro ⟨v, rfl⟩
    rw [canonical]
    split
    next hneg =>
      obtain ⟨d, ds, hdec, h⟩ := decimal_pos_iff.mp ⟨v.natAbs, by omega, rfl⟩
      exact .inr ⟨[45], d, ds, by rw [hdec]; rfl, .inr rfl, h⟩
    next hpos =>
      by_cases hzero : v = 0
      · exact .inl (by rw [hzero]; rfl)
      · obtain ⟨d, ds, hdec, h⟩ := decimal_pos_iff.mp ⟨v.natAbs, by omega, rfl⟩
        exact .inr ⟨[], d, ds, hdec, .inl rfl, h⟩
  · rintro (rfl | ⟨sign, d, ds, rfl, hsign, h⟩)
    · exact ⟨0, rfl⟩
    · obtain ⟨n, hn, hdec⟩ := decimal_pos_iff.mpr ⟨d, ds, rfl, h⟩
      rcases hsign with rfl | rfl
      · refine ⟨n, ?_⟩
        rw [canonical, if_neg (by omega), Int.natAbs_natCast, hdec]
        rfl
      · refine ⟨-(n : Int), ?_⟩
        rw [canonical, if_pos (by omega), Int.natAbs_neg, Int.natAbs_natCast, hdec]
        rfl

theorem length_decimal (n : Nat) : (decimal n).length = log 10 n + 1 := by
  rw [decimal]
  split
  next h0 =>
    subst h0
    rfl
  next h0 => rw [length_reverse, length_map, length_digits 10 n (by norm_num) h0]

variable (v : Int64)

theorem length_canonical_le : (canonical v.toInt).length ≤ 20 := by
  have hlog : log 10 v.toInt.natAbs ≤ 18 := by
    have hlt : v.toInt.natAbs < 10 ^ 19 := by
      have := v.le_toInt
      have := v.toInt_lt
      omega
    exact Nat.lt_succ_iff.mp (log_lt_of_lt_pow' (by norm_num) hlt)
  rw [canonical]
  split
  · rw [length_cons, length_decimal]
    omega
  · rw [length_decimal]
    omega

/-! ## digits10 -/

def digits10 (v : Nat) : Nat :=
  if v < 10 then 1
  else if v < 100 then 2
  else if v < 1000 then 3
  else if v < 1000000000000 then
    if v < 100000000 then
      if v < 1000000 then
        if v < 10000 then 4 else 5 + if v ≥ 100000 then 1 else 0
      else 7 + if v ≥ 10000000 then 1 else 0
    else if v < 10000000000 then 9 + if v ≥ 1000000000 then 1 else 0
    else 11 + if v ≥ 100000000000 then 1 else 0
  else 12 + digits10 (v / 1000000000000)

theorem length_decimal_of_pow {k : Nat} (hlo : 10 ^ k ≤ n) (hhi : n < 10 ^ (k + 1)) :
    (decimal n).length = k + 1 := by
  rw [length_decimal, log_eq_of_pow_le_of_lt_pow hlo hhi]

theorem length_decimal_div (n : Nat) (h : 1000000000000 ≤ n) :
    (decimal n).length = 12 + (decimal (n / 1000000000000)).length := by
  have hlog : log 10 n = log 10 (n / 10 ^ 12) + 12 := by
    rw [log_div_base_pow, Nat.sub_add_cancel]
    exact (le_log_iff_pow_le (by norm_num) (by omega)).mpr (by norm_num; exact h)
  rw [length_decimal, length_decimal, hlog]
  norm_num
  omega

theorem digits10_eq (v : Nat) : digits10 v = (decimal v).length := by
  induction v using Nat.strongRecOn with
  | ind v ih =>
    have hlen (k : Nat) (hlo : 10 ^ k ≤ v) (hhi : v < 10 ^ (k + 1)) :
        k + 1 = (decimal v).length := (length_decimal_of_pow hlo hhi).symm
    rw [digits10]
    split_ifs
    · rw [decimal_of_lt (by assumption)]
      rfl
    · exact hlen 1 (by omega) (by omega)
    · exact hlen 2 (by omega) (by omega)
    · exact hlen 3 (by omega) (by omega)
    · exact hlen 5 (by omega) (by omega)
    · exact hlen 4 (by omega) (by omega)
    · exact hlen 7 (by omega) (by omega)
    · exact hlen 6 (by omega) (by omega)
    · exact hlen 9 (by omega) (by omega)
    · exact hlen 8 (by omega) (by omega)
    · exact hlen 11 (by omega) (by omega)
    · exact hlen 10 (by omega) (by omega)
    · rw [ih _ (by omega), length_decimal_div v (by omega)]

/-! ## ll2string -/

/-- The table `digits` of `ll2string`. -/
def digitPairs : Bytes :=
  [0, 0, 0, 1, 0, 2, 0, 3, 0, 4, 0, 5, 0, 6, 0, 7, 0, 8, 0, 9,
    1, 0, 1, 1, 1, 2, 1, 3, 1, 4, 1, 5, 1, 6, 1, 7, 1, 8, 1, 9,
    2, 0, 2, 1, 2, 2, 2, 3, 2, 4, 2, 5, 2, 6, 2, 7, 2, 8, 2, 9,
    3, 0, 3, 1, 3, 2, 3, 3, 3, 4, 3, 5, 3, 6, 3, 7, 3, 8, 3, 9,
    4, 0, 4, 1, 4, 2, 4, 3, 4, 4, 4, 5, 4, 6, 4, 7, 4, 8, 4, 9,
    5, 0, 5, 1, 5, 2, 5, 3, 5, 4, 5, 5, 5, 6, 5, 7, 5, 8, 5, 9,
    6, 0, 6, 1, 6, 2, 6, 3, 6, 4, 6, 5, 6, 6, 6, 7, 6, 8, 6, 9,
    7, 0, 7, 1, 7, 2, 7, 3, 7, 4, 7, 5, 7, 6, 7, 7, 7, 8, 7, 9,
    8, 0, 8, 1, 8, 2, 8, 3, 8, 4, 8, 5, 8, 6, 8, 7, 8, 8, 8, 9,
    9, 0, 9, 1, 9, 2, 9, 3, 9, 4, 9, 5, 9, 6, 9, 7, 9, 8, 9, 9].map digitChar

/-- The writing of `ll2string` from `dst[next]` downwards: two digits in each round of the loop,
and the last one or two. -/
def ll2stringWrite : Nat → Nat → UInt32 → Bytes → Option Bytes
  | 0, _, _, _ => none
  | fuel + 1, value, next, dst =>
    if value ≥ 100 then do
      let i := value % 100 * 2
      let dst ← store dst next.toNat [← digitPairs[i + 1]?]
      let dst ← store dst (next - 1).toNat [← digitPairs[i]?]
      ll2stringWrite fuel (value / 100) (next - 2) dst
    else if value < 10 then store dst next.toNat [digitChar value]
    else do
      let i := value * 2
      let dst ← store dst next.toNat [← digitPairs[i + 1]?]
      store dst (next - 1).toNat [← digitPairs[i]?]

/-- `ll2string` with its buffer: the length, and the buffer that is left. -/
def ll2stringBuf (dst : Bytes) (dstlen : Nat) (svalue : Int64) : Option (Nat × Bytes) := do
  let negative := svalue < 0
  let value :=
    if svalue < 0 then
      if svalue ≠ minValue then (-svalue).toInt.toNat else LLONG_MAX + 1
    else svalue.toInt.toNat
  let length := digits10 value + if negative then 1 else 0
  if length ≥ dstlen then return (0, dst)
  let dst ← store dst length [0]
  let dst ← ll2stringWrite 10 value (UInt32.ofNat length - 1) dst
  let dst ← if negative then store dst 0 [45] else some dst
  return (length, dst)

theorem getElem?_pairs {α : Type} (f g : α → UInt8) (l : List α) (i : Nat) :
    (l.flatMap fun x => [f x, g x])[i * 2]? = l[i]?.map f ∧
      (l.flatMap fun x => [f x, g x])[i * 2 + 1]? = l[i]?.map g := by
  induction l generalizing i with
  | nil => simp
  | cons x l ih =>
    cases i with
    | zero => simp
    | succ i => simpa [succ_mul] using ih i

theorem digitPairs_eq : digitPairs =
    (range 100).flatMap fun i => [digitChar (i / 10), digitChar (i % 10)] := by
  decide +kernel

theorem digitPairs_spec {i : Nat} (h : i < 100) :
    digitPairs[i * 2]? = some (digitChar (i / 10)) ∧
      digitPairs[i * 2 + 1]? = some (digitChar (i % 10)) := by
  have hpairs := getElem?_pairs (fun i => digitChar (i / 10)) (fun i => digitChar (i % 10))
    (range 100) i
  rw [getElem?_range h] at hpairs
  rw [digitPairs_eq]
  exact hpairs

theorem store_one (x d : UInt8) (c : Bytes) (hp : p = a.length) :
    store (a ++ x :: c) p [d] = some (a ++ d :: c) :=
  store_append [d] c (b := [x]) hp rfl

theorem decimal_pair (h : 100 ≤ n) :
    decimal n = decimal (n / 100) ++ [digitChar (n % 100 / 10), digitChar (n % 100 % 10)] := by
  have hsplit : n = (n / 100 * 10 + n % 100 / 10) * 10 + n % 100 % 10 := by omega
  conv_lhs => rw [hsplit]
  rw [decimal_append (by omega) (by omega), decimal_append (by omega) (by omega)]
  simp

/-- A list of two or more elements, with the last two of them apart. -/
theorem exists_last_two {gap : Bytes} (h : gap.length = n + 2) :
    ∃ g x y, gap = g ++ [x, y] ∧ g.length = n := by
  refine ⟨gap.take n, gap[n], gap[n + 1], ?_, by simp [h]⟩
  conv_lhs => rw [← take_append_drop n gap]
  rw [drop_eq_getElem_cons (by omega), drop_eq_getElem_cons (by omega),
    drop_eq_nil_of_le (by omega)]

/-- The digits of `value` fill the gap that ends at `next`. -/
theorem ll2stringWrite_spec {fuel v : Nat} {next : UInt32} {b : Bytes}
    (hfuel : v < 100 ^ fuel) (hpos : 0 < fuel) (hgap : b.length = (decimal v).length)
    (hnext : next.toNat + 1 = a.length + b.length) :
    ll2stringWrite fuel v next (a ++ (b ++ c)) = some (a ++ (decimal v ++ c)) := by
  induction fuel generalizing v next b c with
  | zero => omega
  | succ fuel ih =>
    -- two digits at the end of the b
    have hpair {g : Bytes} {i : Nat} (hi : i < 100)
        (hlen : next.toNat = a.length + g.length + 1) (x y : UInt8) :
        store (a ++ (g ++ [x, y] ++ c)) next.toNat [digitChar (i % 10)] =
            some (a ++ g ++ x :: digitChar (i % 10) :: c) ∧
          store (a ++ g ++ x :: digitChar (i % 10) :: c) (next - 1).toNat [digitChar (i / 10)] =
            some (a ++ (g ++ (digitChar (i / 10) :: digitChar (i % 10) :: c))) := by
      have hprev : (next - 1).toNat = a.length + g.length := by
        rw [UInt32.toNat_sub_of_le _ _ (by rw [UInt32.le_iff_toNat_le, hlen]; simp), hlen]
        simp
      constructor
      · have h := store_one (a := a ++ g ++ [x]) y (digitChar (i % 10)) c
          (p := next.toNat) (by simp [hlen, Nat.add_assoc])
        simpa using h
      · have h := store_one (a := a ++ g) x (digitChar (i / 10)) (digitChar (i % 10) :: c)
          (p := (next - 1).toNat) (by simp [hprev])
        simpa using h
    rw [ll2stringWrite]
    split
    next hbig =>
      rw [decimal_pair hbig, length_append] at hgap
      obtain ⟨g, x, y, rfl, hg⟩ := exists_last_two hgap
      rw [length_append] at hnext
      obtain ⟨hfst, hsnd⟩ := digitPairs_spec (show v % 100 < 100 by omega)
      obtain ⟨h₁, h₂⟩ := hpair (g := g) (show v % 100 < 100 by omega)
        (by simp at hnext; omega) x y
      have hdec := length_pos_of_ne_nil (decimal_ne_nil (v / 100))
      have hsub : (next - 2).toNat + 1 = a.length + g.length := by
        rw [UInt32.toNat_sub_of_le _ _ (by rw [UInt32.le_iff_toNat_le]; simp at hnext ⊢; omega)]
        simp at hnext ⊢
        omega
      have hrest := ih (v := v / 100)
        (c := digitChar (v % 100 / 10) :: digitChar (v % 100 % 10) :: c)
        (by rw [Nat.pow_succ] at hfuel; omega)
        (by
          cases fuel with
          | zero => simp at hfuel; omega
          | succ => omega)
        hg hsub
      simp only [hfst, hsnd, h₁, h₂, some_bind, hrest]
      rw [decimal_pair hbig, append_assoc]
      rfl
    next hsmall =>
      split
      next hlt =>
        rw [decimal_of_lt hlt] at hgap ⊢
        obtain ⟨x, rfl⟩ := length_eq_one_iff.mp hgap
        exact store_one x _ c (by simpa using hnext)
      next hge =>
        rw [decimal_two (by omega) (by omega)] at hgap ⊢
        obtain ⟨g, x, y, rfl, hg⟩ := exists_last_two (n := 0) hgap
        obtain rfl := length_eq_zero_iff.mp hg
        obtain ⟨hfst, hsnd⟩ := digitPairs_spec (show v < 100 by omega)
        obtain ⟨h₁, h₂⟩ := hpair (g := []) (show v < 100 by omega)
          (by simp at hnext; simpa using hnext) x y
        simp only [hfst, hsnd, h₁, h₂, some_bind]
        rfl

theorem int64_neg_iff : v < 0 ↔ v.toInt < 0 := by
  rw [lt_iff_toInt_lt, toInt_zero]

theorem natAbs_toInt :
    (if v < 0 then if v ≠ minValue then (-v).toInt.toNat else LLONG_MAX + 1
      else v.toInt.toNat) = v.toInt.natAbs := by
  have hlo := v.le_toInt
  simp only [int64_neg_iff]
  split
  next hneg =>
    split
    next hmin =>
      have hne : v.toInt ≠ -2 ^ 63 := fun heq => hmin (toInt_inj.mp (by simpa using heq))
      rw [toInt_neg, Int.bmod_eq_of_le (by omega) (by omega)]
      omega
    next hmin =>
      rw [not_not.mp hmin]
      rfl
  next hpos => omega

theorem length_canonical :
    (canonical v.toInt).length = (decimal v.toInt.natAbs).length + if v < 0 then 1 else 0 := by
  simp only [canonical, int64_neg_iff]
  split <;> simp

/-- A buffer around its byte at `n`. -/
theorem exists_around {dst : Bytes} (h : n < dst.length) :
    ∃ a x, dst = a ++ x :: dst.drop (n + 1) ∧ a.length = n := by
  refine ⟨dst.take n, dst[n], ?_, by rw [length_take]; omega⟩
  rw [← drop_eq_getElem_cons, take_append_drop]

/-- `ll2string` writes the canonical form and a 0 byte, if they fit, and nothing if not. -/
theorem ll2stringBuf_eq {dst : Bytes} {dstlen : Nat} (h : dstlen ≤ dst.length) :
    ll2stringBuf dst dstlen v =
      if (canonical v.toInt).length < dstlen then
        some ((canonical v.toInt).length,
          canonical v.toInt ++ 0 :: dst.drop ((canonical v.toInt).length + 1))
      else some (0, dst) := by
  have hlen := length_canonical v
  have hle := length_canonical_le v
  have hpos := length_pos_of_ne_nil (decimal_ne_nil v.toInt.natAbs)
  simp only [ll2stringBuf, natAbs_toInt, digits10_eq, ← hlen]
  by_cases hfit : (canonical v.toInt).length < dstlen
  · have hnext : (UInt32.ofNat (canonical v.toInt).length - 1).toNat + 1 =
        (canonical v.toInt).length := by
      rw [UInt32.toNat_sub_of_le _ _ (by rw [UInt32.le_iff_toNat_le]; simp; omega)]
      simp
      omega
    obtain ⟨a, x, hdst, ha⟩ := exists_around (lt_of_lt_of_le hfit h)
    have hzero : store dst (canonical v.toInt).length [0] =
        some (a ++ 0 :: dst.drop ((canonical v.toInt).length + 1)) := by
      conv_lhs => rw [hdst]
      exact store_one x 0 _ ha.symm
    have hfuel : v.toInt.natAbs < 100 ^ 10 := by
      have := v.le_toInt
      have := v.toInt_lt
      omega
    rw [if_neg (by omega), if_pos hfit]
    by_cases hneg : v < 0
    · -- the digits behind the place of the sign
      cases a with
      | nil => simp at ha; omega
      | cons y gap =>
        rw [if_pos hneg] at hlen
        have hwrite := ll2stringWrite_spec (a := [y]) (b := gap)
          (c := 0 :: dst.drop ((canonical v.toInt).length + 1)) hfuel (by omega)
          (by simp at ha; omega) (by rw [hnext, ← ha]; simp; omega)
        have hcanonical (c : Bytes) :
            45 :: (decimal v.toInt.natAbs ++ c) = canonical v.toInt ++ c := by
          rw [canonical, if_pos ((int64_neg_iff v).mp hneg)]
          rfl
        have hsign := store_one (a := []) (p := 0) y 45
          (decimal v.toInt.natAbs ++ 0 :: dst.drop ((canonical v.toInt).length + 1)) rfl
        simp only [cons_append, nil_append] at hwrite hsign
        simp only [hzero, hneg, some_bind, cons_append, hwrite, hsign, if_true, hcanonical]
        rfl
    · rw [if_neg hneg] at hlen
      have hwrite := ll2stringWrite_spec (a := []) (b := a)
        (c := 0 :: dst.drop ((canonical v.toInt).length + 1)) hfuel (by omega) (by omega)
        (by rw [hnext, ← ha]; simp)
      have hcanonical (c : Bytes) : decimal v.toInt.natAbs ++ c = canonical v.toInt ++ c := by
        rw [canonical, if_neg ((int64_neg_iff v).not.mp hneg)]
      simp only [nil_append] at hwrite
      simp only [hzero, hneg, some_bind, hwrite, if_false, hcanonical]
      rfl
  · rw [if_pos (by omega), if_neg hfit]
    rfl

/-! ## sdsll2str -/

/-- The loop of `sdsll2str` that writes the digits from the last one on, with the pointer behind
them. -/
def sdsll2strDigits : Nat → Bytes → Nat → Nat → Option (Bytes × Nat)
  | 0, _, _, _ => none
  | fuel + 1, buf, p, v => do
    let buf ← store buf p [digitChar (v % 10)]
    if v / 10 = 0 then return (buf, p + 1)
    sdsll2strDigits fuel buf (p + 1) (v / 10)

/-- The loop of `sdsll2str` that reverses the bytes from `s` to `p`. -/
def sdsll2strReverse : Nat → Bytes → Nat → Nat → Option Bytes
  | 0, _, _, _ => none
  | fuel + 1, buf, s, p =>
    if s < p then do
      let aux ← buf[s]?
      let buf ← store buf s [← buf[p]?]
      let buf ← store buf p [aux]
      sdsll2strReverse fuel buf (s + 1) (p - 1)
    else some buf

/-- `sdsll2str` with the buffer `s`. -/
def sdsll2str (s : Bytes) (value : Int64) : Option (Nat × Bytes) := do
  let v := (if value < 0 then -value else value).toUInt64.toNat
  let (buf, p) ← sdsll2strDigits 20 s 0 v
  let (buf, p) ← if value < 0 then (store buf p [45]).map (·, p + 1) else some (buf, p)
  let l := p
  let buf ← store buf p [0]
  let buf ← sdsll2strReverse 21 buf 0 (p - 1)
  return (l, buf)

theorem decimal_split (h : 10 ≤ n) : decimal n = decimal (n / 10) ++ [digitChar (n % 10)] := by
  rw [← decimal_append (by omega) (by omega)]
  congr 1
  omega

theorem sdsll2strDigits_spec {fuel v : Nat} {b : Bytes} (hfuel : v < 10 ^ fuel)
    (hpos : 0 < fuel) (hgap : b.length = (decimal v).length) (hp : p = a.length) :
    sdsll2strDigits fuel (a ++ (b ++ c)) p v =
      some (a ++ ((decimal v).reverse ++ c), p + (decimal v).length) := by
  induction fuel generalizing v p a b with
  | zero => omega
  | succ fuel ih =>
    cases b with
    | nil => exact absurd hgap.symm (by simp [decimal_ne_nil])
    | cons x b =>
      have hstore := store_one (a := a) x (digitChar (v % 10)) (b ++ c) hp
      simp only [sdsll2strDigits, cons_append, hstore, some_bind]
      split
      next hlast =>
        have hlt : v < 10 := by omega
        rw [decimal_of_lt hlt] at hgap ⊢
        obtain rfl : b = [] := by simpa using hgap
        rw [mod_eq_of_lt hlt]
        rfl
      next hmore =>
        have hge : 10 ≤ v := by omega
        rw [decimal_split hge] at hgap ⊢
        have hrest := ih (v := v / 10) (a := a ++ [digitChar (v % 10)]) (b := b)
          (p := p + 1) (by rw [Nat.pow_succ] at hfuel; omega)
          (by
            cases fuel with
            | zero => simp at hfuel; omega
            | succ => omega)
          (by simpa using hgap) (by simp [hp])
        simp only [append_assoc, cons_append, nil_append] at hrest
        rw [hrest]
        simp [Nat.add_assoc, Nat.add_comm 1]

/-- A segment is reversed from both ends. -/
theorem sdsll2strReverse_spec {s : Nat} {m : Bytes} (hfuel : m.length < n)
    (hs : s = a.length) (hp : p + 1 = a.length + m.length) :
    sdsll2strReverse n (a ++ (m ++ c)) s p = some (a ++ (m.reverse ++ c)) := by
  induction n generalizing s p a m c with
  | zero => omega
  | succ n ih =>
    rw [sdsll2strReverse]
    split
    next hlt =>
      obtain ⟨x, rest, rfl⟩ := exists_cons_of_length_pos (show 0 < m.length by omega)
      obtain ⟨mid, y, rfl⟩ : ∃ mid y, rest = mid ++ [y] := by
        have hne : rest ≠ [] := ne_nil_of_length_pos (by simp at hp; omega)
        exact ⟨rest.dropLast, rest.getLast hne, (dropLast_append_getLast hne).symm⟩
      simp only [length_cons, length_append, length_nil] at hfuel hp
      have hx : (a ++ (x :: (mid ++ [y]) ++ c))[s]? = some x :=
        getElem?_append_length x _ hs
      have hy : (a ++ (x :: (mid ++ [y]) ++ c))[p]? = some y := by
        have h := getElem?_append_length (a := a ++ x :: mid) (p := p) y c (by simp; omega)
        simpa using h
      have h₁ : store (a ++ (x :: (mid ++ [y]) ++ c)) s [y] = some (a ++ y :: (mid ++ y :: c)) := by
        have h := store_one (a := a) x y (mid ++ y :: c) hs
        simpa using h
      have h₂ : store (a ++ y :: (mid ++ y :: c)) p [x] = some (a ++ y :: (mid ++ x :: c)) := by
        have h := store_one (a := a ++ y :: mid) (p := p) y x c (by simp; omega)
        simpa using h
      have hrest := ih (s := s + 1) (p := p - 1) (a := a ++ [y]) (m := mid) (c := x :: c)
        (by omega) (by simp [hs]) (by simp; omega)
      simp only [append_assoc, cons_append, nil_append] at hrest
      simp only [hx, hy, h₁, h₂, some_bind, hrest]
      simp
    next hge =>
      have hrev : m.reverse = m := by
        match m, hp with
        | [], _ => rfl
        | [x], _ => rfl
        | x :: y :: m, hp =>
          simp at hp
          omega
      rw [hrev]

theorem toNat_toUInt64 (x : Int64) :
    (x.toUInt64.toNat : Int) = if x.toInt < 0 then x.toInt + 2 ^ 64 else x.toInt := by
  have h := x.toBitVec.toInt_eq_toNat_bmod
  have hlt := x.toUInt64.toNat_lt
  rw [toInt_toBitVec, Int64.toNat_toBitVec, Int.bmod_def] at h
  split at h
  all_goals
    split
    all_goals omega

/-- The absolute value, also of the least integer, whose negation overflows. -/
theorem toNat_neg_or_self : (if v < 0 then -v else v).toUInt64.toNat = v.toInt.natAbs := by
  have hlo := v.le_toInt
  have hhi := v.toInt_lt
  simp only [int64_neg_iff]
  split
  next hneg =>
    have hnat := toNat_toUInt64 (-v)
    by_cases hmin : v.toInt = -2 ^ 63
    · have hv : v = minValue := toInt_inj.mp (by simpa using hmin)
      rw [hv]
      decide
    · rw [toInt_neg, Int.bmod_eq_of_le (by omega) (by omega)] at hnat
      split at hnat
      all_goals omega
  next hpos =>
    have hnat := toNat_toUInt64 v
    rw [if_neg hpos] at hnat
    omega

/-- `sdsll2str` leaves the canonical form and a 0 byte. -/
theorem sdsll2str_eq (h : (canonical v.toInt).length < s.length) :
    sdsll2str s v = some ((canonical v.toInt).length,
      canonical v.toInt ++ 0 :: s.drop ((canonical v.toInt).length + 1)) := by
  have hlen := length_canonical v
  have hle := length_canonical_le v
  have hfuel : v.toInt.natAbs < 10 ^ 20 := by
    have := v.le_toInt
    have := v.toInt_lt
    omega
  obtain ⟨a, x, hs, ha⟩ := exists_around h
  have hpos := length_pos_of_ne_nil (decimal_ne_nil v.toInt.natAbs)
  generalize hrest : s.drop ((canonical v.toInt).length + 1) = rest at hs ⊢
  -- the canonical form in the wrong order, with the 0 byte and then reversed
  have htail {m : Bytes} (hrev : m.reverse = canonical v.toInt) :
      store (m ++ x :: rest) (canonical v.toInt).length [0] = some (m ++ 0 :: rest) ∧
        sdsll2strReverse 21 (m ++ 0 :: rest) 0 ((canonical v.toInt).length - 1) =
          some (canonical v.toInt ++ 0 :: rest) := by
    have hm : m.length = (canonical v.toInt).length := by rw [← hrev, length_reverse]
    refine ⟨store_one x 0 rest hm.symm, ?_⟩
    have h := sdsll2strReverse_spec (n := 21) (s := 0) (a := []) (m := m)
      (p := (canonical v.toInt).length - 1) (c := 0 :: rest) (by omega) rfl (by simp; omega)
    rw [hrev] at h
    exact h
  simp only [sdsll2str, toNat_neg_or_self]
  by_cases hneg : v < 0
  · rw [if_pos hneg] at hlen
    obtain ⟨gap, y, rfl⟩ : ∃ gap y, a = gap ++ [y] := by
      have hne : a ≠ [] := ne_nil_of_length_pos (by omega)
      exact ⟨a.dropLast, a.getLast hne, (dropLast_append_getLast hne).symm⟩
    have hgap : gap.length = (decimal v.toInt.natAbs).length := by
      simp at ha
      omega
    have hdigits := sdsll2strDigits_spec (a := []) (p := 0) (c := y :: x :: rest) hfuel
      (by omega) hgap rfl
    have hsign := store_one (a := (decimal v.toInt.natAbs).reverse) y 45 (x :: rest)
      (p := (decimal v.toInt.natAbs).length) (by simp)
    obtain ⟨hzero, hreverse⟩ := htail (m := (decimal v.toInt.natAbs).reverse ++ [45]) (by
      rw [reverse_append, reverse_reverse, canonical, if_pos ((int64_neg_iff v).mp hneg)]
      rfl)
    simp only [append_assoc, cons_append, nil_append] at hs hzero hreverse
    simp only [nil_append, Nat.zero_add] at hdigits
    simp only [hs, hdigits, hneg, if_true, hsign, some_bind,
      Option.map_some, ← hlen, hzero, hreverse]
    rfl
  · rw [if_neg hneg] at hlen
    have hdigits := sdsll2strDigits_spec (a := []) (b := a) (p := 0) (c := x :: rest) hfuel
      (by omega) (by omega) rfl
    obtain ⟨hzero, hreverse⟩ := htail (m := (decimal v.toInt.natAbs).reverse) (by
      rw [reverse_reverse, canonical, if_neg ((int64_neg_iff v).not.mp hneg)])
    simp only [nil_append, Nat.zero_add] at hdigits
    rw [Nat.add_zero] at hlen
    simp only [hs, hdigits, hneg, if_false, some_bind, ← hlen, hzero, hreverse]
    rfl

/-! ## The conversions -/

theorem ll2string_eq_canonical : ll2string v.toInt = canonical v.toInt := by
  rw [ll2string_eq v.le_toInt v.toInt_lt, canonical]

def sdsLlstrSize : Nat := 21

/-- `ll2string` and `sdsll2str` write the canonical decimal form of every 64-bit integer, which
fits into `SDS_LLSTR_SIZE` bytes, and `string2ll` reads nothing else. -/
theorem integer_string_conversions :
    (∀ (v : Int64) (dst : Bytes) (dstlen : Nat), dstlen ≤ dst.length →
      ll2stringBuf dst dstlen v =
        if (canonical v.toInt).length < dstlen then
          some ((canonical v.toInt).length,
            canonical v.toInt ++ 0 :: dst.drop ((canonical v.toInt).length + 1))
        else some (0, dst)) ∧
    (∀ (v : Int64) (s : Bytes), (canonical v.toInt).length < s.length →
      sdsll2str s v = some ((canonical v.toInt).length,
        canonical v.toInt ++ 0 :: s.drop ((canonical v.toInt).length + 1))) ∧
    (∀ v : Int64, (canonical v.toInt).length < sdsLlstrSize) ∧
    (∀ (s : Bytes) (v : Int),
      string2ll s = some v ↔ ∃ w : Int64, w.toInt = v ∧ s = canonical w.toInt) ∧
    ∀ s : Bytes, (∃ v, canonical v = s) ↔ s = [48] ∨ ∃ sign d ds, s = sign ++ d :: ds ∧
      (sign = [] ∨ sign = [45]) ∧ 49 ≤ d ∧ d ≤ 57 ∧ ∀ b ∈ ds, 48 ≤ b ∧ b ≤ 57 := by
  refine ⟨fun v _ _ h => ll2stringBuf_eq v h, fun v _ h => sdsll2str_eq v h,
    fun v => lt_succ_of_le (length_canonical_le v), fun s v => ?_, fun _ => canonical_iff⟩
  constructor
  · intro h
    obtain ⟨hs, hlo, hhi⟩ := string2ll_spec h
    refine ⟨ofInt v, toInt_ofInt_of_le hlo hhi, ?_⟩
    rw [← ll2string_eq_canonical, toInt_ofInt_of_le hlo hhi, hs]
  · rintro ⟨w, rfl, rfl⟩
    rw [← ll2string_eq_canonical]
    exact string2ll_ll2string w.le_toInt w.toInt_lt

/-- The longest canonical form fills a buffer of `SDS_LLSTR_SIZE` bytes. -/
theorem integer_string_conversions_min :
    (canonical minValue.toInt).length = 20 ∧
      ll2stringBuf (replicate 21 0) 21 minValue =
        some (20, canonical minValue.toInt ++ [0]) ∧
      sdsll2str (replicate 21 0) minValue =
        some (20, canonical minValue.toInt ++ [0]) := by
  have hlen : (canonical minValue.toInt).length = 20 := by
    rw [length_canonical, if_pos (by decide),
      length_decimal_of_pow (k := 18) (by decide) (by decide)]
  obtain ⟨hll, hsds, -⟩ := integer_string_conversions
  refine ⟨hlen, ?_, ?_⟩
  · rw [hll minValue (replicate 21 0) 21 (by rw [length_replicate]), hlen]
    rfl
  · rw [hsds minValue (replicate 21 0) (by rw [hlen, length_replicate]; decide),
      hlen]
    rfl

end Redis
