import Mathlib.Data.Nat.Bitwise
import Redis.Bytes

/-!
# Redis.Lanes

Words as rows of bytes.  A bitwise operation on two words works on each of their bytes for
itself, and so does a shift whose result is masked such that no bit of another byte is left.
-/

namespace Redis.Lanes

open List Nat

open Bytes (leNat leBytes length_leBytes leNat_lt leNat_injective leNat_leBytes)

/-! ## Two parts of a number -/

section Parts

variable {a b c d k : Nat} {f : Bool → Bool → Bool}

theorem testBit_parts (ha : a < 256) (b i : Nat) :
    (a + 256 * b).testBit i = if i < 8 then a.testBit i else b.testBit (i - 8) := by
  have ha : a < 2 ^ 8 := ha
  rw [Nat.add_comm]
  exact testBit_two_pow_mul_add b ha i

theorem bitwise_parts (hf : f false false = false) (ha : a < 256) (hc : c < 256) :
    bitwise f (a + 256 * b) (c + 256 * d) = bitwise f a c + 256 * bitwise f b d := by
  apply eq_of_testBit_eq
  intro i
  have hlow : bitwise f a c < 256 := bitwise_lt_two_pow (n := 8) ha hc
  rw [testBit_bitwise hf, testBit_parts ha, testBit_parts hc, testBit_parts hlow]
  split
  · rw [testBit_bitwise hf]
  · rw [testBit_bitwise hf]

theorem and_parts (ha : a < 256) (hc : c < 256) :
    (a + 256 * b) &&& (c + 256 * d) = (a &&& c) + 256 * (b &&& d) :=
  bitwise_parts rfl ha hc

/-- A shift, where the mask of the low byte leaves nothing of the rest. -/
theorem shiftRight_and_parts (ha : a < 256) (hk : k ≤ 8) (hc : c < 2 ^ (8 - k)) :
    ((a + 256 * b) >>> k) &&& (c + 256 * d) = ((a >>> k) &&& c) + 256 * ((b >>> k) &&& d) := by
  have hlt : c < 256 :=
    lt_of_lt_of_le hc (Nat.pow_le_pow_right (by decide : 0 < 2) (sub_le 8 k))
  have hlow : a >>> k &&& c < 256 := lt_of_le_of_lt and_le_right hlt
  apply eq_of_testBit_eq
  intro i
  rw [testBit_and, testBit_shiftRight, testBit_parts ha, testBit_parts hlt,
    testBit_parts hlow]
  by_cases hi : i < 8
  · rw [if_pos hi, if_pos hi, testBit_and, testBit_shiftRight]
    by_cases hcross : k + i < 8
    · rw [if_pos hcross]
    · have hnone : c.testBit i = false :=
        testBit_lt_two_pow (lt_of_lt_of_le hc (Nat.pow_le_pow_right (by decide) (by omega)))
      rw [hnone, Bool.and_false, Bool.and_false]
  · rw [if_neg hi, if_neg hi, if_neg (by omega), testBit_and, testBit_shiftRight,
      show k + i - 8 = k + (i - 8) by omega]

end Parts

/-! ## Rows of bytes -/

/-- The bitwise operation on two bytes. -/
def byteOp (f : Bool → Bool → Bool) (x y : UInt8) : UInt8 := UInt8.ofNat (bitwise f x.toNat y.toNat)

theorem toNat_byteOp (f : Bool → Bool → Bool) (x y : UInt8) :
    (byteOp f x y).toNat = bitwise f x.toNat y.toNat := by
  have hlt : bitwise f x.toNat y.toNat < 256 :=
    bitwise_lt_two_pow (n := 8) x.toNat_lt y.toNat_lt
  rw [byteOp, UInt8.toNat_ofNat', mod_eq_of_lt hlt]

/-- A bitwise operation on two rows of the same length. -/
theorem bitwise_leNat {f : Bool → Bool → Bool} (hf : f false false = false) {xs ys : Bytes}
    (hlen : xs.length = ys.length) :
    bitwise f (leNat xs) (leNat ys) = leNat (zipWith (byteOp f) xs ys) := by
  induction xs generalizing ys with
  | nil =>
    obtain rfl := eq_nil_of_length_eq_zero hlen.symm
    rw [zipWith_nil_left, leNat, bitwise_zero_left, ite_self]
  | cons x xs ih =>
    cases ys with
    | nil => simp at hlen
    | cons y ys =>
      rw [zipWith_cons_cons, leNat, leNat, leNat, bitwise_parts hf x.toNat_lt y.toNat_lt,
        ih (by simpa using hlen), toNat_byteOp]

theorem leNat_complement (xs : Bytes) :
    leNat (xs.map (~~~·)) = 256 ^ xs.length - 1 - leNat xs := by
  induction xs with
  | nil => rfl
  | cons x xs ih =>
    have hx := x.toNat_lt
    have hxs := leNat_lt xs
    have hnot : (~~~x).toNat = 255 - x.toNat := by
      rw [UInt8.toNat_not]
      rfl
    rw [map_cons, leNat, leNat, ih, hnot, length_cons, Nat.pow_succ]
    omega

theorem leBytes_leNat (xs : Bytes) : leBytes xs.length (leNat xs) = xs := by
  apply leNat_injective (length_leBytes _ _)
  rw [leNat_leBytes, mod_eq_of_lt (leNat_lt xs)]

/-! ## Rows of words -/

/-- The word of eight bytes. -/
def word (bs : Bytes) : UInt64 := UInt64.ofNat (leNat bs)

theorem toNat_word {bs : Bytes} (h : bs.length = 8) : (word bs).toNat = leNat bs := by
  have hlt := leNat_lt bs
  rw [h] at hlt
  exact UInt64.toNat_ofNat_of_lt' hlt

theorem leBytes_word {bs : Bytes} (h : bs.length = 8) : leBytes 8 (word bs).toNat = bs := by
  have hrow := leBytes_leNat bs
  rwa [h, ← toNat_word h] at hrow

theorem word_zipWith {f : Bool → Bool → Bool} (hf : f false false = false)
    {op : UInt64 → UInt64 → UInt64} (hop : ∀ x y, (op x y).toNat = bitwise f x.toNat y.toNat)
    {opByte : UInt8 → UInt8 → UInt8}
    (hbyte : ∀ x y, (opByte x y).toNat = bitwise f x.toNat y.toNat)
    {xs ys : Bytes} (hxs : xs.length = 8) (hys : ys.length = 8) :
    op (word xs) (word ys) = word (zipWith opByte xs ys) := by
  have hbytes : byteOp f = opByte := by
    funext x y
    apply UInt8.toNat_inj.mp
    rw [toNat_byteOp, hbyte]
  have hlength : (zipWith opByte xs ys).length = 8 := by
    rw [length_zipWith, hxs, hys]
    rfl
  apply UInt64.toNat_inj.mp
  rw [hop, toNat_word hxs, toNat_word hys, toNat_word hlength, ← hbytes]
  exact bitwise_leNat hf (hxs.trans hys.symm)

theorem word_complement {xs : Bytes} (h : xs.length = 8) :
    ~~~(word xs) = word (xs.map (~~~·)) := by
  apply UInt64.toNat_inj.mp
  rw [UInt64.toNat_not, toNat_word h, toNat_word (by rw [length_map, h]), leNat_complement, h]
  rfl

/-- The first words of a row. -/
def words : Nat → Bytes → List UInt64
  | 0, _ => []
  | n + 1, bs => word (bs.take 8) :: words n (bs.drop 8)

section Words

variable {n : Nat} {xs ys : Bytes}

theorem flatMap_words (h : xs.length = 8 * n) :
    (words n xs).flatMap (fun w => leBytes 8 w.toNat) = xs := by
  induction n generalizing xs with
  | zero => exact (eq_nil_of_length_eq_zero h).symm
  | succ n ih =>
    have hhead : (xs.take 8).length = 8 := by
      rw [length_take]
      omega
    have htail : (xs.drop 8).length = 8 * n := by
      rw [length_drop]
      omega
    rw [words, flatMap_cons, leBytes_word hhead, ih htail, take_append_drop]

theorem zipWith_words {op : UInt64 → UInt64 → UInt64} {opByte : UInt8 → UInt8 → UInt8}
    (hop : ∀ xs ys : Bytes, xs.length = 8 → ys.length = 8 →
      op (word xs) (word ys) = word (zipWith opByte xs ys))
    (hxs : xs.length = 8 * n) (hys : ys.length = 8 * n) :
    zipWith op (words n xs) (words n ys) = words n (zipWith opByte xs ys) := by
  induction n generalizing xs ys with
  | zero => rfl
  | succ n ih =>
    rw [words, words, words, zipWith_cons_cons, take_zipWith, drop_zipWith,
      hop _ _ (by rw [length_take]; omega) (by rw [length_take]; omega),
      ih (by rw [length_drop]; omega) (by rw [length_drop]; omega)]

theorem map_words {op : UInt64 → UInt64} {opByte : UInt8 → UInt8}
    (hop : ∀ xs : Bytes, xs.length = 8 → op (word xs) = word (xs.map opByte))
    (hxs : xs.length = 8 * n) :
    (words n xs).map op = words n (xs.map opByte) := by
  induction n generalizing xs with
  | zero => rfl
  | succ n ih =>
    rw [words, words, map_cons, ← map_take, ← map_drop,
      hop _ (by rw [length_take]; omega), ih (by rw [length_drop]; omega)]

end Words

end Redis.Lanes
