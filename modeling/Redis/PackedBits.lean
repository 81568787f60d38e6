import Mathlib.Data.List.Basic
import Mathlib.Data.Nat.Bitwise
import Mathlib.Tactic.Common
import Redis.Bytes

/-!
# Redis.PackedBits

Fields of `w` bits, at most eight, packed one after the other into bytes, from
the least significant bit of each byte on.  A field lies in at most two bytes;
`get` and `set` always access both, also where the second holds nothing of it.
-/

namespace Redis.PackedBits

open List Option

variable {w i x v n : Nat} {buf buf' : Bytes}

/-- The `i`th field of `w` bits. -/
def get (w : Nat) (buf : Bytes) (i : Nat) : Option Nat := do
  let byte := i * w / 8
  let fb := i * w % 8
  let b0 ← buf[byte]?
  let b1 ← buf[byte + 1]?
  return (b0.toNat >>> fb ||| b1.toNat <<< (8 - fb)) &&& (2 ^ w - 1)

/-- Writes the `i`th field of `w` bits: the old bits are cleared, the new ones
put in. -/
def set (w : Nat) (buf : Bytes) (i v : Nat) : Option Bytes := do
  let byte := i * w / 8
  let fb := i * w % 8
  let b0 ← buf[byte]?
  let buf := buf.set byte
    (b0 &&& ~~~UInt8.ofNat ((2 ^ w - 1) <<< fb) ||| UInt8.ofNat (v <<< fb))
  let b1 ← buf[byte + 1]?
  return buf.set (byte + 1)
    (b1 &&& ~~~UInt8.ofNat ((2 ^ w - 1) >>> (8 - fb)) ||| UInt8.ofNat (v >>> (8 - fb)))

/-- The `n`th bit of a buffer, `false` behind its end. -/
def bitAt (buf : Bytes) (n : Nat) : Bool :=
  ((buf[n / 8]?).map fun b => b.toNat.testBit (n % 8)).getD false

theorem testBit_uint8_of_le {b : UInt8} {k : Nat} (h : 8 ≤ k) : b.toNat.testBit k = false := by
  refine Nat.testBit_lt_two_pow (lt_of_lt_of_le b.toNat_lt ?_)
  exact Nat.pow_le_pow_right (by decide) h

/-- The bits of a byte in which those of a mask have been replaced. -/
theorem testBit_clear_or (b : UInt8) (m v : Nat) {k : Nat} (hk : k < 8) :
    (b &&& ~~~UInt8.ofNat m ||| UInt8.ofNat v).toNat.testBit k =
      ((b.toNat.testBit k && !m.testBit k) || v.testBit k) := by
  have hbit (x : UInt8) : x.toNat.testBit k = x.toBitVec.getLsbD k := by
    rw [← BitVec.testBit_toNat]
    rfl
  have hofNat (n : Nat) : (UInt8.ofNat n).toBitVec = BitVec.ofNat 8 n := rfl
  rw [hbit, hbit, UInt8.toBitVec_or, UInt8.toBitVec_and, UInt8.toBitVec_not, hofNat, hofNat]
  simp only [BitVec.getLsbD_or, BitVec.getLsbD_and, BitVec.getLsbD_not, BitVec.getLsbD_ofNat, hk,
    decide_true, Bool.true_and]

theorem testBit_mask (w k : Nat) : (2 ^ w - 1).testBit k = decide (k < w) := by
  simp

theorem testBit_get (hw : w ≤ 8) (h : get w buf i = some x) (k : Nat) :
    x.testBit k = (decide (k < w) && bitAt buf (i * w + k)) := by
  simp only [get, bind_eq_some, Option.pure_def, Option.some.injEq] at h
  obtain ⟨b0, hb0, b1, hb1, rfl⟩ := h
  have hfb : i * w % 8 < 8 := Nat.mod_lt _ (by decide)
  generalize hbyte : i * w / 8 = byte at *
  generalize hfbit : i * w % 8 = fb at *
  have hsum : i * w = 8 * byte + fb := by omega
  rw [Nat.testBit_and, Nat.testBit_or, Nat.testBit_shiftRight, Nat.testBit_shiftLeft, testBit_mask,
    bitAt, hsum]
  by_cases hk : k < w
  · by_cases hfirst : fb + k < 8
    · have hdiv : (8 * byte + fb + k) / 8 = byte := by omega
      have hmod : (8 * byte + fb + k) % 8 = fb + k := by omega
      have hge : ¬8 - fb ≤ k := by omega
      simp [hdiv, hmod, hb0, hge, hk]
    · have hdiv : (8 * byte + fb + k) / 8 = byte + 1 := by omega
      have hmod : (8 * byte + fb + k) % 8 = k - (8 - fb) := by omega
      have hge : 8 - fb ≤ k := by omega
      have hout : b0.toNat.testBit (fb + k) = false := testBit_uint8_of_le (by omega)
      simp [hdiv, hmod, hb1, hge, hk, hout]
  · simp [hk]

/-- The bits after writing a field.  A value of more than `w` bits runs over into the fields
behind. -/
theorem bitAt_set (hw : w ≤ 8) (h : set w buf i v = some buf') (n : Nat)
    (hv : v < 2 ^ w ∨ i * w ≤ n ∧ n < i * w + w) :
    bitAt buf' n = if i * w ≤ n ∧ n < i * w + w then v.testBit (n - i * w) else bitAt buf n := by
  simp only [set, bind_eq_some, Option.pure_def, Option.some.injEq] at h
  obtain ⟨b0, hb0, b1, hb1, rfl⟩ := h
  have hfb : i * w % 8 < 8 := Nat.mod_lt _ (by decide)
  generalize hbyte : i * w / 8 = byte at *
  generalize hfbit : i * w % 8 = fb at *
  have hsum : i * w = 8 * byte + fb := by omega
  rw [getElem?_set_ne (by omega)] at hb1
  have hlt0 : byte < buf.length := (List.getElem?_eq_some_iff.mp hb0).1
  have hlt1 : byte + 1 < buf.length := (List.getElem?_eq_some_iff.mp hb1).1
  have hmod : n % 8 < 8 := Nat.mod_lt _ (by decide)
  rw [hsum] at hv
  have hhigh {k : Nat} (hk : w ≤ k) (hout : ¬(8 * byte + fb ≤ n ∧ n < 8 * byte + fb + w)) :
      v.testBit k = false :=
    Nat.testBit_lt_two_pow (lt_of_lt_of_le (hv.resolve_right hout)
      (Nat.pow_le_pow_right (by decide) hk))
  rw [hsum, bitAt, bitAt]
  by_cases hfirst : n / 8 = byte
  · have hn : n = 8 * byte + n % 8 := by omega
    generalize n % 8 = m at hn hmod ⊢
    have hget : ((buf.set byte (b0 &&& ~~~UInt8.ofNat ((2 ^ w - 1) <<< fb) |||
        UInt8.ofNat (v <<< fb))).set (byte + 1) (b1 &&& ~~~UInt8.ofNat ((2 ^ w - 1) >>> (8 - fb)) |||
        UInt8.ofNat (v >>> (8 - fb))))[n / 8]? =
        some (b0 &&& ~~~UInt8.ofNat ((2 ^ w - 1) <<< fb) ||| UInt8.ofNat (v <<< fb)) := by
      rw [hfirst, getElem?_set_ne (by omega), getElem?_set_self hlt0]
    rw [hget, hfirst, hb0, map_some, map_some, getD_some, getD_some,
      testBit_clear_or _ _ _ hmod, Nat.testBit_shiftLeft, Nat.testBit_shiftLeft, testBit_mask]
    have hsub : n - (8 * byte + fb) = m - fb := by omega
    by_cases hlow : fb ≤ m
    · by_cases hin : m - fb < w
      · rw [if_pos (by omega), hsub]
        simp [hlow, hin]
      · rw [if_neg (by omega), hhigh (by omega) (by omega)]
        simp [hlow, hin]
    · rw [if_neg (by omega)]
      simp [hlow]
  · by_cases hsecond : n / 8 = byte + 1
    · have hn : n = 8 * byte + 8 + n % 8 := by omega
      generalize n % 8 = m at hn hmod ⊢
      rw [hsecond, getElem?_set_self (by rw [List.length_set]; exact hlt1), hb1,
        map_some, map_some, getD_some, getD_some,
        testBit_clear_or _ _ _ hmod, Nat.testBit_shiftRight, Nat.testBit_shiftRight, testBit_mask]
      have hsub : n - (8 * byte + fb) = 8 - fb + m := by omega
      by_cases hin : 8 - fb + m < w
      · rw [if_pos (by omega), hsub]
        simp [hin]
      · rw [if_neg (by omega), hhigh (by omega) (by omega)]
        simp [hin]
    · rw [getElem?_set_ne (by omega), getElem?_set_ne (by omega), if_neg (by omega)]

theorem length_set (h : set w buf i v = some buf') : buf'.length = buf.length := by
  simp only [set, bind_eq_some, Option.pure_def, Option.some.injEq] at h
  obtain ⟨b0, _, b1, _, rfl⟩ := h
  simp

/-- A field can be read and written where its two bytes exist. -/
theorem get_isSome (h : i * w / 8 + 1 < buf.length) : ∃ x, get w buf i = some x := by
  simp [get, getElem?_eq_getElem h,
    getElem?_eq_getElem (show i * w / 8 < buf.length by omega)]

theorem set_isSome (v : Nat) (h : i * w / 8 + 1 < buf.length) :
    ∃ buf', set w buf i v = some buf' := by
  have hset (b : UInt8) : (buf.set (i * w / 8) b)[i * w / 8 + 1]? = some (buf.get ⟨_, h⟩) := by
    rw [getElem?_set_ne (by omega), getElem?_eq_getElem h]
    rfl
  simp [set, getElem?_eq_getElem (show i * w / 8 < buf.length by omega), hset]

theorem get_lt (h : get w buf i = some x) : x < 2 ^ w := by
  simp only [get, bind_eq_some, Option.pure_def, Option.some.injEq] at h
  obtain ⟨b0, _, b1, _, rfl⟩ := h
  have hle : (b0.toNat >>> (i * w % 8) ||| b1.toNat <<< (8 - i * w % 8)) &&& (2 ^ w - 1) ≤
      2 ^ w - 1 := Nat.and_le_right
  have hpos : 0 < 2 ^ w := Nat.two_pow_pos w
  omega

theorem get_set (hw : w ≤ 8) (hv : v < 2 ^ w) (h : set w buf i v = some buf') {j : Nat}
    (hget : get w buf j = some x) : get w buf' j = some (if j = i then v else x) := by
  have hlen := length_set h
  have hj : j * w / 8 + 1 < buf'.length := by
    simp only [get, bind_eq_some] at hget
    obtain ⟨_, _, _, hb1, _⟩ := hget
    rw [hlen]
    exact (List.getElem?_eq_some_iff.mp hb1).1
  obtain ⟨y, hy⟩ := get_isSome hj
  rw [hy, Option.some.injEq]
  refine Nat.eq_of_testBit_eq fun k => ?_
  rw [testBit_get hw hy, bitAt_set hw h _ (.inl hv)]
  by_cases hk : k < w
  · by_cases hij : j = i
    · rw [if_pos hij, hij, if_pos (by omega), Nat.add_sub_cancel_left]
      simp [hk]
    · have hout : ¬(i * w ≤ j * w + k ∧ j * w + k < i * w + w) := by
        intro hin
        rcases Nat.lt_or_gt_of_ne hij with hlt | hgt
        · have : (j + 1) * w ≤ i * w := Nat.mul_le_mul_right w hlt
          rw [Nat.add_mul] at this
          omega
        · have : (i + 1) * w ≤ j * w := Nat.mul_le_mul_right w hgt
          rw [Nat.add_mul] at this
          omega
      rw [if_neg hij, if_neg hout, testBit_get hw hget]
  · by_cases hij : j = i
    · have hout : v.testBit k = false := Nat.testBit_lt_two_pow (lt_of_lt_of_le hv
        (Nat.pow_le_pow_right (by decide) (by omega)))
      rw [if_pos hij, hout]
      simp [hk]
    · rw [if_neg hij, testBit_get hw hget]
      simp [hk]

/-- A field reads back, up to the bits that it does not have. -/
theorem get_set_self (hw : w ≤ 8) (h : set w buf i v = some buf') :
    get w buf' i = some (v % 2 ^ w) := by
  have hlen := length_set h
  have hi : i * w / 8 + 1 < buf'.length := by
    simp only [set, bind_eq_some] at h
    obtain ⟨_, _, _, hb1, _⟩ := h
    rw [hlen]
    simpa using (List.getElem?_eq_some_iff.mp hb1).1
  obtain ⟨y, hy⟩ := get_isSome hi
  rw [hy, Option.some.injEq]
  refine Nat.eq_of_testBit_eq fun k => ?_
  rw [testBit_get hw hy, Nat.testBit_mod_two_pow]
  by_cases hk : k < w
  · have hin : i * w ≤ i * w + k ∧ i * w + k < i * w + w := by omega
    rw [bitAt_set hw h _ (.inr hin), if_pos hin, Nat.add_sub_cancel_left]
  · simp [hk]

theorem bitAt_append_left {a : Bytes} (b : Bytes) (h : n < 8 * a.length) :
    bitAt (a ++ b) n = bitAt a n := by
  rw [bitAt, bitAt, getElem?_append_left (by omega)]

/-- Only the bytes that hold a part of a field matter to it. -/
theorem get_of_take (hw : w ≤ 8) (hn : (i + 1) * w ≤ 8 * n) (hlen : n ≤ buf.length)
    (hlen' : n < buf'.length) (hin : i * w / 8 + 1 ≤ n) (htake : buf'.take n = buf.take n)
    (h : get w buf i = some x) : get w buf' i = some x := by
  obtain ⟨y, hy⟩ := (get_isSome (by omega) : ∃ y, get w buf' i = some y)
  have hbit (k : Nat) (hk : k < w) : bitAt buf' (i * w + k) = bitAt buf (i * w + k) := by
    rw [Nat.add_mul] at hn
    rw [← take_append_drop n buf', ← take_append_drop n buf, htake,
      bitAt_append_left _ (by rw [length_take]; omega),
      bitAt_append_left _ (by rw [length_take]; omega)]
  rw [hy, Option.some.injEq]
  refine Nat.eq_of_testBit_eq fun k => ?_
  rw [testBit_get hw hy, testBit_get hw h]
  by_cases hk : k < w
  · rw [hbit k hk]
  · simp [hk]

theorem get_drop {m : Nat} (buf : Bytes) (i : Nat) (h : m * w = 8 * n) :
    get w (buf.drop n) i = get w buf (m + i) := by
  have hsum : (m + i) * w = 8 * n + i * w := by rw [Nat.add_mul, h]
  have hdiv : (m + i) * w / 8 = n + i * w / 8 := by omega
  have hmod : (m + i) * w % 8 = i * w % 8 := by omega
  simp only [get, hdiv, hmod, getElem?_drop, Nat.add_assoc]

theorem get_replicate_zero (h : i * w / 8 + 1 < n) : get w (replicate n 0) i = some 0 := by
  simp [get, h, show i * w / 8 < n by omega]

end Redis.PackedBits
