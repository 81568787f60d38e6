import Redis.Bitops.Popcount

/-!
# Redis.Bitops.Bitpos

`BITPOS` finds the first bit of a range, wherever the string is in memory.
-/

namespace Redis.Bitops

open Keyspace List Option Nat Bool Int64
open Bytes (leNat leNat_injective)
open Replication (Robj)
open Strings (Types checkType checkType_error getLongFromObjectOrReply)

variable {s : Bytes} {i n k : Nat} {b : Bool}

/-! ## Bits of a string -/

/-- The bit at a position; behind the string there are zeros. -/
def bitOf (s : Bytes) (i : Nat) : Bool :=
  ((s[i / 8]?).map fun b => b.toNat.testBit (7 - i % 8)).getD false

theorem bitOf_cons (b : UInt8) (s : Bytes) (i : Nat) :
    bitOf (b :: s) i = if i < 8 then b.toNat.testBit (7 - i) else bitOf s (i - 8) := by
  rw [bitOf]
  split
  next h =>
    rw [div_eq_of_lt h, mod_eq_of_lt h]
    rfl
  next h =>
    rw [bitOf, show i / 8 = (i - 8) / 8 + 1 by omega, show (i - 8) % 8 = i % 8 by omega]
    rfl

theorem bitOf_append (s t : Bytes) (i : Nat) :
    bitOf (s ++ t) i = if i < 8 * s.length then bitOf s i else bitOf t (i - 8 * s.length) := by
  rw [bitOf, getElem?_append]
  by_cases h : i < 8 * s.length
  · rw [if_pos (by omega), if_pos h, bitOf]
  · rw [if_neg (by omega), if_neg h, bitOf, show (i - 8 * s.length) / 8 = i / 8 - s.length by omega,
      show (i - 8 * s.length) % 8 = i % 8 by omega]

theorem bitOf_of_le (h : 8 * s.length ≤ i) : bitOf s i = false := by
  rw [bitOf, getElem?_eq_none (by omega)]
  rfl

/-- The byte whose bits are all the same. -/
def fullByte (b : Bool) : UInt8 := if b then 0xFF else 0

theorem testBit_fullByte (b : Bool) : ∀ i < 8, (fullByte b).toNat.testBit i = b := by
  cases b <;> decide

theorem eq_fullByte {x : UInt8} (h : ∀ i < 8, x.toNat.testBit i = b) : x = fullByte b := by
  apply UInt8.toNat_inj.mp
  apply eq_of_testBit_eq
  intro i
  by_cases hi : i < 8
  · rw [h i hi, testBit_fullByte b i hi]
  · have hhigh (y : UInt8) : y.toNat.testBit i = false :=
      testBit_lt_two_pow (lt_of_lt_of_le y.toNat_lt (Nat.pow_le_pow_right (by decide) (by omega)))
    rw [hhigh, hhigh]

theorem bitOf_replicate (h : i < 8 * n) : bitOf (replicate n (fullByte b)) i = b := by
  rw [bitOf, getElem?_replicate, if_pos (by omega)]
  exact testBit_fullByte b _ (by omega)

/-- Bytes whose bits are all the same. -/
theorem take_eq_replicate (hlen : n ≤ s.length) (h : ∀ i < 8 * n, bitOf s i = b) :
    s.take n = replicate n (fullByte b) := by
  induction n generalizing s with
  | zero => rfl
  | succ n ih =>
    cases s with
    | nil => simp at hlen
    | cons x s =>
      have hx : x = fullByte b := eq_fullByte fun i hi => by
        have hbit := h (7 - i) (by omega)
        rwa [bitOf_cons, if_pos (by omega), show 7 - (7 - i) = i by omega] at hbit
      have hs := ih (s := s) (by simpa using hlen) fun i hi => by
        have hbit := h (i + 8) (by omega)
        rwa [bitOf_cons, if_neg (by omega), Nat.add_sub_cancel] at hbit
      rw [take_succ_cons, hs, hx, replicate_succ]

/-! ## The loops -/

theorem bitposAlign_eq (b : Bool) (addr pos : Nat) (s : Bytes) :
    ∃ k, s = replicate k (fullByte b) ++ (bitposAlign (fullByte b) addr pos s).1 ∧
      (bitposAlign (fullByte b) addr pos s).2 = pos + 8 * k := by
  induction s generalizing addr pos with
  | nil => exact ⟨0, rfl, rfl⟩
  | cons c s ih =>
    rw [bitposAlign]
    split
    next h =>
      obtain ⟨k, hs, hpos⟩ := ih (addr + 1) (pos + 8)
      refine ⟨k + 1, ?_, by rw [hpos]; omega⟩
      rw [replicate_succ, cons_append, ← hs, h.2]
    next => exact ⟨0, rfl, rfl⟩

/-- The word of eight bytes whose bits are all the same. -/
def fullWord (b : Bool) : UInt64 := if b then 0xFFFFFFFFFFFFFFFF else 0

theorem word_eq_fullWord (hlen : s.length = 8) :
    UInt64.ofNat (leNat s) = fullWord b ↔ s = replicate 8 (fullByte b) := by
  have hfull : UInt64.ofNat (leNat (replicate 8 (fullByte b))) = fullWord b := by
    cases b <;> decide
  constructor
  · intro h
    rw [← hfull] at h
    refine leNat_injective (by rw [hlen, length_replicate]) ?_
    have hlt (t : Bytes) (ht : t.length = 8) : (UInt64.ofNat (leNat t)).toNat = leNat t := by
      have hbound := Bytes.leNat_lt t
      rw [ht] at hbound
      exact UInt64.toNat_ofNat_of_lt' hbound
    rw [← hlt s hlen, h, hlt _ (length_replicate ..)]
  · rintro rfl
    exact hfull

theorem bitposWords_eq (b : Bool) (pos : Nat) (s : Bytes) :
    ∃ k, s = replicate k (fullByte b) ++ (bitposWords (fullWord b) pos s).1 ∧
      (bitposWords (fullWord b) pos s).2 = pos + 8 * k ∧
      (8 ≤ (bitposWords (fullWord b) pos s).1.length →
        ((bitposWords (fullWord b) pos s).1.take 8) ≠ replicate 8 (fullByte b)) := by
  fun_induction bitposWords (fullWord b) pos s with
  | case1 pos s h ih =>
    obtain ⟨k, hs, hpos, hstop⟩ := ih
    have htake := (word_eq_fullWord (by rw [length_take]; omega)).mp h.2
    refine ⟨8 + k, ?_, by rw [hpos]; omega, hstop⟩
    rw [replicate_add, append_assoc, ← hs, ← htake, take_append_drop]
  | case2 pos s h =>
    refine ⟨0, rfl, rfl, fun hlen htake => h ⟨hlen, ?_⟩⟩
    have hlen : 8 ≤ s.length := hlen
    exact (word_eq_fullWord (by rw [length_take]; omega)).mpr htake

/-! ## The last word -/

variable {j : Nat} {one : UInt64} {rest : Bytes} (w : UInt64)

theorem testBit_shift_or (c : UInt8) (hi : i < 64) :
    ((w <<< 8) ||| c.toUInt64).toNat.testBit i =
      if i < 8 then c.toNat.testBit i else w.toNat.testBit (i - 8) := by
  rw [UInt64.toNat_or, testBit_or, UInt64.toNat_shiftLeft, UInt8.toNat_toUInt64]
  have hshift : (8 : UInt64).toNat % 64 = 8 := rfl
  rw [hshift, testBit_mod_two_pow, testBit_shiftLeft]
  by_cases h8 : i < 8
  · simp [h8, hi]
  · have hhigh : c.toNat.testBit i = false :=
      testBit_lt_two_pow (lt_of_lt_of_le c.toNat_lt (Nat.pow_le_pow_right (by decide) (by omega)))
    simp [h8, hi, hhigh]
    omega

theorem testBit_shift (hi : i < 64) :
    (w <<< 8).toNat.testBit i = if i < 8 then false else w.toNat.testBit (i - 8) := by
  have h := testBit_shift_or w 0 hi
  simpa using h

variable (word : UInt64) (addr : Nat) (bit : Bool)

/-- The bits of a string from the most significant one on, and above them those of `word`. -/
theorem testBit_bitposLoad (s : Bytes) (hi : i < 64) (hn : n ≤ 8) :
    (bitposLoad n word s).toNat.testBit i =
      if i < 8 * n then bitOf s (8 * n - 1 - i) else word.toNat.testBit (i - 8 * n) := by
  induction n generalizing word s with
  | zero => rfl
  | succ n ih =>
    -- the bits of the bytes behind, of the next byte, and of what was loaded before
    have hstep (x : UInt64) (t : Bytes) (b : UInt8)
        (hx : x.toNat.testBit (i - 8 * n) =
          if i - 8 * n < 8 then b.toNat.testBit (i - 8 * n) else word.toNat.testBit (i - 8 * n - 8)) :
        (bitposLoad n x t).toNat.testBit i =
          if i < 8 * (n + 1) then bitOf (b :: t) (8 * (n + 1) - 1 - i)
          else word.toNat.testBit (i - 8 * (n + 1)) := by
      rw [ih x t (by omega), bitOf_cons]
      by_cases hlow : i < 8 * n
      · rw [if_pos hlow, if_pos (by omega), if_neg (by omega),
          show 8 * (n + 1) - 1 - i - 8 = 8 * n - 1 - i by omega]
      rw [if_neg hlow, hx]
      by_cases hbyte : i - 8 * n < 8
      · rw [if_pos hbyte, if_pos (by omega), if_pos (by omega),
          show 7 - (8 * (n + 1) - 1 - i) = i - 8 * n by omega]
      · rw [if_neg hbyte, if_neg (by omega), show i - 8 * n - 8 = i - 8 * (n + 1) by omega]
    cases s with
    | nil =>
      have hzero : bitOf (0 :: []) (8 * (n + 1) - 1 - i) = bitOf [] (8 * (n + 1) - 1 - i) := by
        rw [bitOf_cons]
        split
        · exact zero_testBit _
        · rfl
      rw [bitposLoad, hstep _ [] 0 ?_, hzero]
      rw [testBit_shift _ (by omega)]
      rw [UInt8.toNat_zero, zero_testBit]
    | cons c s =>
      rw [bitposLoad]
      exact hstep _ s c (testBit_shift_or _ _ (by omega))

/-- The word that `redisBitpos` scans. -/
theorem testBit_lastWord (s : Bytes) (hj : j < 64) :
    (bitposLoad 8 0 s).toNat.testBit (63 - j) = bitOf s j := by
  rw [testBit_bitposLoad 0 s (by omega) (Nat.le_refl 8), if_pos (by omega),
    show 8 * 8 - 1 - (63 - j) = j by omega]

theorem bitposScan_succ (fuel : Nat) (hone : one.toNat = 2 ^ k) (pos : Nat) :
    bitposScan word bit (fuel + 1) one pos =
      if word.toNat.testBit k = bit then some pos
      else bitposScan word bit fuel (one >>> 1) (pos + 1) := by
  have hne : one ≠ 0 := by
    rintro rfl
    exact absurd hone.symm (Nat.two_pow_pos k).ne'
  have htest : (one &&& word != 0) = word.toNat.testBit k := by
    have hand : (one &&& word).toNat = 2 ^ k * (word.toNat.testBit k).toNat := by
      rw [UInt64.toNat_and, hone, two_pow_and]
    cases hbit : word.toNat.testBit k with
    | false =>
      rw [hbit] at hand
      have hzero : one &&& word = 0 := UInt64.toNat_inj.mp (hand.trans (Nat.mul_zero _))
      rw [hzero]
      rfl
    | true =>
      rw [hbit, toNat_true, Nat.mul_one] at hand
      rw [bne_iff_ne]
      intro hzero
      rw [hzero] at hand
      exact absurd hand.symm (Nat.two_pow_pos k).ne'
  rw [bitposScan, if_neg hne, htest]

theorem toNat_shiftRight_one (one : UInt64) : (one >>> 1).toNat = one.toNat / 2 := by
  rw [UInt64.toNat_shiftRight]
  exact shiftRight_eq_div_pow _ _

/-- The scan finds the first of the bits below `k`, from the most significant one on. -/
theorem bitposScan_spec {fuel : Nat} (hfuel : k < fuel) (hone : one.toNat = 2 ^ k) (pos : Nat)
    (hj : j ≤ k) (hbit : word.toNat.testBit (k - j) = bit)
    (hfirst : ∀ i < j, word.toNat.testBit (k - i) ≠ bit) :
    bitposScan word bit fuel one pos = some (pos + j) := by
  induction j generalizing fuel k one pos with
  | zero =>
    obtain ⟨fuel, rfl⟩ : ∃ f, fuel = f + 1 := ⟨fuel - 1, by omega⟩
    rw [bitposScan_succ word bit fuel hone]
    exact if_pos hbit
  | succ j ih =>
    obtain ⟨fuel, rfl⟩ : ∃ f, fuel = f + 1 := ⟨fuel - 1, by omega⟩
    obtain ⟨k, rfl⟩ : ∃ k', k = k' + 1 := ⟨k - 1, by omega⟩
    have hnext : (one >>> 1).toNat = 2 ^ k := by
      rw [toNat_shiftRight_one, hone, Nat.pow_succ]
      omega
    have hhere : word.toNat.testBit (k + 1) ≠ bit := hfirst 0 (by omega)
    rw [bitposScan_succ word bit fuel hone, if_neg hhere,
      ih (by omega) hnext (pos + 1) (by omega) (by rw [← hbit]; congr 1; omega) fun i hi => by
        have hne := hfirst (i + 1) (by omega)
        rwa [show k + 1 - (i + 1) = k - i by omega] at hne]
    congr 1
    omega

/-! ## `redisBitpos` -/

/-- The first position of a bit in a string. -/
def IsFirst (s : Bytes) (bit : Bool) (n : Nat) : Prop :=
  n < 8 * s.length ∧ bitOf s n = bit ∧ ∀ m < n, bitOf s m ≠ bit

/-- The rest of a string behind bytes without the bit. -/
theorem bitOf_skip {bit : Bool} {m : Nat} :
    bitOf (replicate k (fullByte !bit) ++ rest) m =
      if m < 8 * k then !bit else bitOf rest (m - 8 * k) := by
  rw [bitOf_append, length_replicate]
  split
  next h => exact bitOf_replicate h
  next => rfl

/-- The last part of `redisBitpos`: the first bit of what is left, the end of the string where it
is a padding zero, or none. -/
theorem lastWord_spec {bit : Bool}
    (hstop : 8 ≤ rest.length → rest.take 8 ≠ replicate 8 (fullByte !bit)) (pos : Nat) :
    let result := if bit = true ∧ bitposLoad 8 0 rest = 0 then some (-1)
      else (bitposScan (bitposLoad 8 0 rest) bit 65 (~~~((0xFFFFFFFFFFFFFFFF : UInt64) >>> 1)) pos).map
        Int.ofNat
    (∃ n, IsFirst rest bit n ∧ result = some ((pos + n : Nat) : Int)) ∨
      (∀ m < 8 * rest.length, bitOf rest m ≠ bit) ∧
        result = some (if bit then -1 else ((pos + 8 * rest.length : Nat) : Int)) := by
  dsimp only
  have hone : (~~~((0xFFFFFFFFFFFFFFFF : UInt64) >>> 1)).toNat = 2 ^ 63 := by decide
  by_cases hsome : ∃ j, j < 64 ∧ bitOf rest j = bit
  · obtain ⟨hlt, hbit⟩ := Nat.find_spec hsome
    have hfirst : ∀ i < Nat.find hsome, bitOf rest i ≠ bit := fun i hi h =>
      Nat.find_min hsome hi ⟨by omega, h⟩
    generalize Nat.find hsome = j at hlt hbit hfirst
    have hscan := bitposScan_spec (bitposLoad 8 0 rest) bit (by decide : 63 < 65) hone pos
      (by omega : j ≤ 63) (by rw [testBit_lastWord rest hlt, hbit]) fun i hi => by
        rw [testBit_lastWord rest (by omega)]
        exact hfirst i hi
    have hword : ¬ (bit = true ∧ bitposLoad 8 0 rest = 0) := by
      rintro ⟨rfl, hzero⟩
      rw [← testBit_lastWord rest hlt, hzero, UInt64.toNat_zero, zero_testBit] at hbit
      exact Bool.false_ne_true hbit
    rw [if_neg hword, hscan]
    by_cases hin : j < 8 * rest.length
    · exact .inl ⟨j, ⟨hin, hbit, hfirst⟩, rfl⟩
    · -- the bit is the first zero behind the string
      have hfalse : bit = false := by rw [← hbit, bitOf_of_le (by omega)]
      have hj : j = 8 * rest.length := Nat.le_antisymm (Nat.le_of_not_lt fun hbehind =>
        hfirst _ hbehind (by rw [bitOf_of_le (Nat.le_refl _), hfalse])) (by omega)
      refine .inr ⟨fun m hm => hfirst m (by omega), ?_⟩
      rw [hfalse, hj]
      rfl
  · have hnone : ∀ j < 64, bitOf rest j = !bit := fun j hj =>
      eq_not.mpr fun h => hsome ⟨j, hj, h⟩
    have hshort : rest.length < 8 := by
      by_contra hlong
      exact hstop (by omega) (take_eq_replicate (by omega) hnone)
    have htrue : bit = true := by
      have h := hnone (8 * rest.length) (by omega)
      rw [bitOf_of_le (Nat.le_refl _)] at h
      cases bit with
      | false => cases h
      | true => rfl
    have hzero : bitposLoad 8 0 rest = 0 := by
      apply UInt64.toNat_inj.mp
      apply eq_of_testBit_eq
      intro i
      rw [UInt64.toNat_zero, zero_testBit]
      by_cases hi : i < 64
      · rw [show i = 63 - (63 - i) by omega, testBit_lastWord rest (by omega), hnone _ (by omega), htrue]
        rfl
      · exact testBit_lt_two_pow (lt_of_lt_of_le (bitposLoad 8 0 rest).toNat_lt
          (Nat.pow_le_pow_right (by decide) (by omega)))
    refine .inr ⟨fun m hm => ?_, ?_⟩
    · rw [hnone m (by omega)]
      exact not_ne_self bit
    · rw [if_pos ⟨htrue, hzero⟩, htrue]
      rfl

/-- `redisBitpos` finds the first bit of the bytes at any address.  If there is none, it is -1 for
a one and the end of the bytes for a zero. -/
theorem redisBitpos_spec (s : Bytes) (bit : Bool) :
    (∃ n, IsFirst s bit n ∧ redisBitpos addr s bit = some (n : Int)) ∨
      (∀ m < 8 * s.length, bitOf s m ≠ bit) ∧
        redisBitpos addr s bit = some (if bit then -1 else ((8 * s.length : Nat) : Int)) := by
  have hbyte : (if bit then 0 else 0xFF : UInt8) = fullByte !bit := by cases bit <;> rfl
  have hwordval : (if bit then 0 else 0xFFFFFFFFFFFFFFFF : UInt64) = fullWord !bit := by
    cases bit <;> rfl
  rw [redisBitpos, hbyte, hwordval]
  obtain ⟨k, hs, hpos⟩ := bitposAlign_eq (!bit) addr 0 s
  generalize bitposAlign (fullByte !bit) addr 0 s = aligned at hs hpos
  obtain ⟨k', hs', hpos', hstop⟩ := bitposWords_eq (!bit) aligned.2 aligned.1
  dsimp only
  generalize bitposWords (fullWord !bit) aligned.2 aligned.1 = words at hs' hpos' hstop
  obtain ⟨rest, pos⟩ := words
  dsimp only at hs' hpos' hstop ⊢
  have hsplit : s = replicate (k + k') (fullByte !bit) ++ rest := by
    rw [hs, hs', replicate_add, append_assoc]
  have hp : pos = 8 * (k + k') := by omega
  have hlen : s.length = k + k' + rest.length := by
    rw [hsplit, length_append, length_replicate]
  have hskip : ∀ m, bitOf s m = if m < 8 * (k + k') then !bit else bitOf rest (m - 8 * (k + k')) :=
    fun m => by rw [hsplit]; exact bitOf_skip
  rcases lastWord_spec hstop pos with ⟨n, ⟨hn, hbit, hfirst⟩, hresult⟩ | ⟨hnone, hresult⟩
  · refine .inl ⟨pos + n, ⟨by omega, ?_, fun m hm => ?_⟩, hresult⟩
    · rw [hskip, if_neg (by omega), hp, Nat.add_sub_cancel_left, hbit]
    · rw [hskip]
      split
      next => exact not_ne_self bit
      next => exact hfirst _ (by omega)
  · refine .inr ⟨fun m hm => ?_, ?_⟩
    · rw [hskip]
      split
      next => exact not_ne_self bit
      next => exact hnone _ (by omega)
    · rw [hresult, hp, hlen, ← Nat.mul_add]

/-! ## `BITPOS` -/

/-- The first byte that is selected. -/
def firstByte (strlen : Nat) : Option Int64 → Int
  | none => 0
  | some start => max 0 (if start.toInt < 0 then strlen + start.toInt else start.toInt)

/-- The last byte that is selected. -/
def lastByte (strlen : Nat) : Option Int64 → Int
  | none => strlen - 1
  | some end_ => min (strlen - 1) (max 0 (if end_.toInt < 0 then strlen + end_.toInt else end_.toInt))

/-- The reply is the first position of a bit in the bytes from `lo` to `hi`, or `missing` if there
is none. -/
def Finds (p : Bytes) (bit : Bool) (lo hi missing : Int) (reply : Keyspace.Reply) : Prop :=
  (∃ n : Nat, (8 * lo ≤ n ∧ n < 8 * (hi + 1)) ∧ bitOf p n = bit ∧
      (∀ m : Nat, 8 * lo ≤ m → m < n → bitOf p m ≠ bit) ∧ reply = .integer n) ∨
    (∀ m : Nat, 8 * lo ≤ m → m < 8 * (hi + 1) → bitOf p m ≠ bit) ∧ reply = .integer missing

/-- The optional start and end in the arguments. -/
def parseRange : List Robj → Option (Option Int64 × Option Int64)
  | [] => some (none, none)
  | [startArg] =>
    match getLongFromObjectOrReply (some startArg) none with
    | .ok start => some (some start, none)
    | .error _ => none
  | [startArg, endArg] =>
    match getLongFromObjectOrReply (some startArg) none,
        getLongFromObjectOrReply (some endArg) none with
    | .ok start, .ok end_ => some (some start, some end_)
    | _, _ => none
  | _ => none

section Indexes

variable {strlen : Nat} (h : strlen < 2 ^ 62)

include h

theorem toInt_index (i : Int64) :
    (if (if i < 0 then Int64.ofNat strlen + i else i) < 0 then 0
      else if i < 0 then Int64.ofNat strlen + i else i).toInt =
      max 0 (if i.toInt < 0 then strlen + i.toInt else i.toInt) := by
  have hlen := toInt_ofNat_of_lt (show strlen < 2 ^ 63 by omega)
  have hi := i.le_toInt
  have hneg : i < 0 ↔ i.toInt < 0 := by rw [lt_iff_toInt_lt, toInt_zero]
  have hadd : i.toInt < 0 → (Int64.ofNat strlen + i).toInt = strlen + i.toInt := fun hlt => by
    rw [Strings.toInt_add_of_fits] <;> rw [hlen]
    exact ⟨by omega, by omega⟩
  have hclip (x : Int64) : (if x < 0 then 0 else x).toInt = max 0 x.toInt := by
    simp only [lt_iff_toInt_lt, toInt_zero]
    split
    · rw [toInt_zero]
      omega
    · omega
  rw [hclip]
  simp only [hneg]
  split
  next hlt => rw [hadd hlt]
  next => rfl

theorem bitIndexes_toInt (start end_ : Int64) :
    (bitIndexes strlen start end_).1.toInt = firstByte strlen (some start) ∧
      (bitIndexes strlen start end_).2.toInt = lastByte strlen (some end_) := by
  have hlen := toInt_ofNat_of_lt (show strlen < 2 ^ 63 by omega)
  have hlast : (Int64.ofNat strlen - 1).toInt = strlen - 1 := by
    rw [Strings.toInt_sub_of_fits] <;> rw [hlen]
    · rfl
    · exact ⟨by simp; omega, by simp; omega⟩
  refine ⟨toInt_index h start, ?_⟩
  have hend := toInt_index h end_
  rw [bitIndexes, lastByte, ← hend]
  generalize (if (if end_ < 0 then Int64.ofNat strlen + end_ else end_) < 0 then 0
      else if end_ < 0 then Int64.ofNat strlen + end_ else end_) = e
  simp only [le_iff_toInt_le, hlen]
  split
  · rw [hlast]
    omega
  · omega

end Indexes

theorem bitposRange_spec {strlen : Nat} (h : strlen < 2 ^ 62) {args : List Robj}
    {start end_ : Option Int64} (hargs : parseRange args = some (start, end_)) :
    ∃ b e, bitposRange strlen args = .ok (b, e, end_.isSome) ∧ b.toInt = firstByte strlen start ∧
      e.toInt = lastByte strlen end_ := by
  have hlen := toInt_ofNat_of_lt (show strlen < 2 ^ 63 by omega)
  have hlast : (Int64.ofNat strlen - 1).toInt = strlen - 1 := by
    rw [Strings.toInt_sub_of_fits] <;> rw [hlen]
    · rfl
    · exact ⟨by simp; omega, by simp; omega⟩
  match args with
  | [] =>
    cases hargs
    exact ⟨0, _, rfl, rfl, hlast⟩
  | [startArg] =>
    rw [parseRange] at hargs
    cases hstart : getLongFromObjectOrReply (some startArg) none with
    | error reply =>
      rw [hstart] at hargs
      cases hargs
    | ok b =>
      rw [hstart] at hargs
      cases hargs
      obtain ⟨hfirst, hend⟩ := bitIndexes_toInt h b (Int64.ofNat strlen - 1)
      refine ⟨(bitIndexes strlen b (Int64.ofNat strlen - 1)).1,
        (bitIndexes strlen b (Int64.ofNat strlen - 1)).2, ?_, hfirst, hend.trans ?_⟩
      · rw [bitposRange, hstart]
        rfl
      · rw [lastByte, lastByte, hlast]
        split <;> omega
  | [startArg, endArg] =>
    rw [parseRange] at hargs
    cases hstart : getLongFromObjectOrReply (some startArg) none with
    | error reply =>
      rw [hstart] at hargs
      cases hargs
    | ok b =>
      cases hend : getLongFromObjectOrReply (some endArg) none with
      | error reply =>
        rw [hstart, hend] at hargs
        cases hargs
      | ok e =>
        rw [hstart, hend] at hargs
        cases hargs
        obtain ⟨hfirst, hlast⟩ := bitIndexes_toInt h b e
        refine ⟨(bitIndexes strlen b e).1, (bitIndexes strlen b e).2, ?_, hfirst, hlast⟩
        rw [bitposRange, hstart, hend]
        rfl
  | _ :: _ :: _ :: _ => cases hargs

/-- The bits of the bytes of a range. -/
theorem bitOf_range {p : Bytes} {lo : Nat} (hi : i < 8 * n) :
    bitOf ((p.drop lo).take n) i = bitOf p (8 * lo + i) := by
  rw [bitOf, bitOf, getElem?_take, if_pos (by omega), getElem?_drop,
    show (8 * lo + i) / 8 = lo + i / 8 by omega, show (8 * lo + i) % 8 = i % 8 by omega]

/-- The reply for a range of a string. -/
theorem bitposReply_spec (p : Bytes) (bit : Bool) {given : Bool} {start end_ : Int64}
    (hlen : p.length < 2 ^ 59) (hstart : 0 ≤ start.toInt) (hend : end_.toInt < p.length)
    (hgiven : given = false → end_.toInt = p.length - 1) :
    ∃ reply, bitposReply addr p bit start end_ given = some reply ∧
      Finds p bit start.toInt end_.toInt
        (if bit = false ∧ given = false ∧ start.toInt ≤ end_.toInt then 8 * p.length else -1)
        reply := by
  rw [bitposReply]
  by_cases hempty : end_ < start
  · have hlt : end_.toInt < start.toInt := lt_iff_toInt_lt.mp hempty
    rw [if_pos hempty, if_neg (by omega)]
    exact ⟨_, rfl, .inr ⟨fun m _ _ => by omega, rfl⟩⟩
  have hle : start.toInt ≤ end_.toInt := by
    rw [lt_iff_toInt_lt] at hempty
    exact Int.not_lt.mp hempty
  have hhi := end_.toInt_lt
  have hone : (1 : Int64).toInt = 1 := rfl
  have hdiff : (end_ - start).toInt = end_.toInt - start.toInt :=
    Strings.toInt_sub_of_fits ⟨by omega, by omega⟩
  have hbytes : (end_ - start + 1).toInt = end_.toInt - start.toInt + 1 := by
    rw [Strings.toInt_add_of_fits, hdiff, hone]
    rw [hdiff, hone]
    exact ⟨by omega, by omega⟩
  have height (x : Int64) (hx : 0 ≤ x.toInt) (hx' : x.toInt < 2 ^ 59 + 1) :
      (x * 8).toInt = x.toInt * 8 := by
    have h8 : (8 : Int64).toInt = 8 := rfl
    rw [toInt_mul, h8]
    exact Int.bmod_eq_of_le (by omega) (by omega)
  obtain ⟨lo, hlo⟩ : ∃ lo : Nat, start.toInt = lo := ⟨start.toInt.toNat, by omega⟩
  obtain ⟨n, hn⟩ : ∃ n : Nat, (end_ - start + 1).toInt = n :=
    ⟨(end_ - start + 1).toInt.toNat, by omega⟩
  have hlo' : start.toUInt64.toNat = lo := by rw [Strings.toNat_offset hstart, hlo, Int.toNat_natCast]
  have hn' : (end_ - start + 1).toUInt64.toNat = n := by
    rw [Strings.toNat_offset (by omega), hn, Int.toNat_natCast]
  have hlength : ((p.drop lo).take n).length = n := by
    rw [length_take, length_drop]
    omega
  have hinside (m : Nat) (hm : 8 * lo ≤ m) (hm' : m < 8 * (lo + n)) :
      bitOf p m = bitOf ((p.drop lo).take n) (m - 8 * lo) := by
    rw [bitOf_range (by omega), show 8 * lo + (m - 8 * lo) = m by omega]
  rw [if_neg hempty]
  dsimp only
  rw [hlo', hn', height start hstart (by omega), height _ (by omega) (by omega), hn, hlo]
  rcases redisBitpos_spec (addr + lo) ((p.drop lo).take n) bit with
    ⟨m, ⟨hm, hbit, hfirst⟩, hresult⟩ | ⟨hnone, hresult⟩
  · rw [hlength] at hm
    rw [hresult]
    refine ⟨.integer ((8 * lo + m : Nat) : Int), ?_, .inl ⟨8 * lo + m, ⟨by omega, by omega⟩, ?_, ?_, rfl⟩⟩
    · rw [map_some, if_neg (by omega), if_pos (by omega)]
      congr 2
      push_cast
      omega
    · rw [hinside _ (by omega) (by omega), Nat.add_sub_cancel_left, hbit]
    · intro k hk hk'
      rw [hinside k (by omega) (by omega)]
      exact hfirst _ (by omega)
  · rw [hlength] at hnone hresult
    rw [hresult]
    have hall : ∀ k : Nat, 8 * (lo : Int) ≤ k → k < 8 * (end_.toInt + 1) → bitOf p k ≠ bit :=
      fun k hk hk' => by
        rw [hinside k (by omega) (by omega)]
        exact hnone _ (by omega)
    cases bit with
    | true =>
      refine ⟨.integer (-1), ?_, .inr ⟨hall, ?_⟩⟩
      · rw [if_pos rfl, map_some, if_neg fun h => true_eq_false_eq_False h.2.1,
          if_neg fun h => h rfl]
      · rw [if_neg fun h => true_eq_false_eq_False h.1]
    | false =>
      rw [if_neg Bool.false_ne_true, map_some]
      cases given with
      | true =>
        refine ⟨.integer (-1), ?_, .inr ⟨hall, ?_⟩⟩
        · rw [if_pos ⟨rfl, rfl, by omega⟩]
        · rw [if_neg fun h => true_eq_false_eq_False h.2.1]
      | false =>
        have hlast := hgiven rfl
        refine ⟨.integer (8 * p.length), ?_, .inr ⟨hall, ?_⟩⟩
        · rw [if_neg fun h => Bool.false_ne_true h.1, if_pos (by omega)]
          congr 2
          omega
        · rw [if_pos ⟨rfl, rfl, by omega⟩]

theorem firstByte_nonneg (strlen : Nat) (start : Option Int64) : 0 ≤ firstByte strlen start := by
  cases start with
  | none => exact Int.le_refl 0
  | some start => exact le_max_left _ _

theorem lastByte_lt (strlen : Nat) (end_ : Option Int64) : lastByte strlen end_ < strlen := by
  cases end_ with
  | none =>
    rw [lastByte]
    omega
  | some end_ =>
    rw [lastByte]
    omega

/-- `BITPOS` of a string replies the first position of the bit in the bytes that are selected.  If
there is none it replies -1, but for a zero bit without an end, and bytes that are selected, the
length of the string in bits. -/
theorem bitpos_finds {V : Type} {env : Env} {types : Types V} {d : Nat} {key : Key} {s : Server V}
    {E : Dataset V} (hs : Sees env s E) (addr : Nat) {o : Robj}
    (ho : checkType types.string ((E d key).map Prod.fst) = .ok (some o))
    (hlen : o.bytes.length ≤ Strings.maxStringLength) {bitArg : Robj} {bit : Bool}
    (hbit : getLongFromObjectOrReply (some bitArg) none = .ok (if bit then 1 else 0))
    {args : List Robj} {start end_ : Option Int64} (hargs : parseRange args = some (start, end_)) :
    ∃ reply s', (bitposCommand env types d addr key bitArg args).run s = some (reply, s') ∧
      Sees env s' E ∧
      Finds o.bytes bit (firstByte o.bytes.length start) (lastByte o.bytes.length end_)
        (if bit = false ∧ end_ = none ∧
            firstByte o.bytes.length start ≤ lastByte o.bytes.length end_ then
          8 * o.bytes.length else -1) reply := by
  rw [Strings.maxStringLength] at hlen
  have hlookup : Runs (Shows env) (lookupKeyRead env d key) ⟨E, ∅⟩ ((E d key).map Prod.fst)
      (View.touch ⟨E, ∅⟩ d key) := lookupKeyRead_shows
  have hsmall : o.bytes.length < 2 ^ 62 := by omega
  obtain ⟨b, e, hrange, hb, he⟩ := bitposRange_spec hsmall hargs
  have hfirst := firstByte_nonneg o.bytes.length start
  have hlast := lastByte_lt o.bytes.length end_
  have hgiven : end_.isSome = false → e.toInt = o.bytes.length - 1 := fun hnone => by
    rw [isSome_eq_false_iff, isNone_iff_eq_none] at hnone
    rw [he, hnone]
    rfl
  obtain ⟨reply, hreply, hfinds⟩ := bitposReply_spec addr o.bytes bit (by omega)
    (hb ▸ hfirst) (he ▸ hlast) hgiven
  have hcommand : Runs (Shows env) (bitposCommand env types d addr key bitArg args) ⟨E, ∅⟩ reply
      (View.touch ⟨E, ∅⟩ d key) := by
    rw [bitposCommand, hbit]
    dsimp only
    rw [if_neg (by cases bit <;> decide)]
    refine hlookup.bind ?_
    have htest : decide ((if bit then 1 else 0 : Int64) = 1) = bit := by cases bit <;> rfl
    rw [ho]
    dsimp only
    rw [hrange]
    dsimp only
    rw [htest, hreply]
    exact Runs.pure _ _
  obtain ⟨s', hrun, hs'⟩ := hcommand s (sees_iff.mp hs)
  refine ⟨reply, s', hrun, hs'.sees, ?_⟩
  have hopen : end_.isSome = false ↔ end_ = none := by simp
  simpa only [hb, he, hopen] using hfinds

/-- `BITPOS a 0` of a key with the string `0xFF 0xF0`. -/
theorem bitpos_finds_zero :
    ∃ reply s', (bitposCommand Strings.plainEnv Strings.valueTypes 0 4097 [97] (.int 0) []).run
        (Strings.oneKeyServer [97] (Strings.Value.string (.raw [0xFF, 0xF0]))) = some (reply, s') ∧
      Sees Strings.plainEnv s' (Dataset.set (fun _ _ => none) 0 [97]
        (some (Strings.Value.string (.raw [0xFF, 0xF0]), none))) ∧
      Finds [0xFF, 0xF0] false 0 1 16 reply := by
  have hstored : checkType Strings.valueTypes.string (Option.map Prod.fst (Dataset.set
      (fun _ _ => none) 0 [97] (some (Strings.Value.string (.raw [0xFF, 0xF0]), none)) 0 [97])) =
      .ok (some (.raw [0xFF, 0xF0])) := by
    rw [Dataset.set_same]
    rfl
  have hbit : getLongFromObjectOrReply (some (.int 0)) none = .ok (if false then 1 else 0) := rfl
  have hargs : parseRange [] = some (none, none) := rfl
  obtain ⟨reply, s', hrun, hsees, hfinds⟩ := bitpos_finds
    (Strings.oneKeyServer_sees [97] (Strings.Value.string (.raw [0xFF, 0xF0]))) 4097
    hstored (by decide) hbit hargs
  exact ⟨reply, s', hrun, hsees, hfinds⟩

/-- `BITPOS a 0 1` of a key with the string `0xFF`, of which no byte is selected: the reply is not
the length of the string in bits. -/
theorem bitpos_empty_range :
    ¬ ∃ reply s', (bitposCommand Strings.plainEnv Strings.valueTypes 0 4096 [97] (.int 0) [.int 1]).run
        (Strings.oneKeyServer [97] (Strings.Value.string (.raw [0xFF]))) = some (reply, s') ∧
      Finds [0xFF] false (firstByte 1 (some 1)) (lastByte 1 none) 8 reply := by
  rintro ⟨reply, s', hrun, hfinds⟩
  have hminus : ((bitposCommand Strings.plainEnv Strings.valueTypes 0 4096 [97] (.int 0)
      [.int 1]).run (Strings.oneKeyServer [97] (Strings.Value.string (.raw [0xFF])))).map Prod.fst =
      some (.integer (-1)) := by decide
  rw [hrun] at hminus
  cases hminus
  have hlo : firstByte 1 (some 1) = 1 := by decide
  have hhi : lastByte 1 none = 0 := by decide
  rw [hlo, hhi] at hfinds
  cases hfinds with
  | inl hfound =>
    obtain ⟨n, ⟨hlow, hhigh⟩, -⟩ := hfound
    omega
  | inr hnone => cases hnone.2

end Redis.Bitops
