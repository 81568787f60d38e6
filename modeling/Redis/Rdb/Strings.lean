import Redis.Aof.Absolute
import Redis.Rdb
import Redis.Util.Buffers

/-!
# Redis.Rdb.Strings

An integer is written the same way whether its object holds the number or its decimal form, and
what is written is read back as that decimal form.
-/

namespace Redis.Rdb

open List Nat UInt8

open Replication (Robj)
open Sentinel (readSign digitsValue readSign_digit)
open Sds (isspace)
open Aof (digit_of_mem_decimal)

/-! ## The bytes of an integer -/

theorem toNat_lowByte (v : Int) : ((lowByte v).toNat : Int) = v % 256 := by
  have h0 := Int.emod_nonneg v (by decide : (256 : Int) ≠ 0)
  have h1 := Int.emod_lt_of_pos v (by decide : (0 : Int) < 256)
  rw [lowByte, toNat_ofNat', mod_eq_of_lt (by omega), Int.toNat_of_nonneg h0]

/-- The low byte of a number that is shifted. -/
theorem toNat_lowByte_shift (v : Int) (i : Nat) :
    ((lowByte (v >>> i)).toNat : Int) = v / 2 ^ i % 256 := by
  rw [toNat_lowByte, Int.shiftRight_eq_div_pow]
  norm_cast

theorem or_shiftLeft {a b i : Nat} (h : a < 2 ^ i) : a ||| b <<< i = a + 2 ^ i * b := by
  rw [shiftLeft_eq, Nat.mul_comm b, Nat.or_comm, ← two_pow_add_eq_or_of_lt h, Nat.add_comm]

variable (b₀ b₁ b₂ b₃ : UInt8)

theorem or_two : b₀.toNat ||| b₁.toNat <<< 8 = b₀.toNat + 256 * b₁.toNat :=
  or_shiftLeft b₀.toNat_lt

theorem or_four :
    b₀.toNat ||| b₁.toNat <<< 8 ||| b₂.toNat <<< 16 ||| b₃.toNat <<< 24 =
      b₀.toNat + 256 * b₁.toNat + 2 ^ 16 * b₂.toNat + 2 ^ 24 * b₃.toNat := by
  have h₀ := b₀.toNat_lt
  have h₁ := b₁.toNat_lt
  have h₂ := b₂.toNat_lt
  rw [or_two, or_shiftLeft (i := 16) (by omega), or_shiftLeft (i := 24) (by omega)]

theorem bmod_of_low {v : Int} {n m : Nat} (hn : (n : Int) = v % m) (hlo : -(m : Int) ≤ 2 * v)
    (hhi : 2 * v < m) : (n : Int).bmod m = v := by
  rw [hn, Int.emod_bmod]
  exact Int.bmod_eq_of_le (by omega) (by omega)

/-! ## Lengths -/

/-- A byte of six bits, with the type of a length in its two other bits. -/
theorem six_bits : ∀ n < 64, (ofNat n &&& 0xC0) >>> 6 = 0 ∧
    ofNat n &&& 0x3F = ofNat n ∧
    ((ofNat n ||| 0x40) &&& 0xC0) >>> 6 = 1 ∧
    (ofNat n ||| 0x40) &&& 0x3F = ofNat n := by
  decide

section Lengths

variable (b : UInt8) (rdb : Bytes)

theorem rdbLoadLen_6bit (h : (b &&& 0xC0) >>> 6 = 0) :
    rdbLoadLen (b :: rdb) = some ((b &&& 0x3F).toUInt32, false, rdb) := by
  rw [rdbLoadLen.eq_def]
  dsimp only
  rw [h, if_neg (by decide), if_pos rfl]

theorem rdbLoadLen_14bit (b' : UInt8) (h : (b &&& 0xC0) >>> 6 = 1) :
    rdbLoadLen (b :: b' :: rdb) =
      some (((b &&& 0x3F).toUInt32 <<< 8) ||| b'.toUInt32, false, rdb) := by
  rw [rdbLoadLen.eq_def]
  dsimp only
  rw [h, if_neg (by decide), if_neg (by decide), if_pos rfl]

theorem rdbLoadLen_32bit (b₀ b₁ b₂ b₃ : UInt8) {len : UInt32}
    (hlen : (b₀.toUInt32 <<< 24) ||| (b₁.toUInt32 <<< 16) ||| (b₂.toUInt32 <<< 8) |||
      b₃.toUInt32 = len) (h : len ≠ 0xFFFFFFFF) :
    rdbLoadLen (0x80 :: b₀ :: b₁ :: b₂ :: b₃ :: rdb) = some (len, false, rdb) := by
  rw [rdbLoadLen.eq_def]
  dsimp only
  rw [if_neg (by decide), if_neg (by decide), if_neg (by decide), hlen, if_neg h]

end Lengths

theorem toNat_shiftLeft_byte (b : UInt8) {k : UInt32} (hk : k.toNat ≤ 24) :
    (b.toUInt32 <<< k).toNat = b.toNat <<< k.toNat := by
  have hb := b.toNat_lt
  have hle : b.toNat * 2 ^ k.toNat < 2 ^ 32 := by
    calc b.toNat * 2 ^ k.toNat ≤ b.toNat * 2 ^ 24 :=
          Nat.mul_le_mul_left _ (Nat.pow_le_pow_right (by decide) hk)
      _ < 2 ^ 32 := by omega
  rw [UInt32.toNat_shiftLeft, toNat_toUInt32, shiftLeft_eq, shiftLeft_eq,
    mod_eq_of_lt (by omega : k.toNat < 32), mod_eq_of_lt hle]

theorem toNat_or_four :
    ((b₀.toUInt32 <<< 24) ||| (b₁.toUInt32 <<< 16) ||| (b₂.toUInt32 <<< 8) ||| b₃.toUInt32).toNat =
      b₃.toNat + 256 * b₂.toNat + 2 ^ 16 * b₁.toNat + 2 ^ 24 * b₀.toNat := by
  have h24 : (b₀.toUInt32 <<< 24).toNat = b₀.toNat <<< 24 := toNat_shiftLeft_byte b₀ (by decide)
  have h16 : (b₁.toUInt32 <<< 16).toNat = b₁.toNat <<< 16 := toNat_shiftLeft_byte b₁ (by decide)
  have h8 : (b₂.toUInt32 <<< 8).toNat = b₂.toNat <<< 8 := toNat_shiftLeft_byte b₂ (by decide)
  rw [UInt32.toNat_or, UInt32.toNat_or, UInt32.toNat_or, h24, h16, h8, toNat_toUInt32,
    ← or_four, Nat.or_comm _ b₃.toNat, Nat.or_comm _ (b₂.toNat <<< 8),
    Nat.or_comm (b₀.toNat <<< 24), Nat.or_assoc, Nat.or_assoc]

theorem rdbLoadLen_rdbSaveLen {len : UInt32} (h : len ≠ 0xFFFFFFFF) (rest : Bytes) :
    rdbLoadLen (rdbSaveLen len ++ rest) = some (len, false, rest) := by
  have hlt := len.toNat_lt
  have hbyte : len.toUInt8 = ofNat len.toNat := rfl
  rw [rdbSaveLen]
  split
  next hlen =>
    have hsmall : len.toNat < 64 := UInt32.lt_iff_toNat_lt.mp hlen
    obtain ⟨htype, hmask, -⟩ := six_bits len.toNat hsmall
    have hback : len.toUInt8.toUInt32 = len := by
      apply UInt32.toNat_inj.mp
      simp
      omega
    rw [← hbyte] at htype hmask
    exact (rdbLoadLen_6bit _ rest htype).trans (by rw [hmask, hback])
  split
  next hlen =>
    have hsmall : len.toNat < 16384 := UInt32.lt_iff_toNat_lt.mp hlen
    have hhigh : (len >>> 8).toUInt8 = ofNat (len.toNat / 256) := by
      apply UInt8.toNat_inj.mp
      simp [shiftRight_eq_div_pow]
    obtain ⟨-, -, htype, hmask⟩ := six_bits (len.toNat / 256) (by omega)
    rw [← hhigh] at htype hmask
    have hback : (len >>> 8).toUInt8.toUInt32 <<< 8 ||| len.toUInt8.toUInt32 = len := by
      apply UInt32.toNat_inj.mp
      rw [UInt32.toNat_or, toNat_shiftLeft_byte _ (by decide), Nat.or_comm, toNat_toUInt32]
      simp only [UInt32.reduceToNat]
      rw [or_two, hhigh]
      simp
      omega
    exact (rdbLoadLen_14bit _ rest _ htype).trans (by rw [hmask, hback])
  next hlen =>
    refine rdbLoadLen_32bit rest _ _ _ _ ?_ h
    apply UInt32.toNat_inj.mp
    rw [toNat_or_four]
    simp [shiftRight_eq_div_pow]
    omega

/-! ## Integers -/

section Integers

variable {v : Int64} {encode : Bool} (rest : Bytes)

variable (lzf : Lzf)

theorem loadString_int8 (b₀ : UInt8) :
    rdbGenericLoadStringObject lzf encode (0xC0 :: b₀ :: rest) =
      some (integerObject encode ((b₀.toNat : Int).bmod (2 ^ 8)), rest) := rfl

theorem loadString_int16 (b₀ b₁ : UInt8) :
    rdbGenericLoadStringObject lzf encode (0xC1 :: b₀ :: b₁ :: rest) =
      some (integerObject encode (((b₀.toNat ||| b₁.toNat <<< 8 : Nat) : Int).bmod (2 ^ 16)), rest) :=
  rfl

theorem loadString_int32 (b₀ b₁ b₂ b₃ : UInt8) :
    rdbGenericLoadStringObject lzf encode (0xC2 :: b₀ :: b₁ :: b₂ :: b₃ :: rest) =
      some (integerObject encode
        (((b₀.toNat ||| b₁.toNat <<< 8 ||| b₂.toNat <<< 16 ||| b₃.toNat <<< 24 : Nat) : Int).bmod
          (2 ^ 32)), rest) :=
  rfl

/-- What `rdbEncodeInteger` writes, if it writes anything, is an encoding type and an integer that
is read back. -/
theorem loadString_rdbEncodeInteger (h : rdbEncodeInteger v ≠ []) :
    rdbGenericLoadStringObject lzf encode (rdbEncodeInteger v ++ rest) =
      some (integerObject encode v.toInt, rest) := by
  have h₀ := toNat_lowByte v.toInt
  have h₁ := toNat_lowByte_shift v.toInt 8
  have h₂ := toNat_lowByte_shift v.toInt 16
  have h₃ := toNat_lowByte_shift v.toInt 24
  rw [rdbEncodeInteger] at h ⊢
  split
  next h8 =>
    have hval : ((lowByte v.toInt).toNat : Int).bmod (2 ^ 8) = v.toInt :=
      bmod_of_low h₀ (by omega) (by omega)
    exact (loadString_int8 rest lzf _).trans (by rw [hval])
  next h8 =>
  split
  next h16 =>
    have hval : (((lowByte v.toInt).toNat ||| (lowByte (v.toInt >>> (8 : Nat))).toNat <<< 8 : Nat) : Int).bmod
        (2 ^ 16) = v.toInt :=
      bmod_of_low (by rw [or_two]; omega) (by omega) (by omega)
    exact (loadString_int16 rest lzf _ _).trans (by rw [hval])
  next h16 =>
  split
  next h32 =>
    have hval : (((lowByte v.toInt).toNat ||| (lowByte (v.toInt >>> (8 : Nat))).toNat <<< 8 |||
        (lowByte (v.toInt >>> (16 : Nat))).toNat <<< 16 ||| (lowByte (v.toInt >>> (24 : Nat))).toNat <<< 24 : Nat) :
        Int).bmod (2 ^ 32) = v.toInt :=
      bmod_of_low (by rw [or_four]; omega) (by omega) (by omega)
    exact (loadString_int32 rest lzf _ _ _ _).trans (by rw [hval])
  next h32 =>
    rw [if_neg h8, if_neg h16, if_neg h32] at h
    exact absurd rfl h

theorem bytes_integerObject (encode : Bool) (v : Int64) :
    (integerObject encode v.toInt).bytes = canonical v.toInt := by
  rw [integerObject]
  split
  · rw [bytes_createStringObjectFromLongLong v.le_toInt v.toInt_lt, ll2string_eq_canonical]
  · exact ll2string_eq_canonical v

/-! ## The decimal form -/

/-- `strtoll` of a sign and the digits of a number. -/
theorem strtoll_decimal {s : Bytes} {negative : Bool} {n : Nat}
    (h : readSign (s.dropWhile isspace) = (negative, decimal n)) :
    strtoll s =
      (Int64.ofInt (if negative then max (-2 ^ 63) (-n) else min (2 ^ 63 - 1) n), []) := by
  have hdigits : ∀ b ∈ decimal n, 48 ≤ b ∧ b ≤ 57 := fun b hb => digit_of_mem_decimal hb
  have hrest : (decimal n).dropWhile (fun b => 48 ≤ b && b ≤ 57) = [] := by
    rw [dropWhile_eq_nil_iff]
    simpa using hdigits
  have hlength : ¬ ([] : Bytes).length = (decimal n).length := fun hlen =>
    decimal_ne_nil n (eq_nil_of_length_eq_zero hlen.symm)
  rw [strtoll, h]
  dsimp only
  rw [hrest, if_neg hlength, Aof.digitsValue_digits hdigits, foldl_decimal]

theorem strtoll_canonical (v : Int64) : strtoll (canonical v.toInt) = (v, []) := by
  have hlo := v.le_toInt
  have hhi := v.toInt_lt
  rw [canonical]
  split
  next hneg =>
    rw [strtoll_decimal (show readSign _ = (true, _) from rfl), if_pos rfl, max_eq_right (by omega),
      show (-(v.toInt.natAbs : Int)) = v.toInt by omega, Int64.ofInt_toInt]
  next hpos =>
    have hsign : readSign ((decimal v.toInt.natAbs).dropWhile isspace) =
        (false, decimal v.toInt.natAbs) := by
      cases hdec : decimal v.toInt.natAbs with
      | nil => exact absurd hdec (decimal_ne_nil _)
      | cons b t =>
        exact readSign_digit (digit_of_mem_decimal (hdec ▸ mem_cons_self))
    rw [strtoll_decimal hsign, if_neg Bool.false_ne_true, min_eq_right (by omega),
      show (v.toInt.natAbs : Int) = v.toInt by omega, Int64.ofInt_toInt]

theorem rdbTryIntegerEncoding_canonical (v : Int64) :
    rdbTryIntegerEncoding (canonical v.toInt) = rdbEncodeInteger v := by
  rw [rdbTryIntegerEncoding, strtoll_canonical]
  dsimp only
  rw [if_neg (by decide), ll2string_eq_canonical, if_neg (by simp)]

/-- An integer that has an encoding has a decimal form of at most eleven characters. -/
theorem length_canonical_of_encode (h : rdbEncodeInteger v ≠ []) :
    (canonical v.toInt).length ≤ 11 := by
  have hrange : -2 ^ 31 ≤ v.toInt ∧ v.toInt ≤ 2 ^ 31 - 1 := by
    by_contra hout
    rw [rdbEncodeInteger, if_neg (by omega), if_neg (by omega), if_neg hout] at h
    exact h rfl
  have hlog : log 10 v.toInt.natAbs ≤ 9 :=
    Nat.lt_succ_iff.mp (log_lt_of_lt_pow' (by norm_num) (by omega))
  rw [canonical]
  split
  · rw [length_cons, length_decimal]
    omega
  · rw [length_decimal]
    omega

end Integers

/-! ## Strings -/

section Strings

variable (rdbCompression : Bool) (lzf : Lzf)

theorem rdbSaveRawString_canonical (v : Int64) :
    rdbSaveRawString rdbCompression lzf (canonical v.toInt) = rdbSaveLongLongAsStringObject v := by
  have hshort := length_canonical_le v
  rw [rdbSaveRawString, rdbSaveLongLongAsStringObject, ll2string_eq_canonical]
  dsimp only
  rw [if_neg (by omega : ¬ (rdbCompression = true ∧ 20 < (canonical v.toInt).length))]
  by_cases henc : rdbEncodeInteger v = []
  · -- the encoding does not depend on the eleven characters
    have hnone : (if (canonical v.toInt).length ≤ 11 then rdbTryIntegerEncoding (canonical v.toInt)
        else []) = [] := by
      rw [rdbTryIntegerEncoding_canonical, henc, ite_self]
    rw [hnone, henc]
    simp
  · rw [if_pos (length_canonical_of_encode henc), rdbTryIntegerEncoding_canonical, if_pos henc,
      if_pos henc]

theorem loadString_verbatim {s : Bytes} (h : s.length < 2 ^ 32 - 1) (encode : Bool)
    (rest : Bytes) :
    rdbGenericLoadStringObject lzf encode (rdbSaveLen (UInt32.ofNat s.length) ++ s ++ rest) =
      some (.raw s, rest) := by
  have hlen : (UInt32.ofNat s.length).toNat = s.length := UInt32.toNat_ofNat_of_lt' (by
    rw [UInt32.size]
    omega)
  have hne : UInt32.ofNat s.length ≠ 0xFFFFFFFF := by
    intro heq
    rw [heq] at hlen
    simp at hlen
    omega
  have hread : rioRead (s ++ rest) (UInt32.ofNat s.length) = some (s, rest) := by
    rw [rioRead, hlen, length_append, if_pos (by omega), take_left, drop_left]
  rw [append_assoc, rdbGenericLoadStringObject, rdbLoadLen_rdbSaveLen hne]
  dsimp only
  rw [hread]
  rfl

theorem loadString_rdbSaveLongLong (v : Int64) (encode : Bool) (rest : Bytes) :
    ∃ o, rdbGenericLoadStringObject lzf encode (rdbSaveLongLongAsStringObject v ++ rest) =
      some (o, rest) ∧ o.bytes = canonical v.toInt := by
  rw [rdbSaveLongLongAsStringObject]
  dsimp only
  split
  next henc =>
    exact ⟨_, loadString_rdbEncodeInteger rest lzf henc, bytes_integerObject encode v⟩
  next =>
    have hshort := length_canonical_le v
    rw [ll2string_eq_canonical]
    exact ⟨_, loadString_verbatim lzf (by omega) encode rest, rfl⟩

end Strings

/-- A string object in `INT` encoding is written byte for byte as a raw one with the decimal form
of its integer, and both are read back as that decimal form. -/
theorem string_encoders_agree (v : Int64) (rdbCompression : Bool) (lzf : Lzf) :
    rdbSaveStringObject rdbCompression lzf (.int v) =
        rdbSaveStringObject rdbCompression lzf (.raw (canonical v.toInt)) ∧
      ∀ encode rest, ∃ o, rdbGenericLoadStringObject lzf encode
        (rdbSaveStringObject rdbCompression lzf (.int v) ++ rest) = some (o, rest) ∧
          o.bytes = canonical v.toInt :=
  ⟨(rdbSaveRawString_canonical rdbCompression lzf v).symm,
    fun encode rest => loadString_rdbSaveLongLong lzf v encode rest⟩

end Redis.Rdb
