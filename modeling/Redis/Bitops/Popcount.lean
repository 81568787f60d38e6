import Redis.Bitops
import Redis.Strings.Setrange

/-!
# Redis.Bitops.Popcount

`BITCOUNT` counts the bits of exactly the bytes that `GETRANGE` returns.
-/

namespace Redis.Bitops

open Keyspace List Nat Int64
open Lanes (and_parts shiftRight_and_parts)
open Bytes (leNat)
open Replication (Robj)
open Strings (Types checkType checkType_error getLongFromObjectOrReply getLongLongFromObjectOrReply getrangeCommand
  getrangeIndexes)

/-! ## Bits -/

/-- The number of one bits of a byte. -/
def ones (b : UInt8) : Nat := (List.range 8).countP b.toNat.testBit

/-- The number of one bits of a string. -/
def onesOf (s : Bytes) : Nat := (s.map ones).sum

variable (addr bits : Nat) (s : Bytes)

theorem onesOf_append (t : Bytes) : onesOf (s ++ t) = onesOf s + onesOf t := by
  rw [onesOf, map_append, List.sum_append, onesOf, onesOf]

theorem map_ones : (List.range 256).map (fun n => ones (UInt8.ofNat n)) = bitsinbyte.toList := by
  decide +kernel

variable {endArg startArg : Robj} {end_ start : Int64} {m t : Nat} {w : UInt32} (b : UInt8)

theorem bitsinbyte_eq : bitsinbyte.getD b.toNat 0 = ones b := by
  rw [Array.getD_eq_getD_getElem?, ← Array.getElem?_toList, ← map_ones, getElem?_map,
    getElem?_range b.toNat_lt, Option.map_some, UInt8.ofNat_toNat, Option.getD_some]

/-! ## The bytes of a word -/

/-- Two bits at a time, in a byte. -/
def pairCounts (n : Nat) : Nat := n - (n >>> 1 &&& 0x55)

/-- Four bits at a time, in a byte. -/
def nibbleCounts (n : Nat) : Nat := (pairCounts n &&& 0x33) + (pairCounts n >>> 2 &&& 0x33)

theorem byte_steps : ∀ n < 256, n >>> 1 &&& 0x55 ≤ n ∧ pairCounts n < 256 ∧ nibbleCounts n ≤ 68 ∧
    nibbleCounts n % 16 ≤ 4 ∧ (nibbleCounts n + nibbleCounts n / 16) % 16 = ones (UInt8.ofNat n) := by
  decide +kernel

/-- Four bytes as a number. -/
def lanes (f : UInt8 → Nat) (b₀ b₁ b₂ b₃ : UInt8) : Nat :=
  f b₀ + 256 * (f b₁ + 256 * (f b₂ + 256 * f b₃))

section Word

variable (b₀ b₁ b₂ b₃ : UInt8)

variable {c : Nat} {f : UInt8 → Nat}

theorem lanes_le {m : Nat} (h : ∀ b, f b ≤ m) : lanes f b₀ b₁ b₂ b₃ ≤ m * 0x01010101 := by
  have h₀ := h b₀
  have h₁ := h b₁
  have h₂ := h b₂
  have h₃ := h b₃
  rw [lanes]
  omega

theorem leNat_four : leNat [b₀, b₁, b₂, b₃] = lanes UInt8.toNat b₀ b₁ b₂ b₃ := by
  simp only [leNat, lanes, Nat.mul_zero, Nat.add_zero]

/-- A shift and a mask work on each byte. -/
theorem lanes_shiftRight_and (hf : ∀ b, f b < 256) {k : Nat} (hk : k ≤ 8) (hc : c < 2 ^ (8 - k)) :
    lanes f b₀ b₁ b₂ b₃ >>> k &&& c * 0x01010101 =
      lanes (fun b => f b >>> k &&& c) b₀ b₁ b₂ b₃ := by
  have hmask : c * 0x01010101 = c + 256 * (c + 256 * (c + 256 * c)) := by omega
  rw [hmask, lanes, shiftRight_and_parts (hf b₀) hk hc, shiftRight_and_parts (hf b₁) hk hc,
    shiftRight_and_parts (hf b₂) hk hc, lanes]

theorem lanes_and (hf : ∀ b, f b < 256) (hc : c < 256) :
    lanes f b₀ b₁ b₂ b₃ &&& c * 0x01010101 = lanes (fun b => f b &&& c) b₀ b₁ b₂ b₃ :=
  lanes_shiftRight_and b₀ b₁ b₂ b₃ hf (Nat.zero_le 8) hc

theorem lanes_pairs :
    lanes UInt8.toNat b₀ b₁ b₂ b₃ - lanes (fun b => b.toNat >>> 1 &&& 0x55) b₀ b₁ b₂ b₃ =
      lanes (fun b => pairCounts b.toNat) b₀ b₁ b₂ b₃ := by
  have hle (b : UInt8) := (byte_steps b.toNat b.toNat_lt).1
  have h₀ := hle b₀
  have h₁ := hle b₁
  have h₂ := hle b₂
  have h₃ := hle b₃
  rw [lanes, lanes, lanes, pairCounts, pairCounts, pairCounts, pairCounts]
  omega

theorem lanes_nibbles :
    lanes (fun b => pairCounts b.toNat &&& 0x33) b₀ b₁ b₂ b₃ +
        lanes (fun b => pairCounts b.toNat >>> 2 &&& 0x33) b₀ b₁ b₂ b₃ =
      lanes (fun b => nibbleCounts b.toNat) b₀ b₁ b₂ b₃ := by
  rw [lanes, lanes, lanes, nibbleCounts, nibbleCounts, nibbleCounts, nibbleCounts]
  omega

/-- The last step adds the two halves of each byte, and masks what it gets from the next one. -/
theorem lanes_bytes :
    lanes (fun b => nibbleCounts b.toNat) b₀ b₁ b₂ b₃ +
        lanes (fun b => nibbleCounts b.toNat) b₀ b₁ b₂ b₃ / 16 &&& 0x0F0F0F0F =
      lanes ones b₀ b₁ b₂ b₃ := by
  have hbyte (b : UInt8) := (byte_steps b.toNat b.toNat_lt).2.2
  have hones (b : UInt8) : (nibbleCounts b.toNat + nibbleCounts b.toNat / 16) % 16 = ones b := by
    rw [(hbyte b).2.2, UInt8.ofNat_toNat]
  obtain ⟨h₀, h₀', -⟩ := hbyte b₀
  obtain ⟨h₁, h₁', -⟩ := hbyte b₁
  obtain ⟨h₂, h₂', -⟩ := hbyte b₂
  obtain ⟨h₃, h₃', -⟩ := hbyte b₃
  simp only [lanes, ← hones]
  generalize nibbleCounts b₀.toNat = n₀ at *
  generalize nibbleCounts b₁.toNat = n₁ at *
  generalize nibbleCounts b₂.toNat = n₂ at *
  generalize nibbleCounts b₃.toNat = n₃ at *
  have hsum : n₀ + 256 * (n₁ + 256 * (n₂ + 256 * n₃)) +
      (n₀ + 256 * (n₁ + 256 * (n₂ + 256 * n₃))) / 16 =
        (n₀ + n₀ / 16 + 16 * (n₁ % 16)) + 256 * ((n₁ + n₁ / 16 + 16 * (n₂ % 16)) +
          256 * ((n₂ + n₂ / 16 + 16 * (n₃ % 16)) + 256 * (n₃ + n₃ / 16))) := by
    omega
  have hlow (n : Nat) : n &&& 15 = n % 16 := and_two_pow_sub_one_eq_mod n 4
  rw [hsum, show 0x0F0F0F0F = 15 + 256 * (15 + 256 * (15 + 256 * 15)) from rfl,
    and_parts (by omega) (by decide), and_parts (by omega) (by decide),
    and_parts (by omega) (by decide), hlow, hlow, hlow, hlow, add_mul_mod_self_left,
    add_mul_mod_self_left, add_mul_mod_self_left]

end Word

/-- A word becomes the row of the numbers of one bits of its bytes. -/
theorem toNat_popcountAux (b₀ b₁ b₂ b₃ : UInt8) :
    (popcountAux (UInt32.ofNat (leNat [b₀, b₁, b₂, b₃]))).toNat = lanes ones b₀ b₁ b₂ b₃ := by
  have hbyte (b : UInt8) := byte_steps b.toNat b.toNat_lt
  have hword := lanes_le b₀ b₁ b₂ b₃ fun b => le_of_lt_succ b.toNat_lt
  have hpairs := lanes_le b₀ b₁ b₂ b₃ fun b => le_of_lt_succ (hbyte b).2.1
  have hnibbles := lanes_le b₀ b₁ b₂ b₃ fun b => (hbyte b).2.2.1
  have hx : (UInt32.ofNat (leNat [b₀, b₁, b₂, b₃])).toNat = lanes UInt8.toNat b₀ b₁ b₂ b₃ := by
    rw [leNat_four, UInt32.toNat_ofNat', mod_eq_of_lt (by omega)]
  generalize UInt32.ofNat (leNat [b₀, b₁, b₂, b₃]) = x at hx ⊢
  rw [popcountAux]
  have h1 : ((x >>> 1) &&& (0x55555555 : UInt32)).toNat =
      lanes (fun b => b.toNat >>> 1 &&& 0x55) b₀ b₁ b₂ b₃ := by
    rw [UInt32.toNat_and, UInt32.toNat_shiftRight, hx]
    exact lanes_shiftRight_and b₀ b₁ b₂ b₃ (fun b => b.toNat_lt) (k := 1) (c := 0x55) (by decide)
      (by decide)
  have hle : lanes (fun b => b.toNat >>> 1 &&& 0x55) b₀ b₁ b₂ b₃ ≤
      lanes UInt8.toNat b₀ b₁ b₂ b₃ := by
    have h₀ := (hbyte b₀).1
    have h₁ := (hbyte b₁).1
    have h₂ := (hbyte b₂).1
    have h₃ := (hbyte b₃).1
    rw [lanes, lanes]
    omega
  have hy : (x - ((x >>> 1) &&& (0x55555555 : UInt32))).toNat =
      lanes (fun b => pairCounts b.toNat) b₀ b₁ b₂ b₃ := by
    rw [UInt32.toNat_sub_of_le _ _ (by rw [UInt32.le_iff_toNat_le, h1, hx]; exact hle), h1, hx,
      lanes_pairs]
  generalize x - ((x >>> 1) &&& (0x55555555 : UInt32)) = y at hy ⊢
  have h2 : (y &&& (0x33333333 : UInt32)).toNat =
      lanes (fun b => pairCounts b.toNat &&& 0x33) b₀ b₁ b₂ b₃ := by
    rw [UInt32.toNat_and, hy]
    exact lanes_and b₀ b₁ b₂ b₃ (fun b => (hbyte b).2.1) (c := 0x33) (by decide)
  have h3 : ((y >>> 2) &&& (0x33333333 : UInt32)).toNat =
      lanes (fun b => pairCounts b.toNat >>> 2 &&& 0x33) b₀ b₁ b₂ b₃ := by
    rw [UInt32.toNat_and, UInt32.toNat_shiftRight, hy]
    exact lanes_shiftRight_and b₀ b₁ b₂ b₃ (fun b => (hbyte b).2.1) (k := 2) (c := 0x33) (by decide)
      (by decide)
  have hz : ((y &&& (0x33333333 : UInt32)) + ((y >>> 2) &&& (0x33333333 : UInt32))).toNat =
      lanes (fun b => nibbleCounts b.toNat) b₀ b₁ b₂ b₃ := by
    rw [UInt32.toNat_add, h2, h3, lanes_nibbles, mod_eq_of_lt (by omega)]
  generalize (y &&& (0x33333333 : UInt32)) + ((y >>> 2) &&& (0x33333333 : UInt32)) = z at hz ⊢
  have hshift : (z >>> 4).toNat = z.toNat / 16 := by
    rw [UInt32.toNat_shiftRight]
    exact shiftRight_eq_div_pow _ _
  rw [UInt32.toNat_and, UInt32.toNat_add, hshift, hz, mod_eq_of_lt (by omega)]
  exact lanes_bytes b₀ b₁ b₂ b₃

/-! ## Blocks -/

/-- A word holds four numbers up to a bound, whose sum is `total`. -/
def Counts (w : UInt32) (bound total : Nat) : Prop :=
  ∃ n₀ n₁ n₂ n₃, n₀ ≤ bound ∧ n₁ ≤ bound ∧ n₂ ≤ bound ∧ n₃ ≤ bound ∧
    w.toNat = n₀ + 256 * (n₁ + 256 * (n₂ + 256 * n₃)) ∧ n₀ + n₁ + n₂ + n₃ = total

theorem ones_le : ones b ≤ 8 := by
  rw [ones]
  exact countP_le_length

theorem counts_popcountAux {l : Bytes} (h : l.length = 4) :
    Counts (popcountAux (UInt32.ofNat (leNat l))) 8 (onesOf l) := by
  match l, h with
  | [b₀, b₁, b₂, b₃], _ =>
    refine ⟨ones b₀, ones b₁, ones b₂, ones b₃, ones_le _, ones_le _, ones_le _, ones_le _,
      toNat_popcountAux b₀ b₁ b₂ b₃, ?_⟩
    simp only [onesOf, map_cons, map_nil, sum_cons, sum_nil]
    omega

theorem Counts.add {w' : UInt32} {m' t' : Nat} (h : Counts w m t) (h' : Counts w' m' t')
    (hm : m + m' ≤ 255) : Counts (w + w') (m + m') (t + t') := by
  obtain ⟨n₀, n₁, n₂, n₃, h₀, h₁, h₂, h₃, hw, ht⟩ := h
  obtain ⟨n₀', n₁', n₂', n₃', h₀', h₁', h₂', h₃', hw', ht'⟩ := h'
  refine ⟨n₀ + n₀', n₁ + n₁', n₂ + n₂', n₃ + n₃', by omega, by omega, by omega, by omega, ?_,
    by omega⟩
  rw [UInt32.toNat_add, hw, hw', mod_eq_of_lt (by omega)]
  omega

/-- The multiplication adds the four numbers in the high byte. -/
theorem Counts.total (h : Counts w m t) (hm : 4 * m ≤ 255) :
    ((w * 0x01010101) >>> 24).toNat = t := by
  obtain ⟨n₀, n₁, n₂, n₃, h₀, h₁, h₂, h₃, hw, ht⟩ := h
  have hshift : ((w * 0x01010101) >>> 24).toNat = (w * 0x01010101).toNat / 2 ^ 24 := by
    rw [UInt32.toNat_shiftRight]
    exact shiftRight_eq_div_pow _ _
  have hmul : (w * 0x01010101).toNat = w.toNat * 0x01010101 % 2 ^ 32 := UInt32.toNat_mul _ _
  -- what is below the high byte, and what is above the word
  obtain ⟨low, hlow⟩ : ∃ low, low = n₀ + 256 * (n₀ + n₁) + 65536 * (n₀ + n₁ + n₂) := ⟨_, rfl⟩
  obtain ⟨high, hhigh⟩ : ∃ high, high = n₁ + n₂ + n₃ + 256 * (n₂ + n₃) + 65536 * n₃ := ⟨_, rfl⟩
  have hproduct : (n₀ + 256 * (n₁ + 256 * (n₂ + 256 * n₃))) * 0x01010101 =
      low + 2 ^ 24 * t + 2 ^ 32 * high := by
    omega
  have hlt : low < 2 ^ 24 := by omega
  have htotal : t < 2 ^ 8 := by omega
  rw [hshift, hmul, hw, hproduct]
  clear hproduct hlow hhigh hw hmul hshift
  omega

theorem onesOf_take_drop (l : Bytes) (n : Nat) :
    onesOf (l.take n) + onesOf (l.drop n) = onesOf l := by
  rw [← onesOf_append, take_append_drop]

theorem popcountBlock_eq {p : Bytes} (h : p.length = 28) :
    (popcountBlock p).toNat = onesOf p := by
  have haux : ∀ i < 7, Counts (popcountAux (UInt32.ofNat (leNat ((p.drop (4 * i)).take 4)))) 8
      (onesOf ((p.drop (4 * i)).take 4)) := fun i hi =>
    counts_popcountAux (by rw [length_take, length_drop]; omega)
  have hsum := ((((((haux 0 (by decide)).add (haux 1 (by decide)) (by decide)).add
    (haux 2 (by decide)) (by decide)).add (haux 3 (by decide)) (by decide)).add
    (haux 4 (by decide)) (by decide)).add (haux 5 (by decide)) (by decide)).add
    (haux 6 (by decide)) (by decide)
  rw [popcountBlock]
  refine (hsum.total (by decide)).trans ?_
  have hsplit (n : Nat) : onesOf ((p.drop n).take 4) + onesOf (p.drop (n + 4)) = onesOf (p.drop n) := by
    rw [← onesOf_take_drop (p.drop n) 4, drop_drop]
  have hend : onesOf (p.drop 28) = 0 := by
    rw [drop_eq_nil_of_le (Nat.le_of_eq h)]
    rfl
  have h0 := hsplit 0
  have h4 := hsplit 4
  have h8 := hsplit 8
  have h12 := hsplit 12
  have h16 := hsplit 16
  have h20 := hsplit 20
  have h24 := hsplit 24
  simp only [Nat.mul_zero, drop_zero, Nat.zero_add, Nat.reduceAdd, Nat.reduceMul] at *
  omega

/-! ## The loops -/

theorem popcountAlign_eq :
    (popcountAlign addr bits s).1 + onesOf (popcountAlign addr bits s).2 = bits + onesOf s := by
  induction s generalizing addr bits with
  | nil => rfl
  | cons b p ih =>
    rw [popcountAlign]
    split
    · rw [ih, bitsinbyte_eq, Nat.add_assoc]
      rfl
    · rfl

theorem popcountBlocks_eq :
    (popcountBlocks bits s).1 + onesOf (popcountBlocks bits s).2 = bits + onesOf s := by
  fun_induction popcountBlocks bits s with
  | case1 bits p hlen ih =>
    rw [ih, popcountBlock_eq (by rw [length_take]; omega), Nat.add_assoc, onesOf_take_drop]
  | case2 bits p hlen => rfl

theorem foldl_bitsinbyte :
    s.foldl (fun bits b => bits + bitsinbyte.getD b.toNat 0) bits = bits + onesOf s := by
  induction s generalizing bits with
  | nil => rfl
  | cons b p ih =>
    rw [foldl_cons, ih, bitsinbyte_eq, Nat.add_assoc]
    rfl

/-- `redisPopcount` counts the bits, at any address. -/
theorem redisPopcount_eq : redisPopcount addr s = onesOf s := by
  have halign := popcountAlign_eq addr 0 s
  have hblocks := popcountBlocks_eq (popcountAlign addr 0 s).1 (popcountAlign addr 0 s).2
  rw [redisPopcount]
  dsimp only
  rw [foldl_bitsinbyte]
  omega

/-! ## Indexes -/

theorem toInt_ofNat_of_lt {n : Nat} (h : n < 2 ^ 63) : (ofNat n).toInt = n :=
  Int64.toInt_ofNat_of_lt h

/-- Both commands use the same indexes. -/
theorem getrangeIndexes_eq {strlen : Nat} (h : strlen < 2 ^ 63) (start end_ : Int64) :
    getrangeIndexes strlen start end_ = bitIndexes strlen start end_ := by
  rw [getrangeIndexes, bitIndexes]
  generalize (if end_ < 0 then ofNat strlen + end_ else end_) = e
  have hclip : 0 ≤ (if e < 0 then 0 else e).toInt := by
    split
    next => decide
    next hneg => exact Int.not_lt.mp fun hlt => hneg (lt_iff_toInt_lt.mpr hlt)
  generalize (if e < 0 then 0 else e) = e' at hclip
  have htest : strlen ≤ e'.toUInt64.toNat ↔ ofNat strlen ≤ e' := by
    rw [Strings.toNat_offset hclip, le_iff_toInt_le, toInt_ofNat_of_lt h]
    omega
  simp only [htest]

/-- The end is before the start where the string is empty. -/
theorem bitIndexes_empty (start end_ : Int64) :
    (bitIndexes 0 start end_).2 < (bitIndexes 0 start end_).1 := by
  rw [bitIndexes]
  dsimp only
  generalize (if end_ < 0 then ofNat 0 + end_ else end_) = e
  generalize (if start < 0 then ofNat 0 + start else start) = b
  have hclip (x : Int64) : (0 : Int64) ≤ if x < 0 then 0 else x := by
    split
    next => exact Int64.le_refl 0
    next hneg => exact Int64.not_lt.mp hneg
  have hzero : ofNat 0 = 0 := rfl
  rw [hzero, if_pos (hclip e)]
  exact Int64.lt_of_lt_of_le (by decide) (hclip b)

/-! ## `BITCOUNT` -/

/-- The reply of `BITCOUNT` for a reply of `GETRANGE`. -/
def countReply : Keyspace.Reply → Keyspace.Reply
  | .bulk bytes => .integer (onesOf bytes)
  | reply => reply

variable {V : Type} {env : Env} {types : Types V} {d : Nat} {key : Key}

/-- What `GETRANGE` replies for an object. -/
def getrangeReply (start end_ : Int64) : Except Keyspace.Reply (Option Robj) → Keyspace.Reply
  | .error reply => reply
  | .ok none => .bulk []
  | .ok (some o) =>
    let range := getrangeIndexes o.bytes.length start end_
    if range.2 < range.1 ∨ o.bytes.length = 0 then .bulk []
    else .bulk ((o.bytes.drop range.1.toUInt64.toNat).take
      (range.2 - range.1 + 1).toUInt64.toNat)

theorem getrangeCommand_runs
    (hstart : getLongLongFromObjectOrReply (some startArg) none = .ok start)
    (hend : getLongLongFromObjectOrReply (some endArg) none = .ok end_) (E : Dataset V) :
    Runs (Sees env) (getrangeCommand env types d key startArg endArg) E
      (getrangeReply start end_ (checkType types.string ((E d key).map Prod.fst))) E := by
  have hlookup : Runs (Shows env) (lookupKeyRead env d key) ⟨E, ∅⟩ ((E d key).map Prod.fst)
      (View.touch ⟨E, ∅⟩ d key) := lookupKeyRead_shows
  rw [getrangeCommand, hstart, hend]
  refine runs_sees_to (View.touch ⟨E, ∅⟩ d key) (hlookup.bind ?_) rfl
  cases checkType types.string ((E d key).map Prod.fst) with
  | error reply => exact Runs.pure _ _
  | ok so =>
    cases so with
    | none => exact Runs.pure _ _
    | some o =>
      rw [getrangeReply]
      dsimp only
      split
      · exact Runs.pure _ _
      · exact Runs.pure _ _

theorem bitcountCommand_runs
    (hstart : getLongLongFromObjectOrReply (some startArg) none = .ok start)
    (hend : getLongLongFromObjectOrReply (some endArg) none = .ok end_) {E : Dataset V}
    (hlen : ∀ o, checkType types.string ((E d key).map Prod.fst) = .ok (some o) →
      o.bytes.length < 2 ^ 63) :
    Runs (Sees env) (bitcountCommand env types d addr key [startArg, endArg]) E
      (countReply (getrangeReply start end_ (checkType types.string ((E d key).map Prod.fst)))) E := by
  have hlookup : Runs (Shows env) (lookupKeyRead env d key) ⟨E, ∅⟩ ((E d key).map Prod.fst)
      (View.touch ⟨E, ∅⟩ d key) := lookupKeyRead_shows
  rw [bitcountCommand]
  refine runs_sees_to (View.touch ⟨E, ∅⟩ d key) (hlookup.bind ?_) rfl
  cases hcheck : checkType types.string ((E d key).map Prod.fst) with
  | error reply =>
    obtain ⟨text, rfl⟩ := checkType_error hcheck
    exact Runs.pure _ _
  | ok so =>
    cases so with
    | none => exact Runs.pure _ _
    | some o =>
      have hrange : bitcountRange o.bytes.length [startArg, endArg] =
          .ok (bitIndexes o.bytes.length start end_) := by
        rw [bitcountRange, getLongFromObjectOrReply, getLongFromObjectOrReply, hstart, hend]
      rw [getrangeReply, getrangeIndexes_eq (hlen o hcheck)]
      dsimp only
      rw [hrange]
      dsimp only
      by_cases hempty : (bitIndexes o.bytes.length start end_).2 <
          (bitIndexes o.bytes.length start end_).1
      · rw [if_pos hempty, if_pos (.inl hempty)]
        exact Runs.pure _ _
      · have hlength : ¬ o.bytes.length = 0 := fun hzero =>
          hempty (hzero ▸ bitIndexes_empty start end_)
        rw [if_neg hempty, if_neg (not_or.mpr ⟨hempty, hlength⟩), redisPopcount_eq]
        exact Runs.pure _ _

/-- `BITCOUNT` replies the number of one bits in exactly the bytes that `GETRANGE` replies, wherever
the string is in memory. -/
theorem bitcount_counts_getrange {V : Type} {env : Env} {types : Types V} {d : Nat} {key : Key}
    {s : Server V} {E : Dataset V} (hs : Sees env s E) (addr : Nat) {startArg endArg : Robj}
    {start end_ : Int64}
    (hstart : getLongLongFromObjectOrReply (some startArg) none = .ok start)
    (hend : getLongLongFromObjectOrReply (some endArg) none = .ok end_)
    (hlen : ∀ o, checkType types.string ((E d key).map Prod.fst) = .ok (some o) →
      o.bytes.length ≤ Strings.maxStringLength) :
    ∃ reply s₁ s₂, (getrangeCommand env types d key startArg endArg).run s = some (reply, s₁) ∧
      (bitcountCommand env types d addr key [startArg, endArg]).run s = some (countReply reply, s₂) ∧
      Sees env s₁ E ∧ Sees env s₂ E := by
  obtain ⟨s₁, hrun₁, hs₁⟩ := getrangeCommand_runs hstart hend E s hs
  obtain ⟨s₂, hrun₂, hs₂⟩ := bitcountCommand_runs addr hstart hend
    (fun o ho => lt_of_le_of_lt (hlen o ho) (by decide)) s hs
  exact ⟨_, s₁, s₂, hrun₁, hrun₂, hs₁, hs₂⟩

/-- The whole of the string `foobar`, at an odd address. -/
theorem bitcount_counts_getrange_foobar :
    ∃ reply s₁ s₂,
      (getrangeCommand Strings.plainEnv Strings.valueTypes 0 [97] (.int 0) (.int (-1))).run
        (Strings.oneKeyServer [97] (.string (.raw [102, 111, 111, 98, 97, 114]))) =
          some (reply, s₁) ∧
      (bitcountCommand Strings.plainEnv Strings.valueTypes 0 4097 [97] [.int 0, .int (-1)]).run
        (Strings.oneKeyServer [97] (.string (.raw [102, 111, 111, 98, 97, 114]))) =
          some (countReply reply, s₂) ∧
      Sees Strings.plainEnv s₁ (Dataset.set (fun _ _ => none) 0 [97]
        (some (.string (.raw [102, 111, 111, 98, 97, 114]), none))) ∧
      Sees Strings.plainEnv s₂ (Dataset.set (fun _ _ => none) 0 [97]
        (some (.string (.raw [102, 111, 111, 98, 97, 114]), none))) :=
  bitcount_counts_getrange (Strings.oneKeyServer_sees [97] _) 4097 rfl rfl fun o ho => by
    rw [Dataset.set_same] at ho
    obtain rfl := Option.some.inj (Except.ok.inj ho)
    decide

end Redis.Bitops
