import Redis.Hyperloglog.Add

/-!
# Redis.Hyperloglog.Walk

The functions that walk over all registers of a HyperLogLog: `hllMerge` and the sums of
`hllCount`.  They are followed on every string that passes `isHLLObjectOrReply`, which looks at
the header and at the length of a dense one, and not at the opcodes.
-/

namespace Redis

open Bytes List

/-- `isHLLObjectOrReply`, for a string object. -/
def isHLLObject (s : Sds) : Bool :=
  s.len ≥ hllHdrSize && s.buf.take 4 == hllMagic &&
    match s.buf[hllEncodingOffset]? with
    | none => false
    | some encoding =>
      decide (encoding ≤ hllSparse) && (encoding != hllDense || s.len == hllDenseSize)

/-! ## Merging -/

/-- `max[i]` becomes the maximum with `val`. -/
def hllMaxRegister (max : List Nat) (i val : Nat) : Option (List Nat) := do
  let old ← max[i]?
  return if val > old then max.set i val else max

/-- The loop of `hllMerge` over the registers of a dense HyperLogLog. -/
def hllMergeDense (s : Sds) : Nat → Nat → List Nat → Option (List Nat)
  | 0, _, max => some max
  | n + 1, i, max => do
    let val ← hllDenseGetRegister (s.buf.drop hllHdrSize) i
    let max ← hllMaxRegister max i val
    hllMergeDense s n (i + 1) max

/-- The inner loop of `hllMerge` for a `VAL`.  `i` is an `int`. -/
def hllMergeRun (regval : Nat) : Nat → List Nat → Nat → Option (List Nat)
  | 0, max, _ => some max
  | runlen + 1, max, i => do
    let max ← hllMaxRegister max (i % 2 ^ 32) regval
    hllMergeRun regval runlen max (i + 1)

/-- The loop of `hllMerge` over the opcodes. -/
def hllMergeLoop (s : Sds) : Nat → Nat → List Nat → Nat → Option (List Nat × Nat)
  | 0, _, _, _ => none
  | fuel + 1, p, max, i =>
    if p < s.len then do
      let b ← s.buf[p]?
      if hllSparseIsZero b then hllMergeLoop s fuel (p + 1) max (i + hllSparseZeroLen b)
      else if hllSparseIsXzero b then do
        let b' ← s.buf[p + 1]?
        hllMergeLoop s fuel (p + 2) max (i + hllSparseXzeroLen b b')
      else do
        let max ← hllMergeRun (hllSparseValValue b) (hllSparseValLen b) max i
        hllMergeLoop s fuel (p + 1) max (i + hllSparseValLen b)
    else some (max, i)

/-- `hllMerge`; the inner `none` is `REDIS_ERR`. -/
def hllMerge (max : List Nat) (s : Sds) : Option (Option (List Nat)) := do
  let encoding ← s.buf[hllEncodingOffset]?
  if encoding = hllDense then do
    let max ← hllMergeDense s hllRegisters 0 max
    return some max
  else do
    let r ← hllMergeLoop s (s.len + 1) hllHdrSize max 0
    return if r.2 % 2 ^ 32 ≠ hllRegisters then none else some r.1

/-! ## Counting -/

/-- Four registers of `hllDenseSum`, from three bytes; an iteration handles four such groups. -/
def hllDenseGroup (b0 b1 b2 : UInt8) : List Nat :=
  [b0.toNat &&& 63, (b0.toNat >>> 6 ||| b1.toNat <<< 2) &&& 63,
    (b1.toNat >>> 4 ||| b2.toNat <<< 4) &&& 63, b2.toNat >>> 2 &&& 63]

/-- The loop of `hllDenseSum`: the registers it adds up. -/
def hllDenseSum (registers : Bytes) : Nat → Option (List Nat)
  | 0 => some []
  | n + 1 => do
    let b0 ← registers[0]?
    let b1 ← registers[1]?
    let b2 ← registers[2]?
    let rest ← hllDenseSum (registers.drop 3) n
    return hllDenseGroup b0 b1 b2 ++ rest

/-- The loop of `hllSparseSum`: the registers it adds up, and their number `idx`. -/
def hllSparseSumLoop (s : Sds) : Nat → Nat → List Nat → Nat → Option (List Nat × Nat)
  | 0, _, _, _ => none
  | fuel + 1, p, regs, idx =>
    if p < s.len then do
      let b ← s.buf[p]?
      if hllSparseIsZero b then
        hllSparseSumLoop s fuel (p + 1) (regs ++ replicate (hllSparseZeroLen b) 0)
          (idx + hllSparseZeroLen b)
      else if hllSparseIsXzero b then do
        let b' ← s.buf[p + 1]?
        hllSparseSumLoop s fuel (p + 2) (regs ++ replicate (hllSparseXzeroLen b b') 0)
          (idx + hllSparseXzeroLen b b')
      else
        hllSparseSumLoop s fuel (p + 1)
          (regs ++ replicate (hllSparseValLen b) (hllSparseValValue b))
          (idx + hllSparseValLen b)
    else some (regs, idx)

/-- `hllSparseSum`: the registers, and `*invalid`. -/
def hllSparseSum (s : Sds) : Option (List Nat × Bool) := do
  let r ← hllSparseSumLoop s (s.len + 1) hllHdrSize [] 0
  return (r.1, decide (r.2 % 2 ^ 32 ≠ hllRegisters))

/-- `hllRawSum`: eight registers are one word. -/
def hllRawSum : Nat → List Nat → List Nat
  | 0, _ => []
  | n + 1, registers =>
    let word := registers.take 8
    (if word.all (· == 0) then replicate 8 0 else word) ++ hllRawSum n (registers.drop 8)

/-- `hllCount` of a string: the cardinality that `card` gives for the registers, and
`*invalid`. -/
def hllCount (card : List Nat → UInt64) (s : Sds) : Option (UInt64 × Bool) := do
  let encoding ← s.buf[hllEncodingOffset]?
  if encoding = hllDense then do
    let regs ← hllDenseSum (s.buf.drop hllHdrSize) (hllRegisters / 4)
    return (card regs, false)
  else do
    let r ← hllSparseSum s
    return (card r.1, r.2)

/-- `hllCount` with the encoding `HLL_RAW`. -/
def hllCountRaw (card : List Nat → UInt64) (registers : List Nat) : UInt64 :=
  card (hllRawSum (hllRegisters / 8) registers)

/-! ## The opcodes of any bytes -/

/-- The opcode of a byte that is not an `XZERO`. -/
def HllOp.ofByte (b : UInt8) : HllOp :=
  if hllSparseIsZero b then .zero ⟨b.toNat % 64, Nat.mod_lt _ (by decide)⟩
  else .val ⟨b.toNat / 4 % 32, Nat.mod_lt _ (by decide)⟩ ⟨b.toNat % 4, Nat.mod_lt _ (by decide)⟩

/-- The `XZERO` of two bytes. -/
def HllOp.ofBytes (b b' : UInt8) : HllOp :=
  .xzero ⟨b.toNat % 64 * 256 + b'.toNat, by have := b'.toNat_lt; omega⟩

/-- The opcodes of some bytes; the second byte of an `XZERO` at the end is the terminator of the
string.  The flag says that there is such an opcode. -/
@[grind =]
def hllOpcodes : Bytes → List HllOp × Bool
  | [] => ([], false)
  | b :: bs =>
    if hllSparseIsXzero b then
      match bs with
      | [] => ([HllOp.ofBytes b 0], true)
      | b' :: bs => (HllOp.ofBytes b b' :: (hllOpcodes bs).1, (hllOpcodes bs).2)
    else (HllOp.ofByte b :: (hllOpcodes bs).1, (hllOpcodes bs).2)

theorem HllOp.bytes_ofByte {b : UInt8} (h : hllSparseIsXzero b = false) :
    (HllOp.ofByte b).bytes = [b] := by
  have hall : ∀ n : Fin 256, hllSparseIsXzero (UInt8.ofNat n) = false →
      (HllOp.ofByte (UInt8.ofNat n)).bytes = [UInt8.ofNat n] := by decide +kernel
  have hb := hall ⟨b.toNat, b.toNat_lt⟩
  simp only [UInt8.ofNat_toNat] at hb
  exact hb h

theorem HllOp.bytes_ofBytes {b b' : UInt8} (h : hllSparseIsXzero b = true) :
    (HllOp.ofBytes b b').bytes = [b, b'] := by
  have hhead : ∀ n : Fin 256, hllSparseIsXzero (UInt8.ofNat n) = true →
      UInt8.ofNat ((n : Nat) % 64) ||| 0x40 = UInt8.ofNat n := by decide +kernel
  have hb := hhead ⟨b.toNat, b.toNat_lt⟩
  simp only [UInt8.ofNat_toNat] at hb
  have hlt := b'.toNat_lt
  have hhigh : (b.toNat % 64 * 256 + b'.toNat) >>> 8 = b.toNat % 64 := by
    rw [Nat.shiftRight_eq_div_pow]
    omega
  have hlow : (b.toNat % 64 * 256 + b'.toNat) &&& 0xff = b'.toNat := by
    rw [show (0xff : Nat) = 2 ^ 8 - 1 from rfl, Nat.and_two_pow_sub_one_eq_mod]
    omega
  simp only [HllOp.ofBytes, HllOp.bytes, hllSparseXzeroSet, Nat.add_sub_cancel, hhigh, hlow, hb h,
    UInt8.ofNat_toNat]

theorem hllOpcodes_byte {b : UInt8} (h : ¬hllSparseIsXzero b = true) (bs : Bytes) :
    hllOpcodes (b :: bs) = (HllOp.ofByte b :: (hllOpcodes bs).1, (hllOpcodes bs).2) := by
  rw [hllOpcodes.eq_def]
  simp only [h, Bool.false_eq_true, if_false]

/-- The bytes of the opcodes are the bytes read. -/
theorem opsBytes_hllOpcodes (bs : Bytes) :
    opsBytes (hllOpcodes bs).1 = bs ++ (if (hllOpcodes bs).2 then [0] else []) := by
  induction bs using hllOpcodes.induct with
  | case1 => rfl
  | case2 b h =>
    simp [hllOpcodes, h, HllOp.bytes_ofBytes h]
  | case3 b h b' bs ih =>
    rw [hllOpcodes, if_pos h, opsBytes_cons, HllOp.bytes_ofBytes h, ih]
    rfl
  | case4 b bs h ih =>
    have hb : hllSparseIsXzero b = false := by simpa using h
    rw [hllOpcodes_byte h, opsBytes_cons, HllOp.bytes_ofByte hb, ih]
    rfl

/-- The opcode that takes the terminator is the last one. -/
theorem hllOpcodes_cut {bs : Bytes} (h : (hllOpcodes bs).2 = true) :
    ∃ l b, (hllOpcodes bs).1 = l ++ [HllOp.ofBytes b 0] ∧ hllSparseIsXzero b = true := by
  induction bs using hllOpcodes.induct with
  | case1 => cases h
  | case2 b hb => exact ⟨[], b, by simp [hllOpcodes, hb], hb⟩
  | case3 b hb b' bs ih =>
    rw [hllOpcodes, if_pos hb] at h ⊢
    obtain ⟨l, c, hl, hc⟩ := ih h
    exact ⟨HllOp.ofBytes b b' :: l, c, by simp [hl], hc⟩
  | case4 b bs hb ih =>
    rw [hllOpcodes_byte hb] at h ⊢
    obtain ⟨l, c, hl, hc⟩ := ih h
    exact ⟨HllOp.ofByte b :: l, c, by simp [hl], hc⟩

/-! ## Strings of opcodes -/

/-- The bytes of a string, behind the header. -/
def Sds.hllData (s : Sds) : Bytes := (s.buf.drop hllHdrSize).take (s.len - hllHdrSize)

/-- The null byte behind a string. -/
def Sds.Terminated (s : Sds) : Prop := s.buf[s.len]? = some 0

/-- Every string that is longer than a header holds opcodes. -/
theorem hllText_hllOpcodes {s : Sds} (hterm : s.Terminated) (hlen : hllHdrSize ≤ s.len) :
    HllText s (s.buf.take hllHdrSize) (hllOpcodes s.hllData).1 (hllOpcodes s.hllData).2 := by
  have hsize := s.size
  have hhdr : (s.buf.take hllHdrSize).length = hllHdrSize := by
    rw [length_take]
    omega
  have hdata : s.hllData.length = s.len - hllHdrSize := by
    rw [Sds.hllData, length_take, length_drop]
    omega
  have hbuf : s.buf = s.buf.take hllHdrSize ++ (s.hllData ++ s.buf.drop s.len) := by
    have hdrop : s.buf.drop s.len = (s.buf.drop hllHdrSize).drop (s.len - hllHdrSize) := by
      rw [drop_drop]
      congr 1
      omega
    rw [hdrop, Sds.hllData, take_append_drop, take_append_drop]
  obtain ⟨t, ht⟩ : ∃ t, s.buf.drop s.len = 0 :: t := by
    obtain ⟨hlt, hget⟩ := List.getElem?_eq_some_iff.mp hterm
    exact ⟨_, by rw [← getElem_cons_drop hlt, hget]⟩
  have hbytes := opsBytes_hllOpcodes s.hllData
  cases hcut : (hllOpcodes s.hllData).2 with
  | false =>
    rw [hcut] at hbytes
    simp only [Bool.false_eq_true, if_false, append_nil] at hbytes
    exact ⟨⟨s.buf.drop s.len, by rw [hbytes]; exact hbuf⟩,
      by rw [hbytes, hhdr, hdata]; simp; omega, fun h => by cases h⟩
  | true =>
    rw [hcut] at hbytes
    simp only [if_true] at hbytes
    refine ⟨⟨t, ?_⟩, ?_, ?_⟩
    · rw [hbytes, append_assoc s.hllData]
      rw [ht] at hbuf
      exact hbuf
    · rw [hbytes, hhdr, length_append, hdata]
      simp
      omega
    · intro _
      obtain ⟨l, b, hl, _⟩ := hllOpcodes_cut hcut
      exact ⟨l, _, hl⟩

/-! ## The walks as folds over the opcodes -/

theorem hllMergeLoop_text {s : Sds} {hdr : Bytes} {cut : Bool} :
    ∀ (fuel : Nat) {l r : List HllOp} {p : Nat} (max : List Nat) (i : Nat),
      HllText s hdr (l ++ r) cut → p = hdr.length + (opsBytes l).length → r.length < fuel →
      hllMergeLoop s fuel p max i = r.foldlM (runStep hllMergeRun) (max, i) :=
  walk_text fun _ _ _ _ => rfl

theorem hllSparseSumLoop_text {s : Sds} {hdr : Bytes} {cut : Bool} :
    ∀ (fuel : Nat) {l r : List HllOp} {p : Nat} (regs : List Nat) (idx : Nat),
      HllText s hdr (l ++ r) cut → p = hdr.length + (opsBytes l).length → r.length < fuel →
      hllSparseSumLoop s fuel p regs idx = some (regs ++ opsRegs r, idx + (opsRegs r).length)
  | 0, _, _, _, _, _, _, _, hfuel => by omega
  | fuel + 1, l, [], p, regs, idx, h, hp, _ => by
    rw [append_nil] at h
    rw [hllSparseSumLoop, if_neg (h.stop hp)]
    simp
  | fuel + 1, l, o :: r, p, regs, idx, h, hp, hfuel => by
    have hrec (n : Nat) (hn : o.bytes.length = n) :
        hllSparseSumLoop s fuel (p + n) (regs ++ o.regs) (idx + o.span) =
          some (regs ++ opsRegs (o :: r), idx + (opsRegs (o :: r)).length) := by
      rw [hllSparseSumLoop_text fuel (regs ++ o.regs) _ h.snoc
        (by rw [length_opsBytes_snoc, hp, hn]) (by simpa using hfuel)]
      simp [Nat.add_assoc]
    obtain ⟨hlt, b, hb, hkind⟩ := h.read hp
    rw [hllSparseSumLoop, if_pos hlt, hb, Option.bind_eq_bind, Option.bind_some]
    rcases hkind with ⟨hzero, _, _, hsize, hspan, hvalue, _⟩ |
      ⟨hzero, hxzero, _, hsize, ⟨b', hb', hspan⟩, hvalue, _⟩ |
      ⟨hzero, hxzero, _, hsize, hspan, hvalue, _⟩
    · rw [if_pos hzero, hspan, ← hrec 1 hsize, HllOp.regs, hvalue]
    · rw [if_neg (by simp [hzero]), if_pos hxzero, hb', Option.bind_some, hspan,
        ← hrec 2 hsize, HllOp.regs, hvalue]
    · rw [if_neg (by simp [hzero]), if_neg (by simp [hxzero]), hspan, hvalue, ← hrec 1 hsize,
        HllOp.regs]

theorem length_opsRegs (ops : List HllOp) : (opsRegs ops).length = (ops.map HllOp.span).sum := by
  induction ops with
  | nil => rfl
  | cons o ops ih => rw [opsRegs_cons, length_append, HllOp.length_regs, ih, map_cons,
      sum_cons]

theorem hllSparseSum_eq {s : Sds} {hdr : Bytes} {ops : List HllOp} {cut : Bool}
    (h : HllText s hdr ops cut) (hheader : HllHeader hdr hllSparse) :
    hllSparseSum s = some (opsRegs ops,
      decide ((ops.map HllOp.span).sum % 2 ^ 32 ≠ hllRegisters)) := by
  rw [hllSparseSum, hllSparseSumLoop_text (l := []) (s.len + 1) [] 0 h (HllText.start hheader)
    h.length_lt, ← length_opsRegs]
  simp

end Redis
