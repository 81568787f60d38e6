import Redis.Hyperloglog

/-!
# Redis.Hyperloglog.Sparse

The sparse representation as a list of opcodes, and the steps of
`hllSparseAdd` on it: finding the opcode of a register, splitting it, putting
the new opcodes in its place and merging equal neighbours.
-/

namespace Redis

open Bytes List Option

/-! ## Opcodes -/

/-- An opcode.  The fields hold what the bits of the opcode hold, a length or a
value less one. -/
inductive HllOp where
  | zero (len : Fin 64)
  | xzero (len : Fin 16384)
  | val (value : Fin 32) (len : Fin 4)
deriving DecidableEq, Repr

namespace HllOp

/-- The number of registers an opcode covers. -/
def span : HllOp → Nat
  | zero len => len + 1
  | xzero len => len + 1
  | val _ len => len + 1

/-- The value of these registers. -/
def value : HllOp → Nat
  | zero _ => 0
  | xzero _ => 0
  | val value _ => value + 1

def regs (o : HllOp) : List Nat := replicate o.span o.value

def bytes : HllOp → Bytes
  | zero len => hllSparseZeroSet (len + 1)
  | xzero len => hllSparseXzeroSet (len + 1)
  | val value len => [hllSparseValSet (value + 1) (len + 1)]

variable (o : HllOp)

@[simp] theorem length_regs : o.regs.length = o.span := by
  simp [regs]

theorem span_pos : 0 < o.span := by
  cases o <;> simp [span]

theorem value_le : o.value ≤ 32 := by
  cases o with
  | zero len => simp [value]
  | xzero len => simp [value]
  | val v len => exact v.isLt

theorem length_bytes_pos : 0 < o.bytes.length := by
  cases o <;> simp [bytes, hllSparseZeroSet, hllSparseXzeroSet]

end HllOp

/-- The bytes of a list of opcodes. -/
def opsBytes (ops : List HllOp) : Bytes := ops.flatMap HllOp.bytes

/-- The registers a list of opcodes stands for. -/
def opsRegs (ops : List HllOp) : List Nat := ops.flatMap HllOp.regs

@[simp] theorem opsBytes_nil : opsBytes [] = [] := rfl

@[simp] theorem opsBytes_cons (o : HllOp) (ops : List HllOp) :
    opsBytes (o :: ops) = o.bytes ++ opsBytes ops := rfl

variable {index len n : Nat} (a b : List HllOp)

@[simp] theorem opsBytes_append :
    opsBytes (a ++ b) = opsBytes a ++ opsBytes b := flatMap_append

@[simp] theorem opsRegs_nil : opsRegs [] = [] := rfl

@[simp] theorem opsRegs_cons (o : HllOp) (ops : List HllOp) :
    opsRegs (o :: ops) = o.regs ++ opsRegs ops := rfl

@[simp] theorem opsRegs_append :
    opsRegs (a ++ b) = opsRegs a ++ opsRegs b := flatMap_append

theorem length_le_opsBytes (ops : List HllOp) : ops.length ≤ (opsBytes ops).length := by
  induction ops with
  | nil => simp
  | cons o ops ih =>
    have := o.length_bytes_pos
    simp only [length_cons, opsBytes_cons, length_append]
    omega

theorem opsRegs_getElem? {l r : List HllOp} {o : HllOp} (hle : (opsRegs l).length ≤ index)
    (hlt : index < (opsRegs l).length + o.span) :
    (opsRegs (l ++ o :: r))[index]? = some o.value := by
  have hin : index - (opsRegs l).length < o.span := by omega
  rw [opsRegs_append, opsRegs_cons, getElem?_append_right hle,
    getElem?_append_left (by simpa using hin), HllOp.regs, getElem?_replicate,
    if_pos hin]

theorem opsRegs_set {l r : List HllOp} {o : HllOp} (v : Nat) (hle : (opsRegs l).length ≤ index)
    (hlt : index < (opsRegs l).length + o.span) :
    (opsRegs (l ++ o :: r)).set index v =
      opsRegs l ++ (o.regs.set (index - (opsRegs l).length) v ++ opsRegs r) := by
  rw [opsRegs_append, opsRegs_cons, set_append_right _ _ hle,
    set_append_left _ _ (by rw [HllOp.length_regs]; omega)]

/-! ## Reading an opcode back -/

theorem zeroByte_spec (len : Fin 64) :
    hllSparseIsZero (UInt8.ofNat len) = true ∧ hllSparseIsXzero (UInt8.ofNat len) = false ∧
      hllSparseIsVal (UInt8.ofNat len) = false ∧ hllSparseZeroLen (UInt8.ofNat len) = len + 1 := by
  revert len
  decide

theorem xzeroByte_spec (high : Fin 64) :
    hllSparseIsZero (UInt8.ofNat high ||| 0x40) = false ∧
      hllSparseIsXzero (UInt8.ofNat high ||| 0x40) = true ∧
      hllSparseIsVal (UInt8.ofNat high ||| 0x40) = false ∧
      ((UInt8.ofNat high ||| 0x40) &&& 0x3f).toNat = high := by
  revert high
  decide

theorem valByte_spec (value : Fin 32) (len : Fin 4) :
    hllSparseIsZero (hllSparseValSet (value + 1) (len + 1)) = false ∧
      hllSparseIsXzero (hllSparseValSet (value + 1) (len + 1)) = false ∧
      hllSparseIsVal (hllSparseValSet (value + 1) (len + 1)) = true ∧
      hllSparseValValue (hllSparseValSet (value + 1) (len + 1)) = value + 1 ∧
      hllSparseValLen (hllSparseValSet (value + 1) (len + 1)) = len + 1 := by
  revert value len
  decide

theorem xzero_bytes_eq (len : Fin 16384) : ∃ b b' : UInt8,
    (HllOp.xzero len).bytes = [b, b'] ∧ hllSparseIsZero b = false ∧ hllSparseIsXzero b = true ∧
      hllSparseIsVal b = false ∧ hllSparseXzeroLen b b' = len + 1 := by
  have hlt := len.isLt
  have hhigh : (len : Nat) >>> 8 < 64 := by
    rw [Nat.shiftRight_eq_div_pow]
    omega
  obtain ⟨hzero, hxzero, hval, hbits⟩ := xzeroByte_spec ⟨_, hhigh⟩
  have hlow : (UInt8.ofNat ((len : Nat) &&& 0xff)).toNat = len % 256 := by
    rw [show (0xff : Nat) = 2 ^ 8 - 1 from rfl, Nat.and_two_pow_sub_one_eq_mod]
    simp
  refine ⟨_, _, rfl, hzero, hxzero, hval, ?_⟩
  simp only [Nat.add_sub_cancel] at hbits ⊢
  rw [hllSparseXzeroLen, hbits, hlow,
    ← Nat.shiftLeft_add_eq_or_of_lt (Nat.mod_lt _ (by decide) : len % 256 < 2 ^ 8),
    Nat.shiftLeft_eq, Nat.shiftRight_eq_div_pow]
  omega

/-- The first byte of an opcode tells its kind. -/
theorem HllOp.head_spec (o : HllOp) : ∃ b rest, o.bytes = b :: rest ∧
    ((hllSparseIsZero b = true ∧ hllSparseIsXzero b = false ∧ hllSparseIsVal b = false ∧
        rest = [] ∧ hllSparseZeroLen b = o.span ∧ o.value = 0 ∧ o.span ≤ 64) ∨
      (hllSparseIsZero b = false ∧ hllSparseIsXzero b = true ∧ hllSparseIsVal b = false ∧
        (∃ b', rest = [b'] ∧ hllSparseXzeroLen b b' = o.span) ∧ o.value = 0 ∧ o.span ≤ 16384) ∨
      (hllSparseIsZero b = false ∧ hllSparseIsXzero b = false ∧ hllSparseIsVal b = true ∧
        rest = [] ∧ hllSparseValLen b = o.span ∧ hllSparseValValue b = o.value ∧
        ∃ v n, o = .val v n)) := by
  cases o with
  | zero len =>
    obtain ⟨hzero, hxzero, hval, hlen⟩ := zeroByte_spec len
    exact ⟨_, [], rfl, .inl ⟨hzero, hxzero, hval, rfl, hlen, rfl, len.isLt⟩⟩
  | xzero len =>
    obtain ⟨b, b', hbytes, hzero, hxzero, hval, hlen⟩ := xzero_bytes_eq len
    exact ⟨b, [b'], hbytes, .inr (.inl ⟨hzero, hxzero, hval, ⟨b', rfl, hlen⟩, rfl, len.isLt⟩)⟩
  | val v n =>
    obtain ⟨hzero, hxzero, hval, hvalue, hlen⟩ := valByte_spec v n
    exact ⟨_, [], rfl, .inr (.inr ⟨hzero, hxzero, hval, rfl, hlen, hvalue, v, n, rfl⟩)⟩

/-- The size `hllSparseAdd` takes an opcode to have. -/
theorem hllSparseSpan_eq {buf pre : Bytes} (o : HllOp) (t : Bytes)
    (hbuf : buf = pre ++ (o.bytes ++ t)) :
    hllSparseSpan buf pre.length = some (o.span, o.bytes.length) := by
  obtain ⟨b, rest, hbytes, hkind⟩ := o.head_spec
  have hb : buf[pre.length]? = some b := by
    rw [hbuf, hbytes]
    exact getElem?_append_length b _ rfl
  rw [hllSparseSpan, hb, some_bind]
  rcases hkind with ⟨hzero, _, _, hrest, hlen, _⟩ | ⟨hzero, _, hval, ⟨b', hrest, hlen⟩, _⟩ |
    ⟨hzero, _, hval, hrest, hlen, _⟩
  · simp [hzero, hlen, hbytes, hrest]
  · have hb' : buf[pre.length + 1]? = some b' := by
      rw [hbuf, hbytes, hrest]
      simp
    simp [hzero, hval, hb', hlen, hbytes, hrest]
  · simp [hzero, hval, hlen, hbytes, hrest]

/-! ## A string that holds opcodes -/

/-- The string `s` holds the header `hdr` and the opcodes `ops`. -/
structure HllLayout (s : Sds) (hdr : Bytes) (ops : List HllOp) : Prop where
  buf : ∃ t, s.buf = hdr ++ (opsBytes ops ++ 0 :: t)
  len : s.len = hdr.length + (opsBytes ops).length

namespace HllLayout

variable {s : Sds} {hdr : Bytes} {ops l r : List HllOp} {o : HllOp}

theorem makeRoom (fill : Nat → UInt8) (n : Nat) (h : HllLayout s hdr ops) :
    HllLayout (sdsMakeRoomFor fill s n) hdr ops := by
  obtain ⟨hlen, _, t, hbuf⟩ := sdsMakeRoomFor_spec fill s n
  obtain ⟨t', hbuf'⟩ := h.buf
  exact ⟨⟨t' ++ t, by rw [hbuf, hbuf']; simp⟩, by rw [hlen, h.len]⟩

theorem length_lt (h : HllLayout s hdr ops) : ops.length < s.len + 1 := by
  have := length_le_opsBytes ops
  rw [h.len]
  omega

theorem buf_at (h : HllLayout s hdr (l ++ o :: r)) :
    ∃ t, s.buf = (hdr ++ opsBytes l) ++ (o.bytes ++ (opsBytes r ++ 0 :: t)) := by
  obtain ⟨t, ht⟩ := h.buf
  exact ⟨t, by rw [ht]; simp⟩

end HllLayout

/-! ## Finding the opcode of a register -/

/-- `pos` is at the opcode behind `l`. -/
structure HllPos.At (pos : HllPos) (hdr : Bytes) (l : List HllOp) : Prop where
  p : pos.p = hdr.length + (opsBytes l).length
  first : pos.first = (opsRegs l).length
  prev : ∃ a b, l = a ++ b ∧ pos.prev.getD hdr.length = hdr.length + (opsBytes a).length

theorem hllSparseLocate_spec {s : Sds} {hdr : Bytes} :
    ∀ (fuel : Nat) {pos : HllPos} {l r : List HllOp}, HllLayout s hdr (l ++ r) → pos.At hdr l →
      (opsRegs l).length ≤ index → index < (opsRegs (l ++ r)).length → r.length < fuel →
      ∃ pos' l' o r', l ++ r = l' ++ o :: r' ∧ hllSparseLocate s index fuel pos = some pos' ∧
        pos'.At hdr l' ∧ pos'.span = o.span ∧ (opsRegs l').length ≤ index ∧
        index < (opsRegs l').length + o.span
  | 0, _, _, _, _, _, _, _, hfuel => by omega
  | fuel + 1, pos, l, [], _, _, hle, hlt, _ => by
    rw [append_nil] at hlt
    omega
  | fuel + 1, pos, l, o :: r, h, hpos, hle, hlt, hfuel => by
    have hbytes := o.length_bytes_pos
    have hspan := o.span_pos
    obtain ⟨t, hbuf⟩ := h.buf_at
    have hp : pos.p = (hdr ++ opsBytes l).length := by rw [hpos.p, length_append]
    have hlen : pos.p < s.len := by
      rw [h.len, hpos.p]
      simp only [opsBytes_append, opsBytes_cons, length_append]
      omega
    have hread := hllSparseSpan_eq o _ hbuf
    rw [hllSparseLocate, if_pos hlen, hp, hread, some_bind]
    by_cases hin : index ≤ pos.first + o.span - 1
    · rw [if_pos hin]
      have hfirst := hpos.first
      exact ⟨_, l, o, r, rfl, rfl, ⟨length_append, hpos.first, hpos.prev⟩, rfl, hle, by omega⟩
    · rw [if_neg hin]
      have hfirst := hpos.first
      have happ : l ++ o :: r = (l ++ [o]) ++ r := by simp
      have hnext : HllPos.At ⟨(hdr ++ opsBytes l).length + o.bytes.length,
          some (hdr ++ opsBytes l).length, pos.first + o.span, o.span⟩ hdr (l ++ [o]) := by
        constructor
        · simp
          omega
        · simp [hfirst]
        · exact ⟨l, [o], rfl, by simp⟩
      rw [happ] at h hlt
      obtain ⟨pos', l', o', r', heq, hrest⟩ := hllSparseLocate_spec fuel h hnext
        (by simp; omega) hlt (by simpa using hfuel)
      exact ⟨pos', l', o', r', happ.trans heq, hrest⟩

/-! ## The new opcodes -/

/-- A run of up to 16384 zeros is one opcode. -/
theorem hllZeroRun_eq (hpos : 0 < len) (hle : len ≤ 16384) :
    ∃ o : HllOp, o.bytes = hllZeroRun len ∧ o.span = len ∧ o.value = 0 ∧
      o.bytes.length ≤ if len ≤ 64 then 1 else 2 := by
  rw [hllZeroRun]
  have hadd : len - 1 + 1 = len := by omega
  split
  next h =>
    refine ⟨.xzero ⟨len - 1, by omega⟩, ?_, ?_, rfl, ?_⟩
    · simp only [HllOp.bytes, hadd]
    · simp only [HllOp.span, hadd]
    · have hlt : ¬len ≤ 64 := not_le.mpr h
      rw [if_neg hlt]
      simp [HllOp.bytes, hllSparseXzeroSet]
  next h =>
    have hlt : len - 1 < 64 := by
      rw [hllSparseZeroMaxLen] at h
      omega
    refine ⟨.zero ⟨len - 1, hlt⟩, ?_, ?_, rfl, ?_⟩
    · simp only [HllOp.bytes, hadd]
    · simp only [HllOp.span, hadd]
    · rw [if_pos (by omega)]
      simp [HllOp.bytes, hllSparseZeroSet]

/-- A run of up to four registers with one value is one opcode. -/
theorem hllValRun_eq {value : Nat} (hvalue : 0 < value) (hvalue' : value ≤ 32) (hpos : 0 < len)
    (hle : len ≤ 4) :
    ∃ o : HllOp, o.bytes = [hllSparseValSet value len] ∧ o.span = len ∧ o.value = value ∧
      o.bytes.length ≤ 1 := by
  have haddv : value - 1 + 1 = value := by omega
  have haddl : len - 1 + 1 = len := by omega
  refine ⟨.val ⟨value - 1, by omega⟩ ⟨len - 1, by omega⟩, ?_, ?_, ?_, by simp [HllOp.bytes]⟩
  · simp only [HllOp.bytes, haddv, haddl]
  · simp only [HllOp.span, haddl]
  · simp only [HllOp.value, haddv]

/-- Splitting a run: the new opcodes stand for the run with the register
`index` set to `count`.  Each of the two runs left over takes up to `k`
bytes. -/
theorem hllSplit_spec {run : Nat → Bytes} {v k count first : Nat} (hrun : ∀ len, 0 < len → len < n →
      ∃ o : HllOp, o.bytes = run len ∧ o.span = len ∧ o.value = v ∧ o.bytes.length ≤ k)
    (hcount : 0 < count) (hcount' : count ≤ 32) (hfirst : first ≤ index)
    (hlast : index < first + n) :
    ∃ m, opsBytes m = hllSplit run count index first (first + n - 1) ∧
      opsRegs m = (replicate n v).set (index - first) count ∧
      (opsBytes m).length ≤ 2 * k + 1 := by
  obtain ⟨c, hc, hcspan, hcvalue, hclen⟩ := hllValRun_eq hcount hcount' (by decide : 0 < 1)
    (by decide)
  have hpart (len : Nat) (hlen : len < n) (P : Prop) [Decidable P] (hP : P ↔ len ≠ 0) :
      ∃ m, opsBytes m = (if P then run len else []) ∧ opsRegs m = replicate len v ∧
        (opsBytes m).length ≤ k := by
    by_cases hzero : len = 0
    · rw [if_neg (by simpa [hP] using hzero), hzero]
      exact ⟨[], rfl, rfl, by simp⟩
    · rw [if_pos (hP.mpr hzero)]
      obtain ⟨o, hbytes, hspan, hvalue, hle⟩ := hrun len (by omega) hlen
      exact ⟨[o], by simp [hbytes], by simp [HllOp.regs, hspan, hvalue], by simpa using hle⟩
  obtain ⟨a, habytes, haregs, halen⟩ := hpart (index - first) (by omega) (index ≠ first) (by omega)
  obtain ⟨b, hbbytes, hbregs, hblen⟩ := hpart (first + n - 1 - index) (by omega)
    (index ≠ first + n - 1) (by omega)
  refine ⟨a ++ c :: b, ?_, ?_, ?_⟩
  · rw [opsBytes_append, opsBytes_cons, habytes, hbbytes, hc]
    rfl
  · have hsplit : replicate n v = replicate (index - first) v ++
        (v :: replicate (first + n - 1 - index) v) := by
      rw [← replicate_succ, ← replicate_add]
      congr 1
      omega
    rw [opsRegs_append, opsRegs_cons, haregs, hbregs, HllOp.regs, hcspan, hcvalue, hsplit,
      set_append_right _ _ (by simp)]
    simp
  · rw [opsBytes_append, opsBytes_cons]
    simp only [length_append]
    omega

/-! ## Putting them in place -/

/-- Step 3 of `hllSparseAdd`, the move: behind a gap as long as the new
sequence stands what stood behind the old opcode. -/
theorem hllSparseShift_spec {s : Sds} {A ob R t : Bytes}
    (hbuf : s.buf = A ++ (ob ++ (R ++ 0 :: t))) (hlen : s.len = A.length + ob.length + R.length)
    (hfree : n ≤ ob.length + s.free) :
    ∃ s' Y x t', (if (n : Int) - ob.length ≠ 0 ∧ A.length + ob.length < s.len then
          s.move (((A.length + ob.length : Nat) : Int) + ((n : Int) - ob.length)).toNat
            (A.length + ob.length) (s.len - (A.length + ob.length))
        else some s) = some s' ∧ s'.len = s.len ∧
      s'.buf = A ++ (Y ++ (R ++ x :: t')) ∧ Y.length = n := by
  have hsize := s.size
  rw [hbuf] at hsize
  simp only [length_append, length_cons] at hsize
  by_cases hmove : (n : Int) - ob.length ≠ 0 ∧ A.length + ob.length < s.len
  · rw [if_pos hmove]
    have hload : load s.buf (A.length + ob.length) (s.len - (A.length + ob.length)) = some R := by
      rw [hbuf, ← append_assoc A ob]
      exact load_append _ (by simp) (by omega)
    generalize hX : ob ++ (R ++ 0 :: t) = X at hbuf
    have hXlen : X.length = ob.length + R.length + (t.length + 1) := by
      rw [← hX]
      simp only [length_append, length_cons]
      omega
    have hdst : (((A.length + ob.length : Nat) : Int) + ((n : Int) - ob.length)).toNat =
        A.length + n := by omega
    have hstore : Bytes.store s.buf (A.length + n) R =
        some (A ++ (X.take n ++ (R ++ X.drop (n + R.length)))) := by
      rw [hbuf, store_append_right, Bytes.store, if_pos (by omega), map_some]
    obtain ⟨x, t', hdrop⟩ : ∃ x t', X.drop (n + R.length) = x :: t' := by
      refine exists_cons_of_length_pos ?_
      rw [length_drop]
      omega
    rw [hdst]
    obtain ⟨s', hs', hlen', hbuf'⟩ := Sds.move_spec hload hstore
    rw [hdrop] at hbuf'
    exact ⟨s', _, x, t', hs', hlen', hbuf', by rw [length_take]; omega⟩
  · rw [if_neg hmove]
    by_cases hdelta : (n : Int) - ob.length = 0
    · exact ⟨s, ob, 0, t, rfl, rfl, hbuf, by omega⟩
    · -- nothing follows the opcode, so the gap is cut out of the free bytes
      have hR : R = [] := length_eq_zero_iff.mp (by omega)
      subst hR
      obtain ⟨x, t', hdrop⟩ : ∃ x t', (ob ++ ([] ++ 0 :: t)).drop n = x :: t' := by
        refine exists_cons_of_length_pos ?_
        simp only [length_drop, length_append, length_cons, length_nil]
        omega
      refine ⟨s, (ob ++ ([] ++ 0 :: t)).take n, x, t', rfl, rfl, ?_, ?_⟩
      · rw [hbuf, nil_append (x :: t'), ← hdrop, take_append_drop]
      · simp only [length_take, length_append, length_cons, length_nil]
        omega

/-- Step 3 of `hllSparseAdd`. -/
theorem hllSparseSubstitute_spec {s : Sds} {hdr : Bytes} {l r m : List HllOp} {o : HllOp}
    (h : HllLayout s hdr (l ++ o :: r))
    (hfree : (opsBytes m).length ≤ o.bytes.length + s.free) :
    ∃ s', hllSparseSubstitute s (hdr.length + (opsBytes l).length) o.bytes.length (opsBytes m) =
        some s' ∧ HllLayout s' hdr (l ++ m ++ r) := by
  obtain ⟨t, hbuf⟩ := h.buf_at
  have hlen : s.len = (hdr ++ opsBytes l).length + o.bytes.length + (opsBytes r).length := by
    rw [h.len]
    simp only [opsBytes_append, opsBytes_cons, length_append]
    omega
  obtain ⟨s₁, Y, x, t', hs₁, hlen₁, hbuf₁, hY⟩ := hllSparseShift_spec hbuf hlen hfree
  rw [length_append] at hlen hs₁
  have hincr : s₁.buf = ((hdr ++ opsBytes l) ++ (Y ++ opsBytes r)) ++ x :: t' := by
    rw [hbuf₁]
    simp
  obtain ⟨s₂, hs₂, hlen₂, hbuf₂⟩ := sdsIncrLen_eq ((opsBytes m).length - o.bytes.length)
    hincr (by simp only [length_append]; omega)
  have hstore : Bytes.store s₂.buf (hdr.length + (opsBytes l).length) (opsBytes m) =
      some ((hdr ++ opsBytes l) ++ (opsBytes m ++ (opsBytes r ++ 0 :: t'))) := by
    rw [hbuf₂, append_assoc (hdr ++ opsBytes l), append_assoc Y]
    exact store_append _ _ (by simp) hY.symm
  obtain ⟨s₃, hs₃, hlen₃, hbuf₃⟩ := Sds.store_spec hstore
  refine ⟨s₃, ?_, ⟨t', by rw [hbuf₃]; simp⟩, ?_⟩
  · simp only [hllSparseSubstitute, bind_eq_bind]
    rw [hs₁, bind_some, hs₂, bind_some, hs₃]
  · rw [hlen₃, hlen₂]
    simp only [opsBytes_append, length_append]
    omega

/-! ## Merging -/

/-- Two neighbours with one value become one opcode. -/
theorem hllMergeVals_spec {s : Sds} {hdr : Bytes} {a r : List HllOp} {v : Fin 32} {n n' : Fin 4}
    (h : HllLayout s hdr (a ++ .val v n :: .val v n' :: r)) (hle : (n : Nat) + n' + 1 < 4) {p : Nat}
    (hp : p = hdr.length + (opsBytes a).length) :
    ∃ s₁ s₂ s₃, s.store (p + 1) [hllSparseValSet (v + 1) (n + 1 + (n' + 1))] = some s₁ ∧
      s₁.move p (p + 1) (s.len - p) = some s₂ ∧ sdsIncrLen s₂ (-1) = some s₃ ∧
      HllLayout s₃ hdr (a ++ .val v ⟨n + n' + 1, hle⟩ :: r) ∧ s₃.len = s.len - 1 := by
  have hadd : (n : Nat) + n' + 1 + 1 = n + 1 + (n' + 1) := by omega
  obtain ⟨t, hbuf⟩ := h.buf
  have hlen := h.len
  generalize hb : hllSparseValSet (v + 1) (n + 1) = b at *
  generalize hb' : hllSparseValSet (v + 1) (n' + 1) = b' at *
  generalize hc : hllSparseValSet (v + 1) (n + 1 + (n' + 1)) = c at *
  generalize hA : hdr ++ opsBytes a = A at *
  have hAlen : A.length = p := by rw [← hA, length_append, hp]
  simp only [opsBytes_append, opsBytes_cons, HllOp.bytes, hb, hb', length_append,
    length_cons, length_nil] at hbuf hlen
  have hbuf₀ : s.buf = (A ++ [b]) ++ ([b'] ++ (opsBytes r ++ 0 :: t)) := by
    rw [hbuf, ← hA]
    simp
  have hset : Bytes.store s.buf (p + 1) [c] =
      some ((A ++ [b]) ++ ([c] ++ (opsBytes r ++ 0 :: t))) := by
    rw [hbuf₀]
    exact store_append _ _ (by simp [hAlen]) rfl
  obtain ⟨s₁, hs₁, hlen₁, hbuf₁⟩ := Sds.store_spec hset
  have hload : load s₁.buf (p + 1) (s.len - p) = some ([c] ++ (opsBytes r ++ [0])) := by
    have happ : s₁.buf = (A ++ [b]) ++ (([c] ++ (opsBytes r ++ [0])) ++ t) := by
      rw [hbuf₁]
      simp
    rw [happ]
    exact load_append _ (by simp [hAlen]) (by simp; omega)
  have hstore : Bytes.store s₁.buf p ([c] ++ (opsBytes r ++ [0])) =
      some (A ++ (([c] ++ (opsBytes r ++ [0])) ++ 0 :: t)) := by
    have happ : s₁.buf = A ++ (([b] ++ ([c] ++ opsBytes r)) ++ 0 :: t) := by
      rw [hbuf₁]
      simp
    rw [happ]
    exact store_append _ _ hAlen.symm (by simp)
  obtain ⟨s₂, hs₂, hlen₂, hbuf₂⟩ := Sds.move_spec hload hstore
  have hincr : s₂.buf = (A ++ ([c] ++ opsBytes r)) ++ 0 :: (0 :: t) := by
    rw [hbuf₂]
    simp
  obtain ⟨s₃, hs₃, hlen₃, hbuf₃⟩ := sdsIncrLen_eq (-1) hincr (by
    simp only [length_append, length_cons, length_nil]
    omega)
  simp only [length_append, length_cons, length_nil] at hlen₃
  refine ⟨s₁, s₂, s₃, hs₁, hs₂, hs₃, ⟨⟨0 :: t, ?_⟩, ?_⟩, by omega⟩
  · rw [hbuf₃, ← hA]
    simp [HllOp.bytes, hadd, hc]
  · simp only [opsBytes_append, opsBytes_cons, HllOp.bytes, length_append, length_cons,
      length_nil]
    omega

/-- The merge of `hllSparseAdd` keeps the registers. -/
theorem hllSparseMerge_spec {hdr : Bytes} : ∀ (scanlen : Nat) {s : Sds} {a b : List HllOp},
    HllLayout s hdr (a ++ b) →
      ∃ s' ops, hllSparseMerge scanlen s (hdr.length + (opsBytes a).length) s.len = some s' ∧
        HllLayout s' hdr ops ∧ opsRegs ops = opsRegs (a ++ b)
  | 0, s, a, b, h => ⟨s, a ++ b, rfl, h, rfl⟩
  | scanlen + 1, s, a, [], h => by
    have hend : ¬hdr.length + (opsBytes a).length < s.len := by
      rw [h.len, append_nil]
      omega
    exact ⟨s, a ++ [], by rw [hllSparseMerge, if_neg hend], h, rfl⟩
  | scanlen + 1, s, a, o :: r, h => by
    -- the next opcode, when `o` is left as it is
    have hskip {q : Nat} (hq : q = hdr.length + (opsBytes a).length + o.bytes.length) :
        ∃ s' ops, hllSparseMerge scanlen s q s.len = some s' ∧ HllLayout s' hdr ops ∧
          opsRegs ops = opsRegs (a ++ o :: r) := by
      have happ : a ++ o :: r = (a ++ [o]) ++ r := by simp
      rw [happ] at h ⊢
      have hq' : q = hdr.length + (opsBytes (a ++ [o])).length := by
        rw [hq]
        simp [Nat.add_assoc]
      rw [hq']
      exact hllSparseMerge_spec scanlen h
    have hlen := h.len
    simp only [opsBytes_append, opsBytes_cons, length_append] at hlen
    obtain ⟨t, hbuf⟩ := h.buf_at
    obtain ⟨b, rest, hbytes, hkind⟩ := o.head_spec
    have hstart : hdr.length + (opsBytes a).length < s.len := by
      have := o.length_bytes_pos
      omega
    have hb : s.buf[hdr.length + (opsBytes a).length]? = some b := by
      rw [hbuf, hbytes]
      exact getElem?_append_length b _ (by simp)
    rw [hllSparseMerge, if_pos hstart, hb, bind_eq_bind, bind_some]
    rcases hkind with ⟨hzero, hxzero, _, hrest, _⟩ | ⟨_, hxzero, _, ⟨b', hrest, _⟩, _⟩ |
      ⟨hzero, hxzero, _, hrest, hvlen, hvalue, v, n, ho⟩
    · simp only [hxzero, hzero, Bool.false_eq_true, if_false, if_true]
      exact hskip (by simp [hbytes, hrest])
    · simp only [hxzero, if_true]
      exact hskip (by simp [hbytes, hrest])
    · simp only [hxzero, hzero, Bool.false_eq_true, if_false]
      obtain ⟨b', hb'⟩ : ∃ b', s.buf[hdr.length + (opsBytes a).length + 1]? = some b' := by
        refine ⟨_, getElem?_eq_getElem ?_⟩
        rw [s.size]
        omega
      rw [hb', bind_eq_bind, bind_some]
      split
      next hmerge =>
        obtain ⟨hlt, hval', hveq, hle⟩ := hmerge
        cases r with
        | nil =>
          rw [hbytes, hrest] at hlen
          simp at hlen
          omega
        | cons o' r =>
          obtain ⟨c, rest', hbytes', hkind'⟩ := o'.head_spec
          have hbc : b' = c := by
            have happ : s.buf = (hdr ++ opsBytes a ++ [b]) ++
                c :: (rest' ++ (opsBytes r ++ 0 :: t)) := by
              rw [hbuf, hbytes, hrest, opsBytes_cons, hbytes']
              simp
            rw [happ, getElem?_append_length c _ (by simp [Nat.add_assoc])] at hb'
            exact (Option.some.inj hb').symm
          subst hbc
          rcases hkind' with ⟨_, _, hnot, _⟩ | ⟨_, _, hnot, _⟩ |
            ⟨_, _, _, _, hvlen', hvalue', v', n', ho'⟩
          · simp [hnot] at hval'
          · simp [hnot] at hval'
          · subst ho ho'
            simp only [HllOp.span, HllOp.value] at hvlen hvlen' hvalue hvalue'
            rw [hvalue, hvalue'] at hveq
            have hv : v = v' := Fin.ext (by omega)
            subst hv
            rw [hvlen, hvlen', hllSparseValMaxLen] at hle
            obtain ⟨s₁, s₂, s₃, hs₁, hs₂, hs₃, hlayout, hlen₃⟩ :=
              hllMergeVals_spec h (by omega) rfl
            obtain ⟨s', ops, hs', hops, hregs⟩ := hllSparseMerge_spec scanlen hlayout
            refine ⟨s', ops, ?_, hops, ?_⟩
            · rw [hvlen, hvlen', hvalue, hs₁, bind_some, hs₂,
                bind_some, hs₃, bind_some, ← hlen₃, hs']
            · have hsum : (n : Nat) + n' + 1 + 1 = n + 1 + (n' + 1) := by omega
              have hrep : replicate ((n : Nat) + n' + 1 + 1) ((v : Nat) + 1) =
                  replicate (n + 1) ((v : Nat) + 1) ++
                    replicate (n' + 1) ((v : Nat) + 1) := by
                rw [← replicate_add, hsum]
              rw [hregs]
              simp only [opsRegs_append, opsRegs_cons, HllOp.regs, HllOp.span, HllOp.value,
                hrep, append_assoc]
      next => exact hskip (by simp [hbytes, hrest])

/-! ## Walks over the opcodes -/

/-- The opcode gives a value. -/
def HllOp.isVal : HllOp → Bool
  | .val _ _ => true
  | _ => false

/-- The string `s` holds the header `hdr` and the opcodes `ops`; with `cut`, the second byte of
the last one is the terminator. -/
structure HllText (s : Sds) (hdr : Bytes) (ops : List HllOp) (cut : Bool) : Prop where
  buf : ∃ t, s.buf = hdr ++ (opsBytes ops ++ t)
  len : hdr.length + (opsBytes ops).length = s.len + cut.toNat
  last : cut = true → ∃ l n, ops = l ++ [.xzero n]

theorem HllLayout.text {s : Sds} {hdr : Bytes} {ops : List HllOp} (h : HllLayout s hdr ops) :
    HllText s hdr ops false := by
  obtain ⟨t, ht⟩ := h.buf
  exact ⟨⟨0 :: t, ht⟩, by simp [h.len], fun h => by cases h⟩

namespace HllText

variable {s : Sds} {hdr : Bytes} {ops l r : List HllOp} {o : HllOp} {cut : Bool}

theorem makeRoom (fill : Nat → UInt8) (n : Nat) (h : HllText s hdr ops cut) :
    HllText (sdsMakeRoomFor fill s n) hdr ops cut := by
  obtain ⟨hlen, _, t, hbuf⟩ := sdsMakeRoomFor_spec fill s n
  obtain ⟨t', hbuf'⟩ := h.buf
  exact ⟨⟨t' ++ t, by rw [hbuf, hbuf']; simp⟩, by rw [hlen, h.len], h.last⟩

/-- Every opcode begins inside the string. -/
theorem start_lt (h : HllText s hdr (l ++ o :: r) cut) :
    hdr.length + (opsBytes l).length < s.len := by
  have hlen := h.len
  rw [opsBytes_append, opsBytes_cons, length_append, length_append] at hlen
  cases cut with
  | false =>
    have := o.length_bytes_pos
    simp only [Bool.toNat_false] at hlen
    omega
  | true =>
    obtain ⟨l', n, hl'⟩ := h.last rfl
    have htwo : 2 ≤ o.bytes.length + (opsBytes r).length := by
      rcases eq_nil_or_concat r with rfl | ⟨r', o', rfl⟩
      · obtain ⟨_, ho⟩ := append_inj' hl' rfl
        cases ho
        simp [HllOp.bytes, hllSparseXzeroSet]
      · have hl'' : (l ++ o :: r') ++ [o'] = l' ++ [.xzero n] := by simpa using hl'
        obtain ⟨_, ho⟩ := append_inj' hl'' rfl
        cases ho
        have hlast : (HllOp.xzero n).bytes.length = 2 := rfl
        simp only [concat_eq_append, opsBytes_append, opsBytes_cons, opsBytes_nil,
          append_nil, length_append, hlast]
        omega
    simp only [Bool.toNat_true] at hlen
    omega

theorem length_lt (h : HllText s hdr ops cut) : ops.length < s.len + 1 := by
  rcases eq_nil_or_concat ops with rfl | ⟨l, o, rfl⟩
  · simp
  · rw [concat_eq_append] at h ⊢
    have hstart := h.start_lt
    have hle := length_le_opsBytes l
    rw [length_append, length_singleton]
    omega

theorem read (h : HllText s hdr (l ++ o :: r) cut) {p : Nat}
    (hp : p = hdr.length + (opsBytes l).length) :
    p < s.len ∧ ∃ b, s.buf[p]? = some b ∧
      ((hllSparseIsZero b = true ∧ hllSparseIsXzero b = false ∧ hllSparseIsVal b = false ∧
          o.bytes.length = 1 ∧ hllSparseZeroLen b = o.span ∧ o.value = 0 ∧ o.isVal = false) ∨
        (hllSparseIsZero b = false ∧ hllSparseIsXzero b = true ∧ hllSparseIsVal b = false ∧
          o.bytes.length = 2 ∧ (∃ b', s.buf[p + 1]? = some b' ∧ hllSparseXzeroLen b b' = o.span) ∧
          o.value = 0 ∧ o.isVal = false) ∨
        (hllSparseIsZero b = false ∧ hllSparseIsXzero b = false ∧ hllSparseIsVal b = true ∧
          o.bytes.length = 1 ∧ hllSparseValLen b = o.span ∧ hllSparseValValue b = o.value ∧
          o.isVal = true)) := by
  have hstart := h.start_lt
  obtain ⟨t, ht⟩ := h.buf
  obtain ⟨b, rest, hbytes, hkind⟩ := o.head_spec
  have hbuf : s.buf = (hdr ++ opsBytes l) ++ b :: (rest ++ (opsBytes r ++ t)) := by
    rw [ht, opsBytes_append, opsBytes_cons, hbytes]
    simp
  refine ⟨by omega, b, ?_, ?_⟩
  · rw [hbuf]
    exact getElem?_append_length b _ (by rw [hp, length_append])
  · rcases hkind with ⟨hzero, hxzero, hval, hrest, hlen, hvalue, _⟩ |
      ⟨hzero, hxzero, hval, ⟨b', hrest, hlen⟩, hvalue, _⟩ |
      ⟨hzero, hxzero, hval, hrest, hlen, hvalue, v, n, ho⟩
    · have hnot : o.isVal = false := by
        cases o with
        | val v n => simp [HllOp.value] at hvalue
        | _ => rfl
      exact .inl ⟨hzero, hxzero, hval, by simp [hbytes, hrest], hlen, hvalue, hnot⟩
    · have hnot : o.isVal = false := by
        cases o with
        | val v n => simp [HllOp.value] at hvalue
        | _ => rfl
      refine .inr (.inl ⟨hzero, hxzero, hval, by simp [hbytes, hrest], ⟨b', ?_, hlen⟩, hvalue, hnot⟩)
      have hbuf' : s.buf = (hdr ++ opsBytes l ++ [b]) ++ b' :: (opsBytes r ++ t) := by
        rw [hbuf, hrest]
        simp
      rw [hbuf']
      exact getElem?_append_length b' _ (by rw [hp]; simp [Nat.add_assoc])
    · exact .inr (.inr ⟨hzero, hxzero, hval, by simp [hbytes, hrest], hlen, hvalue, by rw [ho]; rfl⟩)

/-- The end of the opcodes is the end of the string, or one byte behind it. -/
theorem stop (h : HllText s hdr ops cut) {p : Nat} (hp : p = hdr.length + (opsBytes ops).length) :
    ¬p < s.len := by
  have hlen := h.len
  omega

theorem snoc (h : HllText s hdr (l ++ o :: r) cut) : HllText s hdr ((l ++ [o]) ++ r) cut := by
  simpa using h

end HllText

theorem length_opsBytes_snoc (hdr : Bytes) (l : List HllOp) (o : HllOp) :
    hdr.length + (opsBytes (l ++ [o])).length =
      hdr.length + (opsBytes l).length + o.bytes.length := by
  simp [Nat.add_assoc]

/-- One opcode in the loops of `hllSparseToDense` and `hllMerge`: `run` handles a run of registers
with a value. -/
def runStep {σ : Type} (run : Nat → Nat → σ → Nat → Option σ) (st : σ × Nat) (o : HllOp) :
    Option (σ × Nat) :=
  if o.isVal then (run o.value o.span st.1 st.2).map fun s => (s, st.2 + o.span)
  else some (st.1, st.2 + o.span)

section

variable {s : Sds} {hdr : Bytes} {cut : Bool}

theorem walk_text {σ : Type} {run : Nat → Nat → σ → Nat → Option σ}
    {loop : Nat → Nat → σ → Nat → Option (σ × Nat)}
    (hloop : ∀ fuel p x i, loop (fuel + 1) p x i =
      if p < s.len then do
        let b ← s.buf[p]?
        if hllSparseIsZero b then loop fuel (p + 1) x (i + hllSparseZeroLen b)
        else if hllSparseIsXzero b then do
          let b' ← s.buf[p + 1]?
          loop fuel (p + 2) x (i + hllSparseXzeroLen b b')
        else do
          let x ← run (hllSparseValValue b) (hllSparseValLen b) x i
          loop fuel (p + 1) x (i + hllSparseValLen b)
      else some (x, i)) :
    ∀ (fuel : Nat) {l r : List HllOp} {p : Nat} (x : σ) (i : Nat),
      HllText s hdr (l ++ r) cut → p = hdr.length + (opsBytes l).length → r.length < fuel →
      loop fuel p x i = r.foldlM (runStep run) (x, i)
  | 0, _, _, _, _, _, _, _, hfuel => by omega
  | fuel + 1, l, [], p, x, i, h, hp, _ => by
    rw [append_nil] at h
    rw [hloop, if_neg (h.stop hp)]
    rfl
  | fuel + 1, l, o :: r, p, x, i, h, hp, hfuel => by
    have hrec (x' : σ) (n : Nat) (hn : o.bytes.length = n) :
        loop fuel (p + n) x' (i + o.span) = r.foldlM (runStep run) (x', i + o.span) :=
      walk_text hloop fuel x' _ h.snoc (by rw [length_opsBytes_snoc, hp, hn]) (by simpa using hfuel)
    obtain ⟨hlt, b, hb, hkind⟩ := h.read hp
    rw [hloop, if_pos hlt, hb, foldlM_cons, some_bind]
    rcases hkind with ⟨hzero, _, _, hsize, hspan, _, hval⟩ |
      ⟨hzero, hxzero, _, hsize, ⟨b', hb', hspan⟩, _, hval⟩ |
      ⟨hzero, hxzero, _, hsize, hspan, hvalue, hval⟩
    · simp only [hzero, if_true, hspan, hrec x 1 hsize, runStep, hval, Bool.false_eq_true,
        if_false, some_bind]
    · simp only [hzero, hxzero, if_true, hb', hspan, hrec x 2 hsize, runStep, hval,
        Bool.false_eq_true, if_false, some_bind]
    · simp only [hzero, hxzero, hspan, hvalue, runStep, hval, Bool.false_eq_true, if_false,
        if_true, bind_eq_bind]
      cases run o.value o.span x i with
      | none => rfl
      | some x' => exact hrec x' 1 hsize

theorem hllToDenseLoop_text : ∀ (fuel : Nat) {l r : List HllOp} {p : Nat} (dense : Sds) (idx : Nat),
    HllText s hdr (l ++ r) cut → p = hdr.length + (opsBytes l).length → r.length < fuel →
    hllToDenseLoop s fuel p dense idx = r.foldlM (runStep hllSetRun) (dense, idx) :=
  walk_text fun _ _ _ _ => rfl

end

end Redis
