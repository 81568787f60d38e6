import Redis.Hyperloglog.Sparse

/-!
# Redis.Hyperloglog.Add

Adding an element to a sparse HyperLogLog: on the array of registers it is the
maximum of one register with the length of a pattern, whichever way the bytes
are changed.
-/

namespace Redis

open Bytes List Option

variable {hdr ele : Bytes} {s : Sds} {regs : List Nat} {index count : Nat} {l r : List HllOp}
  {o : HllOp} {pos : HllPos}

/-! ## The pattern of a hash -/

variable {hash : UInt64} {i old v : Nat} {m ops : List HllOp}

theorem and_bit_eq_zero_iff {bit : UInt64} {j : Nat} (hbit : bit.toNat = 2 ^ j) :
    hash &&& bit = 0 ↔ hash.toNat.testBit j = false := by
  rw [← UInt64.toNat_inj, UInt64.toNat_and, hbit, Nat.and_two_pow]
  cases hash.toNat.testBit j <;> simp

/-- The loop of `hllPatLen` stops at the first bit that is set. -/
theorem hllPatLenLoop_spec (htop : hash.toNat.testBit 63 = true) :
    ∀ (n j : Nat) {bit : UInt64} (count : Nat), bit.toNat = 2 ^ j → j + n = 63 →
      ∃ k, k ≤ n ∧ hllPatLenLoop hash (n + 1) bit count = count + k ∧
        hash.toNat.testBit (j + k) = true ∧ ∀ i, i < k → hash.toNat.testBit (j + i) = false
  | 0, j, bit, count, hbit, hsum => by
    have hj : j = 63 := by omega
    subst hj
    have hne : ¬hash &&& bit = 0 := by rw [and_bit_eq_zero_iff hbit, htop]; decide
    exact ⟨0, by omega, by rw [hllPatLenLoop, if_neg hne]; rfl, htop, by omega⟩
  | n + 1, j, bit, count, hbit, hsum => by
    rw [hllPatLenLoop]
    split
    next hzero =>
      rw [and_bit_eq_zero_iff hbit] at hzero
      have hbit' : (bit <<< 1).toNat = 2 ^ (j + 1) := by
        rw [UInt64.toNat_shiftLeft, hbit]
        have hlt : 2 ^ (j + 1) < 2 ^ 64 := Nat.pow_lt_pow_right (by decide) (by omega)
        simp only [UInt64.toNat_one, Nat.one_mod, Nat.shiftLeft_eq, pow_one]
        rw [← Nat.pow_succ, Nat.mod_eq_of_lt hlt]
      obtain ⟨k, hk, hloop, hset, hclear⟩ :=
        hllPatLenLoop_spec htop n (j + 1) (count + 1) hbit' (by omega)
      refine ⟨k + 1, by omega, by rw [hloop]; omega, ?_, ?_⟩
      · rw [← hset]
        congr 1
        omega
      · intro i hi
        cases i with
        | zero => exact hzero
        | succ i =>
          rw [← hclear i (by omega)]
          congr 1
          omega
    next hone =>
      rw [and_bit_eq_zero_iff hbit, Bool.not_eq_false] at hone
      exact ⟨0, by omega, rfl, hone, by omega⟩

/-- `hllPatLen` gives a register and a length between 1 and 50; the loop ends
because of the bit set before it. -/
theorem hllPatLen_spec (ele : Bytes) :
    (hllPatLen ele).1 < hllRegisters ∧ 1 ≤ (hllPatLen ele).2 ∧ (hllPatLen ele).2 ≤ 50 := by
  have htop : (murmurHash64A ele 0xadc83b19 ||| ((1 : UInt64) <<< 63)).toNat.testBit 63 = true := by
    rw [UInt64.toNat_or, Nat.testBit_or]
    have hone : ((1 : UInt64) <<< 63).toNat.testBit 63 = true := by decide
    rw [hone, Bool.or_true]
  have hbit : (UInt64.ofNat hllRegisters).toNat = 2 ^ 14 := by decide
  obtain ⟨k, hk, hloop, _⟩ := hllPatLenLoop_spec htop 49 14 1 hbit rfl
  have hcount : (hllPatLen ele).2 = 1 + k := hloop
  refine ⟨Nat.mod_lt _ (by decide), by omega, by omega⟩

/-! ## Valid representations -/

/-- `"HYLL"`. -/
def hllMagic : Bytes := [0x48, 0x59, 0x4c, 0x4c]

/-- A `struct hllhdr` with the encoding `encoding`. -/
def HllHeader (hdr : Bytes) (encoding : UInt8) : Prop :=
  ∃ notused card, hdr = hllMagic ++ (encoding :: (notused ++ card)) ∧ notused.length = 3 ∧
    card.length = 8

theorem HllHeader.length {encoding : UInt8} (h : HllHeader hdr encoding) :
    hdr.length = hllHdrSize := by
  obtain ⟨notused, card, rfl, hnotused, hcard⟩ := h
  simp [hllMagic, hnotused, hcard, hllHdrSize]

theorem HllText.encoding {s : Sds} {hdr : Bytes} {ops : List HllOp} {cut : Bool}
    (h : HllText s hdr ops cut) (hheader : HllHeader hdr hllSparse) :
    s.buf[hllEncodingOffset]? = some hllSparse := by
  obtain ⟨t, hbuf⟩ := h.buf
  obtain ⟨notused, card, rfl, _⟩ := hheader
  rw [hbuf]
  simp [hllEncodingOffset, hllMagic]

theorem HllText.start {hdr : Bytes} (hheader : HllHeader hdr hllSparse) :
    hllHdrSize = hdr.length + (opsBytes ([] : List HllOp)).length := by
  simp [hheader.length]

/-- `s` is a sparse HyperLogLog with the registers `regs`: its opcodes cover
the registers exactly. -/
def SparseHll (s : Sds) (regs : List Nat) : Prop :=
  ∃ hdr ops, HllHeader hdr hllSparse ∧ HllLayout s hdr ops ∧ opsRegs ops = regs ∧
    regs.length = hllRegisters

/-- The string `s` has the size of a dense HyperLogLog, the header `hdr`, and
holds the registers `regs`. -/
structure HllDenseRegs (s : Sds) (hdr : Bytes) (regs : List Nat) : Prop where
  len : s.len = hllDenseSize
  header : s.buf.take hllHdrSize = hdr
  length : regs.length = hllRegisters
  get : ∀ i, i < hllRegisters → hllDenseGetRegister (s.buf.drop hllHdrSize) i = regs[i]?

/-- `s` is a dense HyperLogLog with the registers `regs`. -/
def DenseHll (s : Sds) (regs : List Nat) : Prop :=
  ∃ hdr, HllHeader hdr hllDense ∧ HllDenseRegs s hdr regs

/-- `s` is a HyperLogLog with the registers `regs`. -/
def IsHll (s : Sds) (regs : List Nat) : Prop := SparseHll s regs ∨ DenseHll s regs

/-! ## The dense representation -/

/-- Both bytes of a register are inside the string. -/
theorem register_bounds (hlen : s.len = hllDenseSize) (hi : i < hllRegisters) :
    i * hllBits / 8 + 1 < (s.buf.drop hllHdrSize).length := by
  have hsize := s.size
  rw [hlen] at hsize
  simp only [length_drop, hllDenseSize, hllHdrSize, hllRegisters, hllBits] at *
  omega

theorem setRegister_spec (h : HllDenseRegs s hdr regs) (hi : i < hllRegisters) (hv : v < 64) :
    ∃ s', s.setRegister i v = some s' ∧ HllDenseRegs s' hdr (regs.set i v) := by
  obtain ⟨registers, hset⟩ := PackedBits.set_isSome v (register_bounds h.len hi)
  have hcut : s.buf = s.buf.take hllHdrSize ++ (s.buf.drop hllHdrSize ++ []) := by simp
  have htake : (s.buf.take hllHdrSize).length = hllHdrSize := by
    rw [length_take, s.size, h.len, Nat.min_eq_left]
    simp only [hllDenseSize]
    omega
  have hstore : Bytes.store s.buf hllHdrSize registers =
      some (s.buf.take hllHdrSize ++ (registers ++ [])) := by
    rw [hcut]
    simpa using store_append (a := s.buf.take hllHdrSize) registers [] htake.symm
      (PackedBits.length_set hset)
  obtain ⟨s', hs', hlen, hbuf⟩ := Sds.store_spec hstore
  refine ⟨s', by rw [Sds.setRegister, hllDenseSetRegister, hset]; exact hs', ?_⟩
  constructor
  · rw [hlen, h.len]
  · rw [hbuf, take_left' htake, h.header]
  · rw [length_set, h.length]
  · intro j hj
    have hjlt : j < regs.length := by rw [h.length]; exact hj
    have hget := h.get j hj
    rw [getElem?_eq_getElem hjlt] at hget
    rw [hbuf, drop_left' htake, append_nil, hllDenseGetRegister,
      PackedBits.get_set (by decide) hv hset hget, getElem?_set]
    by_cases hij : j = i
    · rw [if_pos hij, if_pos hij.symm, if_pos (hij ▸ hjlt)]
    · rw [if_neg hij, if_neg (Ne.symm hij), getElem?_eq_getElem hjlt]

/-- `hllDenseAdd` takes the maximum of one register with the pattern length. -/
theorem hllDenseAdd_spec (h : HllDenseRegs s hdr regs) (hpat : hllPatLen ele = (index, count))
    (hold : regs[index]? = some old) :
    ∃ s', hllDenseAdd s ele = some (s', if old < count then 1 else 0) ∧
      HllDenseRegs s' hdr (regs.set index (max old count)) := by
  obtain ⟨hindex, hpos, hle⟩ := hllPatLen_spec ele
  rw [hpat] at hindex hpos hle
  simp only [hllDenseAdd, hpat, h.get _ hindex, hold, some_bind]
  by_cases hgrow : old < count
  · obtain ⟨s', hs', hregs⟩ := setRegister_spec h hindex (by omega : count < 64)
    refine ⟨s', by simp [hgrow, hs'], ?_⟩
    rw [Nat.max_eq_right (by omega)]
    exact hregs
  · refine ⟨s, by simp [hgrow], ?_⟩
    have hsame : regs.set index old = regs := by
      obtain ⟨hlt, rfl⟩ := List.getElem?_eq_some_iff.mp hold
      exact set_getElem_self hlt
    rw [Nat.max_eq_left (by omega), hsame]
    exact h

/-! ## From sparse to dense -/

/-- The inner loop of `hllSparseToDense`. -/
theorem hllSetRun_spec (hv : v < 64) :
    ∀ (n : Nat) {s : Sds} {a c : List Nat} {idx : Nat}, idx = a.length →
      HllDenseRegs s hdr (a ++ (replicate n 0 ++ c)) →
      ∃ s', hllSetRun v n s idx = some s' ∧ HllDenseRegs s' hdr (a ++ (replicate n v ++ c))
  | 0, s, a, c, idx, _, h => ⟨s, rfl, h⟩
  | n + 1, s, a, c, idx, hidx, h => by
    have hlt : idx < hllRegisters := by
      rw [← h.length, hidx]
      simp only [length_append, length_replicate]
      omega
    obtain ⟨s₁, hs₁, h₁⟩ := setRegister_spec h hlt hv
    have hregs : (a ++ (replicate (n + 1) 0 ++ c)).set idx v =
        (a ++ [v]) ++ (replicate n 0 ++ c) := by
      rw [hidx, replicate_succ, set_append_right _ _ (by omega)]
      simp
    rw [hregs] at h₁
    have hidx' : idx + 1 = (a ++ [v]).length := by simp [hidx]
    obtain ⟨s', hs', h'⟩ := hllSetRun_spec hv n hidx' h₁
    have hmod : idx % 2 ^ 32 = idx :=
      Nat.mod_eq_of_lt (hlt.trans (by decide : hllRegisters < 2 ^ 32))
    refine ⟨s', by rw [hllSetRun, hmod, hs₁, some_bind, hs'], ?_⟩
    simpa [replicate_succ] using h'

/-- The loop of `hllSparseToDense`: the registers of the opcodes read so far
are set, the others are zero. -/
theorem foldlM_hllSetRun {hdr' : Bytes} {dense : Sds} {idx : Nat} (hidx : idx = (opsRegs l).length)
    (hd : HllDenseRegs dense hdr' (opsRegs l ++ replicate (opsRegs r).length 0)) :
    ∃ dense', r.foldlM (runStep hllSetRun) (dense, idx) = some (dense', (opsRegs (l ++ r)).length) ∧
      HllDenseRegs dense' hdr' (opsRegs (l ++ r)) := by
  induction r generalizing l dense idx with
  | nil => exact ⟨dense, by simp [hidx], by simpa using hd⟩
  | cons o r ih =>
    rw [opsRegs_cons, length_append, replicate_add, HllOp.length_regs] at hd
    have hstep : ∃ dense', runStep hllSetRun (dense, idx) o = some (dense', idx + o.span) ∧
        HllDenseRegs dense' hdr' (opsRegs l ++ (replicate o.span o.value ++
          replicate (opsRegs r).length 0)) := by
      cases o with
      | val v n =>
        have hlt : (HllOp.val v n).value < 64 := lt_of_le_of_lt (HllOp.value_le _) (by decide)
        obtain ⟨dense', hrun, hd'⟩ := hllSetRun_spec hlt (HllOp.val v n).span hidx hd
        exact ⟨dense', by simp [runStep, HllOp.isVal, hrun], hd'⟩
      | _ => exact ⟨dense, rfl, hd⟩
    obtain ⟨dense', hrun, hd'⟩ := hstep
    have happ : l ++ o :: r = (l ++ [o]) ++ r := by simp
    rw [foldlM_cons, hrun, happ, some_bind]
    exact ih (by simp [hidx]) (by simpa [HllOp.regs] using hd')

/-- The dense string before the loop: the old header with the new encoding, and
registers that are all zero. -/
theorem denseStart_spec (h : HllHeader hdr hllSparse) :
    ∃ d₁ d₂ hdr', (sdsnewlen hllDenseSize).store 0 hdr = some d₁ ∧
      d₁.store hllEncodingOffset [hllDense] = some d₂ ∧ HllHeader hdr' hllDense ∧
      HllDenseRegs d₂ hdr' (replicate hllRegisters 0) := by
  have hlen := h.length
  have hsize : hllDenseSize + 1 = hllHdrSize + (hllRegisters * hllBits / 8 + 1) := by decide
  have hzeros : (sdsnewlen hllDenseSize).buf =
      [] ++ (replicate hllHdrSize 0 ++ replicate (hllRegisters * hllBits / 8 + 1) 0) := by
    rw [nil_append, ← replicate_add, ← hsize]
    rfl
  generalize hn : hllRegisters * hllBits / 8 + 1 = n at hzeros hsize
  have hstore₁ : Bytes.store (sdsnewlen hllDenseSize).buf 0 hdr =
      some ([] ++ (hdr ++ replicate n 0)) := by
    rw [hzeros]
    exact store_append _ _ rfl (by rw [hlen, length_replicate])
  obtain ⟨d₁, hd₁, hlen₁, hbuf₁⟩ := Sds.store_spec hstore₁
  obtain ⟨notused, card, rfl, hnotused, hcard⟩ := h
  have hstore₂ : Bytes.store d₁.buf hllEncodingOffset [hllDense] =
      some (hllMagic ++ ([hllDense] ++ ((notused ++ card) ++ replicate n 0))) := by
    have happ : d₁.buf = hllMagic ++ ([hllSparse] ++ ((notused ++ card) ++ replicate n 0)) := by
      rw [hbuf₁]
      simp
    rw [happ]
    exact store_append _ _ rfl rfl
  obtain ⟨d₂, hd₂, hlen₂, hbuf₂⟩ := Sds.store_spec hstore₂
  have hheader : HllHeader (hllMagic ++ (hllDense :: (notused ++ card))) hllDense :=
    ⟨notused, card, rfl, hnotused, hcard⟩
  have hbuf : d₂.buf = (hllMagic ++ (hllDense :: (notused ++ card))) ++ replicate n 0 := by
    rw [hbuf₂]
    simp
  refine ⟨d₁, d₂, _, hd₁, hd₂, hheader, ?_⟩
  constructor
  · rw [hlen₂, hlen₁]
    rfl
  · rw [hbuf, take_left' hheader.length]
  · rw [length_replicate]
  · intro i hi
    rw [hbuf, drop_left' hheader.length, getElem?_replicate, if_pos hi]
    refine PackedBits.get_replicate_zero ?_
    rw [← hn]
    simp only [hllRegisters, hllBits] at *
    omega

theorem hllSparseToDense_spec (hheader : HllHeader hdr hllSparse) (h : HllLayout s hdr ops)
    (hcover : (opsRegs ops).length = hllRegisters) :
    ∃ dense hdr', hllSparseToDense s = some (some dense) ∧ HllHeader hdr' hllDense ∧
      HllDenseRegs dense hdr' (opsRegs ops) := by
  obtain ⟨d₁, d₂, hdr', hd₁, hd₂, hheader', hstart⟩ := denseStart_spec hheader
  rw [← hcover] at hstart
  obtain ⟨dense, hloop, hdense⟩ := foldlM_hllSetRun (l := []) (r := ops) (show 0 = _ from rfl)
    hstart
  obtain ⟨t, hbuf⟩ := h.buf
  have hload : load s.buf 0 hllHdrSize = some hdr := by
    rw [hbuf]
    exact load_append (a := []) _ rfl hheader.length.symm
  refine ⟨dense, hdr', ?_, hheader', hdense⟩
  have hne : ¬hllSparse = hllDense := by decide
  simp only [hllSparseToDense, h.text.encoding hheader, hne, if_false, hload, hd₁, hd₂,
    bind_eq_bind, bind_some]
  rw [hllToDenseLoop_text (l := []) (s.len + 1) d₂ 0 h.text (HllText.start hheader) h.length_lt,
    hloop, bind_some]
  simp [hcover, hllRegisters]

/-! ## `hllSparseAdd` -/

/-- The outcome of adding: the register `index` is the maximum of its old value
and `count`, and the result says whether it grew. -/
def HllAdded (res : Option (Sds × Int)) (regs : List Nat) (index count old : Nat) : Prop :=
  ∃ s', res = some (s', if old < count then 1 else 0) ∧ IsHll s' (regs.set index (max old count))

/-- The label `promote`: it is reached only when the register has to grow, so
the assertion holds. -/
theorem hllSparsePromote_spec (hheader : HllHeader hdr hllSparse) (h : HllLayout s hdr ops)
    (hcover : (opsRegs ops).length = hllRegisters) (hpat : hllPatLen ele = (index, count))
    (hold : (opsRegs ops)[index]? = some old) (hgrow : old < count) :
    HllAdded (hllSparsePromote s ele) (opsRegs ops) index count old := by
  obtain ⟨dense, hdr', hdense, hheader', hregs⟩ := hllSparseToDense_spec hheader h hcover
  obtain ⟨s', hs', hregs'⟩ := hllDenseAdd_spec hregs hpat hold
  rw [if_pos hgrow] at hs'
  refine ⟨s', ?_, .inr ⟨hdr', hheader', hregs'⟩⟩
  simp [hllSparsePromote, hdense, hs', hgrow]

/-- The label `updated`: the registers stay, and the cache is marked stale. -/
theorem hllSparseUpdated_spec {a b : List HllOp} (hheader : HllHeader hdr hllSparse)
    (h : HllLayout s hdr (a ++ b)) (hcover : (opsRegs (a ++ b)).length = hllRegisters)
    {prev : Option Nat} (hprev : prev.getD hllHdrSize = hllHdrSize + (opsBytes a).length) :
    ∃ s', hllSparseUpdated s prev s.len = some (s', 1) ∧ SparseHll s' (opsRegs (a ++ b)) := by
  obtain ⟨s₁, ops, hs₁, h₁, hregs⟩ := hllSparseMerge_spec 5 h
  rw [hheader.length, ← hprev] at hs₁
  obtain ⟨t, hbuf₁⟩ := h₁.buf
  have hlen := hheader.length
  obtain ⟨notused, card, rfl, hnotused, hcard⟩ := hheader
  obtain ⟨card', x, rfl⟩ : ∃ card' x, card = card' ++ [x] := by
    refine ⟨card.dropLast, card.getLast (ne_nil_of_length_pos (by omega)), ?_⟩
    rw [dropLast_append_getLast]
  have hpre : (hllMagic ++ (hllSparse :: (notused ++ card'))).length = hllCardOffset := by
    simp only [length_append, length_cons, length_nil] at hcard ⊢
    rw [hnotused, show card'.length = 7 by omega]
    rfl
  have hbuf : s₁.buf = (hllMagic ++ (hllSparse :: (notused ++ card'))) ++
      ([x] ++ (opsBytes ops ++ 0 :: t)) := by
    rw [hbuf₁]
    simp
  have hx : s₁.buf[hllCardOffset]? = some x := by
    rw [hbuf]
    exact getElem?_append_length x _ hpre.symm
  have hstore : Bytes.store s₁.buf hllCardOffset [x ||| 0x80] =
      some ((hllMagic ++ (hllSparse :: (notused ++ card'))) ++
        ([x ||| 0x80] ++ (opsBytes ops ++ 0 :: t))) := by
    rw [hbuf]
    exact store_append _ _ hpre.symm rfl
  obtain ⟨s₂, hs₂, hlen₂, hbuf₂⟩ := Sds.store_spec hstore
  have hheader₂ : HllHeader (hllMagic ++ (hllSparse :: (notused ++ (card' ++ [x ||| 0x80]))))
      hllSparse := ⟨notused, card' ++ [x ||| 0x80], rfl, hnotused, by simpa using hcard⟩
  refine ⟨s₂, ?_, _, ops, hheader₂, ⟨⟨t, by rw [hbuf₂]; simp⟩, ?_⟩, hregs, hcover⟩
  · simp only [hllSparseUpdated, hs₁, hx, hs₂, some_bind, Option.pure_def]
  · rw [hlen₂, h₁.len, hlen, hheader₂.length]

/-- The opcodes `m` have taken the place of `o`, which covered the register. -/
theorem hllAdded_of_replaced (hheader : HllHeader hdr hllSparse)
    (hcover : (opsRegs (l ++ o :: r)).length = hllRegisters) (hpos : pos.At hdr l)
    (h : HllLayout s hdr (l ++ m ++ r))
    (hm : opsRegs m = o.regs.set (index - (opsRegs l).length) count)
    (hle : (opsRegs l).length ≤ index) (hlt : index < (opsRegs l).length + o.span)
    (hgrow : o.value < count) :
    HllAdded (hllSparseUpdated s pos.prev s.len) (opsRegs (l ++ o :: r)) index count o.value := by
  have hregs : opsRegs (l ++ m ++ r) = (opsRegs (l ++ o :: r)).set index count := by
    rw [opsRegs_set count hle hlt, ← hm]
    simp
  obtain ⟨a, b, hab, hprev⟩ := hpos.prev
  have happ : l ++ m ++ r = a ++ (b ++ m ++ r) := by simp [hab]
  rw [happ] at h hregs
  rw [hheader.length] at hprev
  obtain ⟨s', hs', hsparse⟩ := hllSparseUpdated_spec hheader h
    (by rw [hregs, length_set, hcover]) hprev
  refine ⟨s', by rw [hs', if_pos hgrow], .inl ?_⟩
  rw [Nat.max_eq_right (by omega), ← hregs]
  exact hsparse

/-- Cases B and C of `hllSparseAdd`: an opcode of one byte for one register is
overwritten. -/
theorem hllSparseOverwrite_spec {p : Nat} (h : HllLayout s hdr (l ++ o :: r))
    (hp : p = hdr.length + (opsBytes l).length) (hbytes : o.bytes.length = 1) (hspan : o.span = 1)
    (hpos : 0 < count) (hle : count ≤ 32) :
    ∃ s' m, s.store p [hllSparseValSet count 1] = some s' ∧ HllLayout s' hdr (l ++ m ++ r) ∧
      opsRegs m = o.regs.set 0 count := by
  obtain ⟨c, hc, hcspan, hcvalue, _⟩ := hllValRun_eq hpos hle (by decide : 0 < 1) (by decide)
  obtain ⟨t, hbuf⟩ := h.buf_at
  have hstore : Bytes.store s.buf p [hllSparseValSet count 1] =
      some ((hdr ++ opsBytes l) ++ ([hllSparseValSet count 1] ++ (opsBytes r ++ 0 :: t))) := by
    rw [hbuf]
    exact store_append _ _ (by rw [hp, length_append]) hbytes.symm
  obtain ⟨s', hs', hlen, hbuf'⟩ := Sds.store_spec hstore
  refine ⟨s', [c], hs', ⟨⟨t, by rw [hbuf']; simp [hc]⟩, ?_⟩, ?_⟩
  · rw [hlen, h.len]
    simp only [opsBytes_append, opsBytes_cons, opsBytes_nil, hc, hbytes, length_append,
      length_cons, length_nil]
    omega
  · simp [HllOp.regs, hspan, hcspan, hcvalue]

/-- Case D of `hllSparseAdd`, for the new opcodes `m`. -/
theorem hllSparseReplace_spec (hheader : HllHeader hdr hllSparse)
    (h : HllLayout s hdr (l ++ o :: r)) (hcover : (opsRegs (l ++ o :: r)).length = hllRegisters)
    (hpat : hllPatLen ele = (index, count)) (hpos : pos.At hdr l)
    (hm : opsRegs m = o.regs.set (index - (opsRegs l).length) count)
    (hle : (opsRegs l).length ≤ index) (hlt : index < (opsRegs l).length + o.span)
    (hgrow : o.value < count) (hfree : (opsBytes m).length ≤ o.bytes.length + s.free) (P : Prop)
    [Decidable P] :
    HllAdded (if P then hllSparsePromote s ele
        else (hllSparseSubstitute s pos.p o.bytes.length (opsBytes m)).bind fun s =>
          hllSparseUpdated s pos.prev s.len) (opsRegs (l ++ o :: r)) index count o.value := by
  split
  next => exact hllSparsePromote_spec hheader h hcover hpat (opsRegs_getElem? hle hlt) hgrow
  next =>
    obtain ⟨s', hs', hlayout⟩ := hllSparseSubstitute_spec h hfree
    rw [hpos.p, hs', bind_some]
    exact hllAdded_of_replaced hheader hcover hpos hlayout hm hle hlt hgrow

theorem hllSparseAddAt_spec (maxBytes : Nat) (hheader : HllHeader hdr hllSparse)
    (h : HllLayout s hdr (l ++ o :: r)) (hcover : (opsRegs (l ++ o :: r)).length = hllRegisters)
    (hpat : hllPatLen ele = (index, count)) (hpos : pos.At hdr l) (hspan : pos.span = o.span)
    (hle : (opsRegs l).length ≤ index) (hlt : index < (opsRegs l).length + o.span)
    (hcount : 0 < count) (hcount' : count ≤ 32) (hfree : 3 ≤ s.free) :
    HllAdded (hllSparseAddAt maxBytes s ele index count pos) (opsRegs (l ++ o :: r)) index count
      o.value := by
  obtain ⟨t, hbuf⟩ := h.buf_at
  obtain ⟨b, rest, hbytes, hkind⟩ := o.head_spec
  have hb : s.buf[pos.p]? = some b := by
    rw [hbuf, hbytes]
    exact getElem?_append_length b _ (by rw [hpos.p, length_append])
  have hone (hlen : o.bytes.length = 1) (hs1 : o.span = 1) (hgrow : o.value < count) :
      HllAdded ((s.store pos.p [hllSparseValSet count 1]).bind fun s =>
        hllSparseUpdated s pos.prev s.len) (opsRegs (l ++ o :: r)) index count o.value := by
    obtain ⟨s', m, hs', hlayout, hm⟩ := hllSparseOverwrite_spec h hpos.p hlen hs1 hcount hcount'
    rw [hs', bind_some]
    have hzero : index - (opsRegs l).length = 0 := by omega
    exact hllAdded_of_replaced hheader hcover hpos hlayout (by rw [hzero, hm]) hle hlt hgrow
  have hrunlen : hllSparseSpan s.buf pos.p = some (o.span, o.bytes.length) := by
    rw [hpos.p, ← length_append]
    exact hllSparseSpan_eq o _ hbuf
  simp only [hllSparseAddAt, hb, hrunlen, some_bind, hspan, hpos.first]
  rcases hkind with ⟨hzero, hxzero, _, hrest, _, hvalue, hmax⟩ |
    ⟨hzero, hxzero, _, ⟨b', hrest, hlen⟩, hvalue, hmax⟩ |
    ⟨hzero, hxzero, _, hrest, hlen, hvalue, v, n, ho⟩
  · have hsize : o.bytes.length = 1 := by simp [hbytes, hrest]
    simp only [hzero, hxzero, Bool.not_true, Bool.false_and, Bool.false_eq_true, if_false,
      Bool.false_or, Bool.true_and, beq_iff_eq]
    by_cases hs1 : o.span = 1
    · rw [if_pos hs1]
      exact hone hsize hs1 (by omega)
    · rw [if_neg hs1]
      have hrun (len : Nat) (hpos : 0 < len) (hlen : len < o.span) : ∃ c : HllOp,
          c.bytes = hllZeroRun len ∧ c.span = len ∧ c.value = 0 ∧ c.bytes.length ≤ 1 := by
        obtain ⟨c, hc, hcspan, hcvalue, hclen⟩ := hllZeroRun_eq hpos (by omega)
        rw [if_pos (by omega)] at hclen
        exact ⟨c, hc, hcspan, hcvalue, hclen⟩
      obtain ⟨m, hmbytes, hmregs, hmlen⟩ := hllSplit_spec hrun hcount hcount' hle hlt
      rw [← hmbytes, ← hsize]
      exact hllSparseReplace_spec hheader h hcover hpat hpos (by rw [hmregs, HllOp.regs, hvalue])
        hle hlt (by omega) (by omega) _
  · have hsize : o.bytes.length = 2 := by simp [hbytes, hrest]
    simp only [hzero, hxzero, Bool.not_true, Bool.not_false, Bool.and_false, Bool.false_and,
      Bool.or_false, Bool.false_eq_true, if_false, if_true]
    have hrun (len : Nat) (hpos : 0 < len) (hlen : len < o.span) : ∃ c : HllOp,
        c.bytes = hllZeroRun len ∧ c.span = len ∧ c.value = 0 ∧ c.bytes.length ≤ 2 := by
      obtain ⟨c, hc, hcspan, hcvalue, hclen⟩ := hllZeroRun_eq hpos (by omega)
      exact ⟨c, hc, hcspan, hcvalue, hclen.trans (by split <;> omega)⟩
    obtain ⟨m, hmbytes, hmregs, hmlen⟩ := hllSplit_spec hrun hcount hcount' hle hlt
    rw [← hmbytes, ← hsize]
    exact hllSparseReplace_spec hheader h hcover hpat hpos (by rw [hmregs, HllOp.regs, hvalue])
      hle hlt (by omega) (by omega) _
  · have hsize : o.bytes.length = 1 := by simp [hbytes, hrest]
    have hpos' : 0 < o.value := by simp [ho, HllOp.value]
    have hmax : o.span ≤ 4 := by
      rw [ho]
      exact n.isLt
    simp only [hzero, hxzero, hvalue, Bool.not_false, Bool.and_self, Bool.true_and, Bool.true_or,
      Bool.false_eq_true, if_false, if_true, decide_eq_true_eq, beq_iff_eq]
    by_cases hgrow : o.value < count
    · rw [if_neg (by omega)]
      by_cases hs1 : o.span = 1
      · rw [if_pos hs1]
        exact hone hsize hs1 hgrow
      · rw [if_neg hs1]
        have hrun (len : Nat) (hpos : 0 < len) (hlen : len < o.span) : ∃ c : HllOp,
            c.bytes = [hllSparseValSet o.value len] ∧ c.span = len ∧ c.value = o.value ∧
              c.bytes.length ≤ 1 := hllValRun_eq hpos' o.value_le hpos (by omega)
        obtain ⟨m, hmbytes, hmregs, hmlen⟩ := hllSplit_spec hrun hcount hcount' hle hlt
        rw [← hmbytes, ← hsize]
        exact hllSparseReplace_spec hheader h hcover hpat hpos (by rw [hmregs, HllOp.regs])
          hle hlt hgrow (by omega) _
    · rw [if_pos (by omega)]
      have hsame : (opsRegs (l ++ o :: r)).set index o.value = opsRegs (l ++ o :: r) := by
        obtain ⟨hin, hget⟩ := List.getElem?_eq_some_iff.mp (opsRegs_getElem? (r := r) hle hlt)
        rw [← hget]
        exact set_getElem_self hin
      refine ⟨s, by rw [if_neg hgrow]; rfl, .inl ?_⟩
      rw [Nat.max_eq_left (by omega), hsame]
      exact ⟨hdr, _, hheader, h, rfl, hcover⟩

theorem hllSparseAdd_spec (fill : Nat → UInt8) (maxBytes : Nat) (h : SparseHll s regs)
    (ele : Bytes) :
    ∃ old, regs[(hllPatLen ele).1]? = some old ∧
      HllAdded (hllSparseAdd fill maxBytes s ele) regs (hllPatLen ele).1 (hllPatLen ele).2 old := by
  obtain ⟨hdr, ops, hheader, hlayout, rfl, hcover⟩ := h
  obtain ⟨hindex, hcount, _⟩ := hllPatLen_spec ele
  rcases hpat : hllPatLen ele with ⟨index, count⟩
  rw [hpat] at hindex hcount
  simp only at hindex hcount ⊢
  have hroom := hlayout.makeRoom fill 3
  obtain ⟨_, hfree, _⟩ := sdsMakeRoomFor_spec fill s 3
  have hstart : HllPos.At ⟨hllHdrSize, none, 0, 0⟩ hdr [] := by
    constructor
    · simp [hheader.length]
    · rfl
    · exact ⟨[], [], rfl, rfl⟩
  obtain ⟨pos, l, o, r, heq, hlocate, hpos, hspan, hle, hlt⟩ :=
    hllSparseLocate_spec ((sdsMakeRoomFor fill s 3).len + 1) (r := ops) hroom hstart
      (Nat.zero_le index) (by rw [nil_append, hcover]; exact hindex) hroom.length_lt
  rw [nil_append] at heq
  subst heq
  have hold := opsRegs_getElem? (r := r) hle hlt
  refine ⟨o.value, hold, ?_⟩
  unfold hllSparseAdd
  simp only [hpat]
  by_cases hbig : count > hllSparseValMaxValue
  · rw [if_pos hbig]
    have := o.value_le
    have hmax : hllSparseValMaxValue = 32 := rfl
    exact hllSparsePromote_spec hheader hlayout hcover hpat hold (by omega)
  · rw [if_neg hbig, hlocate, some_bind, hspan, if_neg (Nat.ne_of_gt o.span_pos)]
    exact hllSparseAddAt_spec maxBytes hheader hroom hcover hpat hpos hspan hle hlt hcount
      (not_lt.mp hbig) hfree

/-- Adding an element to a sparse HyperLogLog takes the maximum of the register
of the element with the length of its pattern; the result is a HyperLogLog
again, and the return value says whether the register grew. -/
theorem hllSparseAdd_refines (fill : Nat → UInt8) (maxBytes : Nat) {s : Sds} {regs : List Nat}
    (h : SparseHll s regs) (ele : Bytes) :
    ∃ old, regs[(hllPatLen ele).1]? = some old ∧
      HllAdded (hllSparseAdd fill maxBytes s ele) regs (hllPatLen ele).1 (hllPatLen ele).2 old :=
  hllSparseAdd_spec fill maxBytes h ele

/-- An empty sparse HyperLogLog: one `XZERO` over all registers. -/
def emptyHll : Sds where
  len := 18
  free := 0
  buf := hllMagic ++ (hllSparse :: (replicate 11 0 ++ ((HllOp.xzero 16383).bytes ++ [0])))
  size := by decide

theorem emptyHll_sparse : SparseHll emptyHll (replicate hllRegisters 0) := by
  refine ⟨hllMagic ++ (hllSparse :: ([0, 0, 0] ++ replicate 8 0)), [.xzero 16383],
    ⟨_, _, rfl, rfl, rfl⟩, ⟨⟨[], by decide⟩, by decide⟩, ?_, length_replicate⟩
  have hspan : (HllOp.xzero 16383).span = hllRegisters := rfl
  rw [opsRegs_cons, opsRegs_nil, append_nil, HllOp.regs, hspan]
  rfl

/-- The first element added to an empty HyperLogLog. -/
theorem hllSparseAdd_refines_empty :
    SparseHll emptyHll (replicate hllRegisters 0) ∧
      ∃ old, (replicate hllRegisters 0)[(hllPatLen [0x61]).1]? = some old ∧
        HllAdded (hllSparseAdd (fun _ => 0) 3000 emptyHll [0x61]) (replicate hllRegisters 0)
          (hllPatLen [0x61]).1 (hllPatLen [0x61]).2 old :=
  ⟨emptyHll_sparse, hllSparseAdd_refines (fun _ => 0) 3000 emptyHll_sparse [0x61]⟩

end Redis
