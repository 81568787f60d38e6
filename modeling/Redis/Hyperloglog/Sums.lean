import Redis.Hyperloglog.Merge

/-!
# Redis.Hyperloglog.Sums

The sums of `hllCount` in exact arithmetic: each representation of the registers has its own loop,
and all of them find the same sum of `2 ^ -reg` and the same number of zero registers.
-/

namespace Redis.Sums

open List

/-! ## The loops -/

/-- `PE[reg]`. -/
def PE (reg : Nat) : ℚ := if reg = 0 then 1 else 1 / 2 ^ reg

/-- One register: the zeros are counted, and added to `E` at the end. -/
def addRegister (st : ℚ × Nat) (reg : Nat) : ℚ × Nat :=
  if reg = 0 then (st.1, st.2 + 1) else (st.1 + PE reg, st.2)

/-- `E += ez`. -/
def addZeros (st : ℚ × Nat) : ℚ × Nat := (st.1 + st.2, st.2)

/-- The unrolled loop of `hllDenseSum`: sixteen registers from twelve bytes. -/
def hllDenseSumUnrolled : Nat → Bytes → ℚ × Nat → Option (ℚ × Nat)
  | 0, _, st => some st
  | j + 1, r0 :: r1 :: r2 :: r3 :: r4 :: r5 :: r6 :: r7 :: r8 :: r9 :: r10 :: r11 :: r, st =>
    let regs := hllDenseGroup r0 r1 r2 ++ hllDenseGroup r3 r4 r5 ++ hllDenseGroup r6 r7 r8 ++
      hllDenseGroup r9 r10 r11
    hllDenseSumUnrolled j r (st.1 + (regs.map PE).sum, st.2 + regs.count 0)
  | _ + 1, _, _ => none

/-- The loop of `hllDenseSum` for other sizes, over the registers from `j` on. -/
def hllDenseSumLoop (registers : Bytes) : Nat → Nat → ℚ × Nat → Option (ℚ × Nat)
  | 0, _, st => some st
  | n + 1, j, st => do
    let reg ← hllDenseGetRegister registers j
    hllDenseSumLoop registers n (j + 1) (addRegister st reg)

/-- `hllDenseSum` with the path that `HLL_REGISTERS` and `HLL_BITS` select, and with the other. -/
def hllDenseSum (unrolled : Bool) (registers : Bytes) : Option (ℚ × Nat) :=
  if unrolled then hllDenseSumUnrolled 1024 registers (0, 0)
  else (hllDenseSumLoop registers hllRegisters 0 (0, 0)).map addZeros

/-- The loop of `hllSparseSum`. -/
def hllSparseSumLoop (s : Sds) : Nat → Nat → ℚ × Nat → Nat → Option ((ℚ × Nat) × Nat)
  | 0, _, _, _ => none
  | fuel + 1, p, st, idx =>
    if p < s.len then do
      let b ← s.buf[p]?
      if hllSparseIsZero b then
        let runlen := hllSparseZeroLen b
        hllSparseSumLoop s fuel (p + 1) (st.1, st.2 + runlen) (idx + runlen)
      else if hllSparseIsXzero b then do
        let b' ← s.buf[p + 1]?
        let runlen := hllSparseXzeroLen b b'
        hllSparseSumLoop s fuel (p + 2) (st.1, st.2 + runlen) (idx + runlen)
      else
        let runlen := hllSparseValLen b
        hllSparseSumLoop s fuel (p + 1) (st.1 + PE (hllSparseValValue b) * runlen, st.2)
          (idx + runlen)
    else some (st, idx)

/-- `hllSparseSum`, with `*invalid`. -/
def hllSparseSum (s : Sds) : Option ((ℚ × Nat) × Bool) := do
  let r ← hllSparseSumLoop s (s.len + 1) hllHdrSize (0, 0) 0
  return (addZeros r.1, decide (r.2 % 2 ^ 32 ≠ hllRegisters))

/-- The loop of `hllRawSum`: a word is eight registers. -/
def hllRawSumLoop : Nat → List Nat → ℚ × Nat → ℚ × Nat
  | 0, _, st => st
  | n + 1, registers, st =>
    let bytes := registers.take 8
    hllRawSumLoop n (registers.drop 8)
      (if bytes.all (· == 0) then (st.1, st.2 + 8) else bytes.foldl addRegister st)

def hllRawSum (registers : List Nat) : ℚ × Nat :=
  addZeros (hllRawSumLoop (hllRegisters / 8) registers (0, 0))

/-! ## Registers one by one -/

variable {registers : Bytes} {regs : List Nat} {st : ℚ × Nat} {v n : Nat}

/-- The sum and the number of zeros of an array of registers. -/
def total (regs : List Nat) : ℚ × Nat := ((regs.map PE).sum, regs.count 0)

theorem addZeros_foldl (regs : List Nat) (st : ℚ × Nat) :
    addZeros (regs.foldl addRegister st) =
      ((addZeros st).1 + (total regs).1, (addZeros st).2 + (total regs).2) := by
  induction regs generalizing st with
  | nil => simp [total]
  | cons reg regs ih =>
    rw [foldl_cons, ih]
    by_cases hreg : reg = 0
    · simp [addRegister, addZeros, total, PE, hreg]
      constructor <;> ring
    · simp [addRegister, addZeros, total, hreg]
      ring

theorem addZeros_foldl_zero (regs : List Nat) :
    addZeros (regs.foldl addRegister (0, 0)) = total regs := by
  rw [addZeros_foldl]
  simp [addZeros]

theorem foldl_replicate_zero (n : Nat) (st : ℚ × Nat) :
    (replicate n 0).foldl addRegister st = (st.1, st.2 + n) := by
  induction n generalizing st with
  | zero => rfl
  | succ n ih =>
    rw [replicate_succ, foldl_cons, ih, addRegister, if_pos rfl]
    simp only [Nat.add_assoc, Nat.add_comm 1]

theorem foldl_replicate (hv : v ≠ 0) (n : Nat) (st : ℚ × Nat) :
    (replicate n v).foldl addRegister st = (st.1 + PE v * n, st.2) := by
  induction n generalizing st with
  | zero => simp
  | succ n ih =>
    rw [replicate_succ, foldl_cons, ih, addRegister, if_neg hv, Nat.cast_succ]
    ext
    · ring
    · rfl

/-! ## The sums -/

/-- A group of four registers takes three bytes. -/
theorem hllDenseSum_succ (h : Redis.hllDenseSum registers (n + 1) = some regs) :
    ∃ r0 r1 r2 r rest, registers = r0 :: r1 :: r2 :: r ∧ Redis.hllDenseSum r n = some rest ∧
      regs = hllDenseGroup r0 r1 r2 ++ rest := by
  simp only [Redis.hllDenseSum, bind_eq_some, Option.pure_def, Option.some.injEq] at h
  obtain ⟨r0, h0, r1, h1, r2, h2, rest, hrest, rfl⟩ := h
  rcases registers with _ | ⟨b0, _ | ⟨b1, _ | ⟨b2, r⟩⟩⟩
  · cases h0
  · cases h1
  · cases h2
  · obtain rfl := Option.some.inj h0
    obtain rfl := Option.some.inj h1
    obtain rfl := Option.some.inj h2
    exact ⟨b0, b1, b2, r, rest, rfl, hrest, rfl⟩

/-- Four groups are one round of the unrolled loop. -/
theorem hllDenseSumUnrolled_eq (h : Redis.hllDenseSum registers (4 * n) = some regs) :
    hllDenseSumUnrolled n registers st = some (st.1 + (total regs).1, st.2 + (total regs).2) := by
  induction n generalizing registers regs st with
  | zero =>
    obtain rfl := Option.some.inj h
    simp [hllDenseSumUnrolled, total]
  | succ n ih =>
    have hmul : 4 * (n + 1) = 4 * n + 1 + 1 + 1 + 1 := by omega
    rw [hmul] at h
    obtain ⟨r0, r1, r2, _, _, rfl, h₁, rfl⟩ := hllDenseSum_succ h
    obtain ⟨r3, r4, r5, _, _, rfl, h₂, rfl⟩ := hllDenseSum_succ h₁
    obtain ⟨r6, r7, r8, _, _, rfl, h₃, rfl⟩ := hllDenseSum_succ h₂
    obtain ⟨r9, r10, r11, _, _, rfl, hrest, rfl⟩ := hllDenseSum_succ h₃
    rw [hllDenseSumUnrolled, ih hrest]
    simp only [total, map_append, sum_append, count_append]
    simp [add_assoc]

theorem hllDenseSumLoop_eq {j : Nat}
    (h : ∀ i, i < regs.length → hllDenseGetRegister registers i = regs[i]?)
    (hn : regs.length = j + n) :
    hllDenseSumLoop registers n j st = some ((regs.drop j).foldl addRegister st) := by
  induction n generalizing j st with
  | zero => rw [hllDenseSumLoop, drop_of_length_le (by omega), foldl_nil]
  | succ n ih =>
    have hlt : j < regs.length := by omega
    rw [hllDenseSumLoop, h j hlt, getElem?_eq_getElem hlt, some_bind, ih (by omega), drop_eq_getElem_cons hlt, foldl_cons]

/-- The loop of `hllSparseSum` adds the registers up that the walk sees. -/
theorem hllSparseSumLoop_eq (s : Sds) (fuel p idx : Nat) (regs : List Nat) :
    hllSparseSumLoop s fuel p (regs.foldl addRegister (0, 0)) idx =
      (Redis.hllSparseSumLoop s fuel p regs idx).map
        fun r => (r.1.foldl addRegister (0, 0), r.2) := by
  induction fuel generalizing p idx regs with
  | zero => rfl
  | succ fuel ih =>
    have hzero (k n : Nat) := ih (p + k) (idx + n) (regs ++ replicate n 0)
    have hval (b : UInt8) := ih (p + 1) (idx + hllSparseValLen b)
      (regs ++ replicate (hllSparseValLen b) (hllSparseValValue b))
    simp only [foldl_append, foldl_replicate_zero] at hzero
    simp only [foldl_append, foldl_replicate (Nat.succ_ne_zero _), hllSparseValValue] at hval
    rw [hllSparseSumLoop, Redis.hllSparseSumLoop]
    split
    · cases s.buf[p]? with
      | none => rfl
      | some b =>
        simp only [some_bind]
        split
        · exact hzero 1 _
        split
        · cases s.buf[p + 1]? with
          | none => rfl
          | some b' => exact hzero 2 _
        · exact hval b
    · rfl

theorem hllRawSumLoop_eq {registers : List Nat} (h : registers.length = 8 * n) :
    hllRawSumLoop n registers st = registers.foldl addRegister st := by
  induction n generalizing registers st with
  | zero => rw [length_eq_zero_iff.mp h, hllRawSumLoop, foldl_nil]
  | succ n ih =>
    have hword : (if (registers.take 8).all (· == 0) then (st.1, st.2 + 8)
        else (registers.take 8).foldl addRegister st) =
          (registers.take 8).foldl addRegister st := by
      split
      next hzero =>
        rw [all_eq_true] at hzero
        have hrep : registers.take 8 = replicate 8 0 := by
          refine eq_replicate_iff.mpr ⟨?_, fun x hx => by simpa using hzero x hx⟩
          rw [length_take]
          omega
        rw [hrep, foldl_replicate_zero]
      next => rfl
    rw [hllRawSumLoop, hword, ih (by rw [length_drop]; omega), ← foldl_append,
      take_append_drop]

/-- A block of bytes that holds the registers. -/
def DenseBlock (registers : Bytes) (regs : List Nat) : Prop :=
  hllRegisters * hllBits / 8 < registers.length ∧ regs.length = hllRegisters ∧
    ∀ i, i < hllRegisters → hllDenseGetRegister registers i = regs[i]?

theorem hllDenseSum_total (h : DenseBlock registers regs) (unrolled : Bool) :
    hllDenseSum unrolled registers = some (total regs) := by
  obtain ⟨hlen, hregs, hget⟩ := h
  cases unrolled with
  | true =>
    have hlen' : 3 * (hllRegisters / 4) + 1 ≤ registers.length := by
      simp only [hllRegisters, hllBits] at *
      omega
    have hsum := hllDenseSum_spec hlen' hregs hget
    have heq : hllDenseSumUnrolled 1024 registers (0, 0) = _ := hllDenseSumUnrolled_eq hsum
    rw [hllDenseSum, if_pos rfl, heq]
    simp
  | false =>
    rw [← hregs] at hget
    rw [hllDenseSum, if_neg Bool.false_ne_true,
      hllDenseSumLoop_eq hget (by rw [hregs, Nat.zero_add]), Option.map_some, drop_zero,
      addZeros_foldl_zero]

theorem hllSparseSum_total {s : Sds} (h : SparseHll s regs) :
    hllSparseSum s = some (total regs, false) := by
  obtain ⟨hdr, ops, hheader, hlayout, rfl, hcover⟩ := h
  have htext := hlayout.text
  have hloop := hllSparseSumLoop_text (l := []) (s.len + 1) [] 0 htext (HllText.start hheader)
    htext.length_lt
  have heq := hllSparseSumLoop_eq s (s.len + 1) hllHdrSize 0 []
  rw [hloop, hcover] at heq
  rw [hllSparseSum]
  simp only [foldl_nil] at heq
  rw [heq]
  simp [addZeros_foldl_zero, hllRegisters]

theorem hllRawSum_total (h : regs.length = hllRegisters) : hllRawSum regs = total regs := by
  rw [hllRawSum, hllRawSumLoop_eq (by rw [h]; rfl), addZeros_foldl_zero]

/-! ## Registers in a block -/

/-- A register that is written reads back, and the others stay when the value fits in the
register; the sums depend on the registers only. -/
theorem registers_exact :
    (∀ (registers : Bytes) (i v : Nat), hllRegisters * hllBits / 8 < registers.length →
      i < hllRegisters → ∃ registers', hllDenseSetRegister registers i v = some registers' ∧
        hllDenseGetRegister registers' i = some (v % 64) ∧
        (v < 64 → ∀ j, j < hllRegisters → j ≠ i →
          hllDenseGetRegister registers' j = hllDenseGetRegister registers j)) ∧
    ∀ regs : List Nat, regs.length = hllRegisters →
      (∀ registers, DenseBlock registers regs →
        ∀ unrolled, hllDenseSum unrolled registers = some (total regs)) ∧
      (∀ s, SparseHll s regs → hllSparseSum s = some (total regs, false)) ∧
      hllRawSum regs = total regs := by
  refine ⟨fun registers i v hlen hi => ?_, fun regs hregs =>
    ⟨fun registers h => hllDenseSum_total h, fun s h => hllSparseSum_total h,
      hllRawSum_total hregs⟩⟩
  have hin (j : Nat) (hj : j < hllRegisters) : j * hllBits / 8 + 1 < registers.length := by
    simp only [hllRegisters, hllBits] at *
    omega
  obtain ⟨registers', hset⟩ := PackedBits.set_isSome v (hin i hi)
  refine ⟨registers', hset, PackedBits.get_set_self (by decide) hset, fun hv j hj hne => ?_⟩
  obtain ⟨x, hx⟩ := PackedBits.get_isSome (hin j hj)
  have hget := PackedBits.get_set (by decide) hv hset hx
  rw [if_neg hne] at hget
  exact hget.trans hx.symm

/-- A value of more than six bits runs over into the next register. -/
theorem setRegister_runs_over :
    ¬∀ (registers : Bytes) (i v : Nat), hllRegisters * hllBits / 8 < registers.length →
      i < hllRegisters → ∃ registers', hllDenseSetRegister registers i v = some registers' ∧
        ∀ j, j < hllRegisters → j ≠ i →
          hllDenseGetRegister registers' j = hllDenseGetRegister registers j := by
  intro h
  have hset (t : Bytes) : hllDenseSetRegister (0 :: 0 :: t) 0 64 = some (64 :: 0 :: t) := rfl
  have hget (t : Bytes) : hllDenseGetRegister (0 :: 0 :: t) 1 = some 0 := rfl
  have hover (t : Bytes) : hllDenseGetRegister (64 :: 0 :: t) 1 = some 1 := rfl
  obtain ⟨registers', hregs, hframe⟩ := h (0 :: 0 :: replicate 12287 0) 0 64
    (by rw [length_cons, length_cons, length_replicate]; decide) (by decide)
  rw [hset] at hregs
  obtain rfl := Option.some.inj hregs
  have hnext := hframe 1 (by decide) (by decide)
  rw [hget, hover] at hnext
  exact absurd hnext (by decide)

end Redis.Sums
