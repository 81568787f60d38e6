import Redis.Hyperloglog.Checked

/-!
# Redis.Hyperloglog.Corrupt

What the functions on sparse HyperLogLogs do with the strings that `isHLLObjectOrReply` accepts:
the opcodes of such a string may stand for any number of registers.
-/

namespace Redis

open Bytes List Option

/-! ## Runs of registers -/

/-- Every register for which the opcodes give a value exists, the first one having the number
`idx`, which is an `int`. -/
def valsInside : Nat → List HllOp → Bool
  | _, [] => true
  | idx, o :: ops =>
    (!o.isVal || decide (idx % 2 ^ 32 + o.span ≤ hllRegisters)) && valsInside (idx + o.span) ops

/-- The opcode that covers the register `index`, with its first register. -/
def hllCover (index : Nat) : Nat → List HllOp → Option (Nat × HllOp)
  | _, [] => none
  | first, o :: ops =>
    if index < first + o.span then some (first, o) else hllCover index (first + o.span) ops

/-! ## Blocks -/

theorem Sds.store_size {s s' : Sds} {off : Nat} {bs : Bytes} (h : s.store off bs = some s') :
    s'.len = s.len ∧ s'.buf.length = s.buf.length ∧ s'.free = s.free := by
  unfold Sds.store at h
  split at h
  next buf hbuf =>
    cases h
    exact ⟨rfl, length_store hbuf, rfl⟩
  · cases h

theorem Sds.store_isSome {s : Sds} (off : Nat) (bs : Bytes)
    (h : off + bs.length ≤ s.buf.length) : ∃ s', s.store off bs = some s' := by
  have hstore : Bytes.store s.buf off bs = some _ := if_pos h
  obtain ⟨s', hs', _⟩ := Sds.store_spec hstore
  exact ⟨s', hs'⟩

theorem Sds.setRegister_isSome {s : Sds} {i : Nat} (v : Nat)
    (hlen : s.buf.length = hllDenseSize + 1) (hi : i < hllRegisters) :
    ∃ s', s.setRegister i v = some s' ∧ s'.buf.length = hllDenseSize + 1 := by
  have hdrop : (s.buf.drop hllHdrSize).length = hllDenseSize + 1 - hllHdrSize := by
    rw [length_drop, hlen]
  have hroom : i * hllBits / 8 + 1 < (s.buf.drop hllHdrSize).length := by
    rw [hdrop]
    simp only [hllDenseSize, hllHdrSize, hllRegisters, hllBits] at *
    omega
  obtain ⟨registers, hset⟩ := PackedBits.set_isSome v hroom
  have hlen' := PackedBits.length_set hset
  obtain ⟨s', hs'⟩ := Sds.store_isSome (s := s) hllHdrSize registers (by
    rw [hlen', hdrop, hlen]
    simp only [hllDenseSize]
    omega)
  refine ⟨s', ?_, by rw [(Sds.store_size hs').2.1, hlen]⟩
  rw [Sds.setRegister, hllDenseSetRegister, hset]
  exact hs'

/-- A register that does not exist is outside the block. -/
theorem Sds.setRegister_eq_none {s : Sds} {i : Nat} (v : Nat)
    (hlen : s.buf.length = hllDenseSize + 1) (hi : hllRegisters ≤ i) : s.setRegister i v = none := by
  have hout : (s.buf.drop hllHdrSize).length ≤ i * hllBits / 8 + 1 := by
    rw [length_drop, hlen]
    simp only [hllDenseSize, hllHdrSize, hllRegisters, hllBits] at *
    omega
  rw [Sds.setRegister, hllDenseSetRegister, PackedBits.set]
  have hnone (x : Bytes) (hx : x.length = (s.buf.drop hllHdrSize).length) :
      x[i * hllBits / 8 + 1]? = none := getElem?_eq_none (by omega)
  cases hb : (s.buf.drop hllHdrSize)[i * hllBits / 8]? with
  | none => rfl
  | some b => simp [hnone]

/-! ## The walks -/

theorem hllSetRun_inside {v : Nat} : ∀ (n : Nat) {s : Sds} {idx : Nat},
    s.buf.length = hllDenseSize + 1 → idx % 2 ^ 32 + n ≤ hllRegisters →
    ∃ s', hllSetRun v n s idx = some s' ∧ s'.buf.length = hllDenseSize + 1
  | 0, s, idx, hlen, _ => ⟨s, rfl, hlen⟩
  | n + 1, s, idx, hlen, hle => by
    obtain ⟨s₁, hs₁, hlen₁⟩ := Sds.setRegister_isSome v hlen (by omega : idx % 2 ^ 32 < hllRegisters)
    have hnext : (idx + 1) % 2 ^ 32 + n ≤ hllRegisters := by
      have : hllRegisters < 2 ^ 32 := by decide
      omega
    obtain ⟨s', hs', hlen'⟩ := hllSetRun_inside n hlen₁ hnext
    exact ⟨s', by rw [hllSetRun, hs₁, some_bind, hs'], hlen'⟩

theorem hllSetRun_outside {v : Nat} : ∀ (n : Nat) {s : Sds} {idx : Nat},
    s.buf.length = hllDenseSize + 1 → 0 < n → hllRegisters < idx % 2 ^ 32 + n →
    hllSetRun v n s idx = none
  | 0, _, _, _, hpos, _ => by omega
  | n + 1, s, idx, hlen, _, hlt => by
    rw [hllSetRun]
    by_cases hin : idx % 2 ^ 32 < hllRegisters
    · obtain ⟨s₁, hs₁, hlen₁⟩ := Sds.setRegister_isSome v hlen hin
      rw [hs₁, some_bind]
      have hbig : hllRegisters < 2 ^ 32 := by decide
      exact hllSetRun_outside n hlen₁ (by omega) (by omega)
    · rw [Sds.setRegister_eq_none v hlen (by omega)]
      rfl

theorem hllMergeRun_inside {v : Nat} : ∀ (n : Nat) {max : List Nat} {i : Nat},
    max.length = hllRegisters → i % 2 ^ 32 + n ≤ hllRegisters →
    ∃ max', hllMergeRun v n max i = some max' ∧ max'.length = hllRegisters
  | 0, max, i, hlen, _ => ⟨max, rfl, hlen⟩
  | n + 1, max, i, hlen, hle => by
    have hget : max[i % 2 ^ 32]? = some max[i % 2 ^ 32] := getElem?_eq_getElem (by omega)
    have hlen₁ : (if v > max[i % 2 ^ 32] then max.set (i % 2 ^ 32) v else max).length =
        hllRegisters := by
      split
      · rw [length_set, hlen]
      · exact hlen
    have hnext : (i + 1) % 2 ^ 32 + n ≤ hllRegisters := by
      have : hllRegisters < 2 ^ 32 := by decide
      omega
    obtain ⟨max', hmax', hlen'⟩ := hllMergeRun_inside (v := v) n hlen₁ hnext
    refine ⟨max', ?_, hlen'⟩
    simp only [hllMergeRun, hllMaxRegister, hget, some_bind, Option.pure_def]
    exact hmax'

theorem hllMergeRun_outside {v : Nat} : ∀ (n : Nat) {max : List Nat} {i : Nat},
    max.length = hllRegisters → 0 < n → hllRegisters < i % 2 ^ 32 + n →
    hllMergeRun v n max i = none
  | 0, _, _, _, hpos, _ => by omega
  | n + 1, max, i, hlen, _, hlt => by
    rw [hllMergeRun, hllMaxRegister]
    by_cases hin : i % 2 ^ 32 < hllRegisters
    · have hget : max[i % 2 ^ 32]? = some max[i % 2 ^ 32] := getElem?_eq_getElem (by omega)
      have hlen₁ : (if v > max[i % 2 ^ 32] then max.set (i % 2 ^ 32) v else max).length =
          hllRegisters := by
        split
        · rw [length_set, hlen]
        · exact hlen
      simp only [hget, some_bind, Option.pure_def]
      have hbig : hllRegisters < 2 ^ 32 := by decide
      exact hllMergeRun_outside n hlen₁ (by omega) (by omega)
    · rw [getElem?_eq_none (by omega)]
      rfl

/-- A walk that handles the run of a `VAL` with `run`, and needs its registers to exist. -/
theorem foldlM_runStep {σ : Type} {run : Nat → Nat → σ → Nat → Option σ} {ok : σ → Prop}
    (hinside : ∀ v n st idx, ok st → idx % 2 ^ 32 + n ≤ hllRegisters →
      ∃ st', run v n st idx = some st' ∧ ok st')
    (houtside : ∀ v n st idx, ok st → 0 < n → hllRegisters < idx % 2 ^ 32 + n →
      run v n st idx = none) {ops : List HllOp} {st : σ} {idx : Nat} (hst : ok st) :
    (valsInside idx ops = true → ∃ st', ops.foldlM (runStep run) (st, idx) =
      some (st', idx + (ops.map HllOp.span).sum)) ∧
    (valsInside idx ops = false → ops.foldlM (runStep run) (st, idx) = none) := by
  induction ops generalizing st idx with
  | nil => exact ⟨fun _ => ⟨st, rfl⟩, fun h => by cases h⟩
  | cons o ops ih =>
    rw [valsInside, map_cons, sum_cons, foldlM_cons, runStep, ← Nat.add_assoc]
    cases hval : o.isVal with
    | false =>
      simp only [Bool.not_false, Bool.true_or, Bool.true_and, Bool.false_eq_true, if_false,
        some_bind]
      exact ih hst
    | true =>
      by_cases hin : idx % 2 ^ 32 + o.span ≤ hllRegisters
      · obtain ⟨st', hrun, hst'⟩ := hinside o.value o.span st idx hst hin
        rw [decide_eq_true hin]
        simp only [Bool.or_true, Bool.true_and, if_true, hrun, map_some, some_bind]
        exact ih hst'
      · rw [decide_eq_false hin]
        simp only [Bool.not_true, Bool.or_false, Bool.false_and, Bool.false_eq_true,
          false_implies, true_implies, if_true, true_and,
          houtside o.value o.span st idx hst o.span_pos (by omega)]
        rfl

theorem foldlM_setRun (ops : List HllOp) (idx : Nat) {dense : Sds}
    (hlen : dense.buf.length = hllDenseSize + 1) :
    (valsInside idx ops = true → ∃ dense', ops.foldlM (runStep hllSetRun) (dense, idx) =
      some (dense', idx + (ops.map HllOp.span).sum)) ∧
    (valsInside idx ops = false → ops.foldlM (runStep hllSetRun) (dense, idx) = none) :=
  foldlM_runStep (fun _ n _ _ h hle => hllSetRun_inside n h hle)
    (fun _ n _ _ h hpos hlt => hllSetRun_outside n h hpos hlt) hlen

theorem foldlM_mergeRun (ops : List HllOp) (i : Nat) {max : List Nat}
    (hlen : max.length = hllRegisters) :
    (valsInside i ops = true → ∃ max', ops.foldlM (runStep hllMergeRun) (max, i) =
      some (max', i + (ops.map HllOp.span).sum)) ∧
    (valsInside i ops = false → ops.foldlM (runStep hllMergeRun) (max, i) = none) :=
  foldlM_runStep (fun _ n _ _ h hle => hllMergeRun_inside n h hle)
    (fun _ n _ _ h hpos hlt => hllMergeRun_outside n h hpos hlt) hlen

/-- Where the registers are as many as there should be, the walk of `hllSparseToDense` sets them
all. -/
theorem foldlM_setRun_regs {hdr : Bytes} : ∀ {l r : List HllOp} {dense : Sds} {idx : Nat},
    HllDenseRegs dense hdr (opsRegs l ++ replicate (opsRegs r).length 0) →
    idx = (opsRegs l).length →
    ∃ dense' n, r.foldlM (runStep hllSetRun) (dense, idx) = some (dense', n) ∧
      HllDenseRegs dense' hdr (opsRegs (l ++ r))
  | l, [], dense, idx, hd, _ => ⟨dense, idx, rfl, by simpa using hd⟩
  | l, o :: r, dense, idx, hd, hidx => by
    have hrec {dense' : Sds} (hd' : HllDenseRegs dense' hdr
        (opsRegs l ++ (replicate o.span o.value ++ replicate (opsRegs r).length 0))) :
        ∃ dense'' n, r.foldlM (runStep hllSetRun) (dense', idx + o.span) = some (dense'', n) ∧
          HllDenseRegs dense'' hdr (opsRegs (l ++ o :: r)) := by
      have happ : l ++ o :: r = (l ++ [o]) ++ r := by simp
      rw [happ]
      exact foldlM_setRun_regs (by simpa [HllOp.regs] using hd') (by simp [hidx])
    rw [opsRegs_cons, length_append, replicate_add, HllOp.length_regs] at hd
    rw [foldlM_cons, runStep]
    cases hval : o.isVal with
    | false =>
      have hvalue : o.value = 0 := by
        cases o with
        | val v n => cases hval
        | _ => rfl
      simp only [Bool.false_eq_true, if_false, some_bind]
      exact hrec (by rw [hvalue]; exact hd)
    | true =>
      obtain ⟨dense', hrun, hd'⟩ :=
        hllSetRun_spec (lt_of_le_of_lt o.value_le (by decide)) o.span hidx hd
      simp only [if_true, hrun, map_some, some_bind]
      exact hrec hd'

/-! ## The functions that only read -/

section Reads

variable {s : Sds} {hdr : Bytes} {ops : List HllOp} {cut : Bool}

/-- `hllSparseToDense` is a walk that starts with registers that are all zero. -/
theorem hllSparseToDense_eq (h : HllText s hdr ops cut) (hheader : HllHeader hdr hllSparse) :
    ∃ dense hdr', HllHeader hdr' hllDense ∧ dense.buf.length = hllDenseSize + 1 ∧
      HllDenseRegs dense hdr' (replicate hllRegisters 0) ∧
      hllSparseToDense s = (ops.foldlM (runStep hllSetRun) (dense, 0)).map fun r =>
        if r.2 % 2 ^ 32 ≠ hllRegisters then none else some r.1 := by
  obtain ⟨d₁, d₂, hdr', hd₁, hd₂, hheader', hstart⟩ := denseStart_spec hheader
  have hlen : d₂.buf.length = hllDenseSize + 1 := by
    rw [(Sds.store_size hd₂).2.1, (Sds.store_size hd₁).2.1, sdsnewlen, length_replicate]
  obtain ⟨t, hbuf⟩ := h.buf
  have hload : load s.buf 0 hllHdrSize = some hdr := by
    rw [hbuf]
    exact load_append (a := []) _ rfl hheader.length.symm
  have hne : ¬hllSparse = hllDense := by decide
  refine ⟨d₂, hdr', hheader', hlen, hstart, ?_⟩
  simp only [hllSparseToDense, h.encoding hheader, hne, if_false, hload, hd₁, hd₂, some_bind]
  rw [hllToDenseLoop_text (l := []) (s.len + 1) d₂ 0 h (HllText.start hheader) h.length_lt]
  cases ops.foldlM (runStep hllSetRun) (d₂, 0) <;> rfl

theorem hllMerge_eq (h : HllText s hdr ops cut) (hheader : HllHeader hdr hllSparse)
    (max : List Nat) :
    hllMerge max s = (ops.foldlM (runStep hllMergeRun) (max, 0)).map fun r =>
      if r.2 % 2 ^ 32 ≠ hllRegisters then none else some r.1 := by
  have hne : ¬hllSparse = hllDense := by decide
  simp only [hllMerge, h.encoding hheader, hne, if_false, some_bind]
  rw [hllMergeLoop_text (l := []) (s.len + 1) max 0 h (HllText.start hheader) h.length_lt]
  cases ops.foldlM (runStep hllMergeRun) (max, 0) <;> rfl

/-- The result of a walk, with the check of the number of registers. -/
def walkResult (total : Nat) (r : Option (Option α)) : Prop :=
  ∃ x, r = some x ∧ (total ≠ hllRegisters → x = none)

theorem walkResult_iff {α σ : Type} {total : Nat} {r : Option (σ × Nat)} {f : σ → α}
    {inside : Bool} (hin : inside = true → ∃ x, r = some (x, total))
    (hout : inside = false → r = none) :
    walkResult total (r.map fun r => if r.2 % 2 ^ 32 ≠ hllRegisters then none else some (f r.1)) ↔
      inside = true ∧ (total % 2 ^ 32 = hllRegisters → total = hllRegisters) := by
  cases hi : inside with
  | false =>
    rw [hout hi]
    simp [walkResult]
  | true =>
    obtain ⟨x, hx⟩ := hin hi
    simp only [hx, walkResult, map_some, Option.some.injEq, exists_eq_left', true_and]
    constructor
    · intro h hmod
      by_contra hne
      have hnone := h hne
      rw [if_neg (not_not_intro hmod)] at hnone
      cases hnone
    · intro h hne
      rw [if_pos fun hmod => hne (h hmod)]

theorem hllSparseToDense_tolerates (h : HllText s hdr ops cut)
    (hheader : HllHeader hdr hllSparse) :
    walkResult (ops.map HllOp.span).sum (hllSparseToDense s) ↔ valsInside 0 ops = true ∧
      ((ops.map HllOp.span).sum % 2 ^ 32 = hllRegisters →
        (ops.map HllOp.span).sum = hllRegisters) := by
  obtain ⟨dense, hdr', _, hlen, _, heq⟩ := hllSparseToDense_eq h hheader
  obtain ⟨hin, hout⟩ := foldlM_setRun ops 0 hlen
  rw [Nat.zero_add] at hin
  rw [heq]
  exact walkResult_iff (f := id) hin hout

theorem hllMerge_tolerates (h : HllText s hdr ops cut) (hheader : HllHeader hdr hllSparse)
    {max : List Nat} (hmax : max.length = hllRegisters) :
    walkResult (ops.map HllOp.span).sum (hllMerge max s) ↔ valsInside 0 ops = true ∧
      ((ops.map HllOp.span).sum % 2 ^ 32 = hllRegisters →
        (ops.map HllOp.span).sum = hllRegisters) := by
  obtain ⟨hin, hout⟩ := foldlM_mergeRun ops 0 hmax
  rw [Nat.zero_add] at hin
  rw [hllMerge_eq h hheader]
  exact walkResult_iff (f := id) hin hout

/-- The label `promote`, when a register has to grow. -/
theorem hllSparsePromote_tolerates (h : HllText s hdr ops cut) (hheader : HllHeader hdr hllSparse)
    (hinside : valsInside 0 ops = true)
    (hwrap : (ops.map HllOp.span).sum % 2 ^ 32 = hllRegisters →
      (ops.map HllOp.span).sum = hllRegisters)
    {ele : Bytes} {index count : Nat} (hpat : hllPatLen ele = (index, count))
    (hold : ∀ old, (opsRegs ops)[index]? = some old → old < count) :
    ∃ r, hllSparsePromote s ele = some r ∧
      ((ops.map HllOp.span).sum ≠ hllRegisters → r.2 = -1) := by
  obtain ⟨dense, hdr', hheader', hlen, hstart, heq⟩ := hllSparseToDense_eq h hheader
  by_cases htotal : (ops.map HllOp.span).sum = hllRegisters
  · have hcover : (opsRegs ops).length = hllRegisters := by rw [length_opsRegs, htotal]
    rw [← hcover] at hstart
    obtain ⟨dense', n, hwalk, hregs⟩ := foldlM_setRun_regs (l := []) (r := ops) hstart rfl
    obtain ⟨dense'', hwalk'⟩ := (foldlM_setRun ops 0 hlen).1 hinside
    obtain ⟨hindex, _⟩ := hllPatLen_spec ele
    rw [hpat] at hindex
    have hget : (opsRegs ops)[index]? = some (opsRegs ops)[index] :=
      getElem?_eq_getElem (by rw [hcover]; exact hindex)
    obtain ⟨s', hs', _⟩ := hllDenseAdd_spec hregs hpat hget
    rw [if_pos (hold _ hget)] at hs'
    rw [opsRegs_nil, length_nil, hwalk'] at hwalk
    cases hwalk
    have hdense : hllSparseToDense s = some (some dense') := by
      rw [heq, hwalk', map_some, Nat.zero_add, htotal]
      rfl
    exact ⟨(s', 1), by simp [hllSparsePromote, hdense, hs'], fun hne => absurd htotal hne⟩
  · obtain ⟨dense', hwalk⟩ := (foldlM_setRun ops 0 hlen).1 hinside
    have hdense : hllSparseToDense s = some none := by
      rw [heq, hwalk, map_some, Nat.zero_add, if_pos fun hmod => htotal (hwrap hmod)]
    exact ⟨(s, -1), by simp [hllSparsePromote, hdense], fun _ => rfl⟩

end Reads

end Redis
