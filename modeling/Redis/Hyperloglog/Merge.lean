import Redis.Hyperloglog.Walk

/-!
# Redis.Hyperloglog.Merge

What the walks over a valid HyperLogLog compute: `hllMerge` takes the maximum of every two
registers, and the sums of `hllCount` see every register once, in order.
-/

namespace Redis

open Bytes List

/-! ## One register -/

variable {i n : Nat} {registers : List Nat} {s : Sds} (card : List Nat → UInt64)

theorem hllMaxRegister_spec {a c : List Nat} {x : Nat} (v : Nat) (hi : i = a.length) :
    hllMaxRegister (a ++ x :: c) i v = some (a ++ Nat.max x v :: c) := by
  subst hi
  have hget : (a ++ x :: c)[a.length]? = some x := by simp
  rw [hllMaxRegister, hget, some_bind, Option.pure_def]
  by_cases hlt : v > x
  · have hmax : Nat.max x v = v := Nat.max_eq_right hlt.le
    rw [if_pos hlt, hmax]
    simp
  · have hmax : Nat.max x v = x := Nat.max_eq_left (not_lt.mp hlt)
    rw [if_neg hlt, hmax]

/-! ## Dense HyperLogLogs -/

theorem hllMergeDense_spec {hdr : Bytes} {regs : List Nat} (h : HllDenseRegs s hdr regs)
    {a b l r : List Nat} (hregs : regs = l ++ r) (hlen : b.length = r.length)
    (ha : a.length = l.length) :
    hllMergeDense s r.length l.length (a ++ b) = some (a ++ zipWith Nat.max b r) := by
  induction r generalizing a b l with
  | nil =>
    obtain rfl := length_eq_zero_iff.mp hlen
    rfl
  | cons v r ih =>
    cases b with
    | nil => simp at hlen
    | cons x b =>
      have hin : l.length < hllRegisters := by
        rw [← h.length, hregs]
        simp
      have hget : hllDenseGetRegister (s.buf.drop hllHdrSize) l.length = some v := by
        rw [h.get _ hin, hregs]
        simp
      have hrec := ih (a := a ++ [Nat.max x v]) (b := b) (l := l ++ [v])
        (by simp [hregs]) (by simpa using hlen) (by simp [ha])
      simp only [append_assoc, singleton_append, length_append,
        length_singleton] at hrec
      simp only [length_cons, hllMergeDense, hget, hllMaxRegister_spec v ha.symm, hrec,
        some_bind, zipWith_cons_cons]

theorem HllDenseRegs.encoding {hdr : Bytes} {regs : List Nat} (h : HllDenseRegs s hdr regs)
    (hheader : HllHeader hdr hllDense) : s.buf[hllEncodingOffset]? = some hllDense := by
  have hcut : s.buf = s.buf.take hllHdrSize ++ s.buf.drop hllHdrSize :=
    (take_append_drop _ _).symm
  obtain ⟨notused, card, hhdr, _⟩ := hheader
  rw [hcut, h.header, hhdr]
  simp [hllEncodingOffset, hllMagic]

/-- Every string of the size of a dense HyperLogLog holds some registers. -/
theorem exists_hllDenseRegs (hlen : s.len = hllDenseSize) :
    ∃ regs, HllDenseRegs s (s.buf.take hllHdrSize) regs := by
  have hget (i : Nat) (hi : i < hllRegisters) :
      ∃ v, hllDenseGetRegister (s.buf.drop hllHdrSize) i = some v :=
    PackedBits.get_isSome (register_bounds hlen hi)
  refine ⟨ofFn fun i : Fin hllRegisters => (hget i i.isLt).choose, hlen, rfl,
    length_ofFn, fun i hi => ?_⟩
  rw [List.getElem?_ofFn, dif_pos hi]
  exact (hget i hi).choose_spec

/-! ## Sparse HyperLogLogs -/

theorem hllMergeRun_spec (v n : Nat) {a b c : List Nat} (hi : i = a.length) (hn : b.length = n)
    (hin : (a ++ (b ++ c)).length ≤ hllRegisters) :
    hllMergeRun v n (a ++ (b ++ c)) i =
      some (a ++ (zipWith Nat.max b (replicate n v) ++ c)) := by
  induction b generalizing a n i with
  | nil =>
    subst hn
    rfl
  | cons x b ih =>
    subst hn
    have hmod : i % 2 ^ 32 = i := Nat.mod_eq_of_lt (by
      rw [length_append, length_append, length_cons] at hin
      exact lt_of_le_of_lt (by omega) (by decide : hllRegisters < 2 ^ 32))
    have hrec := ih (a := a ++ [Nat.max x v]) b.length (i := i + 1) (by simp [hi]) rfl
      (by simpa [Nat.add_assoc, Nat.add_comm, Nat.add_left_comm] using hin)
    simp only [append_assoc, singleton_append] at hrec
    simp only [length_cons, hllMergeRun, hmod, cons_append, hllMaxRegister_spec v hi,
      hrec, some_bind, replicate_succ, zipWith_cons_cons]

theorem zipWith_max_zero {b : List Nat} (h : b.length = n) :
    zipWith Nat.max b (replicate n 0) = b := by
  subst h
  induction b with
  | nil => rfl
  | cons x b ih =>
    have hmax : Nat.max x 0 = x := Nat.max_eq_left (Nat.zero_le x)
    rw [length_cons, replicate_succ, zipWith_cons_cons, ih, hmax]

theorem foldlM_mergeRun_spec (ops : List HllOp) {a b c : List Nat} (hi : i = a.length)
    (hb : b.length = (opsRegs ops).length) (hin : (a ++ (b ++ c)).length ≤ hllRegisters) :
    ops.foldlM (runStep hllMergeRun) (a ++ (b ++ c), i) =
      some (a ++ (zipWith Nat.max b (opsRegs ops) ++ c), i + (opsRegs ops).length) := by
  induction ops generalizing a b i with
  | nil =>
    obtain rfl := length_eq_zero_iff.mp hb
    rfl
  | cons o ops ih =>
    rw [opsRegs_cons, length_append, HllOp.length_regs] at hb
    obtain ⟨b₁, b₂, rfl, hb₁⟩ : ∃ b₁ b₂, b = b₁ ++ b₂ ∧ b₁.length = o.span :=
      ⟨b.take o.span, b.drop o.span, (take_append_drop _ _).symm, by
        rw [length_take]
        omega⟩
    have hb₂ : b₂.length = (opsRegs ops).length := by
      rw [length_append] at hb
      omega
    have hzip : zipWith Nat.max (b₁ ++ b₂) (opsRegs (o :: ops)) =
        zipWith Nat.max b₁ o.regs ++ zipWith Nat.max b₂ (opsRegs ops) := by
      rw [opsRegs_cons, zipWith_append (by rw [hb₁, HllOp.length_regs])]
    have hlen : (zipWith Nat.max b₁ o.regs).length = b₁.length := by
      rw [length_zipWith, HllOp.length_regs, hb₁, Nat.min_self]
    have hrun : runStep hllMergeRun (a ++ (b₁ ++ (b₂ ++ c)), i) o =
        some (a ++ (zipWith Nat.max b₁ o.regs ++ (b₂ ++ c)), i + o.span) := by
      rw [runStep]
      cases hval : o.isVal with
      | false =>
        have hvalue : o.value = 0 := by
          cases o with
          | val v n => cases hval
          | _ => rfl
        simp only [Bool.false_eq_true, if_false, HllOp.regs, hvalue, zipWith_max_zero hb₁]
      | true =>
        simp only [if_true, hllMergeRun_spec o.value o.span hi hb₁
          (by simpa only [append_assoc] using hin), Option.map_some, HllOp.regs]
    have hrec := ih (a := a ++ zipWith Nat.max b₁ o.regs) (b := b₂) (i := i + o.span)
      (by rw [length_append, hlen, hb₁, hi]) hb₂ (by
        simp only [length_append, hlen] at hin ⊢
        omega)
    rw [append_assoc] at hrec
    rw [append_assoc, foldlM_cons, hrun, some_bind, hrec,
      hzip, opsRegs_cons, length_append, HllOp.length_regs]
    simp only [append_assoc, Nat.add_assoc]

/-! ## Merging -/

theorem hllMerge_spec {regs max : List Nat} (h : IsHll s regs) (hmax : max.length = hllRegisters) :
    hllMerge max s = some (some (zipWith Nat.max max regs)) := by
  rcases h with ⟨hdr, ops, hheader, hlayout, rfl, hcover⟩ | ⟨hdr, hheader, hregs⟩
  · have htext := hlayout.text
    have hne : ¬hllSparse = hllDense := by decide
    have hfold := foldlM_mergeRun_spec ops (a := []) (b := max) (c := []) (i := 0) rfl
      (by rw [hmax, hcover]) (by simp [hmax])
    simp only [nil_append, append_nil, Nat.zero_add, hcover] at hfold
    simp only [hllMerge, htext.encoding hheader, hne, if_false, some_bind]
    rw [hllMergeLoop_text (l := []) (s.len + 1) max 0 htext (HllText.start hheader)
      htext.length_lt, hfold]
    rfl
  · have henc := hregs.encoding hheader
    have hmerge := hllMergeDense_spec hregs (a := []) (b := max) (l := []) (r := regs) rfl
      (by rw [hmax, hregs.length]) rfl
    simp only [hregs.length, length_nil, nil_append] at hmerge
    simp [hllMerge, henc, hmerge]

/-! ## Counting -/

/-- Three bytes hold four registers. -/
theorem hllDenseGroup_spec {registers : Bytes} {b0 b1 b2 b3 : UInt8} {t : Bytes}
    (h : registers = b0 :: b1 :: b2 :: b3 :: t) :
    [hllDenseGetRegister registers 0, hllDenseGetRegister registers 1,
      hllDenseGetRegister registers 2, hllDenseGetRegister registers 3] =
        (hllDenseGroup b0 b1 b2).map some := by
  subst h
  have hhigh (x : UInt8) (y : Nat) (k : Nat) (hk : 6 ≤ k) : (x.toNat >>> (8 - k) ||| y <<< k) &&& 63 =
      x.toNat >>> (8 - k) &&& 63 := by
    refine Nat.eq_of_testBit_eq fun n => ?_
    have hmask : (63 : Nat).testBit n = decide (n < 6) := PackedBits.testBit_mask 6 n
    rw [Nat.testBit_and, Nat.testBit_and, Nat.testBit_or, hmask, Nat.testBit_shiftLeft]
    by_cases hn : n < 6
    · have hge : ¬k ≤ n := by omega
      simp [hn, hge]
    · simp [hn]
  have h0 := hhigh b0 b1.toNat 8 (by omega)
  have h3 := hhigh b2 b3.toNat 6 (le_refl 6)
  simp only [Nat.sub_self, Nat.shiftRight_zero] at h0
  simp [hllDenseGetRegister, PackedBits.get, hllBits, hllDenseGroup, h0, h3]

theorem hllDenseSum_spec {registers : Bytes} {regs : List Nat}
    (hlen : 3 * n + 1 ≤ registers.length) (hregs : regs.length = 4 * n)
    (hget : ∀ i, i < 4 * n → hllDenseGetRegister registers i = regs[i]?) :
    hllDenseSum registers n = some regs := by
  induction n generalizing registers regs with
  | zero =>
    obtain rfl := length_eq_zero_iff.mp hregs
    rfl
  | succ n ih =>
    obtain ⟨b0, b1, b2, b3, t, rfl⟩ : ∃ b0 b1 b2 b3 t, registers = b0 :: b1 :: b2 :: b3 :: t := by
      match registers, hlen with
      | b0 :: b1 :: b2 :: b3 :: t, _ => exact ⟨b0, b1, b2, b3, t, rfl⟩
    simp only [length_cons] at hlen
    obtain ⟨r0, r1, r2, r3, regs', rfl⟩ :
        ∃ r0 r1 r2 r3 regs', regs = r0 :: r1 :: r2 :: r3 :: regs' := by
      match regs, hregs with
      | r0 :: r1 :: r2 :: r3 :: regs', _ => exact ⟨r0, r1, r2, r3, regs', rfl⟩
    simp only [length_cons] at hregs
    have hrest := @ih (b3 :: t) regs' (by rw [length_cons]; omega)
      (by omega) (by
        intro i hi
        have hdrop := PackedBits.get_drop (w := hllBits) (m := 4) (n := 3)
          (b0 :: b1 :: b2 :: b3 :: t) i rfl
        have hthis := hget (4 + i) (by omega)
        rw [hllDenseGetRegister] at hthis ⊢
        rw [drop_succ_cons, drop_succ_cons, drop_succ_cons, drop_zero] at hdrop
        rw [hdrop, hthis, Nat.add_comm]
        rfl)
    have hgroup := hllDenseGroup_spec (rfl : b0 :: b1 :: b2 :: b3 :: t = _)
    rw [hget 0 (by omega), hget 1 (by omega), hget 2 (by omega), hget 3 (by omega)] at hgroup
    have hfour : hllDenseGroup b0 b1 b2 = [r0, r1, r2, r3] := by
      simpa [hllDenseGroup, eq_comm] using hgroup
    simp [hllDenseSum, hrest, hfour]

theorem hllRawSum_spec (h : registers.length = 8 * n) : hllRawSum n registers = registers := by
  induction n generalizing registers with
  | zero =>
    obtain rfl := length_eq_zero_iff.mp h
    rfl
  | succ n ih =>
    have hword : (if (registers.take 8).all (· == 0) then replicate 8 0
        else registers.take 8) = registers.take 8 := by
      split
      next hzero =>
        rw [all_eq_true] at hzero
        refine (eq_replicate_iff.mpr ⟨?_, fun x hx => by simpa using hzero x hx⟩).symm
        rw [length_take]
        omega
      next => rfl
    rw [hllRawSum, hword, ih (by rw [length_drop]; omega), take_append_drop]

/-- `hllCount` depends on the registers only, not on how they are held. -/
theorem hllCount_spec {regs : List Nat} (h : IsHll s regs) :
    hllCount card s = some (card regs, false) := by
  rcases h with ⟨hdr, ops, hheader, hlayout, rfl, hcover⟩ | ⟨hdr, hheader, hregs⟩
  · have htext := hlayout.text
    have hne : ¬hllSparse = hllDense := by decide
    have hsum : (ops.map HllOp.span).sum = hllRegisters := by rw [← length_opsRegs, hcover]
    simp only [hllCount, htext.encoding hheader, hne, if_false, hllSparseSum_eq htext hheader,
      hsum, some_bind]
    rfl
  · have hsize := s.size
    have hsum : hllDenseSum (s.buf.drop hllHdrSize) (hllRegisters / 4) = some regs := by
      have hlen := hregs.len
      refine hllDenseSum_spec ?_ hregs.length hregs.get
      rw [length_drop]
      simp only [hllDenseSize, hllHdrSize, hllRegisters, hllBits] at *
      omega
    simp [hllCount, hregs.encoding hheader, hsum]

theorem hllCountRaw_spec (h : registers.length = hllRegisters) :
    hllCountRaw card registers = card registers := by
  rw [hllCountRaw, hllRawSum_spec h]

end Redis
