import Redis.Hyperloglog.Corrupt
import Redis.Hyperloglog.Merge

/-!
# Redis.Hyperloglog.Tolerant

On which strings the functions of a sparse HyperLogLog stay inside the string and report it when
its opcodes do not stand for as many registers as there are.
-/

namespace Redis

open Bytes List Option

/-! ## Accesses that stay inside -/

theorem Sds.move_isSome {s : Sds} (dst src n : Nat) (hsrc : src + n ≤ s.buf.length)
    (hdst : dst + n ≤ s.buf.length) : ∃ s', s.move dst src n = some s' := by
  have hload : load s.buf src n = some ((s.buf.drop src).take n) := if_pos hsrc
  have hlen : ((s.buf.drop src).take n).length = n := by
    rw [length_take, length_drop]
    omega
  rw [Sds.move, hload, some_bind]
  exact Sds.store_isSome _ _ (by rw [hlen]; exact hdst)

theorem Sds.move_size {s s' : Sds} {dst src n : Nat} (h : s.move dst src n = some s') :
    s'.len = s.len ∧ s'.buf.length = s.buf.length ∧ s'.free = s.free := by
  simp only [Sds.move, bind_eq_some] at h
  obtain ⟨bs, _, h⟩ := h
  exact Sds.store_size h

theorem sdsIncrLen_isSome {s : Sds} (incr : Int) (hlow : 0 ≤ (s.len : Int) + incr)
    (hfree : incr ≤ s.free) : ∃ s', sdsIncrLen s incr = some s' := by
  have hsize := s.size
  rw [sdsIncrLen, dif_pos ⟨hlow, hfree⟩]
  exact Sds.store_isSome _ _ (by simp only [length_singleton]; omega)

theorem sdsIncrLen_len {s s' : Sds} {incr : Int} (h : sdsIncrLen s incr = some s') :
    (s'.len : Int) = s.len + incr := by
  rw [sdsIncrLen] at h
  split at h
  next hrange =>
    rw [(Sds.store_size h).1]
    simp only
    omega
  · cases h

namespace Checked

variable {s : Sds} {p : Nat}

theorem read_isSome (h : p ≤ s.len) : ∃ b, read s p = some b := by
  have hsize := s.size
  rw [read_of_le h]
  exact ⟨_, getElem?_eq_getElem (by omega)⟩

theorem write_isSome (bs : Bytes) (h : p + bs.length ≤ s.len) :
    ∃ s', write s p bs = some s' ∧ s'.len = s.len := by
  have hsize := s.size
  obtain ⟨s', hs'⟩ := Sds.store_isSome (s := s) p bs (by omega)
  exact ⟨s', by rw [write, if_pos h, hs'], (Sds.store_size hs').1⟩

theorem write_eq_none {bs : Bytes} (h : s.len < p + bs.length) : write s p bs = none :=
  if_neg (by omega)

/-- The merge stays inside the string. -/
theorem hllSparseMerge_isSome (scanlen : Nat) {s : Sds} {p : Nat} (hp : hllHdrSize ≤ p)
    (hlen : hllHdrSize ≤ s.len) :
    ∃ s', hllSparseMerge scanlen s p s.len = some s' ∧ hllHdrSize ≤ s'.len := by
  induction scanlen generalizing s p with
  | zero => exact ⟨s, rfl, hlen⟩
  | succ scanlen ih =>
    rw [hllSparseMerge]
    by_cases hlt : p < s.len
    · obtain ⟨b, hb⟩ := read_isSome hlt.le
      obtain ⟨b', hb'⟩ := read_isSome (Nat.succ_le_of_lt hlt)
      rw [if_pos hlt, hb, bind_eq_bind, bind_some]
      split
      · exact ih (hp.trans (Nat.le_add_right _ _)) hlen
      split
      · exact ih (hp.trans (Nat.le_add_right _ _)) hlen
      simp only [hb', bind_some]
      split
      next hmerge =>
        have hsize := s.size
        obtain ⟨s₁, hs₁, hlen₁⟩ := write_isSome (s := s) (p := p + 1)
          [hllSparseValSet (hllSparseValValue b) (hllSparseValLen b + hllSparseValLen b')]
          (Nat.succ_le_of_lt hmerge.1)
        have hsize₁ := s₁.size
        obtain ⟨s₂, hs₂⟩ := Sds.move_isSome (s := s₁) p (p + 1) (s.len - p) (by omega)
          (by omega)
        have hlen₂ := (Sds.move_size hs₂).1
        have hmove : move s₁ s₁.len p (p + 1) (s.len - p) = some s₂ := by
          rw [move, if_pos (by omega), hs₂]
        obtain ⟨s₃, hs₃⟩ := sdsIncrLen_isSome (s := s₂) (-1) (by omega) (by omega)
        have hlen₃ := sdsIncrLen_len hs₃
        have hfin : s.len - 1 = s₃.len := by omega
        simp only [hs₁, hmove, hs₃, some_bind, hfin]
        exact ih hp (by omega)
      · exact ih (hp.trans (Nat.le_add_right _ _)) hlen
    · rw [if_neg hlt]
      exact ⟨s, rfl, hlen⟩

theorem hllSparseUpdated_isSome (prev : Option Nat) (hprev : hllHdrSize ≤ prev.getD hllHdrSize)
    (hlen : hllHdrSize ≤ s.len) : ∃ s', hllSparseUpdated s prev s.len = some (s', 1) := by
  obtain ⟨s₁, hs₁, hlen₁⟩ := hllSparseMerge_isSome 5 hprev hlen
  have hcard : hllCardOffset + 1 ≤ s₁.len := hlen₁
  obtain ⟨card, hread⟩ := read_isSome (s := s₁) (p := hllCardOffset) (by omega)
  obtain ⟨s₂, hs₂, _⟩ := write_isSome (s := s₁) (p := hllCardOffset) [card ||| 0x80] hcard
  exact ⟨s₂, by simp only [hllSparseUpdated, hs₁, hread, hs₂, some_bind, Option.pure_def]⟩

/-- Step 3 stays inside the string when the old opcode does. -/
theorem hllSparseSubstitute_isSome {oldlen : Nat} (seq : Bytes)
    (hold : p + oldlen ≤ s.len) (hfree : seq.length ≤ oldlen + s.free) :
    ∃ s', hllSparseSubstitute s p oldlen seq = some s' ∧ s'.len + oldlen = s.len + seq.length := by
  have hsize := s.size
  obtain ⟨s₁, hs₁, hlen₁, hfree₁⟩ : ∃ s₁,
      (if (seq.length : Int) - oldlen ≠ 0 ∧ p + oldlen < s.len then
        move s (max s.len (s.len + ((seq.length : Int) - oldlen)).toNat)
          (((p + oldlen : Nat) : Int) + ((seq.length : Int) - oldlen)).toNat (p + oldlen)
          (s.len - (p + oldlen))
      else some s) = some s₁ ∧ s₁.len = s.len ∧ s₁.free = s.free := by
    split
    · obtain ⟨s₁, hs₁⟩ := Sds.move_isSome (s := s)
        (((p + oldlen : Nat) : Int) + ((seq.length : Int) - oldlen)).toNat (p + oldlen)
        (s.len - (p + oldlen)) (by omega) (by omega)
      obtain ⟨hlen, _, hfree⟩ := Sds.move_size hs₁
      exact ⟨s₁, by rw [move, if_pos (by omega), hs₁], hlen, hfree⟩
    · exact ⟨s, rfl, rfl, rfl⟩
  obtain ⟨s₂, hs₂⟩ := sdsIncrLen_isSome (s := s₁) ((seq.length : Int) - oldlen)
    (by omega) (by omega)
  have hlen₂ := sdsIncrLen_len hs₂
  obtain ⟨s₃, hs₃, hlen₃⟩ := write_isSome (s := s₂) (p := p) seq (by omega)
  refine ⟨s₃, ?_, by omega⟩
  simp only [hllSparseSubstitute, hs₁, hs₂, some_bind, hs₃]

/-- It does not when the old opcode goes on in the terminator. -/
theorem hllSparseSubstitute_eq_none {oldlen : Nat} {seq : Bytes}
    (hold : s.len < p + oldlen) : hllSparseSubstitute s p oldlen seq = none := by
  have hmove : ¬((seq.length : Int) - oldlen ≠ 0 ∧ p + oldlen < s.len) := by omega
  simp only [hllSparseSubstitute, if_neg hmove, some_bind]
  cases hs₂ : sdsIncrLen s ((seq.length : Int) - oldlen) with
  | none => rfl
  | some s₂ =>
    have hlen₂ := sdsIncrLen_len hs₂
    exact write_eq_none (by omega)

end Checked

/-! ## The opcode of a register -/

theorem hllCover_spec {index first₀ first : Nat} {ops : List HllOp} {o : HllOp}
    (h : hllCover index first₀ ops = some (first, o)) (hle : first₀ ≤ index) :
    ∃ l r, ops = l ++ o :: r ∧ first = first₀ + (opsRegs l).length ∧ first ≤ index ∧
      index < first + o.span := by
  induction ops generalizing first₀ with
  | nil => cases h
  | cons a ops ih =>
    rw [hllCover] at h
    split at h
    next hin =>
      cases h
      exact ⟨[], ops, rfl, rfl, hle, hin⟩
    next hin =>
      obtain ⟨l, r, rfl, hfirst, hle', hlt⟩ := ih h (by omega)
      exact ⟨a :: l, r, rfl, by simp [hfirst, Nat.add_assoc], hle', hlt⟩

namespace Checked

variable {s : Sds} {hdr : Bytes} {cut : Bool}

theorem hllSparseSpan_text {l r : List HllOp} {o : HllOp} {p : Nat}
    (h : HllText s hdr (l ++ o :: r) cut) (hp : p = hdr.length + (opsBytes l).length) :
    hllSparseSpan s p = some (o.span, o.bytes.length) := by
  obtain ⟨hlt, b, hb, hkind⟩ := h.read hp
  rw [hllSparseSpan, read_of_le hlt.le, hb, some_bind]
  rcases hkind with ⟨hzero, _, _, hsize, hspan, _⟩ |
    ⟨hzero, _, hval, hsize, ⟨b', hb', hspan⟩, _⟩ | ⟨hzero, _, hval, hsize, hspan, _⟩
  · simp [hzero, hsize, hspan]
  · simp [hzero, hval, read_of_le (Nat.succ_le_of_lt hlt), hb', hsize, hspan]
  · simp [hzero, hval, hsize, hspan]

/-- The search ends at the opcode that covers the register, or else behind all opcodes. -/
theorem hllSparseLocate_text (index fuel : Nat) {pos : HllPos} {l r : List HllOp}
    (h : HllText s hdr (l ++ r) cut) (hpos : pos.At hdr l) (hle : (opsRegs l).length ≤ index)
    (hfuel : r.length < fuel) :
    (∀ first o, hllCover index (opsRegs l).length r = some (first, o) →
      ∃ pos' l' r', hllSparseLocate s index fuel pos = some pos' ∧ l ++ r = l' ++ o :: r' ∧
        pos'.At hdr l' ∧ pos'.span = o.span ∧ first = (opsRegs l').length) ∧
    (hllCover index (opsRegs l).length r = none →
      ∃ pos', hllSparseLocate s index fuel pos = some pos' ∧
        pos'.p = hdr.length + (opsBytes (l ++ r)).length ∧
        (pos'.span = 0 ↔ pos.span = 0 ∧ r = [])) := by
  induction fuel generalizing pos l r with
  | zero => omega
  | succ fuel ih =>
    cases r with
    | nil =>
      rw [append_nil] at h
      have hstop := h.stop hpos.p
      refine ⟨(fun _ _ hsome => by cases hsome), fun _ => ⟨pos, ?_, ?_, by simp⟩⟩
      · rw [hllSparseLocate, if_neg hstop]
      · rw [append_nil, hpos.p]
    | cons o r =>
      have hlt := (h.read hpos.p).1
      have hspan := o.span_pos
      rw [hllSparseLocate, if_pos hlt, hllSparseSpan_text h hpos.p, some_bind, hllCover, hpos.first]
      by_cases hin : index < (opsRegs l).length + o.span
      · rw [if_pos hin, if_pos (by omega)]
        refine ⟨?_, fun hnone => by cases hnone⟩
        rintro first o' heq
        cases heq
        exact ⟨_, l, r, rfl, rfl, ⟨hpos.p, rfl, hpos.prev⟩, rfl, rfl⟩
      · rw [if_neg hin, if_neg (by omega)]
        have hregs : (opsRegs (l ++ [o])).length = (opsRegs l).length + o.span := by simp
        have happ : l ++ o :: r = (l ++ [o]) ++ r := by simp
        have hnext : HllPos.At ⟨pos.p + o.bytes.length, some pos.p,
            (opsRegs (l ++ [o])).length, o.span⟩ hdr (l ++ [o]) := by
          constructor
          · rw [length_opsBytes_snoc, hpos.p]
          · rfl
          · exact ⟨l, [o], rfl, hpos.p⟩
        rw [← hregs, happ]
        obtain ⟨hcover, hnone⟩ := ih h.snoc hnext (by omega) (by simpa using hfuel)
        refine ⟨hcover, fun hno => ?_⟩
        obtain ⟨pos', hpos', hp', hspan'⟩ := hnone hno
        refine ⟨pos', hpos', hp', ⟨fun hzero => ?_, fun hnil => by cases hnil.2⟩⟩
        have hspan₀ : o.span = 0 := (hspan'.mp hzero).1
        omega

end Checked

/-! ## The size of the new opcodes -/

/-- The bytes that `n` registers take beside the one that is set. -/
def hllRunBytes (n : Nat) : Nat := if n = 0 then 0 else if n ≤ hllSparseZeroMaxLen then 1 else 2

/-- The bytes that take the place of the opcode `o`, whose first register is `first`. -/
def hllSplitBytes (index first : Nat) (o : HllOp) : Nat :=
  hllRunBytes (index - first) + 1 + hllRunBytes (first + o.span - 1 - index)

/-- With them, a string of `len` bytes is longer than a sparse one may be. -/
def hllOutgrows (maxBytes len index first : Nat) (o : HllOp) : Prop :=
  o.bytes.length < hllSplitBytes index first o ∧
    maxBytes < len + (hllSplitBytes index first o - o.bytes.length)

instance (maxBytes len index first : Nat) (o : HllOp) :
    Decidable (hllOutgrows maxBytes len index first o) :=
  inferInstanceAs (Decidable (_ ∧ _))

theorem length_hllZeroRun {n : Nat} (h : n ≠ 0) : (hllZeroRun n).length = hllRunBytes n := by
  rw [hllZeroRun, hllRunBytes, if_neg h]
  by_cases hle : n ≤ hllSparseZeroMaxLen
  · rw [if_pos hle, if_neg (not_lt.mpr hle)]
    rfl
  · rw [if_neg hle, if_pos (not_le.mp hle)]
    rfl

theorem length_hllSplit {run : Nat → Bytes} {count index first : Nat} {o : HllOp}
    (hrun : ∀ n, n ≠ 0 → n < o.span → (run n).length = hllRunBytes n) (hle : first ≤ index)
    (hlt : index < first + o.span) :
    (hllSplit run count index first (first + o.span - 1)).length = hllSplitBytes index first o := by
  have hbefore : (if index ≠ first then run (index - first) else []).length =
      hllRunBytes (index - first) := by
    split
    next hne => exact hrun _ (by omega) (by omega)
    next heq => rw [show index - first = 0 by omega]; rfl
  have hafter : (if index ≠ first + o.span - 1 then run (first + o.span - 1 - index) else []).length =
      hllRunBytes (first + o.span - 1 - index) := by
    split
    next hne => exact hrun _ (by omega) (by omega)
    next heq => rw [show first + o.span - 1 - index = 0 by omega]; rfl
  rw [hllSplit, length_append, length_cons, hbefore, hafter, hllSplitBytes]
  omega

theorem hllRunBytes_le (n : Nat) : hllRunBytes n ≤ 2 := by
  rw [hllRunBytes]
  split
  · omega
  · split <;> omega

theorem hllRunBytes_le_one {n : Nat} (h : n ≤ hllSparseZeroMaxLen) : hllRunBytes n ≤ 1 := by
  rw [hllRunBytes]
  split
  · omega
  · exact le_refl 1

/-- The new opcodes fit into the room made for them. -/
theorem hllSplitBytes_le {index first : Nat} {o : HllOp} (hle : first ≤ index)
    (hlt : index < first + o.span) : hllSplitBytes index first o ≤ o.bytes.length + 3 := by
  rw [hllSplitBytes]
  cases o with
  | xzero n =>
    have hbefore := hllRunBytes_le (index - first)
    have hafter := hllRunBytes_le (first + (HllOp.xzero n).span - 1 - index)
    have hsize : (HllOp.xzero n).bytes.length = 2 := rfl
    omega
  | zero n =>
    have hspan : (HllOp.zero n).span ≤ hllSparseZeroMaxLen := n.isLt
    have hbefore := hllRunBytes_le_one (n := index - first) (by omega)
    have hafter := hllRunBytes_le_one (n := first + (HllOp.zero n).span - 1 - index) (by omega)
    omega
  | val v n =>
    have hspan : (HllOp.val v n).span ≤ 4 := n.isLt
    have hmax : hllSparseZeroMaxLen = 64 := rfl
    have hbefore := hllRunBytes_le_one (n := index - first) (by omega)
    have hafter := hllRunBytes_le_one (n := first + (HllOp.val v n).span - 1 - index) (by omega)
    omega

/-! ## At the opcode -/

namespace Checked

section AddAt

variable {s : Sds} {hdr ele : Bytes} {l r : List HllOp} {o : HllOp} {cut : Bool}
  {pos : HllPos} {index count maxBytes : Nat}

/-- The four ways in which `hllSparseAdd` goes on at the opcode `o`. -/
structure AddOutcome (res : Option (Sds × Int)) (maxBytes : Nat) (s : Sds) (ele : Bytes)
    (index count first : Nat) (o : HllOp) (inside : Prop) : Prop where
  same : count ≤ o.value → res = some (s, 0)
  promote : o.value < count → hllOutgrows maxBytes s.len index first o →
    res = hllSparsePromote s ele
  update : o.value < count → ¬hllOutgrows maxBytes s.len index first o → inside →
    ∃ s', res = some (s', 1)
  fail : o.value < count → ¬hllOutgrows maxBytes s.len index first o → ¬inside → res = none

/-- An opcode of one byte for one register is overwritten. -/
theorem hllSparseOverwrite_isSome (h : HllText s hdr (l ++ o :: r) cut)
    (hheader : hdr.length = hllHdrSize) (hpos : pos.At hdr l) :
    ∃ s', ((write s pos.p [hllSparseValSet count 1]).bind fun s =>
      hllSparseUpdated s pos.prev s.len) = some (s', 1) := by
  have hlt := (h.read hpos.p).1
  obtain ⟨a, b, _, hprev⟩ := hpos.prev
  obtain ⟨s₁, hs₁, hlen₁⟩ := write_isSome (s := s) (p := pos.p) [hllSparseValSet count 1] hlt
  rw [hheader] at hprev
  obtain ⟨s₂, hs₂⟩ := hllSparseUpdated_isSome (s := s₁) pos.prev (by omega)
    (by have := hpos.p; omega)
  exact ⟨s₂, by rw [hs₁, bind_some, hs₂]⟩

/-- Case D of `hllSparseAdd`, for the new opcodes `seq`. -/
theorem hllSparseReplace_outcome (hheader : hdr.length = hllHdrSize) (hpos : pos.At hdr l) (hfree : 3 ≤ s.free)
    (hle : pos.first ≤ index) (hlt : index < pos.first + o.span) {seq : Bytes}
    (hseq : seq.length = hllSplitBytes index pos.first o) (hgrow : o.value < count) :
    AddOutcome (if seq.length > o.bytes.length ∧ s.len + (seq.length - o.bytes.length) > maxBytes
        then hllSparsePromote s ele
        else (hllSparseSubstitute s pos.p o.bytes.length seq).bind fun s =>
          hllSparseUpdated s pos.prev s.len) maxBytes s ele index count pos.first o
      (pos.p + o.bytes.length ≤ s.len) := by
  have hcond : (seq.length > o.bytes.length ∧ s.len + (seq.length - o.bytes.length) > maxBytes) ↔
      hllOutgrows maxBytes s.len index pos.first o := by
    rw [hseq]
    rfl
  constructor
  · intro hsame
    omega
  · intro _ hout
    rw [if_pos (hcond.mpr hout)]
  · intro _ hout hinside
    rw [if_neg (hcond.not.mpr hout)]
    have hroom := hllSplitBytes_le hle hlt
    obtain ⟨s₁, hs₁, hlen₁⟩ := hllSparseSubstitute_isSome (s := s) seq hinside (by omega)
    obtain ⟨a, b, _, hprev⟩ := hpos.prev
    have hp := hpos.p
    rw [hheader] at hprev
    obtain ⟨s₂, hs₂⟩ := hllSparseUpdated_isSome (s := s₁) pos.prev (by omega) (by omega)
    exact ⟨s₂, by rw [hs₁, bind_some, hs₂]⟩
  · intro _ hout hinside
    rw [if_neg (hcond.not.mpr hout), hllSparseSubstitute_eq_none (by omega), bind_none]

theorem not_hllOutgrows_one {maxBytes len index first : Nat} (hspan : o.span = 1)
    (hle : first ≤ index) (hlt : index < first + o.span) :
    ¬hllOutgrows maxBytes len index first o := by
  rintro ⟨hbytes, _⟩
  have hpos := o.length_bytes_pos
  have hbefore : index - first = 0 := by omega
  have hafter : first + o.span - 1 - index = 0 := by omega
  rw [hllSplitBytes, hbefore, hafter] at hbytes
  have hzero : hllRunBytes 0 = 0 := rfl
  omega

theorem hllSparseAddAt_outcome (maxBytes : Nat) (ele : Bytes) (h : HllText s hdr (l ++ o :: r) cut)
    (hheader : hdr.length = hllHdrSize) (hpos : pos.At hdr l) (hspan : pos.span = o.span)
    (hfree : 3 ≤ s.free) (hle : pos.first ≤ index) (hlt : index < pos.first + o.span)
    (hcount : 0 < count) :
    AddOutcome (hllSparseAddAt maxBytes s ele index count pos) maxBytes s ele index count pos.first
      o (pos.p + o.bytes.length ≤ s.len) := by
  obtain ⟨hin, b, hb, hkind⟩ := h.read hpos.p
  have hread : read s pos.p = some b := by rw [read_of_le hin.le, hb]
  have hone (hsize : o.bytes.length = 1) (hs1 : o.span = 1) (hgrow : o.value < count) :
      AddOutcome ((write s pos.p [hllSparseValSet count 1]).bind fun s =>
        hllSparseUpdated s pos.prev s.len) maxBytes s ele index count pos.first o
          (pos.p + o.bytes.length ≤ s.len) := by
    constructor
    · intro hsame
      omega
    · intro _ hout
      exact absurd hout (not_hllOutgrows_one hs1 hle hlt)
    · intro _ _ _
      exact hllSparseOverwrite_isSome h hheader hpos
    · intro _ _ hinside
      omega
  have hzeros : (hllSplit hllZeroRun count index pos.first (pos.first + o.span - 1)).length =
      hllSplitBytes index pos.first o := length_hllSplit (fun n hn _ => length_hllZeroRun hn) hle hlt
  simp only [hllSparseAddAt, hread, hllSparseSpan_text h hpos.p, hspan, bind_eq_bind,
    bind_some]
  rcases hkind with ⟨hzero, hxzero, _, hsize, _, hvalue, _⟩ |
    ⟨hzero, hxzero, _, hsize, _, hvalue, _⟩ | ⟨hzero, hxzero, _, hsize, _, hvalue, hval⟩
  · simp only [hzero, hxzero, Bool.not_true, Bool.false_and, Bool.false_eq_true, if_false,
      Bool.false_or, Bool.true_and, beq_iff_eq]
    by_cases hs1 : o.span = 1
    · rw [if_pos hs1]
      exact hone hsize hs1 (by omega)
    · rw [if_neg hs1]
      simpa only [hsize] using
        hllSparseReplace_outcome hheader hpos hfree hle hlt hzeros (by omega)
  · simp only [hzero, hxzero, Bool.not_true, Bool.not_false, Bool.and_false, Bool.false_and,
      Bool.or_false, Bool.false_eq_true, if_false, if_true]
    rw [← hsize]
    exact hllSparseReplace_outcome hheader hpos hfree hle hlt hzeros (by omega)
  · simp only [hzero, hxzero, hvalue, Bool.not_false, Bool.and_self, Bool.true_and, Bool.true_or,
      Bool.false_eq_true, if_false, if_true, decide_eq_true_eq, beq_iff_eq]
    by_cases hgrow : o.value < count
    · rw [if_neg (by omega)]
      by_cases hs1 : o.span = 1
      · rw [if_pos hs1]
        exact hone hsize hs1 hgrow
      · rw [if_neg hs1]
        have hrun (n : Nat) (hn : n ≠ 0) (hlen : n < o.span) :
            [hllSparseValSet o.value n].length = hllRunBytes n := by
          have hmax : o.span ≤ 4 := by
            cases o with
            | val v n => exact n.isLt
            | _ => cases hval
          have hshort : n ≤ hllSparseZeroMaxLen := by
            have : hllSparseZeroMaxLen = 64 := rfl
            omega
          rw [hllRunBytes, if_neg hn, if_pos hshort]
          rfl
        simpa only [hsize] using hllSparseReplace_outcome hheader hpos hfree hle hlt
          (length_hllSplit hrun hle hlt) hgrow
    · rw [if_pos (by omega)]
      constructor
      · intro _
        rfl
      all_goals
        intro hgrow'
        exact absurd hgrow' hgrow

end AddAt

end Checked

/-! ## Strings that pass for a HyperLogLog -/

/-- The opcodes of a string. -/
def hllOps (s : Sds) : List HllOp := (hllOpcodes s.hllData).1

/-- The last opcode is an `XZERO` of which the string has the first byte only. -/
def hllCut (s : Sds) : Bool := (hllOpcodes s.hllData).2

/-- The sum of the run lengths. -/
def hllTotal (s : Sds) : Nat := ((hllOps s).map HllOp.span).sum

/-- The string is a sparse HyperLogLog whose run lengths do not sum up to the number of
registers. -/
def HllCorrupt (s : Sds) : Prop :=
  s.buf[hllEncodingOffset]? = some hllSparse ∧ hllTotal s ≠ hllRegisters

theorem hllText_hllOps {s : Sds} (hterm : s.Terminated) (hlen : hllHdrSize ≤ s.len) :
    HllText s (s.buf.take hllHdrSize) (hllOps s) (hllCut s) := hllText_hllOpcodes hterm hlen

theorem isHLLObject_spec {s : Sds} (h : isHLLObject s = true) :
    hllHdrSize ≤ s.len ∧
      ((s.buf[hllEncodingOffset]? = some hllDense ∧ s.len = hllDenseSize) ∨
        (s.buf[hllEncodingOffset]? = some hllSparse ∧
          HllHeader (s.buf.take hllHdrSize) hllSparse)) := by
  simp only [isHLLObject, Bool.and_eq_true, decide_eq_true_eq, beq_iff_eq] at h
  obtain ⟨⟨hlen, hmagic⟩, h⟩ := h
  have hsize := s.size
  have hlen' : (s.buf.take hllHdrSize).length = hllHdrSize := by
    rw [length_take]
    omega
  cases henc : s.buf[hllEncodingOffset]? with
  | none =>
    rw [henc] at h
    cases h
  | some encoding =>
    rw [henc] at h
    simp only [Bool.and_eq_true, decide_eq_true_eq, Bool.or_eq_true, bne_iff_ne, ne_eq,
      beq_iff_eq] at h
    refine ⟨hlen, ?_⟩
    by_cases hdense : encoding = hllDense
    · exact .inl ⟨by rw [hdense], h.2.resolve_left (not_not_intro hdense)⟩
    · have hle : encoding.toNat ≤ 1 := h.1
      have hne : encoding.toNat ≠ 0 := fun h0 => hdense (UInt8.toNat_inj.mp h0)
      have hsparse : encoding = hllSparse := UInt8.toNat_inj.mp (by
        have : hllSparse.toNat = 1 := rfl
        omega)
      rw [hsparse] at henc ⊢
      refine .inr ⟨rfl, (s.buf.drop 5).take 3, (s.buf.drop 8).take 8, ?_, ?_, ?_⟩
      · obtain ⟨hlt, hget⟩ := List.getElem?_eq_some_iff.mp henc
        have hfour : s.buf.drop 4 = hllSparse :: s.buf.drop 5 := by
          rw [← hget]
          exact (getElem_cons_drop hlt).symm
        have hsplit : s.buf.take hllHdrSize = s.buf.take 4 ++ (s.buf.drop 4).take 12 := by
          rw [← take_add]
          rfl
        have hcard : (s.buf.drop 5).take 11 = (s.buf.drop 5).take 3 ++ (s.buf.drop 8).take 8 := by
          rw [show (11 : Nat) = 3 + 8 from rfl, take_add, drop_drop]
        rw [hsplit, hmagic, hfour, take_succ_cons, hcard]
      · rw [length_take, length_drop]
        simp only [hllHdrSize] at hlen
        omega
      · rw [length_take, length_drop]
        simp only [hllHdrSize] at hlen
        omega

/-- What a robust walk does with the string `s`: the functions return, so that they have accessed
registers that exist and bytes of the string only, and they report a corrupt string.  The walks
that only read may read the null byte behind the string. -/
structure HllTolerant (fill : Nat → UInt8) (maxBytes : Nat) (ele : Bytes) (max : List Nat)
    (s : Sds) : Prop where
  toDense : ∃ r, hllSparseToDense s = some r ∧ (HllCorrupt s → r = none)
  merge : ∃ r, hllMerge max s = some r ∧ (HllCorrupt s → r = none)
  sum : s.buf[hllEncodingOffset]? = some hllSparse →
    ∃ r, hllSparseSum s = some r ∧ (HllCorrupt s → r.2 = true)
  add : s.buf[hllEncodingOffset]? = some hllSparse →
    ∃ r, Checked.hllSparseAdd fill maxBytes s ele = some r ∧ (HllCorrupt s → r.2 = -1)

/-- The runs of `s` end inside the registers: every `VAL` stands for registers that exist, and
the number of registers found does not wrap around to the right one. -/
def hllRunsInside (s : Sds) : Prop :=
  valsInside 0 (hllOps s) = true ∧ (hllTotal s % 2 ^ 32 = hllRegisters → hllTotal s = hllRegisters)

/-- Adding `ele` to `s` does not rely on the opcodes before it has checked them: the string is
converted, has no opcodes, or has an opcode for the register of `ele` that is inside the string,
and as many registers as it should. -/
def hllAddInside (maxBytes : Nat) (ele : Bytes) (s : Sds) : Prop :=
  (hllPatLen ele).2 > hllSparseValMaxValue ∨ hllOps s = [] ∨
    ∃ first o, hllCover (hllPatLen ele).1 0 (hllOps s) = some (first, o) ∧
      ((o.value < (hllPatLen ele).2 ∧ hllOutgrows maxBytes s.len (hllPatLen ele).1 first o) ∨
        (hllTotal s = hllRegisters ∧ (hllCut s = true → first + o.span ≠ hllTotal s)))

/-! ## `hllSparseAdd` -/

section Add

variable {s : Sds} {hdr : Bytes} {ops : List HllOp} {cut : Bool}

/-- Behind the opcodes there is the terminator, which is no opcode to write on. -/
theorem hllSparseAddAt_end (h : HllText s hdr ops cut) (hterm : s.Terminated) {pos : HllPos}
    (hp : pos.p = hdr.length + (opsBytes ops).length) {ele : Bytes}
    {maxBytes index count : Nat} :
    Checked.hllSparseAddAt maxBytes s ele index count pos = none := by
  have hlen := h.len
  cases cut with
  | true =>
    have hread : Checked.read s pos.p = none := if_neg (by
      simp only [Bool.toNat_true] at hlen
      omega)
    rw [Checked.hllSparseAddAt, hread]
    rfl
  | false =>
    simp only [Bool.toNat_false, Nat.add_zero] at hlen
    have hend : pos.p = s.len := by omega
    have hread : Checked.read s s.len = some 0 := by rw [Checked.read_of_le le_rfl, hterm]
    have hspan : Checked.hllSparseSpan s s.len = some (1, 1) := by
      rw [Checked.hllSparseSpan, hread]
      rfl
    have hwrite : Checked.write s s.len [hllSparseValSet count 1] = none :=
      Checked.write_eq_none (Nat.lt_succ_self _)
    have hzero : hllSparseIsZero 0 = true := rfl
    simp only [Checked.hllSparseAddAt, hend, hread, hspan, hzero, hwrite, bind_eq_bind,
      bind_some, Bool.not_true, Bool.false_and, Bool.false_eq_true, if_false,
      Bool.or_true, beq_self_eq_true, Bool.and_self, if_true, bind_none]

theorem terminated_makeRoom (fill : Nat → UInt8) (n : Nat) (hterm : s.Terminated) :
    (sdsMakeRoomFor fill s n).Terminated := by
  obtain ⟨hlen, _, t, hbuf⟩ := sdsMakeRoomFor_spec fill s n
  obtain ⟨hlt, _⟩ := List.getElem?_eq_some_iff.mp hterm
  rw [Sds.Terminated, hlen, hbuf, getElem?_append_left hlt]
  exact hterm

/-- An opcode that goes on in the terminator is the last one. -/
theorem inside_iff {l r : List HllOp} {o : HllOp} (h : HllText s hdr (l ++ o :: r) cut) :
    hdr.length + (opsBytes l).length + o.bytes.length ≤ s.len ↔
      (cut = true → (opsRegs l).length + o.span ≠ ((l ++ o :: r).map HllOp.span).sum) := by
  have hlen := h.len
  rw [opsBytes_append, opsBytes_cons, length_append, length_append] at hlen
  have hsum : ((l ++ o :: r).map HllOp.span).sum =
      (opsRegs l).length + (o.span + (r.map HllOp.span).sum) := by
    rw [map_append, sum_append, map_cons, sum_cons, length_opsRegs]
  rw [hsum]
  cases cut with
  | false =>
    simp only [Bool.toNat_false] at hlen
    simp only [Bool.false_eq_true, false_implies, iff_true]
    omega
  | true =>
    simp only [Bool.toNat_true] at hlen
    cases r with
    | nil =>
      simp only [opsBytes_nil, length_nil] at hlen
      have hsize : ¬hdr.length + (opsBytes l).length + o.bytes.length ≤ s.len := by omega
      simp [hsize]
    | cons a r =>
      have hbytes := a.length_bytes_pos
      have hspan := a.span_pos
      rw [opsBytes_cons, length_append] at hlen
      simp only [map_cons, sum_cons]
      omega

theorem value_eq_zero_of_cut {l r : List HllOp} {o : HllOp} (h : HllText s hdr (l ++ o :: r) true)
    (hlast : (opsRegs l).length + o.span = ((l ++ o :: r).map HllOp.span).sum) : o.value = 0 := by
  have hnil : r = [] := by
    cases r with
    | nil => rfl
    | cons a r =>
      have hspan := a.span_pos
      rw [map_append, sum_append, map_cons, sum_cons, map_cons,
        sum_cons, length_opsRegs] at hlast
      omega
  subst hnil
  obtain ⟨l', n, heq⟩ := h.last rfl
  obtain ⟨_, ho⟩ := append_inj' heq rfl
  cases ho
  rfl

/-- A register that exists has an opcode. -/
theorem hllCover_isSome {index first : Nat} (ops : List HllOp)
    (h : index < first + (ops.map HllOp.span).sum) (hle : first ≤ index) :
    ∃ r, hllCover index first ops = some r := by
  induction ops generalizing first with
  | nil => simp only [map_nil, sum_nil] at h; omega
  | cons o ops ih =>
    rw [map_cons, sum_cons] at h
    rw [hllCover]
    split
    next => exact ⟨_, rfl⟩
    next hin => exact ih (by omega) (by omega)

end Add

theorem hllSparseAdd_tolerates (fill : Nat → UInt8) (maxBytes : Nat) (ele : Bytes) {s : Sds}
    (h : HllText s (s.buf.take hllHdrSize) (hllOps s) (hllCut s)) (hterm : s.Terminated)
    (hheader : HllHeader (s.buf.take hllHdrSize) hllSparse) (hinside : hllRunsInside s) :
    (∃ r, Checked.hllSparseAdd fill maxBytes s ele = some r ∧
        (hllTotal s ≠ hllRegisters → r.2 = -1)) ↔ hllAddInside maxBytes ele s := by
  obtain ⟨hindex, hcount, _⟩ := hllPatLen_spec ele
  rw [hllAddInside]
  rcases hpat : hllPatLen ele with ⟨index, count⟩
  rw [hpat] at hindex hcount
  simp only [Checked.hllSparseAdd, hpat] at hindex hcount ⊢
  by_cases hbig : count > hllSparseValMaxValue
  · rw [if_pos hbig]
    refine ⟨fun _ => .inl hbig, fun _ => ?_⟩
    refine hllSparsePromote_tolerates h hheader hinside.1 hinside.2 hpat ?_
    intro old hold
    obtain ⟨o, _, ho⟩ := mem_flatMap.mp (mem_of_getElem? hold)
    rw [eq_of_mem_replicate ho]
    exact lt_of_le_of_lt o.value_le hbig
  · rw [if_neg hbig, bind_eq_bind]
    have hroom := h.makeRoom fill 3
    have hterm' := terminated_makeRoom fill 3 hterm
    obtain ⟨hlen, hfree, _⟩ := sdsMakeRoomFor_spec fill s 3
    generalize sdsMakeRoomFor fill s 3 = s₁ at hroom hterm' hlen hfree
    have hstart : HllPos.At ⟨hllHdrSize, none, 0, 0⟩ (s.buf.take hllHdrSize) [] :=
      ⟨HllText.start hheader, rfl, [], [], rfl, rfl⟩
    obtain ⟨hcover, hnone⟩ := Checked.hllSparseLocate_text index (s₁.len + 1)
      (l := []) (r := hllOps s) hroom hstart (Nat.zero_le index) hroom.length_lt
    simp only [opsRegs_nil, length_nil, nil_append] at hcover hnone
    cases hfind : hllCover index 0 (hllOps s) with
    | none =>
      obtain ⟨pos, hpos, hp, hspan⟩ := hnone hfind
      rw [hpos, bind_some]
      by_cases hnil : hllOps s = []
      · rw [if_pos (hspan.mpr ⟨trivial, hnil⟩)]
        exact ⟨fun _ => .inr (.inl hnil), fun _ => ⟨_, rfl, fun _ => rfl⟩⟩
      · rw [if_neg fun h0 => hnil (hspan.mp h0).2, hllSparseAddAt_end hroom hterm' hp]
        constructor
        · rintro ⟨r, hr, _⟩
          cases hr
        · rintro (hbig' | hnil' | ⟨first, o, hsome, _⟩)
          · exact absurd hbig' hbig
          · exact absurd hnil' hnil
          · cases hsome
    | some found =>
      rcases found with ⟨first, o⟩
      obtain ⟨pos, l, r, hpos, hops, hat, hspan, hfirst⟩ := hcover first o hfind
      obtain ⟨_, _, _, _, hle, hlt⟩ := hllCover_spec hfind (Nat.zero_le index)
      have hne : hllOps s ≠ [] := by
        rw [hops]
        simp
      rw [hpos, bind_some, if_neg (by rw [hspan]; exact o.span_pos.ne')]
      rw [hops] at hroom h
      rw [hfirst, ← hat.first] at hle hlt
      have hout := Checked.hllSparseAddAt_outcome maxBytes ele hroom
        hheader.length hat hspan hfree hle hlt hcount
      rw [hat.p, inside_iff hroom, ← hops, ← hfirst, hat.first, ← hfirst, ← hllTotal] at hout
      have hpromote (hgrow : o.value < count) : ∃ r, hllSparsePromote s₁ ele = some r ∧
          (hllTotal s ≠ hllRegisters → r.2 = -1) := by
        rw [← hops] at hroom
        refine hllSparsePromote_tolerates hroom hheader hinside.1 hinside.2 hpat ?_
        intro old hget
        rw [hops, opsRegs_getElem? (by rw [← hat.first]; exact hle)
          (by rw [← hat.first]; exact hlt)] at hget
        rw [← Option.some.inj hget]
        exact hgrow
      simp only [gt_iff_lt, hbig, hne, false_or, Option.some.injEq, Prod.mk.injEq,
        existsAndEq, true_and, ← hlen]
      constructor
      · rintro ⟨r, hr, hreport⟩
        by_cases hgrow : o.value < count
        · by_cases hgrows : hllOutgrows maxBytes s₁.len index first o
          · exact .inl ⟨hgrow, hgrows⟩
          by_cases hin : hllCut s = true → first + o.span ≠ hllTotal s
          · obtain ⟨s', hs'⟩ := hout.update hgrow hgrows hin
            rw [hs'] at hr
            cases hr
            exact .inr ⟨by_contra fun hne => by simpa using hreport hne, hin⟩
          · rw [hout.fail hgrow hgrows hin] at hr
            cases hr
        · rw [hout.same (not_lt.mp hgrow)] at hr
          cases hr
          refine .inr ⟨by_contra fun hne => by simpa using hreport hne, fun hcut hlast => hgrow ?_⟩
          rw [hcut] at h
          rw [value_eq_zero_of_cut h (by rw [← hops, ← hfirst]; exact hlast)]
          exact hcount
      · rintro (⟨hgrow, hgrows⟩ | ⟨htotal, hin⟩)
        · rw [hout.promote hgrow hgrows]
          exact hpromote hgrow
        · by_cases hgrow : o.value < count
          · by_cases hgrows : hllOutgrows maxBytes s₁.len index first o
            · rw [hout.promote hgrow hgrows]
              exact hpromote hgrow
            · obtain ⟨s', hs'⟩ := hout.update hgrow hgrows hin
              exact ⟨_, hs', fun hne => absurd htotal hne⟩
          · exact ⟨_, hout.same (not_lt.mp hgrow), fun hne => absurd htotal hne⟩

/-! ## All four functions -/

section All

variable {fill : Nat → UInt8} {maxBytes : Nat} {ele : Bytes} {max : List Nat} {s : Sds}

/-- Of a dense HyperLogLog the functions are tolerant. -/
theorem hllTolerant_dense (hmax : max.length = hllRegisters)
    (henc : s.buf[hllEncodingOffset]? = some hllDense) (hsize : s.len = hllDenseSize) :
    HllTolerant fill maxBytes ele max s := by
  have hne : s.buf[hllEncodingOffset]? ≠ some hllSparse := by
    rw [henc]
    decide
  obtain ⟨regs, hregs⟩ := exists_hllDenseRegs hsize
  have hmerge := hllMergeDense_spec hregs (a := []) (b := max) (l := []) (r := regs) rfl
    (by rw [hmax, hregs.length]) rfl
  simp only [hregs.length, length_nil, nil_append] at hmerge
  constructor
  · exact ⟨some s, by simp [hllSparseToDense, henc], fun hc => absurd hc.1 hne⟩
  · exact ⟨some (zipWith Nat.max max regs), by simp [hllMerge, henc, hmerge],
      fun hc => absurd hc.1 hne⟩
  · exact fun h => absurd h hne
  · exact fun h => absurd h hne

/-- Of a sparse one they are, when its opcodes do no harm. -/
theorem hllTolerant_sparse (hmax : max.length = hllRegisters)
    (henc : s.buf[hllEncodingOffset]? = some hllSparse)
    (htext : HllText s (s.buf.take hllHdrSize) (hllOps s) (hllCut s)) (hterm : s.Terminated)
    (hheader : HllHeader (s.buf.take hllHdrSize) hllSparse) :
    HllTolerant fill maxBytes ele max s ↔ hllRunsInside s ∧ hllAddInside maxBytes ele s := by
  have hcorrupt : HllCorrupt s ↔ hllTotal s ≠ hllRegisters := and_iff_right henc
  have hdense := hllSparseToDense_tolerates htext hheader
  have hadd := hllSparseAdd_tolerates fill maxBytes ele htext hterm hheader
  constructor
  · intro h
    have hinside : hllRunsInside s := hdense.mp (by
      obtain ⟨r, hr, hreport⟩ := h.toDense
      exact ⟨r, hr, fun htotal => hreport (hcorrupt.mpr htotal)⟩)
    obtain ⟨r, hr, hreport⟩ := h.add henc
    exact ⟨hinside, (hadd hinside).mp ⟨r, hr, fun htotal => hreport (hcorrupt.mpr htotal)⟩⟩
  · rintro ⟨hinside, haddInside⟩
    constructor
    · obtain ⟨r, hr, hreport⟩ := hdense.mpr hinside
      exact ⟨r, hr, fun hc => hreport (hcorrupt.mp hc)⟩
    · obtain ⟨r, hr, hreport⟩ := (hllMerge_tolerates htext hheader hmax).mpr hinside
      exact ⟨r, hr, fun hc => hreport (hcorrupt.mp hc)⟩
    · intro _
      refine ⟨_, hllSparseSum_eq htext hheader, fun hc => decide_eq_true fun hmod => ?_⟩
      exact hcorrupt.mp hc (hinside.2 hmod)
    · intro _
      obtain ⟨r, hr, hreport⟩ := (hadd hinside).mpr haddInside
      exact ⟨r, hr, fun hc => hreport (hcorrupt.mp hc)⟩

end All

/-- The functions are tolerant of a sparse string exactly when its runs end inside the registers
and adding to it does not rely on opcodes that are not checked; of a dense one they always are. -/
theorem hllTolerant_iff (fill : Nat → UInt8) (maxBytes : Nat) (ele : Bytes) {max : List Nat}
    (hmax : max.length = hllRegisters) {s : Sds} (hobj : isHLLObject s = true)
    (hterm : s.Terminated) :
    HllTolerant fill maxBytes ele max s ↔
      s.buf[hllEncodingOffset]? = some hllDense ∨
        (hllRunsInside s ∧ hllAddInside maxBytes ele s) := by
  obtain ⟨hlen, ⟨henc, hsize⟩ | ⟨henc, hheader⟩⟩ := isHLLObject_spec hobj
  · exact ⟨fun _ => .inl henc, fun _ => hllTolerant_dense hmax henc hsize⟩
  · have hne : s.buf[hllEncodingOffset]? ≠ some hllDense := by
      rw [henc]
      decide
    rw [or_iff_right hne]
    exact hllTolerant_sparse hmax henc (hllText_hllOps hterm hlen) hterm hheader

/-- An empty HyperLogLog is one of the harmless strings. -/
theorem hllTolerant_iff_empty :
    HllTolerant (fun _ => 0) 3000 [0x61] (replicate hllRegisters 0) emptyHll := by
  have hops : hllOps emptyHll = [.xzero 16383] := by decide
  have htotal : hllTotal emptyHll = hllRegisters := by
    rw [hllTotal, hops]
    rfl
  have hinside : hllRunsInside emptyHll := by
    refine ⟨?_, fun _ => htotal⟩
    rw [hops]
    rfl
  obtain ⟨r, hr⟩ := hllCover_isSome (hllOps emptyHll)
    (by rw [← hllTotal, htotal, Nat.zero_add]; exact (hllPatLen_spec [0x61]).1) (Nat.zero_le _)
  refine (hllTolerant_iff (fun _ => 0) 3000 [0x61] length_replicate (s := emptyHll) (by decide)
    (by unfold Sds.Terminated; decide)).mpr (.inr ⟨hinside, .inr (.inr ⟨r.1, r.2, hr, .inr ?_⟩)⟩)
  exact ⟨htotal, fun hcut => absurd hcut (by decide)⟩

/-- A string that `isHLLObjectOrReply` accepts: after a run over all registers, an opcode gives a
value to one more. -/
def overlongHll : Sds where
  len := 19
  free := 0
  buf := hllMagic ++ (hllSparse :: (replicate 11 0 ++ [0x7f, 0xff, 0x80, 0]))
  size := by decide

/-- Whatever is added to it, it is not tolerated: the functions address the register 16384. -/
theorem overlongHll_not_tolerant : isHLLObject overlongHll = true ∧ overlongHll.Terminated ∧
    ∀ fill maxBytes ele,
      ¬HllTolerant fill maxBytes ele (replicate hllRegisters 0) overlongHll := by
  have hobj : isHLLObject overlongHll = true := by decide
  have hterm : overlongHll.Terminated := by
    unfold Sds.Terminated
    decide
  have hops : hllOps overlongHll = [.xzero 16383, .val 0 0] := by decide
  obtain ⟨hlen, ⟨henc, _⟩ | ⟨henc, hheader⟩⟩ := isHLLObject_spec hobj
  · exact absurd henc (by decide)
  refine ⟨hobj, hterm, fun fill maxBytes ele h => ?_⟩
  have hinside := ((hllTolerant_sparse length_replicate henc (hllText_hllOps hterm hlen) hterm
    hheader).mp h).1.1
  rw [hops] at hinside
  exact absurd hinside (by decide)

end Redis
