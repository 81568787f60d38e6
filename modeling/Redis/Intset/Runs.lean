import Mathlib
import Redis.Intset.Refine

/-!
# Redis.Intset.Runs

Any number of calls on an intset, from an empty one on, against the same calls on a finite set.
-/

namespace Redis

open List

/-! ## Calls -/

/-- A call of one of the functions. -/
inductive IntsetOp where
  | add (value : Int64)
  | remove (value : Int64)
  | find (value : Int64)
  | get (pos : Nat)

/-- What a call returns: `success`, whether the value was found, or the value at a position. -/
inductive IntsetResult where
  | success (b : Bool)
  | found (b : Bool)
  | value (v : Option Int)
deriving DecidableEq

def IntsetMem.call (fill : Nat → UInt8) (m : IntsetMem) :
    IntsetOp → Option (IntsetMem × IntsetResult)
  | .add value => (m.intsetAdd fill value.toInt).map fun r => (r.1, .success r.2)
  | .remove value => (m.intsetRemove fill value.toInt).map fun r => (r.1, .success r.2)
  | .find value => (m.intsetFind value.toInt).map fun b => (m, .found b)
  | .get pos => (m.intsetGetAt pos).map fun v => (m, .value v)

/-- Calls one after the other; new memory may hold anything each time. -/
def IntsetMem.calls (fill : Nat → Nat → UInt8) (m : IntsetMem) :
    List IntsetOp → Option (IntsetMem × List IntsetResult)
  | [] => some (m, [])
  | op :: ops => do
    let (m, r) ← m.call (fill ops.length) op
    let (m, rs) ← m.calls fill ops
    return (m, r :: rs)

/-- The same call on a finite set. -/
def IntsetOp.onSet (S : Finset Int) : IntsetOp → Finset Int × IntsetResult
  | .add value => (insert value.toInt S, .success (decide (value.toInt ∉ S)))
  | .remove value => (S.erase value.toInt, .success (decide (value.toInt ∈ S)))
  | .find value => (S, .found (decide (value.toInt ∈ S)))
  | .get pos => (S, .value S.sort[pos]?)

/-- The same calls on a finite set. -/
def callsOnSet (S : Finset Int) : List IntsetOp → Finset Int × List IntsetResult
  | [] => (S, [])
  | op :: ops =>
    let r := op.onSet S
    let rs := callsOnSet r.1 ops
    (rs.1, r.2 :: rs.2)

/-- The value that a call adds. -/
def IntsetOp.added : IntsetOp → Option Int
  | .add value => some value.toInt
  | _ => none

/-- The smallest of the three encodings into which all values fit. -/
structure SmallestEncoding (k : Nat) (added : List Int) : Prop where
  encoding : IntsetEncoding k
  fits : ∀ v ∈ added, Fits k v
  least : ∀ k', IntsetEncoding k' → (∀ v ∈ added, Fits k' v) → k ≤ k'

/-! ## One call -/

section Call

variable {m : IntsetMem} {s : Intset} {fill : Nat → UInt8}

theorem Intset.encoding_intsetAdd (s : Intset) (value : Int64) :
    (s.intsetAdd value).1.encoding = max s.encoding (intsetValueEncoding value.toInt) := by
  rw [Intset.intsetAdd]
  split
  next henc => exact (max_eq_right henc.le).symm
  next henc =>
    rw [max_eq_left (Nat.not_lt.mp henc)]
    split <;> rfl

theorem Intset.encoding_intsetRemove (s : Intset) (value : Int64) :
    (s.intsetRemove value).1.encoding = s.encoding := by
  rw [Intset.intsetRemove]
  split
  · split <;> rfl
  · rfl

theorem Intset.sort_toFinset (s : Intset) : s.contents.toFinset.sort = s.contents :=
  (toFinset_sort (r := (· ≤ ·)) s.nodup).mpr (s.sorted.imp le_of_lt)

variable (fill) in
/-- Every call does with the set what its buffer shows. -/
theorem IntsetMem.Holds.call (h : m.Holds s) (op : IntsetOp)
    (hlen : (op.onSet s.contents.toFinset).1.card < 2 ^ 28) :
    ∃ m' s', m.call fill op = some (m', (op.onSet s.contents.toFinset).2) ∧ m'.Holds s' ∧
      s'.contents.toFinset = (op.onSet s.contents.toFinset).1 ∧
      s'.encoding = (op.added.map intsetValueEncoding).elim s.encoding (max s.encoding) := by
  have hcard : s.contents.toFinset.card = s.contents.length :=
    toFinset_card_of_nodup s.nodup
  cases op with
  | add value =>
    have hle := Finset.card_le_card (Finset.subset_insert value.toInt s.contents.toFinset)
    simp only [IntsetOp.onSet] at hlen
    obtain ⟨m', hm', hholds⟩ := h.intsetAdd fill value (by omega)
    refine ⟨m', _, ?_, hholds, ?_, s.encoding_intsetAdd value⟩
    · rw [IntsetMem.call, hm', Intset.intsetAdd_snd]
      simp [IntsetOp.onSet]
    · ext w
      simp [IntsetOp.onSet, Intset.mem_intsetAdd]
  | remove value =>
    have hle := Finset.pred_card_le_card_erase (s := s.contents.toFinset) (a := value.toInt)
    simp only [IntsetOp.onSet] at hlen
    obtain ⟨m', hm', hholds⟩ := h.intsetRemove fill value (by omega)
    refine ⟨m', _, ?_, hholds, ?_, s.encoding_intsetRemove value⟩
    · rw [IntsetMem.call, hm', Intset.intsetRemove_snd]
      simp [IntsetOp.onSet]
    · ext w
      simp [IntsetOp.onSet, Intset.mem_intsetRemove]
  | find value =>
    have hfind : s.intsetFind value = decide (value.toInt ∈ s.contents.toFinset) := by
      rw [Bool.eq_iff_iff, Intset.intsetFind_iff, decide_eq_true_eq, mem_toFinset]
    refine ⟨m, s, ?_, h, rfl, rfl⟩
    rw [IntsetMem.call, h.intsetFind, hfind]
    rfl
  | get pos =>
    refine ⟨m, s, ?_, h, rfl, rfl⟩
    rw [IntsetMem.call, h.intsetGetAt, IntsetOp.onSet, s.sort_toFinset]
    rfl

end Call

/-! ## Runs -/

theorem Fits.mono {k k' : Nat} {v : Int} (h : Fits k v) (hle : k ≤ k') : Fits k' v := by
  have hpow : (256 ^ k : Nat) ≤ 256 ^ k' := Nat.pow_le_pow_right (by norm_num) hle
  obtain ⟨hlo, hhi⟩ := h
  exact ⟨by omega, by omega⟩

theorem smallestEncoding_nil : SmallestEncoding 2 [] :=
  ⟨.inl rfl, by simp, fun _ hk' _ => by rcases hk' with rfl | rfl | rfl <;> decide⟩

theorem SmallestEncoding.add {k : Nat} {before : List Int} (h : SmallestEncoding k before)
    (value : Int64) :
    SmallestEncoding (max k (intsetValueEncoding value.toInt)) (before ++ [value.toInt]) where
  encoding := by
    rcases max_choice k (intsetValueEncoding value.toInt) with heq | heq
    · rw [heq]
      exact h.encoding
    · rw [heq]
      exact intsetEncoding_value _
  fits := by
    intro v hv
    rcases mem_append.mp hv with hv | hv
    · exact (h.fits v hv).mono (le_max_left _ _)
    · rw [mem_singleton.mp hv]
      exact ((fits_iff (intsetEncoding_value _) value.le_toInt value.toInt_lt).mpr le_rfl).mono
        (le_max_right _ _)
  least := by
    intro k' hk' hfits
    refine max_le (h.least k' hk' fun v hv => hfits v (mem_append_left _ hv)) ?_
    exact (fits_iff hk' value.le_toInt value.toInt_lt).mp (hfits _ (by simp))

/-- What a run keeps: the buffer holds the set, in the smallest encoding for what was added. -/
theorem IntsetMem.Holds.calls {m : IntsetMem} {s : Intset} (fill : Nat → Nat → UInt8)
    (h : m.Holds s) (ops : List IntsetOp)
    (hlen : ∀ p, p <+: ops → (callsOnSet s.contents.toFinset p).1.card < 2 ^ 28)
    {before : List Int} (hsmall : SmallestEncoding s.encoding before) :
    ∃ m' s', m.calls fill ops = some (m', (callsOnSet s.contents.toFinset ops).2) ∧
      m'.Holds s' ∧ s'.contents.toFinset = (callsOnSet s.contents.toFinset ops).1 ∧
      SmallestEncoding s'.encoding (before ++ ops.filterMap IntsetOp.added) := by
  induction ops generalizing m s before with
  | nil => exact ⟨m, s, rfl, h, rfl, by simpa using hsmall⟩
  | cons op ops ih =>
    obtain ⟨m₁, s₁, hcall, h₁, hset, henc⟩ := h.call (fill ops.length) op
      (hlen [op] ((prefix_cons_inj op).mpr nil_prefix))
    have hsmall₁ : SmallestEncoding s₁.encoding (before ++ op.added.toList) := by
      rw [henc]
      cases op with
      | add value => exact hsmall.add value
      | _ => simpa [IntsetOp.added] using hsmall
    obtain ⟨m₂, s₂, hcalls, h₂, hset₂, hsmall₂⟩ := ih h₁ (fun p hp => by
      have hp' := hlen (op :: p) ((prefix_cons_inj op).mpr hp)
      rw [hset]
      exact hp') hsmall₁
    rw [hset] at hcalls hset₂
    refine ⟨m₂, s₂, ?_, h₂, hset₂, ?_⟩
    · rw [IntsetMem.calls, hcall]
      simp only [some_bind, hcalls]
      rfl
    · rw [filterMap_cons]
      cases op <;> simpa [IntsetOp.added] using hsmall₂

theorem IntsetMem.holds_new : IntsetMem.intsetNew.Holds Intset.intsetNew :=
  ⟨.inl rfl, rfl, rfl, rfl⟩

/-- From an empty intset on, the contents are the values of the set in increasing order, in cells
of the smallest encoding into which all values fit that were ever added; and every result is the
one of the set. -/
theorem intset_calls (fill : Nat → Nat → UInt8) (ops : List IntsetOp)
    (hlen : ∀ p, p <+: ops → (callsOnSet ∅ p).1.card < 2 ^ 28) :
    ∃ m vs, IntsetMem.intsetNew.calls fill ops = some (m, (callsOnSet ∅ ops).2) ∧
      vs.Pairwise (· < ·) ∧ vs.toFinset = (callsOnSet ∅ ops).1 ∧
      m.length = (callsOnSet ∅ ops).1.card ∧ m.contents = cells m.encoding vs ∧
      (∀ i < m.length, m.intsetGet i = vs[i]?) ∧
      SmallestEncoding m.encoding (ops.filterMap IntsetOp.added) := by
  obtain ⟨m, s, hcalls, h, hset, hsmall⟩ :=
    IntsetMem.holds_new.calls fill ops hlen smallestEncoding_nil
  have hlength : m.length = s.contents.toFinset.card := by
    rw [h.length, toFinset_card_of_nodup s.nodup]
  refine ⟨m, s.contents, hcalls, s.sorted, hset, hset ▸ hlength, ?_, fun i hi => ?_, ?_⟩
  · rw [h.encoding, h.contents]
  · rw [h.length] at hi
    rw [h.intsetGet_eq (getElem?_eq_getElem hi), getElem?_eq_getElem hi]
  · rw [h.encoding]
    simpa using hsmall

/-- An upgrade in front of the values and one behind them, and a value that is removed. -/
theorem intset_calls_upgrades : ∃ m vs,
    IntsetMem.intsetNew.calls (fun _ _ => 0)
      [.add 5, .add (-70000), .add 5, .add (2 ^ 40), .remove 5, .find (2 ^ 40)] =
      some (m, [.success true, .success true, .success false, .success true, .success true,
        .found true]) ∧ vs.Pairwise (· < ·) ∧ m.contents = cells m.encoding vs := by
  obtain ⟨m, vs, hcalls, hsorted, -, -, hcontents, -⟩ := intset_calls (fun _ _ => 0)
    [.add 5, .add (-70000), .add 5, .add (2 ^ 40), .remove 5, .find (2 ^ 40)] (by
      intro p hp
      rw [← mem_inits] at hp
      revert p
      decide)
  refine ⟨m, vs, ?_, hsorted, hcontents⟩
  rw [hcalls]
  exact congrArg (fun rs => some (m, rs)) (by decide)

end Redis
