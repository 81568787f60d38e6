import Redis.Hyperloglog.Walk

/-!
# Redis.Hyperloglog.Checked

`hllSparseAdd` once more, with every access to the string checked: it reads the string and its
terminator, and writes the string only, with the bytes by which it has just grown.  Where the
checked function returns, it returns what `hllSparseAdd` does.
-/

namespace Redis

open Bytes

namespace Checked

/-- A byte of the string or its terminator. -/
def read (s : Sds) (p : Nat) : Option UInt8 := if p ≤ s.len then s.buf[p]? else none

/-- Writes bytes of the string. -/
def write (s : Sds) (off : Nat) (bs : Bytes) : Option Sds :=
  if off + bs.length ≤ s.len then s.store off bs else none

/-- `memmove` in the string, whose length is to be `limit` then. -/
def move (s : Sds) (limit dst src n : Nat) : Option Sds :=
  if src + n ≤ s.len + 1 ∧ dst + n ≤ limit then s.move dst src n else none

/-- The number of registers an opcode covers, and its size. -/
def hllSparseSpan (s : Sds) (p : Nat) : Option (Nat × Nat) := do
  let b ← read s p
  if hllSparseIsZero b then return (hllSparseZeroLen b, 1)
  else if hllSparseIsVal b then return (hllSparseValLen b, 1)
  else do
    let b' ← read s (p + 1)
    return (hllSparseXzeroLen b b', 2)

/-- The search of `hllSparseAdd` for the opcode that covers `index`. -/
def hllSparseLocate (s : Sds) (index : Nat) : Nat → HllPos → Option HllPos
  | 0, _ => none
  | fuel + 1, pos =>
    if pos.p < s.len then do
      let r ← hllSparseSpan s pos.p
      if index ≤ pos.first + r.1 - 1 then some { pos with span := r.1 }
      else hllSparseLocate s index fuel ⟨pos.p + r.2, some pos.p, pos.first + r.1, r.1⟩
    else some pos

/-- The merge of `hllSparseAdd`: `end` is where the opcodes end. -/
def hllSparseMerge : Nat → Sds → Nat → Nat → Option Sds
  | 0, s, _, _ => some s
  | scanlen + 1, s, p, fin =>
    if p < fin then do
      let b ← read s p
      if hllSparseIsXzero b then hllSparseMerge scanlen s (p + 2) fin
      else if hllSparseIsZero b then hllSparseMerge scanlen s (p + 1) fin
      else do
        let b' ← read s (p + 1)
        let len := hllSparseValLen b + hllSparseValLen b'
        if p + 1 < fin ∧ hllSparseIsVal b' ∧ hllSparseValValue b = hllSparseValValue b' ∧
            len ≤ hllSparseValMaxLen then do
          let s ← write s (p + 1) [hllSparseValSet (hllSparseValValue b) len]
          let s ← move s s.len p (p + 1) (fin - p)
          let s ← sdsIncrLen s (-1)
          hllSparseMerge scanlen s p (fin - 1)
        else hllSparseMerge scanlen s (p + 1) fin
    else some s

/-- The label `updated` of `hllSparseAdd`. -/
def hllSparseUpdated (s : Sds) (prev : Option Nat) (fin : Nat) : Option (Sds × Int) := do
  let s ← hllSparseMerge 5 s (prev.getD hllHdrSize) fin
  let card ← read s hllCardOffset
  let s ← write s hllCardOffset [card ||| 0x80]
  return (s, 1)

/-- Step 3 of `hllSparseAdd`. -/
def hllSparseSubstitute (s : Sds) (p oldlen : Nat) (seq : Bytes) : Option Sds := do
  let next := p + oldlen
  let deltalen := (seq.length : Int) - oldlen
  let s ← (if deltalen ≠ 0 ∧ next < s.len then
      move s (max s.len (s.len + deltalen).toNat) (next + deltalen).toNat next (s.len - next)
    else some s)
  let s ← sdsIncrLen s deltalen
  write s p seq

/-- Step 2 of `hllSparseAdd` and what follows it. -/
def hllSparseAddAt (maxBytes : Nat) (o : Sds) (ele : Bytes) (index count : Nat) (pos : HllPos) :
    Option (Sds × Int) := do
  let b ← read o pos.p
  let runlen ← hllSparseSpan o pos.p
  let isVal := !hllSparseIsZero b && !hllSparseIsXzero b
  let last := pos.first + pos.span - 1
  let oldlen := if hllSparseIsXzero b then 2 else 1
  if isVal && decide (hllSparseValValue b ≥ count) then return (o, 0)
  else if (isVal || hllSparseIsZero b) && runlen.1 == 1 then do
    let o ← write o pos.p [hllSparseValSet count 1]
    hllSparseUpdated o pos.prev o.len
  else do
    let seq := if isVal then
        hllSplit (fun len => [hllSparseValSet (hllSparseValValue b) len]) count index pos.first last
      else hllSplit hllZeroRun count index pos.first last
    if seq.length > oldlen ∧ o.len + (seq.length - oldlen) > maxBytes then hllSparsePromote o ele
    else do
      let o ← hllSparseSubstitute o pos.p oldlen seq
      hllSparseUpdated o pos.prev o.len

/-- `hllSparseAdd`.  `hllSparsePromote` reads the string only. -/
def hllSparseAdd (fill : Nat → UInt8) (maxBytes : Nat) (o : Sds) (ele : Bytes) :
    Option (Sds × Int) := do
  let (index, count) := hllPatLen ele
  if count > hllSparseValMaxValue then hllSparsePromote o ele
  else do
    let o := sdsMakeRoomFor fill o 3
    let pos ← hllSparseLocate o index (o.len + 1) ⟨hllHdrSize, none, 0, 0⟩
    if pos.span = 0 then return (o, -1)
    else hllSparseAddAt maxBytes o ele index count pos

/-! ## The checks change nothing -/

variable {α β : Type} {x y x' y' : Option α} {s : Sds} {p : Nat}

/-- Where the first computation returns, the second returns the same. -/
def Le (x y : Option α) : Prop := ∀ a, x = some a → y = some a

theorem Le.refl : Le x x := fun _ h => h

theorem Le.bind {f g : α → Option β} (h : Le x y) (hf : ∀ a, Le (f a) (g a)) :
    Le (x >>= f) (y >>= g) := by
  intro b hb
  obtain ⟨a, ha, hb⟩ := bind_eq_some.mp hb
  exact bind_eq_some.mpr ⟨a, h a ha, hf a b hb⟩

theorem Le.ite {c : Prop} [Decidable c] (h : Le x y) (h' : Le x' y') :
    Le (if c then x else x') (if c then y else y') := by
  split
  · exact h
  · exact h'

/-- A check in front of a computation. -/
theorem Le.check {c : Prop} [Decidable c] : Le (if c then x else none) x := by
  intro a ha
  split at ha
  · exact ha
  · cases ha

theorem read_of_le (h : p ≤ s.len) : read s p = s.buf[p]? := if_pos h

theorem hllSparseSpan_le : Le (hllSparseSpan s p) (Redis.hllSparseSpan s.buf p) :=
  Le.check.bind fun _ => .ite .refl (.ite .refl (Le.check.bind fun _ => .refl))

theorem hllSparseLocate_le {index fuel : Nat} {pos : HllPos} :
    Le (hllSparseLocate s index fuel pos) (Redis.hllSparseLocate s index fuel pos) := by
  induction fuel generalizing pos with
  | zero => exact .refl
  | succ fuel ih => exact .ite (hllSparseSpan_le.bind fun _ => .ite .refl ih) .refl

theorem hllSparseMerge_le {scanlen fin : Nat} :
    Le (hllSparseMerge scanlen s p fin) (Redis.hllSparseMerge scanlen s p fin) := by
  induction scanlen generalizing s p fin with
  | zero => exact .refl
  | succ scanlen ih =>
    refine .ite (Le.check.bind fun b => .ite ih (.ite ih (Le.check.bind fun b' => .ite ?_ ih))) .refl
    exact Le.check.bind fun _ => Le.check.bind fun _ => Le.refl.bind fun _ => ih

theorem hllSparseUpdated_le {prev : Option Nat} {fin : Nat} :
    Le (hllSparseUpdated s prev fin) (Redis.hllSparseUpdated s prev fin) :=
  hllSparseMerge_le.bind fun _ => Le.check.bind fun _ => Le.check.bind fun _ => .refl

theorem hllSparseSubstitute_le {oldlen : Nat} {seq : Bytes} :
    Le (hllSparseSubstitute s p oldlen seq) (Redis.hllSparseSubstitute s p oldlen seq) :=
  (Le.ite Le.check .refl).bind fun _ => Le.refl.bind fun _ => Le.check

variable {ele : Bytes} {maxBytes : Nat}

theorem hllSparseAddAt_le {index count : Nat} {pos : HllPos} :
    Le (hllSparseAddAt maxBytes s ele index count pos)
      (Redis.hllSparseAddAt maxBytes s ele index count pos) := by
  refine Le.check.bind fun _ => hllSparseSpan_le.bind fun _ => .ite .refl (.ite ?_ (.ite .refl ?_))
  · exact Le.check.bind fun _ => hllSparseUpdated_le
  · exact hllSparseSubstitute_le.bind fun _ => hllSparseUpdated_le

/-- Where no check fails, the function is `hllSparseAdd`. -/
theorem hllSparseAdd_le {fill : Nat → UInt8} :
    Le (hllSparseAdd fill maxBytes s ele) (Redis.hllSparseAdd fill maxBytes s ele) :=
  .ite .refl (hllSparseLocate_le.bind fun _ => .ite .refl hllSparseAddAt_le)

end Checked

end Redis
