import Redis.Bytes
import Redis.Intset

/-!
# Redis.Intset.Memory

The buffer of `intset.c`: cells of 2, 4 or 8 bytes, which an upgrade widens in place.  An access
outside the buffer is `none`, and the sizes are `uint32_t`, which a set of fewer than `2^28`
elements does not exceed.
-/

namespace Redis

open Bytes List

/-! ## Cells -/

/-- An integer in `k` bytes. -/
def intBytes (k : Nat) (v : Int) : Bytes := leBytes k (v % (256 ^ k : Nat)).toNat

/-- The integer in some bytes. -/
def bytesInt (bs : Bytes) : Int := Int.bmod (leNat bs) (256 ^ bs.length)

/-- Integers in one cell of `k` bytes after the other. -/
def cells (k : Nat) (vs : List Int) : Bytes := vs.flatMap (intBytes k)

/-- A value fits into a cell of `k` bytes. -/
def Fits (k : Nat) (v : Int) : Prop := -(256 ^ k : Nat) ≤ 2 * v ∧ 2 * v < (256 ^ k : Nat)

section Cells

variable {k i : Nat} {v : Int} {vs ws : List Int}

@[simp]
theorem length_intBytes (k : Nat) (v : Int) : (intBytes k v).length = k := length_leBytes k _

theorem bytesInt_intBytes (h : Fits k v) : bytesInt (intBytes k v) = v := by
  rw [bytesInt, length_intBytes, intBytes, bmod_leNat_leBytes h.1 h.2]

@[simp]
theorem cells_nil (k : Nat) : cells k [] = [] := rfl

theorem cells_cons (k : Nat) (v : Int) (vs : List Int) :
    cells k (v :: vs) = intBytes k v ++ cells k vs := flatMap_cons

theorem cells_append (k : Nat) (vs ws : List Int) :
    cells k (vs ++ ws) = cells k vs ++ cells k ws := flatMap_append

@[simp]
theorem length_cells (k : Nat) (vs : List Int) : (cells k vs).length = vs.length * k := by
  induction vs with
  | nil => simp
  | cons v vs ih =>
    rw [cells_cons, length_append, ih, length_intBytes, length_cons, Nat.succ_mul,
      Nat.add_comm]

theorem eq_take_cons_drop (h : vs[i]? = some v) : vs = vs.take i ++ v :: vs.drop (i + 1) := by
  obtain ⟨hlt, rfl⟩ := List.getElem?_eq_some_iff.mp h
  rw [← drop_eq_getElem_cons hlt, take_append_drop]

theorem load_cells (h : vs[i]? = some v) (c : Bytes) :
    load (cells k vs ++ c) (i * k) k = some (intBytes k v) := by
  obtain ⟨hlt, -⟩ := List.getElem?_eq_some_iff.mp h
  rw [eq_take_cons_drop h, cells_append, cells_cons, append_assoc, append_assoc]
  refine load_append _ ?_ (length_intBytes k v).symm
  rw [length_cells, length_take, min_eq_left hlt.le]

end Cells

/-! ## The functions -/

/-- `intset` in memory; `contents` is what is allocated behind the two other fields. -/
structure IntsetMem where
  encoding : Nat
  length : Nat
  contents : Bytes

namespace IntsetMem

/-- The type of an element, by its size. -/
def width (encoding : Nat) : Nat := if encoding = 8 then 8 else if encoding = 4 then 4 else 2

def intsetGetEncoded (is : IntsetMem) (pos enc : Nat) : Option Int :=
  (load is.contents (pos * width enc) (width enc)).map bytesInt

def intsetGet (is : IntsetMem) (pos : Nat) : Option Int := is.intsetGetEncoded pos is.encoding

def intsetSet (is : IntsetMem) (pos : Nat) (value : Int) : Option IntsetMem :=
  (store is.contents (pos * width is.encoding) (intBytes (width is.encoding) value)).map
    fun contents => { is with contents }

def intsetNew : IntsetMem := ⟨2, 0, []⟩

/-- `intsetResize`; what is in new memory is `fill`. -/
def intsetResize (fill : Nat → UInt8) (is : IntsetMem) (len : Nat) : IntsetMem :=
  let size := len * is.encoding % 2 ^ 32
  { is with
    contents := is.contents.take size ++ (range (size - is.contents.length)).map fill }

/-- The loop of `intsetSearch`: `min`, `mid` and `cur` at its end. -/
def intsetSearchLoop (is : IntsetMem) (value : Int) :
    (fuel : Nat) → (min max mid cur : Int) → Option (Int × Int × Int)
  | 0, min, _, mid, cur => some (min, mid, cur)
  | fuel + 1, min, max, mid, cur =>
    if max ≥ min then do
      let mid := (min + max) / 2
      let cur ← is.intsetGet mid.toNat
      if value > cur then intsetSearchLoop is value fuel (mid + 1) max mid cur
      else if value < cur then intsetSearchLoop is value fuel min (mid - 1) mid cur
      else return (min, mid, cur)
    else some (min, mid, cur)

/-- `intsetSearch`, with `pos`. -/
def intsetSearch (is : IntsetMem) (value : Int) : Option (Bool × Nat) :=
  if is.length = 0 then some (false, 0)
  else do
    if value > (← is.intsetGet (is.length - 1)) then return (false, is.length)
    if value < (← is.intsetGet 0) then return (false, 0)
    let (min, mid, cur) ← is.intsetSearchLoop value is.length 0 ((is.length : Int) - 1) (-1) (-1)
    return if value = cur then (true, mid.toNat) else (false, min.toNat)

/-- The loop of `intsetUpgradeAndAdd`, from the last element to the first. -/
def intsetUpgradeLoop (curenc prepend : Nat) : (length : Nat) → IntsetMem → Option IntsetMem
  | 0, is => some is
  | length + 1, is => do
    let value ← is.intsetGetEncoded length curenc
    let is ← is.intsetSet (length + prepend) value
    intsetUpgradeLoop curenc prepend length is

def intsetUpgradeAndAdd (fill : Nat → UInt8) (is : IntsetMem) (value : Int) : Option IntsetMem := do
  let curenc := is.encoding
  let newenc := intsetValueEncoding value
  let prepend := if value < 0 then 1 else 0
  let is := { is with encoding := newenc }
  let is := is.intsetResize fill (is.length + 1)
  let is ← intsetUpgradeLoop curenc prepend is.length is
  let is ← if value < 0 then is.intsetSet 0 value else is.intsetSet is.length value
  return { is with length := is.length + 1 }

def intsetMoveTail (is : IntsetMem) (source dest : Nat) : Option IntsetMem :=
  let bytes := (is.length - source) * width is.encoding % 2 ^ 32
  (move is.contents (dest * width is.encoding) (source * width is.encoding) bytes).map
    fun contents => { is with contents }

/-- `intsetAdd`, with `success`. -/
def intsetAdd (fill : Nat → UInt8) (is : IntsetMem) (value : Int) : Option (IntsetMem × Bool) :=
  if intsetValueEncoding value > is.encoding then
    (is.intsetUpgradeAndAdd fill value).map (·, true)
  else do
    let (found, pos) ← is.intsetSearch value
    if found then return (is, false)
    let is := is.intsetResize fill (is.length + 1)
    let is ← if pos < is.length then is.intsetMoveTail pos (pos + 1) else some is
    let is ← is.intsetSet pos value
    return ({ is with length := is.length + 1 }, true)

/-- `intsetRemove`, with `success`. -/
def intsetRemove (fill : Nat → UInt8) (is : IntsetMem) (value : Int) : Option (IntsetMem × Bool) :=
  if intsetValueEncoding value ≤ is.encoding then do
    let (found, pos) ← is.intsetSearch value
    if found then
      let len := is.length
      let is ← if pos < len - 1 then is.intsetMoveTail (pos + 1) pos else some is
      let is := is.intsetResize fill (len - 1)
      return ({ is with length := len - 1 }, true)
    else return (is, false)
  else some (is, false)

def intsetFind (is : IntsetMem) (value : Int) : Option Bool :=
  if intsetValueEncoding value ≤ is.encoding then (is.intsetSearch value).map Prod.fst
  else some false

/-- `intsetGet` of `intset.h`: the value at a position, if it is in range. -/
def intsetGetAt (is : IntsetMem) (pos : Nat) : Option (Option Int) :=
  if pos < is.length then (is.intsetGet pos).map some else some none

end IntsetMem

end Redis
