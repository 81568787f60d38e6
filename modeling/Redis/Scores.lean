import Mathlib

/-!
# Redis.Scores

Numbers with two infinities and a `NaN`, with the arithmetic of `double` but for the rounding.
-/

namespace Redis

/-- A number, an infinity or no number. -/
inductive Score (α : Type) where
  | nan
  | negInf
  | fin (x : α)
  | posInf
deriving DecidableEq

namespace Score

variable {α : Type}

def isnan : Score α → Bool
  | nan => true
  | _ => false

theorem isnan_iff {x : Score α} : x.isnan = true ↔ x = nan := by cases x <;> simp [isnan]

/-! ## Order -/

section Order

variable [LinearOrder α] {x y z : Score α}

/-- `<`, which no `NaN` is on either side of. -/
def lt : Score α → Score α → Bool
  | nan, _ => false
  | _, nan => false
  | _, negInf => false
  | negInf, _ => true
  | posInf, _ => false
  | _, posInf => true
  | fin x, fin y => decide (x < y)

protected theorem lt_irrefl (x : Score α) : x.lt x = false := by
  cases x with
  | fin x => exact decide_eq_false (lt_irrefl x)
  | _ => rfl

protected theorem lt_trans (hxy : x.lt y = true) (hyz : y.lt z = true) : x.lt z = true := by
  cases x <;> cases y <;> cases z <;> simp_all [lt]
  exact lt_trans hxy hyz

/-- Two scores of which none is lower are the same. -/
theorem eq_of_not_lt (hx : x ≠ nan) (hy : y ≠ nan) (hxy : x.lt y = false) (hyx : y.lt x = false) :
    x = y := by
  cases x <;> cases y <;> simp_all [lt]
  exact le_antisymm hyx hxy

/-- What is below a score is below every one that is not lower. -/
theorem lt_of_lt_of_not_lt (hy : y ≠ nan) (hz : z ≠ nan) (hxy : x.lt y = true)
    (hzy : z.lt y = false) : x.lt z = true := by
  cases hyz : y.lt z with
  | true => exact Score.lt_trans hxy hyz
  | false => rwa [← eq_of_not_lt hy hz hyz hzy]

theorem lt_of_not_lt_of_lt (hx : x ≠ nan) (hy : y ≠ nan) (hyx : y.lt x = false)
    (hyz : y.lt z = true) : x.lt z = true := by
  cases hxy : x.lt y with
  | true => exact Score.lt_trans hxy hyz
  | false => rwa [eq_of_not_lt hx hy hxy hyx]

theorem nan_lt (x : Score α) : (nan : Score α).lt x = false := rfl

theorem lt_nan (x : Score α) : x.lt nan = false := by cases x <;> rfl

end Order

/-! ## Arithmetic -/

section Arithmetic

variable [Ring α]

instance : Zero (Score α) := ⟨fin 0⟩

instance : One (Score α) := ⟨fin 1⟩

instance : Add (Score α) where
  add
    | nan, _ => nan
    | _, nan => nan
    | fin x, fin y => fin (x + y)
    | fin _, posInf => posInf
    | posInf, fin _ => posInf
    | fin _, negInf => negInf
    | negInf, fin _ => negInf
    | posInf, posInf => posInf
    | posInf, negInf => nan
    | negInf, posInf => nan
    | negInf, negInf => negInf

variable (x : Score α)

protected theorem zero_add : 0 + x = x := by
  cases x with
  | fin x => exact congrArg fin (zero_add x)
  | _ => rfl

protected theorem add_zero : x + 0 = x := by
  cases x with
  | fin x => exact congrArg fin (add_zero x)
  | _ => rfl

theorem add_nan : x + nan = nan := by cases x <;> rfl

/-- 0 instead of a `NaN`. -/
def orZero (x : Score α) : Score α := if x.isnan then 0 else x

theorem orZero_of_ne {x : Score α} (h : x ≠ nan) : x.orZero = x := by
  rw [orZero, if_neg (mt isnan_iff.mp h)]

@[simp]
theorem orZero_nan : (nan : Score α).orZero = 0 := rfl

theorem orZero_ne : x.orZero ≠ nan := by
  rw [orZero]
  split
  next => exact (nofun : (fin 0 : Score α) ≠ nan)
  next h => exact mt isnan_iff.mpr h

variable [LinearOrder α]

/-- A number times the positive infinity. -/
def timesInf (x : α) : Score α := if 0 < x then posInf else if x < 0 then negInf else nan

instance : Mul (Score α) where
  mul
    | nan, _ => nan
    | _, nan => nan
    | fin x, fin y => fin (x * y)
    | fin x, posInf => timesInf x
    | posInf, fin x => timesInf x
    | fin x, negInf => timesInf (-x)
    | negInf, fin x => timesInf (-x)
    | posInf, posInf => posInf
    | posInf, negInf => negInf
    | negInf, posInf => negInf
    | negInf, negInf => posInf

end Arithmetic

protected theorem mul_comm [CommRing α] [LinearOrder α] (x y : Score α) : x * y = y * x := by
  cases x with
  | fin x =>
    cases y with
    | fin y => exact congrArg fin (mul_comm x y)
    | _ => rfl
  | _ => cases y <;> rfl

end Score

end Redis
