import Mathlib.Data.List.Basic
import Mathlib.Tactic.Ring

/-!
# Redis.Ring

A buffer of `n` cells that keeps the last `n` elements of an unbounded history:
element `i` of the history is in cell `i % n`.  A write that does not cross the
end of the buffer extends the history (`Holds.overwrite`), and a read that does
not cross it returns a piece of the history (`Holds.slice`).
-/

namespace Redis.Ring

open List

variable {α : Type} {n : Nat} {buf hist : List α}

/-- The last `n` elements of `hist`, each in its cell. -/
structure Holds (n : Nat) (buf hist : List α) : Prop where
  length_eq : buf.length = n
  cell : ∀ i < hist.length, hist.length ≤ i + n → buf[i % n]? = hist[i]?

/-- The elements of `p` written from the cell `idx` on. -/
def overwrite (buf : List α) (idx : Nat) (p : List α) : List α :=
  buf.take idx ++ (p ++ buf.drop (idx + p.length))

variable {idx k m : Nat} {p : List α}

theorem length_overwrite (h : idx + p.length ≤ buf.length) :
    (overwrite buf idx p).length = buf.length := by
  simp [overwrite]
  omega

theorem getElem?_overwrite (h : idx + p.length ≤ buf.length) :
    (overwrite buf idx p)[k]? =
      if idx ≤ k ∧ k < idx + p.length then p[k - idx]? else buf[k]? := by
  have hlen : (buf.take idx).length = idx := by simp; omega
  rw [overwrite, getElem?_append, hlen]
  split
  next hlt => rw [if_neg (by omega), getElem?_take_of_lt hlt]
  next hge =>
    rw [getElem?_append]
    split
    next hin => rw [if_pos (by omega)]
    next hout =>
      rw [if_neg (by omega), getElem?_drop]
      congr 1
      omega

/-- Cells that are less than one round behind the cell of `m`. -/
theorem sub_mod_of_lt {d : Nat} (hd : d ≤ m) (hn : d ≤ n) (hpos : 0 < d) :
    (m - d) % n = if d ≤ m % n then m % n - d else m % n + n - d := by
  have hm : n * (m / n) + m % n = m := Nat.div_add_mod m n
  have hlt : m % n < n := Nat.mod_lt _ (by omega)
  split
  next h =>
    rw [show m - d = n * (m / n) + (m % n - d) by omega, Nat.mul_add_mod,
      Nat.mod_eq_of_lt (by omega)]
  next h =>
    cases hq : m / n with
    | zero =>
      simp [hq] at hm
      omega
    | succ q =>
      rw [hq, Nat.mul_succ] at hm
      rw [show m - d = n * q + (m % n + n - d) by omega, Nat.mul_add_mod,
        Nat.mod_eq_of_lt (by omega)]

theorem add_mod_of_lt (h : m % n + k < n) : (m + k) % n = m % n + k := by
  rw [← Nat.mod_add_mod, Nat.mod_eq_of_lt h]

/-- The cell that is `h` cells behind the one of `m`, counted forward. -/
theorem add_sub_mod {h : Nat} (k : Nat) (hm : h ≤ m) (hn : h ≤ n) :
    (m % n + (n - h) + k) % n = (m - h + k) % n := by
  rw [Nat.add_assoc, Nat.mod_add_mod, show m + (n - h + k) = n + (m - h + k) by omega,
    Nat.add_mod_left]

namespace Holds

theorem nil (h : buf.length = n) : Holds n buf ([] : List α) where
  length_eq := h
  cell := by simp

theorem overwrite (h : Holds n buf hist) {p : List α} (hp : hist.length % n + p.length ≤ n) :
    Holds n (Ring.overwrite buf (hist.length % n) p) (hist ++ p) where
  length_eq := by rw [length_overwrite (by rw [h.length_eq]; exact hp), h.length_eq]
  cell := by
    intro i hi hn
    rw [length_append] at hi hn
    rw [getElem?_overwrite (by rw [h.length_eq]; exact hp), getElem?_append]
    by_cases hold : i < hist.length
    · -- an element that stays: it is at least `p.length` cells ahead of the write
      have hmod := sub_mod_of_lt (n := n) (m := hist.length) (d := hist.length - i)
        (by omega) (by omega) (by omega)
      rw [show hist.length - (hist.length - i) = i by omega] at hmod
      rw [if_pos hold, ← h.cell i hold (by omega), if_neg]
      rw [hmod]
      split <;> omega
    · have hmod := add_mod_of_lt (n := n) (m := hist.length) (k := i - hist.length) (by omega)
      rw [show hist.length + (i - hist.length) = i by omega] at hmod
      rw [if_neg hold, hmod, if_pos (by omega)]
      congr 1
      omega

/-- A piece of the history that does not cross the end of the buffer. -/
theorem slice (h : Holds n buf hist) {i len : Nat} (hold : hist.length ≤ i + n)
    (hlen : i + len ≤ hist.length) (hend : i % n + len ≤ n) :
    (buf.drop (i % n)).take len = (hist.drop i).take len := by
  apply ext_getElem?
  intro k
  rw [getElem?_take, getElem?_take]
  split
  next hk =>
    rw [getElem?_drop, getElem?_drop, ← h.cell (i + k) (by omega) (by omega),
      add_mod_of_lt (by omega)]
  next => rfl

end Holds

end Redis.Ring
