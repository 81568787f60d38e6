import Mathlib.Data.List.Basic
import Mathlib.Tactic.Common
import Mathlib.Tactic.Positivity
import Mathlib.Tactic.Ring

/-!
# Redis.Bytes

Buffers of bytes with checked access, and little-endian integers in them.

A buffer is a list of bytes.  `load`, `store` and `move` are `none` outside
the buffer, so that a computation that returns has stayed inside it.  The
lemmas give their results on a buffer written as an append, which is how a
proof names the part it is about.
-/

abbrev Redis.Bytes := List UInt8

namespace Redis

instance instLawfulBEqBytes : LawfulBEq Bytes := inferInstance

/-! ## Computations that may fail -/

variable {α β : Type}

theorem some_bind (a : α) (f : α → Option β) : (some a >>= f) = f a := rfl

theorem bind_eq_some {x : Option α} {f : α → Option β} {b : β} :
    (x >>= f) = some b ↔ ∃ a, x = some a ∧ f a = some b := Option.bind_eq_some_iff

end Redis

namespace Redis.Bytes

open List

variable {k n p off : Nat} {a bs buf : Bytes}

/-! ## Little-endian integers -/

/-- The `k` low bytes of `n`, low byte first. -/
def leBytes : Nat → Nat → Bytes
  | 0, _ => []
  | k + 1, n => UInt8.ofNat n :: leBytes k (n / 256)

/-- The number whose low byte comes first. -/
def leNat : Bytes → Nat
  | [] => 0
  | b :: bs => b.toNat + 256 * leNat bs

@[simp] theorem length_leBytes (k n : Nat) : (leBytes k n).length = k := by
  induction k generalizing n with
  | zero => rfl
  | succ k ih => simp [leBytes, ih]

theorem leNat_lt (bs : Bytes) : leNat bs < 256 ^ bs.length := by
  induction bs with
  | nil => simp [leNat]
  | cons b bs ih =>
    have hb : b.toNat < 256 := b.toNat_lt
    simp only [leNat, length_cons, Nat.pow_succ]
    omega

theorem leNat_leBytes (k n : Nat) : leNat (leBytes k n) = n % 256 ^ k := by
  induction k generalizing n with
  | zero => simp [leBytes, leNat, Nat.mod_one]
  | succ k ih =>
    have hb : (UInt8.ofNat n).toNat = n % 256 := by simp
    rw [leBytes, leNat, ih, hb, Nat.pow_succ, Nat.mul_comm (256 ^ k) 256, Nat.mod_mul]

theorem leNat_leBytes_of_lt (h : n < 256 ^ k) : leNat (leBytes k n) = n := by
  rw [leNat_leBytes, Nat.mod_eq_of_lt h]

theorem leNat_injective {xs ys : Bytes} (hlen : xs.length = ys.length)
    (h : leNat xs = leNat ys) : xs = ys := by
  induction xs generalizing ys with
  | nil => exact (length_eq_zero_iff.mp hlen.symm).symm
  | cons x xs ih =>
    cases ys with
    | nil => simp at hlen
    | cons y ys =>
      simp only [leNat] at h
      have hx : x.toNat < 256 := x.toNat_lt
      have hy : y.toNat < 256 := y.toNat_lt
      have hhead : x.toNat = y.toNat := by omega
      have htail : leNat xs = leNat ys := by omega
      rw [UInt8.toNat_inj.mp hhead, ih (by simpa using hlen) htail]

theorem bmod_leNat_leBytes {v : Int} (hlo : -(256 ^ k : Nat) ≤ 2 * v)
    (hhi : 2 * v < (256 ^ k : Nat)) :
    Int.bmod (leNat (leBytes k (v % (256 ^ k : Nat)).toNat)) (256 ^ k) = v := by
  have hpos : (0 : Int) < (256 ^ k : Nat) := by positivity
  have hnonneg := Int.emod_nonneg v hpos.ne'
  have hlt : (v % (256 ^ k : Nat)).toNat < 256 ^ k := by
    have := Int.emod_lt_of_pos v hpos
    omega
  rw [leNat_leBytes_of_lt hlt, Int.toNat_of_nonneg hnonneg, Int.emod_bmod]
  exact Int.bmod_eq_of_le (by omega) (by omega)

/-! ## Checked access -/

/-- The `n` bytes from the offset `off` on. -/
def load (buf : Bytes) (off n : Nat) : Option Bytes :=
  if off + n ≤ buf.length then some ((buf.drop off).take n) else none

/-- Writes `bs` at the offset `off`. -/
def store (buf : Bytes) (off : Nat) (bs : Bytes) : Option Bytes :=
  if off + bs.length ≤ buf.length then
    some (buf.take off ++ (bs ++ buf.drop (off + bs.length)))
  else none

/-- Copies `n` bytes from `src` to `dst`; the two ranges may overlap. -/
def move (buf : Bytes) (dst src n : Nat) : Option Bytes :=
  (load buf src n).bind (store buf dst)

theorem load_append {b : Bytes} (c : Bytes) (hoff : p = a.length) (hn : n = b.length) :
    load (a ++ (b ++ c)) p n = some b := by
  subst hoff hn
  simp [load]

theorem load_append_right (a b : Bytes) (off n : Nat) :
    load (a ++ b) (a.length + off) n = load b off n := by
  simp only [load, length_append, drop_append, Nat.add_sub_cancel_left,
    Nat.add_assoc, Nat.add_le_add_iff_left]
  simp [drop_eq_nil_of_le]

theorem load_append_left (b : Bytes) (h : load a off n = some bs) :
    load (a ++ b) off n = some bs := by
  rw [load] at h ⊢
  by_cases hle : off + n ≤ a.length
  · rw [if_pos hle] at h
    have hle' : off + n ≤ (a ++ b).length := by
      rw [length_append]
      omega
    rw [if_pos hle', ← h, drop_append_of_le_length (by omega),
      take_append_of_le_length (by rw [length_drop]; omega)]
  · simp [hle] at h

theorem store_append {b : Bytes} (b' c : Bytes) (hoff : p = a.length)
    (hlen : b'.length = b.length) : store (a ++ (b ++ c)) p b' = some (a ++ (b' ++ c)) := by
  subst hoff
  have hle : a.length + b'.length ≤ (a ++ (b ++ c)).length := by
    simp only [length_append]
    omega
  rw [store, if_pos hle, hlen, ← append_assoc a b c, ← length_append]
  simp

theorem store_append_right (a b : Bytes) (off : Nat) (bs : Bytes) :
    store (a ++ b) (a.length + off) bs = (store b off bs).map (a ++ ·) := by
  simp only [store, length_append, Nat.add_assoc, Nat.add_le_add_iff_left]
  split
  · simp [take_append, drop_append, drop_eq_nil_of_le, take_of_length_le]
  · rfl

/-- Writing over the end of the part `m`, behind its first `k` bytes. -/
theorem store_append_take {m : Bytes} (bs c : Bytes) (hoff : p = a.length + k)
    (hlen : m.length = k + bs.length) :
    store (a ++ (m ++ c)) p bs = some (a ++ (m.take k ++ (bs ++ c))) := by
  have hm : a ++ (m ++ c) = (a ++ m.take k) ++ (m.drop k ++ c) := by
    rw [append_assoc, ← append_assoc (m.take k), take_append_drop]
  have hk : (m.take k).length = k := by
    rw [length_take]
    omega
  rw [hm, store_append bs c (by rw [length_append, hk, hoff]) (by rw [length_drop]; omega),
    append_assoc]

theorem length_store {buf' : Bytes} (h : store buf off bs = some buf') :
    buf'.length = buf.length := by
  rw [store] at h
  split at h
  · cases h
    simp only [length_append, length_take, length_drop]
    omega
  · cases h

/-- A byte of a string that another was stored in. -/
theorem getElem?_store {buf' : Bytes} (h : store buf off bs = some buf') (i : Nat) :
    buf'[i]? = if off ≤ i ∧ i < off + bs.length then bs[i - off]? else buf[i]? := by
  rw [store] at h
  split at h
  next hle =>
    obtain rfl := Option.some.inj h
    have htake : (buf.take off).length = off := by
      rw [length_take]
      omega
    by_cases hlow : i < off
    · have hout : ¬ (off ≤ i ∧ i < off + bs.length) := by omega
      rw [if_neg hout, getElem?_append_left (by omega), getElem?_take, if_pos hlow]
    rw [getElem?_append_right (by omega), htake]
    by_cases hin : i < off + bs.length
    · have hthere : off ≤ i ∧ i < off + bs.length := by omega
      rw [if_pos hthere, getElem?_append_left (by omega)]
    · have hout : ¬ (off ≤ i ∧ i < off + bs.length) := by omega
      rw [if_neg hout, getElem?_append_right (by omega), getElem?_drop]
      exact congrArg _ (by omega)
  next => cases h

/-- Moving `b` over the part behind `a`. -/
theorem move_eq {dst src : Nat} (h : load buf src n = some bs) :
    move buf dst src n = store buf dst bs := by
  rw [move, h, Option.bind_some]

theorem getElem?_append_length (x : UInt8) (c : Bytes) (hoff : p = a.length) :
    (a ++ x :: c)[p]? = some x := by
  subst hoff
  simp

end Redis.Bytes
