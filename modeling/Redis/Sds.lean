import Redis.Bytes

/-!
# Redis.Sds

The dynamic strings of `sds.c` that the HyperLogLog code works on in place:
the used length, the free bytes, and the allocated block, which ends in a null
byte behind the used ones.
-/

namespace Redis

open Bytes List

/-- An `sds`: `struct sdshdr`. -/
structure Sds where
  len : Nat
  free : Nat
  buf : Bytes
  size : buf.length = len + free + 1

namespace Sds

/-- The block with `bs` written at `off`. -/
def store (s : Sds) (off : Nat) (bs : Bytes) : Option Sds :=
  match h : Bytes.store s.buf off bs with
  | some buf => some { s with buf, size := by rw [length_store h, s.size] }
  | none => none

/-- `memmove` inside the block. -/
def move (s : Sds) (dst src n : Nat) : Option Sds := do
  let bs ← load s.buf src n
  s.store dst bs

theorem store_spec {s : Sds} {off : Nat} {bs buf : Bytes}
    (h : Bytes.store s.buf off bs = some buf) :
    ∃ s', s.store off bs = some s' ∧ s'.len = s.len ∧ s'.buf = buf := by
  unfold store
  split
  next buf' h' => exact ⟨_, rfl, rfl, Option.some.inj (h'.symm.trans h)⟩
  next h' =>
    rw [h] at h'
    cases h'

theorem move_spec {s : Sds} {dst src n : Nat} {bs buf : Bytes}
    (hload : load s.buf src n = some bs) (h : Bytes.store s.buf dst bs = some buf) :
    ∃ s', s.move dst src n = some s' ∧ s'.len = s.len ∧ s'.buf = buf := by
  rw [move, hload]
  exact store_spec h

end Sds

def sdsMaxPrealloc : Nat := 1024 * 1024

/-- `sdsnewlen` with a null pointer: a block of zeros. -/
def sdsnewlen (initlen : Nat) : Sds where
  len := initlen
  free := 0
  buf := replicate (initlen + 1) 0
  size := by simp

/-- The length `sdsMakeRoomFor` allocates for. -/
def sdsNewlen (len addlen : Nat) : Nat :=
  if len + addlen < sdsMaxPrealloc then (len + addlen) * 2 else len + addlen + sdsMaxPrealloc

theorem le_sdsNewlen (len addlen : Nat) : len + addlen ≤ sdsNewlen len addlen := by
  rw [sdsNewlen]
  split <;> omega

/-- `sdsMakeRoomFor`; `fill` is what the new memory holds. -/
def sdsMakeRoomFor (fill : Nat → UInt8) (s : Sds) (addlen : Nat) : Sds :=
  if h : s.free ≥ addlen then s
  else
    { len := s.len
      free := sdsNewlen s.len addlen - s.len
      buf := s.buf ++ (range (sdsNewlen s.len addlen - s.len - s.free)).map fill
      size := by
        have hsize := s.size
        have hle := le_sdsNewlen s.len addlen
        simp only [length_append, length_map, length_range]
        omega }

theorem sdsMakeRoomFor_spec (fill : Nat → UInt8) (s : Sds) (addlen : Nat) :
    (sdsMakeRoomFor fill s addlen).len = s.len ∧ addlen ≤ (sdsMakeRoomFor fill s addlen).free ∧
      ∃ t, (sdsMakeRoomFor fill s addlen).buf = s.buf ++ t := by
  rw [sdsMakeRoomFor]
  split
  next h => exact ⟨rfl, h, [], by simp⟩
  next h =>
    have hle := le_sdsNewlen s.len addlen
    exact ⟨rfl, by simp only; omega, _, rfl⟩

def sdsIncrLen (s : Sds) (incr : Int) : Option Sds :=
  if h : 0 ≤ (s.len : Int) + incr ∧ incr ≤ s.free then
    Sds.store
      { len := (s.len + incr).toNat
        free := (s.free - incr).toNat
        buf := s.buf
        size := by
          have := s.size
          omega }
      (s.len + incr).toNat [0]
  else none

theorem sdsIncrLen_eq {s : Sds} (incr : Int) {a t : Bytes} {x : UInt8}
    (hbuf : s.buf = a ++ x :: t) (hlen : (s.len : Int) + incr = a.length) :
    ∃ s', sdsIncrLen s incr = some s' ∧ s'.len = a.length ∧ s'.buf = a ++ 0 :: t := by
  have hsize := s.size
  rw [hbuf, length_append, length_cons] at hsize
  have hstore : Bytes.store s.buf (s.len + incr).toNat [0] = some (a ++ 0 :: t) := by
    rw [hbuf]
    exact store_append (b := [x]) [0] t (by omega) rfl
  have hrange : 0 ≤ (s.len : Int) + incr ∧ incr ≤ s.free := by omega
  rw [sdsIncrLen, dif_pos hrange]
  generalize hs : Sds.mk (s.len + incr).toNat (s.free - incr).toNat s.buf _ = s₁
  have hbuf₁ : s₁.buf = s.buf := by rw [← hs]
  have hlen₁ : s₁.len = (s.len + incr).toNat := by rw [← hs]
  rw [← hbuf₁] at hstore
  obtain ⟨s', hs', hlen', hbuf'⟩ := Sds.store_spec hstore
  exact ⟨s', hs', by omega, hbuf'⟩

end Redis
