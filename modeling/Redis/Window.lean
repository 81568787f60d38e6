import Mathlib.Data.List.DropRight
import Mathlib.Data.List.Sort

/-!
# Redis.Window

The last `n` elements of a list: of one that grows at its end, and of a sorted one, where they are
the largest.
-/

namespace Redis.Window

open List

section Growing

variable {α : Type*} {n : Nat}

theorem length_rtake (xs : List α) : (xs.rtake n).length = min n xs.length := by
  rw [rtake, length_drop]
  omega

variable {bs xs : List α}

theorem rtake_of_length_le (h : xs.length ≤ n) : xs.rtake n = xs := by
  rw [rtake, Nat.sub_eq_zero_of_le h, drop_zero]

/-- What is new stands behind what has not left. -/
theorem rtake_append_of_le (hn : n ≤ xs.length) (hbs : bs.length ≤ n) :
    (xs ++ bs).rtake n = (xs.rtake n).drop bs.length ++ bs := by
  have hdrop : (xs ++ bs).length - n = (xs.length - n) + bs.length := by
    rw [length_append]
    omega
  rw [rtake, rtake, hdrop, drop_drop, drop_append_of_le_length (by omega)]

theorem rtake_append_of_ge (hbs : n ≤ bs.length) : (xs ++ bs).rtake n = bs.rtake n := by
  have hdrop : (xs ++ bs).length - n = xs.length + (bs.length - n) := by
    rw [length_append]
    omega
  rw [rtake, rtake, hdrop, drop_append]
  simp

/-- Behind `n` elements that do not stand in `mark`, the last `n` are `mark` only if all of them
have come since. -/
theorem rtake_replicate_append_eq_iff {a : α} {mark : List α} (hlen : mark.length = n)
    (ha : a ∉ mark) : (replicate n a ++ xs).rtake n = mark ↔ mark <:+ xs := by
  constructor
  · intro h
    by_cases hxs : n ≤ xs.length
    · rw [rtake_append_of_ge hxs] at h
      exact h ▸ drop_suffix _ _
    · rw [rtake_append_of_le (by simp) (by omega), rtake, drop_drop,
        drop_replicate] at h
      refine absurd ?_ ha
      rw [← h]
      refine mem_append_left _ (mem_replicate.mpr ⟨?_, rfl⟩)
      rw [length_replicate]
      omega
  · rintro ⟨front, rfl⟩
    rw [rtake_append_of_ge (by simp [hlen]), rtake_append_of_ge hlen.ge, rtake_of_length_le hlen.le]

end Growing

section Sorted

variable {α : Type*} [LinearOrder α] {n : Nat} {a : α}

variable {back front l : List α}

theorem orderedInsert_append (h : ∀ x ∈ front, x < a) :
    (front ++ back).orderedInsert (· ≤ ·) a = front ++ back.orderedInsert (· ≤ ·) a := by
  induction front with
  | nil => rfl
  | cons x front ih =>
    obtain ⟨hx, hfront⟩ := forall_mem_cons.mp h
    rw [cons_append, orderedInsert_of_not_le _ _ (not_le.mpr hx), ih hfront,
      cons_append]

theorem orderedInsert_append_left {x : α} (hx : x ∈ front) (hax : a ≤ x) :
    (front ++ back).orderedInsert (· ≤ ·) a = front.orderedInsert (· ≤ ·) a ++ back := by
  induction front with
  | nil => exact absurd hx not_mem_nil
  | cons y front ih =>
    rw [cons_append, orderedInsert_cons, orderedInsert_cons]
    split
    · rfl
    · rename_i hy
      rw [ih ((mem_cons.mp hx).resolve_left fun h => hy (h ▸ hax)), cons_append]

theorem orderedInsert_of_forall_le (h : ∀ x ∈ l, a ≤ x) : l.orderedInsert (· ≤ ·) a = a :: l := by
  cases l with
  | nil => rfl
  | cons x l => exact orderedInsert_cons_of_le _ _ (h x mem_cons_self)

theorem orderedInsert_eq_insertIdx (l : List α) :
    l.orderedInsert (· ≤ ·) a = l.insertIdx (l.takeWhile (· < a)).length a := by
  induction l with
  | nil => rfl
  | cons x l ih =>
    by_cases hx : x < a
    · rw [orderedInsert_of_not_le _ _ (not_le.mpr hx), ih]
      simp [hx]
    · rw [orderedInsert_cons_of_le _ _ (not_lt.mp hx)]
      simp [hx]

theorem rtake_orderedInsert_rtake (hl : l.Pairwise (· ≤ ·)) :
    ((l.rtake n).orderedInsert (· ≤ ·) a).rtake n = (l.orderedInsert (· ≤ ·) a).rtake n := by
  obtain hn | hn := le_total l.length n
  · rw [rtake_of_length_le hn]
  have hsplit : l.take (l.length - n) ++ l.rtake n = l := take_append_drop _ l
  have hlen : (l.rtake n).length = n := by rw [length_rtake, min_eq_left hn]
  generalize l.take (l.length - n) = front, l.rtake n = back at hsplit hlen
  subst hsplit
  by_cases hfront : ∀ x ∈ front, x < a
  · rw [orderedInsert_append hfront,
      rtake_append_of_ge (by rw [orderedInsert_length, hlen]; omega)]
  · -- an element that leaves is not smaller than `a`, so that `a` leaves
    push Not at hfront
    obtain ⟨x, hx, hax⟩ := hfront
    have hback (y) (hy : y ∈ back) : a ≤ y :=
      hax.trans ((pairwise_append.mp hl).2.2 x hx y hy)
    rw [orderedInsert_of_forall_le hback, orderedInsert_append_left hx hax,
      rtake_append_of_ge hlen.ge]
    have hone : ([a] ++ back).rtake n = back.rtake n := rtake_append_of_ge hlen.ge
    exact hone

/-- One after the other, into a list that keeps its `n` largest. -/
theorem foldl_orderedInsert_rtake (hl : l.Pairwise (· ≤ ·)) (new : List α) :
    new.foldl (fun l a => (l.orderedInsert (· ≤ ·) a).rtake n) (l.rtake n) =
      ((l ++ new).insertionSort (· ≤ ·)).rtake n := by
  induction new generalizing l with
  | nil => rw [append_nil, hl.insertionSort_eq, foldl_nil]
  | cons a new ih =>
    rw [foldl_cons, rtake_orderedInsert_rtake hl, ih (hl.orderedInsert a l)]
    have hperm : (l.orderedInsert (· ≤ ·) a ++ new).Perm (l ++ a :: new) :=
      ((perm_orderedInsert _ a l).append_right new).trans perm_middle.symm
    rw [Perm.eq_of_pairwise' (pairwise_insertionSort _ _)
      (pairwise_insertionSort _ _)
      ((perm_insertionSort _ _).trans (hperm.trans (perm_insertionSort _ _).symm))]

end Sorted

end Redis.Window
