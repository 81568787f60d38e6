import Mathlib

/-!
# Redis.Ordered

Lists that are strictly increasing: where an element belongs, putting it there and taking it out.
-/

namespace Redis.Ordered

open List

variable {α : Type} [LinearOrder α] {l : List α} {x y : α}

/-- In front of the place of `x` are the smaller elements, from there on the others. -/
theorem split (h : l.Pairwise (· < ·)) (x : α) :
    (∀ y ∈ l.takeWhile (· < x), y < x) ∧ ∀ y ∈ l.dropWhile (· < x), x ≤ y := by
  constructor
  · intro y hy
    simpa using mem_takeWhile_imp hy
  · induction l with
    | nil => simp
    | cons z l ih =>
      obtain ⟨hz, hl⟩ := pairwise_cons.mp h
      intro y hy
      rw [dropWhile_cons] at hy
      split at hy
      · exact ih hl y hy
      next hge =>
        have hle : x ≤ z := by simpa using hge
        rcases mem_cons.mp hy with rfl | hy
        · exact hle
        · exact hle.trans (hz y hy).le

/-- `x` is put at its place. -/
def insert (l : List α) (x : α) : List α :=
  l.takeWhile (· < x) ++ x :: l.dropWhile (· < x)

theorem mem_insert : y ∈ insert l x ↔ y = x ∨ y ∈ l := by
  conv_rhs => rw [← takeWhile_append_dropWhile (p := (· < x)) (l := l)]
  rw [insert, mem_append, mem_cons, mem_append]
  tauto

theorem pairwise_insert (h : l.Pairwise (· < ·)) (hx : x ∉ l) : (insert l x).Pairwise (· < ·) := by
  obtain ⟨hlt, hle⟩ := split h x
  have hgt (y : α) (hy : y ∈ l.dropWhile (· < x)) : x < y :=
    lt_of_le_of_ne (hle y hy) fun heq => hx (heq ▸ dropWhile_subset _ hy)
  rw [insert, pairwise_append, pairwise_cons]
  refine ⟨h.sublist (takeWhile_sublist _), ⟨hgt, h.sublist (dropWhile_sublist _)⟩, ?_⟩
  intro a ha b hb
  rcases mem_cons.mp hb with rfl | hb
  · exact hlt a ha
  · exact (hlt a ha).trans (hgt b hb)

/-- `x` is taken out, if it is at its place. -/
def erase (l : List α) (x : α) : List α :=
  match l.dropWhile (· < x) with
  | [] => l
  | y :: rest => if y = x then l.takeWhile (· < x) ++ rest else l

theorem erase_sublist : (erase l x).Sublist l := by
  rw [erase]
  split
  · exact Sublist.refl l
  next y rest hdrop =>
    split
    · conv_rhs => rw [← takeWhile_append_dropWhile (p := (· < x)) (l := l), hdrop]
      exact (sublist_cons_self y rest).append_left _
    · exact Sublist.refl l

theorem mem_erase (h : l.Pairwise (· < ·)) : y ∈ erase l x ↔ y ∈ l ∧ y ≠ x := by
  obtain ⟨hlt, hle⟩ := split h x
  have hsplit := takeWhile_append_dropWhile (p := (· < x)) (l := l)
  rw [erase]
  split
  next hdrop =>
    rw [hdrop, append_nil] at hsplit
    refine ⟨fun hy => ⟨hy, ?_⟩, And.left⟩
    exact (hlt y (hsplit.symm ▸ hy)).ne
  next z rest hdrop =>
    rw [hdrop] at hle hsplit
    have hz : ∀ w ∈ rest, z < w := by
      have hsub := h.sublist (dropWhile_sublist (· < x))
      rw [hdrop] at hsub
      exact (pairwise_cons.mp hsub).1
    have hxz := hle z mem_cons_self
    have hmem : y ∈ l ↔ y ∈ l.takeWhile (· < x) ∨ y = z ∨ y ∈ rest := by
      conv_lhs => rw [← hsplit]
      rw [mem_append, mem_cons]
    split
    next heq =>
      subst heq
      rw [mem_append, hmem]
      constructor
      · rintro (hy | hy)
        · exact ⟨.inl hy, (hlt y hy).ne⟩
        · exact ⟨.inr (.inr hy), (hz y hy).ne'⟩
      · rintro ⟨hy | rfl | hy, hne⟩
        · exact .inl hy
        · exact absurd rfl hne
        · exact .inr hy
    next hne =>
      refine ⟨fun hy => ⟨hy, ?_⟩, And.left⟩
      have hxlt : x < z := lt_of_le_of_ne hxz (Ne.symm hne)
      rcases hmem.mp hy with hy | rfl | hy
      · exact (hlt y hy).ne
      · exact hxlt.ne'
      · exact (hxlt.trans (hz y hy)).ne'

end Redis.Ordered
