import Mathlib

/-!
# Redis.Owned

A list of pairs of an owner and a thing: what each owner has in it, in the order of the list.
-/

namespace Redis

open List

variable {α β : Type} [DecidableEq β]

/-- What an owner has in a list of pairs. -/
def ownedBy (l : List (β × α)) (b : β) : List α := (l.filter fun e => e.1 = b).map Prod.snd

@[simp]
theorem ownedBy_nil (b : β) : ownedBy ([] : List (β × α)) b = [] := rfl

theorem ownedBy_cons (e : β × α) (l : List (β × α)) (b : β) :
    ownedBy (e :: l) b = if e.1 = b then e.2 :: ownedBy l b else ownedBy l b := by
  rw [ownedBy, filter_cons]
  by_cases h : e.1 = b
  · simp [h, ownedBy]
  · simp [h, ownedBy]

variable (l : List (β × α))

theorem ownedBy_append (l' : List (β × α)) (b : β) :
    ownedBy (l ++ l') b = ownedBy l b ++ ownedBy l' b := by
  rw [ownedBy, filter_append, map_append, ownedBy, ownedBy]

theorem mem_ownedBy {l : List (β × α)} {a : α} {b : β} : a ∈ ownedBy l b ↔ (b, a) ∈ l := by
  simp [ownedBy]

theorem count_ownedBy [BEq α] [LawfulBEq α] [BEq (β × α)] [LawfulBEq (β × α)] (a : α) (b : β) :
    (ownedBy l b).count a = l.count (b, a) := by
  induction l with
  | nil => rfl
  | cons e l ih =>
    obtain ⟨b', a'⟩ := e
    rw [ownedBy_cons, count_cons, ← ih]
    by_cases h : b' = b
    · rw [if_pos h, count_cons]
      by_cases ha : a' = a
      · simp [h, ha]
      · simp [ha]
    · simp [h]

theorem ownedBy_add (b : β) (a : α) :
    ownedBy (l ++ [(b, a)]) = Function.update (ownedBy l) b (ownedBy l b ++ [a]) := by
  funext b'
  rw [ownedBy_append, ownedBy_cons, ownedBy_nil, Function.update_apply]
  by_cases h : b' = b
  · simp [h]
  · simp [h, Ne.symm h]

theorem ownedBy_erase [BEq α] [LawfulBEq α] [BEq (β × α)] [LawfulBEq (β × α)] (b : β) (a : α) :
    ownedBy (l.erase (b, a)) = Function.update (ownedBy l) b ((ownedBy l b).erase a) := by
  funext b'
  induction l with
  | nil => by_cases h : b' = b <;> simp [Function.update_apply, h]
  | cons e l ih =>
    obtain ⟨b'', a''⟩ := e
    rw [Function.update_apply] at ih ⊢
    rw [erase_cons, ownedBy_cons, ownedBy_cons]
    by_cases hb : b'' = b
    · subst hb
      by_cases ha : a'' = a
      · simp [ha]
        grind
      · simp [ha, ownedBy_cons, ih]
        grind
    · simp [hb, ownedBy_cons, ih]
      grind

/-- The pairs that pass a test, in another form. -/
theorem ownedBy_filter_map {γ : Type} (p : α → Bool) (g : α → γ) (b : β) :
    ownedBy ((l.filter fun e => p e.2).map fun e => (e.1, g e.2)) b =
      ((ownedBy l b).filter p).map g := by
  induction l with
  | nil => rfl
  | cons e l ih =>
    rw [ownedBy_cons, filter_cons]
    by_cases hp : p e.2
    · rw [if_pos hp, map_cons, ownedBy_cons, ih]
      by_cases hb : e.1 = b
      · simp [hp, hb]
      · simp [hb]
    · rw [if_neg hp, ih]
      by_cases hb : e.1 = b
      · simp [hp, hb]
      · simp [hb]

/-- The same for every owner in a list. -/
theorem ownedBy_const (bs : List β) (a : α) (b : β) :
    ownedBy (bs.map fun b' => (b', a)) b = replicate (bs.count b) a := by
  induction bs with
  | nil => rfl
  | cons b' bs ih =>
    rw [map_cons, ownedBy_cons, ih, count_cons]
    by_cases h : b' = b
    · simp [h, replicate_succ]
    · simp [h]

theorem sum_map_ite_eq_count (bs : List β) (b : β) :
    (bs.map fun b' => if b = b' then 1 else 0).sum = bs.count b := by
  induction bs with
  | nil => rfl
  | cons b' bs ih =>
    rw [map_cons, sum_cons, ih, count_cons, Nat.add_comm]
    by_cases h : b = b'
    · simp [h]
    · simp [h, Ne.symm h]

theorem sum_length_ownedBy {bs : List β} (hbs : bs.Nodup) {l : List (β × α)}
    (hl : ∀ e ∈ l, e.1 ∈ bs) : (bs.map fun b => (ownedBy l b).length).sum = l.length := by
  induction l with
  | nil => simp
  | cons e l ih =>
    have hone : (bs.map fun b => if e.1 = b then 1 else 0).sum = 1 := by
      rw [sum_map_ite_eq_count, count_eq_one_of_mem hbs (hl e mem_cons_self)]
    have hlen : (fun b => (ownedBy (e :: l) b).length) =
        fun b => (if e.1 = b then 1 else 0) + (ownedBy l b).length := by
      funext b
      rw [ownedBy_cons]
      split
      · rw [length_cons, Nat.add_comm]
      · rw [Nat.zero_add]
    rw [hlen, sum_map_add, hone, ih fun e' he' => hl e' (mem_cons_of_mem _ he'),
      length_cons, Nat.add_comm]

end Redis
