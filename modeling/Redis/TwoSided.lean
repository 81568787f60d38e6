import Mathlib.Data.List.Nodup
import Mathlib.Logic.Function.Basic

/-!
# Redis.TwoSided

A relation stored on both of its sides: a table gives the members of a key, and each member
has the list of its keys.  A key without members is not in the table.
-/

set_option linter.unusedSectionVars false

namespace Redis

open Function (update)

variable {α β : Type} [DecidableEq α] [DecidableEq β]

/-- The list of a key with one more member. -/
def addMember (members : Option (List β)) (b : β) : Option (List β) :=
  some (members.getD [] ++ [b])

/-- The list of a key without a member; an empty list is not kept. -/
def dropMember (members : List β) (b : β) : Option (List β) :=
  if (members.erase b).isEmpty then none else some (members.erase b)

/-- `b` is a member of `a`. -/
def IsMember (table : α → Option (List β)) (a : α) (b : β) : Prop :=
  ∃ members, table a = some members ∧ b ∈ members

/-- Both sides say the same, and nothing is said twice. -/
structure TwoSided (table : α → Option (List β)) (keys : β → List α) : Prop where
  agree : ∀ a b, IsMember table a b ↔ a ∈ keys b
  members : ∀ a bs, table a = some bs → bs ≠ [] ∧ bs.Nodup
  nodup : ∀ b, (keys b).Nodup

theorem isMember_of_some {table : α → Option (List β)} {a : α} {bs : List β}
    (h : table a = some bs) (b : β) : IsMember table a b ↔ b ∈ bs := by
  constructor
  · rintro ⟨bs', h', hb⟩
    exact Option.some.inj (h.symm.trans h') ▸ hb
  · exact fun hb => ⟨bs, h, hb⟩

theorem isMember_addMember (members : Option (List β)) (table : α → Option (List β)) (a : α)
    (b b' : β) (h : table a = members) :
    IsMember (update table a (addMember members b)) a b' ↔
      IsMember table a b' ∨ b' = b := by
  rw [addMember, isMember_of_some (Function.update_self ..), List.mem_append, List.mem_singleton]
  cases members with
  | none => simp [IsMember, h]
  | some bs => rw [isMember_of_some h, Option.getD_some]

theorem isMember_update_of_ne {table : α → Option (List β)} {a a' : α} (hne : a' ≠ a)
    (bs : Option (List β)) (b : β) :
    IsMember (update table a bs) a' b ↔ IsMember table a' b := by
  rw [IsMember, IsMember, Function.update_of_ne hne]

theorem isMember_dropMember {table : α → Option (List β)} {a : α} {bs : List β}
    (hnodup : bs.Nodup) (b b' : β) :
    IsMember (update table a (dropMember bs b)) a b' ↔ b' ∈ bs ∧ b' ≠ b := by
  have hmem : b' ∈ bs.erase b ↔ b' ∈ bs ∧ b' ≠ b := by
    rw [hnodup.mem_erase_iff]
    exact and_comm
  rw [← hmem, dropMember]
  split
  next hempty =>
    rw [List.isEmpty_iff] at hempty
    simp [IsMember, hempty]
  next => exact isMember_of_some (Function.update_self ..) b'

namespace TwoSided

variable {table : α → Option (List β)} {keys : β → List α}

theorem empty : TwoSided (fun _ : α => (none : Option (List β))) (fun _ => []) where
  agree := by simp [IsMember]
  members := by simp
  nodup := by simp

theorem join (h : TwoSided table keys) {a : α} {b : β} (ha : a ∉ keys b) :
    TwoSided (update table a (addMember (table a) b))
      (update keys b (keys b ++ [a])) where
  agree := by
    intro a' b'
    have hiff := h.agree a' b'
    by_cases haa : a' = a
    · subst haa
      rw [isMember_addMember _ _ _ _ _ rfl, hiff]
      by_cases hbb : b' = b
      · simp [hbb]
      · simp [hbb]
    · rw [isMember_update_of_ne haa, hiff]
      by_cases hbb : b' = b
      · simp [hbb, haa]
      · simp [hbb]
  members := by
    intro a' bs hbs
    by_cases haa : a' = a
    · subst haa
      rw [Function.update_self, addMember, Option.some.injEq] at hbs
      have hnotin : b ∉ (table a').getD [] := by
        cases htable : table a' with
        | none => simp
        | some bs' => exact fun hb => ha ((h.agree a' b).mp ⟨bs', htable, hb⟩)
      have hnodup : ((table a').getD []).Nodup := by
        cases htable : table a' with
        | none => simp
        | some bs' => exact (h.members a' bs' htable).2
      subst hbs
      exact ⟨by simp, List.nodup_append.mpr ⟨hnodup, by simp, by grind⟩⟩
    · rw [Function.update_of_ne haa] at hbs
      exact h.members a' bs hbs
  nodup := by
    intro b'
    by_cases hbb : b' = b
    · subst hbb
      rw [Function.update_self]
      exact List.nodup_append.mpr ⟨h.nodup b', by simp, by grind⟩
    · rw [Function.update_of_ne hbb]
      exact h.nodup b'

/-- `b` leaves `a`. -/
theorem leave (h : TwoSided table keys) {a : α} {b : β} {bs : List β} (hbs : table a = some bs) :
    TwoSided (update table a (dropMember bs b))
      (update keys b ((keys b).erase a)) where
  agree := by
    intro a' b'
    have hiff := h.agree a' b'
    by_cases haa : a' = a
    · subst haa
      rw [isMember_dropMember (h.members a' bs hbs).2, ← isMember_of_some hbs, hiff]
      by_cases hbb : b' = b
      · simp [hbb, (h.nodup b).not_mem_erase]
      · simp [hbb]
    · rw [isMember_update_of_ne haa, hiff]
      by_cases hbb : b' = b
      · simp [hbb, List.mem_erase_of_ne haa]
      · simp [hbb]
  members := by
    intro a' bs' hbs'
    by_cases haa : a' = a
    · subst haa
      rw [Function.update_self, dropMember] at hbs'
      split at hbs'
      · cases hbs'
      next hne =>
        cases hbs'
        exact ⟨by simpa using hne, (h.members a' bs hbs).2.erase b⟩
    · rw [Function.update_of_ne haa] at hbs'
      exact h.members a' bs' hbs'
  nodup := by
    intro b'
    by_cases hbb : b' = b
    · subst hbb
      rw [Function.update_self]
      exact (h.nodup b').erase a
    · rw [Function.update_of_ne hbb]
      exact h.nodup b'

/-- The same relation in other words. -/
theorem congr {table' : α → Option (List β)} {keys' : β → List α} (h : TwoSided table keys)
    (htable : ∀ a, table' a = table a) (hkeys : ∀ b, keys' b = keys b) :
    TwoSided table' keys' := by
  obtain rfl : table' = table := funext htable
  obtain rfl : keys' = keys := funext hkeys
  exact h

theorem not_isMember (h : TwoSided table keys) {b : β} (hb : keys b = []) (a : α) :
    ¬ IsMember table a b := by
  rw [h.agree, hb]
  exact List.not_mem_nil

end TwoSided

end Redis
