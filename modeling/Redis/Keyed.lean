import Mathlib.Data.Finset.Card
import Mathlib.Data.List.Nodup

/-!
# Redis.Keyed

Tables of entries whose keys can be written in several ways: two keys are the same when a function
`view` has the same value for both.  As a partial function of these values, a table does not depend
on the order of its entries, and adding, replacing and removing an entry change it at one place.
-/

namespace Redis.Keyed

open List
open Function (update)

variable {α β κ : Type} [DecidableEq κ] {view : α → κ} {l l' : List (α × β)} {a : α} {b : β} {k : κ}

/-- No two entries have the same key. -/
def Uniq (view : α → κ) (l : List (α × β)) : Prop := (l.map fun e => view e.1).Nodup

def lookup (view : α → κ) (l : List (α × β)) (k : κ) : Option β :=
  (l.find? fun e => view e.1 = k).map Prod.snd

@[simp]
theorem lookup_nil : lookup view ([] : List (α × β)) k = none := rfl

theorem lookup_cons (e : α × β) :
    lookup view (e :: l) k = if view e.1 = k then some e.2 else lookup view l k := by
  rw [lookup, find?_cons]
  by_cases h : view e.1 = k
  · simp [h]
  · simp [h, lookup]

theorem lookup_eq_none_iff : lookup view l k = none ↔ ∀ e ∈ l, view e.1 ≠ k := by
  simp [lookup]

theorem lookup_isSome_iff : (lookup view l k).isSome ↔ ∃ e ∈ l, view e.1 = k := by
  rw [Option.isSome_iff_ne_none, ne_eq, lookup_eq_none_iff]
  push Not
  rfl

theorem uniq_cons {e : α × β} :
    Uniq view (e :: l) ↔ lookup view l (view e.1) = none ∧ Uniq view l := by
  rw [Uniq, map_cons, nodup_cons, lookup_eq_none_iff, mem_map]
  refine and_congr_left fun _ => ⟨fun h e' he' heq => h ⟨e', he', heq⟩, ?_⟩
  rintro h ⟨e', he', heq⟩
  exact h e' he' heq

/-- The entries are the values of the function. -/
theorem lookup_eq_some_iff (h : Uniq view l) :
    lookup view l k = some b ↔ ∃ a, (a, b) ∈ l ∧ view a = k := by
  induction l with
  | nil => simp
  | cons e l ih =>
    obtain ⟨hnone, huniq⟩ := uniq_cons.mp h
    rw [lookup_cons]
    split
    next heq =>
      rw [Option.some.injEq]
      constructor
      · rintro rfl
        exact ⟨e.1, mem_cons_self, heq⟩
      · rintro ⟨a, hmem, hview⟩
        rcases mem_cons.mp hmem with rfl | hmem
        · rfl
        · exact absurd (hview.trans heq.symm) (lookup_eq_none_iff.mp hnone _ hmem)
    next hne =>
      rw [ih huniq]
      refine exists_congr fun a => and_congr_left fun hview => ?_
      rw [mem_cons]
      refine ⟨.inr, fun hmem => hmem.resolve_left ?_⟩
      rintro rfl
      exact hne hview

omit [DecidableEq κ] in
theorem Uniq.perm (h : Uniq view l) (hp : l.Perm l') : Uniq view l' :=
  (hp.map fun e : α × β => view e.1).nodup_iff.mp h

theorem lookup_perm (h : Uniq view l) (hp : l.Perm l') : lookup view l' = lookup view l := by
  funext k
  ext b
  rw [lookup_eq_some_iff h, lookup_eq_some_iff (h.perm hp)]
  simp only [hp.mem_iff]

/-- Entries whose keys are written in another way, and whose values are changed. -/
theorem lookup_map {α' β' : Type} {view' : α' → κ} {f : α × β → α' × β'} {g : β → β'}
    (hview : ∀ e ∈ l, view' (f e).1 = view e.1) (hval : ∀ e ∈ l, (f e).2 = g e.2) :
    lookup view' (l.map f) k = (lookup view l k).map g := by
  induction l with
  | nil => rfl
  | cons e l ih =>
    rw [map_cons, lookup_cons, lookup_cons, hview e mem_cons_self,
      hval e mem_cons_self, ih (fun e' he' => hview e' (mem_cons_of_mem e he'))
        fun e' he' => hval e' (mem_cons_of_mem e he')]
    split <;> rfl

omit [DecidableEq κ] in
theorem Uniq.map {α' β' : Type} {view' : α' → κ} {f : α × β → α' × β'} (h : Uniq view l)
    (hview : ∀ e ∈ l, view' (f e).1 = view e.1) : Uniq view' (l.map f) := by
  have hkeys : ((l.map f).map fun e => view' e.1) = l.map fun e => view e.1 := by
    rw [map_map]
    exact map_congr_left hview
  rw [Uniq, hkeys]
  exact h

/-! ## Adding -/

theorem lookup_add : lookup view ((a, b) :: l) = update (lookup view l) (view a) (some b) := by
  funext k
  rw [lookup_cons, Function.update_apply]
  simp only [eq_comm]

/-! ## Replacing -/

/-- The value of a key is replaced. -/
def replace (view : α → κ) (l : List (α × β)) (k : κ) (b : β) : List (α × β) :=
  l.map fun e => if view e.1 = k then (e.1, b) else e

theorem Uniq.replace (h : Uniq view l) (k : κ) (b : β) : Uniq view (replace view l k b) := by
  have hkeys : ((Keyed.replace view l k b).map fun e => view e.1) = l.map fun e => view e.1 := by
    rw [Keyed.replace, map_map]
    refine map_congr_left fun e _ => ?_
    rw [Function.comp_apply]
    split <;> rfl
  rw [Uniq, hkeys]
  exact h

theorem lookup_replace (view : α → κ) (l : List (α × β)) (k : κ) (b : β) :
    lookup view (replace view l k b) =
      update (lookup view l) k ((lookup view l k).map fun _ => b) := by
  funext k'
  rw [Function.update_apply]
  induction l with
  | nil => simp [replace]
  | cons e l ih =>
    rw [replace] at ih
    rw [replace, map_cons, lookup_cons, ih, lookup_cons, lookup_cons]
    by_cases he : view e.1 = k
    · subst he
      by_cases hk' : k' = view e.1
      · simp [hk']
      · simp [hk', Ne.symm hk']
    · by_cases hk' : k' = k
      · simp [hk', he]
      · simp [hk', he]

/-! ## Removing -/

/-- The entry of a key is removed. -/
def erase (view : α → κ) (l : List (α × β)) (k : κ) : List (α × β) :=
  l.filter fun e => !decide (view e.1 = k)

theorem Uniq.erase (h : Uniq view l) (k : κ) : Uniq view (erase view l k) :=
  Nodup.sublist (filter_sublist.map _) h

theorem lookup_erase (k : κ) :
    lookup view (erase view l k) = update (lookup view l) k none := by
  funext k'
  rw [Function.update_apply]
  induction l with
  | nil => simp [erase]
  | cons e l ih =>
    rw [erase] at ih
    rw [erase, filter_cons, lookup_cons]
    by_cases he : view e.1 = k
    · simp only [he, decide_true, Bool.not_true, Bool.false_eq_true, if_false, ih]
      by_cases hk' : k' = k
      · simp [hk']
      · simp [hk', Ne.symm hk']
    · simp only [he, decide_false, Bool.not_false, if_true, lookup_cons, ih]
      by_cases hk' : k' = k
      · simp [hk', he]
      · simp [hk']

/-! ## The number of entries -/

theorem length_eq_card (h : Uniq view l) {s : Finset κ}
    (hs : ∀ k, k ∈ s ↔ (lookup view l k).isSome) : l.length = s.card := by
  have hmem : (l.map fun e => view e.1).toFinset = s := by
    ext k
    rw [hs, lookup_isSome_iff, mem_toFinset, mem_map]
  rw [← hmem, toFinset_card_of_nodup h, length_map]

/-! ## Tables -/

structure KeyType (α κ : Type) where
  view : α → κ
  compare : α → α → Bool
  compare_iff : ∀ {a b}, compare a b = true ↔ view a = view b

/-- A table without two entries of the same key, the last one that was added first. -/
structure Table (t : KeyType α κ) (β : Type) where
  entries : List (α × β)
  uniq : Uniq t.view entries

namespace Table

variable {t : KeyType α κ} {d : Table t β} {key : α} {val : β}

def empty : Table t β := ⟨[], nodup_nil⟩

/-- The value of a key, by a search. -/
def find (d : Table t β) (key : α) : Option β :=
  (d.entries.find? fun e => t.compare e.1 key).map Prod.snd

omit [DecidableEq κ] in
theorem find_eq_none_iff : d.find key = none ↔ ∀ e ∈ d.entries, t.view e.1 ≠ t.view key := by
  simp [find, ← t.compare_iff]

/-- A new entry is added; `none` if there is one with this key. -/
def add (d : Table t β) (key : α) (val : β) : Option (Table t β) :=
  if h : (d.find key).isNone then
    some ⟨(key, val) :: d.entries, by
      rw [Option.isNone_iff_eq_none, find_eq_none_iff] at h
      rw [Uniq, map_cons, nodup_cons, mem_map]
      exact ⟨fun ⟨e, he, heq⟩ => h e he heq, d.uniq⟩⟩
  else none

/-- The value of a key is set; whether the entry is new. -/
def put (d : Table t β) (key : α) (val : β) : Table t β × Bool :=
  match d.add key val with
  | some d => (d, true)
  | none => (⟨replace t.view d.entries (t.view key) val, d.uniq.replace _ _⟩, false)

/-- The entry of a key is removed; `none` if there is none. -/
def delete (d : Table t β) (key : α) : Option (Table t β) :=
  if (d.find key).isNone then none
  else some ⟨erase t.view d.entries (t.view key), d.uniq.erase _⟩

def size (d : Table t β) : Nat := d.entries.length

/-- The table as a function. -/
def toFun (d : Table t β) (k : κ) : Option β := lookup t.view d.entries k

@[simp]
theorem toFun_empty (k : κ) : (empty : Table t β).toFun k = none := rfl

@[simp]
theorem find_eq (d : Table t β) (key : α) : d.find key = d.toFun (t.view key) := by
  rw [find, toFun, lookup]
  congr 2
  funext e
  rw [Bool.eq_iff_iff, t.compare_iff, decide_eq_true_eq]

theorem add_spec (key : α) (val : β) (h : d.toFun (t.view key) = none) :
    ∃ d', d.add key val = some d' ∧
      d'.toFun = update d.toFun (t.view key) (some val) := by
  rw [add, dif_pos (by rw [find_eq, h]; rfl)]
  exact ⟨_, rfl, lookup_add⟩

theorem add_eq_none (val : β) (h : (d.toFun (t.view key)).isSome) : d.add key val = none := by
  rw [add, dif_neg]
  rw [find_eq]
  simpa using Option.isSome_iff_ne_none.mp h

theorem put_spec (d : Table t β) (key : α) (val : β) :
    (d.put key val).1.toFun = update d.toFun (t.view key) (some val) ∧
      (d.put key val).2 = (d.toFun (t.view key)).isNone := by
  rw [put]
  cases h : d.toFun (t.view key) with
  | none =>
    obtain ⟨d', hadd, hfun⟩ := add_spec key val h
    rw [hadd]
    exact ⟨hfun, rfl⟩
  | some old =>
    rw [add_eq_none val (by rw [h]; rfl)]
    refine ⟨?_, rfl⟩
    have hreplace := lookup_replace t.view d.entries (t.view key) val
    rw [← toFun, h] at hreplace
    exact hreplace

theorem delete_spec (h : (d.toFun (t.view key)).isSome) :
    ∃ d', d.delete key = some d' ∧ d'.toFun = update d.toFun (t.view key) none := by
  rw [delete, if_neg]
  · exact ⟨_, rfl, lookup_erase _⟩
  · rw [find_eq]
    simpa using Option.isSome_iff_ne_none.mp h

theorem delete_eq_none (h : d.toFun (t.view key) = none) : d.delete key = none := by
  rw [delete, if_pos]
  rw [find_eq, h]
  rfl

end Table

end Redis.Keyed
