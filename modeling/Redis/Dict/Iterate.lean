import Redis.Dict.Iterator

/-!
# Redis.Dict.Iterate

What the caller of a safe iterator sees while it adds and deletes keys between
the calls of `dictNext`.  An operation leaves the entries ahead of the
iterator alone, except that a new key may come among them; so every key that
is there from the start is returned, and no key is returned again unless it
was added again.
-/

namespace Redis

open List Option

variable {K V : Type} {ty : DictType K}
variable {canResize ok : Bool} {val : V}

/-! ## Replacing one chain -/

section SetHt

variable {d : Dict K V} {t t' : TableId} {i j u : Nat} {c c' : List (DictEntry K V)}

theorem table_setHt_ne (h : ¬(t' = t ∧ j = i)) :
    ((d.setHt t' { d.ht t' with table := (d.ht t').table.set j c', used := u }).ht t).table[i]? =
      (d.ht t).table[i]? := by
  by_cases ht : t' = t
  · subst ht
    rw [Dict.ht_setHt]
    exact getElem?_set_ne fun hij => h ⟨rfl, hij⟩
  · cases t <;> cases t' <;> first | rfl | exact absurd rfl ht

theorem table_setHt_self (hc : (d.ht t).table[j]? = some c) :
    ((d.setHt t { d.ht t with table := (d.ht t).table.set j c', used := u }).ht t).table[j]? =
      some c' := by
  rw [Dict.ht_setHt]
  exact getElem?_set_self (List.getElem?_eq_some_iff.mp hc).1

theorem chainsFrom_setHt_passed (hj : j < i) :
    chainsFrom (d.setHt t { d.ht t with table := (d.ht t).table.set j c', used := u }) t i =
      chainsFrom d t i := by
  cases t <;> simp only [chainsFrom, Dict.setHt, Dict.ht, drop_set, hj, if_true]

variable (t i u c') in
/-- A chain is replaced where it stands, if it is ahead. -/
theorem chainsFrom_setHt (hc : (d.ht t').table[j]? = some c) :
    chainsFrom (d.setHt t' { d.ht t' with table := (d.ht t').table.set j c', used := u }) t i =
        chainsFrom d t i ∨
      ∃ k, (chainsFrom d t i)[k]? = some c ∧
        chainsFrom (d.setHt t' { d.ht t' with table := (d.ht t').table.set j c', used := u }) t i =
          (chainsFrom d t i).set k c' := by
  by_cases hj : t' = t ∧ j < i
  · obtain ⟨rfl, hj⟩ := hj
    exact .inl (chainsFrom_setHt_passed hj)
  · have hlt := (List.getElem?_eq_some_iff.mp hc).1
    cases t' with
    | ht0 =>
      change d.ht0.table[j]? = some c at hc
      change j < d.ht0.table.length at hlt
      cases t with
      | ht0 =>
        have hge : ¬j < i := fun h => hj ⟨rfl, h⟩
        have hk : j - i < (d.ht0.table.drop i).length := by
          rw [length_drop]
          omega
        refine .inr ⟨j - i, ?_, ?_⟩
        · rw [chainsFrom, getElem?_append_left hk, getElem?_drop,
            Nat.add_sub_cancel' (by omega), hc]
        · simp only [chainsFrom, Dict.setHt, Dict.ht, drop_set, if_neg hge]
          rw [set_append_left _ _ hk]
      | ht1 => exact .inl rfl
    | ht1 =>
      change d.ht1.table[j]? = some c at hc
      cases t with
      | ht0 =>
        refine .inr ⟨(d.ht0.table.drop i).length + j, ?_, ?_⟩
        · rw [chainsFrom, getElem?_append_right (by omega), Nat.add_sub_cancel_left, hc]
        · simp only [chainsFrom, Dict.setHt, Dict.ht]
          rw [set_append_right _ _ (by omega), Nat.add_sub_cancel_left]
      | ht1 =>
        have hge : ¬j < i := fun h => hj ⟨rfl, h⟩
        refine .inr ⟨j - i, ?_, ?_⟩
        · rw [chainsFrom, getElem?_drop, Nat.add_sub_cancel' (by omega), hc]
        · simp only [chainsFrom, Dict.setHt, Dict.ht, drop_set, if_neg hge]

end SetHt

/-! ## The position of the iterator -/

namespace Positioned

variable {d : Dict K V} {iter : DictIterator K} {ahead : List (DictEntry K V)}
  {t : TableId} {j u : Nat} {c : List (DictEntry K V)} {e : DictEntry K V}

theorem sublist (hpos : Positioned d iter ahead) : ahead.Sublist (dictEntries d) := by
  obtain ⟨i, seen, rest, -, hc, -, rfl⟩ := hpos.place
  refine Sublist.trans ?_ (entriesFrom_sublist d iter.table i)
  rw [entriesFrom_cons hc, append_assoc]
  exact sublist_append_right _ _

theorem size_ne (hpos : Positioned d iter ahead) (h : DictInv ty d) : d.ht0.size ≠ 0 := by
  obtain ⟨i, seen, rest, -, hc, -, -⟩ := hpos.place
  have hinv := h.ht_inv hc
  cases htable : iter.table with
  | ht0 =>
    rw [htable] at hinv
    exact hinv.ne_reset
  | ht1 => exact (h.busy (hpos.rehashing htable)).1.ne_reset

/-- A new entry at the head of a chain comes ahead, or it does not. -/
theorem insert (hpos : Positioned d iter ahead) (hc : (d.ht t).table[j]? = some c) :
    ∃ ahead', Positioned (d.setHt t { d.ht t with
        table := (d.ht t).table.set j (e :: c), used := u }) iter ahead' ∧
      (ahead' = ahead ∨ ahead'.Perm (e :: ahead)) := by
  obtain ⟨i, seen, rest, hi, hplace, hnext, rfl⟩ := hpos.place
  have hre : iter.table = .ht1 → (d.setHt t { d.ht t with
      table := (d.ht t).table.set j (e :: c), used := u }).rehashidx ≠ -1 := by
    rw [Dict.setHt_rehashidx]
    exact hpos.rehashing
  by_cases hsame : t = iter.table ∧ j = i
  · -- the new entry stands before those that were returned
    obtain ⟨rfl, rfl⟩ := hsame
    rw [hplace, Option.some.injEq] at hc
    refine ⟨_, ⟨hpos.entry, hre, j, e :: seen, rest, hi, ?_, hnext, rfl⟩, .inl ?_⟩
    · rw [table_setHt_self hplace, ← hc, cons_append]
    · rw [entriesFrom, chainsFrom_setHt_passed (Nat.lt_succ_self j)]
      rfl
  · refine ⟨_, ⟨hpos.entry, hre, i, seen, rest, hi, ?_, hnext, rfl⟩, ?_⟩
    · rw [table_setHt_ne hsame, hplace]
    · rcases chainsFrom_setHt iter.table (i + 1) u (e :: c) hc with
        hchains | ⟨k, hk, hchains⟩
      · left
        rw [entriesFrom, hchains]
        rfl
      · right
        rw [entriesFrom, hchains]
        exact ((Chains.flatten_set_cons_perm e hk).append_left rest).trans perm_middle

theorem erase {pos : Nat} (hpos : Positioned d iter ahead) (hc : (d.ht t).table[j]? = some c)
    (he : (c)[pos]? = some e) (hnot : e ∉ ahead) :
    Positioned (d.setHt t { d.ht t with
      table := (d.ht t).table.set j (c.eraseIdx pos), used := u }) iter ahead := by
  obtain ⟨i, seen, rest, hi, hplace, hnext, rfl⟩ := hpos.place
  have hre : iter.table = .ht1 → (d.setHt t { d.ht t with
      table := (d.ht t).table.set j (c.eraseIdx pos), used := u }).rehashidx ≠ -1 := by
    rw [Dict.setHt_rehashidx]
    exact hpos.rehashing
  have hmem := mem_of_getElem? he
  by_cases hsame : t = iter.table ∧ j = i
  · obtain ⟨rfl, rfl⟩ := hsame
    rw [hplace, Option.some.injEq] at hc
    subst hc
    have hlt : pos < seen.length := by
      by_contra hge
      rw [getElem?_append_right (by omega)] at he
      exact hnot (mem_append_left _ (mem_of_getElem? he))
    refine ⟨hpos.entry, hre, j, seen.eraseIdx pos, rest, hi, ?_, hnext, ?_⟩
    · rw [table_setHt_self hplace, eraseIdx_append_of_lt_length hlt]
    · rw [entriesFrom, entriesFrom, chainsFrom_setHt_passed (Nat.lt_succ_self j)]
  · refine ⟨hpos.entry, hre, i, seen, rest, hi, ?_, hnext, ?_⟩
    · rw [table_setHt_ne hsame, hplace]
    · rcases chainsFrom_setHt iter.table (i + 1) u (c.eraseIdx pos) hc with
        hchains | ⟨k, hk, -⟩
      · rw [entriesFrom, entriesFrom, hchains]
      · exact absurd (mem_append_right _ (Chains.mem_flatten_of_getElem? hk hmem)) hnot

theorem free {key : K} (hpos : Positioned d iter ahead)
    (hnot : ∀ f ∈ ahead, ty.keyCompare key f.key = false) :
    Positioned d (iter.free ty key) ahead := by
  obtain ⟨i, seen, rest, hi, hplace, hnext, rfl⟩ := hpos.place
  refine ⟨?_, hpos.rehashing, i, seen, rest, hi, hplace, ?_, rfl⟩
  · have hentry := hpos.entry
    simp only [DictIterator.free]
    cases hptr : iter.entry with
    | null => simp [hptr, EntryPtr.isNull] at hentry
    | node k =>
      simp only [EntryPtr.free]
      split <;> rfl
    | freed => rfl
  · simp only [DictIterator.free, hnext]
    cases rest with
    | nil => rfl
    | cons f rest => simp [chainPtr, EntryPtr.free, hnot f (by simp)]

theorem expand (hpos : Positioned d iter ahead) (h : DictInv ty d) :
    Positioned (dictExpandIfNeeded canResize d).1 iter ahead := by
  have hsize := hpos.size_ne h
  by_cases hidle : dictIsRehashing d = true
  · rw [dictExpandIfNeeded, if_pos hidle]
    exact hpos
  · have hre : d.rehashidx = -1 := dictIsRehashing_eq_false.mp (by simpa using hidle)
    rw [dictExpandIfNeeded, if_neg hidle, if_neg hsize]
    split
    · rcases dictExpand_cases d (d.ht0.used * 2) with ⟨he, -⟩ | ⟨-, -, -, x, hx, ⟨h0, -⟩ | ⟨-, he⟩⟩
      · rw [he]
        exact hpos
      · exact absurd h0 hsize
      · -- the iterator is in `ht[0]`, and the new table is empty
        obtain ⟨i, seen, rest, hi, hplace, hnext, rfl⟩ := hpos.place
        have htable : iter.table = .ht0 := by
          cases htable : iter.table with
          | ht0 => rfl
          | ht1 => exact absurd hre (hpos.rehashing htable)
        rw [htable] at hplace
        rw [he]
        refine ⟨hpos.entry, fun _ => by simp, i, seen, rest, hi, ?_, hnext, ?_⟩
        · rw [htable]
          exact hplace
        · simp [htable, entriesFrom, chainsFrom, hx, h.idle hre, dictReset]
    · exact hpos

end Positioned

/-! ## The operations between the calls -/

section Operations

variable {d d' : Dict K V} {iter : DictIterator K} {ahead : List (DictEntry K V)} {key : K}

/-- No rehash step is made while an iterator is in use. -/
theorem dictRehashStepIfNeeded_iterating (hit : d.iterators ≠ 0) :
    dictRehashStepIfNeeded ty d = some d := by
  rw [dictRehashStepIfNeeded, dictRehashStep, if_neg hit, ite_self]

theorem dictFind_iterating (h : DictInv ty d) (hf : DictFits d) (hit : d.iterators ≠ 0)
    (key : K) : ∃ res, dictFind ty d key = some (d, res) := by
  obtain ⟨d', res, hfind⟩ := dictFind_isSome key h hf
  have hsame := hfind
  rw [dictFind] at hsame
  split at hsame
  · obtain ⟨rfl, -⟩ := Prod.mk.inj (Option.some.inj hsame)
    exact ⟨res, hfind⟩
  · simp only [dictRehashStepIfNeeded_iterating hit, bind_eq_bind, bind_some,
      bind_eq_some_iff] at hsame
    obtain ⟨r, -, hr⟩ := hsame
    obtain ⟨rfl, -⟩ := Prod.mk.inj (Option.some.inj hr)
    exact ⟨res, hfind⟩

/-- What `dictAdd` does while an iterator is in use. -/
theorem dictAdd_iterating (h : DictInv ty d) (hg : GrowthBounded canResize d)
    (hit : d.iterators ≠ 0) (ha : dictAdd ty canResize d key val = some (d', ok)) :
    ∃ d₁, (dictExpandIfNeeded canResize d).1 = d₁ ∧ ((ok = false ∧ d' = d₁) ∨
      (ok = true ∧ ∃ t j c, (d₁.ht t).table[j]? = some c ∧ d' = d₁.setHt t { d₁.ht t with
        table := (d₁.ht t).table.set j (⟨key, val⟩ :: c), used := (d₁.ht t).used + 1 })) := by
  refine ⟨_, rfl, ?_⟩
  rw [dictAdd, bind_eq_some] at ha
  obtain ⟨⟨dr, entry⟩, hraw, ha⟩ := ha
  rw [dictAddRaw, dictRehashStepIfNeeded_iterating hit] at hraw
  simp only [bind_eq_bind, bind_some, bind_eq_some_iff] at hraw
  obtain ⟨⟨d₁, index⟩, hindex, hraw⟩ := hraw
  obtain ⟨rfl, -⟩ := dictKeyIndex_spec h hg hindex
  simp only at hraw
  split at hraw
  · obtain ⟨rfl, rfl⟩ := Prod.mk.inj (Option.some.inj hraw)
    obtain ⟨rfl, rfl⟩ := Prod.mk.inj (Option.some.inj ha)
    exact .inl ⟨rfl, rfl⟩
  · split at hraw
    · contradiction
    · rw [bind_eq_some_iff] at hraw
      obtain ⟨c, hc, hraw⟩ := hraw
      obtain ⟨rfl, rfl⟩ := Prod.mk.inj (Option.some.inj hraw)
      generalize (if dictIsRehashing (dictExpandIfNeeded canResize d).1 = true then TableId.ht1
        else TableId.ht0) = t at hc ha
      simp only [dictSetVal, Dict.ht_setHt,
        getElem?_set_self (List.getElem?_eq_some_iff.mp hc).1, some_bind, getElem?_cons_zero, set_cons_zero, set_set] at ha
      obtain ⟨rfl, rfl⟩ := Prod.mk.inj (Option.some.inj ha)
      exact .inr ⟨rfl, t, index.toNat, c, hc, by cases t <;> rfl⟩

theorem Positioned.dictAdd (hpos : Positioned d iter ahead) (h : DictInv ty d)
    (hg : GrowthBounded canResize d) (hit : d.iterators ≠ 0)
    (ha : Redis.dictAdd ty canResize d key val = some (d', ok)) :
    ∃ ahead', Positioned d' iter ahead' ∧ d'.iterators = d.iterators ∧
      (ahead' = ahead ∨ ok = true ∧ ahead'.Perm (⟨key, val⟩ :: ahead)) := by
  have hexpand : Positioned (dictExpandIfNeeded canResize d).1 iter ahead := hpos.expand h
  have hiterators : (dictExpandIfNeeded canResize d).1.iterators = d.iterators := by
    obtain ⟨d₁, he, hmoved, -⟩ := dictExpandIfNeeded_spec canResize h hg
    rw [he]
    exact hmoved.iterators
  obtain ⟨d₁, rfl, ⟨rfl, rfl⟩ | ⟨rfl, t, j, c, hc, rfl⟩⟩ := dictAdd_iterating h hg hit ha
  · exact ⟨ahead, hexpand, hiterators, .inl rfl⟩
  · obtain ⟨ahead', hpos', hahead⟩ := hexpand.insert hc
    exact ⟨ahead', hpos', (Dict.setHt_iterators _ _ _).trans hiterators,
      hahead.imp id fun hperm => ⟨rfl, hperm⟩⟩

/-- Deleting a key that is not ahead. -/
theorem Positioned.dictDelete (hpos : Positioned d iter ahead) (h : DictInv ty d)
    (hit : d.iterators ≠ 0) (hnot : ∀ f ∈ ahead, ty.keyCompare key f.key = false)
    (hd : Redis.dictDelete ty d key = some (d', ok)) :
    Positioned d' iter ahead ∧ d'.iterators = d.iterators := by
  rw [Redis.dictDelete, if_neg (hpos.size_ne h), dictRehashStepIfNeeded_iterating hit] at hd
  simp only [bind_eq_bind, bind_some, bind_eq_some_iff] at hd
  obtain ⟨res, hl, hd⟩ := hd
  have hfinds := dictLookup_spec h hl
  cases res with
  | none =>
    obtain ⟨rfl, -⟩ := Prod.mk.inj (Option.some.inj hd)
    exact ⟨hpos, rfl⟩
  | some r =>
    obtain ⟨e, hat, hmap⟩ := hfinds
    obtain ⟨c, hc, he⟩ := hat.chain
    have hkey := (dictMap_mem hmap).2
    simp only [dictUnlink, hc, some_bind] at hd
    obtain ⟨rfl, -⟩ := Prod.mk.inj (Option.some.inj hd)
    refine ⟨hpos.erase hc he fun hmem => ?_, Dict.setHt_iterators _ _ _⟩
    rw [hnot e hmem] at hkey
    contradiction

end Operations

/-! ## Runs -/

/-- What the caller of the iterator does. -/
inductive IterCall (K V : Type) where
  | next
  | find (key : K)
  | add (canResize : Bool) (key : K) (val : V)
  | delete (key : K)

/-- What came of it: `dictNext` returned an entry or `NULL`, or a key was added. -/
inductive IterEvent (K : Type) where
  | returned (key : K)
  | finished
  | added (key : K)
deriving DecidableEq, Repr

structure IterState (K V : Type) where
  dict : Dict K V
  iter : DictIterator K
  /-- The events so far, the last one first. -/
  past : List (IterEvent K)

def iterCall (ty : DictType K) (s : IterState K V) : IterCall K V → Option (IterState K V)
  | .next => do
    let (d, iter, r) ← dictNext ty s.dict s.iter
    match r with
    | .node key => return ⟨d, iter, .returned key :: s.past⟩
    | _ => return ⟨d, iter, .finished :: s.past⟩
  | .find key => do
    let (d, _) ← dictFind ty s.dict key
    return { s with dict := d }
  | .add canResize key val => do
    let (d, ok) ← dictAdd ty canResize s.dict key val
    return { s with dict := d, past := if ok then .added key :: s.past else s.past }
  | .delete key => do
    let (d, ok) ← dictDelete ty s.dict key
    return { s with dict := d, iter := if ok then s.iter.free ty key else s.iter }

namespace IterEvent

/-- The event is about the key. -/
def about (ty : DictType K) (key : K) : IterEvent K → Bool
  | returned k | added k => ty.keyCompare key k
  | finished => false

/-- The event is a return of the key. -/
def returns (ty : DictType K) (key : K) : IterEvent K → Bool
  | returned k => ty.keyCompare key k
  | _ => false

end IterEvent

/-- The key has been returned, and it has not been added again since. -/
def Done (ty : DictType K) (past : List (IterEvent K)) (key : K) : Prop :=
  ∃ k, past.find? (·.about ty key) = some (.returned k)

/-- The calls a caller may make.  The run starts with `dictNext` and ends when it returns
`NULL`; a key that is deleted has been returned, and since then it has not been added again. -/
def CallOk (ty : DictType K) (s : IterState K V) (c : IterCall K V) : Prop :=
  .finished ∉ s.past ∧
    match c with
    | .next => True
    | .find _ => s.past ≠ []
    | .add canResize key _ => s.past ≠ [] ∧ InsertFits ty canResize s.dict key
    | .delete key => s.past ≠ [] ∧ Done ty s.past key

def CallsOk (ty : DictType K) : IterState K V → List (IterCall K V) → Prop
  | _, [] => True
  | s, c :: calls => CallOk ty s c ∧ ∀ s', iterCall ty s c = some s' → CallsOk ty s' calls

/-- The key was there from the start, or it was added. -/
def Known (ty : DictType K) (d₀ : Dict K V) (past : List (IterEvent K)) (key : K) : Prop :=
  (∃ e ∈ dictEntries d₀, ty.keyCompare key e.key = true) ∨
    ∃ k, .added k ∈ past ∧ ty.keyCompare key k = true

def Returned (ty : DictType K) (past : List (IterEvent K)) (key : K) : Prop :=
  ∃ k, .returned k ∈ past ∧ ty.keyCompare key k = true

/-- Every key that is returned is known, and has not been returned since it was last added. -/
def Exact (ty : DictType K) (d₀ : Dict K V) : List (IterEvent K) → Prop
  | [] => True
  | .returned k :: past => ¬Done ty past k ∧ Known ty d₀ past k ∧ Exact ty d₀ past
  | _ :: past => Exact ty d₀ past

/-! ### Events -/

section Events

variable {d₀ : Dict K V} {past : List (IterEvent K)} {key k : K}

theorem keyCompare_congr (h : ty.keyCompare key k = true) (l : K) :
    ty.keyCompare key l = ty.keyCompare k l := by
  rw [Bool.eq_iff_iff]
  exact ⟨ty.keyCompare_trans _ _ _ (ty.keyCompare_symm _ _ h), ty.keyCompare_trans _ _ _ h⟩

theorem about_congr (h : ty.keyCompare key k = true) :
    IterEvent.about ty key = IterEvent.about ty k := by
  funext event
  cases event <;> simp only [IterEvent.about, keyCompare_congr h]

theorem done_congr (h : ty.keyCompare key k = true) : Done ty past key ↔ Done ty past k := by
  rw [Done, Done, about_congr h]

theorem not_done_returned (h : ¬Done ty past key) (hne : ty.keyCompare key k = false) :
    ¬Done ty (.returned k :: past) key := by
  rintro ⟨l, hl⟩
  rw [find?_cons_of_neg (by simpa [IterEvent.about] using hne)] at hl
  exact h ⟨l, hl⟩

theorem not_done_added (h : ¬Done ty past key) : ¬Done ty (.added k :: past) key := by
  rintro ⟨l, hl⟩
  cases hk : ty.keyCompare key k with
  | true =>
    rw [find?_cons_of_pos (by simpa [IterEvent.about] using hk)] at hl
    simp at hl
  | false =>
    rw [find?_cons_of_neg (by simpa [IterEvent.about] using hk)] at hl
    exact h ⟨l, hl⟩

theorem not_done_added_self : ¬Done ty (.added key :: past) key := by
  rintro ⟨l, hl⟩
  rw [find?_cons_of_pos (by simpa [IterEvent.about] using ty.keyCompare_refl key)] at hl
  simp at hl

theorem Known.mono (h : Known ty d₀ past key) (event : IterEvent K) :
    Known ty d₀ (event :: past) key :=
  h.imp id fun ⟨k, hk, heq⟩ => ⟨k, mem_cons_of_mem _ hk, heq⟩

theorem Returned.mono (h : Returned ty past key) (event : IterEvent K) :
    Returned ty (event :: past) key :=
  let ⟨k, hk, heq⟩ := h
  ⟨k, mem_cons_of_mem _ hk, heq⟩

theorem Exact.known (h : Exact ty d₀ past) (hk : .returned k ∈ past) : Known ty d₀ past k := by
  induction past with
  | nil => contradiction
  | cons event past ih =>
    rcases mem_cons.mp hk with rfl | hmem
    · exact h.2.1.mono _
    · cases event with
      | returned l => exact (ih h.2.2 hmem).mono _
      | _ => exact (ih h hmem).mono _

/-- Between two returns of a key it was added. -/
theorem Exact.added_between {newer mid older : List (IterEvent K)} {l : K}
    (h : Exact ty d₀ (newer ++ .returned k :: (mid ++ .returned l :: older)))
    (hkl : ty.keyCompare k l = true) :
    ∃ m, .added m ∈ mid ∧ ty.keyCompare k m = true := by
  induction newer with
  | cons event newer ih =>
    cases event with
    | returned m => exact ih h.2.2
    | _ => exact ih h
  | nil =>
    have hdone := h.1
    cases hfind : mid.find? (·.about ty k) with
    | none =>
      refine absurd ⟨l, ?_⟩ hdone
      rw [find?_append, hfind, none_or,
        find?_cons_of_pos (by simpa [IterEvent.about] using hkl)]
    | some event =>
      have habout := find?_some hfind
      have hmem := mem_of_find?_eq_some hfind
      cases event with
      | added m => exact ⟨m, hmem, habout⟩
      | finished => exact absurd habout (by simp [IterEvent.about])
      | returned m =>
        refine absurd ⟨m, ?_⟩ hdone
        rw [find?_append, hfind, some_or]

/-- A key that is not added is returned once at most. -/
theorem Exact.countP_le (h : Exact ty d₀ past)
    (hnot : ∀ k, .added k ∈ past → ty.keyCompare key k = false) :
    past.countP (·.returns ty key) ≤ 1 := by
  induction past with
  | nil => simp
  | cons event past ih =>
    have hnot' : ∀ k, .added k ∈ past → ty.keyCompare key k = false :=
      fun k hk => hnot k (mem_cons_of_mem _ hk)
    cases event with
    | finished => simpa [IterEvent.returns] using ih h hnot'
    | added k => simpa [IterEvent.returns] using ih h hnot'
    | returned k =>
      cases hk : ty.keyCompare key k with
      | false => simpa [IterEvent.returns, hk] using ih h.2.2 hnot'
      | true =>
        have hzero : past.countP (·.returns ty key) = 0 := by
          rw [countP_eq_zero]
          intro event hmem hreturns
          cases event with
          | added l => simp [IterEvent.returns] at hreturns
          | finished => simp [IterEvent.returns] at hreturns
          | returned l =>
            -- the last event about the key would be a return
            have hdone := (done_congr hk).not.mpr h.1
            cases hfind : past.find? (·.about ty key) with
            | none =>
              have hno := find?_eq_none.mp hfind _ hmem
              exact hno hreturns
            | some event =>
              have habout := find?_some hfind
              have hmem' := mem_of_find?_eq_some hfind
              cases event with
              | added m =>
                rw [IterEvent.about, hnot' m hmem'] at habout
                contradiction
              | finished => exact absurd habout (by simp [IterEvent.about])
              | returned m => exact hdone ⟨m, hfind⟩
        rw [countP_cons, hzero]
        split <;> omega

theorem Returned.countP_pos (h : Returned ty past key) : 0 < past.countP (·.returns ty key) := by
  obtain ⟨k, hk, heq⟩ := h
  exact countP_pos_iff.mpr ⟨_, hk, heq⟩

end Events

/-! ### The invariant -/

/-- Where a run is, with the entries that are ahead. -/
inductive Phase (d₀ : Dict K V) : IterState K V → List (DictEntry K V) → Prop where
  | start : Phase d₀ ⟨d₀, dictGetSafeIterator, []⟩ (dictEntries d₀)
  | going {s : IterState K V} {ahead : List (DictEntry K V)}
      (past : s.past ≠ [] ∧ .finished ∉ s.past) (position : Positioned s.dict s.iter ahead)
      (iterators : s.dict.iterators = d₀.iterators + 1) : Phase d₀ s ahead
  | ended {s : IterState K V} (past : .finished ∈ s.past) (index : 0 ≤ s.iter.index)
      (iterators : s.dict.iterators = d₀.iterators + 1) : Phase d₀ s []

/-- What is ahead is to be returned, and everything else from the start was. -/
structure Tour (ty : DictType K) (d₀ : Dict K V) (s : IterState K V)
    (ahead : List (DictEntry K V)) : Prop where
  inv : DictInv ty s.dict
  fits : DictFits s.dict
  phase : Phase d₀ s ahead
  todo : ∀ e ∈ ahead, ¬Done ty s.past e.key
  known : ∀ e ∈ ahead, Known ty d₀ s.past e.key
  covered : ∀ e ∈ dictEntries d₀, Returned ty s.past e.key ∨
    ∃ f ∈ ahead, ty.keyCompare e.key f.key = true
  exact : Exact ty d₀ s.past

section Step

variable {d₀ : Dict K V} {s : IterState K V} {ahead : List (DictEntry K V)} {key : K}

theorem tour_start {d : Dict K V} (h : DictInv ty d) (hf : DictFits d) :
    Tour ty d ⟨d, dictGetSafeIterator, []⟩ (dictEntries d) where
  inv := h
  fits := hf
  phase := .start
  todo := fun e _ => by rintro ⟨k, hk⟩; simp at hk
  known := fun e he => .inl ⟨e, he, ty.keyCompare_refl _⟩
  covered := fun e he => .inr ⟨e, he, ty.keyCompare_refl _⟩
  exact := trivial

theorem Tour.distinct (h : Tour ty d₀ s ahead) : DistinctKeys ty ahead := by
  cases h.phase with
  | start => exact h.inv.distinct
  | going _ hpos _ => exact h.inv.distinct.sublist hpos.sublist
  | ended => exact Pairwise.nil

theorem Tour.returns {d : Dict K V} {iter : DictIterator K} {r : EntryPtr K}
    (h : Tour ty d₀ s ahead) (hinv : DictInv ty d) (hf : DictFits d)
    (hit : d.iterators = d₀.iterators + 1) (hfin : .finished ∉ s.past)
    (hr : Returns d iter r ahead) :
    ∃ s' ahead', (match r with
        | .node key => some ⟨d, iter, .returned key :: s.past⟩
        | _ => some (⟨d, iter, .finished :: s.past⟩ : IterState K V)) = some s' ∧
      Tour ty d₀ s' ahead' := by
  cases ahead with
  | nil =>
    obtain ⟨rfl, hindex⟩ := hr
    refine ⟨_, [], rfl, hinv, hf, .ended (mem_cons_self ..) hindex hit, by simp, by simp, ?_,
      h.exact⟩
    intro e he
    exact (h.covered e he).imp (Returned.mono · _) fun ⟨f, hf, _⟩ => absurd hf (by simp)
  | cons e rest =>
    obtain ⟨rfl, hpos⟩ := hr
    have hdistinct := pairwise_cons.mp h.distinct
    refine ⟨_, rest, rfl, hinv, hf, .going ⟨by simp, by simpa using hfin⟩ hpos hit, ?_, ?_, ?_, ?_⟩
    · intro f hf
      refine not_done_returned (h.todo f (mem_cons_of_mem _ hf)) ?_
      rw [ty.keyCompare_comm]
      exact hdistinct.1 f hf
    · exact fun f hf => (h.known f (mem_cons_of_mem _ hf)).mono _
    · intro f hf
      rcases h.covered f hf with hreturned | ⟨g, hg, heq⟩
      · exact .inl (hreturned.mono _)
      · rcases mem_cons.mp hg with rfl | hg
        · exact .inl ⟨_, mem_cons_self .., heq⟩
        · exact .inr ⟨g, hg, heq⟩
    · exact ⟨h.todo e (mem_cons_self ..), h.known e (mem_cons_self ..), h.exact⟩

theorem Tour.next (h : Tour ty d₀ s ahead) (hfin : .finished ∉ s.past) :
    ∃ s' ahead', iterCall ty s .next = some s' ∧ Tour ty d₀ s' ahead' := by
  cases hphase : h.phase with
  | start =>
    obtain ⟨iter, r, hnext, hr⟩ := dictNext_first h.inv h.fits
    have hbump : DictInv ty { d₀ with iterators := d₀.iterators + 1 } :=
      ⟨h.inv.ht0, h.inv.idle, h.inv.busy, h.inv.nonneg, h.inv.passed, h.inv.distinct⟩
    obtain ⟨s', ahead', hs', htour⟩ := h.returns hbump h.fits rfl hfin hr
    refine ⟨s', ahead', ?_, htour⟩
    rw [iterCall, hnext, ← hs']
    cases r <;> rfl
  | going hpast hpos hit =>
    obtain ⟨iter, r, hnext, hr⟩ := hpos.dictNext h.inv h.fits
    obtain ⟨s', ahead', hs', htour⟩ := h.returns h.inv h.fits hit hfin hr
    refine ⟨s', ahead', ?_, htour⟩
    rw [iterCall, hnext, ← hs']
    cases r <;> rfl
  | ended hended => exact absurd hended hfin

/-- Between two calls of `dictNext` the iterator stands somewhere. -/
theorem Tour.going (h : Tour ty d₀ s ahead) (hfin : .finished ∉ s.past) (hpast : s.past ≠ []) :
    Positioned s.dict s.iter ahead ∧ s.dict.iterators = d₀.iterators + 1 := by
  cases h.phase with
  | start => exact absurd rfl hpast
  | going _ hpos hit => exact ⟨hpos, hit⟩
  | ended hended => exact absurd hended hfin

theorem Tour.add (h : Tour ty d₀ s ahead) (h₀ : 0 ≤ d₀.iterators) (hfin : .finished ∉ s.past)
    (hpast : s.past ≠ []) (hfits : InsertFits ty canResize s.dict key) :
    ∃ s' ahead', iterCall ty s (.add canResize key val) = some s' ∧ Tour ty d₀ s' ahead' := by
  obtain ⟨hpos, hit⟩ := h.going hfin hpast
  obtain ⟨d', ok, hadd, hf, -⟩ := dictAdd_total val h.inv h.fits hfits
  have hinv := (dictAdd_spec h.inv hfits.growthBounded hadd).1
  obtain ⟨ahead', hpos', hiterators, hahead⟩ :=
    hpos.dictAdd h.inv hfits.growthBounded (by omega) hadd
  have hcase : ∀ e ∈ ahead', e ∈ ahead ∨ ok = true ∧ e.key = key := by
    intro e he
    rcases hahead with rfl | ⟨hok, hperm⟩
    · exact .inl he
    · rcases mem_cons.mp (hperm.mem_iff.mp he) with rfl | hmem
      · exact .inr ⟨hok, rfl⟩
      · exact .inl hmem
  refine ⟨_, ahead', by rw [iterCall, hadd]; rfl, hinv, hf, ?_, ?_, ?_, ?_, ?_⟩
  · refine .going ?_ hpos' (hiterators.trans hit)
    simp only
    split
    · exact ⟨by simp, by simpa using hfin⟩
    · exact ⟨hpast, hfin⟩
  · -- a key that is added is to be returned
    intro e he
    rcases hcase e he with hmem | ⟨rfl, rfl⟩
    · simp only
      split
      · exact not_done_added (h.todo e hmem)
      · exact h.todo e hmem
    · exact not_done_added_self
  · intro e he
    rcases hcase e he with hmem | ⟨rfl, rfl⟩
    · simp only
      split
      · exact (h.known e hmem).mono _
      · exact h.known e hmem
    · exact .inr ⟨_, mem_cons_self .., ty.keyCompare_refl _⟩
  · intro e he
    refine (h.covered e he).imp ?_ ?_
    · intro hreturned
      simp only
      split
      · exact hreturned.mono _
      · exact hreturned
    · rintro ⟨f, hf, heq⟩
      refine ⟨f, ?_, heq⟩
      rcases hahead with rfl | ⟨-, hperm⟩
      · exact hf
      · exact hperm.mem_iff.mpr (mem_cons_of_mem _ hf)
  · simp only
    split
    · exact h.exact
    · exact h.exact

theorem Tour.delete (h : Tour ty d₀ s ahead) (h₀ : 0 ≤ d₀.iterators)
    (hfin : .finished ∉ s.past) (hpast : s.past ≠ []) (hdone : Done ty s.past key) :
    ∃ s', iterCall ty s (.delete key) = some s' ∧ Tour ty d₀ s' ahead := by
  obtain ⟨hpos, hit⟩ := h.going hfin hpast
  obtain ⟨d', ok, hdelete, hf⟩ := dictDelete_total key h.inv h.fits
  have hnot : ∀ f ∈ ahead, ty.keyCompare key f.key = false := by
    intro f hmem
    by_contra heq
    exact h.todo f hmem ((done_congr (by simpa using heq)).mp hdone)
  obtain ⟨hpos', hiterators⟩ := hpos.dictDelete h.inv (by omega) hnot hdelete
  refine ⟨⟨d', if ok then s.iter.free ty key else s.iter, s.past⟩,
    by rw [iterCall, hdelete]; rfl, (dictDelete_spec h.inv hdelete).1, hf,
    .going ⟨hpast, hfin⟩ ?_ (hiterators.trans hit), h.todo, h.known, h.covered, h.exact⟩
  simp only
  split
  · exact hpos'.free hnot
  · exact hpos'

/-- Every call returns, and keeps the invariant. -/
theorem Tour.call {c : IterCall K V} (h : Tour ty d₀ s ahead) (h₀ : 0 ≤ d₀.iterators)
    (hok : CallOk ty s c) :
    ∃ s' ahead', iterCall ty s c = some s' ∧ Tour ty d₀ s' ahead' := by
  obtain ⟨hfin, hok⟩ := hok
  cases c with
  | next => exact h.next hfin
  | find key =>
    obtain ⟨-, hit⟩ := h.going hfin hok
    obtain ⟨res, hfind⟩ := dictFind_iterating h.inv h.fits (by omega) key
    exact ⟨s, ahead, by rw [iterCall, hfind]; rfl, h⟩
  | add canResize key val => exact h.add h₀ hfin hok.1 hok.2
  | delete key =>
    obtain ⟨s', hs', h'⟩ := h.delete h₀ hfin hok.1 hok.2
    exact ⟨s', ahead, hs', h'⟩

theorem Tour.calls {calls : List (IterCall K V)} (h : Tour ty d₀ s ahead)
    (h₀ : 0 ≤ d₀.iterators) (hok : CallsOk ty s calls) :
    ∃ s' ahead', calls.foldlM (iterCall ty) s = some s' ∧ Tour ty d₀ s' ahead' := by
  induction calls generalizing s ahead with
  | nil => exact ⟨s, ahead, rfl, h⟩
  | cons c calls ih =>
    obtain ⟨s₁, ahead₁, hcall, h₁⟩ := h.call h₀ hok.1
    obtain ⟨s₂, ahead₂, hcalls, h₂⟩ := ih h₁ (hok.2 s₁ hcall)
    exact ⟨s₂, ahead₂, by rw [foldlM_cons, hcall]; exact hcalls, h₂⟩

theorem Tour.release (h : Tour ty d₀ s ahead) :
    (dictReleaseIterator s.dict s.iter).iterators = d₀.iterators := by
  cases h.phase with
  | start => rfl
  | going _ hpos hit =>
    obtain ⟨i, -, -, hi, -⟩ := hpos.place
    rw [dictReleaseIterator, if_neg (by omega)]
    simp only [hit]
    omega
  | ended _ hindex hit =>
    rw [dictReleaseIterator, if_neg (by omega)]
    simp only [hit]
    omega

end Step

/-! ## Safe iteration -/

/-- Whatever the caller finds, adds and deletes between the calls of `dictNext`: a key is not
returned again unless it was added in between, only keys from the start and added ones are
returned, and when `NULL` is returned every key from the start was, once if it was not added
again. -/
theorem dictNext_visits {d : Dict K V} (h : DictInv ty d) (hf : DictFits d)
    (h₀ : 0 ≤ d.iterators) (calls : List (IterCall K V))
    (hok : CallsOk ty ⟨d, dictGetSafeIterator, []⟩ calls) :
    ∃ s, calls.foldlM (iterCall ty) ⟨d, dictGetSafeIterator, []⟩ = some s ∧
      (∀ newer mid older k l, s.past = newer ++ .returned k :: (mid ++ .returned l :: older) →
        ty.keyCompare k l = true → ∃ m, .added m ∈ mid ∧ ty.keyCompare k m = true) ∧
      (∀ k, .returned k ∈ s.past → Known ty d s.past k) ∧
      (.finished ∈ s.past → ∀ e ∈ dictEntries d, Returned ty s.past e.key ∧
        ((∀ k, .added k ∈ s.past → ty.keyCompare e.key k = false) →
          s.past.countP (·.returns ty e.key) = 1)) ∧
      (dictReleaseIterator s.dict s.iter).iterators = d.iterators := by
  obtain ⟨s, ahead, hcalls, htour⟩ := (tour_start h hf).calls h₀ hok
  refine ⟨s, hcalls, ?_, fun k hk => htour.exact.known hk, ?_, htour.release⟩
  · intro newer mid older k l hpast hkl
    have hexact := htour.exact
    rw [hpast] at hexact
    exact hexact.added_between hkl
  · intro hfin e he
    have hreturned : Returned ty s.past e.key := by
      rcases htour.covered e he with hreturned | ⟨f, hf, -⟩
      · exact hreturned
      · cases htour.phase with
        | start => exact absurd hfin (by simp)
        | going hpast _ _ => exact absurd hfin hpast.2
        | ended => exact absurd hf (by simp)
    refine ⟨hreturned, fun hnot => ?_⟩
    have hle := htour.exact.countP_le hnot
    have hpos := hreturned.countP_pos
    omega

/-- The only key is returned and deleted, and a new one is returned after it. -/
def deletingCalls : List (IterCall Nat Nat) := [.next, .delete 1, .add true 2 20, .next, .next]

theorem dictNext_visits_deleting :
    ∃ s, deletingCalls.foldlM (iterCall natDictType) ⟨growingDict, dictGetSafeIterator, []⟩ =
        some s ∧ s.past = [.finished, .returned 2, .added 2, .returned 1] ∧
      s.past.countP (·.returns natDictType 1) = 1 := by
  have hok : CallsOk natDictType ⟨growingDict, dictGetSafeIterator, []⟩ deletingCalls := by
    refine ⟨⟨by simp, trivial⟩, fun s₁ h₁ => ?_⟩
    obtain rfl := Option.some.inj h₁
    refine ⟨⟨by simp, by simp, 1, by rfl⟩, fun s₂ h₂ => ?_⟩
    obtain rfl := Option.some.inj h₂
    refine ⟨⟨by simp, by simp, fun _ => by decide, .inr (.inl (by decide))⟩, fun s₃ h₃ => ?_⟩
    obtain rfl := Option.some.inj h₃
    refine ⟨⟨by simp, trivial⟩, fun s₄ h₄ => ?_⟩
    obtain rfl := Option.some.inj h₄
    exact ⟨⟨by simp, trivial⟩, fun _ _ => trivial⟩
  obtain ⟨s, hs, -, -, hall, -⟩ := dictNext_visits dictInv_growingDict
    (show DictFits growingDict from ⟨by decide, by decide⟩) (by decide) deletingCalls hok
  have hpast : s.past = [.finished, .returned 2, .added 2, .returned 1] := by
    obtain rfl := Option.some.inj hs
    rfl
  refine ⟨s, hs, hpast, (hall (by simp [hpast]) ⟨1, 10⟩ (by simp [growingDict, dictEntries])).2 ?_⟩
  rw [hpast]
  intro k hk
  obtain rfl : k = 2 := by simpa using hk
  rfl

/-- A key that is deleted and added again while the dict grows is returned again; and when it is
deleted once more before that, `dictNext` follows a pointer to a freed entry. -/
theorem dictNext_readded :
    (([.next, .delete 1, .add true 1 11, .next] : List (IterCall Nat Nat)).foldlM
        (iterCall natDictType) ⟨growingDict, dictGetSafeIterator, []⟩).map IterState.past =
      some [.returned 1, .added 1, .returned 1] ∧
    (([.next, .delete 1, .add true 1 11, .add true 9 90, .next, .delete 1, .next] :
        List (IterCall Nat Nat)).foldlM (iterCall natDictType)
        ⟨growingDict, dictGetSafeIterator, []⟩).isNone = true :=
  ⟨rfl, rfl⟩

end Redis
