import Redis.Dict.Rehash

/-!
# Redis.Dict.Refine

The dict as a finite map: the operations of `Redis.Dict` return what the same
operations return on an abstract map from keys to entries, whatever the phase
of the rehash.

The abstract map `EntryMap` is taken modulo the key equality of the dict and
remembers the stored key, which a replacement keeps.  Operations that only
concern the layout of the tables (`dictExpand`, `dictResize`, `dictRehash`,
opening and closing a safe iterator) do not exist there: they must leave the
map as it is.

`_dictKeyIndex` returns a bucket index as an `int`, so an insertion is only
right while that index fits (`InsertFits`).
-/

namespace Redis

open scoped List

variable {K V : Type} {ty : DictType K}
variable {d d' : Dict K V} {key : K} {e : DictEntry K V} {r : DictEntryRef}
  {res : Option DictEntryRef} {canResize ok : Bool}

/-! ## The operations of a run -/

inductive DictOp (K V : Type) where
  | add (key : K) (val : V)
  | replace (key : K) (val : V)
  | replaceRaw (key : K) (junk : V)
  | delete (key : K)
  | find (key : K)
  | fetchValue (key : K)
  | expand (size : Nat)
  | resize
  | rehash (n : Nat)
  | iterOpen
  | iterClose
deriving DecidableEq, Repr

inductive DictReply (K V : Type) where
  /-- `DICT_OK` / `DICT_ERR`, or the 1 / 0 of `dictReplace`. -/
  | status (ok : Bool)
  /-- The entry behind a returned `dictEntry *`. -/
  | entry (e : Option (DictEntry K V))
  | value (v : Option V)
  /-- The return code of an operation on the layout. -/
  | layout (code : Bool)
deriving DecidableEq, Repr

/-- The entry a returned pointer denotes. -/
def dictDeref (d : Dict K V) : Option DictEntryRef → Option (DictReply K V)
  | none => some (.entry none)
  | some r => (dictEntryAt d r).map fun e => .entry (some e)

/-- One operation; `canResize` is the value of `dict_can_resize` at that
moment.  A safe iterator counts in `iterators` from its first `dictNext` to
its release. -/
def dictStep (ty : DictType K) (canResize : Bool) (d : Dict K V) :
    DictOp K V → Option (Dict K V × DictReply K V)
  | .add key val => (dictAdd ty canResize d key val).map fun (d, ok) => (d, .status ok)
  | .replace key val => (dictReplace ty canResize d key val).map fun (d, ok) => (d, .status ok)
  | .replaceRaw key junk => do
    let (d, r) ← dictReplaceRaw ty canResize d key junk
    let reply ← dictDeref d r
    return (d, reply)
  | .delete key => (dictDelete ty d key).map fun (d, ok) => (d, .status ok)
  | .find key => do
    let (d, r) ← dictFind ty d key
    let reply ← dictDeref d r
    return (d, reply)
  | .fetchValue key => (dictFetchValue ty d key).map fun (d, v) => (d, .value v)
  | .expand size => let (d, ok) := dictExpand d size; some (d, .layout ok)
  | .resize => let (d, ok) := dictResize canResize d; some (d, .layout ok)
  | .rehash n => (dictRehash ty d n).map fun (d, more) => (d, .layout more)
  | .iterOpen => some ({ d with iterators := d.iterators + 1 }, .layout true)
  | .iterClose => some ({ d with iterators := d.iterators - 1 }, .layout true)

/-- A run: every operation with the value of `dict_can_resize` it sees. -/
def dictRun (ty : DictType K) : Dict K V → List (Bool × DictOp K V) →
    Option (Dict K V × List (DictReply K V))
  | d, [] => some (d, [])
  | d, (canResize, op) :: ops => do
    let (d, reply) ← dictStep ty canResize d op
    let (d, replies) ← dictRun ty d ops
    return (d, reply :: replies)

/-! ## The abstract map -/

/-- A map from keys to the entry stored for them. -/
abbrev EntryMap (K V : Type) := K → Option (DictEntry K V)

namespace EntryMap

def empty : EntryMap K V := fun _ => none

/-- Store `e` under its key. -/
def insert (ty : DictType K) (m : EntryMap K V) (e : DictEntry K V) : EntryMap K V :=
  fun l => if ty.keyCompare l e.key then some e else m l

def erase (ty : DictType K) (m : EntryMap K V) (key : K) : EntryMap K V :=
  fun l => if ty.keyCompare l key then none else m l

/-- The abstract operations.  Those on the layout are no operations of a map:
they change nothing and have no abstract reply. -/
def step (ty : DictType K) (m : EntryMap K V) : DictOp K V → EntryMap K V × Option (DictReply K V)
  | .add key val =>
    match m key with
    | none => (m.insert ty ⟨key, val⟩, some (.status true))
    | some _ => (m, some (.status false))
  | .replace key val =>
    match m key with
    | none => (m.insert ty ⟨key, val⟩, some (.status true))
    | some e => (m.insert ty { e with v := val }, some (.status false))
  | .replaceRaw key junk =>
    match m key with
    | none => (m.insert ty ⟨key, junk⟩, some (.entry (some ⟨key, junk⟩)))
    | some e => (m, some (.entry (some e)))
  | .delete key =>
    match m key with
    | none => (m, some (.status false))
    | some _ => (m.erase ty key, some (.status true))
  | .find key => (m, some (.entry (m key)))
  | .fetchValue key => (m, some (.value ((m key).map (·.v))))
  | .expand _ | .resize | .rehash _ | .iterOpen | .iterClose => (m, none)

def run (ty : DictType K) : EntryMap K V → List (DictOp K V) →
    EntryMap K V × List (Option (DictReply K V))
  | m, [] => (m, [])
  | m, op :: ops =>
    let (m, reply) := step ty m op
    let (m, replies) := run ty m ops
    (m, reply :: replies)

end EntryMap

/-- The map a dict represents. -/
def dictMap (ty : DictType K) (d : Dict K V) : EntryMap K V :=
  fun key => (dictEntries d).find? fun e => ty.keyCompare key e.key

/-! ## Reading the map off the entries -/

theorem find?_entries_of_perm {l l' : List (DictEntry K V)} (hd : DistinctKeys ty l)
    (hp : l'.Perm l) (key : K) :
    l'.find? (fun e => ty.keyCompare key e.key) = l.find? (fun e => ty.keyCompare key e.key) := by
  refine Chains.find?_eq_of_perm hp ?_
  intro a ha b hb hka hkb
  refine hd.eq_of_keyCompare (hp.mem_iff.mp ha) (hp.mem_iff.mp hb) ?_
  exact ty.keyCompare_trans _ key _ (ty.keyCompare_symm _ _ hka) hkb

theorem dictMap_of_perm (h : DictInv ty d) (hp : (dictEntries d').Perm (dictEntries d)) :
    dictMap ty d' = dictMap ty d := by
  funext key
  exact find?_entries_of_perm h.distinct hp key

theorem DictMoved.map (hm : DictMoved ty d d') (h : DictInv ty d) : dictMap ty d' = dictMap ty d :=
  dictMap_of_perm h hm.perm

theorem dictMap_eq_none :
    dictMap ty d key = none ↔ ∀ e ∈ dictEntries d, ty.keyCompare key e.key = false := by
  simp [dictMap, List.find?_eq_none]

theorem dictMap_mem (h : dictMap ty d key = some e) :
    e ∈ dictEntries d ∧ ty.keyCompare key e.key = true := by
  unfold dictMap at h
  have hk := List.find?_some h
  exact ⟨List.mem_of_find?_eq_some h, by simpa using hk⟩

theorem dictMap_eq_some (h : DictInv ty d) (he : e ∈ dictEntries d)
    (hk : ty.keyCompare key e.key = true) : dictMap ty d key = some e := by
  cases hf : dictMap ty d key with
  | none =>
    rw [dictMap_eq_none] at hf
    rw [hf e he] at hk
    contradiction
  | some f =>
    obtain ⟨hfm, hfk⟩ := dictMap_mem hf
    rw [h.distinct.eq_of_keyCompare hfm he
      (ty.keyCompare_trans _ key _ (ty.keyCompare_symm _ _ hfk) hk)]

variable {c rest : List (DictEntry K V)} (junk val : V)

/-- One more entry is one more binding. -/
theorem dictMap_insert (h' : DictInv ty d') (hp' : (dictEntries d').Perm (e :: rest)) (key : K) :
    dictMap ty d' key =
      if ty.keyCompare key e.key then some e
      else rest.find? fun e => ty.keyCompare key e.key := by
  have hcons := find?_entries_of_perm (h'.distinct.perm hp') hp' key
  rw [dictMap, hcons, List.find?_cons]
  cases ty.keyCompare key e.key <;> rfl

/-- Dropping an entry drops the binding of its key and no other. -/
theorem find?_rest_eq_erase (h : DictInv ty d) (hp : (dictEntries d).Perm (e :: rest)) (key : K) :
    rest.find? (fun e => ty.keyCompare key e.key) =
      if ty.keyCompare key e.key then none else dictMap ty d key := by
  have hd := h.distinct.perm hp
  have hrest : ∀ f ∈ rest, ty.keyCompare e.key f.key = false := (List.pairwise_cons.mp hd).1
  cases hk : ty.keyCompare key e.key with
  | false =>
    rw [dictMap_insert h hp key, hk]
    rfl
  | true =>
    rw [if_pos rfl, List.find?_eq_none]
    intro f hf
    cases hkf : ty.keyCompare key f.key with
    | false => simp
    | true =>
      have := ty.keyCompare_trans _ key _ (ty.keyCompare_symm _ _ hk) hkf
      rw [hrest f hf] at this
      contradiction

/-! ## Searching -/

/-- A pointer to a live entry. -/
structure EntryAt (ty : DictType K) (d : Dict K V) (r : DictEntryRef) (e : DictEntry K V) :
    Prop where
  inv : HtInv ty (d.ht r.table)
  chain : ∃ l, (d.ht r.table).table[r.idx]? = some l ∧ l[r.pos]? = some e

theorem EntryAt.mem (h : EntryAt ty d r e) : e ∈ dictEntries d := by
  obtain ⟨c, hc, he⟩ := h.chain
  have hmem := Chains.mem_flatten_of_getElem? hc (List.mem_of_getElem? he)
  obtain ⟨t, idx, pos⟩ := r
  cases t with
  | ht0 => exact List.mem_append_left _ hmem
  | ht1 => exact List.mem_append_right _ hmem

theorem EntryAt.deref (h : EntryAt ty d r e) : dictEntryAt d r = some e := by
  obtain ⟨c, hc, he⟩ := h.chain
  rw [dictEntryAt, Option.bind_eq_bind, hc]
  exact he

/-- What a search for `key` in `d` may return when the map is `m`. -/
def Finds (ty : DictType K) (d : Dict K V) (m : EntryMap K V) (key : K) : Option DictEntryRef → Prop
  | some r => ∃ e, EntryAt ty d r e ∧ m key = some e
  | none => m key = none

theorem dictLookup_spec (h : DictInv ty d) (hl : dictLookup ty d key = some res) :
    Finds ty d (dictMap ty d) key res := by
  rw [dictLookup, Option.bind_eq_bind, Option.bind_eq_some_iff] at hl
  obtain ⟨c0, hc0, hl⟩ := hl
  have hi0 : HtInv ty d.ht0 := by
    refine h.ht0_inv_of_size ?_
    intro h0
    rw [h.ht0_reset_of_size h0] at hc0
    simp [dictReset] at hc0
  cases hf0 : dictFindInChain ty key c0 with
  | some pos =>
    simp only [hf0, Option.pure_def, Option.some.injEq] at hl
    subst hl
    obtain ⟨e, he, hk⟩ := dictFindInChain_some hf0
    have hat : EntryAt ty d ⟨.ht0, _, pos⟩ e := ⟨hi0, c0, hc0, he⟩
    exact ⟨e, hat, dictMap_eq_some h hat.mem hk⟩
  | none =>
    have hnot0 := hi0.not_mem_of_chain hc0 hf0
    cases hre : dictIsRehashing d with
    | false =>
      simp only [hf0, hre, Bool.not_false, if_true, Option.pure_def, Option.some.injEq] at hl
      subst hl
      refine dictMap_eq_none.mpr ?_
      rw [dictEntries, h.idle (dictIsRehashing_eq_false.mp hre)]
      simpa [dictReset] using hnot0
    | true =>
      have hi1 := (h.busy (dictIsRehashing_eq_true.mp hre)).2
      simp only [hf0, hre, Bool.not_true, Bool.false_eq_true, if_false,
        Option.bind_eq_some_iff] at hl
      obtain ⟨c1, hc1, hl⟩ := hl
      obtain rfl := Option.some.inj hl
      cases hf1 : dictFindInChain ty key c1 with
      | some pos =>
        obtain ⟨e, he, hk⟩ := dictFindInChain_some hf1
        have hat : EntryAt ty d ⟨.ht1, _, pos⟩ e := ⟨hi1, c1, hc1, he⟩
        exact ⟨e, hat, dictMap_eq_some h hat.mem hk⟩
      | none =>
        have hnot1 := hi1.not_mem_of_chain hc1 hf1
        refine dictMap_eq_none.mpr ?_
        intro e he
        rcases List.mem_append.mp he with he | he
        · exact hnot0 e he
        · exact hnot1 e he

theorem dictLookup_isSome (key : K) (h : DictInv ty d) (hf : DictFits d) (h0 : d.ht0.size ≠ 0) :
    ∃ res, dictLookup ty d key = some res := by
  obtain ⟨c0, hc0⟩ := (h.ht0_inv_of_size h0).getElem?_and_mask hf.1 (dictHashKey ty key)
  rw [dictLookup, Option.bind_eq_bind, hc0, Option.bind_some]
  cases dictFindInChain ty key c0 with
  | some pos => exact ⟨_, rfl⟩
  | none =>
    cases hre : dictIsRehashing d with
    | false => exact ⟨_, rfl⟩
    | true =>
      have hi1 := (h.busy (dictIsRehashing_eq_true.mp hre)).2
      obtain ⟨c1, hc1⟩ := hi1.getElem?_and_mask hf.2 (dictHashKey ty key)
      simp only [Bool.not_true, Bool.false_eq_true, if_false, hc1, Option.bind_some]
      exact ⟨_, rfl⟩

theorem dictEntries_of_size_zero (h : DictInv ty d) (h0 : d.ht0.size = 0) : dictEntries d = [] := by
  have hre : d.rehashidx = -1 := by
    by_contra hne
    exact (h.busy hne).1.ne_reset h0
  rw [dictEntries, h.ht0_reset_of_size h0, h.idle hre]
  simp [dictReset]

theorem dictMap_of_size_zero (h : DictInv ty d) (h0 : d.ht0.size = 0) (key : K) :
    dictMap ty d key = none := by
  rw [dictMap, dictEntries_of_size_zero h h0]
  rfl

theorem dictFind_spec (h : DictInv ty d) (hf : dictFind ty d key = some (d', res)) :
    DictRehashed ty d d' ∧ Finds ty d' (dictMap ty d) key res := by
  rw [dictFind] at hf
  split at hf
  · next h0 =>
      obtain ⟨rfl, rfl⟩ := Prod.mk.inj (Option.some.inj hf)
      exact ⟨DictRehashed.refl h, dictMap_of_size_zero h h0 key⟩
  · simp only [bind_eq_some, Option.pure_def, Option.some.injEq, Prod.mk.injEq] at hf
    obtain ⟨dm, hstep, r, hl, rfl, rfl⟩ := hf
    have hm := dictRehashStepIfNeeded_spec h hstep
    refine ⟨hm, ?_⟩
    rw [← hm.map h]
    exact dictLookup_spec hm.inv hl

theorem dictFind_isSome (key : K) (h : DictInv ty d) (hf : DictFits d) :
    ∃ d' res, dictFind ty d key = some (d', res) := by
  rw [dictFind]
  split
  · exact ⟨d, none, rfl⟩
  · next h0 =>
      obtain ⟨dm, hstep⟩ := dictRehashStepIfNeeded_isSome h hf
      have hm := dictRehashStepIfNeeded_spec h hstep
      obtain ⟨r, hl⟩ := dictLookup_isSome key hm.inv (hm.fits hf) (hm.nonnull h0)
      exact ⟨dm, r, by simp [hstep, hl]⟩

/-! ## Overwriting a value and unlinking an entry -/

theorem dictEntries_setHt_perm (d : Dict K V) (t : TableId) (ht' : Dictht K V)
    (xs ys : List (DictEntry K V))
    (h : (xs ++ ht'.table.flatten).Perm (ys ++ (d.ht t).table.flatten)) :
    (xs ++ dictEntries (d.setHt t ht')).Perm (ys ++ dictEntries d) := by
  cases t with
  | ht0 =>
    change (xs ++ (ht'.table.flatten ++ d.ht1.table.flatten)).Perm
      (ys ++ (d.ht0.table.flatten ++ d.ht1.table.flatten))
    rw [← List.append_assoc, ← List.append_assoc]
    exact h.append_right _
  | ht1 =>
    change (xs ++ (d.ht0.table.flatten ++ ht'.table.flatten)).Perm
      (ys ++ (d.ht0.table.flatten ++ d.ht1.table.flatten))
    calc xs ++ (d.ht0.table.flatten ++ ht'.table.flatten)
        _ ~ d.ht0.table.flatten ++ (xs ++ ht'.table.flatten) := by
          rw [← List.append_assoc, ← List.append_assoc]
          exact List.perm_append_comm.append_right _
        _ ~ d.ht0.table.flatten ++ (ys ++ d.ht1.table.flatten) := h.append_left _
        _ ~ ys ++ (d.ht0.table.flatten ++ d.ht1.table.flatten) := by
          rw [← List.append_assoc, ← List.append_assoc]
          exact List.perm_append_comm.append_right _

/-- Replacing a chain by entries of its bucket keeps the invariant, provided
no chain that a rehash has passed is filled again. -/
theorem DictInv.setHt {t : TableId} {i used' : Nat} (h : DictInv ty d) (c' : List (DictEntry K V))
    (hi : HtInv ty (d.ht t)) (hc : (d.ht t).table[i]? = some c)
    (hplaced : ∀ e ∈ c', dictHashKey ty e.key &&& (d.ht t).sizemask = i)
    (hused : used' + c.length = (d.ht t).used + c'.length)
    (hfill : t = .ht0 → c = [] → c' = [] ∨ d.rehashidx = -1)
    (hd : DistinctKeys ty (dictEntries (d.setHt t { d.ht t with
      table := (d.ht t).table.set i c', used := used' }))) :
    DictInv ty (d.setHt t { d.ht t with table := (d.ht t).table.set i c', used := used' }) := by
  have hi' := hi.replace hc hplaced hused
  have hlt : i < (d.ht t).table.length := (List.getElem?_eq_some_iff.mp hc).1
  cases t with
  | ht0 =>
    exact {
      ht0 := Or.inr hi'
      idle := h.idle
      busy := fun hb => ⟨hi', (h.busy hb).2⟩
      nonneg := h.nonneg
      passed := by
        intro hb j hj x hx
        change ((d.ht .ht0).table.set i c')[j]? = some x at hx
        by_cases hij : i = j
        · subst hij
          have hnil : c = [] := h.passed hb i hj c hc
          rw [List.getElem?_set_self hlt, Option.some.injEq] at hx
          rcases hfill rfl hnil with hn | hn
          · rw [← hx, hn]
          · exact absurd hn hb
        · rw [List.getElem?_set_ne hij] at hx
          exact h.passed hb j hj x hx
      distinct := hd }
  | ht1 =>
    have hb : d.rehashidx ≠ -1 := by
      intro hn
      rw [show d.ht .ht1 = d.ht1 from rfl, h.idle hn] at hi
      exact hi.ne_reset rfl
    exact {
      ht0 := h.ht0
      idle := fun hn => absurd hn hb
      busy := fun _ => ⟨(h.busy hb).1, hi'⟩
      nonneg := h.nonneg
      passed := h.passed
      distinct := hd }

@[simp] theorem Dict.ht_setHt (d : Dict K V) (t : TableId) (x : Dictht K V) :
    (d.setHt t x).ht t = x := by
  cases t <;> rfl

@[simp] theorem Dict.setHt_iterators (d : Dict K V) (t : TableId) (x : Dictht K V) :
    (d.setHt t x).iterators = d.iterators := by
  cases t <;> rfl

@[simp] theorem Dict.setHt_rehashidx (d : Dict K V) (t : TableId) (x : Dictht K V) :
    (d.setHt t x).rehashidx = d.rehashidx := by
  cases t <;> rfl

/-- A table update that keeps the size keeps the sizes of the dict. -/
theorem DictFits.setHt {t : TableId} {x : Dictht K V} (h : DictFits d)
    (hx : x.size = (d.ht t).size) : DictFits (d.setHt t x) := by
  cases t with
  | ht0 => exact ⟨by rw [show (d.setHt .ht0 x).ht0 = x from rfl, hx]; exact h.1, h.2⟩
  | ht1 => exact ⟨h.1, by rw [show (d.setHt .ht1 x).ht1 = x from rfl, hx]; exact h.2⟩

/-- Overwriting the value of an entry keeps its key and everything else. -/
theorem dictSetVal_spec (h : DictInv ty d) (hat : EntryAt ty d r e) :
    ∃ d', dictSetVal d r val = some d' ∧ DictInv ty d' ∧ EntryAt ty d' r { e with v := val } ∧
      (e :: dictEntries d').Perm ({ e with v := val } :: dictEntries d) ∧
      d'.iterators = d.iterators ∧ (DictFits d → DictFits d') := by
  obtain ⟨c, hc, he⟩ := hat.chain
  have hlt : r.pos < c.length := (List.getElem?_eq_some_iff.mp he).1
  have hlti : r.idx < (d.ht r.table).table.length := (List.getElem?_eq_some_iff.mp hc).1
  have hplaced : ∀ x ∈ c.set r.pos { e with v := val },
      dictHashKey ty x.key &&& (d.ht r.table).sizemask = r.idx := by
    intro x hx
    rcases List.mem_or_eq_of_mem_set hx with hx | rfl
    · exact hat.inv.placed _ c hc x hx
    · exact hat.inv.placed _ c hc e (List.mem_of_getElem? he)
  have hperm := Chains.flatten_set_set_perm { e with v := val } hc he
  have hentries := dictEntries_setHt_perm d r.table { d.ht r.table with
      table := (d.ht r.table).table.set r.idx (c.set r.pos { e with v := val }) }
    [e] [{ e with v := val }] hperm
  have hdist : DistinctKeys ty (dictEntries (d.setHt r.table { d.ht r.table with
      table := (d.ht r.table).table.set r.idx (c.set r.pos { e with v := val }) })) := by
    -- compare through the entries with `e` taken out
    obtain ⟨rest, hrest⟩ : ∃ rest, (dictEntries d).Perm (e :: rest) := by
      obtain ⟨s, t, hst⟩ := List.append_of_mem hat.mem
      exact ⟨s ++ t, by rw [hst]; exact List.perm_middle⟩
    have hnew : (dictEntries (d.setHt r.table { d.ht r.table with
        table := (d.ht r.table).table.set r.idx (c.set r.pos { e with v := val }) })).Perm
        ({ e with v := val } :: rest) := by
      refine List.Perm.cons_inv (a := e) ?_
      refine hentries.trans ?_
      exact (hrest.cons _).trans (List.Perm.swap _ _ _)
    refine DistinctKeys.perm ?_ hnew.symm
    have hd := List.pairwise_cons.mp (h.distinct.perm hrest)
    exact List.pairwise_cons.mpr ⟨hd.1, hd.2⟩
  refine ⟨_, ?_, ?_, ?_, hentries, ?_, ?_⟩
  · rw [dictSetVal, Option.bind_eq_bind, hc, Option.bind_some, he]
    rfl
  · refine h.setHt _ hat.inv hc hplaced (by rw [List.length_set]) ?_ hdist
    intro _ hnil
    rw [hnil] at hlt
    exact absurd hlt (Nat.not_lt_zero _)
  · refine ⟨?_, c.set r.pos { e with v := val }, ?_, List.getElem?_set_self hlt⟩
    · rw [Dict.ht_setHt]
      exact hat.inv.replace hc hplaced (by rw [List.length_set])
    · rw [Dict.ht_setHt]
      exact List.getElem?_set_self hlti
  · rw [Dict.setHt_iterators]
  · intro hf
    exact hf.setHt rfl

theorem dictMap_setVal (h : DictInv ty d) (h' : DictInv ty d') (he : e ∈ dictEntries d)
    (hp : (e :: dictEntries d').Perm ({ e with v := val } :: dictEntries d)) :
    dictMap ty d' = (dictMap ty d).insert ty { e with v := val } := by
  obtain ⟨s, t, hst⟩ := List.append_of_mem he
  have hrest : (dictEntries d).Perm (e :: (s ++ t)) := by rw [hst]; exact List.perm_middle
  have hnew : (dictEntries d').Perm ({ e with v := val } :: (s ++ t)) := by
    refine List.Perm.cons_inv (a := e) (hp.trans ?_)
    exact (hrest.cons _).trans (List.Perm.swap _ _ _)
  funext key
  rw [dictMap_insert h' hnew key, find?_rest_eq_erase h hrest key, EntryMap.insert]
  cases ty.keyCompare key e.key <;> rfl

/-- Unlinking removes exactly the entry pointed to. -/
theorem dictUnlink_spec (h : DictInv ty d) (hat : EntryAt ty d r e) :
    ∃ d', dictUnlink d r = some d' ∧ DictInv ty d' ∧
      (dictEntries d).Perm (e :: dictEntries d') ∧
      d'.iterators = d.iterators ∧ (DictFits d → DictFits d') := by
  obtain ⟨c, hc, he⟩ := hat.chain
  have hlt : r.pos < c.length := (List.getElem?_eq_some_iff.mp he).1
  have hperm := Chains.flatten_set_eraseIdx_perm hc he
  have hentries := dictEntries_setHt_perm d r.table { d.ht r.table with
      table := (d.ht r.table).table.set r.idx (c.eraseIdx r.pos), used := (d.ht r.table).used - 1 }
    [e] [] hperm
  rw [List.nil_append, List.singleton_append] at hentries
  have hused : 0 < (d.ht r.table).used := by
    rw [hat.inv.used]
    exact List.length_pos_of_mem (Chains.mem_flatten_of_getElem? hc (List.mem_of_getElem? he))
  refine ⟨_, ?_, ?_, hentries.symm, ?_, ?_⟩
  · rw [dictUnlink, Option.bind_eq_bind, hc]
    rfl
  · refine h.setHt _ hat.inv hc ?_ ?_ ?_ ?_
    · intro x hx
      exact hat.inv.placed _ c hc x (List.mem_of_mem_eraseIdx hx)
    · rw [List.length_eraseIdx_of_lt hlt]; omega
    · intro _ hnil
      rw [hnil] at hlt
      exact absurd hlt (Nat.not_lt_zero _)
    · exact (List.pairwise_cons.mp (h.distinct.perm hentries.symm)).2
  · rw [Dict.setHt_iterators]
  · intro hf
    exact hf.setHt rfl

theorem dictMap_unlink (h : DictInv ty d) (hp : (dictEntries d).Perm (e :: dictEntries d'))
    (hk : ty.keyCompare key e.key = true) : dictMap ty d' = (dictMap ty d).erase ty key := by
  funext l
  rw [dictMap, find?_rest_eq_erase h hp l, EntryMap.erase]
  have hiff : ty.keyCompare l e.key = ty.keyCompare l key := by
    cases hl : ty.keyCompare l key with
    | true => exact ty.keyCompare_trans _ _ _ hl hk
    | false =>
      cases hle : ty.keyCompare l e.key with
      | false => rfl
      | true =>
        have := ty.keyCompare_trans _ _ _ hle (ty.keyCompare_symm _ _ hk)
        rw [hl] at this
        contradiction
  rw [hiff]

/-! ## Insertion -/

theorem dictSize_eq (h : DictInv ty d) : dictSize d = (dictEntries d).length := by
  have hused : ∀ t : Dictht K V, t = dictReset ∨ HtInv ty t → t.used = t.table.flatten.length := by
    rintro t (rfl | ht)
    · rfl
    · exact ht.used
  have h1 : d.ht1 = dictReset ∨ HtInv ty d.ht1 := by
    by_cases hre : d.rehashidx = -1
    · exact Or.inl (h.idle hre)
    · exact Or.inr (h.busy hre).2
  rw [dictSize, dictEntries, List.length_append, hused _ h.ht0, hused _ h1]

theorem DictMoved.size (hm : DictMoved ty d d') (h : DictInv ty d) : dictSize d' = dictSize d := by
  rw [dictSize_eq hm.inv, dictSize_eq h, hm.perm.length_eq]

/-- `_dictExpandIfNeeded` will double the table (or allocate the first one). -/
def DictGrows (canResize : Bool) (d : Dict K V) : Prop :=
  (dictTarget d).size ≤ dictSize d ∧
    (canResize = true ∨ dictForceResizeRatio < dictSize d / (dictTarget d).size)

theorem DictRehashed.grows (hm : DictRehashed ty d d') (h : DictInv ty d) :
    DictGrows canResize d' ↔ DictGrows canResize d := by
  rw [DictGrows, DictGrows, hm.target, hm.toDictMoved.size h]

theorem dictTarget_of_idle (hre : d.rehashidx = -1) : dictTarget d = d.ht0 := by
  rw [dictTarget, dictIsRehashing_eq_false.mpr hre]
  rfl

theorem dictTarget_of_busy (hre : d.rehashidx ≠ -1) : dictTarget d = d.ht1 := by
  rw [dictTarget, dictIsRehashing_eq_true.mpr hre]
  rfl

/-- `_dictExpandIfNeeded` succeeds, leaves a table to insert into, and makes
no table larger than the entries demand. -/
theorem dictExpandIfNeeded_spec (canResize : Bool) (h : DictInv ty d)
    (hg : DictGrows canResize d → 2 * dictSize d < LONG_MAX) :
    ∃ d', dictExpandIfNeeded canResize d = (d', true) ∧ DictMoved ty d d' ∧ d'.ht0.size ≠ 0 ∧
      (∀ b, 2 ≤ b → b ≤ 62 → (DictGrows canResize d → 2 * dictSize d ≤ 2 ^ b) →
        ((dictTarget d).size ≤ 2 ^ b → (dictTarget d').size ≤ 2 ^ b) ∧
        (d.ht0.size ≤ 2 ^ b → d.ht1.size ≤ 2 ^ b → d'.ht0.size ≤ 2 ^ b ∧ d'.ht1.size ≤ 2 ^ b)) := by
  unfold dictExpandIfNeeded
  by_cases hre : d.rehashidx = -1
  · have htarget := dictTarget_of_idle hre
    have hsize : dictSize d = d.ht0.used := by
      rw [dictSize, h.idle hre]; rfl
    rw [if_neg (by rw [dictIsRehashing_eq_false.mpr hre]; simp)]
    split
    · next h0 =>
        have hreset := h.ht0_reset_of_size h0
        have hs : dictHtInitialSize < LONG_MAX := by decide
        have hmoved := dictExpand_moved h hs
        rcases dictExpand_cases d dictHtInitialSize with ⟨-, hcase⟩ | ⟨-, -, -, n, hn, hcase⟩
        · rcases hcase with hcase | hcase | hcase
          · exact absurd hre hcase
          · rw [hreset] at hcase; exact absurd hcase (Nat.not_lt_zero _)
          · rw [h0] at hcase; exact absurd hcase (by decide)
        · rcases hcase with ⟨-, he⟩ | ⟨hne, -⟩
          · rw [he] at hmoved ⊢
            have hnsize : n.size = 4 := by rw [hn]; rfl
            refine ⟨_, rfl, hmoved, by rw [hnsize]; decide, ?_⟩
            intro b hb hb' _
            have h4 : n.size ≤ 2 ^ b := by
              calc n.size = 2 ^ 2 := hnsize
                _ ≤ 2 ^ b := Nat.pow_le_pow_right (by decide) hb
            rw [dictTarget_of_idle (d := { d with ht0 := n }) hre]
            exact ⟨fun _ => h4, fun _ h1 => ⟨h4, h1⟩⟩
          · exact absurd h0 hne
    · next h0 =>
        split
        · next hc =>
            have hgrow : DictGrows canResize d := by
              rw [DictGrows, htarget, hsize]
              exact ⟨hc.1, hc.2.imp id id⟩
            have hmax := hg hgrow
            rw [hsize] at hmax
            have hs : d.ht0.used * 2 < LONG_MAX := by omega
            have hmoved := dictExpand_moved h hs
            obtain ⟨k, hk, -, hle, -⟩ := dictNextPower_spec hs
            rcases dictExpand_cases d (d.ht0.used * 2) with ⟨-, hcase⟩ | ⟨-, -, -, n, hn, hcase⟩
            · rcases hcase with hcase | hcase | hcase
              · exact absurd hre hcase
              · omega
              · omega
            · rcases hcase with ⟨hz, -⟩ | ⟨-, he⟩
              · exact absurd hz h0
              · rw [he] at hmoved ⊢
                refine ⟨_, rfl, hmoved, h0, ?_⟩
                intro b hb hb' hbound
                have hn' : n.size ≤ 2 ^ b := by
                  rw [hn]
                  refine dictNextPower_le b hb hb' ?_
                  have := hbound hgrow
                  rw [hsize] at this
                  omega
                rw [dictTarget_of_busy (d := { d with ht1 := n, rehashidx := 0 }) (by simp)]
                exact ⟨fun _ => hn', fun hb0 _ => ⟨hb0, hn'⟩⟩
        · exact ⟨d, rfl, DictMoved.refl h, h0, fun b _ _ _ => ⟨id, fun h0 h1 => ⟨h0, h1⟩⟩⟩
  · rw [if_pos (dictIsRehashing_eq_true.mpr hre)]
    exact ⟨d, rfl, DictMoved.refl h, (h.busy hre).1.ne_reset,
      fun b _ _ _ => ⟨id, fun h0 h1 => ⟨h0, h1⟩⟩⟩

/-- What `_dictKeyIndex` returns: `-1` for a key that exists, else the bucket
of the key in the target table, as an `int`. -/
theorem dictKeyIndex_spec {index : Int} (h : DictInv ty d)
    (hg : DictGrows canResize d → 2 * dictSize d < LONG_MAX)
    (hk : dictKeyIndex ty canResize d key = some (d', index)) :
    d' = (dictExpandIfNeeded canResize d).1 ∧ DictMoved ty d d' ∧ d'.ht0.size ≠ 0 ∧
      ((index = -1 ∧ dictMap ty d key ≠ none) ∨
       (index = toInt32 (dictHashKey ty key &&& (dictTarget d').sizemask) ∧
        dictMap ty d key = none)) := by
  obtain ⟨d1, he, hmoved, hnull, -⟩ := dictExpandIfNeeded_spec canResize h hg
  simp only [dictKeyIndex, he, Bool.not_true, Bool.false_eq_true, if_false, bind_eq_some] at hk
  obtain ⟨res, hl, hk⟩ := hk
  have hfind := dictLookup_spec hmoved.inv hl
  cases res with
  | some r =>
    obtain ⟨rfl, rfl⟩ := Prod.mk.inj (Option.some.inj hk)
    obtain ⟨e, -, hmap⟩ := hfind
    rw [hmoved.map h] at hmap
    refine ⟨by rw [he], hmoved, hnull, Or.inl ⟨rfl, ?_⟩⟩
    rw [hmap]
    exact Option.some_ne_none e
  | none =>
    obtain ⟨rfl, rfl⟩ := Prod.mk.inj (Option.some.inj hk)
    refine ⟨by rw [he], hmoved, hnull, Or.inr ⟨?_, ?_⟩⟩
    · rw [dictTarget]
      cases dictIsRehashing d1 <;> rfl
    · rw [← hmoved.map h]
      exact hfind

/-- What `dictAddRaw` does when it returns a new entry. -/
structure DictInserted (ty : DictType K) (d d' : Dict K V) (e : DictEntry K V)
    (r : DictEntryRef) : Prop where
  inv : DictInv ty d'
  perm : (dictEntries d').Perm (e :: dictEntries d)
  iterators : d'.iterators = d.iterators
  entry : EntryAt ty d' r e
  fresh : dictMap ty d e.key = none

/-- The table the entry goes to, as `dictAddRaw` selects it. -/
theorem ht_target (d : Dict K V) :
    d.ht (if dictIsRehashing d then TableId.ht1 else TableId.ht0) = dictTarget d := by
  rw [dictTarget]
  cases dictIsRehashing d <;> rfl

theorem DictInv.target_inv (h : DictInv ty d) (h0 : d.ht0.size ≠ 0) : HtInv ty (dictTarget d) := by
  by_cases hre : d.rehashidx = -1
  · rw [dictTarget_of_idle hre]
    exact h.ht0_inv_of_size h0
  · rw [dictTarget_of_busy hre]
    exact (h.busy hre).2

/-- Pushing a new key on the head of its chain. -/
theorem dictInsert_spec (h : DictInv ty d) (h0 : d.ht0.size ≠ 0)
    (hc : (dictTarget d).table[dictHashKey ty e.key &&& (dictTarget d).sizemask]? = some c)
    (hfresh : dictMap ty d e.key = none) :
    DictInserted ty d
      (d.setHt (if dictIsRehashing d then .ht1 else .ht0) { dictTarget d with
        table := (dictTarget d).table.set (dictHashKey ty e.key &&& (dictTarget d).sizemask)
          (e :: c),
        used := (dictTarget d).used + 1 }) e
      ⟨if dictIsRehashing d then .ht1 else .ht0,
        dictHashKey ty e.key &&& (dictTarget d).sizemask, 0⟩ := by
  have hi := h.target_inv h0
  have hplaced : ∀ x ∈ e :: c, dictHashKey ty x.key &&& (dictTarget d).sizemask =
      dictHashKey ty e.key &&& (dictTarget d).sizemask := by
    intro x hx
    rcases List.mem_cons.mp hx with rfl | hx
    · rfl
    · exact hi.placed _ c hc x hx
  have hused : (dictTarget d).used + 1 + c.length = (dictTarget d).used + (e :: c).length := by
    rw [List.length_cons]; omega
  have hperm := Chains.flatten_set_cons_perm e hc
  have hentries := dictEntries_setHt_perm d (if dictIsRehashing d then .ht1 else .ht0)
    { dictTarget d with
        table := (dictTarget d).table.set (dictHashKey ty e.key &&& (dictTarget d).sizemask)
          (e :: c),
        used := (dictTarget d).used + 1 } [] [e]
    (by rw [ht_target]; exact hperm)
  rw [List.nil_append, List.singleton_append] at hentries
  have hcons : DistinctKeys ty (e :: dictEntries d) :=
    List.pairwise_cons.mpr ⟨dictMap_eq_none.mp hfresh, h.distinct⟩
  have hdist := hcons.perm hentries.symm
  refine ⟨?_, hentries, by rw [Dict.setHt_iterators], ?_, hfresh⟩
  · have hset := h.setHt (t := if dictIsRehashing d then .ht1 else .ht0) (e :: c)
      (by rw [ht_target]; exact hi) (by rw [ht_target]; exact hc)
      (by rw [ht_target]; exact hplaced) (by rw [ht_target]; exact hused)
    rw [ht_target] at hset
    refine hset ?_ hdist
    intro ht _
    right
    cases hre : dictIsRehashing d with
    | false => exact dictIsRehashing_eq_false.mp hre
    | true => rw [hre] at ht; contradiction
  · refine ⟨?_, e :: c, ?_, rfl⟩
    · rw [Dict.ht_setHt]
      exact hi.replace hc hplaced hused
    · rw [Dict.ht_setHt]
      exact List.getElem?_set_self (List.getElem?_eq_some_iff.mp hc).1

/-- What `dictAddRaw` may do when it returns: `NULL` only moves entries, any
other result is the new entry. -/
def AddsRaw (ty : DictType K) (d d' : Dict K V) (e : DictEntry K V) : Option DictEntryRef → Prop
  | none => DictMoved ty d d'
  | some r => DictInserted ty d d' e r

/-- A run of `dictAddRaw` that returns.  `NULL` for a key that does not exist
is possible: its bucket index may not survive the conversion to `int`. -/
theorem dictAddRaw_spec {junk : V} (h : DictInv ty d)
    (hg : DictGrows canResize d → 2 * dictSize d < LONG_MAX)
    (ha : dictAddRaw ty canResize d key junk = some (d', res)) :
    AddsRaw ty d d' ⟨key, junk⟩ res := by
  rw [dictAddRaw, bind_eq_some] at ha
  obtain ⟨ds, hs, ha⟩ := ha
  have hstep := dictRehashStepIfNeeded_spec h hs
  rw [bind_eq_some] at ha
  obtain ⟨⟨dk, index⟩, hk, ha⟩ := ha
  obtain ⟨-, hmoved, hnull, hidx⟩ := dictKeyIndex_spec hstep.inv
    (fun hgr => by rw [hstep.toDictMoved.size h]; exact hg ((hstep.grows h).mp hgr)) hk
  have hboth := hstep.toDictMoved.trans hmoved
  simp only at ha
  split at ha
  · obtain ⟨rfl, rfl⟩ := Prod.mk.inj (Option.some.inj ha)
    exact hboth
  · next hne =>
      split at ha
      · contradiction
      · next hnn =>
          rcases hidx with ⟨hm1, -⟩ | ⟨hidx, hfresh⟩
          · exact absurd hm1 hne
          · rw [bind_eq_some, ht_target] at ha
            obtain ⟨c, hc, ha⟩ := ha
            -- a non-negative `int` is the index itself, since hashes have 32 bits
            have hnat : index.toNat = dictHashKey ty key &&& (dictTarget dk).sizemask := by
              rw [hidx] at hnn ⊢
              exact toInt32_toNat
                (Nat.lt_of_le_of_lt Nat.and_le_left (UInt32.toNat_lt _)) hnn
            simp only [Option.pure_def, Option.some.injEq, Prod.mk.injEq, hnat] at ha
            obtain ⟨rfl, rfl⟩ := ha
            rw [hnat] at hc
            have hfresh' : dictMap ty dk key = none := by rw [hmoved.map hstep.inv]; exact hfresh
            have hins := dictInsert_spec (e := ⟨key, junk⟩) hmoved.inv hnull hc hfresh'
            exact {
              inv := hins.inv
              perm := hins.perm.trans (hboth.perm.cons _)
              iterators := hins.iterators.trans hboth.iterators
              entry := hins.entry
              fresh := by rw [← hstep.map h]; exact hfresh }

/-! ## The operations, when they return -/

/-- The doubled size is still a size the allocator is asked for. -/
def GrowthBounded (canResize : Bool) (d : Dict K V) : Prop :=
  DictGrows canResize d → 2 * dictSize d < LONG_MAX

theorem DictInserted.map (hi : DictInserted ty d d' e r) :
    dictMap ty d' = (dictMap ty d).insert ty e := by
  funext key
  rw [dictMap_insert hi.inv hi.perm key]
  rfl

/-- Writing the value into the entry `dictAddRaw` has just returned. -/
theorem EntryMap.insert_insert (m : EntryMap K V) (e : DictEntry K V) (val : V) :
    (m.insert ty e).insert ty { e with v := val } = m.insert ty { e with v := val } := by
  funext key
  simp only [EntryMap.insert]
  cases ty.keyCompare key e.key <;> rfl

theorem dictAdd_spec {val : V} (h : DictInv ty d) (hg : GrowthBounded canResize d)
    (ha : dictAdd ty canResize d key val = some (d', ok)) :
    DictInv ty d' ∧
      ((ok = true ∧ dictMap ty d key = none ∧ dictMap ty d' = (dictMap ty d).insert ty ⟨key, val⟩) ∨
       (ok = false ∧ dictMap ty d' = dictMap ty d)) := by
  rw [dictAdd, bind_eq_some] at ha
  obtain ⟨⟨dr, res⟩, hr, ha⟩ := ha
  have hadd := dictAddRaw_spec h hg hr
  cases res with
  | none =>
    obtain ⟨rfl, rfl⟩ := Prod.mk.inj (Option.some.inj ha)
    have hmoved : DictMoved ty d dr := hadd
    exact ⟨hmoved.inv, Or.inr ⟨rfl, hmoved.map h⟩⟩
  | some r =>
    have hins : DictInserted ty d dr ⟨key, val⟩ r := hadd
    obtain ⟨ds, hset, hinv, -, hperm, -, -⟩ := dictSetVal_spec val hins.inv hins.entry
    simp only [hset, some_bind, Option.pure_def, Option.some.injEq, Prod.mk.injEq] at ha
    obtain ⟨rfl, rfl⟩ := ha
    refine ⟨hinv, Or.inl ⟨rfl, hins.fresh, ?_⟩⟩
    rw [dictMap_setVal val hins.inv hinv hins.entry.mem hperm, hins.map, EntryMap.insert_insert]

theorem dictReplace_spec {val : V} (h : DictInv ty d) (hg : GrowthBounded canResize d)
    (ha : dictReplace ty canResize d key val = some (d', ok)) :
    DictInv ty d' ∧
      ((ok = true ∧ dictMap ty d key = none ∧ dictMap ty d' = (dictMap ty d).insert ty ⟨key, val⟩) ∨
       (ok = false ∧ ∃ e, dictMap ty d key = some e ∧
          dictMap ty d' = (dictMap ty d).insert ty { e with v := val })) := by
  rw [dictReplace, bind_eq_some] at ha
  obtain ⟨⟨da, oka⟩, hadd, ha⟩ := ha
  obtain ⟨hinv, hcase⟩ := dictAdd_spec h hg hadd
  rcases hcase with ⟨rfl, hfresh, hmap⟩ | ⟨rfl, hmap⟩
  · simp only [if_true, Option.pure_def, Option.some.injEq, Prod.mk.injEq] at ha
    obtain ⟨rfl, rfl⟩ := ha
    exact ⟨hinv, Or.inl ⟨rfl, hfresh, hmap⟩⟩
  · simp only [Bool.false_eq_true, if_false, bind_eq_some] at ha
    obtain ⟨⟨df, res⟩, hfind, r, hr, ha⟩ := ha
    obtain ⟨hre, hres⟩ := dictFind_spec hinv hfind
    simp only at hr ha
    rw [hr] at hres
    obtain ⟨e, hat, hm⟩ := hres
    obtain ⟨ds, hset, hinv', -, hperm, -, -⟩ := dictSetVal_spec val hre.inv hat
    obtain ⟨d2, hset', ha⟩ := ha
    rw [hset, Option.some.injEq] at hset'
    obtain ⟨rfl, rfl⟩ := Prod.mk.inj (Option.some.inj ha)
    subst hset'
    refine ⟨hinv', Or.inr ⟨rfl, e, by rw [← hmap]; exact hm, ?_⟩⟩
    rw [dictMap_setVal val hre.inv hinv' hat.mem hperm, hre.map hinv, hmap]

/-- What `dictReplaceRaw` may do: return the entry of the key, or a new one. -/
def ReplacesRaw (ty : DictType K) (d d' : Dict K V) (key : K) (junk : V) :
    Option DictEntryRef → Prop
  | none => dictMap ty d' = dictMap ty d
  | some r => ∃ e, EntryAt ty d' r e ∧
      ((dictMap ty d key = some e ∧ dictMap ty d' = dictMap ty d) ∨
       (dictMap ty d key = none ∧ e = ⟨key, junk⟩ ∧
        dictMap ty d' = (dictMap ty d).insert ty ⟨key, junk⟩))

theorem DictRehashed.growthBounded (hm : DictRehashed ty d d') (h : DictInv ty d)
    (hg : GrowthBounded canResize d) : GrowthBounded canResize d' := by
  intro hgr
  rw [hm.toDictMoved.size h]
  exact hg ((hm.grows h).mp hgr)

theorem dictReplaceRaw_spec {junk : V} (h : DictInv ty d) (hg : GrowthBounded canResize d)
    (ha : dictReplaceRaw ty canResize d key junk = some (d', res)) :
    DictInv ty d' ∧ ReplacesRaw ty d d' key junk res := by
  rw [dictReplaceRaw, bind_eq_some] at ha
  obtain ⟨⟨df, found⟩, hfind, ha⟩ := ha
  obtain ⟨hre, hres⟩ := dictFind_spec h hfind
  cases found with
  | some r =>
    obtain ⟨rfl, rfl⟩ := Prod.mk.inj (Option.some.inj ha)
    obtain ⟨e, hat, hm⟩ := hres
    exact ⟨hre.inv, e, hat, Or.inl ⟨hm, hre.map h⟩⟩
  | none =>
    have hadd := dictAddRaw_spec hre.inv (hre.growthBounded h hg) ha
    cases res with
    | none =>
      have hmoved : DictMoved ty df d' := hadd
      refine ⟨hmoved.inv, ?_⟩
      change dictMap ty d' = dictMap ty d
      rw [hmoved.map hre.inv, hre.map h]
    | some r =>
      have hins : DictInserted ty df d' ⟨key, junk⟩ r := hadd
      refine ⟨hins.inv, ⟨key, junk⟩, hins.entry, Or.inr ⟨hres, rfl, ?_⟩⟩
      rw [hins.map, hre.map h]

theorem dictDelete_spec (h : DictInv ty d) (hd : dictDelete ty d key = some (d', ok)) :
    DictInv ty d' ∧
      ((ok = true ∧ dictMap ty d key ≠ none ∧ dictMap ty d' = (dictMap ty d).erase ty key) ∨
       (ok = false ∧ dictMap ty d key = none ∧ dictMap ty d' = dictMap ty d)) := by
  rw [dictDelete] at hd
  split at hd
  · next h0 =>
      obtain ⟨rfl, rfl⟩ := Prod.mk.inj (Option.some.inj hd)
      exact ⟨h, Or.inr ⟨rfl, dictMap_of_size_zero h h0 key, rfl⟩⟩
  · simp only [Option.bind_eq_bind, Option.bind_eq_some_iff] at hd
    obtain ⟨ds, hs, res, hl, hd⟩ := hd
    have hre := dictRehashStepIfNeeded_spec h hs
    have hres := dictLookup_spec hre.inv hl
    rw [hre.map h] at hres
    cases res with
    | none =>
      obtain ⟨rfl, rfl⟩ := Prod.mk.inj (Option.some.inj hd)
      exact ⟨hre.inv, Or.inr ⟨rfl, hres, hre.map h⟩⟩
    | some r =>
      obtain ⟨e, hat, hm⟩ := hres
      obtain ⟨du, hu, hinv, hperm, -, -⟩ := dictUnlink_spec hre.inv hat
      simp only [hu, Option.bind_some, Option.pure_def, Option.some.injEq, Prod.mk.injEq] at hd
      obtain ⟨rfl, rfl⟩ := hd
      refine ⟨hinv, Or.inl ⟨rfl, by rw [hm]; exact Option.some_ne_none e, ?_⟩⟩
      rw [dictMap_unlink hre.inv hperm (dictMap_mem hm).2, hre.map h]

theorem dictFetchValue_spec {v : Option V} (h : DictInv ty d)
    (hf : dictFetchValue ty d key = some (d', v)) :
    DictRehashed ty d d' ∧ v = (dictMap ty d key).map (·.v) := by
  rw [dictFetchValue, bind_eq_some] at hf
  obtain ⟨⟨df, found⟩, hfind, hf⟩ := hf
  obtain ⟨hre, hres⟩ := dictFind_spec h hfind
  cases found with
  | none =>
    obtain ⟨rfl, rfl⟩ := Prod.mk.inj (Option.some.inj hf)
    rw [Finds] at hres
    exact ⟨hre, by rw [hres]; rfl⟩
  | some r =>
    obtain ⟨e, hat, hm⟩ := hres
    simp only [hat.deref, some_bind, Option.pure_def, Option.some.injEq, Prod.mk.injEq] at hf
    obtain ⟨rfl, rfl⟩ := hf
    exact ⟨hre, by rw [hm]; rfl⟩

theorem dictResize_moved (canResize : Bool) (h : DictInv ty d) :
    DictMoved ty d (dictResize canResize d).1 := by
  unfold dictResize
  split
  · exact DictMoved.refl h
  · refine dictExpand_moved h ?_
    have hlt : toInt32 d.ht0.used < 2 ^ 31 := by
      have := BitVec.two_mul_toInt_lt (x := BitVec.ofNat 32 d.ht0.used)
      rw [toInt32]
      omega
    unfold LONG_MAX
    split
    · decide
    · omega

theorem dictExpand_fits {size : Nat} (hf : DictFits d) (hs : size ≤ 2 ^ 60) :
    DictFits (dictExpand d size).1 := by
  have hle := dictNextPower_le 60 (by decide) (by decide) hs
  rcases dictExpand_cases d size with ⟨he, -⟩ | ⟨-, -, -, n, hn, ⟨-, he⟩ | ⟨-, he⟩⟩
  · rw [he]; exact hf
  · rw [he]; exact ⟨by rw [hn]; exact hle, hf.2⟩
  · rw [he]; exact ⟨hf.1, by rw [hn]; exact hle⟩

/-- `dictResize` asks for an `int`, so it never outgrows the allocator. -/
theorem dictResize_fits (canResize : Bool) (hf : DictFits d) :
    DictFits (dictResize canResize d).1 := by
  unfold dictResize
  split
  · exact hf
  · refine dictExpand_fits hf ?_
    have hlt : toInt32 d.ht0.used < 2 ^ 31 := by
      have := BitVec.two_mul_toInt_lt (x := BitVec.ofNat 32 d.ht0.used)
      rw [toInt32]
      omega
    split
    · decide
    · omega

/-! ## The operations, when the index fits -/

/-- An insertion at which the conversion of the bucket index to `int` and the
size of the allocation are exact: the key is there already, or its hash or
the table it goes to is below `2 ^ 31`. -/
def InsertFits (ty : DictType K) (canResize : Bool) (d : Dict K V) (key : K) : Prop :=
  (DictGrows canResize d → dictSize d ≤ 2 ^ 59) ∧
    (dictMap ty d key ≠ none ∨ dictHashKey ty key < 2 ^ 31 ∨
      ((dictTarget d).size ≤ 2 ^ 31 ∧ (DictGrows canResize d → dictSize d ≤ 2 ^ 30)))

theorem InsertFits.growthBounded (h : InsertFits ty canResize d key) :
    GrowthBounded canResize d := by
  intro hgr
  have := h.1 hgr
  unfold LONG_MAX
  omega

theorem DictRehashed.insertFits (hm : DictRehashed ty d d') (h : DictInv ty d)
    (hi : InsertFits ty canResize d key) : InsertFits ty canResize d' key := by
  unfold InsertFits at hi ⊢
  rw [hm.grows h, hm.toDictMoved.size h, hm.target, hm.map h]
  exact hi

theorem dictAddRaw_total (h : DictInv ty d) (hf : DictFits d) (hi : InsertFits ty canResize d key) :
    ∃ d' res, dictAddRaw ty canResize d key junk = some (d', res) ∧ DictFits d' ∧
      (dictMap ty d key = none → res ≠ none) := by
  obtain ⟨ds, hs⟩ := dictRehashStepIfNeeded_isSome h hf
  have hstep := dictRehashStepIfNeeded_spec h hs
  have hi' := hstep.insertFits h hi
  have hfs := hstep.fits hf
  obtain ⟨dk, he, hmoved, hnull, hbound⟩ :=
    dictExpandIfNeeded_spec canResize hstep.inv hi'.growthBounded
  have hfk : DictFits dk := (hbound 60 (by decide) (by decide)
    (fun hg => by have := hi'.1 hg; omega)).2 hfs.1 hfs.2
  have htarget : (dictTarget dk).size ≤ 2 ^ 60 := by
    rw [dictTarget]
    split
    · exact hfk.2
    · exact hfk.1
  have hmapk : dictMap ty dk key = dictMap ty d key := by
    rw [hmoved.map hstep.inv, hstep.map h]
  obtain ⟨res, hl⟩ := dictLookup_isSome key hmoved.inv hfk hnull
  have hfind := dictLookup_spec hmoved.inv hl
  rw [dictAddRaw, Option.bind_eq_bind, hs, Option.bind_some]
  simp only [dictKeyIndex, he, Bool.not_true, Bool.false_eq_true, if_false, Option.bind_eq_bind,
    hl, Option.bind_some]
  cases res with
  | some r =>
    obtain ⟨e, -, hm⟩ := hfind
    refine ⟨dk, none, rfl, hfk, ?_⟩
    intro hn
    rw [hmapk, hn] at hm
    contradiction
  | none =>
    have hnone : dictMap ty d key = none := by rw [← hmapk]; exact hfind
    have htinv := hmoved.inv.target_inv hnull
    -- here the index fits an `int`
    have hlt : dictHashKey ty key &&& (dictTarget dk).sizemask < 2 ^ 31 := by
      rcases hi'.2 with hp | hh | ⟨ht, hgr⟩
      · rw [hstep.map h] at hp
        exact absurd hnone hp
      · exact Nat.lt_of_le_of_lt Nat.and_le_left hh
      · refine Nat.lt_of_lt_of_le (htinv.and_mask_lt _) ?_
        exact (hbound 31 (by decide) (by decide) (fun hg => by have := hgr hg; omega)).1 ht
    have hmask : (if dictIsRehashing dk = true then dk.ht1.sizemask else dk.ht0.sizemask) =
        (dictTarget dk).sizemask := by
      rw [dictTarget]
      cases dictIsRehashing dk <;> rfl
    obtain ⟨c, hc⟩ := htinv.getElem?_and_mask htarget (dictHashKey ty key)
    have hint : toInt32 (dictHashKey ty key &&& (dictTarget dk).sizemask) =
        ((dictHashKey ty key &&& (dictTarget dk).sizemask : Nat) : Int) := by
      rw [toInt32_eq (by omega), if_pos hlt]
    simp only [Option.pure_def, Option.bind_some, hmask, hint, ht_target]
    rw [if_neg (by omega), if_neg (by omega), Int.toNat_natCast, hc, Option.bind_some]
    refine ⟨_, _, rfl, ?_, fun _ => Option.some_ne_none _⟩
    refine hfk.setHt ?_
    rw [ht_target]

theorem dictAdd_total (h : DictInv ty d) (hf : DictFits d) (hi : InsertFits ty canResize d key) :
    ∃ d' ok, dictAdd ty canResize d key val = some (d', ok) ∧ DictFits d' ∧
      (dictMap ty d key = none → ok = true) := by
  obtain ⟨dr, res, hr, hfr, hres⟩ := dictAddRaw_total val h hf hi
  have hadd := dictAddRaw_spec h hi.growthBounded hr
  rw [dictAdd, Option.bind_eq_bind, hr, Option.bind_some]
  cases res with
  | none => exact ⟨dr, false, rfl, hfr, fun hn => absurd rfl (hres hn)⟩
  | some r =>
    have hins : DictInserted ty d dr ⟨key, val⟩ r := hadd
    obtain ⟨ds, hset, -, -, -, -, hfit⟩ := dictSetVal_spec val hins.inv hins.entry
    exact ⟨ds, true, by simp [hset], hfit hfr, fun _ => rfl⟩

theorem dictReplace_total (h : DictInv ty d) (hf : DictFits d)
    (hi : InsertFits ty canResize d key) :
    ∃ d' ok, dictReplace ty canResize d key val = some (d', ok) ∧ DictFits d' := by
  obtain ⟨da, oka, hadd, hfa, hok⟩ := dictAdd_total val h hf hi
  obtain ⟨hinv, hcase⟩ := dictAdd_spec h hi.growthBounded hadd
  rw [dictReplace, Option.bind_eq_bind, hadd, Option.bind_some]
  rcases hcase with ⟨rfl, -, -⟩ | ⟨rfl, hmap⟩
  · exact ⟨da, true, rfl, hfa⟩
  · obtain ⟨df, res, hfind⟩ := dictFind_isSome key hinv hfa
    obtain ⟨hre, hres⟩ := dictFind_spec hinv hfind
    cases res with
    | none =>
      -- the failed addition means that the key exists
      rw [Finds, hmap] at hres
      exact absurd (hok hres) (by decide)
    | some r =>
      obtain ⟨e, hat, -⟩ := hres
      obtain ⟨ds, hset, -, -, -, -, hfit⟩ := dictSetVal_spec val hre.inv hat
      exact ⟨ds, false, by simp [hfind, hset], hfit (hre.fits hfa)⟩

theorem dictReplaceRaw_total (h : DictInv ty d) (hf : DictFits d)
    (hi : InsertFits ty canResize d key) :
    ∃ d' r, dictReplaceRaw ty canResize d key junk = some (d', some r) ∧ DictFits d' := by
  obtain ⟨df, found, hfind⟩ := dictFind_isSome key h hf
  obtain ⟨hre, hres⟩ := dictFind_spec h hfind
  rw [dictReplaceRaw, Option.bind_eq_bind, hfind, Option.bind_some]
  cases found with
  | some r => exact ⟨df, r, rfl, hre.fits hf⟩
  | none =>
    obtain ⟨dr, res, hr, hfr, hne⟩ := dictAddRaw_total junk hre.inv (hre.fits hf)
      (hre.insertFits h hi)
    cases res with
    | some r => exact ⟨dr, r, hr, hfr⟩
    | none =>
      refine absurd rfl (hne ?_)
      rw [hre.map h]
      exact hres

theorem dictDelete_total (key : K) (h : DictInv ty d) (hf : DictFits d) :
    ∃ d' ok, dictDelete ty d key = some (d', ok) ∧ DictFits d' := by
  rw [dictDelete]
  split
  · exact ⟨d, false, rfl, hf⟩
  · next h0 =>
      obtain ⟨ds, hs⟩ := dictRehashStepIfNeeded_isSome h hf
      have hre := dictRehashStepIfNeeded_spec h hs
      obtain ⟨res, hl⟩ := dictLookup_isSome key hre.inv (hre.fits hf) (hre.nonnull h0)
      have hres := dictLookup_spec hre.inv hl
      cases res with
      | none => exact ⟨ds, false, by simp [hs, hl], hre.fits hf⟩
      | some r =>
        obtain ⟨e, hat, -⟩ := hres
        obtain ⟨du, hu, -, -, -, hfit⟩ := dictUnlink_spec hre.inv hat
        exact ⟨du, true, by simp [hs, hl, hu], hfit (hre.fits hf)⟩

theorem dictFetchValue_isSome (key : K) (h : DictInv ty d) (hf : DictFits d) :
    ∃ d' v, dictFetchValue ty d key = some (d', v) := by
  obtain ⟨df, found, hfind⟩ := dictFind_isSome key h hf
  obtain ⟨-, hres⟩ := dictFind_spec h hfind
  rw [dictFetchValue, Option.bind_eq_bind, hfind, Option.bind_some]
  cases found with
  | none => exact ⟨df, none, rfl⟩
  | some r =>
    obtain ⟨e, hat, -⟩ := hres
    exact ⟨df, some e.v, by simp [hat.deref]⟩

/-! ## Runs -/

/-- The condition on a step: insertions fit, and no table is asked for whose
size in bytes overflows. -/
def StepFits (ty : DictType K) (canResize : Bool) (d : Dict K V) : DictOp K V → Prop
  | .add key _ | .replace key _ | .replaceRaw key _ => InsertFits ty canResize d key
  | .expand size => size ≤ 2 ^ 60
  | _ => True

/-- Every step of the run meets the condition in the state it starts from. -/
def RunFits (ty : DictType K) : Dict K V → List (Bool × DictOp K V) → Prop
  | _, [] => True
  | d, (canResize, op) :: ops =>
    StepFits ty canResize d op ∧
      ∀ d' reply, dictStep ty canResize d op = some (d', reply) → RunFits ty d' ops

/-- A reply agrees with the abstract one, where there is one. -/
def RepliesAs (reply : DictReply K V) (abs : Option (DictReply K V)) : Prop :=
  ∀ r, abs = some r → reply = r

theorem dictStep_refines {op : DictOp K V} (h : DictInv ty d) (hf : DictFits d)
    (hs : StepFits ty canResize d op) :
    ∃ d' reply, dictStep ty canResize d op = some (d', reply) ∧ DictInv ty d' ∧ DictFits d' ∧
      dictMap ty d' = ((dictMap ty d).step ty op).1 ∧
      RepliesAs reply ((dictMap ty d).step ty op).2 := by
  cases op with
  | add key val =>
    obtain ⟨d', ok, ha, hf', hok⟩ := dictAdd_total val h hf hs
    obtain ⟨hinv, hcase⟩ := dictAdd_spec h (InsertFits.growthBounded hs) ha
    refine ⟨d', .status ok, by simp [dictStep, ha], hinv, hf', ?_⟩
    cases hm : dictMap ty d key with
    | none =>
      rcases hcase with ⟨rfl, -, hmap⟩ | ⟨rfl, -⟩
      · simp [EntryMap.step, hm, hmap, RepliesAs]
      · exact absurd (hok hm) (by decide)
    | some e =>
      rcases hcase with ⟨-, hfresh, -⟩ | ⟨rfl, hmap⟩
      · rw [hm] at hfresh; contradiction
      · simp [EntryMap.step, hm, hmap, RepliesAs]
  | replace key val =>
    obtain ⟨d', ok, ha, hf'⟩ := dictReplace_total val h hf hs
    obtain ⟨hinv, hcase⟩ := dictReplace_spec h (InsertFits.growthBounded hs) ha
    refine ⟨d', .status ok, by simp [dictStep, ha], hinv, hf', ?_⟩
    rcases hcase with ⟨rfl, hm, hmap⟩ | ⟨rfl, e, hm, hmap⟩
    · simp [EntryMap.step, hm, hmap, RepliesAs]
    · simp [EntryMap.step, hm, hmap, RepliesAs]
  | replaceRaw key junk =>
    obtain ⟨d', r, ha, hf'⟩ := dictReplaceRaw_total junk h hf hs
    obtain ⟨hinv, e, hat, hcase⟩ := dictReplaceRaw_spec h (InsertFits.growthBounded hs) ha
    refine ⟨d', .entry (some e), by simp [dictStep, ha, dictDeref, hat.deref], hinv, hf', ?_⟩
    rcases hcase with ⟨hm, hmap⟩ | ⟨hm, rfl, hmap⟩
    · simp [EntryMap.step, hm, hmap, RepliesAs]
    · simp [EntryMap.step, hm, hmap, RepliesAs]
  | delete key =>
    obtain ⟨d', ok, hd, hf'⟩ := dictDelete_total key h hf
    obtain ⟨hinv, hcase⟩ := dictDelete_spec h hd
    refine ⟨d', .status ok, by simp [dictStep, hd], hinv, hf', ?_⟩
    rcases hcase with ⟨rfl, hm, hmap⟩ | ⟨rfl, hm, hmap⟩
    · obtain ⟨e, he⟩ := Option.ne_none_iff_exists'.mp hm
      simp [EntryMap.step, he, hmap, RepliesAs]
    · simp [EntryMap.step, hm, hmap, RepliesAs]
  | find key =>
    obtain ⟨d', res, hfind⟩ := dictFind_isSome key h hf
    obtain ⟨hre, hres⟩ := dictFind_spec h hfind
    cases res with
    | none =>
      have hm : dictMap ty d key = none := hres
      exact ⟨d', .entry none, by simp [dictStep, hfind, dictDeref], hre.inv, hre.fits hf,
        hre.map h, by simp [EntryMap.step, hm, RepliesAs]⟩
    | some r =>
      obtain ⟨e, hat, hm⟩ := hres
      exact ⟨d', .entry (some e), by simp [dictStep, hfind, dictDeref, hat.deref], hre.inv,
        hre.fits hf, hre.map h, by simp [EntryMap.step, hm, RepliesAs]⟩
  | fetchValue key =>
    obtain ⟨d', v, hfv⟩ := dictFetchValue_isSome key h hf
    obtain ⟨hre, rfl⟩ := dictFetchValue_spec h hfv
    exact ⟨d', .value ((dictMap ty d key).map (·.v)), by simp [dictStep, hfv], hre.inv,
      hre.fits hf, hre.map h, by simp [EntryMap.step, RepliesAs]⟩
  | expand size =>
    have hsize : size ≤ 2 ^ 60 := hs
    have hmoved := dictExpand_moved h (show size < LONG_MAX by unfold LONG_MAX; omega)
    exact ⟨_, _, rfl, hmoved.inv, dictExpand_fits hf hs, hmoved.map h,
      by simp [EntryMap.step, RepliesAs]⟩
  | resize =>
    have hmoved := dictResize_moved canResize h
    exact ⟨_, _, rfl, hmoved.inv, dictResize_fits canResize hf, hmoved.map h,
      by simp [EntryMap.step, RepliesAs]⟩
  | rehash n =>
    obtain ⟨⟨d', more⟩, hr⟩ := dictRehash_isSome n h hf
    obtain ⟨hre, -⟩ := dictRehash_spec h hr
    exact ⟨d', .layout more, by simp [dictStep, hr], hre.inv, hre.fits hf, hre.map h,
      by simp [EntryMap.step, RepliesAs]⟩
  | iterOpen =>
    exact ⟨_, _, rfl, ⟨h.ht0, h.idle, h.busy, h.nonneg, h.passed, h.distinct⟩, hf, rfl,
      by simp [EntryMap.step, RepliesAs]⟩
  | iterClose =>
    exact ⟨_, _, rfl, ⟨h.ht0, h.idle, h.busy, h.nonneg, h.passed, h.distinct⟩, hf, rfl,
      by simp [EntryMap.step, RepliesAs]⟩

theorem dictInv_dictCreate : DictInv ty (dictCreate : Dict K V) where
  ht0 := Or.inl rfl
  idle := fun _ => rfl
  busy := fun h => absurd rfl h
  nonneg := fun h => absurd rfl h
  passed := fun h => absurd rfl h
  distinct := List.Pairwise.nil

theorem dictRun_refines (ops : List (Bool × DictOp K V)) (h : DictInv ty d) (hf : DictFits d)
    (hr : RunFits ty d ops) :
    ∃ d' replies, dictRun ty d ops = some (d', replies) ∧ DictInv ty d' ∧
      dictMap ty d' = ((dictMap ty d).run ty (ops.map Prod.snd)).1 ∧
      List.Forall₂ RepliesAs replies ((dictMap ty d).run ty (ops.map Prod.snd)).2 := by
  induction ops generalizing d with
  | nil => exact ⟨d, [], rfl, h, rfl, List.Forall₂.nil⟩
  | cons op ops ih =>
    obtain ⟨canResize, op⟩ := op
    obtain ⟨d1, reply, hstep, hinv1, hf1, hmap1, hreply⟩ := dictStep_refines h hf hr.1
    obtain ⟨d2, replies, hrun, hinv2, hmap2, hreplies⟩ := ih hinv1 hf1 (hr.2 d1 reply hstep)
    rw [hmap1] at hmap2 hreplies
    refine ⟨d2, reply :: replies, by simp [dictRun, hstep, hrun], hinv2, hmap2, ?_⟩
    exact List.Forall₂.cons hreply hreplies

theorem RunFits.take {ops : List (Bool × DictOp K V)} (h : RunFits ty d ops) (n : Nat) :
    RunFits ty d (ops.take n) := by
  induction ops generalizing d n with
  | nil => rw [List.take_nil]; exact h
  | cons op ops ih =>
    cases n with
    | zero => trivial
    | succ n => exact ⟨h.1, fun d' reply hs => ih (h.2 d' reply hs) n⟩

/-- **The dict is a finite map.**  In a run from the empty dict whose steps
all fit, every prefix of the run returns without a fault, in a state that
satisfies the invariant and represents the abstract map, with the replies of
the abstract map. -/
theorem dict_refines_entryMap (ty : DictType K) (ops : List (Bool × DictOp K V))
    (h : RunFits ty dictCreate ops) (n : Nat) :
    ∃ d replies, dictRun ty dictCreate (ops.take n) = some (d, replies) ∧ DictInv ty d ∧
      dictMap ty d = (EntryMap.empty.run ty ((ops.take n).map Prod.snd)).1 ∧
      List.Forall₂ RepliesAs replies
        (EntryMap.empty.run ty ((ops.take n).map Prod.snd)).2 :=
  dictRun_refines (ops.take n) dictInv_dictCreate ⟨Nat.zero_le _, Nat.zero_le _⟩ (h.take n)

/-- Numbers as keys, hashed to themselves. -/
def natDictType : DictType Nat where
  hashFunction n := UInt32.ofNat n
  keyCompare k l := k == l
  keyCompare_refl := by simp
  keyCompare_symm := by intro k l h; simp only [beq_iff_eq] at h ⊢; exact h.symm
  keyCompare_trans := by intro k l m h h'; simp only [beq_iff_eq] at h h' ⊢; exact h.trans h'
  hashFunction_congr := by intro k l h; rw [beq_iff_eq.mp h]

/-- A short run with an insertion, a rehash step and a search. -/
def addFindRun : List (Bool × DictOp Nat Nat) :=
  [(true, .add 1 10), (true, .rehash 1), (true, .find 1)]

theorem dict_refines_entryMap_addFindRun :
    ∃ d replies, dictRun natDictType dictCreate (addFindRun.take 3) = some (d, replies) ∧
      DictInv natDictType d ∧
      dictMap natDictType d =
        (EntryMap.empty.run natDictType ((addFindRun.take 3).map Prod.snd)).1 ∧
      List.Forall₂ RepliesAs replies
        (EntryMap.empty.run natDictType ((addFindRun.take 3).map Prod.snd)).2 := by
  have hfits : RunFits natDictType dictCreate addFindRun := by
    refine ⟨⟨fun _ => Nat.zero_le _, Or.inr (Or.inl (by decide))⟩, ?_⟩
    intro d' reply _
    exact ⟨trivial, fun _ _ _ => ⟨trivial, fun _ _ _ => trivial⟩⟩
  exact dict_refines_entryMap natDictType addFindRun hfits 3

/-- A dict with one empty table of `2 ^ 32` slots. -/
def dictOfTable (table : List (List (DictEntry Nat Nat))) : Dict Nat Nat :=
  ⟨⟨table, 4294967296, 4294967295, 0⟩, dictReset, -1, 0⟩

/-- In a table of `2 ^ 32` slots the bucket of hash `2 ^ 32 - 1` is, as an
`int`, the `-1` that means "the key exists". -/
theorem dictAdd_last_bucket (table : List (List (DictEntry Nat Nat)))
    (hc : table[4294967295]? = some []) :
    dictAdd natDictType true (dictOfTable table) 4294967295 7 =
      some (dictOfTable table, false) := by
  have hh : dictHashKey natDictType 4294967295 &&& 4294967295 = 4294967295 := by decide
  have hi : toInt32 4294967295 = -1 := by decide
  have hex : dictExpandIfNeeded true (dictOfTable table) = (dictOfTable table, true) := rfl
  have hl : dictLookup natDictType (dictOfTable table) 4294967295 = some none := by
    simp only [dictLookup, dictOfTable, hh, hc]
    rfl
  have hk : dictKeyIndex natDictType true (dictOfTable table) 4294967295 =
      some (dictOfTable table, -1) := by
    simp only [dictKeyIndex, hex, hl]
    simp [dictOfTable, dictIsRehashing, hh, hi]
  have hs : dictRehashStepIfNeeded natDictType (dictOfTable table) = some (dictOfTable table) := rfl
  simp [dictAdd, dictAddRaw, hs, hk]

/-- The dict may therefore refuse a key it does not hold. -/
theorem dictAdd_index_overflow :
    ∃ d, dictRun natDictType (dictCreate : Dict Nat Nat)
        [(true, .expand (2 ^ 32)), (true, .add (2 ^ 32 - 1) 7)] =
        some (d, [.layout true, .status false]) ∧
      ((EntryMap.empty : EntryMap Nat Nat).run natDictType
        [.expand (2 ^ 32), .add (2 ^ 32 - 1) 7]).2 = [none, some (.status true)] := by
  have hp : dictNextPower (2 ^ 32) = 4294967296 := by decide
  have hz : zcallocSlots 4294967296 = 4294967296 := by decide
  have hc : (List.replicate 4294967296 ([] : List (DictEntry Nat Nat)))[4294967295]? = some [] := by
    rw [List.getElem?_replicate, if_pos (by decide)]
  have hexp : dictExpand (dictCreate : Dict Nat Nat) (2 ^ 32) =
      (dictOfTable (List.replicate 4294967296 []), true) := by
    rcases dictExpand_cases (dictCreate : Dict Nat Nat) (2 ^ 32) with
      ⟨-, hcase⟩ | ⟨-, -, -, n, hn, hcase⟩
    · rw [hp] at hcase
      simp [dictCreate, dictReset] at hcase
    · rcases hcase with ⟨-, he⟩ | ⟨hne, -⟩
      · rw [he, hn, hp, hz]
        simp only [dictCreate, dictOfTable]
      · exact absurd rfl hne
  have hadd := dictAdd_last_bucket _ hc
  refine ⟨dictOfTable (List.replicate 4294967296 []), ?_, rfl⟩
  rw [dictRun, dictStep, hexp, some_bind]
  rw [show (2 ^ 32 - 1 : Nat) = 4294967295 by decide]
  simp only [dictRun, dictStep, hadd, Option.map_some, some_bind, Option.pure_def]

end Redis
