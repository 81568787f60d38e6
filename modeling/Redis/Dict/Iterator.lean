import Mathlib.Data.List.Flatten
import Redis.Dict.Enumerate

/-!
# Redis.Dict.Iterator

The safe iterator of `dict.c`: `dictNext` walks the chains of both tables
and saves the next entry of a chain before it returns one, so that the caller
may delete the entry it was given.  While the iterator is in use, the rehash
steps are suppressed, but an addition may still start an expansion.

Only the safe iterator is modelled; the fingerprint of an unsafe one is a hash
of addresses.

The proofs follow one list: the entries *ahead* of the iterator, those it has
still to return.
-/

namespace Redis

open List

/-- A `dictEntry *` an iterator holds.  No two entries of a dict have equal
keys, so an entry is known by its key; once it is deleted, its memory is freed. -/
inductive EntryPtr (K : Type) where
  | null
  | node (key : K)
  | freed
deriving DecidableEq, Repr

namespace EntryPtr

def isNull {K : Type} : EntryPtr K → Bool
  | null => true
  | _ => false

end EntryPtr

structure DictIterator (K : Type) where
  table : TableId
  index : Int
  entry : EntryPtr K
  nextEntry : EntryPtr K
deriving DecidableEq, Repr

variable {K V : Type}

def dictGetSafeIterator : DictIterator K := ⟨.ht0, -1, .null, .null⟩

/-- The pointer to the first entry of what is left of a chain. -/
def chainPtr : List (DictEntry K V) → EntryPtr K
  | [] => .null
  | e :: _ => .node e.key

/-- `entry->next`, where `entry` is the entry with the key. -/
def entryNext (ty : DictType K) (d : Dict K V) (key : K) : Option (EntryPtr K) := do
  let r ← (← dictLookup ty d key)
  let chain ← (d.ht r.table).table[r.idx]?
  return chainPtr (chain.drop (r.pos + 1))

/-- The branch of `dictNext` that goes to the next bucket; the `Bool` is the `break`. -/
def dictNextBucket (d : Dict K V) (iter : DictIterator K) :
    Option (Dict K V × DictIterator K × Bool) := do
  let d := if iter.index = -1 ∧ iter.table = .ht0 then { d with iterators := d.iterators + 1 }
    else d
  let index := iter.index + 1
  if index ≥ (d.ht iter.table).size then
    if dictIsRehashing d ∧ iter.table = .ht0 then
      let chain ← d.ht1.table[0]?
      return (d, { iter with table := .ht1, index := 0, entry := chainPtr chain }, false)
    else return (d, { iter with index := index }, true)
  else
    let chain ← (d.ht iter.table).table[index.toNat]?
    return (d, { iter with index := index, entry := chainPtr chain }, false)

/-- The `while (1)` of `dictNext`. -/
def dictNextLoop (ty : DictType K) : (fuel : Nat) → Dict K V → DictIterator K →
    Option (Dict K V × DictIterator K × EntryPtr K)
  | 0, _, _ => none
  | fuel + 1, d, iter => do
    let (d, iter, stop) ←
      if iter.entry.isNull then dictNextBucket d iter
      else some (d, { iter with entry := iter.nextEntry }, false)
    if stop then return (d, iter, .null)
    else
      match iter.entry with
      | .null => dictNextLoop ty fuel d iter
      -- `iter->entry->next` of an entry that is no more
      | .freed => none
      | .node key =>
        let nextEntry ← entryNext ty d key
        return (d, { iter with nextEntry := nextEntry }, .node key)

/-- `dictNext`; the loop takes at most one round for each bucket and two more. -/
def dictNext (ty : DictType K) (d : Dict K V) (iter : DictIterator K) :
    Option (Dict K V × DictIterator K × EntryPtr K) :=
  dictNextLoop ty (d.ht0.size + d.ht1.size + 2) d iter

def dictReleaseIterator (d : Dict K V) (iter : DictIterator K) : Dict K V :=
  if iter.index = -1 ∧ iter.table = .ht0 then d else { d with iterators := d.iterators - 1 }

/-- The entry with the key is freed. -/
def EntryPtr.free (ty : DictType K) (key : K) : EntryPtr K → EntryPtr K
  | .node k => if ty.keyCompare key k then .freed else .node k
  | p => p

def DictIterator.free (ty : DictType K) (key : K) (iter : DictIterator K) : DictIterator K :=
  { iter with entry := iter.entry.free ty key, nextEntry := iter.nextEntry.free ty key }

/-! ## Places -/

variable {ty : DictType K}

theorem DistinctKeys.sublist {l l' : List (DictEntry K V)} (h : DistinctKeys ty l')
    (hs : l.Sublist l') : DistinctKeys ty l :=
  Pairwise.sublist hs h

variable {c : List (DictEntry K V)} {d : Dict K V} {e : DictEntry K V} {i : Nat} {t : TableId}

theorem DictInv.distinct_table (h : DictInv ty d) (t : TableId) :
    DistinctKeys ty (d.ht t).table.flatten := by
  refine h.distinct.sublist ?_
  cases t with
  | ht0 => exact sublist_append_left _ _
  | ht1 => exact sublist_append_right _ _

theorem DictInv.distinct_chain (h : DictInv ty d) (hc : (d.ht t).table[i]? = some c) :
    DistinctKeys ty c :=
  (h.distinct_table t).sublist (sublist_flatten_of_mem (mem_of_getElem? hc))

theorem DictInv.ht_inv (h : DictInv ty d) (hc : (d.ht t).table[i]? = some c) :
    HtInv ty (d.ht t) := by
  have hne : d.ht t ≠ dictReset := by
    intro hreset
    simp [hreset, dictReset] at hc
  cases t with
  | ht0 => exact h.ht0.resolve_left hne
  | ht1 => exact (h.busy fun hre => hne (h.idle hre)).2

theorem DictInv.length_table (h : DictInv ty d) (hf : DictFits d) (t : TableId) :
    (d.ht t).table.length = (d.ht t).size := by
  have hinv {x : Dictht K V} (hx : HtInv ty x) (hsize : x.size ≤ 2 ^ 60) :
      x.table.length = x.size := by
    rw [hx.length, zcallocSlots_eq hsize]
  cases t with
  | ht0 =>
    rcases h.ht0 with hreset | hx
    · simp [Dict.ht, hreset, dictReset]
    · exact hinv hx hf.1
  | ht1 =>
    by_cases hre : d.rehashidx = -1
    · simp [Dict.ht, h.idle hre, dictReset]
    · exact hinv (h.busy hre).2 hf.2

variable {d' : Dict K V} {r : DictEntryRef} {rest : List (DictEntry K V)} (iter : DictIterator K)

theorem EntryAt.unique (h : DictInv ty d) {r' : DictEntryRef} (hat : EntryAt ty d r e)
    (hat' : EntryAt ty d r' e) : r = r' := by
  obtain ⟨c, hc, he⟩ := hat.chain
  obtain ⟨c', hc', he'⟩ := hat'.chain
  have hmem := Chains.mem_flatten_of_getElem? hc (mem_of_getElem? he)
  have hmem' := Chains.mem_flatten_of_getElem? hc' (mem_of_getElem? he')
  have htable : r.table = r'.table := by
    have hcross := (pairwise_append.mp h.distinct).2.2
    by_contra hne
    cases ht : r.table with
    | ht0 =>
      cases ht' : r'.table with
      | ht0 => exact hne (ht.trans ht'.symm)
      | ht1 =>
        rw [ht] at hmem
        rw [ht'] at hmem'
        exact absurd (ty.keyCompare_refl e.key) (by simp [hcross e hmem e hmem'])
    | ht1 =>
      cases ht' : r'.table with
      | ht0 =>
        rw [ht] at hmem
        rw [ht'] at hmem'
        exact absurd (ty.keyCompare_refl e.key) (by simp [hcross e hmem' e hmem])
      | ht1 => exact hne (ht.trans ht'.symm)
  have hidx : r.idx = r'.idx := by
    rw [← hat.inv.placed _ c hc e (mem_of_getElem? he), htable,
      hat'.inv.placed _ c' hc' e (mem_of_getElem? he')]
  have hchain : c' = c := by
    rw [← htable, ← hidx, hc] at hc'
    exact (Option.some.inj hc').symm
  have hpos : r.pos = r'.pos := by
    subst hchain
    obtain ⟨hlt, hget⟩ := List.getElem?_eq_some_iff.mp he
    obtain ⟨hlt', hget'⟩ := List.getElem?_eq_some_iff.mp he'
    have hpair := pairwise_iff_getElem.mp (h.distinct_chain hc)
    rcases Nat.lt_trichotomy r.pos r'.pos with hless | heq | hmore
    · exact absurd (ty.keyCompare_refl e.key) (by simpa [hget, hget'] using hpair _ _ hlt hlt' hless)
    · exact heq
    · exact absurd (ty.keyCompare_refl e.key) (by simpa [hget, hget'] using hpair _ _ hlt' hlt hmore)
  cases r
  cases r'
  simp_all

theorem EntryAt.lookup (h : DictInv ty d) (hf : DictFits d) (hat : EntryAt ty d r e) :
    dictLookup ty d e.key = some (some r) := by
  have hsize : d.ht0.size ≠ 0 := by
    intro h0
    have hmem := hat.mem
    rw [dictEntries_of_size_zero h h0] at hmem
    contradiction
  obtain ⟨res, hres⟩ := dictLookup_isSome e.key h hf hsize
  have hfinds := dictLookup_spec h hres
  have hmap := dictMap_eq_some h hat.mem (ty.keyCompare_refl e.key)
  cases res with
  | none => exact absurd (hfinds.symm.trans hmap) (by simp)
  | some r' =>
    obtain ⟨e', hat', hmap'⟩ := hfinds
    obtain rfl : e = e' := Option.some.inj (hmap.symm.trans hmap')
    rw [hres, hat.unique h hat']

theorem entryNext_eq (h : DictInv ty d) (hf : DictFits d) (seen : List (DictEntry K V))
    (hc : (d.ht t).table[i]? = some (seen ++ e :: rest)) :
    entryNext ty d e.key = some (chainPtr rest) := by
  have hat : EntryAt ty d ⟨t, i, seen.length⟩ e := ⟨h.ht_inv hc, _, hc, by simp⟩
  simp [entryNext, hat.lookup h hf, hc]

/-! ## The entries ahead -/

/-- The chains of a table from `i` on, and those of the table that comes after. -/
def chainsFrom (d : Dict K V) : TableId → Nat → List (List (DictEntry K V))
  | .ht0, i => d.ht0.table.drop i ++ d.ht1.table
  | .ht1, i => d.ht1.table.drop i

def entriesFrom (d : Dict K V) (t : TableId) (i : Nat) : List (DictEntry K V) :=
  (chainsFrom d t i).flatten

theorem entriesFrom_zero (d : Dict K V) : entriesFrom d .ht0 0 = dictEntries d :=
  flatten_append

theorem entriesFrom_sublist (d : Dict K V) (t : TableId) (i : Nat) :
    (entriesFrom d t i).Sublist (dictEntries d) := by
  rw [← entriesFrom_zero]
  refine List.Sublist.flatten ?_
  cases t with
  | ht0 => exact (drop_sublist _ _).append_right _
  | ht1 => exact (drop_sublist _ _).trans (sublist_append_right _ _)

theorem chainsFrom_cons (hc : (d.ht t).table[i]? = some c) :
    chainsFrom d t i = c :: chainsFrom d t (i + 1) := by
  obtain ⟨hlt, rfl⟩ := List.getElem?_eq_some_iff.mp hc
  cases t with
  | ht0 => exact congrArg (· ++ d.ht1.table) (drop_eq_getElem_cons hlt)
  | ht1 => exact drop_eq_getElem_cons hlt

theorem entriesFrom_cons (hc : (d.ht t).table[i]? = some c) :
    entriesFrom d t i = c ++ entriesFrom d t (i + 1) := by
  rw [entriesFrom, chainsFrom_cons hc, flatten_cons]
  rfl

/-- The iterator has returned an entry, and what it has still to return is `ahead`. -/
structure Positioned (d : Dict K V) (iter : DictIterator K) (ahead : List (DictEntry K V)) :
    Prop where
  entry : iter.entry.isNull = false
  rehashing : iter.table = .ht1 → d.rehashidx ≠ -1
  place : ∃ (i : Nat) (seen rest : List (DictEntry K V)), iter.index = i ∧
    (d.ht iter.table).table[i]? = some (seen ++ rest) ∧ iter.nextEntry = chainPtr rest ∧
    ahead = rest ++ entriesFrom d iter.table (i + 1)

/-- What `dictNext` returns, given the entries ahead. -/
def Returns (d : Dict K V) (iter : DictIterator K) (r : EntryPtr K) :
    List (DictEntry K V) → Prop
  | [] => r = .null ∧ 0 ≤ iter.index
  | e :: ahead => r = .node e.key ∧ Positioned d iter ahead

theorem entriesFrom_turn (h : DictInv ty d) (hf : DictFits d) (hi : d.ht0.size ≤ i) :
    entriesFrom d .ht0 i = entriesFrom d .ht1 0 := by
  have hlen : d.ht0.table.length = d.ht0.size := h.length_table hf .ht0
  rw [entriesFrom, chainsFrom, drop_of_length_le (by omega)]
  rfl

theorem entriesFrom_end (h : DictInv ty d) (hf : DictFits d) (hi : (d.ht t).size ≤ i)
    (hlast : t = .ht0 → d.rehashidx = -1) : entriesFrom d t i = [] := by
  cases t with
  | ht0 =>
    rw [entriesFrom_turn h hf hi, entriesFrom, chainsFrom, h.idle (hlast rfl)]
    rfl
  | ht1 =>
    have hlen : d.ht1.table.length = d.ht1.size := h.length_table hf .ht1
    have hsize : d.ht1.size ≤ i := hi
    rw [entriesFrom, chainsFrom, drop_of_length_le (by omega)]
    rfl

/-! ## `dictNext` -/

/-- The buckets left for `dictNext` to look at. -/
def bucketsLeft (d : Dict K V) : TableId → Nat → Nat
  | .ht0, i => d.ht0.size - i + d.ht1.size
  | .ht1, i => d.ht1.size - i

theorem dictNextBucket_spec {iter : DictIterator K} (h : DictInv ty d') (hf : DictFits d')
    (hd : (if iter.index = -1 ∧ iter.table = .ht0 then { d with iterators := d.iterators + 1 }
      else d) = d') (hi : iter.index + 1 = i) (hre : iter.table = .ht1 → d'.rehashidx ≠ -1) :
    (∃ iter', dictNextBucket d iter = some (d', iter', true) ∧ 0 ≤ iter'.index ∧
      entriesFrom d' iter.table i = []) ∨
    ∃ (t : TableId) (j : Nat) (c : List (DictEntry K V)), dictNextBucket d iter =
        some (d', { iter with table := t, index := j, entry := chainPtr c }, false) ∧
      (d'.ht t).table[j]? = some c ∧ (t = .ht1 → d'.rehashidx ≠ -1) ∧
      entriesFrom d' iter.table i = entriesFrom d' t j ∧
      bucketsLeft d' t (j + 1) < bucketsLeft d' iter.table i := by
  have hlen := h.length_table hf iter.table
  rw [dictNextBucket]
  simp only [hd, hi, ge_iff_le, Int.ofNat_le, Int.toNat_natCast, Option.bind_eq_bind]
  by_cases hend : (d'.ht iter.table).size ≤ i
  · rw [if_pos hend]
    by_cases hturn : dictIsRehashing d' = true ∧ iter.table = .ht0
    · -- `ht[1]` comes after `ht[0]`
      have hinv := (h.busy (dictIsRehashing_eq_true.mp hturn.1)).2
      have hpos := hinv.size_pos
      have hlt : 0 < d'.ht1.table.length := by
        rw [show d'.ht1.table.length = _ from h.length_table hf .ht1]
        exact hpos
      have hc := getElem?_eq_getElem hlt
      rw [if_pos hturn]
      rw [hturn.2] at hend ⊢
      refine .inr ⟨.ht1, 0, d'.ht1.table[0], by simp [hc], hc, ?_, entriesFrom_turn h hf hend, ?_⟩
      · exact fun _ => dictIsRehashing_eq_true.mp hturn.1
      · simp only [bucketsLeft]
        omega
    · rw [if_neg hturn]
      refine .inl ⟨_, rfl, by simp, entriesFrom_end h hf hend fun ht => ?_⟩
      exact dictIsRehashing_eq_false.mp (by simpa [ht] using hturn)
  · have hlt : i < (d'.ht iter.table).table.length := by omega
    have hc := getElem?_eq_getElem hlt
    rw [if_neg hend]
    refine .inr ⟨iter.table, i, _, by simp [hc], hc, hre, rfl, ?_⟩
    cases ht : iter.table with
    | ht0 =>
      have hsize : ¬d'.ht0.size ≤ i := by rw [ht] at hend; exact hend
      simp only [bucketsLeft]
      omega
    | ht1 =>
      have hsize : ¬d'.ht1.size ≤ i := by rw [ht] at hend; exact hend
      simp only [bucketsLeft]
      omega

/-- Returning the first entry of what is left of a chain. -/
theorem returns_cons (seen : List (DictEntry K V)) (hi : iter.index = i)
    (hc : (d.ht iter.table).table[i]? = some (seen ++ e :: rest))
    (hre : iter.table = .ht1 → d.rehashidx ≠ -1) (hentry : iter.entry = .node e.key) :
    Returns d { iter with nextEntry := chainPtr rest } (.node e.key)
      (e :: (rest ++ entriesFrom d iter.table (i + 1))) :=
  ⟨rfl, by simp only [hentry]; rfl, hre, i, seen ++ [e], rest, hi, by simpa using hc, rfl, rfl⟩

/-- From the end of a chain on, `dictNext` finds the first entry of those that are left. -/
theorem dictNextLoop_spec {fuel : Nat} (h : DictInv ty d') (hf : DictFits d')
    (hnull : iter.entry.isNull = true)
    (hd : (if iter.index = -1 ∧ iter.table = .ht0 then { d with iterators := d.iterators + 1 }
      else d) = d') (hi : iter.index + 1 = i) (hre : iter.table = .ht1 → d'.rehashidx ≠ -1)
    (hfuel : bucketsLeft d' iter.table i < fuel) :
    ∃ iter' r, dictNextLoop ty fuel d iter = some (d', iter', r) ∧
      Returns d' iter' r (entriesFrom d' iter.table i) := by
  induction fuel generalizing d iter i with
  | zero => omega
  | succ fuel ih =>
    rcases dictNextBucket_spec h hf hd hi hre with
      ⟨iter', hbucket, hindex, hnone⟩ | ⟨t, j, c, hbucket, hc, hre', hfrom, hleft⟩
    · refine ⟨iter', .null, by simp [dictNextLoop, hnull, hbucket], ?_⟩
      rw [hnone]
      exact ⟨rfl, hindex⟩
    · rw [hfrom, entriesFrom_cons hc]
      cases c with
      | nil =>
        have hbegun : ¬((j : Int) = -1 ∧ t = .ht0) := by omega
        have hlt : bucketsLeft d' t (j + 1) < fuel := by omega
        have hrest := ih (d := d') (i := j + 1) ⟨t, j, .null, iter.nextEntry⟩ rfl
          (if_neg hbegun) rfl hre' hlt
        obtain ⟨iter', r, hloop, hreturns⟩ := hrest
        refine ⟨iter', r, ?_, hreturns⟩
        simpa [dictNextLoop, hnull, hbucket, chainPtr] using hloop
      | cons e rest =>
        have hnext := entryNext_eq h hf [] hc
        have hreturns := returns_cons
          { iter with table := t, index := j, entry := .node e.key } [] rfl hc hre' rfl
        exact ⟨_, _, by simp [dictNextLoop, hnull, hbucket, chainPtr, hnext], hreturns⟩

/-- The first call: every entry is ahead. -/
theorem dictNext_first (h : DictInv ty d) (hf : DictFits d) :
    ∃ iter r, dictNext ty d dictGetSafeIterator =
        some ({ d with iterators := d.iterators + 1 }, iter, r) ∧
      Returns { d with iterators := d.iterators + 1 } iter r (dictEntries d) := by
  rw [← entriesFrom_zero]
  exact dictNextLoop_spec (d := d) dictGetSafeIterator (i := 0)
    ⟨h.ht0, h.idle, h.busy, h.nonneg, h.passed, h.distinct⟩ hf rfl rfl rfl
    (fun ht => TableId.noConfusion ht) (by simp only [bucketsLeft, dictGetSafeIterator]; omega)

/-- A later call returns the first entry that is ahead, and leaves the dict alone. -/
theorem Positioned.dictNext {iter : DictIterator K} {ahead : List (DictEntry K V)}
    (hpos : Positioned d iter ahead) (h : DictInv ty d) (hf : DictFits d) :
    ∃ iter' r, dictNext ty d iter = some (d, iter', r) ∧ Returns d iter' r ahead := by
  obtain ⟨i, seen, rest, hi, hc, hnext, rfl⟩ := hpos.place
  have hbegun : ¬(iter.index = -1 ∧ iter.table = .ht0) := by omega
  cases rest with
  | nil =>
    have hle : bucketsLeft d iter.table (i + 1) < d.ht0.size + d.ht1.size + 1 := by
      cases iter.table <;> simp only [bucketsLeft] <;> omega
    obtain ⟨iter', r, hloop, hreturns⟩ := dictNextLoop_spec (d := d) (i := i + 1)
      { iter with entry := .null } h hf rfl (if_neg hbegun) (by simp [hi])
      hpos.rehashing hle
    refine ⟨iter', r, ?_, hreturns⟩
    simpa [Redis.dictNext, dictNextLoop, hpos.entry, hnext, chainPtr] using hloop
  | cons e rest =>
    have hreturns := returns_cons { iter with entry := .node e.key } seen hi hc
      hpos.rehashing rfl
    refine ⟨_, _, ?_, hreturns⟩
    simp [Redis.dictNext, dictNextLoop, hpos.entry, hnext, chainPtr, entryNext_eq h hf seen hc]

end Redis
