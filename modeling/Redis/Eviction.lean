import Mathlib
import Redis.Window

/-!
# Redis.Eviction

The eviction pool of `redis.c`: sixteen keys with the idle times that were seen when they were
sampled.  `evictionPoolPopulate` puts samples into it in ascending order, and `freeMemoryIfNeeded`
takes its victims from the right.

The pool is sixteen slots of a memory that goes on at both sides, so that a write beside the pool is
one that can be seen.
-/

namespace Redis.Eviction

open Window List Option
open Function (update)

variable {K : Type*}

/-! ## The model -/

def REDIS_EVICTION_POOL_SIZE : Nat := 16

/-- `struct evictionPoolEntry`; a null pointer is no key. -/
structure PoolEntry (K : Type*) where
  idle : Nat
  key : Option K

/-- The memory around the pool, by the distance from `pool` in entries. -/
abbrev Memory (K : Type*) := Int → PoolEntry K

/-- `memmove(pool+dst,pool+src,sizeof(pool[0])*n)`, where the number of bytes is a `size_t`. -/
def memmove (dst src n : Int) (m : Memory K) : Memory K := fun i =>
  if dst ≤ i ∧ i < dst + n % 2 ^ 60 then m (i - dst + src) else m i

/-- `evictionPoolAlloc`, into memory that holds anything. -/
def evictionPoolAlloc (m : Memory K) : Memory K := fun i =>
  if 0 ≤ i ∧ i < REDIS_EVICTION_POOL_SIZE then ⟨0, none⟩ else m i

/-- The index at which the first loop of `evictionPoolPopulate` stops, with the number of slots that
are left. -/
def insertIndex (m : Memory K) (idle : Nat) : Nat → Int → Int
  | 0, k => k
  | slots + 1, k =>
    if (m k).key.isSome ∧ (m k).idle < idle then insertIndex m idle slots (k + 1) else k

/-- One turn of `evictionPoolPopulate`. -/
def insert (m : Memory K) (key : K) (idle : Nat) : Memory K :=
  let k := insertIndex m idle REDIS_EVICTION_POOL_SIZE 0
  let last : Int := REDIS_EVICTION_POOL_SIZE - 1
  if k = 0 ∧ (m last).key.isSome then m
  else if k < REDIS_EVICTION_POOL_SIZE ∧ (m k).key.isNone then
    update m k ⟨idle, some key⟩
  else if (m last).key.isNone then
    update (memmove (k + 1) k (REDIS_EVICTION_POOL_SIZE - k - 1) m) k ⟨idle, some key⟩
  else
    let k := k - 1
    update (memmove 0 1 k m) k ⟨idle, some key⟩

/-- `evictionPoolPopulate`, with the keys that `dictGetSomeKeys` returns and what
`estimateObjectIdleTime` says of their values. -/
def evictionPoolPopulate (samples : List (K × Nat)) (m : Memory K) : Memory K :=
  samples.foldl (fun m sample => insert m sample.1 sample.2) m

/-- `pool[k]` is removed. -/
def removeSlot (k : Int) (m : Memory K) : Memory K :=
  update (memmove k (k + 1) (REDIS_EVICTION_POOL_SIZE - k - 1) m)
    (REDIS_EVICTION_POOL_SIZE - 1) ⟨0, none⟩

/-- The loop of `freeMemoryIfNeeded` over the pool, from the slot `k - 1` down.  `inDict` says of a
key whether `dictFind` finds it. -/
def selectFrom (inDict : K → Bool) : Nat → Memory K → Option K × Memory K
  | 0, m => (none, m)
  | k + 1, m =>
    match (m k).key with
    | none => selectFrom inDict k m
    | some key =>
      let m := removeSlot k m
      if inDict key then (some key, m) else selectFrom inDict k m

/-- The loop over the whole pool. -/
def selectVictim (inDict : K → Bool) (m : Memory K) : Option K × Memory K :=
  selectFrom inDict REDIS_EVICTION_POOL_SIZE m

/-- The key and the idle time of a slot that is not empty. -/
def PoolEntry.entry (e : PoolEntry K) : Option (K × Nat) := e.key.map (·, e.idle)

/-- The entries of the pool, from left to right. -/
def entries (m : Memory K) : List (K × Nat) :=
  (range REDIS_EVICTION_POOL_SIZE).filterMap fun i => (m i).entry

/-- The pool holds a list, and nothing behind it. -/
structure Holds (l : List (K × Nat)) (m : Memory K) : Prop where
  length : l.length ≤ REDIS_EVICTION_POOL_SIZE
  slots : ∀ i : Nat, i < REDIS_EVICTION_POOL_SIZE → (m i).entry = l[i]?

/-- Two memories are the same beside the pool. -/
def SameBeside (m m' : Memory K) : Prop :=
  ∀ i : Int, ¬ (0 ≤ i ∧ i < REDIS_EVICTION_POOL_SIZE) → m' i = m i

variable {α : Type*} {l : List (K × Nat)} {m m₀ : Memory K} {inDict : K → Bool}

variable {dst i n src : Int} {e : K × Nat} {key : K}

theorem memmove_of_mem (m : Memory K) (hi : dst ≤ i) (hin : i < dst + n) (hn : n < 2 ^ 60) :
    memmove dst src n m i = m (i - dst + src) :=
  if_pos ⟨hi, by rwa [Int.emod_eq_of_lt (by omega) hn]⟩

theorem memmove_of_not_mem (m : Memory K) (hi : ¬ (dst ≤ i ∧ i < dst + n)) (h0 : 0 ≤ n)
    (hn : n < 2 ^ 60) : memmove dst src n m i = m i :=
  if_neg (by rwa [Int.emod_eq_of_lt h0 hn])

theorem filterMap_range_getElem? (l : List α) (n : Nat) :
    (range n).filterMap (fun i => l[i]?) = l.take n := by
  induction n with
  | zero => rfl
  | succ n ih =>
    rw [range_succ, filterMap_append, ih, take_add_one]
    cases h : l[n]? <;> simp [h]

theorem Holds.entries_eq (h : Holds l m) : entries m = l := by
  have hslots : (range REDIS_EVICTION_POOL_SIZE).filterMap (fun i => (m i).entry) =
      (range REDIS_EVICTION_POOL_SIZE).filterMap (fun i => l[i]?) :=
    filterMap_congr fun i hi => h.slots i (mem_range.mp hi)
  rw [entries, hslots, filterMap_range_getElem?, take_of_length_le h.length]

theorem Holds.key_isSome_iff (h : Holds l m) {i : Nat} (hi : i < REDIS_EVICTION_POOL_SIZE) :
    (m i).key.isSome ↔ i < l.length := by
  have hsome : (m i).key.isSome = l[i]?.isSome := by
    rw [← h.slots i hi, PoolEntry.entry, isSome_map]
  rw [hsome]
  simp

theorem Holds.idle_eq (h : Holds l m) {i : Nat} (hi : i < l.length) : (m i).idle = l[i].2 := by
  have hslot := h.slots i (hi.trans_le h.length)
  rw [getElem?_eq_getElem hi, PoolEntry.entry, map_eq_some_iff] at hslot
  obtain ⟨key, -, hentry⟩ := hslot
  rw [← hentry]

/-! ## Insertion -/

def insertEntry (l : List (K × Nat)) (e : K × Nat) : List (K × Nat) :=
  l.insertIdx (l.takeWhile (·.2 < e.2)).length e

theorem Holds.insertIndex_eq (h : Holds l m) (idle slots k : Nat)
    (hk : k + slots = REDIS_EVICTION_POOL_SIZE) :
    insertIndex m idle slots k = (k + ((l.drop k).takeWhile (·.2 < idle)).length : Nat) := by
  induction slots generalizing k with
  | zero =>
    rw [insertIndex, drop_eq_nil_of_le (by have := h.length; omega)]
    rfl
  | succ slots ih =>
    rw [insertIndex]
    by_cases hkl : k < l.length
    · have hsome : (m k).key.isSome := (h.key_isSome_iff (by omega)).mpr hkl
      rw [h.idle_eq hkl, drop_eq_getElem_cons hkl, takeWhile_cons]
      by_cases hlt : l[k].2 < idle
      · have := ih (k + 1) (by omega)
        push_cast at this
        rw [if_pos ⟨hsome, hlt⟩, this, decide_eq_true hlt]
        simp only [if_true, length_cons]
        omega
      · rw [if_neg (fun hc => hlt hc.2), decide_eq_false hlt]
        simp
    · rw [if_neg (fun hc => hkl ((h.key_isSome_iff (by omega)).mp hc.1)),
        drop_eq_nil_of_le (by omega)]
      rfl

theorem entry_update (m : Memory K) (k : Int) (key : K) (idle : Nat) (i : Int) :
    (update m k ⟨idle, some key⟩ i).entry =
      if i = k then some (key, idle) else (m i).entry := by
  rw [Function.update_apply]
  split <;> rfl

theorem not_isSome_of_isNone {o : Option α} (h : o.isNone) : ¬ o.isSome := by
  rw [isNone_iff_eq_none] at h
  simp [h]

theorem length_takeWhile_le (p : α → Bool) (l : List α) :
    (l.takeWhile p).length ≤ l.length := (takeWhile_sublist p).length_le

theorem Holds.insertIndex_zero (h : Holds l m) (idle : Nat) :
    insertIndex m idle REDIS_EVICTION_POOL_SIZE 0 = (l.takeWhile (·.2 < idle)).length := by
  simpa using h.insertIndex_eq idle REDIS_EVICTION_POOL_SIZE 0 (Nat.zero_add _)

/-- Where the pool has room, the new entry gets it. -/
theorem Holds.insert_of_lt (h : Holds l m) (key : K) (idle : Nat)
    (hl : l.length < REDIS_EVICTION_POOL_SIZE) :
    Holds (insertEntry l (key, idle)) (insert m key idle) ∧ SameBeside m (insert m key idle) := by
  have hsize : REDIS_EVICTION_POOL_SIZE = 16 := rfl
  have hp := length_takeWhile_le (·.2 < idle) l
  have hlast : ¬ (m (REDIS_EVICTION_POOL_SIZE - 1 : Int)).key.isSome := fun hc =>
    absurd ((h.key_isSome_iff (i := 15) (by decide)).mp hc) (by omega)
  have hsome := h.key_isSome_iff (i := (l.takeWhile (·.2 < idle)).length) (by omega)
  simp only [insert, h.insertIndex_zero, insertEntry]
  rw [if_neg fun hc => hlast hc.2]
  generalize (l.takeWhile (·.2 < idle)).length = p at *
  obtain rfl | hlt := hp.eq_or_lt
  · rw [if_pos ⟨by omega, by simpa using hsome⟩]
    refine ⟨⟨by grind, fun i hi => ?_⟩, fun i hi => Function.update_of_ne (by omega) _ _⟩
    rw [entry_update, getElem?_insertIdx, h.slots i hi]
    grind
  · rw [if_neg fun hc => not_isSome_of_isNone hc.2 (hsome.mpr hlt), if_pos (by simpa using hlast)]
    refine ⟨⟨by grind, fun i hi => ?_⟩, fun i hi => ?_⟩
    · rw [entry_update, getElem?_insertIdx]
      obtain hip | rfl | hip := lt_trichotomy i p
      · rw [if_neg (by omega), if_pos hip, memmove_of_not_mem _ (by omega) (by omega) (by omega),
          h.slots i hi]
      · rw [if_pos rfl, if_neg (by omega), if_pos rfl, if_pos hlt.le]
      · have hsrc : (i : Int) - (p + 1) + p = (i - 1 : Nat) := by omega
        rw [if_neg (by omega), if_neg (by omega), if_neg (by omega),
          memmove_of_mem _ (by omega) (by omega) (by omega), hsrc, h.slots (i - 1) (by omega)]
    · rw [Function.update_of_ne (by omega), memmove_of_not_mem _ (by omega) (by omega) (by omega)]

/-- Where it has none, the smallest goes, which may be the new entry itself. -/
theorem Holds.insert_of_eq (h : Holds l m) (key : K) (idle : Nat)
    (hl : l.length = REDIS_EVICTION_POOL_SIZE) :
    Holds (insertEntry l (key, idle)).tail (insert m key idle) ∧
      SameBeside m (insert m key idle) := by
  have hsize : REDIS_EVICTION_POOL_SIZE = 16 := rfl
  have hp := length_takeWhile_le (·.2 < idle) l
  have hlast : (m (REDIS_EVICTION_POOL_SIZE - 1 : Int)).key.isSome :=
    (h.key_isSome_iff (i := 15) (by decide)).mpr (by omega)
  have hsome (hp' : (l.takeWhile (·.2 < idle)).length < REDIS_EVICTION_POOL_SIZE) :=
    (h.key_isSome_iff hp').mpr (by omega)
  simp only [insert, h.insertIndex_zero, insertEntry]
  generalize (l.takeWhile (·.2 < idle)).length = p at *
  obtain rfl | hpos := Nat.eq_zero_or_pos p
  · rw [if_pos ⟨rfl, hlast⟩]
    exact ⟨h, fun _ _ => rfl⟩
  · rw [if_neg (by omega), if_neg fun hc => not_isSome_of_isNone hc.2 (hsome (by omega)),
      if_neg fun hc => not_isSome_of_isNone hc hlast]
    refine ⟨⟨by grind, fun i hi => ?_⟩, fun i hi => ?_⟩
    · rw [entry_update, getElem?_tail, getElem?_insertIdx]
      obtain hip | hip | hip := lt_trichotomy (i + 1) p
      · have hsrc : (i : Int) - 0 + 1 = (i + 1 : Nat) := by omega
        rw [if_neg (by omega), if_pos hip, memmove_of_mem _ (by omega) (by omega) (by omega), hsrc,
          h.slots (i + 1) (by omega)]
      · rw [if_pos (by omega), if_neg (by omega), if_pos hip, if_pos (by omega)]
      · rw [if_neg (by omega), if_neg (by omega), if_neg (by omega),
          memmove_of_not_mem _ (by omega) (by omega) (by omega), h.slots i hi, Nat.add_sub_cancel]
    · rw [Function.update_of_ne (by omega), memmove_of_not_mem _ (by omega) (by omega) (by omega)]

/-- A turn of `evictionPoolPopulate` keeps the sixteen entries with the largest idle times. -/
theorem Holds.insert (h : Holds l m) (key : K) (idle : Nat) :
    Holds ((insertEntry l (key, idle)).rtake REDIS_EVICTION_POOL_SIZE) (insert m key idle) ∧
      SameBeside m (Eviction.insert m key idle) := by
  have hlength : (insertEntry l (key, idle)).length = l.length + 1 :=
    length_insertIdx_of_le_length (length_takeWhile_le _ _) _
  obtain hl | hl := h.length.lt_or_eq
  · rw [rtake_of_length_le (by omega)]
    exact h.insert_of_lt key idle hl
  · rw [rtake, hlength, hl, Nat.add_sub_cancel_left, drop_one]
    exact h.insert_of_eq key idle hl

theorem insertEntry_idles (l : List (K × Nat)) (e : K × Nat) :
    (insertEntry l e).map Prod.snd = (l.map Prod.snd).orderedInsert (· ≤ ·) e.2 := by
  rw [insertEntry, map_insertIdx, orderedInsert_eq_insertIdx, takeWhile_map,
    length_map]
  rfl

/-- The list behind a population. -/
def keepLargest (samples l : List (K × Nat)) : List (K × Nat) :=
  samples.foldl (fun l e => (insertEntry l e).rtake REDIS_EVICTION_POOL_SIZE) l

theorem Holds.evictionPoolPopulate (h : Holds l m) (samples : List (K × Nat)) :
    Holds (keepLargest samples l) (evictionPoolPopulate samples m) ∧
      SameBeside m (Eviction.evictionPoolPopulate samples m) := by
  induction samples generalizing l m with
  | nil => exact ⟨h, fun _ _ => rfl⟩
  | cons e samples ih =>
    obtain ⟨h₁, hbeside₁⟩ := h.insert e.1 e.2
    obtain ⟨h₂, hbeside₂⟩ := ih h₁
    exact ⟨h₂, fun i hi => (hbeside₂ i hi).trans (hbeside₁ i hi)⟩

theorem keepLargest_idles (samples l : List (K × Nat)) :
    (keepLargest samples l).map Prod.snd = (samples.map Prod.snd).foldl
      (fun l a => (l.orderedInsert (· ≤ ·) a).rtake REDIS_EVICTION_POOL_SIZE) (l.map Prod.snd) := by
  induction samples generalizing l with
  | nil => rfl
  | cons e samples ih =>
    rw [keepLargest, foldl_cons, ← keepLargest, ih, map_cons, foldl_cons,
      ← insertEntry_idles, rtake, rtake, map_drop, length_map]

/-! ## Selection -/

theorem Holds.removeSlot (h : Holds (l ++ [e]) m) :
    Holds l (removeSlot l.length m) ∧ SameBeside m (Eviction.removeSlot l.length m) := by
  have hsize : REDIS_EVICTION_POOL_SIZE = 16 := rfl
  have hlength := h.length
  rw [length_append, length_singleton] at hlength
  refine ⟨⟨by omega, fun i hi => ?_⟩, fun i hi => ?_⟩
  · rw [Eviction.removeSlot]
    obtain hil | hil := lt_or_ge i l.length
    · rw [Function.update_of_ne (by omega), memmove_of_not_mem _ (by omega) (by omega) (by omega),
        h.slots i hi, getElem?_append_left hil]
    · rw [getElem?_eq_none hil]
      obtain hlast | hlast := Nat.lt_or_ge (i + 1) REDIS_EVICTION_POOL_SIZE
      · have hsrc : (i : Int) - l.length + (l.length + 1) = (i + 1 : Nat) := by omega
        rw [Function.update_of_ne (by omega), memmove_of_mem _ (by omega) (by omega) (by omega),
          hsrc, h.slots (i + 1) hlast, getElem?_eq_none (by simp; omega)]
      · have hi15 : (i : Int) = REDIS_EVICTION_POOL_SIZE - 1 := by omega
        rw [hi15, Function.update_self]
        rfl
  · rw [Eviction.removeSlot, Function.update_of_ne (by omega),
      memmove_of_not_mem _ (by omega) (by omega) (by omega)]

/-- The entries up to the last whose key is found. -/
def withoutGhosts (inDict : K → Bool) (l : List (K × Nat)) : List (K × Nat) :=
  l.rdropWhile fun e => !inDict e.1

theorem Holds.selectFrom (h : Holds l m) (inDict : K → Bool) {k : Nat} (hl : l.length ≤ k)
    (hk : k ≤ REDIS_EVICTION_POOL_SIZE) :
    (selectFrom inDict k m).1 = (withoutGhosts inDict l).getLast?.map Prod.fst ∧
      Holds (withoutGhosts inDict l).dropLast (Eviction.selectFrom inDict k m).2 ∧
      SameBeside m (Eviction.selectFrom inDict k m).2 := by
  induction k generalizing l m with
  | zero =>
    obtain rfl := length_eq_zero_iff.mp (Nat.le_zero.mp hl)
    exact ⟨rfl, h, fun _ _ => rfl⟩
  | succ k ih =>
    rw [Eviction.selectFrom]
    obtain hlk | hlk := Nat.lt_or_eq_of_le hl
    · have hnone : (m k).key = none := by
        have := (h.key_isSome_iff (i := k) (by omega)).not.mpr (by omega)
        simpa using this
      simp only [hnone]
      exact ih h (by omega) (by omega)
    · obtain ⟨l, e, rfl⟩ : ∃ l' e, l = l' ++ [e] :=
        ⟨_, _, (dropLast_append_getLast (by rintro rfl; simp at hlk)).symm⟩
      obtain rfl : l.length = k := by simpa using hlk
      have hkey : (m l.length).key = some e.1 := by
        have := h.slots l.length (by omega)
        rw [getElem?_append_right le_rfl, Nat.sub_self, getElem?_cons_zero,
          PoolEntry.entry, map_eq_some_iff] at this
        obtain ⟨key, hkey, rfl⟩ := this
        exact hkey
      obtain ⟨hremoved, hbeside⟩ := h.removeSlot
      simp only [hkey]
      by_cases hin : inDict e.1
      · have hkept : withoutGhosts inDict (l ++ [e]) = l ++ [e] := by
          rw [withoutGhosts, rdropWhile_concat_neg _ _ _ (by simpa using hin)]
        rw [if_pos hin, hkept, getLast?_concat, dropLast_concat]
        exact ⟨rfl, hremoved, hbeside⟩
      · have hkept : withoutGhosts inDict (l ++ [e]) = withoutGhosts inDict l := by
          rw [withoutGhosts, rdropWhile_concat_pos _ _ _ (by simpa using hin), withoutGhosts]
        rw [if_neg hin, hkept]
        obtain ⟨hkey', hholds', hbeside'⟩ := ih hremoved le_rfl (by omega)
        exact ⟨hkey', hholds', fun i hi => (hbeside' i hi).trans (hbeside i hi)⟩

/-- Of the entries with a key in the dictionary, the one of `key` has the largest idle time. -/
def Best (inDict : K → Bool) (m : Memory K) (key : K) : Prop :=
  ∃ idle, (key, idle) ∈ entries m ∧ inDict key = true ∧
    ∀ e ∈ entries m, inDict e.1 = true → e.2 ≤ idle

theorem mem_withoutGhosts (he : e ∈ l) (hin : inDict e.1 = true) : e ∈ withoutGhosts inDict l := by
  induction l using reverseRecOn with
  | nil => exact absurd he not_mem_nil
  | append_singleton l last ih =>
    rw [withoutGhosts, rdropWhile_concat]
    split
    · rename_i hghost
      refine ih ((mem_append.mp he).resolve_right fun hlast => ?_)
      rw [mem_singleton.mp hlast] at hin
      simp [hin] at hghost
    · exact he

theorem Holds.best (h : Holds l m) (hsorted : (l.map Prod.snd).Pairwise (· ≤ ·))
    (hkey : (selectVictim inDict m).1 = some key) : Best inDict m key := by
  rw [selectVictim, (h.selectFrom inDict h.length le_rfl).1, map_eq_some_iff] at hkey
  obtain ⟨e, hlast, rfl⟩ := hkey
  obtain ⟨front, hfront⟩ := getLast?_eq_some_iff.mp hlast
  have hpre : withoutGhosts inDict l <+: l := rdropWhile_prefix _ _
  have hin : inDict e.1 = true := by
    have hne : withoutGhosts inDict l ≠ [] := by rw [hfront]; simp
    have hget : (withoutGhosts inDict l).getLast hne = e :=
      Option.some.inj ((getLast?_eq_some_getLast hne).symm.trans hlast)
    have hnot : ¬ (!inDict ((withoutGhosts inDict l).getLast hne).1) = true :=
      rdropWhile_last_not (fun e : K × Nat => !inDict e.1) l hne
    rw [hget] at hnot
    simpa using hnot
  rw [hfront] at hpre
  refine ⟨e.2, ?_, hin, fun e' he' hin' => ?_⟩
  · rw [h.entries_eq]
    exact hpre.subset (by simp)
  · rw [h.entries_eq] at he'
    have hmem : e' ∈ front ++ [e] := hfront ▸ mem_withoutGhosts he' hin'
    have hkept := (hsorted.sublist (hpre.sublist.map Prod.snd))
    rw [map_append, pairwise_append] at hkept
    obtain hf | he := mem_append.mp hmem
    · exact hkept.2.2 e'.2 (mem_map_of_mem hf) e.2 (by simp)
    · rw [mem_singleton.mp he]

/-! ## Runs -/

/-- The memories that populations and choices of victims lead to. -/
inductive Reachable (m₀ : Memory K) : Memory K → Prop where
  | alloc : Reachable m₀ (evictionPoolAlloc m₀)
  | populate {m : Memory K} (samples : List (K × Nat)) (h : Reachable m₀ m) :
      Reachable m₀ (evictionPoolPopulate samples m)
  | select {m : Memory K} (inDict : K → Bool) (h : Reachable m₀ m) :
      Reachable m₀ (selectVictim inDict m).2

/-- The pool of a memory holds a sorted list, and the memory beside it is as it was. -/
structure Inv (m₀ m : Memory K) (l : List (K × Nat)) : Prop where
  holds : Holds l m
  sorted : (l.map Prod.snd).Pairwise (· ≤ ·)
  beside : SameBeside m₀ m

theorem Inv.populate (h : Inv m₀ m l) (samples : List (K × Nat)) :
    Inv m₀ (evictionPoolPopulate samples m) (keepLargest samples l) ∧
      (keepLargest samples l).map Prod.snd =
        ((l.map Prod.snd ++ samples.map Prod.snd).insertionSort (· ≤ ·)).rtake
          REDIS_EVICTION_POOL_SIZE := by
  obtain ⟨hholds, hbeside⟩ := h.holds.evictionPoolPopulate samples
  have hlength : (l.map Prod.snd).length ≤ REDIS_EVICTION_POOL_SIZE := by
    rw [length_map]
    exact h.holds.length
  have hidles : (keepLargest samples l).map Prod.snd =
      ((l.map Prod.snd ++ samples.map Prod.snd).insertionSort (· ≤ ·)).rtake
        REDIS_EVICTION_POOL_SIZE := by
    rw [keepLargest_idles, ← foldl_orderedInsert_rtake h.sorted, rtake_of_length_le hlength]
  refine ⟨⟨hholds, ?_, fun i hi => (hbeside i hi).trans (h.beside i hi)⟩, hidles⟩
  rw [hidles, rtake]
  exact (pairwise_insertionSort _ _).sublist (drop_sublist _ _)

theorem Inv.select (h : Inv m₀ m l) (inDict : K → Bool) :
    Inv m₀ (selectVictim inDict m).2 (withoutGhosts inDict l).dropLast := by
  obtain ⟨-, hholds, hbeside⟩ := h.holds.selectFrom inDict h.holds.length le_rfl
  refine ⟨hholds, h.sorted.sublist (List.Sublist.map _ ?_), fun i hi =>
    (hbeside i hi).trans (h.beside i hi)⟩
  exact (dropLast_sublist _).trans ( rdropWhile_prefix _ _).sublist

theorem Reachable.inv (h : Reachable m₀ m) : ∃ l, Inv m₀ m l := by
  induction h with
  | alloc =>
    refine ⟨[], ⟨Nat.zero_le _, fun i hi => ?_⟩, Pairwise.nil, fun i hi => if_neg hi⟩
    rw [evictionPoolAlloc, if_pos ⟨by omega, by omega⟩]
    rfl
  | populate samples h ih =>
    obtain ⟨l, hl⟩ := ih
    exact ⟨_, (hl.populate samples).1⟩
  | select inDict h ih =>
    obtain ⟨l, hl⟩ := ih
    exact ⟨_, hl.select inDict⟩

end Redis.Eviction
