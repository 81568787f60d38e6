import Mathlib.Data.Nat.Bitwise

/-!
# Redis.Dict

The hash table of `dict.c`: two chained tables, incremental rehashing from
`ht[0]` to `ht[1]`, and the operations that move buckets as a side effect.

A chain is a list of entries, a table the list of its chains, and an entry
pointer the place of the entry (`DictEntryRef`).  Every operation returns
`Option`: `none` is a failed `assert` or an access outside the allocated
table, so that "no fault" is a statement about the code and not a
convention of the model.

Machine integers are written out where the code depends on their width:
`_dictKeyIndex` returns its bucket index as an `int`, `dictResize` stores
`used` in an `int`, and the allocation of a table multiplies its size by
the size of a pointer in 64 bits.
-/

namespace Redis

/-- `LONG_MAX` of a 64-bit platform. -/
def LONG_MAX : Nat := 2 ^ 63 - 1

def dictHtInitialSize : Nat := 4

def dictForceResizeRatio : Nat := 5

/-- Conversion of an unsigned value to `int`. -/
def toInt32 (n : Nat) : Int := (BitVec.ofNat 32 n).toInt

/-- The functions of a `dictType` the table itself uses.  `keyCompare` is an
equality on keys and the hash respects it. -/
structure DictType (K : Type) where
  hashFunction : K → UInt32
  keyCompare : K → K → Bool
  keyCompare_refl : ∀ k, keyCompare k k = true
  keyCompare_symm : ∀ k l, keyCompare k l = true → keyCompare l k = true
  keyCompare_trans : ∀ k l m, keyCompare k l = true → keyCompare l m = true →
    keyCompare k m = true
  hashFunction_congr : ∀ k l, keyCompare k l = true → hashFunction k = hashFunction l

structure DictEntry (K V : Type) where
  key : K
  v : V
deriving DecidableEq, Repr

structure Dictht (K V : Type) where
  table : List (List (DictEntry K V))
  size : Nat
  sizemask : Nat
  used : Nat
deriving DecidableEq, Repr

structure Dict (K V : Type) where
  ht0 : Dictht K V
  ht1 : Dictht K V
  /-- `-1` when no rehash is in progress. -/
  rehashidx : Int
  iterators : Int
deriving DecidableEq, Repr

/-- Which of the two tables of a dict. -/
inductive TableId where
  | ht0
  | ht1
deriving DecidableEq, Repr

/-- A `dictEntry *`: the entry at position `pos` of chain `idx` of a table. -/
structure DictEntryRef where
  table : TableId
  idx : Nat
  pos : Nat
deriving DecidableEq, Repr

variable {K V : Type}

def dictHashKey (ty : DictType K) (key : K) : Nat := (ty.hashFunction key).toNat

/-- `_dictReset`: no table at all. -/
def dictReset : Dictht K V := ⟨[], 0, 0, 0⟩

/-- `dictCreate` / `_dictInit`. -/
def dictCreate : Dict K V := ⟨dictReset, dictReset, -1, 0⟩

def dictIsRehashing (d : Dict K V) : Bool := d.rehashidx != -1

def dictSize (d : Dict K V) : Nat := d.ht0.used + d.ht1.used

/-! ## Growing, shrinking and rehashing -/

/-- The doubling loop of `_dictNextPower`; 64 doublings leave no 64-bit size. -/
def dictNextPowerLoop (size : Nat) : (fuel : Nat) → (i : Nat) → Nat
  | 0, i => i
  | fuel + 1, i => if i ≥ size then i else dictNextPowerLoop size fuel (i * 2)

def dictNextPower (size : Nat) : Nat :=
  if size ≥ LONG_MAX then LONG_MAX else dictNextPowerLoop size 64 dictHtInitialSize

/-- The slots `zcalloc(realsize*sizeof(dictEntry*))` provides: the product is
a 64-bit one. -/
def zcallocSlots (realsize : Nat) : Nat := realsize * 8 % 2 ^ 64 / 8

/-- `dictExpand`.  The `Bool` is `DICT_OK`. -/
def dictExpand (d : Dict K V) (size : Nat) : Dict K V × Bool :=
  let realsize := dictNextPower size
  if dictIsRehashing d || d.ht0.used > size then (d, false)
  else if realsize = d.ht0.size then (d, false)
  else
    let n : Dictht K V := ⟨List.replicate (zcallocSlots realsize) [], realsize, realsize - 1, 0⟩
    -- `ht[0].table == NULL`: only a reset table has size 0
    if d.ht0.size = 0 then ({ d with ht0 := n }, true)
    else ({ d with ht1 := n, rehashidx := 0 }, true)

/-- `dictResize`; `canResize` is the global `dict_can_resize`. -/
def dictResize (canResize : Bool) (d : Dict K V) : Dict K V × Bool :=
  if !canResize || dictIsRehashing d then (d, false)
  else
    let minimal := toInt32 d.ht0.used
    let minimal := if minimal < dictHtInitialSize then (dictHtInitialSize : Int) else minimal
    dictExpand d minimal.toNat

/-- Move one entry of a bucket of `ht[0]` to the head of its chain in `ht[1]`. -/
def dictRehashEntry (ty : DictType K) (d : Dict K V) (de : DictEntry K V) : Option (Dict K V) := do
  let h := dictHashKey ty de.key &&& d.ht1.sizemask
  let chain ← d.ht1.table[h]?
  return { d with
    ht0 := { d.ht0 with used := d.ht0.used - 1 }
    ht1 := { d.ht1 with table := d.ht1.table.set h (de :: chain), used := d.ht1.used + 1 } }

/-- Result of skipping the empty buckets: the next non-empty bucket with the
visits left, or the visits ran out at the given `rehashidx`. -/
inductive SkipResult where
  | found (rehashidx emptyVisits : Nat)
  | exhausted (rehashidx : Nat)
deriving DecidableEq, Repr

/-- `while(d->ht[0].table[d->rehashidx] == NULL)` of `dictRehash`.  The loop
is never entered with no visits left. -/
def dictSkipEmpty (table : List (List (DictEntry K V))) :
    (emptyVisits : Nat) → (rehashidx : Nat) → Option SkipResult
  | 0, _ => none
  | emptyVisits + 1, rehashidx => do
    let chain ← table[rehashidx]?
    if chain.isEmpty then
      if emptyVisits = 0 then return .exhausted (rehashidx + 1)
      else dictSkipEmpty table emptyVisits (rehashidx + 1)
    else return .found rehashidx (emptyVisits + 1)

/-- The end of `dictRehash`: swap the tables once `ht[0]` is empty.  The
`Bool` is the return value, true while there is more to rehash. -/
def dictRehashFinish (d : Dict K V) : Dict K V × Bool :=
  if d.ht0.used = 0 then
    ({ d with ht0 := d.ht1, ht1 := dictReset, rehashidx := -1 }, false)
  else (d, true)

/-- Move the bucket at `rehashidx`, which is not empty, and step over it. -/
def dictMoveBucket (ty : DictType K) (d : Dict K V) (rehashidx : Nat) : Option (Dict K V) := do
  let chain ← d.ht0.table[rehashidx]?
  let d ← chain.foldlM (dictRehashEntry ty) d
  return { d with
    ht0 := { d.ht0 with table := d.ht0.table.set rehashidx [] }
    rehashidx := rehashidx + 1 }

/-- The main loop of `dictRehash`. -/
def dictRehashLoop (ty : DictType K) :
    (n : Nat) → (emptyVisits : Nat) → Dict K V → Option (Dict K V × Bool)
  | 0, _, d => return dictRehashFinish d
  | n + 1, emptyVisits, d =>
    if d.ht0.used = 0 then return dictRehashFinish d
    -- assert(d->ht[0].size > (unsigned long)d->rehashidx)
    else if d.ht0.size ≤ d.rehashidx.toNat then none
    else do
      match ← dictSkipEmpty d.ht0.table emptyVisits d.rehashidx.toNat with
      | .exhausted i => return ({ d with rehashidx := i }, true)
      | .found i emptyVisits =>
        let d ← dictMoveBucket ty d i
        dictRehashLoop ty n emptyVisits d

/-- `dictRehash`: `n` steps of incremental rehashing. -/
def dictRehash (ty : DictType K) (d : Dict K V) (n : Nat) : Option (Dict K V × Bool) :=
  if !dictIsRehashing d then return (d, false)
  else dictRehashLoop ty n (n * 10) d

def dictRehashStep (ty : DictType K) (d : Dict K V) : Option (Dict K V) :=
  if d.iterators = 0 then (dictRehash ty d 1).map Prod.fst else some d

/-- `if (dictIsRehashing(d)) _dictRehashStep(d)`, the head of every operation. -/
def dictRehashStepIfNeeded (ty : DictType K) (d : Dict K V) : Option (Dict K V) :=
  if dictIsRehashing d then dictRehashStep ty d else some d

def dictExpandIfNeeded (canResize : Bool) (d : Dict K V) : Dict K V × Bool :=
  if dictIsRehashing d then (d, true)
  else if d.ht0.size = 0 then dictExpand d dictHtInitialSize
  else if d.ht0.used ≥ d.ht0.size ∧
      (canResize ∨ d.ht0.used / d.ht0.size > dictForceResizeRatio) then
    dictExpand d (d.ht0.used * 2)
  else (d, true)

/-! ## Searching -/

/-- Walk one chain for `key`. -/
def dictFindInChain (ty : DictType K) (key : K) (chain : List (DictEntry K V)) : Option Nat :=
  chain.findIdx? fun he => ty.keyCompare key he.key

/-- The `for (table = 0; table <= 1; table++)` search that `dictFind`,
`dictGenericDelete` and `_dictKeyIndex` share: `ht[1]` is looked at only
during a rehash. -/
def dictLookup (ty : DictType K) (d : Dict K V) (key : K) : Option (Option DictEntryRef) := do
  let h := dictHashKey ty key
  let idx0 := h &&& d.ht0.sizemask
  let chain0 ← d.ht0.table[idx0]?
  match dictFindInChain ty key chain0 with
  | some pos => return some ⟨.ht0, idx0, pos⟩
  | none =>
    if !dictIsRehashing d then return none
    else
      let idx1 := h &&& d.ht1.sizemask
      let chain1 ← d.ht1.table[idx1]?
      return (dictFindInChain ty key chain1).map fun pos => ⟨.ht1, idx1, pos⟩

def Dict.ht (d : Dict K V) : TableId → Dictht K V
  | .ht0 => d.ht0
  | .ht1 => d.ht1

def Dict.setHt (d : Dict K V) (t : TableId) (ht : Dictht K V) : Dict K V :=
  match t with
  | .ht0 => { d with ht0 := ht }
  | .ht1 => { d with ht1 := ht }

/-- `*entry`. -/
def dictEntryAt (d : Dict K V) (r : DictEntryRef) : Option (DictEntry K V) :=
  (d.ht r.table).table[r.idx]? >>= fun chain => chain[r.pos]?

/-- `dictSetVal(d, entry, val)`. -/
def dictSetVal (d : Dict K V) (r : DictEntryRef) (val : V) : Option (Dict K V) := do
  let ht := d.ht r.table
  let chain ← ht.table[r.idx]?
  let he ← chain[r.pos]?
  return d.setHt r.table
    { ht with table := ht.table.set r.idx (chain.set r.pos { he with v := val }) }

def dictFind (ty : DictType K) (d : Dict K V) (key : K) :
    Option (Dict K V × Option DictEntryRef) := do
  if d.ht0.size = 0 then return (d, none)
  else
    let d ← dictRehashStepIfNeeded ty d
    let r ← dictLookup ty d key
    return (d, r)

def dictFetchValue (ty : DictType K) (d : Dict K V) (key : K) :
    Option (Dict K V × Option V) := do
  let (d, r) ← dictFind ty d key
  match r with
  | none => return (d, none)
  | some r =>
    let he ← dictEntryAt d r
    return (d, some he.v)

/-! ## Adding, replacing and deleting -/

/-- `_dictKeyIndex`: the index is returned as an `int`, `-1` when the key
exists (or when the table cannot be expanded). -/
def dictKeyIndex (ty : DictType K) (canResize : Bool) (d : Dict K V) (key : K) :
    Option (Dict K V × Int) := do
  let (d, ok) := dictExpandIfNeeded canResize d
  if !ok then return (d, -1)
  else
    match ← dictLookup ty d key with
    | some _ => return (d, -1)
    | none =>
      let sizemask := if dictIsRehashing d then d.ht1.sizemask else d.ht0.sizemask
      return (d, toInt32 (dictHashKey ty key &&& sizemask))

/-- `dictAddRaw`.  `junk` is what `zmalloc` left in the value of the new
entry, which the caller is to overwrite. -/
def dictAddRaw (ty : DictType K) (canResize : Bool) (d : Dict K V) (key : K) (junk : V) :
    Option (Dict K V × Option DictEntryRef) := do
  let d ← dictRehashStepIfNeeded ty d
  let (d, index) ← dictKeyIndex ty canResize d key
  if index = -1 then return (d, none)
  -- `ht->table[index]` with a negative index is outside the table
  else if index < 0 then none
  else
    let t := if dictIsRehashing d then TableId.ht1 else TableId.ht0
    let ht := d.ht t
    let chain ← ht.table[index.toNat]?
    let ht := { ht with table := ht.table.set index.toNat (⟨key, junk⟩ :: chain),
                        used := ht.used + 1 }
    return (d.setHt t ht, some ⟨t, index.toNat, 0⟩)

/-- `dictAdd`.  The `Bool` is `DICT_OK`. -/
def dictAdd (ty : DictType K) (canResize : Bool) (d : Dict K V) (key : K) (val : V) :
    Option (Dict K V × Bool) := do
  let (d, entry) ← dictAddRaw ty canResize d key val
  match entry with
  | none => return (d, false)
  | some r =>
    let d ← dictSetVal d r val
    return (d, true)

/-- `dictReplace`: `true` when the key was added from scratch. -/
def dictReplace (ty : DictType K) (canResize : Bool) (d : Dict K V) (key : K) (val : V) :
    Option (Dict K V × Bool) := do
  let (d, ok) ← dictAdd ty canResize d key val
  if ok then return (d, true)
  else
    let (d, entry) ← dictFind ty d key
    -- a NULL entry would be dereferenced
    let r ← entry
    let d ← dictSetVal d r val
    return (d, false)

def dictReplaceRaw (ty : DictType K) (canResize : Bool) (d : Dict K V) (key : K) (junk : V) :
    Option (Dict K V × Option DictEntryRef) := do
  let (d, entry) ← dictFind ty d key
  match entry with
  | some r => return (d, some r)
  | none => dictAddRaw ty canResize d key junk

/-- Unlink the entry from its chain. -/
def dictUnlink (d : Dict K V) (r : DictEntryRef) : Option (Dict K V) := do
  let ht := d.ht r.table
  let chain ← ht.table[r.idx]?
  return d.setHt r.table
    { ht with table := ht.table.set r.idx (chain.eraseIdx r.pos), used := ht.used - 1 }

/-- `dictGenericDelete`, without the destructors.  The `Bool` is `DICT_OK`. -/
def dictDelete (ty : DictType K) (d : Dict K V) (key : K) : Option (Dict K V × Bool) := do
  if d.ht0.size = 0 then return (d, false)
  else
    let d ← dictRehashStepIfNeeded ty d
    match ← dictLookup ty d key with
    | none => return (d, false)
    | some r =>
      let d ← dictUnlink d r
      return (d, true)

end Redis
