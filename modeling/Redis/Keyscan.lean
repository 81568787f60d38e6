import Redis.Dict.Iterate
import Redis.Util.Glob

/-!
# Redis.Keyscan

`KEYS` and `SCAN` with `MATCH`: the keys of a database by a safe iterator, and by a cursor in calls
that stop when they have seen enough.  Both have a shortcut for the pattern that matches everything.

`none` is a read behind the pattern, or a pointer to a freed entry.  A cursor is handed back as it
was replied.
-/

namespace Redis.Keyscan

open List Option

variable {l keys : List Key} {fuel : Nat} {pattern : Bytes}

/-! ## Databases -/

abbrev Key := Bytes

/-- `dbDictType` with `dictSdsKeyCompare`; the hash function has a random seed. -/
def dbDictType (dictSdsHash : Key → UInt32) : DictType Key where
  hashFunction := dictSdsHash
  keyCompare key1 key2 := decide (key1 = key2)
  keyCompare_refl _ := decide_eq_true rfl
  keyCompare_symm _ _ h := decide_eq_true (of_decide_eq_true h).symm
  keyCompare_trans _ _ _ h h' :=
    decide_eq_true ((of_decide_eq_true h).trans (of_decide_eq_true h'))
  hashFunction_congr _ _ h := congrArg dictSdsHash (of_decide_eq_true h)

/-- The two dicts of a `redisDb`. -/
structure Db (V : Type) where
  dict : Dict Key V
  expires : Dict Key Int

/-- What `expireIfNeeded` reads of the server. -/
structure Env where
  loading : Bool
  masterhost : Bool
  now : Int

variable {V : Type} (ty : DictType Key) (env : Env)

/-- `getExpire`; a key with an expire that is not in the main dict fails the assertion. -/
def getExpire (db : Db V) (key : Key) : Option (Db V × Int) := do
  if dictSize db.expires = 0 then return (db, -1)
  let (expires, de) ← dictFetchValue ty db.expires key
  match de with
  | none => return ({ db with expires := expires }, -1)
  | some time =>
    let (dict, val) ← dictFetchValue ty db.dict key
    if val.isNone then none
    return (⟨dict, expires⟩, time)

def dbDelete (db : Db V) (key : Key) : Option (Db V × Bool) := do
  let expires ←
    if 0 < dictSize db.expires then (dictDelete ty db.expires key).map Prod.fst
    else some db.expires
  let (dict, deleted) ← dictDelete ty db.dict key
  return (⟨dict, expires⟩, deleted)

/-- What `expireIfNeeded` does: the key is kept, or it is expired but not deleted, or deleted. -/
inductive Expiry where
  | kept
  | expired
  | deleted
deriving DecidableEq

def expireIfNeeded (db : Db V) (key : Key) : Option (Db V × Expiry) := do
  let (db, when) ← getExpire ty db key
  if when < 0 then return (db, .kept)
  else if env.loading then return (db, .kept)
  else if env.masterhost then return (db, if env.now > when then .expired else .kept)
  else if env.now ≤ when then return (db, .kept)
  else
    let (db, deleted) ← dbDelete ty db key
    return (db, if deleted then .deleted else .kept)

/-! ## KEYS -/

/-- `pattern[0] == '*' && pattern[1] == '\0'`, where a null byte stands behind the pattern. -/
def allkeys (pattern : Bytes) : Bool :=
  pattern.headD 0 = '*'.toUInt8 ∧ pattern.tail.headD 0 = 0

/-- `allkeys || stringmatchlen(...)`. -/
def keysTest (pattern : Bytes) (key : Key) : Option Bool :=
  if allkeys pattern then some true else stringmatchlen false pattern (some key)

/-- The loop of `keysCommand`, with the keys that are replied. -/
def keysLoop (pattern : Bytes) : (fuel : Nat) → Db V → DictIterator Key → List Key →
    Option (Db V × DictIterator Key × List Key)
  | 0, _, _, _ => none
  | fuel + 1, db, iter, reply => do
    let (dict, iter, de) ← dictNext ty db.dict iter
    let db := { db with dict := dict }
    match de with
    | .node key =>
      if ← keysTest pattern key then
        let (db, expiry) ← expireIfNeeded ty env db key
        let iter := if expiry = .deleted then iter.free ty key else iter
        keysLoop pattern fuel db iter (if expiry = .kept then reply ++ [key] else reply)
      else keysLoop pattern fuel db iter reply
    | _ => return (db, iter, reply)

/-- `keysCommand`.  The loop takes one turn for each entry, and one more. -/
def keysCommand (pattern : Bytes) (db : Db V) : Option (Db V × List Key) := do
  let (db, iter, reply) ←
    keysLoop ty env pattern (dictSize db.dict + 1) db dictGetSafeIterator []
  return ({ db with dict := dictReleaseIterator db.dict iter }, reply)

/-! ## SCAN -/

/-- As many calls of `dictScan` as the tables have buckets, and one more. -/
def scanFuel (db : Db V) : Nat := db.dict.ht0.size + db.dict.ht1.size + 1

/-- The loop of `scanGenericCommand`: the cursor, and the keys of the callback.  `maxiterations` is
a `long`. -/
def scanLoop (dict : Dict Key V) (count : Int) :
    (fuel : Nat) → (maxiterations : Int) → Cursor → List Key → Option (Cursor × List Key)
  | 0, _, _, _ => none
  | fuel + 1, maxiterations, cursor, keys => do
    let (de, cursor) ← dictScan dict cursor
    let keys := keys ++ de.map DictEntry.key
    if cursor ≠ 0 ∧ maxiterations ≠ 0 ∧ keys.length < count then
      scanLoop dict count fuel (maxiterations - 1) cursor keys
    else return (cursor, keys)

/-- The test of an element: there is no pattern if it is exactly `*`. -/
def scanTest (pat : Bytes) (key : Key) : Option Bool :=
  if pat.headD 0 = '*'.toUInt8 ∧ pat.length = 1 then some true
  else stringmatchlen false pat (some key)

/-- The elements that are not filtered out. -/
def scanFilter (pat : Bytes) : List Key → Db V → Option (Db V × List Key)
  | [], db => some (db, [])
  | key :: keys, db => do
    if ← scanTest pat key then
      let (db, expiry) ← expireIfNeeded ty env db key
      let (db, keys) ← scanFilter pat keys db
      return (db, if expiry = .kept then key :: keys else keys)
    else scanFilter pat keys db

/-- `SCAN cursor MATCH pattern COUNT count`: the cursor and the keys of the reply. -/
def scanCommand (pat : Bytes) (count : Int) (cursor : Cursor) (db : Db V) :
    Option (Db V × Cursor × List Key) := do
  let (cursor, keys) ←
    scanLoop db.dict count (scanFuel db) ((count * 10).bmod (2 ^ 64)) cursor []
  let (db, keys) ← scanFilter ty env pat keys db
  return (db, cursor, keys)

/-- Calls of `SCAN` until one replies the cursor 0, with all keys that were replied. -/
def scanIterate (pat : Bytes) (count : Int) :
    (fuel : Nat) → Cursor → Db V → Option (Db V × List Key)
  | 0, _, _ => none
  | fuel + 1, cursor, db => do
    let (db, cursor, keys) ← scanCommand ty env pat count cursor db
    if cursor = 0 then return (db, keys)
    else
      let (db, rest) ← scanIterate pat count fuel cursor db
      return (db, keys ++ rest)

/-! ## Filters -/

/-- The elements that pass a test, if the test can be made for all of them. -/
def select (test : Key → Option Bool) : List Key → Option (List Key)
  | [] => some []
  | key :: keys => do
    let b ← test key
    let rest ← select test keys
    return if b then key :: rest else rest

section Select

variable {test : Key → Option Bool}

theorem select_append (l l' : List Key) :
    select test (l ++ l') = (select test l).bind fun keys => (select test l').map (keys ++ ·) := by
  induction l with
  | nil => simp [select]
  | cons key l ih =>
    rw [cons_append, select, select, ih]
    cases test key with
    | none => rfl
    | some b =>
      cases select test l with
      | none => rfl
      | some keys => cases b <;> cases select test l' <;> rfl

theorem select_of_isSome (h : ∀ key ∈ l, (test key).isSome) :
    select test l = some (l.filter (test · == some true)) := by
  induction l with
  | nil => rfl
  | cons key l ih =>
    obtain ⟨hkey, hl⟩ := forall_mem_cons.mp h
    obtain ⟨b, hb⟩ := isSome_iff_exists.mp hkey
    rw [select, hb, ih hl]
    cases b <;> simp [hb]

theorem isSome_of_select (h : select test l = some keys) : ∀ key ∈ l, (test key).isSome := by
  induction l generalizing keys with
  | nil => exact fun _ hkey => absurd hkey not_mem_nil
  | cons key l ih =>
    obtain ⟨b, hb, h⟩ := bind_eq_some_iff.mp h
    obtain ⟨rest, hrest, -⟩ := bind_eq_some_iff.mp h
    exact forall_mem_cons.mpr ⟨by rw [hb]; rfl, ih hrest⟩

end Select

/-! ## A database without expires -/

section Persistent

variable {ty : DictType Key} {env : Env} {db : Db V}

theorem expireIfNeeded_persistent (hexpires : dictSize db.expires = 0) (key : Key) :
    expireIfNeeded ty env db key = some (db, .kept) := by
  simp [expireIfNeeded, getExpire, hexpires]

variable {dict : Dict Key V} {em : List (DictEntry Key V)} {iter : DictIterator Key} {n : Nat}
  {v : Cursor} (pat : Bytes)

/-- `KEYS` from a call of `dictNext` on, with the entries that are ahead. -/
theorem keysLoop_eq (env : Env) (pattern : Bytes) {iter' : DictIterator Key} {r : EntryPtr Key}
    {ahead : List (DictEntry Key V)} (hexpires : dictSize db.expires = 0) (hinv : DictInv ty dict)
    (hfits : DictFits dict) (hnext : dictNext ty db.dict iter = some (dict, iter', r))
    (hr : Returns dict iter' r ahead) (hfuel : ahead.length < fuel) (reply : List Key) :
    ∃ iter'', 0 ≤ iter''.index ∧ keysLoop ty env pattern fuel db iter reply =
      (select (keysTest pattern) (ahead.map DictEntry.key)).map fun keys =>
        ({ db with dict := dict }, iter'', reply ++ keys) := by
  induction ahead generalizing fuel db iter iter' r reply with
  | nil =>
    obtain ⟨fuel, rfl⟩ : ∃ n, fuel = n + 1 := ⟨fuel - 1, by omega⟩
    obtain ⟨rfl, hindex⟩ := hr
    exact ⟨iter', hindex, by simp [keysLoop, hnext, select]⟩
  | cons e ahead ih =>
    obtain ⟨fuel, rfl⟩ : ∃ n, fuel = n + 1 := ⟨fuel - 1, by omega⟩
    obtain ⟨rfl, hpos⟩ := hr
    obtain ⟨iter₂, r₂, hnext₂, hr₂⟩ := hpos.dictNext hinv hfits
    have hlength : ahead.length < fuel := by simpa using hfuel
    have hexpires' : dictSize { db with dict := dict }.expires = 0 := hexpires
    have htail (reply) := ih hexpires' hnext₂ hr₂ hlength reply
    have hexpiry : expireIfNeeded ty env { db with dict := dict } e.key =
        some ({ db with dict := dict }, .kept) := expireIfNeeded_persistent hexpires' e.key
    cases htest : keysTest pattern e.key with
    | none =>
      obtain ⟨iter'', hindex, -⟩ := htail reply
      exact ⟨iter'', hindex, by simp [keysLoop, hnext, htest, select]⟩
    | some b =>
      obtain ⟨iter'', hindex, hloop⟩ := htail (if b then reply ++ [e.key] else reply)
      refine ⟨iter'', hindex, ?_⟩
      have hturn : keysLoop ty env pattern (fuel + 1) db iter reply =
          keysLoop ty env pattern fuel { db with dict := dict } iter'
            (if b then reply ++ [e.key] else reply) := by
        cases b <;> simp [keysLoop, hnext, htest, hexpiry]
      rw [hturn, hloop, map_cons, select, htest]
      cases select (keysTest pattern) (ahead.map DictEntry.key) with
      | none => rfl
      | some keys => cases b <;> simp

theorem dictReleaseIterator_bumped (h : 0 ≤ iter.index) :
    dictReleaseIterator { dict with iterators := dict.iterators + 1 } iter = dict := by
  rw [dictReleaseIterator, if_neg fun hc => by omega]
  simp

/-- `KEYS` replies the keys that pass its test, and leaves the database as it was. -/
theorem keysCommand_eq (pattern : Bytes) (hexpires : dictSize db.expires = 0)
    (hinv : DictInv ty db.dict) (hfits : DictFits db.dict) :
    keysCommand ty env pattern db =
      (select (keysTest pattern) ((dictEntries db.dict).map DictEntry.key)).map (db, ·) := by
  obtain ⟨iter, r, hnext, hr⟩ := dictNext_first hinv hfits
  have hlength : (dictEntries db.dict).length < dictSize db.dict + 1 := by
    rw [dictSize_eq hinv]
    exact Nat.lt_succ_self _
  obtain ⟨iter'', hindex, hloop⟩ := keysLoop_eq env pattern hexpires
    (show DictInv ty { db.dict with iterators := db.dict.iterators + 1 } from
      ⟨hinv.ht0, hinv.idle, hinv.busy, hinv.nonneg, hinv.passed, hinv.distinct⟩)
    hfits hnext hr hlength []
  rw [keysCommand, hloop]
  cases select (keysTest pattern) ((dictEntries db.dict).map DictEntry.key) with
  | none => rfl
  | some keys =>
    simp only [map_some, bind_pure_comp, Option.map_eq_map, nil_append]
    rw [dictReleaseIterator_bumped hindex]

theorem scanFilter_eq (hexpires : dictSize db.expires = 0) (keys : List Key) :
    scanFilter ty env pat keys db = (select (scanTest pat) keys).map (db, ·) := by
  induction keys with
  | nil => rfl
  | cons key keys ih =>
    rw [scanFilter, select]
    cases scanTest pat key with
    | none => rfl
    | some b =>
      simp only [some_bind, expireIfNeeded_persistent hexpires, ih]
      cases b <;> cases select (scanTest pat) keys <;> rfl

/-- A call of `SCAN` makes one or more of the calls of `dictScan` that are left. -/
theorem scanLoop_split (dict : Dict Key V) (count : Int)
    (hall : dictScanAll dict n v = some (em, n)) (hfuel : n ≤ fuel) (maxiterations : Int)
    (keys : List Key) :
    ∃ em₁ em₂ v', em = em₁ ++ em₂ ∧
      scanLoop dict count fuel maxiterations v keys = some (v', keys ++ em₁.map DictEntry.key) ∧
      (v' = 0 ∧ em₂ = [] ∨ v' ≠ 0 ∧ ∃ m < n, dictScanAll dict m v' = some (em₂, m)) := by
  induction n generalizing fuel v em maxiterations keys with
  | zero => cases hall
  | succ n ih =>
    obtain ⟨fuel, rfl⟩ : ∃ m, fuel = m + 1 := ⟨fuel - 1, by omega⟩
    obtain ⟨⟨de, v₁⟩, hscan, hall⟩ := bind_eq_some_iff.mp hall
    simp only at hall
    split at hall
    · rename_i hv₁
      obtain ⟨rfl, -⟩ := Prod.mk.inj (Option.some.inj hall)
      exact ⟨de, [], v₁, (append_nil de).symm, by simp [scanLoop, hscan, hv₁], .inl ⟨hv₁, rfl⟩⟩
    · rename_i hv₁
      obtain ⟨⟨rest, calls⟩, hrest, hcalls⟩ := bind_eq_some_iff.mp hall
      obtain ⟨rfl, hn⟩ := Prod.mk.inj (Option.some.inj hcalls)
      obtain rfl : calls = n := Nat.succ_inj.mp hn
      have hturn : scanLoop dict count (fuel + 1) maxiterations v keys =
          if v₁ ≠ 0 ∧ maxiterations ≠ 0 ∧ (keys ++ de.map DictEntry.key).length < count then
            scanLoop dict count fuel (maxiterations - 1) v₁ (keys ++ de.map DictEntry.key)
          else some (v₁, keys ++ de.map DictEntry.key) := by
        rw [scanLoop, hscan]
        rfl
      rw [hturn]
      by_cases hgo : v₁ ≠ 0 ∧ maxiterations ≠ 0 ∧
          ((keys ++ de.map DictEntry.key).length : Int) < count
      · obtain ⟨em₁, em₂, v', rfl, hloop, hleft⟩ := ih hrest (Nat.le_of_succ_le_succ hfuel)
          (maxiterations - 1) (keys ++ de.map DictEntry.key)
        refine ⟨de ++ em₁, em₂, v', (append_assoc ..).symm, ?_, ?_⟩
        · rw [if_pos hgo, hloop, map_append, append_assoc]
        · exact hleft.imp_right fun ⟨hv', m, hm, h⟩ => ⟨hv', m, Nat.lt_succ_of_lt hm, h⟩
      · exact ⟨de, rest, v₁, rfl, if_neg hgo, .inr ⟨hv₁, calls, Nat.lt_succ_self _, hrest⟩⟩

/-- The calls of `SCAN` from a cursor on, when the calls of `dictScan` from it pass these entries. -/
theorem scanIterate_eq (count : Int) (hexpires : dictSize db.expires = 0)
    (hall : dictScanAll db.dict n v = some (em, n)) (hn : n ≤ scanFuel db) (hfuel : n ≤ fuel) :
    scanIterate ty env pat count fuel v db =
      (select (scanTest pat) (em.map DictEntry.key)).map (db, ·) := by
  induction fuel generalizing n v em with
  | zero =>
    obtain rfl := Nat.le_zero.mp hfuel
    cases hall
  | succ fuel ih =>
    obtain ⟨em₁, em₂, v', rfl, hloop, hleft⟩ :=
      scanLoop_split db.dict count hall hn ((count * 10).bmod (2 ^ 64)) []
    have hcommand : scanCommand ty env pat count v db =
        (select (scanTest pat) (em₁.map DictEntry.key)).map fun keys => (db, v', keys) := by
      rw [scanCommand, hloop]
      simp only [some_bind, nil_append, scanFilter_eq pat hexpires]
      cases select (scanTest pat) (em₁.map DictEntry.key) <;> rfl
    rw [scanIterate, hcommand, map_append, select_append]
    cases select (scanTest pat) (em₁.map DictEntry.key) with
    | none => rfl
    | some keys =>
      simp only [map_some, some_bind]
      obtain ⟨hv', rfl⟩ | ⟨hv', m, hm, hrest⟩ := hleft
      · simp [hv', select]
      · rw [if_neg hv', ih hrest (by omega) (by omega)]
        cases select (scanTest pat) (em₂.map DictEntry.key) <;> rfl

end Persistent

/-! ## Agreement -/

/-- `KEYS` and an iteration of `SCAN` from the cursor 0 back to 0 reply the same keys, and `KEYS`
replies each of them once. -/
def Agree (ty : DictType Key) (env : Env) (pattern : Bytes) (count : Int) (db : Db V) : Prop :=
  ∃ db₁ keys db₂ scanned,
    keysCommand ty env pattern db = some (db₁, keys) ∧
    scanIterate ty env pattern count (scanFuel db) 0 db = some (db₂, scanned) ∧
    (∀ key, key ∈ keys ↔ key ∈ scanned) ∧ keys.Nodup

/-- The pattern is `*` and nothing else, or it can be matched against every key, and if it is one
that `KEYS` takes for `*` it matches them all. -/
def Regular (pattern : Bytes) (db : Db V) : Prop :=
  pattern = ['*'.toUInt8] ∨
    ∀ e ∈ dictEntries db.dict, ∃ b, stringmatchlen false pattern (some e.key) = some b ∧
      ((∃ rest, pattern = '*'.toUInt8 :: 0 :: rest) → b = true)

theorem allkeys_iff :
    allkeys pattern = true ↔
      pattern = ['*'.toUInt8] ∨ ∃ rest, pattern = '*'.toUInt8 :: 0 :: rest := by
  match pattern with
  | [] => exact iff_of_false (by decide) (by simp)
  | [p] => simp [allkeys]
  | p :: q :: rest => simp [allkeys]

theorem scanTest_of_ne (h : pattern ≠ ['*'.toUInt8]) (key : Key) :
    scanTest pattern key = stringmatchlen false pattern (some key) := by
  refine if_neg fun hc => h ?_
  obtain ⟨p, rfl⟩ := length_eq_one_iff.mp hc.2
  exact congrArg (fun p => [p]) hc.1

theorem select_nodup {test : Key → Option Bool} (h : select test l = some keys) (hl : l.Nodup) :
    keys.Nodup := by
  rw [select_of_isSome (isSome_of_select h)] at h
  exact Option.some.inj h ▸ hl.filter _

/-- The result of a filter, when it has one. -/
theorem mem_of_select {test : Key → Option Bool} (h : select test l = some keys) (key : Key) :
    key ∈ keys ↔ key ∈ l ∧ test key = some true := by
  rw [select_of_isSome (isSome_of_select h)] at h
  rw [← Option.some.inj h, mem_filter, beq_iff_eq]

theorem select_agree_iff (test test' : Key → Option Bool) {l' : List Key} (hl : l.Perm l') :
    (∃ keys scanned, select test l = some keys ∧ select test' l' = some scanned ∧
      ∀ key, key ∈ keys ↔ key ∈ scanned) ↔
    ∀ key ∈ l, ∃ b, test key = some b ∧ test' key = some b := by
  constructor
  · rintro ⟨keys, scanned, hkeys, hscanned, heq⟩ key hkey
    obtain ⟨b, hb⟩ := isSome_iff_exists.mp (isSome_of_select hkeys key hkey)
    obtain ⟨b', hb'⟩ :=
      isSome_iff_exists.mp (isSome_of_select hscanned key (hl.subset hkey))
    have hiff := heq key
    rw [mem_of_select hkeys, mem_of_select hscanned, hb, hb', some_inj, some_inj,
      and_iff_right hkey, and_iff_right (hl.subset hkey)] at hiff
    exact ⟨b, hb, by rw [hb', Bool.eq_iff_iff.mpr hiff]⟩
  · intro h
    have hkeys : ∀ key ∈ l, (test key).isSome := fun key hkey => by
      obtain ⟨b, hb, -⟩ := h key hkey
      rw [hb]
      rfl
    have hscanned : ∀ key ∈ l', (test' key).isSome := fun key hkey => by
      obtain ⟨b, -, hb⟩ := h key (hl.symm.subset hkey)
      rw [hb]
      rfl
    refine ⟨_, _, select_of_isSome hkeys, select_of_isSome hscanned, fun key => ?_⟩
    rw [mem_of_select (select_of_isSome hkeys), mem_of_select (select_of_isSome hscanned),
      ← hl.mem_iff]
    refine and_congr_right fun hkey => ?_
    obtain ⟨b, hb, hb'⟩ := h key hkey
    rw [hb, hb']

/-- When the two tests give the same answer. -/
theorem tests_agree_iff {key : Key} :
    (∃ b, keysTest pattern key = some b ∧ scanTest pattern key = some b) ↔
      pattern = ['*'.toUInt8] ∨ ∃ b, stringmatchlen false pattern (some key) = some b ∧
        ((∃ rest, pattern = '*'.toUInt8 :: 0 :: rest) → b = true) := by
  by_cases hstar : pattern = ['*'.toUInt8]
  · subst hstar
    exact iff_of_true ⟨true, rfl, rfl⟩ (.inl rfl)
  · rw [scanTest_of_ne hstar, or_iff_right hstar]
    by_cases hnul : ∃ rest, pattern = '*'.toUInt8 :: 0 :: rest
    · rw [keysTest, if_pos (allkeys_iff.mpr (.inr hnul))]
      constructor
      · rintro ⟨b, hb, hmatch⟩
        exact ⟨b, hmatch, fun _ => (Option.some.inj hb).symm⟩
      · rintro ⟨b, hmatch, hb⟩
        exact ⟨b, by rw [hb hnul], hmatch⟩
    · have hall : ¬ allkeys pattern = true := fun h => (allkeys_iff.mp h).elim hstar hnul
      rw [keysTest, if_neg hall]
      constructor
      · rintro ⟨b, hb, -⟩
        exact ⟨b, hb, fun h => absurd h hnul⟩
      · rintro ⟨b, hb, -⟩
        exact ⟨b, hb, hb⟩

/-- For every database without expires, in any state of its tables, every pattern and every count:
the two commands agree but for a pattern that starts with a star and a null byte and does not match
every key, and for one that cannot be matched. -/
theorem keys_agree_iff {hash : Key → UInt32} (env : Env) {db : Db V}
    (hinv : DictInv (dbDictType hash) db.dict) (hfits : DictFits db.dict)
    (hexpires : dictSize db.expires = 0) (pattern : Bytes) (count : Int) :
    Agree (dbDictType hash) env pattern count db ↔ Regular pattern db := by
  obtain ⟨em, calls, hcalls, hall, hperm⟩ := dictScanAll_exact hinv hfits
  have hfuel : calls ≤ scanFuel db := by
    rw [hcalls, scanFuel, scanCalls]
    split
    · omega
    · split
      · omega
      · omega
  have hnodup : ((dictEntries db.dict).map DictEntry.key).Nodup := by
    refine Pairwise.map _ (fun e f hef => ?_) hinv.distinct
    exact of_decide_eq_false hef
  have hagree := select_agree_iff (keysTest pattern) (scanTest pattern)
    (hperm.symm.map DictEntry.key)
  simp only [tests_agree_iff, List.forall_mem_map] at hagree
  have hregular : Regular pattern db ↔ ∀ e ∈ dictEntries db.dict, pattern = ['*'.toUInt8] ∨
      ∃ b, stringmatchlen false pattern (some e.key) = some b ∧
        ((∃ rest, pattern = '*'.toUInt8 :: 0 :: rest) → b = true) := by
    by_cases hstar : pattern = ['*'.toUInt8]
    · exact iff_of_true (.inl hstar) fun _ _ => .inl hstar
    · simp only [Regular, hstar, false_or]
  rw [Agree, keysCommand_eq pattern hexpires hinv hfits,
    scanIterate_eq pattern count hexpires hall hfuel hfuel]
  constructor
  · rintro ⟨db₁, keys, db₂, scanned, hkeys, hscanned, heq, -⟩
    obtain ⟨keys', hkeys', hk⟩ := map_eq_some_iff.mp hkeys
    obtain ⟨scanned', hscanned', hs⟩ := map_eq_some_iff.mp hscanned
    obtain ⟨-, rfl⟩ := Prod.mk.inj hk
    obtain ⟨-, rfl⟩ := Prod.mk.inj hs
    exact hregular.mpr (hagree.mp ⟨keys', scanned', hkeys', hscanned', heq⟩)
  · intro h
    obtain ⟨keys, scanned, hkeys, hscanned, heq⟩ := hagree.mpr (hregular.mp h)
    exact ⟨db, keys, db, scanned, by rw [hkeys, map_some], by rw [hscanned, map_some],
      heq, select_nodup hkeys hnodup⟩

/-- A database of the key `a` alone. -/
def oneKeyDb : Db Nat := ⟨⟨⟨[[], [⟨[97], 1⟩], [], []], 4, 3, 1⟩, dictReset, -1, 0⟩, dictCreate⟩

theorem dictInv_oneKeyDb : DictInv (dbDictType fun _ => 1) oneKeyDb.dict := by
  have hb : RunBounded (dbDictType fun _ => 1) (dictCreate : Dict Key Nat)
      [(true, .add [97] 1)] := ⟨fun _ => by decide, fun _ _ _ => trivial⟩
  exact (dictRun_keeps [(true, .add [97] 1)] dictInv_dictCreate hb
    (show _ = some (oneKeyDb.dict, [.status true]) by rfl)).1

theorem entries_oneKeyDb : dictEntries oneKeyDb.dict = [⟨[97], 1⟩] := rfl

/-- `KEYS a*` and `SCAN 0 MATCH a*`. -/
theorem keys_agree_a : Agree (dbDictType fun _ => 1) ⟨false, false, 0⟩
    ['a'.toUInt8, '*'.toUInt8] 10 oneKeyDb := by
  have hmatch : stringmatchlen false ['a'.toUInt8, '*'.toUInt8] (some [97]) = some true := by
    simp +decide [stringmatchlen, matchOne, sameChar, nextChar, unescape, headChar]
  refine (keys_agree_iff ⟨false, false, 0⟩ dictInv_oneKeyDb ⟨by decide, by decide⟩ rfl _ 10).mpr ?_
  rw [Regular, entries_oneKeyDb]
  exact .inr (forall_mem_singleton.mpr ⟨true, hmatch, fun _ => rfl⟩)

/-- The pattern of a star and a null byte: `KEYS` replies the key, and `SCAN` does not. -/
theorem not_agree_starNul : ¬ Agree (dbDictType fun _ => 1) ⟨false, false, 0⟩
    ['*'.toUInt8, 0] 10 oneKeyDb := by
  have hmatch : stringmatchlen false ['*'.toUInt8, 0] (some [97]) = some false := by
    simp +decide [stringmatchlen, matchStar, matchOne, sameChar, nextChar, unescape, headChar]
  have hkeys : keysCommand (dbDictType fun _ => 1) ⟨false, false, 0⟩ ['*'.toUInt8, 0] oneKeyDb =
      _ := keysCommand_eq _ rfl dictInv_oneKeyDb ⟨by decide, by decide⟩
  rw [entries_oneKeyDb] at hkeys
  have hscan : dictScanAll oneKeyDb.dict 4 0 = some ([⟨[97], 1⟩], 4) := rfl
  have hscanned : scanIterate (dbDictType fun _ => 1) ⟨false, false, 0⟩ ['*'.toUInt8, 0] 10
      (scanFuel oneKeyDb) 0 oneKeyDb = _ :=
    scanIterate_eq _ 10 rfl hscan (by decide) (by decide)
  rintro ⟨db₁, keys, db₂, scanned, hk, hs, heq, -⟩
  rw [hkeys] at hk
  rw [hscanned] at hs
  have htest : scanTest ['*'.toUInt8, 0] [97] = some false := hmatch
  obtain rfl : [[97]] = keys := congrArg Prod.snd (Option.some.inj hk)
  simp only [map_cons, map_nil, select, htest, some_bind, Option.pure_def] at hs
  obtain rfl : [] = scanned := congrArg Prod.snd (Option.some.inj hs)
  exact absurd ((heq [97]).mp (mem_singleton.mpr rfl)) not_mem_nil

end Redis.Keyscan
