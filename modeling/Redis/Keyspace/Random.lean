import Mathlib.Order.Monotone.Defs
import Redis.Keyspace.Entries

/-!
# Redis.Keyspace.Random

`RANDOMKEY` picks keys until one of them is not expired.  An expired key is deleted on a master,
so that the picks come to an end; on a replica it stays where it is, and is picked again.
-/

namespace Redis.Keyspace

open List Option

section Random

variable {V : Type} (env : Env) (clock : Nat → Int) (random : Nat → Nat) (d : Nat)

/-- `dictGetRandomKey`: the key of some entry, `NULL` for an empty table. -/
def dictGetRandomKey (dict : SdsDict V) (random : Nat) : Option Key :=
  dict.entries[random % dict.size]?.map Prod.fst

/-- A turn of the loop of `dbRandomKey`: what it returns, or `none` to go on. -/
def randomTurn (random : Nat) : Cmd V (Option (Option Key)) := do
  match dictGetRandomKey ((← get).db d).dict random with
  | none =>
    redisAssert (((← get).db d).dict.size = 0)
    return some none
  | some key =>
    if (((← get).db d).expires.find key).isSome then
      if ← expireIfNeeded env d key then return none
    return some (some key)

/-- The same server at another time. -/
def Env.setNow (now : Int) : Env := { env with now }

/-- `dbRandomKey` from a turn on, for so many turns; each turn looks at the clock.  It returns the
turn in which it ended with its key, and `none` if that is in none of these turns. -/
def dbRandomKey (i : Nat) : (turns : Nat) → Cmd V (Option (Nat × Option Key))
  | 0 => return none
  | turns + 1 => do
    match ← randomTurn (env.setNow (clock i)) d (random i) with
    | some keyobj => return some (i, keyobj)
    | none => dbRandomKey (i + 1) turns

/-- The server before a turn, if all turns were taken. -/
def beforeTurn (s : Server V) : Nat → Option (Server V)
  | 0 => some s
  | i + 1 => do
    let s ← beforeTurn s i
    let r ← (randomTurn (env.setNow (clock i)) d (random i)).run s
    return r.2

def pick (s : Server V) (i : Nat) : Option Key := do
  let s ← beforeTurn env clock random d s i
  dictGetRandomKey (s.db d).dict (random i)

/-- A key that stays present is picked again and again. -/
def FairPicks (s : Server V) : Prop :=
  ∀ key, (∀ i s', beforeTurn env clock random d s i = some s' → ((s'.db d).dict.find key).isSome) →
    ∀ n, ∃ i ≥ n, pick env clock random d s i = some key

/-- The expire time of an entry has passed at a turn. -/
def lateAt (i : Nat) (x : Option (V × Option Int)) : Bool := (env.setNow (clock i)).late x

/-- What may be returned in a turn: `NULL` if and only if every key is expired, or else a key that is
there and not expired. -/
def Right (i : Nat) (D : Dataset V) (keyobj : Option Key) (s' : Server V) : Prop :=
  (keyobj = none ↔ ∀ key, (D d key).isSome → lateAt env clock i (D d key)) ∧
    ∀ key, keyobj = some key →
      ((s'.db d).dict.find key).isSome ∧ (D d key).isSome ∧ lateAt env clock i (D d key) = false

/-- `dbRandomKey` returns after finitely many turns, and what it returns is right. -/
def Answers (s : Server V) (D : Dataset V) : Prop :=
  ∃ turns i keyobj s', (dbRandomKey env clock random d 0 turns).run s = some (some (i, keyobj), s') ∧
    Right env clock d i D keyobj s'

/-- On a replica a key is expired at once, and every key sooner or later. -/
def Stuck (D : Dataset V) : Prop :=
  env.masterhost = true ∧ (∃ key, lateAt env clock 0 (D d key)) ∧
    ∀ key, (D d key).isSome → ∃ i, lateAt env clock i (D d key)

end Random

section Turn

variable {V : Type} {env : Env} {d : Nat} {s : Server V} {D : Dataset V}

theorem represents_setNow (now : Int) :
    Represents (env.setNow now) s D ↔ Represents env s D :=
  ⟨fun h => ⟨h.entries, h.expires, h.slots⟩, fun h => ⟨h.entries, h.expires, h.slots⟩⟩

variable {dict : SdsDict V} {key : Key} {random : Nat}

theorem dictGetRandomKey_eq_none (h : dictGetRandomKey dict random = none) : dict.entries = [] := by
  rw [dictGetRandomKey, map_eq_none_iff, List.getElem?_eq_none_iff] at h
  by_contra hne
  have hpos : 0 < dict.size := length_pos_iff.mpr hne
  exact absurd (Nat.mod_lt random hpos) (Nat.not_lt.mpr h)

theorem isSome_toFun :
    (dict.toFun key).isSome ↔ ∃ e ∈ dict.entries, e.1 = key := Keyed.lookup_isSome_iff

theorem dictGetRandomKey_mem (h : dictGetRandomKey dict random = some key) :
    (dict.toFun key).isSome := by
  obtain ⟨e, he, rfl⟩ := map_eq_some_iff.mp h
  exact isSome_toFun.mpr ⟨e, mem_of_getElem? he, rfl⟩

theorem late_of_expires (h : Represents env s D)
    (hexpires : ¬ ((s.db d).expires.toFun key).isSome) : env.late (D d key) = false := by
  rw [h.expire] at hexpires
  rcases hentry : D d key with _ | ⟨v, _ | when⟩
  · rfl
  · rfl
  · simp [hentry] at hexpires

/-- A turn ends the loop if the database is empty or the key that it picks is not expired. -/
theorem randomTurn_spec (h : Represents env s D) (random : Nat) :
    (s.db d).dict.entries = [] ∧ (randomTurn env d random).run s = some (some none, s) ∨
    ∃ key s', dictGetRandomKey (s.db d).dict random = some key ∧ (D d key).isSome ∧
      (randomTurn env d random).run s =
        some (if env.late (D d key) then none else some (some key), s') ∧
      Represents env s' (settle env D d key) := by
  cases hpick : dictGetRandomKey (s.db d).dict random with
  | none =>
    have hnil := dictGetRandomKey_eq_none hpick
    refine .inl ⟨hnil, ?_⟩
    simp [randomTurn, hpick, redisAssert, Keyed.Table.size, hnil]
  | some key =>
    have hmem : (D d key).isSome := by
      rw [← isSome_map (f := Prod.fst), ← h.dict]
      exact dictGetRandomKey_mem hpick
    by_cases hexpires : ((s.db d).expires.toFun key).isSome
    · obtain ⟨s', hrun, hrep⟩ :
          ∃ s', (expireIfNeeded env d key).run s = some (env.late (D d key), s') ∧
            Represents env s' (settle env D d key) := expireIfNeeded_runs s h
      refine .inr ⟨key, s', rfl, hmem, ?_, hrep⟩
      cases hlate : env.late (D d key) with
      | false =>
        rw [hlate] at hrun
        simp [randomTurn, hpick, hexpires, hrun]
      | true =>
        rw [hlate] at hrun
        simp [randomTurn, hpick, hexpires, hrun]
    · have hlate := late_of_expires h hexpires
      refine .inr ⟨key, s, rfl, hmem, ?_, ?_⟩
      · simp [randomTurn, hpick, hexpires, hlate]
      · rw [settle, Env.expired, hlate]
        exact h

theorem expireIfNeeded_replica (h : Represents env s D) (hm : env.masterhost = true) (key : Key) :
    (expireIfNeeded env d key).run s = some (env.late (D d key), s) := by
  obtain ⟨s', hrun, -⟩ :
      ∃ s', (expireIfNeeded env d key).run s = some (env.late (D d key), s') ∧
        Represents env s' (settle env D d key) := expireIfNeeded_runs s h
  suffices hsame : s' = s by rw [hrun, hsame]
  cases hwhen : (s.db d).expires.toFun key with
  | none =>
    simp [expireIfNeeded, getExpire, hwhen] at hrun
    exact hrun.2.symm
  | some when =>
    have hdict := h.expires d key (by rw [hwhen]; rfl)
    simp only [expireIfNeeded, getExpire, redisAssert, hm] at hrun
    simp [hwhen, hdict] at hrun
    split at hrun
    · exact (congrArg Prod.snd (Option.some.inj hrun)).symm
    · split at hrun
      · exact (congrArg Prod.snd (Option.some.inj hrun)).symm
      · exact (congrArg Prod.snd (Option.some.inj hrun)).symm

theorem randomTurn_replica (h : Represents env s D) (hm : env.masterhost = true)
    (hpick : dictGetRandomKey (s.db d).dict random = some key) :
    (randomTurn env d random).run s =
      some (if env.late (D d key) then none else some (some key), s) := by
  by_cases hexpires : ((s.db d).expires.toFun key).isSome
  · have hrun := expireIfNeeded_replica (d := d) h hm key
    cases hlate : env.late (D d key) with
    | false =>
      rw [hlate] at hrun
      simp [randomTurn, hpick, hexpires, hrun]
    | true =>
      rw [hlate] at hrun
      simp [randomTurn, hpick, hexpires, hrun]
  · have hlate := late_of_expires h hexpires
    simp [randomTurn, hpick, hexpires, hlate]

theorem size_lt {s' : Server V} (h : Represents env s D)
    (h' : Represents env s' (D.set d key none)) (hkey : (D d key).isSome) :
    (s'.db d).dict.size < (s.db d).dict.size := by
  have hmem (k : Key) : k ∈ ((s.db d).dict.entries.map Prod.fst).toFinset ↔
      ((s.db d).dict.toFun k).isSome := by
    rw [isSome_toFun, List.mem_toFinset, List.mem_map]
  have hsize := Keyed.length_eq_card (s.db d).dict.uniq hmem
  have hmem' (k : Key) : k ∈ ((s.db d).dict.entries.map Prod.fst).toFinset.erase key ↔
      ((s'.db d).dict.toFun k).isSome := by
    rw [Finset.mem_erase, hmem, h.dict, h'.dict, Dataset.set_apply]
    by_cases hk : k = key
    · simp [hk]
    · simp [hk]
  have hsize' := Keyed.length_eq_card (s'.db d).dict.uniq hmem'
  have hin : key ∈ ((s.db d).dict.entries.map Prod.fst).toFinset := by
    rw [hmem, h.dict, isSome_map]
    exact hkey
  rw [Keyed.Table.size, Keyed.Table.size, hsize, hsize']
  exact Finset.card_erase_lt_of_mem hin

end Turn

/-! ## Runs -/

section Runs

variable {V : Type} {env : Env} {clock : Nat → Int} {random : Nat → Nat} {d : Nat}

variable {D : Dataset V} {i : Nat} {key : Key} {s s' : Server V}

theorem lateAt_mono (hclock : Monotone clock) {j : Nat} (hij : i ≤ j)
    {x : Option (V × Option Int)} (h : lateAt env clock i x = true) :
    lateAt env clock j x = true := by
  rcases x with _ | ⟨v, _ | when⟩
  · cases h
  · cases h
  · have hle := hclock hij
    simp only [lateAt, Env.setNow, Env.late, Bool.and_eq_true] at h ⊢
    exact ⟨h.1, decide_eq_true (lt_of_lt_of_le (of_decide_eq_true h.2) hle)⟩

variable {D' : Dataset V} {dict : SdsDict V} {turns : Nat}

theorem dbRandomKey_returns {keyobj : Option Key}
    (hturn : (randomTurn (env.setNow (clock i)) d (random i)).run s = some (some keyobj, s')) :
    (dbRandomKey env clock random d i (turns + 1)).run s = some (some (i, keyobj), s') := by
  rw [dbRandomKey, StateT.run_bind, hturn]
  rfl

theorem dbRandomKey_continues
    (hturn : (randomTurn (env.setNow (clock i)) d (random i)).run s = some (none, s')) :
    (dbRandomKey env clock random d i (turns + 1)).run s =
      (dbRandomKey env clock random d (i + 1) turns).run s' := by
  rw [dbRandomKey, StateT.run_bind, hturn]
  rfl

/-! ### On a master -/

/-- The keys that are gone were late when they were deleted. -/
def Deleted (env : Env) (clock : Nat → Int) (d i : Nat) (D D' : Dataset V) : Prop :=
  ∀ key, D' d key = D d key ∨ D' d key = none ∧ lateAt env clock i (D d key) = true

theorem right_some (h : Represents env s' D') (hsome : (D' d key).isSome)
    (heq : D' d key = D d key) (hlate : lateAt env clock i (D d key) = false) :
    Right env clock d i D (some key) s' := by
  refine ⟨iff_of_false (some_ne_none key) fun hall => ?_, ?_⟩
  · have htrue := hall key (heq ▸ hsome)
    rw [hlate] at htrue
    cases htrue
  · rintro _ ⟨⟩
    refine ⟨?_, heq ▸ hsome, hlate⟩
    rw [Keyed.Table.find_eq, sdsType_view, h.dict, isSome_map]
    exact hsome

theorem right_none (h : Represents env s' D') (hnil : (s'.db d).dict.entries = [])
    (hdel : Deleted env clock d i D D') : Right env clock d i D none s' := by
  refine ⟨iff_of_true rfl fun key hsome => ?_, by simp⟩
  have hnone : D' d key = none := by
    have hdict := h.dict d key
    rw [Keyed.Table.toFun, hnil, Keyed.lookup_nil] at hdict
    simpa using hdict.symm
  obtain heq | ⟨-, hlate⟩ := hdel key
  · rw [← heq, hnone] at hsome
    cases hsome
  · exact hlate

theorem master_run (hm : env.masterhost = false) (hclock : Monotone clock) (n : Nat) :
    ∀ (i : Nat) {s : Server V} {D' : Dataset V}, (s.db d).dict.size ≤ n →
      Represents env s D' → Deleted env clock d i D D' →
      ∃ turns j keyobj s',
        (dbRandomKey env clock random d i turns).run s = some (some (j, keyobj), s') ∧
        Right env clock d j D keyobj s' := by
  induction n with
  | zero =>
    intro i s D' hsize h hdel
    have hnil : (s.db d).dict.entries = [] := eq_nil_of_length_eq_zero (Nat.le_zero.mp hsize)
    rcases randomTurn_spec (d := d) ((represents_setNow _).mpr h) (random i) with
      ⟨-, hturn⟩ | ⟨key, s', hpick, -⟩
    · exact ⟨1, i, none, s, dbRandomKey_returns hturn, right_none h hnil hdel⟩
    · simp [dictGetRandomKey, hnil] at hpick
  | succ n ih =>
    intro i s D' hsize h hdel
    rcases randomTurn_spec (d := d) ((represents_setNow _).mpr h) (random i) with
      ⟨hnil, hturn⟩ | ⟨key, s', -, hmem, hturn, hrep⟩
    · exact ⟨1, i, none, s, dbRandomKey_returns hturn, right_none h hnil hdel⟩
    have heq : D' d key = D d key := by
      obtain heq | ⟨hnone, -⟩ := hdel key
      · exact heq
      · rw [hnone] at hmem
        cases hmem
    have hrep := (represents_setNow _).mp hrep
    cases hlate : (env.setNow (clock i)).late (D' d key) with
    | false =>
      rw [hlate] at hturn
      rw [settle, Env.expired, hlate] at hrep
      rw [heq] at hlate
      exact ⟨1, i, some key, s', dbRandomKey_returns hturn, right_some hrep hmem heq hlate⟩
    | true =>
      have hexpired : (env.setNow (clock i)).expired (D' d key) = true := by
        rw [Env.expired, hlate, Env.setNow, hm]
        rfl
      rw [hlate] at hturn
      rw [settle, hexpired, if_pos rfl] at hrep
      rw [heq] at hlate
      have hlt := size_lt h hrep hmem
      have hdel' : Deleted env clock d (i + 1) D (D'.set d key none) := by
        intro key'
        rw [Dataset.set_apply]
        split
        next hkey => exact .inr ⟨rfl, hkey.2 ▸ lateAt_mono hclock (Nat.le_succ i) hlate⟩
        next =>
          obtain heq' | ⟨hnone, hlate'⟩ := hdel key'
          · exact .inl heq'
          · exact .inr ⟨hnone, lateAt_mono hclock (Nat.le_succ i) hlate'⟩
      obtain ⟨turns, j, keyobj, s'', hrun, hright⟩ := ih (i + 1) (by omega) hrep hdel'
      exact ⟨turns + 1, j, keyobj, s'', (dbRandomKey_continues hturn).trans hrun, hright⟩

/-! ### On a replica -/

theorem dictGetRandomKey_isSome (h : dict.entries ≠ []) (random : Nat) :
    ∃ key, dictGetRandomKey dict random = some key := by
  have hpos : 0 < dict.size := length_pos_iff.mpr h
  have hlt : random % dict.size < dict.entries.length := Nat.mod_lt random hpos
  exact ⟨_, by rw [dictGetRandomKey, getElem?_eq_getElem hlt, map_some]⟩

theorem replica_turn (h : Represents env s D) (hm : env.masterhost = true)
    (hpick : dictGetRandomKey (s.db d).dict (random i) = some key) :
    (randomTurn (env.setNow (clock i)) d (random i)).run s =
      some (if lateAt env clock i (D d key) then none else some (some key), s) :=
  randomTurn_replica ((represents_setNow (clock i)).mpr h) hm hpick

/-- A replica looks at the same keys in every turn. -/
theorem beforeTurn_replica (h : Represents env s D) (hm : env.masterhost = true)
    (hne : (s.db d).dict.entries ≠ []) (i : Nat) : beforeTurn env clock random d s i = some s := by
  induction i with
  | zero => rfl
  | succ i ih =>
    obtain ⟨key, hpick⟩ := dictGetRandomKey_isSome hne (random i)
    have hturn : (randomTurn (env.setNow (clock i)) d (random i)).run s = _ :=
      replica_turn h hm hpick
    rw [beforeTurn, ih]
    simp only [some_bind]
    rw [hturn]
    rfl

theorem pick_replica (h : Represents env s D) (hm : env.masterhost = true)
    (hne : (s.db d).dict.entries ≠ []) (i : Nat) :
    pick env clock random d s i = dictGetRandomKey (s.db d).dict (random i) := by
  rw [pick, beforeTurn_replica h hm hne]
  rfl

theorem isSome_of_pick (h : Represents env s D) {r : Nat}
    (hpick : dictGetRandomKey (s.db d).dict r = some key) : (D d key).isSome := by
  have hmem := dictGetRandomKey_mem hpick
  rwa [h.dict, isSome_map] at hmem

/-- A replica ends its loop at the latest when it picks a key that is not expired. -/
theorem replica_run (h : Represents env s D) (hm : env.masterhost = true)
    (hne : (s.db d).dict.entries ≠ []) (n : Nat) :
    ∀ (i : Nat) {key : Key}, dictGetRandomKey (s.db d).dict (random (i + n)) = some key →
      lateAt env clock (i + n) (D d key) = false →
      ∃ turns j keyobj, (dbRandomKey env clock random d i turns).run s =
        some (some (j, keyobj), s) ∧ Right env clock d j D keyobj s := by
  have hends {i : Nat} {key : Key}
      (hpick : dictGetRandomKey (s.db d).dict (random i) = some key)
      (hlate : lateAt env clock i (D d key) = false) :
      ∃ turns j keyobj, (dbRandomKey env clock random d i turns).run s =
        some (some (j, keyobj), s) ∧ Right env clock d j D keyobj s := by
    have hturn : (randomTurn (env.setNow (clock i)) d (random i)).run s = _ :=
      replica_turn h hm hpick
    rw [hlate] at hturn
    exact ⟨1, i, some key, dbRandomKey_returns hturn,
      right_some h (isSome_of_pick h hpick) rfl hlate⟩
  induction n with
  | zero => exact fun i key => hends
  | succ n ih =>
    intro i key hpick hlate
    obtain ⟨first, hfirst⟩ := dictGetRandomKey_isSome hne (random i)
    cases hl : lateAt env clock i (D d first) with
    | false => exact hends hfirst hl
    | true =>
      have hturn : (randomTurn (env.setNow (clock i)) d (random i)).run s = _ :=
        replica_turn h hm hfirst
      rw [hl] at hturn
      have hnext : i + (n + 1) = i + 1 + n := by omega
      rw [hnext] at hpick hlate
      obtain ⟨turns, j, keyobj, hrun, hright⟩ := ih (i + 1) hpick hlate
      exact ⟨turns + 1, j, keyobj, (dbRandomKey_continues hturn).trans hrun, hright⟩

theorem replica_stuck (h : Represents env s D) (hm : env.masterhost = true)
    (hlate : ∀ i, ∃ key, dictGetRandomKey (s.db d).dict (random i) = some key ∧
      lateAt env clock i (D d key) = true) (turns : Nat) :
    ∀ i, (dbRandomKey env clock random d i turns).run s = some (none, s) := by
  induction turns with
  | zero => exact fun i => rfl
  | succ turns ih =>
    intro i
    obtain ⟨key, hpick, hl⟩ := hlate i
    have hturn : (randomTurn (env.setNow (clock i)) d (random i)).run s = _ :=
      replica_turn h hm hpick
    rw [hl] at hturn
    rw [dbRandomKey_continues hturn, ih]

/-- Keys that are late sooner or later are late together. -/
theorem exists_all_late (hclock : Monotone clock) (keys : List Key)
    (hlate : ∀ key ∈ keys, ∃ i, lateAt env clock i (D d key) = true) :
    ∃ i, ∀ key ∈ keys, lateAt env clock i (D d key) = true := by
  induction keys with
  | nil => exact ⟨0, by simp⟩
  | cons key keys ih =>
    obtain ⟨hkey, hkeys⟩ := forall_mem_cons.mp hlate
    obtain ⟨i, hi⟩ := hkey
    obtain ⟨j, hj⟩ := ih hkeys
    refine ⟨max i j, forall_mem_cons.mpr ⟨?_, fun k hk => ?_⟩⟩
    · exact lateAt_mono hclock (Nat.le_max_left i j) hi
    · exact lateAt_mono hclock (Nat.le_max_right i j) (hj k hk)

/-- A key that is there is the pick of some number. -/
theorem exists_pick (h : (dict.toFun key).isSome) :
    ∃ r < dict.size, ∀ q, dictGetRandomKey dict (q * dict.size + r) = some key := by
  obtain ⟨e, he, rfl⟩ := isSome_toFun.mp h
  obtain ⟨r, hr, hget⟩ := mem_iff_getElem.mp he
  refine ⟨r, hr, fun q => ?_⟩
  have hmod : (q * dict.size + r) % dict.size = r := Nat.mul_add_mod_of_lt hr
  rw [dictGetRandomKey, hmod, getElem?_eq_getElem hr, hget, map_some]

theorem isSome_iff (h : Represents env s D) :
    (D d key).isSome ↔ ((s.db d).dict.toFun key).isSome := by
  rw [h.dict, isSome_map]

theorem isSome_of_lateAt (h : lateAt env clock i (D d key) = true) : (D d key).isSome := by
  cases hentry : D d key with
  | none =>
    rw [hentry] at h
    cases h
  | some x => rfl

/-- There are picks that get a stuck replica to go on for ever: an expired key until all keys are
expired, and then all of them in turn. -/
theorem stuck_run (h : Represents env s D) (hclock : Monotone clock)
    (hstuck : Stuck env clock d D) :
    ∃ random, FairPicks env clock random d s ∧
      ∀ turns, (dbRandomKey env clock random d 0 turns).run s = some (none, s) := by
  obtain ⟨hm, ⟨first, hfirst⟩, hevery⟩ := hstuck
  obtain ⟨r, hr, hpick⟩ := exists_pick ((isSome_iff h).mp (isSome_of_lateAt hfirst))
  have hne : (s.db d).dict.entries ≠ [] := length_pos_iff.mp (Nat.zero_lt_of_lt hr)
  obtain ⟨late, hlate⟩ := exists_all_late hclock ((s.db d).dict.entries.map Prod.fst)
    fun key hkey => hevery key ((isSome_iff h).mpr (isSome_toFun.mpr (List.mem_map.mp hkey)))
  refine ⟨fun i => if i < late then r else i, ?_, fun turns => replica_stuck h hm ?_ turns 0⟩
  · intro key hkey n
    have hkey := hkey 0 s rfl
    rw [Keyed.Table.find_eq, sdsType_view] at hkey
    obtain ⟨r', hr', hpick'⟩ := exists_pick hkey
    have hge : max n late ≤ max n late * (s.db d).dict.size + r' :=
      (Nat.le_mul_of_pos_right _ (Nat.zero_lt_of_lt hr')).trans (Nat.le_add_right _ _)
    refine ⟨max n late * (s.db d).dict.size + r', (Nat.le_max_left n late).trans hge, ?_⟩
    rw [pick_replica h hm hne, if_neg (Nat.not_lt.mpr ((Nat.le_max_right n late).trans hge))]
    exact hpick' _
  · intro i
    split
    next =>
      have hzero := hpick 0
      rw [Nat.zero_mul, Nat.zero_add] at hzero
      exact ⟨first, hzero, lateAt_mono hclock (Nat.zero_le i) hfirst⟩
    next hi =>
      obtain ⟨key, hkey⟩ := dictGetRandomKey_isSome hne i
      refine ⟨key, hkey, lateAt_mono hclock (Nat.not_lt.mp hi) (hlate key ?_)⟩
      exact List.mem_map.mpr (isSome_toFun.mp (dictGetRandomKey_mem hkey))

theorem replica_pick (h : Represents env s D) (hm : env.masterhost = true)
    (hne : (s.db d).dict.entries ≠ []) (hfree : ¬ Stuck env clock d D)
    (hfair : FairPicks env clock random d s) :
    ∃ n key, dictGetRandomKey (s.db d).dict (random n) = some key ∧
      lateAt env clock n (D d key) = false := by
  by_cases hfirst : ∃ key, lateAt env clock 0 (D d key)
  · have hnever : ∃ key, (D d key).isSome ∧ ∀ i, lateAt env clock i (D d key) = false := by
      by_contra hall
      refine hfree ⟨hm, hfirst, fun key hsome => ?_⟩
      by_contra hlate
      exact hall ⟨key, hsome, fun i => Bool.eq_false_iff.mpr fun hi => hlate ⟨i, hi⟩⟩
    obtain ⟨key, hsome, hlate⟩ := hnever
    have hstays : ∀ i s', beforeTurn env clock random d s i = some s' →
        ((s'.db d).dict.find key).isSome := by
      intro i s' hs'
      rw [beforeTurn_replica h hm hne] at hs'
      obtain rfl := Option.some.inj hs'
      rw [Keyed.Table.find_eq, sdsType_view]
      exact (isSome_iff h).mp hsome
    obtain ⟨n, -, hn⟩ := hfair key hstays 0
    rw [pick_replica h hm hne] at hn
    exact ⟨n, key, hn, hlate n⟩
  · obtain ⟨key, hkey⟩ := dictGetRandomKey_isSome hne (random 0)
    exact ⟨0, key, hkey, Bool.eq_false_iff.mpr fun hlate => hfirst ⟨key, hlate⟩⟩

theorem replica_answers (h : Represents env s D) (hm : env.masterhost = true)
    (hfree : ¬ Stuck env clock d D) (hfair : FairPicks env clock random d s) :
    Answers env clock random d s D := by
  by_cases hnil : (s.db d).dict.entries = []
  · rcases randomTurn_spec (d := d) ((represents_setNow (clock 0)).mpr h) (random 0) with
      ⟨-, hturn⟩ | ⟨key, s', hpick, -⟩
    · exact ⟨1, 0, none, s, dbRandomKey_returns hturn, right_none h hnil fun key => .inl rfl⟩
    · simp [dictGetRandomKey, hnil] at hpick
  · obtain ⟨n, key, hpick, hlate⟩ := replica_pick h hm hnil hfree hfair
    rw [← Nat.zero_add n] at hpick hlate
    obtain ⟨turns, j, keyobj, hrun, hright⟩ := replica_run h hm hnil n 0 hpick hlate
    exact ⟨turns, j, keyobj, s, hrun, hright⟩

theorem master_answers (h : Represents env s D) (hm : env.masterhost = false)
    (hclock : Monotone clock) : Answers env clock random d s D :=
  master_run hm hclock _ 0 (Nat.le_refl _) h fun _ => .inl rfl

/-- `RANDOMKEY` answers whatever it picks, unless it is stuck on a replica. -/
theorem randomkey_answers_iff {s : Server V} {D : Dataset V} (h : Represents env s D)
    (hclock : Monotone clock) :
    (∀ random, FairPicks env clock random d s → Answers env clock random d s D) ↔
      ¬ Stuck env clock d D := by
  constructor
  · intro hall hstuck
    obtain ⟨random, hfair, hrun⟩ := stuck_run h hclock hstuck
    obtain ⟨turns, i, keyobj, s', hreturns, -⟩ := hall random hfair
    rw [hrun] at hreturns
    cases hreturns
  · intro hfree random hfair
    cases hm : env.masterhost with
    | true => exact replica_answers h hm hfree hfair
    | false => exact master_answers h hm hclock

end Runs

/-! ## A database with one key -/

/-- A server whose first database has one key, with an expire time. -/
def oneKey (when : Int) : Server Unit where
  db n :=
    if n = 0 then
      ⟨⟨[([107], ())], by simp [Keyed.Uniq]⟩, ⟨[([107], when)], by simp [Keyed.Uniq]⟩⟩
    else ⟨.empty, .empty⟩
  slotsToKeys := []

theorem oneKey_entries (when : Int) (key : Key) :
    (oneKey when).entries 0 key = if key = [107] then some ((), some when) else none := by
  simp only [Server.entries, oneKey, Keyed.Table.toFun, Keyed.lookup_cons, Keyed.lookup_nil,
    sdsType_view, if_pos]
  by_cases hkey : key = [107]
  · simp [hkey]
  · simp [hkey, Ne.symm hkey]

theorem oneKey_represents (when now : Int) (masterhost : Bool) :
    Represents ⟨now, false, masterhost, false, 16⟩ (oneKey when) (oneKey when).entries where
  entries := rfl
  expires n key hkey := by
    by_cases hn : n = 0
    · simp only [oneKey, hn, if_pos, Keyed.Table.toFun, Keyed.lookup_cons, Keyed.lookup_nil] at hkey ⊢
      split at hkey
      next hview => rw [if_pos hview]; rfl
      next => cases hkey
    · simp [oneKey, hn] at hkey
  slots h := by cases h

theorem oneKey_not_stuck : ¬ Stuck ⟨10, false, true, false, 16⟩ (fun _ => 10) 0 (oneKey 50).entries := by
  rintro ⟨-, ⟨key, hkey⟩, -⟩
  rw [oneKey_entries] at hkey
  split at hkey
  · cases hkey
  · cases hkey

/-- A replica whose only key is not expired answers. -/
theorem randomkey_answers_unexpired :
    (∀ random, FairPicks ⟨10, false, true, false, 16⟩ (fun _ => 10) random 0 (oneKey 50) →
      Answers ⟨10, false, true, false, 16⟩ (fun _ => 10) random 0 (oneKey 50) (oneKey 50).entries) ∧
    (oneKey 50).entries 0 [107] = some ((), some 50) :=
  ⟨(randomkey_answers_iff (oneKey_represents 50 10 true) monotone_const).mpr oneKey_not_stuck, rfl⟩

/-- A replica whose only key is expired does not answer. -/
theorem randomkey_stuck :
    ∃ random, FairPicks ⟨100, false, true, false, 16⟩ (fun _ => 100) random 0 (oneKey 50) ∧
      ∀ turns, (dbRandomKey ⟨100, false, true, false, 16⟩ (fun _ => 100) random 0 0 turns).run
        (oneKey 50) = some (none, oneKey 50) := by
  refine stuck_run (oneKey_represents 50 100 true) monotone_const ⟨rfl, ⟨[107], rfl⟩, fun key hkey => ?_⟩
  rw [oneKey_entries] at hkey ⊢
  split at hkey
  next h => exact ⟨0, by rw [if_pos h]; rfl⟩
  next => cases hkey

end Redis.Keyspace
