import Redis.Multi
import Redis.Db.Tracks

/-!
# Redis.Db.Carry

The commands that carry a key to another place: RENAME and RENAMENX to another name, MOVE to
another database.  A key is looked at with all it has, its value and its expire time; every
function of the C-level API changes the entry of one place.
-/

namespace Redis

open Option
open Function (update)

variable {K V C : Type}

/-! ## Entries -/

/-- The value and the expire time of a key. -/
def RedisServer.entry (s : RedisServer K V C) (p : Nat × K) : Option V × Option Int :=
  ((s.db p.1).dict p.2, (s.db p.1).expires p.2)

/-- What decides whether an expired key is deleted, and the number of the databases. -/
structure SameMode (s s' : RedisServer K V C) : Prop where
  loading : s'.loading = s.loading
  masterhost : s'.masterhost = s.masterhost
  clusterEnabled : s'.clusterEnabled = s.clusterEnabled
  dbnum : s'.dbnum = s.dbnum

/-- The expire time of an entry has passed, and this process deletes the key. -/
def RedisServer.lapsed (s : RedisServer K V C) (now : Int) (x : Option V × Option Int) : Bool :=
  match x.2 with
  | none => false
  | some w => 0 ≤ w && !s.loading && !s.masterhost && decide (w < now)

/-- The entry of a key after its expiry was checked. -/
def RedisServer.checked (s : RedisServer K V C) (now : Int) (p : Nat × K) : Option V × Option Int :=
  if s.lapsed now (s.entry p) then (none, none) else s.entry p

section Entries

variable {s s' : RedisServer K V C} {d : Nat} {k : K} {now : Int} {p : Nat × K}

theorem expiresInv_iff [DecidableEq K] [DecidableEq C] :
    ExpiresInv s ↔ ∀ p, (s.entry p).2.isSome → (s.entry p).1.isSome :=
  ⟨fun h p => h p.1 p.2, fun h d k => h (d, k)⟩

theorem checked_congr (hmode : SameMode s s') (hentry : s'.entry p = s.entry p) :
    s'.checked now p = s.checked now p := by
  have hlapsed : s'.lapsed now (s.entry p) = s.lapsed now (s.entry p) := by
    rw [RedisServer.lapsed, hmode.loading, hmode.masterhost, RedisServer.lapsed]
  rw [RedisServer.checked, hentry, hlapsed, RedisServer.checked]

theorem checked_of_isSome (h : (s.checked now p).1.isSome) : s.checked now p = s.entry p := by
  rw [RedisServer.checked] at h ⊢
  split at h
  · cases h
  next hlapsed => rw [if_neg hlapsed]

end Entries

variable [DecidableEq K] [DecidableEq C]

/-! ## The C-level API -/

section Api

variable {s : RedisServer K V C} {d : Nat} {k : K} {now : Int} {v : V} {e : Option Int}

theorem entry_setDb {db : RedisDb K V C} {x : Option V × Option Int}
    (hdict : db.dict = update (s.db d).dict k x.1)
    (hexpires : db.expires = update (s.db d).expires k x.2) :
    (s.setDb d db).entry = update s.entry (d, k) x := by
  funext p
  obtain ⟨d', k'⟩ := p
  simp only [RedisServer.entry, setDb_db, Function.update_apply, Prod.mk.injEq]
  by_cases hd : d' = d
  · subst hd
    by_cases hk : k' = k
    · simp [hdict, hexpires, hk]
    · simp [hdict, hexpires, hk]
  · simp [hd]

theorem dbDelete_entry (s : RedisServer K V C) (d : Nat) (k : K) :
    (dbDelete s d k).1.entry = update s.entry (d, k) (none, none) :=
  entry_setDb rfl rfl

theorem dbAdd_entry (h : s.entry (d, k) = (none, e)) (v : V) :
    ∃ s', dbAdd s d k v = some s' ∧ s'.entry = update s.entry (d, k) (some v, e) ∧
      SameMode s s' := by
  have hnone : (s.db d).dict k = none := congrArg Prod.fst h
  have hwhen : (s.db d).expires k = e := congrArg Prod.snd h
  refine ⟨_, by simp [dbAdd, hnone]; rfl, entry_setDb rfl ?_, rfl, rfl, rfl, rfl⟩
  rw [← hwhen, Function.update_eq_self]

theorem setExpire_entry (h : s.entry (d, k) = (some v, e)) (w : Int) :
    ∃ s', setExpire s d k w = some s' ∧
      s'.entry = update s.entry (d, k) (some v, some w) := by
  have hsome : (s.db d).dict k = some v := congrArg Prod.fst h
  refine ⟨_, by simp [setExpire, hsome]; rfl, entry_setDb ?_ rfl⟩
  rw [← hsome, Function.update_eq_self]

omit [DecidableEq K] [DecidableEq C] in
theorem getExpire_entry (hinv : ExpiresInv s) :
    getExpire s d k = some ((s.entry (d, k)).2.getD (-1)) := by
  have hkey := hinv d k
  rw [getExpire]
  cases hwhen : (s.db d).expires k with
  | none => simp [RedisServer.entry, hwhen]
  | some w =>
    have hstored := hkey (by rw [hwhen]; rfl)
    simp [RedisServer.entry, hwhen, hstored]

/-- The expiry check leaves the entry it has decided on. -/
theorem expireIfNeeded_entry (hinv : ExpiresInv s) (d : Nat) (k : K) (now : Int) :
    ∃ r, expireIfNeeded s d k now = some r ∧
      r.1.entry = update s.entry (d, k) (s.checked now (d, k)) ∧ SameMode s r.1 := by
  have hself : SameMode s s := ⟨rfl, rfl, rfl, rfl⟩
  have hkeep (h : s.lapsed now (s.entry (d, k)) = false) :
      s.entry = update s.entry (d, k) (s.checked now (d, k)) := by
    simp [RedisServer.checked, h]
  simp only [expireIfNeeded, getExpire_entry hinv, bind_eq_bind, bind_some]
  cases hwhen : (s.entry (d, k)).2 with
  | none => exact ⟨_, rfl, hkeep (by simp [RedisServer.lapsed, hwhen]), hself⟩
  | some w =>
    rw [getD_some]
    by_cases hneg : w < 0
    · refine ⟨_, if_pos hneg, hkeep ?_, hself⟩
      simp [RedisServer.lapsed, hwhen, Int.not_le.mpr hneg]
    by_cases hload : s.loading = true
    · refine ⟨_, (if_neg hneg).trans (if_pos hload), hkeep ?_, hself⟩
      simp [RedisServer.lapsed, hwhen, hload]
    rw [if_neg hneg, if_neg hload]
    by_cases hmaster : s.masterhost = true
    · refine ⟨_, if_pos hmaster, hkeep ?_, hself⟩
      simp [RedisServer.lapsed, hwhen, hmaster]
    by_cases hnow : now ≤ w
    · refine ⟨_, (if_neg hmaster).trans (if_pos hnow), hkeep ?_, hself⟩
      simp [RedisServer.lapsed, hwhen, hnow]
    · refine ⟨_, (if_neg hmaster).trans (if_neg hnow), ?_, rfl, rfl, rfl, rfl⟩
      have hlapsed : s.lapsed now (s.entry (d, k)) = true := by
        simp [RedisServer.lapsed, hwhen, hload, hmaster, Int.not_lt.mp hneg, Int.not_le.mp hnow]
      rw [dbDelete_entry, RedisServer.checked, if_pos hlapsed]
      rfl

theorem lookupKeyWrite_entry (hinv : ExpiresInv s) (d : Nat) (k : K) (now : Int) :
    ∃ s', lookupKeyWrite s d k now = some (s', (s.checked now (d, k)).1) ∧
      s'.entry = update s.entry (d, k) (s.checked now (d, k)) ∧ SameMode s s' := by
  obtain ⟨r, hr, hentry, hmode⟩ := expireIfNeeded_entry hinv d k now
  have hstored : r.1.stored d k = (s.checked now (d, k)).1 := by
    have h := congrArg Prod.fst (congrFun hentry (d, k))
    rwa [Function.update_self] at h
  exact ⟨r.1, by simp [lookupKeyWrite, hr, hstored], hentry, hmode⟩

theorem ExpiresInv.checked (hinv : ExpiresInv s) (now : Int) (p : Nat × K) :
    (s.checked now p).2.isSome → (s.checked now p).1.isSome := by
  rw [RedisServer.checked]
  split
  · exact id
  · exact expiresInv_iff.mp hinv p

theorem signalModifiedKey_entry (s : RedisServer K V C) (d : Nat) (k : K) :
    (signalModifiedKey s d k).entry = s.entry := by
  funext p
  rw [RedisServer.entry, signalModifiedKey, (touchWatchedKey_db s d k).1, RedisServer.entry]

end Api

/-! ## Requests that carry a key -/

/-- The places between which a command carries a key, for a client with the database `d`. -/
def Command.places (d : Nat) : Command K V → Option ((Nat × K) × (Nat × K))
  | .rename key newkey _ => some ((d, key), (d, newkey))
  | .move key dbid => some ((d, key), ((dbid.getD 0).toNat, key))
  | _ => none

/-- The reply to such a command when it has succeeded. -/
def Command.carried : Command K V → Reply
  | .rename _ _ false => .ok
  | _ => .int 1

/-- A client may name this database in MOVE. -/
def Command.MayEnter (s : RedisServer K V C) : Command K V → Prop
  | .move _ dbid =>
    s.clusterEnabled = false ∧ ∃ id, dbid = some id ∧ 0 ≤ id ∧ id < s.dbnum ∧ id ≤ 2 ^ 31 - 1
  | _ => True

/-- The destination may be there already. -/
def Command.overwrites : Command K V → Bool
  | .rename _ _ nx => !nx
  | _ => false

/-- What becomes of an expire time: RENAME takes -1 for none, and MOVE forgets it. -/
def Command.carryExpire : Command K V → Option Int → Option Int
  | .rename .., e => e.filter (· ≠ -1)
  | _, _ => none

/-- The state in which a command carries a key from `src` to `dst`. -/
structure Command.Carries (s : RedisServer K V C) (now : Int) (cmd : Command K V)
    (src dst : Nat × K) : Prop where
  enter : cmd.MayEnter s
  ne : src ≠ dst
  there : (s.checked now src).1.isSome
  free : cmd.overwrites = true ∨ (s.checked now dst).1 = none

/-- The entries after a key with an expire time `e` was carried. -/
def carry (E : Nat × K → Option V × Option Int) (src dst : Nat × K) (e : Option Int) :
    Nat × K → Option V × Option Int :=
  update (update E dst ((E src).1, e)) src (none, none)

section Carry

variable {s : RedisServer K V C} {d : Nat} {key newkey : K} {now : Int} {o : V}

/-- A place that was free before or after the check has nothing. -/
theorem checked_eq_none (hinv : ExpiresInv s) {p : Nat × K} (h : (s.checked now p).1 = none) :
    s.checked now p = (none, none) := by
  have hwhen := hinv.checked now p
  rw [h] at hwhen
  exact Prod.ext h (by simpa using hwhen)

theorem setExpire_of_getExpire (e : Option Int) :
    (if e.getD (-1) ≠ -1 then some (e.getD (-1)) else none) = e.filter (· ≠ -1) := by
  cases e with
  | none => rfl
  | some w => simp [Option.filter]

theorem renameKey_entry (h : s.entry (d, newkey) = (none, none)) (key : K) (o : V) (w : Int) :
    ∃ s', renameKey s d key newkey o w = some s' ∧
      s'.entry = update (update s.entry (d, newkey)
        (some o, if w ≠ -1 then some w else none)) (d, key) (none, none) := by
  obtain ⟨s₁, hadd, hentry₁, -⟩ := dbAdd_entry h o
  by_cases hw : w ≠ -1
  · obtain ⟨s₂, hset, hentry₂⟩ :=
      setExpire_entry (s := s₁) (d := d) (k := newkey) (by rw [hentry₁, Function.update_self]) w
    refine ⟨_, by simp [renameKey, hadd, hw, hset]; rfl, ?_⟩
    rw [signalModifiedKey_entry, signalModifiedKey_entry, dbDelete_entry, hentry₂, hentry₁,
      Function.update_idem, if_pos hw]
  · refine ⟨_, by simp [renameKey, hadd, not_not.mp hw]; rfl, ?_⟩
    rw [signalModifiedKey_entry, signalModifiedKey_entry, dbDelete_entry, hentry₁, if_neg hw]

theorem lookupKeyWrite_there (hinv : ExpiresInv s) (h : (s.checked now (d, key)).1 = some o) :
    ∃ s', lookupKeyWrite s d key now = some (s', some o) ∧ s'.entry = s.entry ∧ SameMode s s' := by
  obtain ⟨s', hlookup, hentry, hmode⟩ := lookupKeyWrite_entry hinv d key now
  rw [checked_of_isSome (by rw [h]; rfl), Function.update_eq_self] at hentry
  exact ⟨s', h ▸ hlookup, hentry, hmode⟩

theorem rename_spec (hinv : ExpiresInv s) (c : C) (key newkey : K) (nx : Bool) (now : Int) :
    ∃ r, call s c now (.rename key newkey nx) = some r ∧
      (Command.Carries s now (.rename key newkey nx) ((s.client c).db, key)
          ((s.client c).db, newkey) ∧
        r.2 = Command.carried (.rename key newkey nx : Command K V) ∧
        r.1.entry = carry s.entry ((s.client c).db, key) ((s.client c).db, newkey)
          ((s.entry ((s.client c).db, key)).2.filter (· ≠ -1)) ∨
      ¬Command.Carries s now (.rename key newkey nx) ((s.client c).db, key)
          ((s.client c).db, newkey) ∧
        r.2 ≠ Command.carried (.rename key newkey nx : Command K V)) := by
  generalize hd : (s.client c).db = d
  simp only [call, renameGenericCommand, hd]
  by_cases hkey : key = newkey
  · refine ⟨_, if_pos hkey, .inr ⟨fun h => h.ne (by rw [hkey]), ?_⟩⟩
    cases nx <;> simp [sameobjecterr, Command.carried]
  rw [if_neg hkey]
  cases hsrc : (s.checked now (d, key)).1 with
  | none =>
    obtain ⟨s₁, hlookup, -, -⟩ := lookupKeyWrite_entry hinv d key now
    refine ⟨(s₁, nokeyerr), by simp [hlookup, hsrc], .inr ⟨fun h => ?_, ?_⟩⟩
    · simpa [hsrc] using h.there
    · cases nx <;> simp [nokeyerr, Command.carried]
  | some o =>
    obtain ⟨s₁, hlookup₁, hentry₁, hmode₁⟩ := lookupKeyWrite_there hinv hsrc
    have hinv₁ : ExpiresInv s₁ := by
      rw [expiresInv_iff, hentry₁]
      exact expiresInv_iff.mp hinv
    obtain ⟨s₂, hlookup₂, hentry₂, -⟩ :=
      lookupKeyWrite_entry hinv₁ d newkey now
    have hchecked : s₁.checked now (d, newkey) = s.checked now (d, newkey) :=
      checked_congr hmode₁ (by rw [hentry₁])
    rw [hchecked] at hlookup₂ hentry₂
    rw [hentry₁] at hentry₂
    have hwhen := getExpire_entry (d := d) (k := key) hinv₁
    rw [hentry₁] at hwhen
    have hvalue : some o = (s.entry (d, key)).1 := by
      rw [← hsrc, checked_of_isSome (by rw [hsrc]; rfl)]
    have hend (s₃ : RedisServer K V C)
        (hentry₃ : s₃.entry = update s.entry (d, newkey) (none, none)) :
        ∃ s', renameKey s₃ d key newkey o ((s.entry (d, key)).2.getD (-1)) = some s' ∧
          s'.entry = carry s.entry (d, key) (d, newkey)
            ((s.entry (d, key)).2.filter (· ≠ -1)) := by
      obtain ⟨s', hrename, hentry'⟩ := renameKey_entry
        (show s₃.entry (d, newkey) = (none, none) by rw [hentry₃, Function.update_self]) key o
        ((s.entry (d, key)).2.getD (-1))
      rw [hentry₃, Function.update_idem, setExpire_of_getExpire, hvalue] at hentry'
      exact ⟨s', hrename, hentry'⟩
    have hne : (d, key) ≠ (d, newkey) := fun h => hkey (congrArg Prod.snd h)
    cases hdst : (s.checked now (d, newkey)).1 with
    | none =>
      rw [checked_eq_none hinv hdst] at hentry₂
      obtain ⟨s', hrename, hentry'⟩ := hend s₂ hentry₂
      refine ⟨(s', if nx then .int 1 else .ok), ?_, .inl ⟨⟨trivial, hne, by simp [hsrc],
        .inr hdst⟩, ?_, hentry'⟩⟩
      · simp [hlookup₁, hwhen, hlookup₂, hdst, hrename]
      · cases nx <;> rfl
    | some v =>
      cases nx with
      | true =>
        refine ⟨(s₂, .int 0), by simp [hlookup₁, hwhen, hlookup₂, hdst],
          .inr ⟨fun h => ?_, by simp [Command.carried]⟩⟩
        simpa [Command.overwrites, hdst] using h.free
      | false =>
        obtain ⟨s', hrename, hentry'⟩ := hend (dbDelete s₂ d newkey).1
          (by rw [dbDelete_entry, hentry₂, Function.update_idem])
        refine ⟨(s', .ok), by simp [hlookup₁, hwhen, hlookup₂, hdst, hrename],
          .inl ⟨⟨trivial, hne, by simp [hsrc], .inl rfl⟩, rfl, hentry'⟩⟩

theorem move_spec (hinv : ExpiresInv s) (c : C) (key : K) (dbid : Option Int) (now : Int) :
    ∃ r, call s c now (.move key dbid) = some r ∧
      (Command.Carries s now (.move key dbid) ((s.client c).db, key) ((dbid.getD 0).toNat, key) ∧
        r.2 = Command.carried (.move key dbid : Command K V) ∧
        r.1.entry = carry s.entry ((s.client c).db, key) ((dbid.getD 0).toNat, key) none ∨
      ¬Command.Carries s now (.move key dbid) ((s.client c).db, key)
          ((dbid.getD 0).toNat, key) ∧
        r.2 ≠ Command.carried (.move key dbid : Command K V)) := by
  generalize hd : (s.client c).db = d
  simp only [call, moveCommand, hd]
  by_cases hcluster : s.clusterEnabled = true
  · refine ⟨_, if_pos hcluster, .inr ⟨fun h => ?_, by simp [Command.carried]⟩⟩
    simpa [hcluster] using h.enter.1
  rw [if_neg hcluster]
  cases dbid with
  | none =>
    refine ⟨_, rfl, .inr ⟨fun h => ?_, by simp [outofrangeerr, Command.carried]⟩⟩
    obtain ⟨id, hid, -⟩ := h.enter.2
    cases hid
  | some id =>
    simp only [getD_some]
    have hselect : (selectDb s c id).isNone ↔ id < 0 ∨ id ≥ s.dbnum := by
      rw [selectDb]
      split
      · simpa
      · simp only [isNone_some, Bool.false_eq_true, false_iff]
        assumption
    by_cases hrange : id < -2 ^ 31 ∨ id > 2 ^ 31 - 1 ∨ (selectDb s c id).isNone
    · refine ⟨_, if_pos hrange, .inr ⟨fun h => ?_, by simp [outofrangeerr, Command.carried]⟩⟩
      obtain ⟨_, hid, hpos, hnum, hmax⟩ := h.enter.2
      cases hid
      rw [hselect] at hrange
      omega
    rw [if_neg hrange]
    have henter : Command.MayEnter s (.move key (some id) : Command K V) := by
      rw [hselect] at hrange
      exact ⟨Bool.eq_false_iff.mpr hcluster, id, rfl, by omega, by omega, by omega⟩
    by_cases hsame : d = id.toNat
    · refine ⟨_, if_pos hsame, .inr ⟨fun h => h.ne (by rw [hsame]), ?_⟩⟩
      simp [sameobjecterr, Command.carried]
    rw [if_neg hsame]
    cases hsrc : (s.checked now (d, key)).1 with
    | none =>
      obtain ⟨s₁, hlookup, -, -⟩ := lookupKeyWrite_entry hinv d key now
      refine ⟨(s₁, .int 0), by simp [hlookup, hsrc], .inr ⟨fun h => ?_, by simp [Command.carried]⟩⟩
      simpa [hsrc] using h.there
    | some o =>
      obtain ⟨s₁, hlookup₁, hentry₁, hmode₁⟩ := lookupKeyWrite_there hinv hsrc
      have hinv₁ : ExpiresInv s₁ := by
        rw [expiresInv_iff, hentry₁]
        exact expiresInv_iff.mp hinv
      obtain ⟨s₂, hlookup₂, hentry₂, -⟩ :=
        lookupKeyWrite_entry hinv₁ id.toNat key now
      have hchecked : s₁.checked now (id.toNat, key) = s.checked now (id.toNat, key) :=
        checked_congr hmode₁ (by rw [hentry₁])
      rw [hchecked] at hlookup₂ hentry₂
      rw [hentry₁] at hentry₂
      cases hdst : (s.checked now (id.toNat, key)).1 with
      | some v =>
        refine ⟨(s₂, .int 0), by simp [hlookup₁, hlookup₂, hdst],
          .inr ⟨fun h => ?_, by simp [Command.carried]⟩⟩
        simpa [Command.overwrites, hdst] using h.free
      | none =>
        rw [checked_eq_none hinv hdst] at hentry₂
        obtain ⟨s₃, hadd, hentry₃, -⟩ :=
          dbAdd_entry (s := s₂) (by rw [hentry₂, Function.update_self]) o
        refine ⟨((dbDelete s₃ d key).1, .int 1), by simp [hlookup₁, hlookup₂, hdst, hadd],
          .inl ⟨⟨henter, fun h => hsame (congrArg Prod.fst h), by simp [hsrc], .inr hdst⟩,
            rfl, ?_⟩⟩
        rw [dbDelete_entry, hentry₃, hentry₂, Function.update_idem, carry, ← hsrc,
          checked_of_isSome (by rw [hsrc]; rfl)]

/-- A command carries the key, or refuses and says so. -/
theorem places_spec (hinv : ExpiresInv s) (c : C) (now : Int) {cmd : Command K V}
    {src dst : Nat × K} (hplaces : cmd.places (s.client c).db = some (src, dst)) :
    ∃ r, call s c now cmd = some r ∧
      (cmd.Carries s now src dst ∧ r.2 = cmd.carried ∧
        r.1.entry = carry s.entry src dst (cmd.carryExpire (s.entry src).2) ∨
      ¬cmd.Carries s now src dst ∧ r.2 ≠ cmd.carried) := by
  cases cmd with
  | rename key newkey nx =>
    cases hplaces
    exact rename_spec hinv c key newkey nx now
  | move key dbid =>
    cases hplaces
    exact move_spec hinv c key dbid now
  | _ => cases hplaces

end Carry

/-! ## A key with all it has -/

/-- The key at `src` is at `dst` as it was, and no other key has changed. -/
structure CarriedWhole (s s' : RedisServer K V C) (src dst : Nat × K) : Prop where
  value : (s'.entry dst).1 = (s.entry src).1
  expire : (s'.entry dst).2 = (s.entry src).2
  gone : s'.entry src = (none, none)
  frame : ∀ p, p ≠ src → p ≠ dst → s'.entry p = s.entry p

/-- The expire times that a command does not carry. -/
def Command.Forgets : Command K V → Option Int → Prop
  | .rename .., e => e = some (-1)
  | _, e => e ≠ none

omit [DecidableEq K] in
theorem carryExpire_eq_iff {d : Nat} {cmd : Command K V} {src dst : Nat × K}
    (hplaces : cmd.places d = some (src, dst)) (e : Option Int) :
    cmd.carryExpire e = e ↔ ¬cmd.Forgets e := by
  cases cmd with
  | rename key newkey nx =>
    cases e with
    | none => simp [Command.carryExpire, Command.Forgets]
    | some w => simp [Command.carryExpire, Command.Forgets, Option.filter]
  | move key dbid =>
    simp only [Command.carryExpire, Command.Forgets, not_not]
    exact eq_comm
  | _ => cases hplaces

omit [DecidableEq C] in
theorem carriedWhole_iff {s s' : RedisServer K V C} {src dst : Nat × K} {e : Option Int}
    (hne : src ≠ dst) (hentry : s'.entry = carry s.entry src dst e) :
    CarriedWhole s s' src dst ↔ e = (s.entry src).2 := by
  have hdst : s'.entry dst = ((s.entry src).1, e) := by
    rw [hentry, carry, Function.update_of_ne hne.symm, Function.update_self]
  refine ⟨fun h => by rw [← h.expire, hdst], fun he => ⟨?_, ?_, ?_, ?_⟩⟩
  · rw [hdst]
  · rw [hdst, he]
  · rw [hentry, carry, Function.update_self]
  · intro p hsrc hp
    rw [hentry, carry, Function.update_of_ne hsrc, Function.update_of_ne hp]

/-- RENAME, RENAMENX and MOVE carry a key whole, but MOVE no key with an expire time, and RENAME
no key with the expire time that stands for none. -/
theorem carries_whole_iff {s : RedisServer K V C} (hinv : ExpiresInv s) (c : C) (now : Int)
    {cmd : Command K V} {src dst : Nat × K}
    (hplaces : cmd.places (s.client c).db = some (src, dst)) :
    ∃ r, call s c now cmd = some r ∧
      ((r.2 = cmd.carried → CarriedWhole s r.1 src dst) ↔
        (cmd.Carries s now src dst → ¬cmd.Forgets (s.entry src).2)) := by
  obtain ⟨r, hcall, ⟨hcarries, hreply, hentry⟩ | ⟨hrefuses, hreply⟩⟩ :=
    places_spec hinv c now hplaces
  · refine ⟨r, hcall, ?_⟩
    rw [carriedWhole_iff hcarries.ne hentry, carryExpire_eq_iff hplaces]
    simp [hcarries, hreply]
  · exact ⟨r, hcall, by simp [hrefuses, hreply]⟩

/-- The key 7 with a value and the expire time 100 in the first of two databases, at which the
client looks. -/
def volatileKey : RedisServer Nat Nat Nat where
  dbnum := 2
  db d := if d = 0 then ⟨fun k => if k = 7 then some 1 else none,
    fun k => if k = 7 then some 100 else none, fun _ => none⟩ else ⟨fun _ => none, fun _ => none,
    fun _ => none⟩
  client _ := ⟨0, false, false, false, [], []⟩
  clusterEnabled := false
  masterhost := false
  loading := false
  propagatedExpires := []

theorem volatileKey_inv : ExpiresInv volatileKey := by
  intro d k
  by_cases hd : d = 0
  · by_cases hk : k = 7
    · simp [volatileKey, RedisServer.stored, hd, hk]
    · simp [volatileKey, hd, hk]
  · simp [volatileKey, hd]

/-- RENAME carries the expire time of this key, and MOVE does not. -/
theorem carries_whole_iff_volatileKey :
    (∃ r, call volatileKey 0 50 (.rename 7 8 false) = some r ∧
      (r.2 = .ok → CarriedWhole volatileKey r.1 (0, 7) (0, 8))) ∧
    ∃ r, call volatileKey 0 50 (.move 7 (some 1)) = some r ∧
      ¬(r.2 = .int 1 → CarriedWhole volatileKey r.1 (0, 7) (1, 7)) := by
  have hrename : Command.places 0 (.rename 7 8 false : Command Nat Nat) = some ((0, 7), (0, 8)) :=
    rfl
  have hmove : Command.places 0 (.move 7 (some 1) : Command Nat Nat) = some ((0, 7), (1, 7)) := rfl
  obtain ⟨r, hcall, hwhole⟩ := carries_whole_iff volatileKey_inv 0 50 hrename
  obtain ⟨r', hcall', hwhole'⟩ := carries_whole_iff volatileKey_inv 0 50 hmove
  refine ⟨⟨r, hcall, hwhole.mpr fun _ h => ?_⟩, r', hcall', fun h => hwhole'.mp h ?_ ?_⟩
  · simp [Command.Forgets, RedisServer.entry, volatileKey] at h
  · exact ⟨⟨rfl, 1, rfl, by decide, by decide, by decide⟩, by decide, by decide, .inr (by decide)⟩
  · simp [Command.Forgets, RedisServer.entry, volatileKey]

/-- MOVE makes a key with an expire time a permanent one. -/
theorem move_forgets_expire :
    ¬∀ (s : RedisServer Nat Nat Nat) (c : Nat) (now : Int) (cmd : Command Nat Nat)
      (src dst : Nat × Nat), ExpiresInv s → cmd.places (s.client c).db = some (src, dst) →
      ∀ r, call s c now cmd = some r → r.2 = cmd.carried → CarriedWhole s r.1 src dst := by
  intro h
  have hwhole := h volatileKey 0 50 (.move 7 (some 1)) (0, 7) (1, 7) volatileKey_inv rfl _ rfl rfl
  exact absurd hwhole.expire (by decide)

end Redis
