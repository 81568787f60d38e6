import Mathlib.Data.List.Lex
import Mathlib.Data.Prod.Lex
import Redis.Keyspace
import Redis.Ordered

/-!
# Redis.Keyspace.Entries

What a keyspace holds, as a function from the keys to their values and expire times, and what each
function of the C-level API does to it.  That the indexes agree is what makes a keyspace represent
such a function.
-/

namespace Redis.Keyspace

open List
open Function (update)

scoped instance instLinearOrderUInt8 : LinearOrder UInt8 where
  le_refl := UInt8.le_refl
  le_trans _ _ _ := UInt8.le_trans
  le_antisymm _ _ := UInt8.le_antisymm
  le_total := UInt8.le_total
  lt_iff_le_not_ge a b := by
    rw [UInt8.le_iff_toNat_le, UInt8.le_iff_toNat_le, UInt8.lt_iff_toNat_lt]
    omega
  toDecidableLE := inferInstance
  toDecidableLT := inferInstance
  toDecidableEq := inferInstance

/-! ## Datasets -/

/-- The keys of every database, with their values and expire times. -/
abbrev Dataset (V : Type) := Nat → Key → Option (V × Option Int)

/-- Another entry for one key, or none. -/
def Dataset.set (D : Dataset V) (d : Nat) (key : Key) (x : Option (V × Option Int)) : Dataset V :=
  update D d (update (D d) key x)

section Set

variable {V : Type} (D : Dataset V) (d d' : Nat) (key key' : Key) (x y : Option (V × Option Int))

theorem Dataset.set_apply :
    D.set d key x d' key' = if d' = d ∧ key' = key then x else D d' key' := by
  rw [Dataset.set, Function.update_apply]
  split
  next hd =>
    subst hd
    rw [Function.update_apply]
    simp
  next hd => simp [hd]

@[simp]
theorem Dataset.set_same : D.set d key x d key = x := by simp [Dataset.set_apply]

@[simp]
theorem Dataset.set_self : D.set d key (D d key) = D := by
  rw [Dataset.set, Function.update_eq_self, Function.update_eq_self]

@[simp]
theorem Dataset.set_set : (D.set d key x).set d key y = D.set d key y := by
  simp [Dataset.set]

theorem Dataset.set_of_ne (h : ¬(d' = d ∧ key' = key)) : D.set d key x d' key' = D d' key' := by
  rw [Dataset.set_apply, if_neg h]

end Set

/-- The expire time of an entry has passed. -/
def Env.late (env : Env) (x : Option (V × Option Int)) : Bool :=
  match x with
  | some (_, some when) => 0 ≤ when && !env.loading && when < env.now
  | _ => false

/-- An entry is expired, and this process is to delete it. -/
def Env.expired (env : Env) (x : Option (V × Option Int)) : Bool :=
  env.late x && !env.masterhost

/-- What `expireIfNeeded` leaves. -/
def settle (env : Env) (D : Dataset V) (d : Nat) (key : Key) : Dataset V :=
  if env.expired (D d key) then D.set d key none else D

/-- The entries that commands see: those that are not expired. -/
def live (env : Env) (D : Dataset V) : Dataset V := fun d key =>
  if env.expired (D d key) then none else D d key

section Live

variable {V : Type} (env : Env) (D : Dataset V) (d d' : Nat) (key key' : Key)
  (x : Option (V × Option Int))

theorem Env.expired_of_when (v v' : V) (e : Option Int) :
    env.expired (some (v, e)) = env.expired (some (v', e)) := by
  cases e <;> rfl

theorem settle_eq : settle env D d key = D.set d key (live env D d key) := by
  rw [settle, live]
  split
  · rfl
  · rw [Dataset.set_self]

@[simp]
theorem settle_same : settle env D d key d key = live env D d key := by
  rw [settle_eq, Dataset.set_same]

@[simp]
theorem set_settle : (settle env D d key).set d key x = D.set d key x := by
  rw [settle_eq, Dataset.set_set]

@[simp]
theorem expired_live : env.expired (live env D d key) = false := by
  rw [live]
  split
  · rfl
  next h => exact Bool.eq_false_iff.mpr h

theorem live_set (hx : env.expired x = false) :
    live env (D.set d key x) = (live env D).set d key x := by
  funext d' key'
  rw [live, Dataset.set_apply, Dataset.set_apply, live]
  split
  · rw [hx]
    rfl
  · rfl

@[simp]
theorem live_settle : live env (settle env D d key) = live env D := by
  rw [settle_eq, live_set env D d key _ (expired_live env D d key), Dataset.set_self]

end Live

/-! ## Representation -/

/-- What a server holds. -/
def Server.entries (s : Server V) : Dataset V := fun d key =>
  ((s.db d).dict.toFun key).map fun v => (v, (s.db d).expires.toFun key)

/-- The slots of the keys of the first database, in order, and nothing in the others. -/
structure SlotsOk (zsl : List (Nat × Key)) (D : Dataset V) : Prop where
  sorted : (zsl.map toLex).Pairwise (· < ·)
  mem : ∀ slot key, (slot, key) ∈ zsl ↔ slot = keyHashSlot key ∧ (D 0 key).isSome
  others : ∀ d, d ≠ 0 → ∀ key, D d key = none

/-- The indexes of the server agree, and `D` is what it holds. -/
structure Represents (env : Env) (s : Server V) (D : Dataset V) : Prop where
  entries : s.entries = D
  expires : ∀ d key, ((s.db d).expires.toFun key).isSome → ((s.db d).dict.toFun key).isSome
  slots : env.clusterEnabled = true → SlotsOk s.slotsToKeys D

section Represents

variable {V : Type} {env : Env} {s : Server V} {D : Dataset V} {d : Nat} {key : Key}

theorem Represents.entry (h : Represents env s D) (d : Nat) (key : Key) :
    D d key = ((s.db d).dict.toFun key).map fun v => (v, (s.db d).expires.toFun key) := by
  rw [← h.entries]
  rfl

theorem Represents.dict (h : Represents env s D) (d : Nat) (key : Key) :
    (s.db d).dict.toFun key = (D d key).map Prod.fst := by
  rw [h.entry, Option.map_map]
  exact (congrFun Option.map_id _).symm

theorem Represents.expire (h : Represents env s D) (d : Nat) (key : Key) :
    (s.db d).expires.toFun key = (D d key).bind Prod.snd := by
  rw [h.entry]
  cases hdict : (s.db d).dict.toFun key with
  | some v => rfl
  | none =>
    have hexp := h.expires d key
    rw [hdict] at hexp
    simpa using hexp

/-- A server is determined by what its tables are as functions. -/
theorem Represents.of_tables
    (hdict : ∀ d key, (s.db d).dict.toFun key = (D d key).map Prod.fst)
    (hexpires : ∀ d key, (s.db d).expires.toFun key = (D d key).bind Prod.snd)
    (hslots : env.clusterEnabled = true → SlotsOk s.slotsToKeys D) : Represents env s D := by
  refine ⟨?_, fun d key => ?_, hslots⟩
  · funext d key
    rw [Server.entries, hdict, hexpires]
    cases D d key <;> rfl
  · rw [hdict, hexpires]
    cases D d key <;> simp

end Represents

/-! ## The slots -/

section Slots

variable {zsl : List (Nat × Key)} {slot : Nat} {key : Key}

theorem zslLess_eq (slot : Nat) (key : Key) :
    zslLess slot key = (fun x => decide (x < toLex (slot, key))) ∘ toLex := by
  funext x
  obtain ⟨n, k⟩ := x
  simp [zslLess, Prod.Lex.toLex_lt_toLex]

theorem zslInsert_eq (zsl : List (Nat × Key)) (slot : Nat) (key : Key) :
    (zslInsert zsl slot key).map toLex = Ordered.insert (zsl.map toLex) (toLex (slot, key)) := by
  rw [zslInsert, Ordered.insert, zslLess_eq, takeWhile_map, dropWhile_map,
    map_append, map_cons]

theorem zslDelete_eq (zsl : List (Nat × Key)) (slot : Nat) (key : Key) :
    (zslDelete zsl slot key).map toLex = Ordered.erase (zsl.map toLex) (toLex (slot, key)) := by
  rw [zslDelete, Ordered.erase, zslLess_eq, takeWhile_map, dropWhile_map]
  cases hdrop : zsl.dropWhile ((fun x => decide (x < toLex (slot, key))) ∘ toLex) with
  | nil => rfl
  | cons x rest =>
    obtain ⟨n, k⟩ := x
    simp only [map_cons, toLex_inj, Prod.mk.injEq, eq_comm (a := slot)]
    split <;> simp

theorem mem_zslInsert {x : Nat × Key} : x ∈ zslInsert zsl slot key ↔ x = (slot, key) ∨ x ∈ zsl := by
  have h := Ordered.mem_insert (l := zsl.map toLex) (x := toLex (slot, key)) (y := toLex x)
  rw [← zslInsert_eq] at h
  simpa using h

theorem mem_zslDelete (h : (zsl.map toLex).Pairwise (· < ·)) {x : Nat × Key} :
    x ∈ zslDelete zsl slot key ↔ x ∈ zsl ∧ x ≠ (slot, key) := by
  have h := Ordered.mem_erase (x := toLex (slot, key)) (y := toLex x) h
  rw [← zslDelete_eq] at h
  simpa using h

variable {V : Type} {D : Dataset V} {d : Nat} {x : Option (V × Option Int)}

/-- A key that stays, or stays away, does not change the slots. -/
theorem SlotsOk.set (h : SlotsOk zsl D) (hx : x.isSome = (D d key).isSome) :
    SlotsOk zsl (D.set d key x) where
  sorted := h.sorted
  mem slot key' := by
    rw [h.mem, Dataset.set_apply]
    split
    next heq =>
      obtain ⟨rfl, rfl⟩ := heq
      rw [hx]
    · rfl
  others d' hd' key' := by
    rw [Dataset.set_apply]
    split
    next heq =>
      obtain ⟨rfl, rfl⟩ := heq
      rw [h.others d' hd'] at hx
      simpa using hx
    · exact h.others d' hd' key'

theorem SlotsOk.insert (h : SlotsOk zsl D) (hnone : D 0 key = none) (x : V × Option Int) :
    SlotsOk (zslInsert zsl (keyHashSlot key) key) (D.set 0 key (some x)) where
  sorted := by
    rw [zslInsert_eq]
    refine Ordered.pairwise_insert h.sorted fun hmem => ?_
    have hmem : (keyHashSlot key, key) ∈ zsl := by simpa using hmem
    simp [h.mem, hnone] at hmem
  mem slot key' := by
    rw [mem_zslInsert, h.mem, Dataset.set_apply, Prod.mk.injEq]
    by_cases hkey : key' = key
    · simp +contextual [hkey]
    · simp [hkey]
  others d' hd' key' := by
    rw [Dataset.set_of_ne _ _ _ _ _ _ fun heq => hd' heq.1]
    exact h.others d' hd' key'

theorem SlotsOk.delete (h : SlotsOk zsl D) (hsome : (D d key).isSome) :
    SlotsOk (zslDelete zsl (keyHashSlot key) key) (D.set d key none) where
  sorted := by
    rw [zslDelete_eq]
    exact h.sorted.sublist Ordered.erase_sublist
  mem slot key' := by
    have hd : d = 0 := by
      by_contra hd
      simp [h.others d hd] at hsome
    rw [mem_zslDelete h.sorted, h.mem, Dataset.set_apply, ne_eq, Prod.mk.injEq, hd]
    by_cases hkey : key' = key
    · simp +contextual [hkey]
    · simp [hkey]
  others d' hd' key' := by
    rw [Dataset.set_apply]
    split
    · rfl
    · exact h.others d' hd' key'

end Slots

/-! ## Tables of strings -/

section Tables

variable {β : Type} {t : SdsDict β} {key : Key} {val : β} {y : Option β}

@[simp]
theorem sdsType_view (key : Key) : sdsType.view key = key := rfl

theorem sdsDict_add (val : β) (h : t.toFun key = none) :
    ∃ t', t.add key val = some t' ∧ t'.toFun = update t.toFun key (some val) :=
  Keyed.Table.add_spec key val h

@[simp]
theorem sdsDict_put (t : SdsDict β) (key : Key) (val : β) :
    (t.put key val).1.toFun = update t.toFun key (some val) :=
  (t.put_spec key val).1

theorem sdsDict_delete (h : (t.toFun key).isSome) :
    ∃ t', t.delete key = some t' ∧ t'.toFun = update t.toFun key none :=
  Keyed.Table.delete_spec h

theorem sdsDict_delete_eq_none (h : t.toFun key = none) : t.delete key = none :=
  Keyed.Table.delete_eq_none h

theorem sdsDict_update_eq (h : t.toFun key = y) : t.toFun = update t.toFun key y := by
  rw [← h, Function.update_eq_self]

end Tables

/-! ## The C-level API -/

section Api

variable {V : Type} {env : Env} {D : Dataset V} {s : Server V} {d : Nat} {key : Key} {val v : V}
  {e : Option Int} {x : Option (V × Option Int)}

/-- One entry is changed in both tables. -/
theorem Represents.update (h : Represents env s D) {db : RedisDb V} {zsl : List (Nat × Key)}
    (hdict : db.dict.toFun = update (s.db d).dict.toFun key (x.map Prod.fst))
    (hexpires : db.expires.toFun = update (s.db d).expires.toFun key (x.bind Prod.snd))
    (hslots : env.clusterEnabled = true → SlotsOk zsl (D.set d key x)) :
    Represents env ⟨update s.db d db, zsl⟩ (D.set d key x) := by
  refine .of_tables (fun d' key' => ?_) (fun d' key' => ?_) hslots
  all_goals
    rw [Dataset.set_apply]
    by_cases hd : d' = d
    · subst hd
      by_cases hkey : key' = key
      · simp [hdict, hexpires, hkey]
      · simp [hdict, hexpires, hkey, h.dict, h.expire]
    · simp [hd, h.dict, h.expire]

theorem lookupKey_runs : Runs (Represents env) (lookupKey d key) D ((D d key).map Prod.fst) D := by
  intro s h
  refine ⟨s, ?_, h⟩
  rw [← h.dict]
  simp [lookupKey]

theorem getExpire_runs :
    Runs (Represents env) (getExpire d key) D (((D d key).bind Prod.snd).getD (-1)) D := by
  intro s h
  refine ⟨s, ?_, h⟩
  rw [← h.expire]
  cases hwhen : (s.db d).expires.toFun key with
  | none => simp [getExpire, hwhen]
  | some when =>
    have hdict := h.expires d key (by rw [hwhen]; rfl)
    simp [getExpire, hwhen, hdict, redisAssert]

theorem expires_delete (t : SdsDict Int) (key : Key) :
    ((t.delete key).getD t).toFun = update t.toFun key none := by
  cases ht : t.toFun key with
  | none =>
    rw [sdsDict_delete_eq_none ht]
    exact sdsDict_update_eq ht
  | some when =>
    obtain ⟨t', hdel, hfun⟩ := sdsDict_delete
      (show (t.toFun key).isSome by rw [ht]; rfl)
    rw [hdel]
    exact hfun

theorem dbDelete_runs :
    Runs (Represents env) (dbDelete env d key) D (D d key).isSome (D.set d key none) := by
  intro s h
  have hexpires := expires_delete (s.db d).expires key
  cases hentry : D d key with
  | none =>
    have hdict : (s.db d).dict.toFun key = none := by rw [h.dict, hentry]; rfl
    refine ⟨_, by simp [dbDelete, modifyDb, sdsDict_delete_eq_none hdict]; rfl, ?_⟩
    exact h.update (sdsDict_update_eq hdict) hexpires fun hc => (h.slots hc).set (by rw [hentry])
  | some x =>
    have hsome : (D d key).isSome := by rw [hentry]; rfl
    obtain ⟨t, hdel, hfun⟩ := sdsDict_delete
      (show ((s.db d).dict.toFun key).isSome by rw [h.dict, hentry]; rfl)
    by_cases hc : env.clusterEnabled = true
    · refine ⟨_, by simp [dbDelete, modifyDb, hdel, hc, slotToKeyDel]; rfl, ?_⟩
      exact h.update hfun hexpires fun hc => (h.slots hc).delete hsome
    · refine ⟨_, by simp [dbDelete, modifyDb, hdel, hc]; rfl, ?_⟩
      exact h.update hfun hexpires fun hc' => absurd hc' hc

/-- `expireIfNeeded` deletes what is expired, and says what is late. -/
theorem expireIfNeeded_runs :
    Runs (Represents env) (expireIfNeeded env d key) D (env.late (D d key))
      (settle env D d key) := by
  refine getExpire_runs.bind ?_
  rw [settle, Env.expired]
  cases hentry : D d key with
  | none => exact Runs.pure _ _
  | some x =>
    obtain ⟨v, e⟩ := x
    cases e with
    | none => exact Runs.pure _ _
    | some when =>
      simp only [Option.bind_some, Option.getD_some, Env.late]
      by_cases hneg : when < 0
      · simpa [hneg, Int.not_le.mpr hneg] using Runs.pure _ _
      by_cases hload : env.loading = true
      · simpa [hneg, hload] using Runs.pure _ _
      have hpos : 0 ≤ when := Int.not_lt.mp hneg
      by_cases hmaster : env.masterhost = true
      · simpa [hneg, hload, hmaster, hpos] using Runs.pure _ _
      by_cases hnow : when < env.now
      · have hdel : Runs (Represents env) (dbDelete env d key) D (D d key).isSome
            (D.set d key none) := dbDelete_runs
        rw [hentry] at hdel
        simpa [hneg, hload, hmaster, hpos, hnow, Int.not_le.mpr hnow] using hdel
      · simpa [hneg, hload, hmaster, hnow, Int.not_lt.mp hnow] using Runs.pure _ _

theorem lookupKeyWrite_runs :
    Runs (Represents env) (lookupKeyWrite env d key) D ((live env D d key).map Prod.fst)
      (settle env D d key) :=
  settle_same env D d key ▸ expireIfNeeded_runs.bind lookupKey_runs

theorem lookupKeyRead_runs :
    Runs (Represents env) (lookupKeyRead env d key) D ((live env D d key).map Prod.fst)
      (settle env D d key) :=
  settle_same env D d key ▸ expireIfNeeded_runs.bind lookupKey_runs

theorem dbAdd_runs (hnone : D d key = none) (hd : env.clusterEnabled = true → d = 0) :
    Runs (Represents env) (dbAdd env d key val) D () (D.set d key (some (val, none))) := by
  intro s h
  obtain ⟨t, hadd, hfun⟩ := sdsDict_add val
    (show (s.db d).dict.toFun key = none by rw [h.dict, hnone]; rfl)
  have hexpires : (s.db d).expires.toFun = update (s.db d).expires.toFun key none :=
    sdsDict_update_eq (by rw [h.expire, hnone]; rfl)
  by_cases hc : env.clusterEnabled = true
  · refine ⟨_, by simp [dbAdd, modifyDb, hadd, hc, slotToKeyAdd]; rfl, ?_⟩
    obtain rfl := hd hc
    exact h.update hfun hexpires fun hc => (h.slots hc).insert hnone _
  · refine ⟨_, by simp [dbAdd, modifyDb, hadd, hc]; rfl, ?_⟩
    exact h.update hfun hexpires fun hc' => absurd hc' hc

theorem updateValue_runs (hsome : D d key = some (v, e)) :
    Runs (Represents env) (updateValue d key val) D () (D.set d key (some (val, e))) := by
  intro s h
  refine ⟨_, rfl, ?_⟩
  refine h.update (sdsDict_put _ _ _) ?_ fun hc => (h.slots hc).set (by rw [hsome]; rfl)
  exact sdsDict_update_eq (by rw [h.expire, hsome]; rfl)

theorem dbOverwrite_runs (hsome : D d key = some (v, e)) :
    Runs (Represents env) (dbOverwrite d key val) D () (D.set d key (some (val, e))) := by
  intro s h
  have hupdate : Runs (Represents env) (updateValue d key val) D () _ := updateValue_runs hsome
  obtain ⟨s', hs', h'⟩ := hupdate s h
  refine ⟨s', ?_, h'⟩
  rw [← hs']
  simp [dbOverwrite, redisAssert, h.dict, hsome, updateValue]

theorem removeExpire_runs (hsome : D d key = some (v, e)) :
    Runs (Represents env) (removeExpire d key) D e.isSome (D.set d key (some (v, none))) := by
  intro s h
  have hdict : (s.db d).dict.toFun key = some v := by rw [h.dict, hsome]; rfl
  have hwhen : (s.db d).expires.toFun key = e := by rw [h.expire, hsome]; rfl
  cases e with
  | none =>
    refine ⟨s, by simp [removeExpire, redisAssert, hdict, sdsDict_delete_eq_none hwhen], ?_⟩
    rw [← hsome, Dataset.set_self]
    exact h
  | some when =>
    obtain ⟨t, hdel, hfun⟩ := sdsDict_delete
      (show ((s.db d).expires.toFun key).isSome by rw [hwhen]; rfl)
    refine ⟨_, by simp [removeExpire, redisAssert, hdict, hdel, modifyDb]; rfl, ?_⟩
    exact h.update (sdsDict_update_eq hdict) hfun fun hc => (h.slots hc).set (by rw [hsome]; rfl)

theorem setExpire_runs (hsome : D d key = some (v, e)) (when : Int) :
    Runs (Represents env) (setExpire d key when) D () (D.set d key (some (v, some when))) := by
  intro s h
  have hdict : (s.db d).dict.toFun key = some v := by rw [h.dict, hsome]; rfl
  refine ⟨_, by simp [setExpire, redisAssert, hdict, modifyDb]; rfl, ?_⟩
  exact h.update (sdsDict_update_eq hdict) (sdsDict_put _ _ _)
    fun hc => (h.slots hc).set (by rw [hsome]; rfl)

theorem setKey_runs (hd : env.clusterEnabled = true → d = 0) :
    Runs (Represents env) (setKey env d key val) D () (D.set d key (some (val, none))) := by
  refine lookupKeyWrite_runs.bind ?_
  cases hlive : live env D d key with
  | none =>
    have hnone : settle env D d key d key = none := by rw [settle_same, hlive]
    refine (dbAdd_runs hnone hd).bind ?_
    rw [set_settle]
    simpa using (removeExpire_runs (Dataset.set_same D d key _)).map fun _ => ()
  | some x =>
    obtain ⟨v, e⟩ := x
    have hsome : settle env D d key d key = some (v, e) := by rw [settle_same, hlive]
    refine (dbOverwrite_runs hsome).bind ?_
    rw [set_settle]
    simpa using (removeExpire_runs (Dataset.set_same D d key _)).map fun _ => ()

end Api

end Redis.Keyspace
