import Redis.Effects

/-!
# Redis.Effects.Replay

When a slave that executes what `call` propagates has the dataset of its master: `INCRBYFLOAT`
keeps the expire time of its key, and the `SET` that is propagated for it removes it.
-/

namespace Redis.Effects

open List Option

open Redis.Config (str cstr)
open Redis.Replication (getLongLongFromObject)
open Redis.Aof (Key Entry Dataset setOptions SetOptions setMilliseconds toMilliseconds)

variable {τ φ : Type} {ld : LongDouble φ} {env : Env} {db : Int} {key : Key}
  {argv : List Bytes} {d : Dataset (Value τ)} {r : Result τ}
variable {val incr ele field name k : Bytes} {eles : List Bytes} {slaveEnv : Env}

/-! ## Commands that are propagated as they are -/

/-- The arguments are propagated as they are, and a command that counts no change has changed
nothing. -/
structure Plain (argv : List Bytes) (d : Dataset (Value τ)) (r : Result τ) : Prop where
  argv : r.argv = argv
  still : r.dirty = 0 → r.data = d

theorem plain_idle : Plain argv d (idle argv d) := ⟨rfl, fun _ => rfl⟩

theorem plain_changed (d' : Dataset (Value τ)) (n : Nat) : Plain argv d ⟨d', n + 1, argv⟩ :=
  ⟨rfl, fun h => absurd h (Nat.succ_ne_zero n)⟩

theorem plain_set {now : Int64} {o : SetOptions} :
    Plain argv d (setGenericCommand key argv d now val o) := by
  rw [setGenericCommand]
  split
  · exact plain_idle
  split
  · exact plain_idle
  · dsimp only
    split
    · exact plain_changed _ 0
    · exact plain_changed _ 0

theorem plain_getset : Plain argv d (getsetCommand key argv d val) := by
  rw [getsetCommand]
  split
  · exact plain_idle
  · exact plain_changed _ 0

theorem plain_append : Plain argv d (appendCommand key argv d val) := by
  rw [appendCommand]
  split
  · exact plain_idle
  · exact plain_changed _ 0
  · split
    · exact plain_idle
    · exact plain_changed _ 0

theorem plain_setrange {offset : Bytes} (h : setrangeCommand key argv d offset val = some r) :
    Plain argv d r := by
  rw [setrangeCommand] at h
  have hidle (h : some (idle argv d) = some r) : Plain argv d r := by
    rw [← Option.some.inj h]
    exact plain_idle
  split at h
  · exact hidle h
  split at h
  · exact hidle h
  split at h
  · exact hidle h
  dsimp only at h
  split at h
  · exact hidle h
  split at h
  · exact hidle h
  split at h
  · cases h
  · rw [← Option.some.inj h]
    exact plain_changed _ 0

theorem plain_incrDecr {incr : Int} : Plain argv d (incrDecrCommand key argv d incr) := by
  rw [incrDecrCommand]
  split
  · exact plain_idle
  split
  · exact plain_idle
  split
  · exact plain_idle
  · exact plain_changed _ 0

theorem plain_incrby : Plain argv d (incrbyCommand key argv d incr) := by
  rw [incrbyCommand]
  split
  · exact plain_idle
  · exact plain_incrDecr

theorem plain_decrby {decr : Bytes} : Plain argv d (decrbyCommand key argv d decr) := by
  rw [decrbyCommand]
  split
  · exact plain_idle
  · exact plain_incrDecr

theorem plain_persist : Plain argv d (persistCommand key argv d) := by
  rw [persistCommand]
  split
  · exact plain_idle
  split
  · exact plain_changed _ 0
  · exact plain_idle

variable {d' : Dataset (Value τ)} {keys : List Bytes} {members : Finset Bytes} {n : Nat} {s : Bytes}

theorem delLoop_spec :
    n ≤ (delLoop db keys d n).2 ∧ ((delLoop db keys d n).2 = n → (delLoop db keys d n).1 = d) := by
  induction keys generalizing d n with
  | nil => exact ⟨Nat.le_refl n, fun _ => rfl⟩
  | cons key keys ih =>
    rw [delLoop]
    split
    · obtain ⟨hle, -⟩ := ih (d := Aof.dbDelete (db, key) d) (n := n + 1)
      exact ⟨by omega, fun h => by omega⟩
    · exact ih

theorem plain_del : Plain argv d (delCommand argv d db keys) :=
  ⟨rfl, (delLoop_spec (n := 0)).2⟩

theorem plain_rename {newkey : Key} : Plain argv d (renameCommand key argv d newkey) := by
  rw [renameCommand]
  split
  · exact plain_idle
  split
  · exact plain_idle
  · exact plain_changed _ 0

theorem saddLoop_spec :
    n ≤ (saddLoop eles members n).2 ∧
      ((saddLoop eles members n).2 = n → (saddLoop eles members n).1 = members ∧
        ∀ ele ∈ eles, ele ∈ members) := by
  induction eles generalizing members n with
  | nil => exact ⟨Nat.le_refl n, fun _ => ⟨rfl, by simp⟩⟩
  | cons ele eles ih =>
    rw [saddLoop]
    split
    · rename_i hmem
      obtain ⟨hle, heq⟩ := @ih members n
      exact ⟨hle, fun h => ⟨(heq h).1, forall_mem_cons.mpr ⟨hmem, (heq h).2⟩⟩⟩
    · obtain ⟨hle, -⟩ := @ih (insert ele members) (n + 1)
      exact ⟨by omega, fun h => by omega⟩

theorem setAt_some (h : setAt key d = some (some members)) :
    ∃ e, d key = some e ∧ e.value = .set members := by
  rw [setAt] at h
  cases he : d key with
  | none => simp [he] at h
  | some e =>
    refine ⟨e, rfl, ?_⟩
    rw [he, map_some] at h
    split at h
    · cases h
    · rename_i hvalue
      rw [← Option.some.inj (Option.some.inj h)]
      exact Option.some.inj hvalue
    · cases h

theorem store_same {e : Entry (Value τ)} (h : d key = some e) : store key e.value d = d := by
  rw [store, if_pos (by rw [h]; rfl), dbOverwrite, h]
  exact Function.update_eq_self_iff.mpr h.symm

theorem plain_sadd : Plain argv d (saddCommand key argv d (ele :: eles)) := by
  rw [saddCommand]
  cases hset : setAt key d with
  | none => exact plain_idle
  | some members =>
    refine ⟨rfl, fun hzero => ?_⟩
    obtain ⟨hsame, hall⟩ := (saddLoop_spec (n := 0)).2 hzero
    cases members with
    | none => exact absurd (hall ele mem_cons_self) (Finset.notMem_empty ele)
    | some members =>
      obtain ⟨e, he, hvalue⟩ := setAt_some hset
      show store key (.set (saddLoop (ele :: eles) members 0).1) d = d
      rw [show (saddLoop (ele :: eles) members 0).1 = members from hsame, ← hvalue, store_same he]

theorem plain_srem : Plain argv d (sremCommand key argv d eles) := by
  rw [sremCommand]
  split
  · dsimp only
    split
    · exact plain_idle
    · rename_i hne
      exact ⟨rfl, fun h => absurd h hne⟩
  · exact plain_idle

theorem plain_smove {dst : Key} : Plain argv d (smoveCommand key argv d dst ele) := by
  rw [smoveCommand]
  split
  · split
    · exact plain_idle
    split
    · exact plain_idle
    · refine ⟨rfl, fun h => ?_⟩
      dsimp only at h
      split at h <;> cases h
  · exact plain_idle

theorem plain_hset : Plain argv d (hsetCommand key argv d field val) := by
  rw [hsetCommand]
  split
  · exact plain_idle
  · exact plain_changed _ 0

/-- A hash that was created has no fields. -/
theorem lookupOrCreate_cases {fields : Bytes → Option Bytes}
    (h : hashTypeLookupWriteOrCreate key d = some (fields, d')) :
    d' = d ∨ fields = fun _ => none := by
  rw [hashTypeLookupWriteOrCreate] at h
  split at h
  · cases h
  · exact .inr (Prod.mk.inj (Option.some.inj h)).1.symm
  · exact .inl (Prod.mk.inj (Option.some.inj h)).2.symm

theorem plain_hincrby : Plain argv d (hincrbyCommand key argv d field incr) := by
  rw [hincrbyCommand]
  split
  · exact plain_idle
  split
  · exact plain_idle
  rename_i fields d' hlookup
  rcases lookupOrCreate_cases hlookup with rfl | rfl
  · dsimp only
    split
    · exact plain_idle
    split
    · exact plain_idle
    · exact plain_changed _ 0
  · -- There is nothing to parse in a new hash, and 0 does not overflow.
    simp only [elim_none]
    rw [if_neg (by omega)]
    exact plain_changed _ 0

/-! ## Commands that are rewritten -/

theorem lookup_names : lookupProc (str "SET") = some .set ∧ lookupProc (str "DEL") = some .del ∧
    lookupProc (str "SREM") = some .srem ∧ lookupProc (str "HSET") = some .hset := by decide

/-- `SREM` of the element that `SPOP` has chosen. -/
theorem srem_of_spop (h : spopCommand key argv d ele = some r) (hdirty : r.dirty ≠ 0) :
    (sremCommand key r.argv d [ele]).data = r.data ∧ r.argv = [str "SREM", key.2, ele] := by
  rw [spopCommand] at h
  cases hset : setAt key d with
  | none =>
    rw [hset] at h
    rw [← Option.some.inj h] at hdirty
    exact absurd rfl hdirty
  | some members =>
    cases members with
    | none =>
      rw [hset] at h
      rw [← Option.some.inj h] at hdirty
      exact absurd rfl hdirty
    | some members =>
      simp only [hset] at h
      split at h
      · rename_i hmem
        rw [← Option.some.inj h]
        refine ⟨?_, rfl⟩
        rw [sremCommand, hset]
        by_cases hempty : members.erase ele = ∅
        · simp [sremLoop, hmem, hempty]
        · simp [sremLoop, hmem, hempty]
      · cases h

/-- `HSET` of the sum that `HINCRBYFLOAT` has computed. -/
theorem hset_of_hincrbyfloat {db : Int}
    (hr : hincrbyfloatCommand (db, k) [name, k, field, incr] d ld field incr = r)
    (hdirty : r.dirty ≠ 0) : ∃ val, r.argv = [str "HSET", k, field, val] ∧
      (hsetCommand (db, k) r.argv d field val).data = r.data := by
  subst hr
  rw [hincrbyfloatCommand] at hdirty ⊢
  split at hdirty
  · exact absurd rfl hdirty
  split at hdirty
  · exact absurd rfl hdirty
  rename_i fields d' hlookup
  dsimp only at hdirty ⊢
  split at hdirty
  · exact absurd rfl hdirty
  · rename_i value hvalue
    dsimp only
    refine ⟨_, rfl, ?_⟩
    rw [hsetCommand, hlookup]

/-- `INCRBYFLOAT` of a number to the string at a key with an expire time, with a result that
is a number. -/
def ClearsExpire (ld : LongDouble φ) (db : Int) (argv : List Bytes)
    (d : Dataset (Value τ)) : Prop :=
  ∃ name key incr s value inc time, argv = [name, key, incr] ∧
    lookupProc name = some .incrbyfloat ∧ d (db, key) = some ⟨.string s, some time⟩ ∧
    ld.parse s = some value ∧ ld.parse incr = some inc ∧ ld.isnanOrInf (ld.add value inc) = false

theorem stringAt_some (h : stringAt key d = some (some s)) :
    ∃ e, d key = some e ∧ e.value = .string s := by
  rw [stringAt] at h
  cases he : d key with
  | none => simp [he] at h
  | some e =>
    refine ⟨e, rfl, ?_⟩
    rw [he, map_some] at h
    split at h
    · cases h
    · rename_i hvalue
      rw [← Option.some.inj (Option.some.inj h)]
      exact Option.some.inj hvalue
    · cases h

theorem stringAt_none (h : stringAt key d = some none) : d key = none := by
  rw [stringAt] at h
  cases he : d key with
  | none => rfl
  | some e =>
    rw [he, map_some] at h
    split at h
    · rename_i hnone
      cases hnone
    · cases h
    · cases h

/-- What `SET` without options does. -/
theorem proc_set (h : lookupProc name = some .set) :
    proc ld env db [name, k, val] d =
      some ⟨Aof.setKey (db, k) (.string val) d, 1, [name, k, val]⟩ := by
  simp [proc, h, setOptions, setGenericCommand, setMilliseconds]

/-- `SET` of the sum that `INCRBYFLOAT` has computed, of a key without an expire time. -/
theorem set_of_incrbyfloat (hname : lookupProc name = some .incrbyfloat)
    (hr : incrbyfloatCommand (db, k) [name, k, incr] d ld incr = r) (hdirty : r.dirty ≠ 0) :
    ∃ val, r.argv = [str "SET", k, val] ∧
      (¬ ClearsExpire ld db [name, k, incr] d → Aof.setKey (db, k) (.string val) d = r.data) := by
  subst hr
  rw [incrbyfloatCommand] at hdirty ⊢
  cases hstring : stringAt (db, k) d with
  | none =>
    rw [hstring] at hdirty
    exact absurd rfl hdirty
  | some s =>
    simp only [hstring] at hdirty ⊢
    split at hdirty
    · rename_i value inc hvalue hinc
      split at hdirty
      · exact absurd rfl hdirty
      · rename_i hnumber
        simp only [if_neg hnumber]
        refine ⟨ld.format (ld.add value inc), rfl, fun hclears => ?_⟩
        cases s with
        | none => rw [store, if_neg (by simp [stringAt_none hstring])]; rfl
        | some s =>
          obtain ⟨⟨v, expire⟩, he, hv⟩ := stringAt_some hstring
          obtain rfl : v = .string s := hv
          cases expire with
          | none => simp [store, he, dbOverwrite, Aof.setKey]
          | some time =>
            exact absurd ⟨name, k, incr, s, value, inc, time, rfl, hname, he, hvalue,
              hinc, Bool.eq_false_iff.mpr hnumber⟩ hclears
    · exact absurd rfl hdirty

/-- `SET` without `EX` and `PX`. -/
def PlainSet (argv : List Bytes) : Prop :=
  ∀ name key val options, argv = name :: key :: val :: options → lookupProc name = some .set →
    ∀ o, setOptions ⟨false, false, none⟩ options = some o → o.expire = none

/-- The slave does what the master has done. -/
structure Replays (ld : LongDouble φ) (slaveEnv : Env) (db : Int) (d : Dataset (Value τ))
    (r : Result τ) : Prop where
  still : r.dirty = 0 → r.data = d
  replay : r.dirty ≠ 0 → ∃ r', proc ld slaveEnv db r.argv d = some r' ∧ r'.data = r.data

theorem Plain.replays (h : Plain argv d r) (hslave : proc ld slaveEnv db argv d = some r) :
    Replays ld slaveEnv db d r :=
  ⟨h.still, fun _ => ⟨r, by rw [h.argv, hslave], rfl⟩⟩

theorem proc_del (h : (d (db, k)).isSome) :
    proc ld env db [str "DEL", k] d = some ⟨Aof.dbDelete (db, k) d, 1, [str "DEL", k]⟩ := by
  simp [proc, lookup_names.2.1, delCommand, delLoop, h]

/-- `EXPIREAT` and `PEXPIREAT`: a slave never deletes the key itself. -/
theorem expire_replays {param : Bytes} {seconds : Bool} (hslave : slaveEnv.masterhost = true)
    (hproc : proc ld slaveEnv db argv d =
      some (expireGenericCommand (db, k) argv d slaveEnv seconds param)) :
    Replays ld slaveEnv db d (expireGenericCommand (db, k) argv d env seconds param) := by
  have hidle : Replays ld slaveEnv db d (idle argv d) := ⟨fun _ => rfl, fun h => absurd rfl h⟩
  rw [expireGenericCommand] at hproc ⊢
  cases hv : getLongLongFromObject param with
  | none => exact hidle
  | some v =>
    simp only [hv] at hproc ⊢
    cases he : d (db, k) with
    | none => exact hidle
    | some e =>
      simp only [he, hslave, isNone_some, Bool.false_eq_true, if_false, not_true,
        and_false] at hproc ⊢
      split
      · refine ⟨fun h => absurd h Nat.one_ne_zero, fun _ => ⟨_, proc_del ?_, rfl⟩⟩
        rw [he]
        rfl
      · exact ⟨fun h => absurd h Nat.one_ne_zero, fun _ => ⟨_, hproc, rfl⟩⟩

theorem spop_replays (h : spopCommand (db, k) argv d ele = some r) :
    Replays ld slaveEnv db d r := by
  refine ⟨fun hzero => ?_, fun hdirty => ?_⟩
  · rw [spopCommand] at h
    split at h
    · split at h
      · rw [← Option.some.inj h] at hzero
        cases hzero
      · cases h
    · rw [← Option.some.inj h]
      rfl
  · obtain ⟨hdata, hargv⟩ := srem_of_spop h hdirty
    refine ⟨sremCommand (db, k) r.argv d [ele], ?_, hdata⟩
    rw [hargv]
    simp only [proc, headD_cons, lookup_names.2.2.1]

theorem hincrbyfloat_still (h : (hincrbyfloatCommand key argv d ld field incr).dirty = 0) :
    (hincrbyfloatCommand key argv d ld field incr).data = d := by
  rw [hincrbyfloatCommand] at h ⊢
  split at h
  · rfl
  split at h
  · rfl
  rename_i fields d' hlookup
  rcases lookupOrCreate_cases hlookup with rfl | rfl
  · dsimp only at h ⊢
    split at h
    · rfl
    · cases h
  · cases h

theorem incrbyfloat_still (h : (incrbyfloatCommand key argv d ld incr).dirty = 0) :
    (incrbyfloatCommand key argv d ld incr).data = d := by
  rw [incrbyfloatCommand] at h ⊢
  split at h
  · rfl
  · split at h
    · dsimp only at h ⊢
      split at h
      · rw [if_pos (by assumption)]
        rfl
      · cases h
    · rfl

/-- What is propagated does on the slave what the command has done on the master. -/
theorem proc_replays (hslave : slaveEnv.masterhost = true) (hset : PlainSet argv)
    (hclears : ¬ ClearsExpire ld db argv d) (h : proc ld env db argv d = some r) :
    Replays ld slaveEnv db d r := by
  have hplain {x : Result τ} (hx : some x = some r) (hplain : Plain argv d x)
      (hsame : proc ld slaveEnv db argv d = some x) : Replays ld slaveEnv db d r :=
    Option.some.inj hx ▸ hplain.replays hsame
  have hproc := h
  unfold proc at hproc
  split at hproc
  · rename_i name key val options hname
    have hname : lookupProc name = some .set := hname
    cases ho : setOptions ⟨false, false, none⟩ options with
    | none =>
      simp only [ho] at hproc
      exact hplain hproc plain_idle (by simp only [proc, headD_cons, hname, ho])
    | some o =>
      have hnone := hset name key val options rfl hname o ho
      simp only [ho] at hproc
      exact hplain hproc plain_set (by
        simp only [proc, headD_cons, hname, ho, setGenericCommand, hnone, setMilliseconds])
  · rename_i hname
    exact hplain hproc plain_getset (by simp only [proc, hname])
  · rename_i hname
    exact hplain hproc plain_append (by simp only [proc, hname])
  · rename_i hname
    exact hplain rfl (plain_setrange hproc) ((by simp only [proc, hname] : _ = _).trans hproc)
  · rename_i hname
    exact hplain hproc plain_incrby (by simp only [proc, hname])
  · rename_i hname
    exact hplain hproc plain_decrby (by simp only [proc, hname])
  · rename_i name key incr hname
    have hname : lookupProc name = some .incrbyfloat := hname
    have hr := Option.some.inj hproc
    refine ⟨fun hzero => ?_, fun hdirty => ?_⟩
    · rw [← hr] at hzero ⊢
      exact incrbyfloat_still hzero
    · obtain ⟨val, hargv, hdata⟩ := set_of_incrbyfloat hname hr hdirty
      exact ⟨_, by rw [hargv, proc_set lookup_names.1], hdata hclears⟩
  · rename_i hname
    rw [← Option.some.inj hproc]
    exact expire_replays hslave (by simp only [proc, hname])
  · rename_i hname
    rw [← Option.some.inj hproc]
    exact expire_replays hslave (by simp only [proc, hname])
  · rename_i hname
    exact hplain hproc plain_persist (by simp only [proc, hname])
  · rename_i hname
    exact hplain hproc plain_del (by simp only [proc, hname])
  · rename_i hname
    exact hplain hproc plain_rename (by simp only [proc, hname])
  · rename_i hname
    exact hplain hproc plain_sadd (by simp only [proc, hname])
  · rename_i hname
    exact hplain hproc plain_srem (by simp only [proc, hname])
  · exact spop_replays hproc
  · rename_i hname
    exact hplain hproc plain_smove (by simp only [proc, hname])
  · rename_i hname
    exact hplain hproc plain_hset (by simp only [proc, hname])
  · rename_i hname
    exact hplain hproc plain_hincrby (by simp only [proc, hname])
  · rename_i name key field incr hname
    have hr := Option.some.inj hproc
    refine ⟨fun hzero => ?_, fun hdirty => ?_⟩
    · rw [← hr] at hzero ⊢
      exact hincrbyfloat_still hzero
    · obtain ⟨val, hargv, hdata⟩ := hset_of_hincrbyfloat hr hdirty
      refine ⟨_, ?_, hdata⟩
      rw [hargv]
      simp only [proc, headD_cons, lookup_names.2.2.2]
  · rw [← Option.some.inj hproc]
    exact ⟨fun _ => rfl, fun h => absurd rfl h⟩

/-! ## Runs -/

theorem clearsExpire_proc (env : Env) (h : ClearsExpire ld db argv d) :
    ∃ k val s time, d (db, k) = some ⟨.string s, some time⟩ ∧
      proc ld env db argv d =
        some ⟨dbOverwrite (db, k) (.string val) d, 1, [str "SET", k, val]⟩ := by
  obtain ⟨name, k, incr, s, value, inc, time, rfl, hname, he, hvalue, hinc, hnumber⟩ := h
  refine ⟨k, ld.format (ld.add value inc), s, time, he, ?_⟩
  have hstring : stringAt (db, k) d = some (some s) := by simp [stringAt, he]
  simp [proc, hname, incrbyfloatCommand, hstring, hvalue, hinc, hnumber, store, he]

/-- The master keeps the expire time of the key, and the slave removes it. -/
theorem overwrite_ne_setKey {time : Int64} (h : d key = some ⟨.string s, some time⟩) :
    Aof.setKey key (.string val) d ≠ dbOverwrite key (.string val) d := by
  intro heq
  have hkey := congrFun heq key
  simp [Aof.setKey, dbOverwrite, h] at hkey

variable {ev : Event} {evs : List Event}

theorem call_of_proc (h : proc ld ev.env ev.db ev.argv d = some r) (hdirty : r.dirty ≠ 0) :
    call ld ev d = some (r.data, some r.argv) := by
  rw [call, h, map_some, if_pos hdirty]

theorem call_follows (hslave : ev.slaveEnv.masterhost = true) (hset : PlainSet ev.argv)
    (hclears : ¬ ClearsExpire ld ev.db ev.argv d) {argv : Option (List Bytes)}
    (h : call ld ev d = some (d', argv)) : slaveCall ld ev argv d = some d' := by
  obtain ⟨r, hproc, hr⟩ := map_eq_some_iff.mp h
  obtain ⟨rfl, hargv⟩ := Prod.mk.inj hr
  have hreplays := proc_replays hslave hset hclears hproc
  by_cases hdirty : r.dirty = 0
  · rw [← hargv, if_neg (not_not_intro hdirty)]
    show some d = some r.data
    rw [hreplays.still hdirty]
  · rw [← hargv, if_pos hdirty]
    obtain ⟨r', hr', hdata⟩ := hreplays.replay hdirty
    show (proc ld ev.slaveEnv ev.db r.argv d).map Result.data = some r.data
    rw [hr', map_some, hdata]

/-- One `INCRBYFLOAT` of a key with an expire time. -/
theorem call_clears (hclears : ClearsExpire ld ev.db ev.argv d) :
    ∃ d' argv r', call ld ev d = some (d', argv) ∧ slaveCall ld ev argv d = some r' ∧ r' ≠ d' := by
  obtain ⟨k, val, s, time, he, hproc⟩ := clearsExpire_proc ev.env hclears
  refine ⟨dbOverwrite (ev.db, k) (.string val) d, some [str "SET", k, val],
    Aof.setKey (ev.db, k) (.string val) d, ?_, ?_, overwrite_ne_setKey he⟩
  · rw [call, hproc]
    rfl
  · show (proc ld ev.slaveEnv ev.db [str "SET", k, val] d).map Result.data = _
    rw [proc_set lookup_names.1, map_some]

/-- No `INCRBYFLOAT` of the run succeeds for a key with an expire time. -/
def KeepsExpire (ld : LongDouble φ) : List Event → Dataset (Value τ) → Prop
  | [], _ => True
  | ev :: evs, d => ¬ ClearsExpire ld ev.db ev.argv d ∧
      ∀ d' argv, call ld ev d = some (d', argv) → KeepsExpire ld evs d'

theorem Follows.same {r : Dataset (Value τ)} (h : Follows ld evs d r) : r = d := by
  cases evs with
  | nil => exact h
  | cons ev evs => exact h.1

theorem keepsExpire_of_follows
    (h : ∀ ev ∈ evs, ev.slaveEnv.masterhost = true ∧ PlainSet ev.argv)
    (hfollows : Follows ld evs d d) : KeepsExpire ld evs d := by
  induction evs generalizing d with
  | nil => trivial
  | cons ev evs ih =>
    obtain ⟨hslave, hset⟩ := h ev mem_cons_self
    obtain ⟨-, hrest⟩ := hfollows
    have hclears : ¬ ClearsExpire ld ev.db ev.argv d := by
      intro hclears
      obtain ⟨d', argv, r', hcall, hcalled, hne⟩ := call_clears hclears
      obtain ⟨r'', hr'', hrest⟩ := hrest d' argv hcall
      rw [hcalled] at hr''
      exact hne ((Option.some.inj hr'').trans hrest.same)
    refine ⟨hclears, fun d' argv hcall => ?_⟩
    obtain ⟨r', hr', hrest⟩ := hrest d' argv hcall
    obtain rfl := hrest.same
    exact ih (fun ev hev => h ev (mem_cons_of_mem _ hev)) hrest

theorem follows_of_keepsExpire
    (h : ∀ ev ∈ evs, ev.slaveEnv.masterhost = true ∧ PlainSet ev.argv)
    (hkeeps : KeepsExpire ld evs d) : Follows ld evs d d := by
  induction evs generalizing d with
  | nil => rfl
  | cons ev evs ih =>
    obtain ⟨hslave, hset⟩ := h ev mem_cons_self
    obtain ⟨hclears, hrest⟩ := hkeeps
    constructor
    · rfl
    · intro d' argv hcall
      refine ⟨d', call_follows hslave hset hclears hcall, ?_⟩
      exact ih (fun ev hev => h ev (mem_cons_of_mem _ hev)) (hrest d' argv hcall)

theorem keepsExpire_of_other
    (h : ∀ ev ∈ evs, lookupProc (ev.argv.headD []) ≠ some .incrbyfloat) :
    KeepsExpire ld evs d := by
  induction evs generalizing d with
  | nil => trivial
  | cons ev evs ih =>
    constructor
    · rintro ⟨name, key, incr, s, value, inc, time, hargv, hname, -⟩
      refine h ev mem_cons_self ?_
      rw [hargv]
      exact hname
    · intro d' argv hcall
      exact ih fun ev hev => h ev (mem_cons_of_mem _ hev)

/-- The slave follows its master exactly when no `INCRBYFLOAT` succeeds for a key with an expire
time. -/
theorem follows_iff
    (h : ∀ ev ∈ evs, ev.slaveEnv.masterhost = true ∧ PlainSet ev.argv) :
    Follows ld evs d d ↔ KeepsExpire ld evs d :=
  ⟨keepsExpire_of_follows h, follows_of_keepsExpire h⟩

/-! ## Runs with numbers that are integers -/

/-- The integers as they are printed. -/
def integers : LongDouble Int where
  parse := getLongLongFromObject
  zero := 0
  add := (· + ·)
  isnanOrInf := fun _ => false
  format := ll2string

/-- A command that is executed at the time 1000 and chooses the element `a`. -/
def eventAt (argv : List Bytes) : Event :=
  ⟨0, argv, ⟨1000, false, str "a"⟩, ⟨1000, true, []⟩⟩

theorem plainSet_of_length (h : argv.length ≤ 3) : PlainSet argv := by
  rintro name key val options rfl - o ho
  cases options with
  | nil => rw [← Option.some.inj ho]
  | cons option options =>
    simp only [length_cons] at h
    omega

theorem eventAt_ok {argvs : List (List Bytes)} (h : ∀ argv ∈ argvs, argv.length ≤ 3) :
    ∀ ev ∈ argvs.map eventAt, ev.slaveEnv.masterhost = true ∧ PlainSet ev.argv := by
  intro ev hev
  obtain ⟨argv, hargv, rfl⟩ := mem_map.mp hev
  exact ⟨rfl, plainSet_of_length (h argv hargv)⟩

/-- `INCRBYFLOAT` of a key that does not exist, `SADD` and `SPOP`. -/
theorem follows_incrbyfloat : Follows (τ := Unit) integers
    ([[str "INCRBYFLOAT", str "n", str "2"], [str "SADD", str "s", str "a"],
      [str "SPOP", str "s"]].map eventAt) (fun _ => none) (fun _ => none) := by
  refine (follows_iff (eventAt_ok (by decide))).mpr ⟨?_, fun d' argv hcall => ?_⟩
  · rintro ⟨_, _, _, _, _, _, _, _, _, he, _⟩
    cases he
  · exact keepsExpire_of_other (by decide)

/-- `SET k 1`, `PEXPIREAT k 5000` and `INCRBYFLOAT k 1`. -/
theorem follows_not : ¬ Follows (τ := Unit) integers
    ([[str "SET", str "k", str "1"], [str "PEXPIREAT", str "k", str "5000"],
      [str "INCRBYFLOAT", str "k", str "1"]].map eventAt) (fun _ => none) (fun _ => none) := by
  intro hfollows
  obtain ⟨-, hset⟩ := keepsExpire_of_follows (eventAt_ok (by decide)) hfollows
  obtain ⟨-, hexpire⟩ := hset _ _ (call_of_proc (proc_set (by decide)) Nat.one_ne_zero)
  have hproc (d : Dataset (Value Unit)) (h : (d (0, str "k")).isSome) :
      proc integers ⟨1000, false, str "a"⟩ 0 [str "PEXPIREAT", str "k", str "5000"] d =
        some ⟨Aof.setExpire (0, str "k") 5000 d, 1, [str "PEXPIREAT", str "k", str "5000"]⟩ := by
    have hname : lookupProc (str "PEXPIREAT") = some .pexpireat := by decide
    have hparam : getLongLongFromObject (str "5000") = some 5000 := by decide
    have hkey : (d (0, str "k")).isNone = false := by simpa using h
    simp only [proc, headD_cons, hname, expireGenericCommand, hparam, hkey]
    rfl
  obtain ⟨hclears, -⟩ := hexpire _ _ (call_of_proc (hproc _ rfl) Nat.one_ne_zero)
  exact hclears ⟨str "INCRBYFLOAT", str "k", str "1", str "1", 1, 1, 5000, rfl, by decide, rfl,
    by decide, by decide, rfl⟩

end Redis.Effects
