import Redis.Expire
import Redis.Strings.Counters

/-!
# Redis.Expire.Exact

A time that fits in 64 bits is stored as it is, whatever the sums on the way to it did.  A time
that does not fit is stored wrapped.
-/

namespace Redis.Expire

open Keyspace Option Bool Int64
open Aof (SetOptions setOptions)
open Strings (getLongLongFromObjectOrReply getLongLong_error fits_toInt)

/-! ## Times -/

/-- The milliseconds of a unit. -/
def unitOf (seconds : Bool) : Int := if seconds then 1000 else 1

theorem mul_unitOf_nonneg (seconds : Bool) {n : Int64} (h : 0 ≤ n.toInt) :
    0 ≤ n.toInt * unitOf seconds := by
  rw [unitOf]
  split <;> omega

/-- A time that is there fits. -/
def FitsTime (t : Option Int) : Prop := ∀ x ∈ t, Strings.Fits x

theorem toMilliseconds_false (n : Int64) : toMilliseconds false n = n := if_neg Bool.false_ne_true

theorem toInt_toMilliseconds (seconds : Bool) (n : Int64) :
    (toMilliseconds seconds n).toInt = (n.toInt * unitOf seconds).bmod (2 ^ 64) := by
  cases seconds with
  | false =>
    have h := fits_toInt n
    rw [Strings.Fits] at h
    rw [toMilliseconds_false, unitOf, if_neg Bool.false_ne_true, Int.mul_one]
    exact (Int.bmod_eq_of_le (by omega) (by omega)).symm
  | true => exact toInt_mul n 1000

theorem toInt_add_toMilliseconds {b n : Int64} {seconds : Bool}
    (h : Strings.Fits (b.toInt + n.toInt * unitOf seconds)) :
    (b + toMilliseconds seconds n).toInt = b.toInt + n.toInt * unitOf seconds := by
  obtain ⟨hlo, hhi⟩ := h
  rw [toInt_add, toInt_toMilliseconds, Int.add_bmod_bmod]
  exact Int.bmod_eq_of_le (by omega) (by omega)

section Clock

variable {env : Env} (hnow : 0 ≤ env.now) (hlate : env.now < 2 ^ 62)

include hnow hlate

theorem toInt_mstime : (mstime env).toInt = env.now :=
  toInt_ofInt_of_le (by omega) (by omega)

end Clock

variable {V : Type} {env : Env} {d : Nat} {key : Key} {w : View V}

/-- An expire time that is not in the past. -/
theorem not_expired_of_le {v : V} {when : Int} (h : env.now ≤ when) :
    env.expired (some (v, some when)) = false := by
  rw [Env.expired, Env.late]
  simp only [and_eq_false_iff, decide_eq_false_iff_not, not_eq_false']
  exact .inl (.inr (by omega))

/-! ## `SET` and its relatives -/

/-- The test of the flags, of a key that exists or does not. -/
def aborts (nx xx : Bool) (found : Bool) : Bool := (nx && found) || (xx && !found)

theorem setAborts_shows (env : Env) (d : Nat) (key : Key) (nx xx : Bool) :
    ∃ w', Runs (Shows env) (setAborts env d key nx xx) w
      (aborts nx xx (w.entries d key).isSome) w' ∧ w'.entries = w.entries := by
  have hlookup : Runs (Shows env) (Keyspace.lookupKeyWrite env d key) w ((w.entries d key).map Prod.fst)
      (w.touch d key) := lookupKeyWrite_shows
  have hagain : Runs (Shows env) (Keyspace.lookupKeyWrite env d key) (w.touch d key)
      ((w.entries d key).map Prod.fst) ((w.touch d key).touch d key) := lookupKeyWrite_shows
  cases hentry : w.entries d key with
  | none =>
    rw [hentry] at hlookup hagain
    cases nx <;> cases xx
    · exact ⟨w, Runs.pure _ _, rfl⟩
    · exact ⟨_, (Runs.pure false w).bind (hlookup.map isNone), rfl⟩
    · exact ⟨_, (hlookup.map isSome).bind (Runs.pure _ _), rfl⟩
    · exact ⟨_, (hlookup.map isSome).bind (hagain.map isNone), rfl⟩
  | some x =>
    rw [hentry] at hlookup hagain
    cases nx <;> cases xx
    · exact ⟨w, Runs.pure _ _, rfl⟩
    · exact ⟨_, (Runs.pure false w).bind (hlookup.map isNone), rfl⟩
    · exact ⟨_, (hlookup.map isSome).bind (Runs.pure _ _), rfl⟩
    · exact ⟨_, (hlookup.map isSome).bind (Runs.pure _ _), rfl⟩

variable {options : List Bytes} {payload ttl : Bytes} {t : Option Int}

variable {ms : Option Int64} {reply : Keyspace.Reply}

/-- The expire time that a key gets is exact. -/
theorem setGenericCommand_shows {name : String} (key : Key) (nx xx : Bool) (val : V)
    {expire : Option (Bytes × Bool)} (hms : setMilliseconds name expire = .ok ms)
    (ht : ms.map (fun ms => (mstime env + ms).toInt) = t) (hfuture : ∀ x ∈ t, env.now ≤ x)
    (hd : env.clusterEnabled = true → d = 0) :
    ∃ w', Runs (Shows env) (setGenericCommand env d key name nx xx val expire none none) w
        (if aborts nx xx (w.entries d key).isSome then .nullbulk else .status "OK") w' ∧
      w'.entries = if aborts nx xx (w.entries d key).isSome then w.entries
        else w.entries.set d key (some (val, t)) := by
  obtain ⟨w₁, haborts, hentries⟩ := setAborts_shows env d key nx xx (w := w)
  rw [setGenericCommand, hms]
  dsimp only
  cases hab : aborts nx xx (w.entries d key).isSome with
  | true =>
    rw [hab] at haborts
    exact ⟨w₁, haborts.bind (Runs.pure _ _), hentries⟩
  | false =>
    rw [hab] at haborts
    have hset : Runs (Shows env) (Keyspace.setKey env d key val) w₁ () (w₁.set d key (some (val, none))) :=
      setKey_shows hd
    cases ms with
    | none =>
      subst ht
      refine ⟨_, haborts.bind (hset.bind (Runs.pure _ _)), ?_⟩
      rw [View.entries_set, hentries]
      rfl
    | some ms =>
      subst ht
      have hexpire := setExpire_shows (w := w₁.set d key (some (val, none))) (.inl rfl)
        (Dataset.set_same w₁.entries d key _)
        (not_expired_of_le (hfuture (mstime env + ms).toInt rfl))
      refine ⟨_, haborts.bind (hset.bind (hexpire.bind (Runs.pure _ _))), ?_⟩
      rw [View.entries_set, View.entries_set, hentries]
      exact Dataset.set_set w.entries d key _ _

/-- A reply that is no error. -/
def NoError (reply : Keyspace.Reply) : Prop := ∀ text, reply ≠ .error text

theorem noError_status (text : String) : NoError (.status text) := fun _ h => by cases h

theorem noError_integer (n : Int) : NoError (.integer n) := fun _ h => by cases h

/-- A time that is read is set, and the reply is no error. -/
theorem setGenericCommand_replies {name : String} {nx xx : Bool} {val : V}
    {expire : Option (Bytes × Bool)} (hms : setMilliseconds name expire = .ok ms) :
    Replies NoError
      (setGenericCommand env d key name nx xx val expire none none) := by
  rw [setGenericCommand, hms]
  refine Replies.bind fun abort => ?_
  split
  · exact Replies.pure fun _ h => by cases h
  · refine Replies.bind fun _ => ?_
    cases ms with
    | none => exact Replies.pure (noError_status _)
    | some ms => exact Replies.bind fun _ => Replies.pure (noError_status _)

/-! ## `EXPIRE` and its relatives -/

/-- What `expireGenericCommand` leaves of the entries for a time, and its reply. -/
def expireEffect (env : Env) (d : Nat) (key : Key) (E : Dataset V) (when : Int) :
    Keyspace.Reply × Dataset V :=
  match E d key with
  | none => (.integer 0, E)
  | some (v, _) =>
    if when ≤ env.now ∧ ¬ env.loading ∧ ¬ env.masterhost then (.integer 1, E.set d key none)
    else (.integer 1, E.set d key (some (v, some when)))

theorem expireKey_shows (when : Int64) (hS : (d, key) ∈ w.settled) {v : V} {e : Option Int}
    (hentry : w.entries d key = some (v, e)) (hclock : (mstime env).toInt = env.now) :
    ∃ w', Runs (Shows env) (expireKey env d key when) w (.integer 1) w' ∧
      w'.entries = (expireEffect env d key w.entries when.toInt).2 := by
  rw [expireKey, expireEffect, hentry]
  simp only [le_iff_toInt_le, hclock]
  split
  next hpast =>
    have hdelete : Runs (Shows env) (Keyspace.dbDelete env d key) w true (w.set d key none) := by
      rw [show true = (w.entries d key).isSome by rw [hentry]; rfl]
      exact dbDelete_shows hS
    exact ⟨_, hdelete.bind ((Runs.pure () _).bind (Runs.pure _ _)), rfl⟩
  next hpast =>
    have hlive : env.expired (some (v, some when.toInt)) = false := by
      rw [Env.expired, Env.late]
      cases hloading : env.loading <;> cases hmaster : env.masterhost <;> simp_all
      omega
    exact ⟨_, (setExpire_shows hS hentry hlive).bind (Runs.pure _ _), rfl⟩

theorem expireGenericCommand_runs (key : Key) {param : Bytes} (basetime : Int64)
    (seconds : Bool) {n : Int64} (harg : getLongLongFromArg param none = .ok n) (hclock : (mstime env).toInt = env.now)
    (E : Dataset V) :
    Runs (Sees env) (expireGenericCommand env d key param basetime seconds) E
      (expireEffect env d key E (toMilliseconds seconds n + basetime).toInt).1
      (expireEffect env d key E (toMilliseconds seconds n + basetime).toInt).2 := by
  have hlookup : Runs (Shows env) (lookupKeyRead env d key) ⟨E, ∅⟩ ((E d key).map Prod.fst)
      (View.touch ⟨E, ∅⟩ d key) := lookupKeyRead_shows
  rw [expireGenericCommand, harg]
  dsimp only
  cases hentry : E d key with
  | none =>
    rw [expireEffect, hentry]
    rw [hentry] at hlookup
    exact runs_sees_to _ (hlookup.bind (Runs.pure _ _)) rfl
  | some x =>
    obtain ⟨v, e⟩ := x
    rw [hentry] at hlookup
    obtain ⟨w', hkey, hentries⟩ := expireKey_shows (w := View.touch ⟨E, ∅⟩ d key)
      (toMilliseconds seconds n + basetime) (.inl rfl) hentry hclock
    have hreply : (expireEffect env d key E (toMilliseconds seconds n + basetime).toInt).1 =
        .integer 1 := by
      rw [expireEffect, hentry]
      dsimp only
      split <;> rfl
    rw [hreply]
    exact runs_sees_to w' (hlookup.bind hkey) hentries

theorem expireGenericCommand_replies {param : Bytes} {basetime n : Int64} {seconds : Bool}
    (harg : getLongLongFromArg param none = .ok n) :
    Replies NoError
      (expireGenericCommand (V := V) env d key param basetime seconds) := by
  rw [expireGenericCommand, harg]
  refine Replies.bind fun found => ?_
  cases found with
  | none => exact Replies.pure (noError_integer _)
  | some v =>
    dsimp only
    rw [expireKey]
    split
    · exact Replies.bind fun _ => Replies.bind fun _ => Replies.pure (noError_integer _)
    · exact Replies.bind fun _ => Replies.pure (noError_integer _)

/-! ## `RESTORE` -/

/-- What `restoreCommand` leaves of the entries, and its reply, when the object expires at a time. -/
def restoreEffect (dump : Payload V) (ttl payload : Bytes) (options : List Bytes)
    (d : Nat) (key : Key) (E : Dataset V) (t : Option Int) : Keyspace.Reply × Dataset V :=
  match restoreReplace options with
  | .error reply => (reply, E)
  | .ok replace =>
    if replace = false ∧ (E d key).isSome then (busykeyerr, E)
    else
      match restoreArgs dump ttl payload with
      | .error reply => (reply, E)
      | .ok (_, obj) => (.status "OK", E.set d key (some (obj, t)))

/-- A `RESTORE` that is refused: its options, the key, or the payload. -/
def RestoreRefused (dump : Payload V) (ttl payload : Bytes) (options : List Bytes)
    (x : Option (V × Option Int)) : Prop :=
  (∃ reply, restoreReplace options = .error reply) ∨
    restoreReplace options = .ok false ∧ x.isSome ∨
    ∃ reply, restoreArgs dump ttl payload = .error reply

theorem restoreObject_shows (replace : Bool) {ttl : Int64} (obj : V)
    (ht : (if ttl ≠ 0 then some (mstime env + ttl).toInt else none) = t)
    (hfuture : ∀ x ∈ t, env.now ≤ x) (hd : env.clusterEnabled = true → d = 0)
    (hfree : replace = false → (d, key) ∈ w.settled ∧ w.entries d key = none) :
    ∃ w', Runs (Shows env) (restoreObject env d key replace ttl obj) w (.status "OK") w' ∧
      w'.entries = w.entries.set d key (some (obj, t)) := by
  have hadd : ∀ w₁ : View V, (d, key) ∈ w₁.settled → w₁.entries d key = none →
      w₁.entries.set d key none = w.entries.set d key none →
      ∃ w', Runs (Shows env) (do
          Keyspace.dbAdd env d key obj
          if ttl ≠ 0 then Keyspace.setExpire d key (mstime env + ttl).toInt
          return Keyspace.Reply.status "OK") w₁ (.status "OK") w' ∧
        w'.entries = w.entries.set d key (some (obj, t)) := by
    intro w₁ hS hnone hset
    have hentries : ∀ x, w₁.entries.set d key x = w.entries.set d key x := fun x => by
      rw [← Dataset.set_set w₁.entries d key none x, hset, Dataset.set_set]
    by_cases hzero : ttl = 0
    · rw [if_neg (not_not_intro hzero)] at ht
      subst ht
      rw [if_neg (not_not_intro hzero)]
      exact ⟨_, (dbAdd_shows hS hnone hd).bind (Runs.pure _ _), hentries _⟩
    · rw [if_pos hzero] at ht
      subst ht
      rw [if_pos hzero]
      have hexpire := setExpire_shows (w := w₁.set d key (some (obj, none))) (.inl rfl)
        (Dataset.set_same w₁.entries d key _)
        (not_expired_of_le (hfuture (mstime env + ttl).toInt rfl))
      refine ⟨_, (dbAdd_shows hS hnone hd).bind (hexpire.bind (Runs.pure _ _)), ?_⟩
      rw [View.entries_set, View.entries_set, Dataset.set_set, hentries]
  cases replace with
  | false =>
    obtain ⟨hS, hnone⟩ := hfree rfl
    exact hadd w hS hnone rfl
  | true =>
    obtain ⟨w', hrun, hentries⟩ := hadd (w.set d key none) (.inl rfl)
      (Dataset.set_same w.entries d key none) (Dataset.set_set w.entries d key none none)
    exact ⟨w', dbDelete_any hrun, hentries⟩

theorem restoreBusy_shows (env : Env) (d : Nat) (key : Key) (replace : Bool) (E : Dataset V) :
    ∃ w, Runs (Shows env)
        (if replace then pure false else isSome <$> Keyspace.lookupKeyWrite env d key) ⟨E, ∅⟩
        (!replace && (E d key).isSome) w ∧
      w.entries = E ∧ (replace = false → (d, key) ∈ w.settled) := by
  cases replace with
  | true => exact ⟨_, Runs.pure _ _, rfl, fun h => by cases h⟩
  | false =>
    have hlookup : Runs (Shows env) (Keyspace.lookupKeyWrite env d key) ⟨E, ∅⟩ ((E d key).map Prod.fst)
        (View.touch ⟨E, ∅⟩ d key) := lookupKeyWrite_shows
    have hsome := hlookup.map isSome
    rw [isSome_map] at hsome
    exact ⟨_, hsome, rfl, fun _ => .inl rfl⟩

theorem restoreCommand_runs {dump : Payload V} (E : Dataset V)
    (ht : ¬ RestoreRefused dump ttl payload options (E d key) →
      ∀ n obj, restoreArgs dump ttl payload = .ok (n, obj) →
        (if n ≠ 0 then some (mstime env + n).toInt else none) = t ∧ ∀ x ∈ t, env.now ≤ x)
    (hd : env.clusterEnabled = true → d = 0) :
    Runs (Sees env) (restoreCommand env d key dump ttl payload options) E
      (restoreEffect dump ttl payload options d key E t).1
      (restoreEffect dump ttl payload options d key E t).2 := by
  rw [restoreCommand, restoreEffect]
  cases hreplace : restoreReplace options with
  | error reply => exact Runs.pure _ _
  | ok replace =>
    obtain ⟨w, hbusy, hentries, hsettled⟩ := restoreBusy_shows env d key replace E
    dsimp only
    by_cases htaken : replace = false ∧ (E d key).isSome
    · rw [if_pos htaken]
      obtain ⟨rfl, hsome⟩ := htaken
      rw [hsome] at hbusy
      exact runs_sees_to w (hbusy.bind (Runs.pure _ _)) hentries
    · rw [if_neg htaken]
      have hfalse : (!replace && (E d key).isSome) = false := by
        rw [← not_eq_true, and_eq_true, not_eq_true']
        exact htaken
      rw [hfalse] at hbusy
      cases hargs : restoreArgs dump ttl payload with
      | error reply => exact runs_sees_to w (hbusy.bind (Runs.pure _ _)) hentries
      | ok args =>
        obtain ⟨n, obj⟩ := args
        have hgood : ¬ RestoreRefused dump ttl payload options (E d key) := by
          rintro (⟨reply, h⟩ | ⟨h, hsome⟩ | ⟨reply, h⟩)
          · rw [hreplace] at h
            cases h
          · rw [hreplace] at h
            exact htaken ⟨Except.ok.inj h, hsome⟩
          · rw [hargs] at h
            cases h
        obtain ⟨htime, hfuture⟩ := ht hgood n obj hargs
        obtain ⟨w', hobject, hentries'⟩ := restoreObject_shows (w := w) replace obj htime hfuture hd
          fun hreplace => by
            refine ⟨hsettled hreplace, ?_⟩
            rw [hentries]
            exact not_isSome_iff_eq_none.mp fun hsome => htaken ⟨hreplace, hsome⟩
        rw [hentries] at hentries'
        exact runs_sees_to w' (hbusy.bind hobject) hentries'

theorem restoreArgs_error {dump : Payload V} (h : restoreArgs dump ttl payload = .error reply) :
    ∃ text, reply = .error text := by
  rw [restoreArgs] at h
  split at h
  next harg => exact Except.error.inj h ▸ getLongLong_error harg
  split at h
  · exact ⟨_, (Except.error.inj h).symm⟩
  split at h
  · exact ⟨_, (Except.error.inj h).symm⟩
  split at h
  · exact ⟨_, (Except.error.inj h).symm⟩
  · cases h

/-- A `RESTORE` that is refused replies why, and changes nothing. -/
theorem restoreEffect_refused {dump : Payload V} {E : Dataset V} (t : Option Int)
    (h : RestoreRefused dump ttl payload options (E d key)) :
    (∃ text, (restoreEffect dump ttl payload options d key E t).1 = .error text) ∧
      (restoreEffect dump ttl payload options d key E t).2 = E := by
  rw [restoreEffect]
  cases hreplace : restoreReplace options with
  | error reply =>
    rw [restoreReplace] at hreplace
    split at hreplace
    · cases hreplace
    · exact ⟨⟨_, (Except.error.inj hreplace).symm⟩, rfl⟩
  | ok replace =>
    dsimp only
    split
    next => exact ⟨⟨_, rfl⟩, rfl⟩
    next hfree =>
      cases hargs : restoreArgs dump ttl payload with
      | error reply => exact ⟨restoreArgs_error hargs, rfl⟩
      | ok args =>
        rcases h with ⟨reply, h⟩ | ⟨h, hsome⟩ | ⟨reply, h⟩
        · rw [hreplace] at h
          cases h
        · rw [hreplace] at h
          exact absurd ⟨Except.ok.inj h, hsome⟩ hfree
        · rw [hargs] at h
          cases h

theorem restoreObject_replies {replace : Bool} {ttl : Int64} {obj : V} :
    Replies NoError (restoreObject env d key replace ttl obj) := by
  have hadd : Replies NoError (do
      Keyspace.dbAdd env d key obj
      if ttl ≠ 0 then Keyspace.setExpire d key (mstime env + ttl).toInt
      return Keyspace.Reply.status "OK") := by
    refine Replies.bind fun _ => ?_
    split
    · exact Replies.bind fun _ => Replies.pure (noError_status _)
    · exact Replies.pure (noError_status _)
  cases replace with
  | false => exact hadd
  | true => exact Replies.bind fun _ => hadd

/-- A `RESTORE` that is not refused does not reply an error. -/
theorem restoreCommand_replies {dump : Payload V} {E : Dataset V}
    (h : ¬ RestoreRefused dump ttl payload options (E d key)) {s s' : Server V}
    (hs : Sees env s E)
    (hrun : (restoreCommand env d key dump ttl payload options).run s = some (reply, s')) :
    NoError reply := by
  rw [restoreCommand] at hrun
  cases hreplace : restoreReplace options with
  | error reply' => exact absurd (.inl ⟨reply', hreplace⟩) h
  | ok replace =>
    cases hargs : restoreArgs dump ttl payload with
    | error reply' => exact absurd (.inr (.inr ⟨reply', hargs⟩)) h
    | ok args =>
      have hfree : (!replace && (E d key).isSome) = false := by
        rw [← not_eq_true, and_eq_true, not_eq_true']
        rintro ⟨rfl, hsome⟩
        exact h (.inr (.inl ⟨hreplace, hsome⟩))
      obtain ⟨w, hbusy, -, -⟩ := restoreBusy_shows env d key replace E
      obtain ⟨s₁, hrun₁, -⟩ := hbusy s (sees_iff.mp hs)
      rw [hreplace] at hrun
      dsimp only at hrun
      rw [StateT.run_bind, hrun₁, hfree, hargs] at hrun
      exact restoreObject_replies s₁ reply s' hrun

/-! ## Exact times -/

/-- The commands that set a time for a key. -/
inductive Command (V : Type) where
  | set (val : V) (options : List Bytes)
  | setex (seconds : Bytes) (val : V)
  | psetex (milliseconds : Bytes) (val : V)
  | expire (param : Bytes)
  | pexpire (param : Bytes)
  | expireat (param : Bytes)
  | pexpireat (param : Bytes)
  | restore (ttl payload : Bytes) (options : List Bytes)

namespace Command

/-- The function of a command. -/
def run (env : Env) (dump : Payload V) (d : Nat) (key : Key) : Command V → Cmd V Keyspace.Reply
  | set val options => setCommand env d key val options
  | setex seconds val => setexCommand env d key seconds val
  | psetex milliseconds val => psetexCommand env d key milliseconds val
  | expire param => expireCommand env d key param
  | pexpire param => pexpireCommand env d key param
  | expireat param => expireatCommand env d key param
  | pexpireat param => pexpireatCommand env d key param
  | restore ttl payload options => restoreCommand env d key dump ttl payload options

/-- The argument that is a number of seconds, which are `true`, or milliseconds. -/
def argument : Command V → Option (Bytes × Bool)
  | set _ options => (setOptions ⟨false, false, none⟩ options).bind SetOptions.expire
  | setex seconds _ => some (seconds, true)
  | psetex milliseconds _ => some (milliseconds, false)
  | expire param => some (param, true)
  | pexpire param => some (param, false)
  | expireat param => some (param, true)
  | pexpireat param => some (param, false)
  | restore ttl _ _ => some (ttl, false)

/-- A number is accepted as the argument. -/
def Accepts : Command V → Int64 → Prop
  | set _ _, n => 0 < n.toInt
  | setex _ _, n => 0 < n.toInt
  | psetex _ _, n => 0 < n.toInt
  | restore _ _ _, n => 0 ≤ n.toInt
  | _, _ => True

/-- The exact time for a number; the number 0 of a `RESTORE` is no time. -/
def time (now : Int) (seconds : Bool) (n : Int64) : Command V → Option Int
  | expireat _ => some (n.toInt * unitOf seconds)
  | pexpireat _ => some (n.toInt * unitOf seconds)
  | restore _ _ _ => if n = 0 then none else some (now + n.toInt * unitOf seconds)
  | _ => some (now + n.toInt * unitOf seconds)

/-- What a command replies, and what it leaves, when it sets a time. -/
def effect (env : Env) (dump : Payload V) (d : Nat) (key : Key) (E : Dataset V) (t : Option Int) :
    Command V → Keyspace.Reply × Dataset V
  | set val options =>
    let flags := (setOptions ⟨false, false, none⟩ options).getD ⟨false, false, none⟩
    if aborts flags.nx flags.xx (E d key).isSome then (.nullbulk, E)
    else (.status "OK", E.set d key (some (val, t)))
  | setex _ val => (.status "OK", E.set d key (some (val, t)))
  | psetex _ val => (.status "OK", E.set d key (some (val, t)))
  | restore ttl payload options => restoreEffect dump ttl payload options d key E t
  | _ => expireEffect env d key E (t.getD 0)

/-- The exact time is set if it fits; otherwise there is an error, and nothing is changed. -/
def Exact (env : Env) (dump : Payload V) (d : Nat) (key : Key) (E : Dataset V) (t : Option Int)
    (c : Command V) (reply : Keyspace.Reply) (E' : Dataset V) : Prop :=
  (FitsTime t → (reply, E') = c.effect env dump d key E t) ∧
    (¬ FitsTime t → (∃ text, reply = .error text) ∧ E' = E)

/-- The command is a `RESTORE` that is refused. -/
def Refused (dump : Payload V) (x : Option (V × Option Int)) : Command V → Prop
  | restore ttl payload options => RestoreRefused dump ttl payload options x
  | _ => False

section Clock

variable {dump : Payload V} {arg : Bytes} {seconds : Bool} {n : Int64}
  (key : Key) (harg : getLongLongFromArg arg none = .ok n) (hnow : 0 ≤ env.now) (hlate : env.now < 2 ^ 62)

include harg

theorem setMilliseconds_eq (name : String) (hpos : 0 < n.toInt) :
    setMilliseconds name (some (arg, seconds)) = .ok (some (toMilliseconds seconds n)) := by
  rw [setMilliseconds, harg]
  refine if_neg ?_
  rw [le_iff_toInt_le]
  exact Int.not_le.mpr hpos

include hnow hlate

/-- `SET` and its relatives, for a time that fits. -/
theorem setGenericCommand_runs (name : String) (nx xx : Bool) (val : V) (hpos : 0 < n.toInt)
    (hfits : FitsTime (some (env.now + n.toInt * unitOf seconds)))
    (hd : env.clusterEnabled = true → d = 0) (E : Dataset V) :
    Runs (Sees env) (setGenericCommand env d key name nx xx val (some (arg, seconds)) none none) E
      (if aborts nx xx (E d key).isSome then .nullbulk else .status "OK")
      (if aborts nx xx (E d key).isSome then E
        else E.set d key (some (val, some (env.now + n.toInt * unitOf seconds)))) := by
  have hclock := toInt_mstime hnow hlate
  have hsum : (mstime env + toMilliseconds seconds n).toInt = env.now + n.toInt * unitOf seconds := by
    rw [← hclock] at hfits ⊢
    exact toInt_add_toMilliseconds (hfits _ rfl)
  have hfuture := mul_unitOf_nonneg seconds (Int.le_of_lt hpos)
  obtain ⟨w', hrun, hentries⟩ := setGenericCommand_shows key nx xx val (w := ⟨E, ∅⟩)
    (setMilliseconds_eq harg name hpos) (congrArg some hsum) (by simpa using hfuture) hd
  exact runs_sees_to w' hrun hentries

theorem expireGenericCommand_exact {base : Int} {basetime : Int64} (hbase : basetime.toInt = base)
    (hfits : FitsTime (some (base + n.toInt * unitOf seconds))) (E : Dataset V) :
    Runs (Sees env) (expireGenericCommand env d key arg basetime seconds) E
      (expireEffect env d key E (base + n.toInt * unitOf seconds)).1
      (expireEffect env d key E (base + n.toInt * unitOf seconds)).2 := by
  subst hbase
  have hruns := expireGenericCommand_runs (d := d) key basetime seconds harg
    (toInt_mstime hnow hlate) E
  rw [Int64.add_comm, toInt_add_toMilliseconds (hfits _ rfl)] at hruns
  exact hruns

/-- The time to live of a `RESTORE`, for a time that fits. -/
theorem time_restoreArgs {payload : Bytes} {options : List Bytes} {m : Int64} {obj : V}
    (hargs : restoreArgs dump arg payload = .ok (m, obj)) (hpos : 0 ≤ n.toInt) {t : Option Int}
    (ht : (restore arg payload options : Command V).time env.now false n = t) (hfits : FitsTime t) :
    (if m ≠ 0 then some (mstime env + m).toInt else none) = t ∧ ∀ x ∈ t, env.now ≤ x := by
  have hm : n = m := by
    rw [restoreArgs, harg] at hargs
    dsimp only at hargs
    split at hargs
    · cases hargs
    split at hargs
    · cases hargs
    split at hargs
    · cases hargs
    · exact (Prod.mk.inj (Except.ok.inj hargs)).1
  subst hm
  rw [time] at ht
  by_cases hzero : n = 0
  · rw [if_pos hzero] at ht
    rw [if_neg (not_not_intro hzero), ← ht]
    exact ⟨rfl, fun x hx => by cases hx⟩
  · rw [if_neg hzero] at ht
    subst ht
    have hclock := toInt_mstime hnow hlate
    have hsum : (mstime env + n).toInt = env.now + n.toInt * unitOf false := by
      have h : Strings.Fits ((mstime env).toInt + n.toInt * unitOf false) := hclock ▸ hfits _ rfl
      have hexact := toInt_add_toMilliseconds h
      rwa [toMilliseconds_false, hclock] at hexact
    rw [if_pos hzero, hsum]
    refine ⟨rfl, fun x hx => ?_⟩
    obtain rfl := Option.some.inj hx
    have hfuture := mul_unitOf_nonneg false hpos
    omega

theorem run_of_fits {c : Command V} (hargument : c.argument = some (arg, seconds))
    (hacc : c.Accepts n) (hfits : FitsTime (c.time env.now seconds n))
    (hd : env.clusterEnabled = true → d = 0) (E : Dataset V) :
    Runs (Sees env) (c.run env dump d key) E
      (c.effect env dump d key E (c.time env.now seconds n)).1
      (c.effect env dump d key E (c.time env.now seconds n)).2 := by
  cases c with
  | set val options =>
    rw [argument] at hargument
    obtain ⟨o, ho, hexpire⟩ := bind_eq_some_iff.mp hargument
    have hruns := setGenericCommand_runs key harg hnow hlate "set" o.nx o.xx val hacc hfits hd E
    rw [run, setCommand, effect, ho]
    dsimp only [getD_some]
    rw [hexpire, apply_ite Prod.fst, apply_ite Prod.snd]
    exact hruns
  | setex arg' val =>
    cases hargument
    exact setGenericCommand_runs key harg hnow hlate "setex" false false val hacc hfits hd E
  | psetex arg' val =>
    cases hargument
    exact setGenericCommand_runs key harg hnow hlate "psetex" false false val hacc hfits hd E
  | expire param =>
    cases hargument
    exact expireGenericCommand_exact key harg hnow hlate (toInt_mstime hnow hlate) hfits E
  | pexpire param =>
    cases hargument
    exact expireGenericCommand_exact key harg hnow hlate (toInt_mstime hnow hlate) hfits E
  | expireat param =>
    cases hargument
    have hruns := expireGenericCommand_exact (d := d) key harg hnow hlate toInt_zero
      (by rw [Int.zero_add]; exact hfits) E
    rw [Int.zero_add] at hruns
    exact hruns
  | pexpireat param =>
    cases hargument
    have hruns := expireGenericCommand_exact (d := d) key harg hnow hlate toInt_zero
      (by rw [Int.zero_add]; exact hfits) E
    rw [Int.zero_add] at hruns
    exact hruns
  | restore ttl payload options =>
    cases hargument
    exact restoreCommand_runs E (fun _ m obj hargs =>
      time_restoreArgs harg hnow hlate hargs hacc rfl hfits) hd

end Clock

/-- A command that accepts its argument, and is not a `RESTORE` that is refused, replies no error. -/
theorem run_noError {dump : Payload V} {arg : Bytes} {seconds : Bool} {n : Int64}
    (harg : getLongLongFromArg arg none = .ok n) {c : Command V}
    (hargument : c.argument = some (arg, seconds)) (hacc : c.Accepts n) {E : Dataset V}
    (hgood : ¬ c.Refused dump (E d key)) {s s' : Server V} (hs : Sees env s E) {reply : Keyspace.Reply}
    (hrun : (c.run env dump d key).run s = some (reply, s')) : NoError reply := by
  cases c with
  | set val options =>
    rw [argument] at hargument
    obtain ⟨o, ho, hexpire⟩ := bind_eq_some_iff.mp hargument
    rw [run, setCommand, ho] at hrun
    dsimp only at hrun
    rw [hexpire] at hrun
    exact setGenericCommand_replies (setMilliseconds_eq harg "set" hacc) s reply s' hrun
  | setex arg' val =>
    cases hargument
    exact setGenericCommand_replies (setMilliseconds_eq harg "setex" hacc) s reply s' hrun
  | psetex arg' val =>
    cases hargument
    exact setGenericCommand_replies (setMilliseconds_eq harg "psetex" hacc) s reply s' hrun
  | expire param =>
    cases hargument
    exact expireGenericCommand_replies harg s reply s' hrun
  | pexpire param =>
    cases hargument
    exact expireGenericCommand_replies harg s reply s' hrun
  | expireat param =>
    cases hargument
    exact expireGenericCommand_replies harg s reply s' hrun
  | pexpireat param =>
    cases hargument
    exact expireGenericCommand_replies harg s reply s' hrun
  | restore ttl payload options => exact restoreCommand_replies hgood hs hrun

theorem run_of_refused {dump : Payload V} {c : Command V} {E : Dataset V}
    (hrefused : c.Refused dump (E d key)) (hd : env.clusterEnabled = true → d = 0) :
    ∃ text, Runs (Sees env) (c.run env dump d key) E (.error text) E := by
  cases c with
  | restore ttl payload options =>
    have hruns := restoreCommand_runs (t := none) E (fun hgood => absurd hrefused hgood) hd
    obtain ⟨⟨text, hreply⟩, hsame⟩ := restoreEffect_refused none hrefused
    rw [hreply, hsame] at hruns
    exact ⟨text, hruns⟩
  | _ => exact hrefused.elim

end Command

/-! ## Timeouts -/

/-- The exact time when a client is unblocked; the number 0 is no timeout. -/
def timeoutTime (now : Int) (seconds : Bool) (n : Int64) : Option Int :=
  if n = 0 then none else some (now + n.toInt * unitOf seconds)

/-- The exact time is stored, or 0 where there is none, if it fits; otherwise there is an error. -/
def TimeoutExact (t : Option Int) (timeout : Except Keyspace.Reply Int64) : Prop :=
  (FitsTime t → ∃ v, timeout = .ok v ∧ v.toInt = t.getD 0) ∧
    (¬ FitsTime t → ∃ text, timeout = .error (.error text))

theorem getLongLongFromArg_ok {arg : Bytes} {n : Int64} {msg msg' : Option String}
    (h : getLongLongFromArg arg msg = .ok n) : getLongLongFromArg arg msg' = .ok n := by
  rw [getLongLongFromArg, getLongLongFromObjectOrReply] at h ⊢
  split at h
  next value hvalue => exact h
  next => cases h

theorem getTimeout_exact_iff {arg : Bytes} {seconds : Bool} {n : Int64} (hnow : 0 ≤ env.now)
    (hlate : env.now < 2 ^ 62) (harg : getLongLongFromArg arg none = .ok n) (hpos : 0 ≤ n.toInt) :
    TimeoutExact (timeoutTime env.now seconds n) (getTimeoutFromObjectOrReply env arg seconds) ↔
      FitsTime (timeoutTime env.now seconds n) := by
  have hneg : ¬ n < 0 := by
    rw [lt_iff_toInt_lt]
    exact Int.not_lt.mpr hpos
  have hresult : getTimeoutFromObjectOrReply env arg seconds =
      .ok (if 0 < n then toMilliseconds seconds n + mstime env else n) := by
    rw [getTimeoutFromObjectOrReply, getLongLongFromArg_ok harg]
    dsimp only
    rw [if_neg hneg]
    split <;> rfl
  rw [hresult]
  constructor
  · rintro ⟨-, hunfit⟩
    by_contra hfits
    obtain ⟨text, h⟩ := hunfit hfits
    cases h
  · intro hfits
    refine ⟨fun _ => ⟨_, rfl, ?_⟩, fun h => absurd hfits h⟩
    rw [timeoutTime] at hfits ⊢
    by_cases hzero : n = 0
    · subst hzero
      rfl
    · have hlt : 0 < n := by
        rw [lt_iff_toInt_lt, toInt_zero]
        exact lt_of_le_of_ne hpos fun h => hzero (toInt_inj.mp h.symm)
      rw [if_neg hzero] at hfits ⊢
      rw [if_pos hlt, Int64.add_comm]
      have hclock := toInt_mstime hnow hlate
      rw [← hclock] at hfits ⊢
      exact toInt_add_toMilliseconds (hfits _ rfl)

/-! ## The clock and the units -/

/-- A server that reads no payload. -/
def noPayload : Payload UInt8 := ⟨fun _ => false, fun _ => none⟩

/-- The time that an accepted argument stands for is set exactly when it fits in 64 bits, and so
is the timeout of a client that is blocked. -/
theorem times_exact_iff {V : Type} {env : Env} (dump : Payload V) {d : Nat} (key : Key)
    {s : Server V} {E : Dataset V} (hs : Sees env s E) (hd : env.clusterEnabled = true → d = 0)
    (hnow : 0 ≤ env.now) (hlate : env.now < 2 ^ 62) {arg : Bytes} (seconds : Bool) {n : Int64}
    (harg : getLongLongFromArg arg none = .ok n) :
    (∀ c : Command V, c.argument = some (arg, seconds) → c.Accepts n →
      ((∃ reply s' E', (c.run env dump d key).run s = some (reply, s') ∧ Sees env s' E' ∧
          c.Exact env dump d key E (c.time env.now seconds n) reply E') ↔
        FitsTime (c.time env.now seconds n) ∨ c.Refused dump (E d key))) ∧
      (0 ≤ n.toInt →
        (TimeoutExact (timeoutTime env.now seconds n) (getTimeoutFromObjectOrReply env arg seconds) ↔
          FitsTime (timeoutTime env.now seconds n))) := by
  refine ⟨fun c hargument hacc => ⟨?_, ?_⟩, fun hpos => getTimeout_exact_iff hnow hlate harg hpos⟩
  · rintro ⟨reply, s', E', hrun, -, hexact⟩
    by_contra hbad
    obtain ⟨hfits, hgood⟩ := not_or.mp hbad
    obtain ⟨⟨text, hreply⟩, -⟩ := hexact.2 hfits
    exact Command.run_noError harg hargument hacc hgood hs hrun text hreply
  · intro hcase
    by_cases hfits : FitsTime (c.time env.now seconds n)
    · obtain ⟨s', hrun, hs'⟩ := Command.run_of_fits key harg hnow hlate hargument hacc hfits hd E s hs
      exact ⟨_, s', _, hrun, hs', fun _ => rfl, fun h => absurd hfits h⟩
    · have hrefused := hcase.resolve_left hfits
      obtain ⟨text, hruns⟩ := Command.run_of_refused hrefused hd
      obtain ⟨s', hrun, hs'⟩ := hruns s hs
      exact ⟨_, s', E, hrun, hs', fun h => absurd h hfits, fun _ => ⟨⟨text, rfl⟩, rfl⟩⟩

/-- `SETEX a 10 x` and a timeout of ten seconds, of a server without keys. -/
theorem times_exact_iff_ten :
    (∃ reply s' E',
      (Command.run Strings.plainEnv noPayload 0 [97] (.setex [49, 48] 120)).run
        Strings.emptyServer = some (reply, s') ∧
      Sees Strings.plainEnv s' E' ∧
      Command.Exact Strings.plainEnv noPayload 0 [97] (fun _ _ => none) (some 10000)
        (.setex [49, 48] 120) reply E') ∧
      TimeoutExact (some 10000) (getTimeoutFromObjectOrReply Strings.plainEnv [49, 48] true) := by
  have harg : getLongLongFromArg [49, 48] none = .ok 10 := by decide
  have h := times_exact_iff (d := 0) noPayload [97] Strings.emptyServer_sees
    (fun h => absurd h Bool.false_ne_true) (by decide) (by decide) true harg
  have hfits : FitsTime (some 10000) := fun x hx => Option.some.inj hx ▸ by decide
  have hacc : Command.Accepts (.setex [49, 48] (120 : UInt8)) 10 := by
    rw [Command.Accepts]
    decide
  exact ⟨(h.1 _ rfl hacc).mpr (.inl hfits), (h.2 (by decide)).mpr hfits⟩

/-- `SETEX a 9223372036854775807 x`. -/
def setexMax : Command UInt8 :=
  .setex [57, 50, 50, 51, 51, 55, 50, 48, 51, 54, 56, 53, 52, 55, 55, 53, 56, 48, 55] 120

/-- The time of the key is a second before now. -/
theorem times_wrapped :
    ¬ ∃ reply s' E', (setexMax.run Strings.plainEnv noPayload 0 [97]).run Strings.emptyServer =
        some (reply, s') ∧
      Sees Strings.plainEnv s' E' ∧
      setexMax.Exact Strings.plainEnv noPayload 0 [97] (fun _ _ => none)
        (some ((2 ^ 63 - 1) * 1000)) reply E' := by
  rintro ⟨reply, s', E', hrun, -, hexact⟩
  have hunfit : ¬ FitsTime (some ((2 ^ 63 - 1) * 1000)) := fun h =>
    absurd (h ((2 ^ 63 - 1) * 1000) rfl) (by decide)
  obtain ⟨⟨text, hreply⟩, -⟩ := hexact.2 hunfit
  have harg : getLongLongFromArg
      [57, 50, 50, 51, 51, 55, 50, 48, 51, 54, 56, 53, 52, 55, 55, 53, 56, 48, 55] none =
      .ok maxValue := by decide
  have hacc : setexMax.Accepts maxValue := by
    rw [setexMax, Command.Accepts]
    decide
  exact Command.run_noError harg rfl hacc (fun h : False => h) Strings.emptyServer_sees hrun text
    hreply

end Redis.Expire
