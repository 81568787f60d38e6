import Redis.Multi.Watch
import Redis.TwoSided

/-!
# Redis.Multi.Tables

The keys that clients watch are stored twice: `db->watched_keys` has the clients of a key, and
`c->watched_keys` the keys of a client.  Both are the same relation after every step.
-/

set_option linter.unusedSectionVars false

namespace Redis

open Option
open Function (update)

variable {K V C : Type} [DecidableEq K] [DecidableEq C]
variable {s s' : RedisServer K V C} {c : C} {d : Nat} {k key : K} {now : Int} {v : V}
  {r : RedisServer K V C × Reply} {clock : Nat → Int}

/-! ## Connections -/

def createClient : RedisClient K V := ⟨0, false, false, false, [], []⟩

/-- `freeClient`, for a client that is not the master: `unwatchAllKeys` and
`freeClientMultiState`.  Its address is free for another connection. -/
def freeClient (s : RedisServer K V C) (c : C) : Option (RedisServer K V C) := do
  let s ← unwatchAllKeys s c
  return s.setClient c createClient

/-- A request, the expiration of a key, or the end of a connection. -/
inductive WatchEvent (K V C : Type) where
  | server (ev : ServerEvent K V C)
  | disconnect (c : C)

/-- One event; `none` is a failed assertion or an access to a list that does not exist. -/
def watchStep (s : RedisServer K V C) : WatchEvent K V C → Option (RedisServer K V C)
  | .server ev => (serverStep s ev).map Outcome.server
  | .disconnect c => freeClient s c

def watchRun : RedisServer K V C → List (WatchEvent K V C) → Option (RedisServer K V C)
  | s, [] => some s
  | s, ev :: evs => (watchStep s ev).bind fun s' => watchRun s' evs

/-! ## The relation -/

/-- The clients that wait for a key: `watched_keys` of all databases. -/
def RedisServer.watchers (s : RedisServer K V C) (wk : Nat × K) : Option (List C) :=
  (s.db wk.1).watchedKeys wk.2

def RedisServer.watched (s : RedisServer K V C) (c : C) : List (Nat × K) :=
  (s.client c).watchedKeys

/-- The tables of the databases and the lists of the clients are one relation. -/
def WatchTables (s : RedisServer K V C) : Prop := TwoSided s.watchers s.watched

/-- No entry on either side mentions the client. -/
def Unmentioned (s : RedisServer K V C) (c : C) : Prop :=
  s.watched c = [] ∧ ∀ wk, ¬ IsMember s.watchers wk c

theorem WatchTables.unmentioned (h : WatchTables s) (hc : s.watched c = []) : Unmentioned s c :=
  ⟨hc, h.not_isMember hc⟩

/-! ## Steps that do not touch the relation -/

/-- The relation is stored as before. -/
structure SameWatch (s s' : RedisServer K V C) : Prop where
  watchers : ∀ d, (s'.db d).watchedKeys = (s.db d).watchedKeys
  watched : ∀ c, (s'.client c).watchedKeys = (s.client c).watchedKeys

theorem SameWatch.refl (s : RedisServer K V C) : SameWatch s s := ⟨fun _ => rfl, fun _ => rfl⟩

theorem SameWatch.trans {s₁ s₂ : RedisServer K V C} (h : SameWatch s s₁) (h' : SameWatch s₁ s₂) :
    SameWatch s s₂ :=
  ⟨fun d => (h'.watchers d).trans (h.watchers d), fun c => (h'.watched c).trans (h.watched c)⟩

theorem SameWatch.tables (h : SameWatch s s') (ht : WatchTables s) : WatchTables s' :=
  ht.congr (fun wk => congrFun (h.watchers wk.1) wk.2) h.watched

theorem sameWatch_setDb (s : RedisServer K V C) {x : RedisDb K V C}
    (hx : x.watchedKeys = (s.db d).watchedKeys) : SameWatch s (s.setDb d x) where
  watchers := by
    intro d'
    rw [setDb_db]
    split
    · next hd => rw [hd, hx]
    · rfl
  watched := fun _ => rfl

variable {a : SetArgs} {cmd : Command K V} {newkey : K} {o : Outcome K V C} {w : Int}
  {x : RedisClient K V}

theorem sameWatch_setClient (s : RedisServer K V C)
    (hx : x.watchedKeys = (s.client c).watchedKeys) : SameWatch s (s.setClient c x) where
  watchers := fun _ => rfl
  watched := by
    intro c'
    rw [setClient_client]
    split
    · next hc => rw [hc, hx]
    · rfl

theorem WatchTables.setClient (h : WatchTables s) (hx : x.watchedKeys = (s.client c).watchedKeys) :
    WatchTables (s.setClient c x) :=
  (sameWatch_setClient s hx).tables h

theorem sameWatch_signalModifiedKey (s : RedisServer K V C) (d : Nat) (k : K) :
    SameWatch s (signalModifiedKey s d k) where
  watchers := fun d' => by rw [signalModifiedKey, (touchWatchedKey_db s d k).1]
  watched := by
    intro c
    obtain ⟨b, hb⟩ := touchWatchedKey_client s d k c
    rw [signalModifiedKey, hb]

theorem sameWatch_signalFlushedDb (s : RedisServer K V C) (dbid : Option Nat) :
    SameWatch s (signalFlushedDb s dbid) where
  watchers := fun _ => rfl
  watched := by
    intro c
    simp only [signalFlushedDb, touchWatchedKeysOnFlush]
    split <;> rfl

theorem sameWatch_dbDelete (s : RedisServer K V C) (d : Nat) (k : K) :
    SameWatch s (dbDelete s d k).1 :=
  sameWatch_setDb s rfl

theorem sameWatch_expireIfNeeded {r : RedisServer K V C × Bool}
    (h : expireIfNeeded s d k now = some r) : SameWatch s r.1 := by
  simp only [expireIfNeeded, bind_eq_some, pure_def] at h
  obtain ⟨w, _, h⟩ := h
  split at h
  · cases h
    exact SameWatch.refl s
  split at h
  · cases h
    exact SameWatch.refl s
  split at h
  · cases h
    exact SameWatch.refl s
  split at h
  · cases h
    exact SameWatch.refl s
  · cases h
    have hdel := sameWatch_dbDelete (propagateExpire s d k) d k
    exact ⟨hdel.watchers, hdel.watched⟩

theorem sameWatch_lookupKeyWrite {r : RedisServer K V C × Option V}
    (h : lookupKeyWrite s d k now = some r) : SameWatch s r.1 := by
  simp only [lookupKeyWrite, bind_eq_some, pure_def] at h
  obtain ⟨r', hr', h⟩ := h
  cases h
  exact sameWatch_expireIfNeeded hr'

theorem sameWatch_dbAdd (h : dbAdd s d k v = some s') : SameWatch s s' := by
  simp only [dbAdd] at h
  split at h
  · cases h
  · cases h
    exact sameWatch_setDb s rfl

theorem sameWatch_dbOverwrite (h : dbOverwrite s d k v = some s') : SameWatch s s' := by
  simp only [dbOverwrite] at h
  split at h
  · cases h
    exact sameWatch_setDb s rfl
  · cases h

theorem sameWatch_removeExpire (h : removeExpire s d k = some s') : SameWatch s s' := by
  simp only [removeExpire] at h
  split at h
  · cases h
    exact sameWatch_setDb s rfl
  · cases h

theorem sameWatch_setExpire (h : setExpire s d k w = some s') : SameWatch s s' := by
  simp only [setExpire] at h
  split at h
  · cases h
    exact sameWatch_setDb s rfl
  · cases h

theorem sameWatch_setKey (h : setKey s d k v now = some s') : SameWatch s s' := by
  simp only [setKey, bind_eq_some, pure_def] at h
  obtain ⟨r, hr, s₁, h₁, s₂, h₂, h⟩ := h
  cases h
  have hstore : SameWatch r.1 s₁ := by
    split at h₁
    · exact sameWatch_dbAdd h₁
    · exact sameWatch_dbOverwrite h₁
  exact (((sameWatch_lookupKeyWrite hr).trans hstore).trans (sameWatch_removeExpire h₂)).trans
    (sameWatch_signalModifiedKey s₂ d k)

/-! ## Commands -/

theorem sameWatch_setAborts {r : RedisServer K V C × Bool} (h : setAborts s d k a now = some r) :
    SameWatch s r.1 := by
  simp only [setAborts, bind_eq_bind, bind_eq_some_iff, pure_def] at h
  obtain ⟨r₁, h₁, h⟩ := h
  have hnx : SameWatch s r₁.1 := by
    split at h₁
    · exact sameWatch_lookupKeyWrite h₁
    · cases h₁
      exact SameWatch.refl s
  split at h
  · cases h
    exact hnx
  split at h
  · simp only [bind_eq_some_iff] at h
    obtain ⟨r₂, h₂, h⟩ := h
    cases h
    exact hnx.trans (sameWatch_lookupKeyWrite h₂)
  · cases h
    exact hnx

theorem sameWatch_setPerform {ms : Option Int} (h : setPerform s d k v a ms now = some r) :
    SameWatch s r.1 := by
  simp only [setPerform, bind_eq_bind, bind_eq_some_iff, pure_def] at h
  obtain ⟨r₁, h₁, h⟩ := h
  split at h
  · cases h
    exact sameWatch_setAborts h₁
  · simp only [bind_eq_some_iff] at h
    obtain ⟨s₂, h₂, s₃, h₃, h⟩ := h
    cases h
    have hset := (sameWatch_setAborts h₁).trans (sameWatch_setKey h₂)
    cases ms with
    | none =>
      cases h₃
      exact hset
    | some ms => exact hset.trans (sameWatch_setExpire h₃)

theorem sameWatch_setCommand {options : List SetOption}
    (h : setCommand s c k v options now = some r) : SameWatch s r.1 := by
  simp only [setCommand, setGenericCommand] at h
  split at h
  · cases h
    exact SameWatch.refl s
  split at h
  · exact sameWatch_setPerform h
  · cases h
    exact SameWatch.refl s
  split at h
  · cases h
    exact SameWatch.refl s
  · exact sameWatch_setPerform h

theorem sameWatch_delLoop {keys : List K} {deleted : Nat} {r : RedisServer K V C × Nat}
    (h : delLoop d now keys s deleted = some r) : SameWatch s r.1 := by
  induction keys generalizing s deleted with
  | nil =>
    cases h
    exact SameWatch.refl s
  | cons key keys ih =>
    simp only [delLoop, bind_eq_some] at h
    obtain ⟨r₁, h₁, h⟩ := h
    have hdel := (sameWatch_expireIfNeeded h₁).trans (sameWatch_dbDelete r₁.1 d key)
    split at h
    · exact (hdel.trans (sameWatch_signalModifiedKey _ d key)).trans (ih h)
    · exact hdel.trans (ih h)

theorem sameWatch_renameKey {o : V} (h : renameKey s d key newkey o w = some s') :
    SameWatch s s' := by
  simp only [renameKey, bind_eq_some, pure_def] at h
  obtain ⟨s₁, h₁, s₂, h₂, h⟩ := h
  cases h
  have hexpire : SameWatch s₁ s₂ := by
    split at h₂
    · exact sameWatch_setExpire h₂
    · cases h₂
      exact SameWatch.refl s₁
  exact ((((sameWatch_dbAdd h₁).trans hexpire).trans (sameWatch_dbDelete s₂ d key)).trans
    (sameWatch_signalModifiedKey _ d key)).trans (sameWatch_signalModifiedKey _ d newkey)

theorem sameWatch_renameGenericCommand {nx : Bool}
    (h : renameGenericCommand s c key newkey nx now = some r) : SameWatch s r.1 := by
  simp only [renameGenericCommand] at h
  split at h
  · cases h
    exact SameWatch.refl s
  simp only [bind_eq_bind, bind_eq_some_iff] at h
  obtain ⟨r₁, h₁, h⟩ := h
  split at h
  · cases h
    exact sameWatch_lookupKeyWrite h₁
  simp only [bind_eq_some_iff] at h
  obtain ⟨w, _, r₂, h₂, h⟩ := h
  have hlookup := (sameWatch_lookupKeyWrite h₁).trans (sameWatch_lookupKeyWrite h₂)
  split at h
  · cases h
    exact hlookup
  simp only [bind_eq_some_iff] at h
  obtain ⟨s₃, h₃, h⟩ := h
  cases h
  apply (hlookup.trans ?_).trans (sameWatch_renameKey h₃)
  split
  · exact sameWatch_dbDelete _ _ _
  · exact SameWatch.refl _

theorem sameWatch_moveCommand {dbid : Option Int} (h : moveCommand s c key dbid now = some r) :
    SameWatch s r.1 := by
  simp only [moveCommand] at h
  split at h
  · cases h
    exact SameWatch.refl s
  split at h
  · cases h
    exact SameWatch.refl s
  split at h
  · cases h
    exact SameWatch.refl s
  split at h
  · cases h
    exact SameWatch.refl s
  simp only [bind_eq_bind, bind_eq_some_iff] at h
  obtain ⟨r₁, h₁, h⟩ := h
  split at h
  · cases h
    exact sameWatch_lookupKeyWrite h₁
  simp only [bind_eq_some_iff] at h
  obtain ⟨r₂, h₂, h⟩ := h
  have hlookup := (sameWatch_lookupKeyWrite h₁).trans (sameWatch_lookupKeyWrite h₂)
  split at h
  · cases h
    exact hlookup
  simp only [bind_eq_some_iff] at h
  obtain ⟨s₃, h₃, h⟩ := h
  cases h
  exact (hlookup.trans (sameWatch_dbAdd h₃)).trans (sameWatch_dbDelete s₃ _ key)

theorem sameWatch_expireGenericCommand {param : Option Int} {absolute : Bool} {unit : TimeUnit}
    (h : expireGenericCommand s c key param absolute unit now = some r) : SameWatch s r.1 := by
  simp only [expireGenericCommand] at h
  split at h
  · cases h
    exact SameWatch.refl s
  simp only [bind_eq_bind, bind_eq_some_iff] at h
  obtain ⟨r₁, h₁, h⟩ := h
  have hlookup := sameWatch_lookupKeyWrite h₁
  split at h
  · cases h
    exact hlookup
  split at h
  · split at h
    · cases h
      exact (hlookup.trans (sameWatch_dbDelete r₁.1 _ key)).trans
        (sameWatch_signalModifiedKey _ _ key)
    · cases h
  · simp only [bind_eq_some_iff] at h
    obtain ⟨s₂, h₂, h⟩ := h
    cases h
    exact (hlookup.trans (sameWatch_setExpire h₂)).trans (sameWatch_signalModifiedKey s₂ _ key)

theorem sameWatch_emptyDb (s : RedisServer K V C) : SameWatch s (emptyDb s) where
  watchers := by
    intro d
    simp only [emptyDb]
    split <;> rfl
  watched := fun _ => rfl

theorem sameWatch_selectCommand (s : RedisServer K V C) (c : C) (id : Option Int) :
    SameWatch s (selectCommand s c id).1 := by
  simp only [selectCommand, selectDb]
  split
  · exact SameWatch.refl s
  split
  · exact SameWatch.refl s
  split
  · exact SameWatch.refl s
  next s' hs' =>
    split at hs'
    · cases hs'
    · cases hs'
      exact sameWatch_setClient s rfl

/-- Only UNWATCH touches the relation, of the commands that can be queued. -/
theorem sameWatch_call (hcmd : cmd ≠ .unwatch) (h : call s c now cmd = some r) :
    SameWatch s r.1 := by
  cases cmd with
  | set key val options => exact sameWatch_setCommand h
  | del keys =>
    simp only [call, delCommand, bind_eq_some] at h
    obtain ⟨r', hr', h⟩ := h
    cases h
    exact sameWatch_delLoop hr'
  | rename key newkey nx => exact sameWatch_renameGenericCommand h
  | move key dbid => exact sameWatch_moveCommand h
  | expire key param absolute unit => exact sameWatch_expireGenericCommand h
  | flushdb =>
    cases h
    exact (sameWatch_signalFlushedDb s _).trans (sameWatch_setDb _ rfl)
  | flushall =>
    cases h
    exact (sameWatch_signalFlushedDb s none).trans (sameWatch_emptyDb _)
  | select id =>
    cases h
    exact sameWatch_selectCommand s c id
  | unwatch => exact absurd rfl hcmd

/-! ## Steps on the relation -/

theorem watchers_setDb (s : RedisServer K V C) (wk : Nat × K) (clients : Option (List C)) :
    (s.setDb wk.1 { s.db wk.1 with
      watchedKeys := update (s.db wk.1).watchedKeys wk.2 clients }).watchers =
    update s.watchers wk clients := by
  funext wk'
  obtain ⟨d, k⟩ := wk
  obtain ⟨d', k'⟩ := wk'
  simp only [RedisServer.watchers, setDb_db]
  by_cases hd : d' = d
  · subst hd
    by_cases hk : k' = k
    · simp [hk]
    · simp [hk, Function.update_of_ne, RedisServer.watchers]
  · simp [hd, Function.update_of_ne, RedisServer.watchers]

/-- The lists of the clients after one has changed. -/
theorem watched_setClient (s : RedisServer K V C) (c : C) (x : RedisClient K V) :
    (s.setClient c x).watched = update s.watched c x.watchedKeys := by
  funext c'
  simp only [RedisServer.watched, setClient_client, Function.update_apply]
  split <;> rfl

theorem WatchTables.watchForKey (h : WatchTables s) (c : C) (k : K) :
    WatchTables (watchForKey s c k) := by
  simp only [Redis.watchForKey]
  split
  · exact h
  next hnew =>
    have hjoin := h.join hnew
    rw [WatchTables, watched_setClient]
    exact hjoin.congr (congrFun (watchers_setDb s ((s.client c).db, k) _)) (fun _ => rfl)

theorem WatchTables.watchCommand (h : WatchTables s) (c : C) (keys : List K) :
    WatchTables (watchCommand s c keys).1 := by
  rw [Redis.watchCommand]
  split
  · exact h
  · clear * - h
    induction keys generalizing s with
    | nil => exact h
    | cons key keys ih => exact ih (h.watchForKey c key)

/-- The loop of `unwatchAllKeys`: the client has left the lists of the keys it has seen, and its
own list still has to be emptied. -/
theorem foldlM_unwatchKey_tables {wks : List (Nat × K)} {keys : C → List (Nat × K)}
    (h : TwoSided s.watchers keys) (hwks : keys c = wks) :
    ∃ s', wks.foldlM (fun s wk => unwatchKey s c wk) s = some s' ∧ s'.client = s.client ∧
      TwoSided s'.watchers (update keys c []) := by
  induction wks generalizing s keys with
  | nil =>
    refine ⟨s, rfl, rfl, ?_⟩
    rw [← hwks, Function.update_eq_self]
    exact h
  | cons wk wks ih =>
    obtain ⟨clients, hlist, hmem⟩ := (h.agree wk c).mpr (by simp [hwks])
    have hleave := h.leave (b := c) hlist
    rw [← watchers_setDb] at hleave
    obtain ⟨s', hs', hclient, htables⟩ := ih hleave (by simp [hwks])
    refine ⟨s', ?_, hclient, by simpa using htables⟩
    have hstep : unwatchKey s c wk = some (s.setDb wk.1 { s.db wk.1 with
        watchedKeys := update (s.db wk.1).watchedKeys wk.2 (dropMember clients c) }) := by
      have hlist' : (s.db wk.1).watchedKeys wk.2 = some clients := hlist
      simp only [unwatchKey, hlist', if_pos hmem, dropMember]
    simp only [List.foldlM_cons, hstep, some_bind]
    exact hs'

theorem WatchTables.unwatchAllKeys (h : WatchTables s) (c : C) :
    ∃ s', unwatchAllKeys s c = some s' ∧ WatchTables s' ∧ s'.watched c = [] := by
  obtain ⟨s₁, h₁, hclient, htables⟩ := foldlM_unwatchKey_tables (c := c) h rfl
  refine ⟨s₁.setClient c { s₁.client c with watchedKeys := [] }, ?_, ?_, ?_⟩
  · simp only [Redis.unwatchAllKeys, RedisServer.watched] at h₁ ⊢
    simp only [h₁, some_bind, pure_def]
  · rw [WatchTables, watched_setClient]
    apply htables.congr (fun _ => rfl)
    intro c'
    simp only [Function.update_apply, RedisServer.watched, hclient]
  · rw [watched_setClient, Function.update_self]

theorem WatchTables.discardTransaction (h : WatchTables s) (c : C) :
    ∃ s', discardTransaction s c = some s' ∧ WatchTables s' ∧ s'.watched c = [] := by
  have hclient : WatchTables (s.setClient c { s.client c with
      mstate := [], multi := false, dirtyCas := false, dirtyExec := false }) :=
    h.setClient rfl
  exact hclient.unwatchAllKeys c

/-- A step that leaves the lists of a client alone keeps it out of the relation. -/
theorem SameWatch.watched_nil (h : SameWatch s s') (hc : s.watched c = []) : s'.watched c = [] :=
  (h.watched c).trans hc

theorem WatchTables.unwatchCommand (h : WatchTables s) (c : C) :
    ∃ s' r, unwatchCommand s c = some (s', r) ∧ WatchTables s' ∧ s'.watched c = [] := by
  obtain ⟨s₁, h₁, ht, hc⟩ := h.unwatchAllKeys c
  have hsame : SameWatch s₁ (s₁.setClient c { s₁.client c with dirtyCas := false }) :=
    sameWatch_setClient s₁ rfl
  refine ⟨_, .ok, ?_, hsame.tables ht, hsame.watched_nil hc⟩
  simp only [Redis.unwatchCommand, h₁, some_bind, pure_def]

theorem WatchTables.call (h : WatchTables s) {r : Reply} (hcall : call s c now cmd = some (s', r)) :
    WatchTables s' := by
  by_cases hcmd : cmd = .unwatch
  · subst hcmd
    obtain ⟨s₁, r₁, h₁, ht, _⟩ := h.unwatchCommand c
    cases h₁.symm.trans hcall
    exact ht
  · exact (sameWatch_call hcmd hcall).tables h

theorem WatchTables.execLoop {cmds : List (Command K V)} (h : WatchTables s)
    {r : RedisServer K V C × List Reply × List (Call K V C)}
    (hloop : execLoop c cmds clock s = some r) : WatchTables r.1 := by
  induction cmds generalizing s clock r with
  | nil =>
    cases hloop
    exact h
  | cons cmd cmds ih =>
    simp only [Redis.execLoop, bind_eq_some,
      pure_def] at hloop
    obtain ⟨r₁, h₁, r₂, h₂, hloop⟩ := hloop
    cases hloop
    have hrest := ih (h.call h₁) h₂
    exact hrest

/-! ## Events -/

/-- The event ends the watch of a client: EXEC or DISCARD of its transaction, an UNWATCH that is
executed, or its disconnection. -/
def WatchEvent.Ends (s : RedisServer K V C) (c : C) : WatchEvent K V C → Prop
  | .server (.request a _ .exec) => a = c ∧ (s.client c).multi = true
  | .server (.request a _ .discard) => a = c ∧ (s.client c).multi = true
  | .server (.request a _ (.command .unwatch)) => a = c ∧ (s.client c).multi = false
  | .disconnect a => a = c
  | _ => False

theorem WatchTables.execCommand (h : WatchTables s) (ho : execCommand s c clock = some o) :
    WatchTables o.server ∧ ((s.client c).multi = true → o.server.watched c = []) := by
  rw [Redis.execCommand] at ho
  split at ho
  next hmulti =>
    cases ho
    exact ⟨h, fun hm => by simp [hm] at hmulti⟩
  split at ho
  · obtain ⟨s₁, h₁, ht, hc⟩ := h.discardTransaction c
    simp only [h₁, some_bind, pure_def] at ho
    cases ho
    exact ⟨ht, fun _ => hc⟩
  · simp only [bind_eq_some, pure_def] at ho
    obtain ⟨s₁, h₁, r, hr, s₂, h₂, ho⟩ := ho
    cases ho
    obtain ⟨s₁', h₁', ht₁, _⟩ := h.unwatchAllKeys c
    cases h₁'.symm.trans h₁
    obtain ⟨s₂', h₂', ht₂, hc⟩ := (ht₁.execLoop hr).discardTransaction c
    cases h₂'.symm.trans h₂
    exact ⟨ht₂, fun _ => hc⟩

theorem WatchTables.processCommand (h : WatchTables s) {a : C} {req : Request K V}
    (ho : processCommand s a clock req = some o) :
    WatchTables o.server ∧ ∀ c, WatchEvent.Ends s c (.server (.request a clock req)) →
      o.server.watched c = [] := by
  cases req with
  | command cmd =>
    simp only [Redis.processCommand] at ho
    split at ho
    next hmulti =>
      cases ho
      refine ⟨h.setClient (by rfl), ?_⟩
      rintro c hends
      cases cmd with
      | unwatch =>
        obtain ⟨rfl, hc⟩ := hends
        simp [hmulti] at hc
      | _ => exact hends.elim
    · simp only [bind_eq_some, pure_def] at ho
      obtain ⟨r, hr, ho⟩ := ho
      cases ho
      refine ⟨h.call hr, ?_⟩
      rintro c hends
      cases cmd with
      | unwatch =>
        obtain ⟨rfl, _⟩ := hends
        obtain ⟨s₁, r₁, h₁, _, hc⟩ := h.unwatchCommand a
        cases h₁.symm.trans hr
        exact hc
      | _ => exact hends.elim
  | watch keys =>
    cases ho
    exact ⟨h.watchCommand a keys, fun _ hends => hends.elim⟩
  | multi =>
    cases ho
    refine ⟨?_, fun _ hends => hends.elim⟩
    rw [multiCommand]
    split
    · exact h
    · exact h.setClient (by rfl)
  | discard =>
    simp only [Redis.processCommand, discardCommand] at ho
    split at ho
    next hmulti =>
      cases ho
      refine ⟨h, ?_⟩
      rintro c ⟨rfl, hc⟩
      simp [hc] at hmulti
    · obtain ⟨s₁, h₁, ht, hc⟩ := h.discardTransaction a
      simp only [h₁, some_bind, pure_def] at ho
      cases ho
      refine ⟨ht, ?_⟩
      rintro c ⟨rfl, _⟩
      exact hc
  | exec =>
    obtain ⟨ht, hc⟩ := h.execCommand ho
    refine ⟨ht, ?_⟩
    rintro c ⟨rfl, hmulti⟩
    exact hc hmulti
  | rejected flag text =>
    cases ho
    refine ⟨?_, fun _ hends => hends.elim⟩
    dsimp only
    split
    · rw [flagTransaction]
      split
      · exact h.setClient (by rfl)
      · exact h
    · exact h

theorem sameWatch_activeExpireCycleTryExpire (s : RedisServer K V C) (d : Nat) (k : K) (now : Int) :
    SameWatch s (activeExpireCycleTryExpire s d k now) := by
  rw [activeExpireCycleTryExpire.eq_def]
  split
  · exact SameWatch.refl s
  split
  · have hdel := sameWatch_dbDelete (propagateExpire s d k) d k
    exact ⟨hdel.watchers, hdel.watched⟩
  · exact SameWatch.refl s

/-! ## Runs -/

/-- What holds between the events: the two views agree, and no assertion can fail. -/
structure WatchState (s : RedisServer K V C) : Prop where
  server : ServerInv s
  tables : WatchTables s

theorem WatchState.freeClient (h : WatchState s) (c : C) :
    ∃ s', freeClient s c = some s' ∧ WatchState s' ∧ s'.watched c = [] := by
  obtain ⟨s₁, h₁, ht, hc⟩ := h.tables.unwatchAllKeys c
  obtain ⟨s₁', h₁', hu, _⟩ := unwatchAllKeys_spec (h.server.client c)
  cases h₁'.symm.trans h₁
  have hsame : SameWatch s₁ (s₁.setClient c createClient) := sameWatch_setClient s₁ hc.symm
  refine ⟨s₁.setClient c createClient, ?_, ⟨⟨(hu.serverInv h.server).expires, ?_⟩, hsame.tables ht⟩,
    hsame.watched_nil hc⟩
  · simp only [Redis.freeClient, h₁, some_bind, pure_def]
  · intro c'
    constructor
    · rw [hsame.watched c']
      exact (hu.serverInv h.server).client c' |>.nodup
    · rw [hsame.watched c']
      exact (hu.serverInv h.server).client c' |>.listed

theorem WatchState.step (h : WatchState s) (ev : WatchEvent K V C) :
    ∃ s', watchStep s ev = some s' ∧ WatchState s' ∧ ∀ c, ev.Ends s c → Unmentioned s' c := by
  cases ev with
  | disconnect a =>
    obtain ⟨s', hs', hinv, hc⟩ := h.freeClient a
    refine ⟨s', hs', hinv, ?_⟩
    rintro c rfl
    exact hinv.tables.unmentioned hc
  | server ev =>
    obtain ⟨o, ho, hinv, _⟩ := serverStep_spec h.server ev
    refine ⟨o.server, by rw [watchStep, ho, map_some], ?_⟩
    cases ev with
    | request a clock req =>
      obtain ⟨ht, hends⟩ := h.tables.processCommand ho
      exact ⟨⟨hinv, ht⟩, fun c hc => ht.unmentioned (hends c hc)⟩
    | activeExpire d key now =>
      cases ho
      exact ⟨⟨hinv, (sameWatch_activeExpireCycleTryExpire s d key now).tables h.tables⟩,
        fun _ hends => hends.elim⟩

theorem WatchState.run (h : WatchState s) (evs : List (WatchEvent K V C)) :
    ∃ s', watchRun s evs = some s' ∧ WatchState s' := by
  induction evs generalizing s with
  | nil => exact ⟨s, rfl, h⟩
  | cons ev evs ih =>
    obtain ⟨s₁, h₁, hinv₁, _⟩ := h.step ev
    obtain ⟨s₂, h₂, hinv₂⟩ := ih hinv₁
    exact ⟨s₂, by rw [watchRun, h₁, bind_some, h₂], hinv₂⟩

/-- A server before the first connection. -/
structure WatchStart (s : RedisServer K V C) : Prop where
  expires : ExpiresInv s
  watchers : ∀ wk, s.watchers wk = none
  watched : ∀ c, s.watched c = []

theorem WatchStart.state (h : WatchStart s) : WatchState s where
  server := by
    refine ⟨h.expires, fun c => ?_⟩
    have hc : (s.client c).watchedKeys = [] := h.watched c
    exact ⟨by simp [hc], by simp [hc]⟩
  tables := TwoSided.empty.congr h.watchers h.watched

/-- In every run the two views agree, each client is listed once for a key and each key once for a
client, and no key has an empty list.  After an event that ends the watch of a client, nothing
mentions the client. -/
theorem watch_tables_agree {s₀ : RedisServer K V C} (hstart : WatchStart s₀)
    (evs : List (WatchEvent K V C)) :
    ∃ s, watchRun s₀ evs = some s ∧
      (∀ c d k, IsMember s.watchers (d, k) c ↔ (d, k) ∈ s.watched c) ∧
      (∀ wk clients, s.watchers wk = some clients → clients ≠ [] ∧ clients.Nodup) ∧
      (∀ c, (s.watched c).Nodup) ∧
      ∀ ev, ∃ s', watchStep s ev = some s' ∧ ∀ c, ev.Ends s c → Unmentioned s' c := by
  obtain ⟨s, hs, hinv⟩ := hstart.state.run evs
  refine ⟨s, hs, fun c d k => hinv.tables.agree (d, k) c, hinv.tables.members, hinv.tables.nodup,
    fun ev => ?_⟩
  obtain ⟨s', hs', _, hends⟩ := hinv.step ev
  exact ⟨s', hs', hends⟩

theorem twoClients_watchStart : WatchStart twoClients where
  expires := twoClients_start.expires
  watchers := fun _ => rfl
  watched := fun _ => rfl

/-- Both clients watch the key 7, and one of them disconnects. -/
theorem watch_tables_agree_disconnect :
    ∃ s, watchRun twoClients [.server (.request true noon (.watch [7, 7])),
        .server (.request false noon (.watch [7]))] = some s ∧
      s.watchers (0, 7) = some [true, false] ∧ s.watched true = [(0, 7)] ∧
      ∃ s', watchStep s (.disconnect true) = some s' ∧ Unmentioned s' true := by
  obtain ⟨s, hs, _, _, _, hstep⟩ := watch_tables_agree twoClients_watchStart
    [.server (.request true noon (.watch [7, 7])), .server (.request false noon (.watch [7]))]
  obtain ⟨s', hs', hends⟩ := hstep (.disconnect true)
  refine ⟨s, hs, ?_, ?_, s', hs', hends true rfl⟩
  · cases hs
    rfl
  · cases hs
    rfl

/-- An EXEC without MULTI is an error, and the client keeps its watch. -/
theorem exec_without_multi_watches :
    WatchStart twoClients ∧
    ∃ s s', watchRun twoClients [.server (.request true noon (.watch [7]))] = some s ∧
      watchStep s (.server (.request true noon .exec)) = some s' ∧ ¬ Unmentioned s' true := by
  refine ⟨twoClients_watchStart, _, _, rfl, rfl, ?_⟩
  rintro ⟨hwatched, _⟩
  cases hwatched

end Redis
