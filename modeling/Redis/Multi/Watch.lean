import Redis.Multi
import Redis.Db.Tracks

/-!
# Redis.Multi.Watch

The optimistic locking of WATCH: a transaction of a client is not executed
when another client changed a key it watches, unless the change was a MOVE.
-/

set_option linter.unusedSectionVars false

namespace Redis

open List

variable {K V C : Type} [DecidableEq K] [DecidableEq C]
variable {s s' : RedisServer K V C} {a c : C}

/-! ## Clients -/

theorem setClient_client (s : RedisServer K V C) (a c : C) (x : RedisClient K V) :
    (s.setClient a x).client c = if c = a then x else s.client c := by
  simp only [RedisServer.setClient, Function.update_apply]

theorem setClient_tracked (h : ExpiresInv s) (a : C) {x : RedisClient K V}
    (hwatched : x.watchedKeys = (s.client a).watchedKeys)
    (hdirty : x.dirtyCas = (s.client a).dirtyCas) : Tracked ∅ s (s.setClient a x) where
  expires := h
  tracks := by
    intro c _
    have hc : ((s.setClient a x).client c).watchedKeys = (s.client c).watchedKeys ∧
        ((s.setClient a x).client c).dirtyCas = (s.client c).dirtyCas := by
      rw [setClient_client]
      split
      · subst c
        exact ⟨hwatched, hdirty⟩
      · exact ⟨rfl, rfl⟩
    constructor
    · exact hc.1
    · rw [hc.2]
      exact id
    · intro hinv
      exact ⟨by rw [hc.1]; exact hinv.nodup, by rw [hc.1]; exact hinv.listed⟩
    · exact ⟨[], rfl, fun d k _ => .inl (by simp [RedisServer.stored, RedisServer.setClient])⟩

theorem selectCommand_tracked (h : ExpiresInv s) (c : C) (id : Option Int) :
    Tracked ∅ s (selectCommand s c id).1 := by
  rw [selectCommand.eq_def]
  split
  · exact Tracked.refl h
  split
  · exact Tracked.refl h
  · simp only [selectDb]
    split
    · exact Tracked.refl h
    next heq =>
      split at heq
      · cases heq
      · cases heq
        exact setClient_tracked h c rfl rfl

variable {U : Set (Nat × K)} {wk : Nat × K}

/-- Taking `a` off one list leaves the tables, the other lists and the other
clients alone. -/
theorem unwatchKey_spec (h : Listed s a wk) :
    ∃ s', unwatchKey s a wk = some s' ∧ s'.client = s.client ∧
      s'.propagatedExpires = s.propagatedExpires ∧
      (∀ d, (s'.db d).dict = (s.db d).dict ∧ (s'.db d).expires = (s.db d).expires) ∧
      (∀ c wk', (c ≠ a ∨ wk' ≠ wk) → Listed s c wk' → Listed s' c wk') := by
  obtain ⟨clients, hlist, hmem⟩ := h
  simp only [unwatchKey, hlist, hmem, if_true, Option.some.injEq, exists_eq_left']
  refine ⟨rfl, rfl, ?_, ?_⟩
  · intro d
    rw [setDb_db]
    split
    · subst d
      exact ⟨rfl, rfl⟩
    · exact ⟨rfl, rfl⟩
  · rintro c ⟨d', k'⟩ hne ⟨clients', hlist', hmem'⟩
    simp only [Listed, setDb_db] at hlist' ⊢
    by_cases hd : d' = wk.1
    · subst hd
      by_cases hk : k' = wk.2
      · subst hk
        have hca : c ≠ a := by simpa using hne
        rw [hlist] at hlist'
        cases hlist'
        have hmem'' : c ∈ clients.erase a := (mem_erase_of_ne hca).mpr hmem'
        have hnil : (clients.erase a).isEmpty = false := by
          cases hl : clients.erase a with
          | nil => simp [hl] at hmem''
          | cons => rfl
        exact ⟨clients.erase a, by simp [hnil], hmem''⟩
      · exact ⟨clients', by simp [Function.update_of_ne hk, hlist'], hmem'⟩
    · exact ⟨clients', by simp [hd, hlist'], hmem'⟩

theorem foldlM_unwatchKey_spec {wks : List (Nat × K)} (hnodup : wks.Nodup)
    (h : ∀ wk ∈ wks, Listed s a wk) :
    ∃ s', wks.foldlM (fun s wk => unwatchKey s a wk) s = some s' ∧ s'.client = s.client ∧
      s'.propagatedExpires = s.propagatedExpires ∧
      (∀ d, (s'.db d).dict = (s.db d).dict ∧ (s'.db d).expires = (s.db d).expires) ∧
      (∀ c wk, c ≠ a → Listed s c wk → Listed s' c wk) := by
  induction wks generalizing s with
  | nil => exact ⟨s, rfl, rfl, rfl, fun _ => ⟨rfl, rfl⟩, fun _ _ _ h => h⟩
  | cons wk wks ih =>
    obtain ⟨hwk, hnodup⟩ := nodup_cons.mp hnodup
    obtain ⟨s₁, h₁, hclient₁, hprop₁, hdb₁, hlisted₁⟩ := unwatchKey_spec (h wk (by simp))
    have hrest : ∀ wk' ∈ wks, Listed s₁ a wk' := by
      intro wk' hmem
      apply hlisted₁ a wk' (.inr ?_) (h wk' (mem_cons_of_mem wk hmem))
      rintro rfl
      exact hwk hmem
    obtain ⟨s₂, h₂, hclient₂, hprop₂, hdb₂, hlisted₂⟩ := ih hnodup hrest
    refine ⟨s₂, ?_, hclient₂.trans hclient₁, hprop₂.trans hprop₁, ?_, ?_⟩
    · simp only [foldlM_cons, h₁, some_bind]
      exact h₂
    · intro d
      exact ⟨(hdb₂ d).1.trans (hdb₁ d).1, (hdb₂ d).2.trans (hdb₁ d).2⟩
    · intro c wk' hc hl
      exact hlisted₂ c wk' hc (hlisted₁ c wk' (.inl hc) hl)

/-- The client `a` watches nothing any more; the tables and the other clients
are left alone. -/
structure Unwatches (a : C) (s s' : RedisServer K V C) : Prop where
  watchedKeys : (s'.client a).watchedKeys = []
  client : ∀ c, c ≠ a → s'.client c = s.client c
  propagatedExpires : s'.propagatedExpires = s.propagatedExpires
  tables : ∀ d, (s'.db d).dict = (s.db d).dict ∧ (s'.db d).expires = (s.db d).expires
  listed : ∀ c wk, c ≠ a → Listed s c wk → Listed s' c wk

theorem Unwatches.stored (h : Unwatches a s s') : s'.stored = s.stored := by
  funext d k
  rw [RedisServer.stored, RedisServer.stored, (h.tables d).1]

theorem Unwatches.clientInv (h : Unwatches a s s') (hc : c ≠ a) (hinv : ClientInv s c) :
    ClientInv s' c where
  nodup := by
    rw [h.client c hc]
    exact hinv.nodup
  listed := by
    rw [h.client c hc]
    exact fun wk hwk => h.listed c wk hc (hinv.listed wk hwk)

theorem Unwatches.serverInv (h : Unwatches a s s') (hinv : ServerInv s) : ServerInv s' where
  expires := by
    intro d k
    rw [h.stored, (h.tables d).2]
    exact hinv.expires d k
  client := by
    intro c
    by_cases hc : c = a
    · subst hc
      exact ⟨by simp [h.watchedKeys], by simp [h.watchedKeys]⟩
    · exact h.clientInv hc (hinv.client c)

theorem Unwatches.tracks (h : Unwatches a s s') (hc : c ≠ a) : Tracks c ∅ s s' where
  watchedKeys := by rw [h.client c hc]
  dirty := by rw [h.client c hc]; exact id
  inv := h.clientInv hc
  stored := ⟨[], by simpa using h.propagatedExpires, fun d k _ => .inl (by simp [h.stored])⟩

/-- `unwatchAllKeys` returns, and changes its client in the watched keys
only. -/
theorem unwatchAllKeys_spec (h : ClientInv s a) :
    ∃ s', unwatchAllKeys s a = some s' ∧ Unwatches a s s' ∧
      s'.client a = { s.client a with watchedKeys := [] } := by
  obtain ⟨s₁, h₁, hclient, hprop, hdb, hlisted⟩ := foldlM_unwatchKey_spec h.nodup h.listed
  have hself : (s₁.setClient a { s₁.client a with watchedKeys := [] }).client a =
      { s.client a with watchedKeys := [] } := by
    rw [setClient_client, if_pos rfl, hclient]
  refine ⟨s₁.setClient a { s₁.client a with watchedKeys := [] }, ?_, ?_, hself⟩
  · simp only [unwatchAllKeys, h₁, some_bind, Option.pure_def]
  · refine ⟨by rw [hself], fun c hc => ?_, hprop, hdb, hlisted⟩
    rw [setClient_client, if_neg hc, hclient]

theorem unwatchCommand_spec (h : ClientInv s a) :
    ∃ s' r, unwatchCommand s a = some (s', r) ∧ Unwatches a s s' := by
  obtain ⟨s₁, h₁, hu, _⟩ := unwatchAllKeys_spec h
  refine ⟨s₁.setClient a { s₁.client a with dirtyCas := false }, .ok, ?_, ?_⟩
  · simp only [unwatchCommand, h₁, some_bind, Option.pure_def]
  · refine ⟨?_, fun c hc => ?_, hu.propagatedExpires, hu.tables, hu.listed⟩
    · rw [setClient_client, if_pos rfl]
      exact hu.watchedKeys
    · rw [setClient_client, if_neg hc]
      exact hu.client c hc

theorem discardTransaction_spec (h : ClientInv s a) :
    ∃ s', discardTransaction s a = some s' ∧ Unwatches a s s' := by
  have hself : ∀ x : RedisClient K V, x.watchedKeys = (s.client a).watchedKeys →
      ClientInv (s.setClient a x) a := by
    intro x hx
    constructor
    · rw [setClient_client, if_pos rfl, hx]
      exact h.nodup
    · rw [setClient_client, if_pos rfl, hx]
      exact h.listed
  obtain ⟨s', h', hu, _⟩ := unwatchAllKeys_spec (hself { s.client a with
    mstate := [], multi := false, dirtyCas := false, dirtyExec := false } rfl)
  refine ⟨s', h', hu.watchedKeys, fun c hc => ?_, hu.propagatedExpires, hu.tables, hu.listed⟩
  rw [hu.client c hc, setClient_client, if_neg hc]

/-! ## Executed commands -/

theorem Tracked.serverInv (ht : Tracked U s s') (h : ServerInv s) : ServerInv s' :=
  ⟨ht.expires, fun c => (ht.tracks c (h.client c)).inv (h.client c)⟩

/-- Every command returns, keeps the invariant, and tells every observer about
the keys it changes, a MOVE excepted. -/
theorem call_spec (h : ServerInv s) (a : C) (now : Int) (cmd : Command K V) :
    ∃ s' r, call s a now cmd = some (s', r) ∧ ServerInv s' ∧
      ∀ c, (cmd = .unwatch → c ≠ a) → Tracks c (movedKeys s a cmd) s s' := by
  have tracked : ∀ s' r, call s a now cmd = some (s', r) → Tracked (movedKeys s a cmd) s s' →
      ∃ s' r, call s a now cmd = some (s', r) ∧ ServerInv s' ∧
        ∀ c, (cmd = .unwatch → c ≠ a) → Tracks c (movedKeys s a cmd) s s' :=
    fun s' r hr ht => ⟨s', r, hr, ht.serverInv h, fun c _ => ht.tracks c (h.client c)⟩
  cases cmd with
  | set key val options =>
    obtain ⟨s', r, hr, ht⟩ := setCommand_spec h.expires a key val options now
    exact tracked s' r hr ht
  | del keys =>
    obtain ⟨s', r, hr, ht⟩ := delCommand_spec h.expires a keys now
    exact tracked s' r hr ht
  | rename key newkey nx =>
    obtain ⟨s', r, hr, ht⟩ := renameGenericCommand_spec h.expires a key newkey nx now
    exact tracked s' r hr ht
  | move key dbid =>
    obtain ⟨s', r, hr, ht⟩ := moveCommand_spec h.expires a key dbid now
    exact tracked s' r hr ht
  | expire key param absolute unit =>
    obtain ⟨s', r, hr, ht⟩ := expireGenericCommand_spec h.expires a key param absolute unit now
    exact tracked s' r hr ht
  | flushdb => exact tracked _ _ rfl (flushdbCommand_tracked h.expires a)
  | flushall => exact tracked _ _ rfl (flushallCommand_tracked h.expires)
  | select id => exact tracked _ _ rfl (selectCommand_tracked h.expires a id)
  | unwatch =>
    obtain ⟨s', r, hr, hu⟩ := unwatchCommand_spec (h.client a)
    exact ⟨s', r, hr, hu.serverInv h, fun c hc => hu.tracks (hc rfl)⟩

/-- The keys that expired lazily while the command ran: their DELs were sent to
the AOF and the slaves. -/
def Call.expired (x : Call K V C) : List (Nat × K) :=
  x.after.propagatedExpires.take
    (x.after.propagatedExpires.length - x.before.propagatedExpires.length)

local instance instLawfulBEqWatched : LawfulBEq (Nat × K) := inferInstance

/-- The command changed the value stored under `k` in the database `d`, other
than by lazy expiration. -/
def Call.Changes (x : Call K V C) (d : Nat) (k : K) : Prop :=
  x.after.stored d k ≠ if (d, k) ∈ x.expired then none else x.before.stored d k

instance [DecidableEq V] (x : Call K V C) (d : Nat) (k : K) : Decidable (x.Changes d k) :=
  inferInstanceAs (Decidable (_ ≠ _))

/-- The command is not a MOVE of `k`. -/
def Call.NotMoveOf (x : Call K V C) (k : K) : Prop :=
  ∀ key dbid, x.cmd = .move key dbid → key ≠ k

/-- What the observer `c` keeps of a stretch of a run: its watched keys and its
dirty mark, and a mark for every change of a watched key. -/
structure Noted (c : C) (s s' : RedisServer K V C) (calls : List (Call K V C)) : Prop where
  watchedKeys : ∀ wk ∈ (s.client c).watchedKeys, wk ∈ (s'.client c).watchedKeys
  dirty : (s.client c).dirtyCas = true → (s'.client c).dirtyCas = true
  changes : ∀ x ∈ calls, ∀ d k, (d, k) ∈ (s.client c).watchedKeys → x.Changes d k →
    x.NotMoveOf k → (s'.client c).dirtyCas = true

theorem Noted.trans {s₁ s₂ : RedisServer K V C} {xs ys : List (Call K V C)} (h : Noted c s s₁ xs)
    (h' : Noted c s₁ s₂ ys) : Noted c s s₂ (xs ++ ys) where
  watchedKeys := fun wk hwk => h'.watchedKeys wk (h.watchedKeys wk hwk)
  dirty := fun hd => h'.dirty (h.dirty hd)
  changes := by
    intro x hx d k hw hc hm
    cases mem_append.mp hx with
    | inl hx => exact h'.dirty (h.changes x hx d k hw hc hm)
    | inr hx => exact h'.changes x hx d k (h.watchedKeys _ hw) hc hm

theorem Tracks.noted (h : Tracks c U s s') : Noted c s s' [] where
  watchedKeys := by rw [h.watchedKeys]; exact fun _ hwk => hwk
  dirty := h.dirty
  changes := by simp

/-- The change of a watched key by an executed command is noted. -/
theorem Tracks.noted_call {cmd : Command K V} (h : Tracks c (movedKeys s a cmd) s s') :
    Noted c s s' [⟨a, cmd, s, s'⟩] where
  watchedKeys := h.noted.watchedKeys
  dirty := h.dirty
  changes := by
    intro x hx d k hw hchange hmove
    obtain rfl := mem_singleton.mp hx
    obtain ⟨e, he, hs⟩ := h.stored
    have hexp : Call.expired ⟨a, cmd, s, s'⟩ = e := by simp [Call.expired, he]
    have hU : (d, k) ∉ movedKeys s a cmd := by
      cases cmd with
      | move key dbid =>
        have hk := hmove key dbid rfl
        simp only [movedKeys, Set.mem_insert_iff, Set.mem_singleton_iff, Prod.mk.injEq]
        grind
      | _ => simp [movedKeys]
    cases hs d k hU with
    | inl hval =>
      rw [← hexp] at hval
      exact absurd hval hchange
    | inr hdirty => exact hdirty hw

theorem Unwatches.noted (h : Unwatches a s s') (hc : c ≠ a) : Noted c s s' [] :=
  (h.tracks hc).noted

/-- The queued commands of another client run one after the other. -/
theorem execLoop_spec (h : ServerInv s) (a : C) (cmds : List (Command K V)) (clock : Nat → Int) :
    ∃ r, execLoop a cmds clock s = some r ∧ ServerInv r.1 ∧
      ∀ c, c ≠ a → Noted c s r.1 r.2.2 := by
  induction cmds generalizing s clock with
  | nil => exact ⟨_, rfl, h, fun c _ => (Tracks.refl c s).noted⟩
  | cons cmd cmds ih =>
    obtain ⟨s₁, r₁, h₁, hinv₁, ht₁⟩ := call_spec h a (clock 0) cmd
    obtain ⟨r₂, h₂, hinv₂, hn₂⟩ := ih hinv₁ fun j => clock (j + 1)
    refine ⟨(r₂.1, r₁ :: r₂.2.1, ⟨a, cmd, s, s₁⟩ :: r₂.2.2), ?_, hinv₂, ?_⟩
    · simp only [execLoop, h₁, h₂, some_bind, Option.pure_def]
    · intro c hc
      exact (ht₁ c fun _ => hc).noted_call.trans (hn₂ c hc)

theorem execCommand_spec (h : ServerInv s) (a : C) (clock : Nat → Int) :
    ∃ o, execCommand s a clock = some o ∧ ServerInv o.server ∧
      ∀ c, c ≠ a → Noted c s o.server o.calls := by
  rw [execCommand]
  split
  · exact ⟨_, rfl, h, fun c _ => (Tracks.refl c s).noted⟩
  split
  · obtain ⟨s', h', hu⟩ := discardTransaction_spec (h.client a)
    simp only [h', some_bind, Option.pure_def]
    exact ⟨_, rfl, hu.serverInv h, fun c hc => hu.noted hc⟩
  · obtain ⟨s₁, h₁, hu₁, _⟩ := unwatchAllKeys_spec (h.client a)
    have hinv₁ := hu₁.serverInv h
    obtain ⟨r, hr, hinv₂, hn⟩ := execLoop_spec hinv₁ a (s.client a).mstate clock
    obtain ⟨s₃, h₃, hu₃⟩ := discardTransaction_spec (hinv₂.client a)
    simp only [h₁, hr, h₃, some_bind, Option.pure_def]
    refine ⟨_, rfl, hu₃.serverInv hinv₂, fun c hc => ?_⟩
    simpa using ((hu₁.noted hc).trans (hn c hc)).trans (hu₃.noted hc)

theorem execCommand_of_dirty (h : ClientInv s c) (hdirty : (s.client c).dirtyCas = true)
    (clock : Nat → Int) :
    ∃ o, execCommand s c clock = some o ∧ o.calls = [] ∧ o.server.stored = s.stored ∧
      ((s.client c).multi = true → o.reply = .nullmultibulk ∨ o.reply = execaborterr) := by
  rw [execCommand]
  cases hmulti : (s.client c).multi with
  | false => exact ⟨_, rfl, rfl, rfl, by simp⟩
  | true =>
    obtain ⟨s', h', hu⟩ := discardTransaction_spec h
    simp only [Bool.not_true, Bool.false_eq_true, if_false, hdirty, Bool.true_or, if_true, h',
      some_bind, Option.pure_def, Option.some.injEq,
      exists_eq_left', hu.stored, true_and]
    intro _
    cases (s.client c).dirtyExec with
    | true => exact .inr rfl
    | false => exact .inl rfl

/-! ## WATCH -/

theorem watchForKey_client_of_ne (s : RedisServer K V C) (hc : c ≠ a) (k : K) :
    (watchForKey s a k).client c = s.client c := by
  simp only [watchForKey]
  split
  · rfl
  · rw [setClient_client, if_neg hc]
    rfl

theorem watchForKey_tables (s : RedisServer K V C) (a : C) (k : K) (d : Nat) :
    ((watchForKey s a k).db d).dict = (s.db d).dict ∧
      ((watchForKey s a k).db d).expires = (s.db d).expires := by
  simp only [watchForKey]
  split
  · exact ⟨rfl, rfl⟩
  · simp only [RedisServer.setClient, setDb_db]
    split
    · subst d
      exact ⟨rfl, rfl⟩
    · exact ⟨rfl, rfl⟩

theorem watchForKey_listed (a : C) (k : K) (h : Listed s c wk) :
    Listed (watchForKey s a k) c wk := by
  obtain ⟨clients, hlist, hmem⟩ := h
  simp only [watchForKey]
  split
  · exact ⟨clients, hlist, hmem⟩
  · simp only [Listed, RedisServer.setClient, setDb_db]
    obtain ⟨d', k'⟩ := wk
    simp only at hlist ⊢
    by_cases hd : d' = (s.client a).db
    · subst hd
      by_cases hk : k' = k
      · subst hk
        exact ⟨clients ++ [a], by simp [RedisDb.addWatcher, hlist], by simp [hmem]⟩
      · exact ⟨clients, by simp [RedisDb.addWatcher, Function.update_of_ne hk, hlist], hmem⟩
    · exact ⟨clients, by simp [hd, hlist], hmem⟩

/-- The client watches the key in its database. -/
theorem watchForKey_self (s : RedisServer K V C) (a : C) (k : K) :
    ((s.client a).db, k) ∈ ((watchForKey s a k).client a).watchedKeys ∧
      ((watchForKey s a k).client a).db = (s.client a).db ∧
      ((watchForKey s a k).client a).dirtyCas = (s.client a).dirtyCas ∧
      ∀ wk ∈ (s.client a).watchedKeys, wk ∈ ((watchForKey s a k).client a).watchedKeys := by
  simp only [watchForKey]
  split
  next hmem => exact ⟨hmem, rfl, rfl, fun _ h => h⟩
  next => simp +contextual [setClient_client]

theorem watchForKey_clientInv (h : ClientInv s a) (k : K) : ClientInv (watchForKey s a k) a := by
  have hlisted : ∀ wk ∈ (s.client a).watchedKeys, Listed (watchForKey s a k) a wk :=
    fun wk hwk => watchForKey_listed a k (h.listed wk hwk)
  revert hlisted
  simp only [watchForKey]
  split
  · exact fun _ => h
  next hnew =>
    intro hlisted
    constructor
    · simp only [setClient_client, if_true]
      rw [nodup_append]
      exact ⟨h.nodup, by simp, by grind⟩
    · intro wk hwk
      simp only [setClient_client, if_true, mem_append, mem_singleton] at hwk
      cases hwk with
      | inl hwk => exact hlisted wk hwk
      | inr hwk =>
        subst hwk
        simp [Listed, RedisServer.setClient, setDb_db, RedisDb.addWatcher]

theorem watchForKey_serverInv (h : ServerInv s) (a : C) (k : K) :
    ServerInv (watchForKey s a k) where
  expires := by
    intro d k'
    rw [RedisServer.stored, (watchForKey_tables s a k d).1, (watchForKey_tables s a k d).2]
    exact h.expires d k'
  client := by
    intro c
    by_cases hc : c = a
    · subst hc
      exact watchForKey_clientInv (h.client c) k
    · have hsame := watchForKey_client_of_ne s hc k
      constructor
      · rw [hsame]
        exact (h.client c).nodup
      · rw [hsame]
        exact fun wk hwk => watchForKey_listed a k ((h.client c).listed wk hwk)

theorem watchForKey_noted (s : RedisServer K V C) (a c : C) (k : K) :
    Noted c s (watchForKey s a k) [] := by
  by_cases hc : c = a
  · subst hc
    obtain ⟨_, _, hdirty, hkeep⟩ := watchForKey_self s c k
    exact ⟨hkeep, by rw [hdirty]; exact id, by simp⟩
  · have hsame := watchForKey_client_of_ne s hc k
    exact ⟨by rw [hsame]; exact fun _ h => h, by rw [hsame]; exact id, by simp⟩

theorem foldl_watchForKey_spec (h : ServerInv s) (a : C) (keys : List K) :
    ServerInv (keys.foldl (fun s key => watchForKey s a key) s) ∧
      ∀ c, Noted c s (keys.foldl (fun s key => watchForKey s a key) s) [] := by
  induction keys generalizing s with
  | nil => exact ⟨h, fun c => (Tracks.refl c s).noted⟩
  | cons k keys ih =>
    obtain ⟨hinv, hn⟩ := ih (watchForKey_serverInv h a k)
    exact ⟨hinv, fun c => (watchForKey_noted s a c k).trans (hn c)⟩

theorem foldl_watchForKey_mem (s : RedisServer K V C) (a : C) {keys : List K} {k : K}
    (hk : k ∈ keys) :
    ((s.client a).db, k) ∈
      ((keys.foldl (fun s key => watchForKey s a key) s).client a).watchedKeys := by
  induction keys generalizing s with
  | nil => simp at hk
  | cons key keys ih =>
    have hself := watchForKey_self s a key
    simp only [foldl_cons]
    cases mem_cons.mp hk with
    | inl heq =>
      subst heq
      have hkeep : ∀ (ks : List K) (s : RedisServer K V C), ∀ wk ∈ (s.client a).watchedKeys,
          wk ∈ ((ks.foldl (fun s key => watchForKey s a key) s).client a).watchedKeys := by
        intro ks
        induction ks with
        | nil => exact fun s wk h => h
        | cons k' ks ih' =>
          exact fun s wk h => ih' _ wk ((watchForKey_self s a k').2.2.2 wk h)
      exact hkeep keys _ _ hself.1
    | inr hmem =>
      have := ih (watchForKey s a key) hmem
      rwa [hself.2.1] at this

/-! ## Runs -/

/-- UNWATCH, DISCARD and EXEC. -/
def Request.endsWatch : Request K V → Bool
  | .command .unwatch => true
  | .discard => true
  | .exec => true
  | _ => false

/-- The event is an UNWATCH, DISCARD or EXEC of the client `c`. -/
def ServerEvent.endsWatchOf (c : C) : ServerEvent K V C → Bool
  | .request a _ req => decide (a = c) && req.endsWatch
  | .activeExpire _ _ _ => false

theorem activeExpireCycleTryExpire_tracked (h : ExpiresInv s) (d : Nat) (k : K) (now : Int) :
    Tracked ∅ s (activeExpireCycleTryExpire s d k now) := by
  rw [activeExpireCycleTryExpire.eq_def]
  split
  · exact Tracked.refl h
  · split
    · exact expire_tracked h d k
    · exact Tracked.refl h

theorem flagTransaction_tracked (h : ExpiresInv s) (a : C) : Tracked ∅ s (flagTransaction s a) := by
  rw [flagTransaction]
  split
  · exact setClient_tracked h a rfl rfl
  · exact Tracked.refl h

/-- Every request returns and keeps the invariant; a client that did not end
its watch by it notes what was changed. -/
theorem processCommand_spec (h : ServerInv s) (a : C) (clock : Nat → Int) (req : Request K V) :
    ∃ o, processCommand s a clock req = some o ∧ ServerInv o.server ∧
      ∀ c, (a = c → req.endsWatch = false) → Noted c s o.server o.calls := by
  have tracked : ∀ o, processCommand s a clock req = some o → Tracked ∅ s o.server → o.calls = [] →
      ∃ o, processCommand s a clock req = some o ∧ ServerInv o.server ∧
        ∀ c, (a = c → req.endsWatch = false) → Noted c s o.server o.calls := by
    intro o ho ht hcalls
    refine ⟨o, ho, ht.serverInv h, fun c _ => ?_⟩
    rw [hcalls]
    exact (ht.tracks c (h.client c)).noted
  cases req with
  | command cmd =>
    cases hmulti : (s.client a).multi with
    | true =>
      exact tracked ⟨queueMultiCommand s a cmd, .queued, []⟩ (by simp [processCommand, hmulti])
        (setClient_tracked h.expires a rfl rfl) rfl
    | false =>
      obtain ⟨s', r, hr, hinv, ht⟩ := call_spec h a (clock 0) cmd
      refine ⟨⟨s', r, [⟨a, cmd, s, s'⟩]⟩, by simp [processCommand, hmulti, hr], hinv, ?_⟩
      intro c hc
      apply (ht c ?_).noted_call
      rintro rfl rfl
      simp [Request.endsWatch] at hc
  | watch keys =>
    simp only [processCommand, watchCommand]
    split
    · exact ⟨_, rfl, h, fun c _ => (Tracks.refl c s).noted⟩
    · obtain ⟨hinv, hn⟩ := foldl_watchForKey_spec h a keys
      exact ⟨_, rfl, hinv, fun c _ => hn c⟩
  | multi =>
    apply tracked _ rfl ?_ rfl
    simp only [multiCommand]
    split
    · exact Tracked.refl h.expires
    · exact setClient_tracked h.expires a rfl rfl
  | discard =>
    simp only [processCommand, discardCommand]
    split
    · exact ⟨_, rfl, h, fun c _ => (Tracks.refl c s).noted⟩
    · obtain ⟨s', h', hu⟩ := discardTransaction_spec (h.client a)
      simp only [h', some_bind, Option.pure_def]
      refine ⟨_, rfl, hu.serverInv h, fun c hc => hu.noted ?_⟩
      rintro rfl
      simp [Request.endsWatch] at hc
  | exec =>
    obtain ⟨o, ho, hinv, hn⟩ := execCommand_spec h a clock
    refine ⟨o, ho, hinv, fun c hc => hn c ?_⟩
    rintro rfl
    simp [Request.endsWatch] at hc
  | rejected flag text =>
    apply tracked _ rfl ?_ rfl
    split
    · exact flagTransaction_tracked h.expires a
    · exact Tracked.refl h.expires

theorem serverStep_spec (h : ServerInv s) (ev : ServerEvent K V C) :
    ∃ o, serverStep s ev = some o ∧ ServerInv o.server ∧
      ∀ c, ev.endsWatchOf c = false → Noted c s o.server o.calls := by
  cases ev with
  | request a clock req =>
    obtain ⟨o, ho, hinv, hn⟩ := processCommand_spec h a clock req
    refine ⟨o, ho, hinv, fun c hc => hn c ?_⟩
    rintro rfl
    simpa [ServerEvent.endsWatchOf] using hc
  | activeExpire d k now =>
    have ht := activeExpireCycleTryExpire_tracked h.expires d k now
    exact ⟨_, rfl, ht.serverInv h, fun c _ => (ht.tracks c (h.client c)).noted⟩

/-- A run of events never fails an assertion, and a client that does not end
its watch in it notes every change of a watched key. -/
theorem serverRun_spec (h : ServerInv s) (evs : List (ServerEvent K V C)) :
    ∃ s' calls, serverRun s evs = some (s', calls) ∧ ServerInv s' ∧
      ∀ c, (∀ ev ∈ evs, ev.endsWatchOf c = false) → Noted c s s' calls := by
  induction evs generalizing s with
  | nil => exact ⟨s, [], rfl, h, fun c _ => (Tracks.refl c s).noted⟩
  | cons ev evs ih =>
    obtain ⟨o, ho, hinv, hn⟩ := serverStep_spec h ev
    obtain ⟨s', calls, hrun, hinv', hn'⟩ := ih hinv
    refine ⟨s', o.calls ++ calls, ?_, hinv', ?_⟩
    · simp only [serverRun, ho, hrun, some_bind, Option.pure_def]
    · intro c hc
      exact (hn c (hc ev (by simp))).trans
        (hn' c fun ev' hev' => hc ev' (mem_cons_of_mem ev hev'))

/-- A server before the first request: nobody watches a key, and the expires
of the data set are those of stored keys. -/
structure ServerStart (s : RedisServer K V C) : Prop where
  expires : ExpiresInv s
  watchedKeys : ∀ c, (s.client c).watchedKeys = []

theorem ServerStart.serverInv (h : ServerStart s) : ServerInv s :=
  ⟨h.expires, fun c => ⟨by simp [h.watchedKeys], by simp [h.watchedKeys]⟩⟩

/-- Optimistic locking: the client `c` watches `k` in the database `d`; then,
without an UNWATCH, DISCARD or EXEC of `c`, a command of another client that
is not a MOVE of `k` changes the value stored under `k` in `d`, other than by
lazy expiration.  The EXEC of `c` then runs nothing, and answers a
transaction with a nil multi-bulk or EXECABORT. -/
theorem exec_aborts_of_changed {s₀ : RedisServer K V C} (hstart : ServerStart s₀)
    (before between : List (ServerEvent K V C)) (c : C) (clock clock' : Nat → Int)
    (keys : List K) (d : Nat) (k : K) :
    ∃ s₁ calls₁ o₁ s₂ calls₂ o₂,
      serverRun s₀ before = some (s₁, calls₁) ∧
      processCommand s₁ c clock (.watch keys) = some o₁ ∧
      serverRun o₁.server between = some (s₂, calls₂) ∧
      processCommand s₂ c clock' .exec = some o₂ ∧
      (k ∈ keys → (s₁.client c).multi = false → (s₁.client c).db = d →
        (∀ ev ∈ between, ev.endsWatchOf c = false) →
        (∃ x ∈ calls₂, x.client ≠ c ∧ x.Changes d k ∧ x.NotMoveOf k) →
        o₂.calls = [] ∧ o₂.server.stored = s₂.stored ∧
          ((s₂.client c).multi = true → o₂.reply = .nullmultibulk ∨ o₂.reply = execaborterr)) := by
  obtain ⟨s₁, calls₁, h₁, hinv₁, _⟩ := serverRun_spec hstart.serverInv before
  obtain ⟨o₁, ho₁, hinvo₁, _⟩ := processCommand_spec hinv₁ c clock (.watch keys)
  obtain ⟨s₂, calls₂, h₂, hinv₂, hn⟩ := serverRun_spec hinvo₁ between
  obtain ⟨o₂, ho₂, _, _⟩ := processCommand_spec hinv₂ c clock' .exec
  refine ⟨s₁, calls₁, o₁, s₂, calls₂, o₂, h₁, ho₁, h₂, ho₂, ?_⟩
  rintro hk hmulti rfl hends ⟨x, hx, _, hchange, hmove⟩
  have hwatched : ((s₁.client c).db, k) ∈ (o₁.server.client c).watchedKeys := by
    simp only [processCommand, watchCommand, hmulti, Bool.false_eq_true, if_false,
      Option.some.injEq] at ho₁
    subst ho₁
    exact foldl_watchForKey_mem s₁ c hk
  have hdirty : (s₂.client c).dirtyCas = true :=
    (hn c hends).changes x hx _ k hwatched hchange hmove
  obtain ⟨o, ho, hspec⟩ := execCommand_of_dirty (hinv₂.client c) hdirty clock'
  have heq : o₂ = o := by
    rw [processCommand] at ho₂
    exact Option.some.inj (ho₂.symm.trans ho)
  rw [heq]
  exact hspec

/-! ## Two clients -/

/-- Two clients on the database 0, in which the key 7 holds 1. -/
def twoClients : RedisServer Nat Nat Bool where
  dbnum := 16
  db := fun d => ⟨fun k => if d = 0 ∧ k = 7 then some 1 else none, fun _ => none, fun _ => none⟩
  client := fun _ => ⟨0, false, false, false, [], []⟩
  clusterEnabled := false
  masterhost := false
  loading := false
  propagatedExpires := []

theorem twoClients_start : ServerStart twoClients where
  expires := by simp [ExpiresInv, twoClients]
  watchedKeys := fun _ => rfl

/-- The clock of the examples. -/
def noon : Nat → Int := fun _ => 43200000

/-- The other client runs `cmd`, then the watching client `true` queues a
SET. -/
def otherThenSet (cmd : Command Nat Nat) : List (ServerEvent Nat Nat Bool) :=
  [.request false noon (.command cmd),
   .request true noon .multi,
   .request true noon (.command (.set 7 2 []))]

theorem exec_aborts_of_changed_del :
    ∃ o₁ s₂ calls₂ o₂,
      processCommand twoClients true noon (.watch [7]) = some o₁ ∧
      serverRun o₁.server (otherThenSet (.del [7])) = some (s₂, calls₂) ∧
      processCommand s₂ true noon .exec = some o₂ ∧
      o₂.calls = [] ∧ (o₂.reply = .nullmultibulk ∨ o₂.reply = execaborterr) := by
  obtain ⟨s₁, calls₁, o₁, s₂, calls₂, o₂, h₁, ho₁, h₂, ho₂, hspec⟩ :=
    exec_aborts_of_changed twoClients_start [] (otherThenSet (.del [7])) true noon noon [7] 0 7
  refine ⟨o₁, s₂, calls₂, o₂, ?_, h₂, ho₂, ?_⟩
  · cases h₁
    exact ho₁
  · cases h₁
    cases Option.some.inj ho₁
    cases Option.some.inj h₂
    have hend := hspec (by simp) rfl rfl (by simp [otherThenSet, ServerEvent.endsWatchOf,
      Request.endsWatch]) ⟨_, mem_cons_self, by simp, by decide, by simp [Call.NotMoveOf]⟩
    exact ⟨hend.1, hend.2.2 rfl⟩

/-- A MOVE of a watched key goes unnoticed: the EXEC runs its SET. -/
theorem exec_runs_after_move :
    ServerStart twoClients ∧
    (∀ ev ∈ otherThenSet (.move 7 (some 1)), ev.endsWatchOf true = false) ∧
    ∃ o₁ s₂ calls₂ o₂,
      processCommand twoClients true noon (.watch [7]) = some o₁ ∧
      serverRun o₁.server (otherThenSet (.move 7 (some 1))) = some (s₂, calls₂) ∧
      (∃ x ∈ calls₂, x.client ≠ true ∧ x.Changes 0 7) ∧
      processCommand s₂ true noon .exec = some o₂ ∧
      o₂.reply = .multi [.ok] ∧ o₂.calls.length = 1 ∧ o₂.server.stored 0 7 = some 2 := by
  refine ⟨twoClients_start, by simp [otherThenSet, ServerEvent.endsWatchOf, Request.endsWatch],
    _, _, _, _, rfl, rfl, ⟨_, mem_cons_self, by simp, by decide⟩, rfl, rfl, rfl, rfl⟩

end Redis
