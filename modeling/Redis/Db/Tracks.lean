import Mathlib.Data.Set.Insert
import Redis.Bytes
import Redis.Db

/-!
# Redis.Db.Tracks

What the keyspace commands tell the clients that watch keys.

Every command is followed for one observing client.  `Tracks` says what a
part of a command may do without the observer being told: expire keys and
change the keys of a set `U` that are still to be signalled.  A command that
ends with `U` empty has told the observer about every key it changed; only
MOVE ends with keys left in `U`.
-/

set_option linter.unusedSectionVars false

namespace Redis

open Option
open Function (update)

variable {K V C : Type} [DecidableEq K] [DecidableEq C]
variable {c : C} {U U' : Set (Nat × K)} {s s' s₁ s₂ : RedisServer K V C} {d : Nat} {k : K}

/-! ## Invariants -/

/-- A key with an expire time is in the main table. -/
def ExpiresInv (s : RedisServer K V C) : Prop :=
  ∀ d k, ((s.db d).expires k).isSome → (s.stored d k).isSome

/-- The client `c` is on the list of the watched key `wk`. -/
def Listed (s : RedisServer K V C) (c : C) (wk : Nat × K) : Prop :=
  ∃ clients, (s.db wk.1).watchedKeys wk.2 = some clients ∧ c ∈ clients

/-- Every key a client watches has the client in its list. -/
structure ClientInv (s : RedisServer K V C) (c : C) : Prop where
  nodup : (s.client c).watchedKeys.Nodup
  listed : ∀ wk ∈ (s.client c).watchedKeys, Listed s c wk

structure ServerInv (s : RedisServer K V C) : Prop where
  expires : ExpiresInv s
  client : ∀ c, ClientInv s c

/-- What a step does to the observing client `c`: it stays on its lists, and
every key outside `U` it watches is unchanged, up to lazy expiration, or the
client is marked dirty. -/
structure Tracks (c : C) (U : Set (Nat × K)) (s s' : RedisServer K V C) : Prop where
  watchedKeys : (s'.client c).watchedKeys = (s.client c).watchedKeys
  dirty : (s.client c).dirtyCas = true → (s'.client c).dirtyCas = true
  inv : ClientInv s c → ClientInv s' c
  stored : ∃ e, s'.propagatedExpires = e ++ s.propagatedExpires ∧ ∀ d k, (d, k) ∉ U →
    s'.stored d k = (if (d, k) ∈ e then none else s.stored d k) ∨
      ((d, k) ∈ (s.client c).watchedKeys → (s'.client c).dirtyCas = true)

theorem Tracks.refl (c : C) (s : RedisServer K V C) : Tracks c ∅ s s where
  watchedKeys := rfl
  dirty := id
  inv := id
  stored := ⟨[], rfl, fun d k _ => .inl (by simp)⟩

theorem Tracks.mono (h : Tracks c U s s') (hU : U ⊆ U') : Tracks c U' s s' where
  watchedKeys := h.watchedKeys
  dirty := h.dirty
  inv := h.inv
  stored := by
    obtain ⟨e, he, hs⟩ := h.stored
    exact ⟨e, he, fun d k hk => hs d k (fun hm => hk (hU hm))⟩

theorem Tracks.trans (h : Tracks c U s s₁) (h' : Tracks c U' s₁ s₂) : Tracks c (U ∪ U') s s₂ where
  watchedKeys := h'.watchedKeys.trans h.watchedKeys
  dirty := fun hd => h'.dirty (h.dirty hd)
  inv := fun hi => h'.inv (h.inv hi)
  stored := by
    obtain ⟨e, he, hs⟩ := h.stored
    obtain ⟨e', he', hs'⟩ := h'.stored
    refine ⟨e' ++ e, by rw [he', he, List.append_assoc], ?_⟩
    intro d k hk
    simp only [Set.mem_union, not_or] at hk
    cases hs' d k hk.2 with
    | inr hdirty => exact .inr fun hw => hdirty (h.watchedKeys ▸ hw)
    | inl hval' =>
      cases hs d k hk.1 with
      | inr hdirty => exact .inr fun hw => h'.dirty (hdirty hw)
      | inl hval =>
        left
        rw [hval', hval]
        by_cases hmem : (d, k) ∈ e'
        · simp [hmem]
        · simp [hmem]

/-- A step on the tables of keys and expires, with no client told. -/
theorem Tracks.of_tables (hclient : s'.client = s.client)
    (hwatch : ∀ d, (s'.db d).watchedKeys = (s.db d).watchedKeys)
    (hprop : s'.propagatedExpires = s.propagatedExpires)
    (hstored : ∀ d k, (d, k) ∉ U → s'.stored d k = s.stored d k) : Tracks c U s s' where
  watchedKeys := by rw [hclient]
  dirty := by rw [hclient]; exact id
  inv := fun h => ⟨by rw [hclient]; exact h.nodup, by
    simp only [hclient, Listed, hwatch]
    exact h.listed⟩
  stored := ⟨[], by simpa using hprop, fun d k hk => .inl (by simpa using hstored d k hk)⟩

theorem Tracks.of_dirty
    (hclient : ∃ b, s'.client c = { s.client c with dirtyCas := (s.client c).dirtyCas || b })
    (hdb : s'.db = s.db) (hprop : s'.propagatedExpires = s.propagatedExpires) :
    Tracks c ∅ s s' := by
  obtain ⟨b, hb⟩ := hclient
  constructor
  · rw [hb]
  · intro hd
    simp [hb, hd]
  · intro h
    constructor
    · rw [hb]
      exact h.nodup
    · simp only [hb, Listed, hdb]
      exact h.listed
  · exact ⟨[], by simpa using hprop, fun d k _ => .inl (by simp [RedisServer.stored, hdb])⟩

/-! ## Signals -/

theorem touchWatchedKey_client (s : RedisServer K V C) (d : Nat) (k : K) (c : C) :
    ∃ b, (touchWatchedKey s d k).client c =
      { s.client c with dirtyCas := (s.client c).dirtyCas || b } := by
  rw [touchWatchedKey]
  split
  · exact ⟨false, by simp⟩
  · by_cases hc : c ∈ ‹List C›
    · exact ⟨true, by simp [hc]⟩
    · exact ⟨false, by simp [hc]⟩

theorem touchWatchedKey_db (s : RedisServer K V C) (d : Nat) (k : K) :
    (touchWatchedKey s d k).db = s.db ∧
      (touchWatchedKey s d k).propagatedExpires = s.propagatedExpires := by
  rw [touchWatchedKey]
  split <;> exact ⟨rfl, rfl⟩

theorem touchWatchedKey_dirty (h : ClientInv s c) (hw : (d, k) ∈ (s.client c).watchedKeys) :
    ((touchWatchedKey s d k).client c).dirtyCas = true := by
  obtain ⟨clients, hlist, hmem⟩ := h.listed _ hw
  simp only at hlist
  simp [touchWatchedKey, hlist, hmem]

theorem Tracks.signal (h : Tracks c U s s') (hinv : ClientInv s c) (d : Nat) (k : K) :
    Tracks c (U \ {(d, k)}) s (signalModifiedKey s' d k) := by
  rw [signalModifiedKey]
  have hdb := touchWatchedKey_db s' d k
  have ht : Tracks c ∅ s' (touchWatchedKey s' d k) :=
    Tracks.of_dirty (touchWatchedKey_client s' d k c) hdb.1 hdb.2
  have hall := h.trans ht
  constructor
  · exact hall.watchedKeys
  · exact hall.dirty
  · exact hall.inv
  · obtain ⟨e, he, hs⟩ := hall.stored
    refine ⟨e, he, ?_⟩
    intro d' k' hk
    by_cases heq : (d', k') = (d, k)
    · cases heq
      right
      intro hw
      exact touchWatchedKey_dirty (h.inv hinv) (h.watchedKeys ▸ hw)
    · apply hs d' k'
      intro hm
      simp only [Set.union_empty] at hm
      exact hk ⟨hm, heq⟩

/-! ## The tables -/

theorem setDb_db (s : RedisServer K V C) (d d' : Nat) (x : RedisDb K V C) :
    (s.setDb d x).db d' = if d' = d then x else s.db d' := by
  simp only [RedisServer.setDb, Function.update_apply]

theorem setDb_tracks {x : RedisDb K V C} (hwatch : x.watchedKeys = (s.db d).watchedKeys)
    (hdict : ∀ k', k' ≠ k → x.dict k' = (s.db d).dict k') : Tracks c {(d, k)} s (s.setDb d x) := by
  apply Tracks.of_tables
  · rfl
  · intro d'
    rw [setDb_db]
    split
    · subst d'
      exact hwatch
    · rfl
  · rfl
  · intro d' k' hk
    simp only [RedisServer.stored, setDb_db]
    by_cases hd : d' = d
    · subst hd
      rw [if_pos rfl]
      apply hdict
      rintro rfl
      exact hk rfl
    · rw [if_neg hd]

theorem setDb_expiresInv (h : ExpiresInv s) {x : RedisDb K V C}
    (hx : ∀ k, (x.expires k).isSome → (x.dict k).isSome) : ExpiresInv (s.setDb d x) := by
  intro d' k
  simp only [RedisServer.stored, setDb_db]
  split
  · exact hx k
  · exact h d' k

theorem dbDelete_tracks (c : C) (s : RedisServer K V C) (d : Nat) (k : K) :
    Tracks c {(d, k)} s (dbDelete s d k).1 := by
  rw [dbDelete]
  exact setDb_tracks rfl fun _ hk => Function.update_of_ne hk _ _

theorem dbDelete_expiresInv (h : ExpiresInv s) (d : Nat) (k : K) :
    ExpiresInv (dbDelete s d k).1 := by
  rw [dbDelete]
  apply setDb_expiresInv h
  intro k'
  by_cases hk : k' = k
  · simp [hk]
  · simp only [Function.update_of_ne hk]
    exact h d k'

theorem dbDelete_stored (s : RedisServer K V C) (d : Nat) (k : K) (d' : Nat) (k' : K) :
    (dbDelete s d k).1.stored d' k' = if (d', k') = (d, k) then none else s.stored d' k' := by
  simp only [dbDelete, RedisServer.stored, setDb_db, Prod.mk.injEq]
  by_cases hd : d' = d
  · subst hd
    by_cases hk : k' = k
    · simp [hk]
    · simp [hk]
  · simp [hd]

theorem setDict_tracks (c : C) (s : RedisServer K V C) (d : Nat) (k : K) (v : V) :
    Tracks c {(d, k)} s
      (s.setDb d { s.db d with dict := update (s.db d).dict k (some v) }) :=
  setDb_tracks rfl fun _ hk => Function.update_of_ne hk _ _

theorem setDict_expiresInv (h : ExpiresInv s) (d : Nat) (k : K) (v : V) :
    ExpiresInv
      (s.setDb d { s.db d with dict := update (s.db d).dict k (some v) }) := by
  apply setDb_expiresInv h
  intro k' he
  by_cases hk : k' = k
  · simp [hk]
  · simp only [Function.update_of_ne hk]
    exact h d k' he

theorem setDict_stored (s : RedisServer K V C) (d : Nat) (k : K) (v : V) (d' : Nat) (k' : K) :
    (s.setDb d { s.db d with dict := update (s.db d).dict k (some v) }).stored d' k' =
      if (d', k') = (d, k) then some v else s.stored d' k' := by
  simp only [RedisServer.stored, setDb_db, Prod.mk.injEq]
  by_cases hd : d' = d
  · subst hd
    by_cases hk : k' = k
    · simp [hk]
    · simp [hk]
  · simp [hd]

theorem setExpires_tracks (c : C) (s : RedisServer K V C) (d : Nat) (k : K) (w : Option Int) :
    Tracks c ∅ s (s.setDb d { s.db d with expires := update (s.db d).expires k w }) := by
  apply Tracks.of_tables
  · rfl
  · intro d'
    rw [setDb_db]
    split
    · subst d'
      rfl
    · rfl
  · rfl
  · intro d' k' _
    simp only [RedisServer.stored, setDb_db]
    split
    · subst d'
      rfl
    · rfl

theorem setExpires_expiresInv (h : ExpiresInv s) (hk : (s.stored d k).isSome) (w : Option Int) :
    ExpiresInv (s.setDb d { s.db d with expires := update (s.db d).expires k w }) := by
  apply setDb_expiresInv h
  intro k' he
  by_cases heq : k' = k
  · subst heq
    exact hk
  · simp only [Function.update_of_ne heq] at he
    exact h d k' he

/-! ## The C-level API

Each function is shown to return, to keep `ExpiresInv`, and to be tracked by
every observer. -/

/-- A step that keeps the expires in the main table and is tracked by every
client. -/
structure Tracked (U : Set (Nat × K)) (s s' : RedisServer K V C) : Prop where
  expires : ExpiresInv s'
  tracks : ∀ c, ClientInv s c → Tracks c U s s'

theorem Tracked.refl (h : ExpiresInv s) : Tracked ∅ s s :=
  ⟨h, fun c _ => Tracks.refl c s⟩

theorem Tracked.trans (h : Tracked U s s₁) (h' : Tracked U' s₁ s₂) : Tracked (U ∪ U') s s₂ where
  expires := h'.expires
  tracks := fun c hc =>
    (h.tracks c hc).trans (h'.tracks c ((h.tracks c hc).inv hc))

theorem Tracked.signal (h : Tracked U s s') (d : Nat) (k : K) :
    Tracked (U \ {(d, k)}) s (signalModifiedKey s' d k) where
  expires := by
    have hdb := (touchWatchedKey_db s' d k).1
    intro d' k'
    rw [signalModifiedKey, RedisServer.stored, hdb]
    exact h.expires d' k'
  tracks := fun c hc => (h.tracks c hc).signal hc d k

theorem Tracked.mono (h : Tracked U s s') (hU : U ⊆ U') : Tracked U' s s' :=
  ⟨h.expires, fun c hc => (h.tracks c hc).mono hU⟩

/-- Steps that leave nothing to be signalled compose. -/
theorem Tracked.trans_empty (h : Tracked ∅ s s₁) (h' : Tracked U s₁ s₂) : Tracked U s s₂ :=
  (h.trans h').mono (by simp)

theorem getExpire_isSome (h : ExpiresInv s) (d : Nat) (k : K) : ∃ w, getExpire s d k = some w := by
  rw [getExpire]
  cases hw : (s.db d).expires k with
  | none => exact ⟨-1, rfl⟩
  | some w =>
    have hs : (s.stored d k).isSome := h d k (by simp [hw])
    exact ⟨w, by simp [hs]⟩

/-- Lazy expiration is the one change no client is told about. -/
theorem expire_tracked (h : ExpiresInv s) (d : Nat) (k : K) :
    Tracked ∅ s (dbDelete (propagateExpire s d k) d k).1 where
  expires := dbDelete_expiresInv (s := propagateExpire s d k) h d k
  tracks := by
    intro c _
    have ht := dbDelete_tracks c (propagateExpire s d k) d k
    constructor
    · exact ht.watchedKeys
    · exact ht.dirty
    · exact fun hc => ht.inv ⟨hc.nodup, hc.listed⟩
    · refine ⟨[(d, k)], rfl, fun d' k' _ => .inl ?_⟩
      rw [dbDelete_stored]
      simp only [List.mem_singleton]
      rfl

theorem expireIfNeeded_spec (h : ExpiresInv s) (d : Nat) (k : K) (now : Int) :
    ∃ s' b, expireIfNeeded s d k now = some (s', b) ∧ Tracked ∅ s s' := by
  obtain ⟨w, hw⟩ := getExpire_isSome h d k
  have hsame := Tracked.refl h
  simp only [expireIfNeeded, hw, some_bind, pure_def]
  split
  · exact ⟨_, _, rfl, hsame⟩
  split
  · exact ⟨_, _, rfl, hsame⟩
  split
  · exact ⟨_, _, rfl, hsame⟩
  split
  · exact ⟨_, _, rfl, hsame⟩
  · exact ⟨_, _, rfl, expire_tracked h d k⟩

theorem lookupKeyWrite_spec (h : ExpiresInv s) (d : Nat) (k : K) (now : Int) :
    ∃ s', lookupKeyWrite s d k now = some (s', s'.stored d k) ∧ Tracked ∅ s s' := by
  obtain ⟨s', b, he, ht⟩ := expireIfNeeded_spec h d k now
  exact ⟨s', by simp [lookupKeyWrite, he], ht⟩

theorem dbAdd_spec (h : ExpiresInv s) (v : V) (hk : s.stored d k = none) :
    ∃ s', dbAdd s d k v = some s' ∧ Tracked {(d, k)} s s' ∧
      ∀ d' k', s'.stored d' k' = if (d', k') = (d, k) then some v else s.stored d' k' := by
  rw [RedisServer.stored] at hk
  simp only [dbAdd, hk, isSome_none, Bool.false_eq_true, if_false, Option.some.injEq,
    exists_eq_left']
  exact ⟨⟨setDict_expiresInv h d k v, fun c _ => setDict_tracks c s d k v⟩, setDict_stored s d k v⟩

theorem dbOverwrite_spec (h : ExpiresInv s) (v : V) (hk : (s.stored d k).isSome) :
    ∃ s', dbOverwrite s d k v = some s' ∧ Tracked {(d, k)} s s' ∧
      ∀ d' k', s'.stored d' k' = if (d', k') = (d, k) then some v else s.stored d' k' := by
  rw [RedisServer.stored] at hk
  simp only [dbOverwrite, hk, if_true, Option.some.injEq, exists_eq_left']
  exact ⟨⟨setDict_expiresInv h d k v, fun c _ => setDict_tracks c s d k v⟩, setDict_stored s d k v⟩

theorem setExpires_stored (s : RedisServer K V C) (d : Nat) (k : K) (w : Option Int) :
    (s.setDb d { s.db d with expires := update (s.db d).expires k w }).stored =
      s.stored := by
  funext d' k'
  simp only [RedisServer.stored, setDb_db]
  split
  · subst d'
    rfl
  · rfl

theorem removeExpire_spec (h : ExpiresInv s) (hk : (s.stored d k).isSome) :
    ∃ s', removeExpire s d k = some s' ∧ Tracked ∅ s s' ∧ s'.stored = s.stored := by
  have hdict : ((s.db d).dict k).isSome := hk
  simp only [removeExpire, hdict, if_true, Option.some.injEq, exists_eq_left']
  exact ⟨⟨setExpires_expiresInv h hk none, fun c _ => setExpires_tracks c s d k none⟩,
    setExpires_stored s d k none⟩

theorem setExpire_spec (h : ExpiresInv s) (hk : (s.stored d k).isSome) (w : Int) :
    ∃ s', setExpire s d k w = some s' ∧ Tracked ∅ s s' ∧ s'.stored = s.stored := by
  have hdict : ((s.db d).dict k).isSome := hk
  simp only [setExpire, hdict, if_true, Option.some.injEq, exists_eq_left']
  exact ⟨⟨setExpires_expiresInv h hk (some w), fun c _ => setExpires_tracks c s d k (some w)⟩,
    setExpires_stored s d k (some w)⟩

theorem dbDelete_tracked (h : ExpiresInv s) (d : Nat) (k : K) :
    Tracked {(d, k)} s (dbDelete s d k).1 :=
  ⟨dbDelete_expiresInv h d k, fun c _ => dbDelete_tracks c s d k⟩

theorem signalModifiedKey_stored (s : RedisServer K V C) (d : Nat) (k : K) :
    (signalModifiedKey s d k).stored = s.stored := by
  funext d' k'
  rw [signalModifiedKey, RedisServer.stored, (touchWatchedKey_db s d k).1, RedisServer.stored]

theorem setKey_spec (h : ExpiresInv s) (d : Nat) (k : K) (v : V) (now : Int) :
    ∃ s', setKey s d k v now = some s' ∧ Tracked ∅ s s' ∧ (s'.stored d k).isSome := by
  obtain ⟨s₁, h₁, ht₁⟩ := lookupKeyWrite_spec h d k now
  have hstore : ∃ s₂, (if (s₁.stored d k).isNone then dbAdd s₁ d k v else dbOverwrite s₁ d k v) =
      some s₂ ∧ Tracked {(d, k)} s₁ s₂ ∧ (s₂.stored d k).isSome := by
    cases hk : s₁.stored d k with
    | none =>
      obtain ⟨s₂, h₂, ht₂, hs₂⟩ := dbAdd_spec ht₁.expires v hk
      exact ⟨s₂, by simpa using h₂, ht₂, by simp [hs₂]⟩
    | some x =>
      obtain ⟨s₂, h₂, ht₂, hs₂⟩ := dbOverwrite_spec ht₁.expires v (k := k) (d := d) (by simp [hk])
      exact ⟨s₂, by simpa using h₂, ht₂, by simp [hs₂]⟩
  obtain ⟨s₂, h₂, ht₂, hs₂⟩ := hstore
  obtain ⟨s₃, h₃, ht₃, hs₃⟩ := removeExpire_spec ht₂.expires hs₂
  refine ⟨signalModifiedKey s₃ d k, ?_, ?_, ?_⟩
  · simp only [setKey, h₁, h₂, h₃, some_bind, pure_def]
  · exact (((ht₁.trans ht₂).trans ht₃).signal d k).mono (by grind)
  · rw [signalModifiedKey_stored, hs₃]
    exact hs₂

/-! ## Commands -/

theorem setAborts_spec (h : ExpiresInv s) (d : Nat) (k : K) (a : SetArgs) (now : Int) :
    ∃ s' b, setAborts s d k a now = some (s', b) ∧ Tracked ∅ s s' := by
  have hnx : ∃ r, (if a.nx then lookupKeyWrite s d k now else some (s, none)) = some r ∧
      Tracked ∅ s r.1 := by
    cases a.nx with
    | false => exact ⟨(s, none), rfl, Tracked.refl h⟩
    | true =>
      obtain ⟨s₁, h₁, ht₁⟩ := lookupKeyWrite_spec h d k now
      exact ⟨(s₁, s₁.stored d k), h₁, ht₁⟩
  obtain ⟨r, hr, ht⟩ := hnx
  simp only [setAborts, hr, some_bind, pure_def]
  split
  · exact ⟨_, _, rfl, ht⟩
  split
  · obtain ⟨s₂, h₂, ht₂⟩ := lookupKeyWrite_spec ht.expires d k now
    exact ⟨s₂, _, by rw [h₂]; rfl, ht.trans_empty ht₂⟩
  · exact ⟨_, _, rfl, ht⟩

theorem setPerform_spec (h : ExpiresInv s) (d : Nat) (k : K) (v : V) (a : SetArgs)
    (ms : Option Int) (now : Int) :
    ∃ s' r, setPerform s d k v a ms now = some (s', r) ∧ Tracked ∅ s s' := by
  obtain ⟨s₁, b, h₁, ht₁⟩ := setAborts_spec h d k a now
  simp only [setPerform, h₁, some_bind, pure_def]
  split
  · exact ⟨_, _, rfl, ht₁⟩
  · obtain ⟨s₂, h₂, ht₂, hs₂⟩ := setKey_spec ht₁.expires d k v now
    have ht := ht₁.trans_empty ht₂
    cases ms with
    | none => exact ⟨s₂, .ok, by simp [h₂], ht⟩
    | some ms =>
      obtain ⟨s₃, h₃, ht₃, _⟩ := setExpire_spec ht₂.expires hs₂ (now + ms)
      exact ⟨s₃, .ok, by simp [h₂, h₃], ht.trans_empty ht₃⟩

theorem setCommand_spec (h : ExpiresInv s) (c : C) (k : K) (v : V) (options : List SetOption)
    (now : Int) : ∃ s' r, setCommand s c k v options now = some (s', r) ∧ Tracked ∅ s s' := by
  rw [setCommand]
  split
  · exact ⟨_, _, rfl, Tracked.refl h⟩
  · rw [setGenericCommand]
    split
    · exact setPerform_spec h _ k v _ none now
    · exact ⟨_, _, rfl, Tracked.refl h⟩
    · split
      · exact ⟨_, _, rfl, Tracked.refl h⟩
      · exact setPerform_spec h _ k v _ _ now

theorem dbDelete_tracked_of_none (h : ExpiresInv s) (hk : (dbDelete s d k).2 = false) :
    Tracked ∅ s (dbDelete s d k).1 where
  expires := dbDelete_expiresInv h d k
  tracks := by
    intro c _
    have ht := dbDelete_tracks c s d k
    refine ⟨ht.watchedKeys, ht.dirty, ht.inv, [], rfl, fun d' k' _ => .inl ?_⟩
    have hnone : s.stored d k = none := by simpa [dbDelete, RedisServer.stored] using hk
    rw [dbDelete_stored]
    by_cases heq : (d', k') = (d, k)
    · cases heq
      simp [hnone]
    · simp [heq]

theorem dbDelete_signal_tracked (h : ExpiresInv s) (d : Nat) (k : K) :
    Tracked ∅ s (signalModifiedKey (dbDelete s d k).1 d k) :=
  ((dbDelete_tracked h d k).signal d k).mono (by grind)

theorem delLoop_spec (h : ExpiresInv s) (d : Nat) (now : Int) (keys : List K) (deleted : Nat) :
    ∃ s' n, delLoop d now keys s deleted = some (s', n) ∧ Tracked ∅ s s' := by
  induction keys generalizing s deleted with
  | nil => exact ⟨s, deleted, rfl, Tracked.refl h⟩
  | cons k keys ih =>
    obtain ⟨s₁, b, h₁, ht₁⟩ := expireIfNeeded_spec h d k now
    simp only [delLoop, h₁, some_bind]
    split
    · have ht₂ := dbDelete_signal_tracked ht₁.expires d k
      obtain ⟨s', n, hn, ht⟩ := ih ht₂.expires (deleted + 1)
      exact ⟨s', n, hn, (ht₁.trans_empty ht₂).trans_empty ht⟩
    next hk =>
      have ht₂ := dbDelete_tracked_of_none ht₁.expires (by simpa using hk)
      obtain ⟨s', n, hn, ht⟩ := ih ht₂.expires deleted
      exact ⟨s', n, hn, (ht₁.trans_empty ht₂).trans_empty ht⟩

theorem delCommand_spec (h : ExpiresInv s) (c : C) (keys : List K) (now : Int) :
    ∃ s' r, delCommand s c keys now = some (s', r) ∧ Tracked ∅ s s' := by
  obtain ⟨s', n, hn, ht⟩ := delLoop_spec h (s.client c).db now keys 0
  exact ⟨s', .int n, by simp [delCommand, hn], ht⟩

/-- The end of RENAME signals both keys, also when the old value of the new
key was deleted before it. -/
theorem renameKey_spec {s₀ : RedisServer K V C} (key : K) {newkey : K}
    (h : Tracked {(d, newkey)} s₀ s) (hnew : s.stored d newkey = none) (o : V) (w : Int) :
    ∃ s', renameKey s d key newkey o w = some s' ∧ Tracked ∅ s₀ s' := by
  obtain ⟨s₁, h₁, ht₁, hs₁⟩ := dbAdd_spec h.expires o hnew
  have hexp : ∃ s₂, (if w ≠ -1 then setExpire s₁ d newkey w else some s₁) = some s₂ ∧
      Tracked ∅ s₁ s₂ := by
    split
    · obtain ⟨s₂, h₂, ht₂, _⟩ := setExpire_spec ht₁.expires (k := newkey) (d := d) (by simp [hs₁]) w
      exact ⟨s₂, h₂, ht₂⟩
    · exact ⟨s₁, rfl, Tracked.refl ht₁.expires⟩
  obtain ⟨s₂, h₂, ht₂⟩ := hexp
  have ht₃ := dbDelete_tracked ht₂.expires d key
  refine ⟨signalModifiedKey (signalModifiedKey (dbDelete s₂ d key).1 d key) d newkey, ?_, ?_⟩
  · simp only [renameKey, h₁, h₂, some_bind, pure_def]
  · exact (((((h.trans ht₁).trans ht₂).trans ht₃).signal d key).signal d newkey).mono (by grind)

theorem renameGenericCommand_spec (h : ExpiresInv s) (c : C) (key newkey : K) (nx : Bool)
    (now : Int) :
    ∃ s' r, renameGenericCommand s c key newkey nx now = some (s', r) ∧ Tracked ∅ s s' := by
  rw [renameGenericCommand]
  simp only
  split
  · exact ⟨_, _, rfl, Tracked.refl h⟩
  obtain ⟨s₁, h₁, ht₁⟩ := lookupKeyWrite_spec h (s.client c).db key now
  simp only [h₁, bind_eq_bind, bind_some, pure_def]
  split
  · exact ⟨_, _, rfl, ht₁⟩
  next o _ =>
    obtain ⟨w, hw⟩ := getExpire_isSome ht₁.expires (s.client c).db key
    obtain ⟨s₂, h₂, ht₂⟩ := lookupKeyWrite_spec ht₁.expires (s.client c).db newkey now
    have ht := ht₁.trans_empty ht₂
    simp only [hw, h₂, bind_some]
    split
    · exact ⟨_, _, rfl, ht⟩
    · split
      · have ht₃ := ht.trans_empty (dbDelete_tracked ht₂.expires (s.client c).db newkey)
        obtain ⟨s₄, h₄, ht₄⟩ := renameKey_spec key ht₃ (by simp [dbDelete_stored]) o w
        exact ⟨s₄, _, by rw [h₄]; rfl, ht₄⟩
      next hnone =>
        have hnone : s₂.stored (s.client c).db newkey = none := by simpa using hnone
        obtain ⟨s₃, h₃, ht₃⟩ := renameKey_spec key (ht.mono (by simp)) hnone o w
        exact ⟨s₃, _, by rw [h₃]; rfl, ht₃⟩

/-- The keys a MOVE may change without a signal. -/
def movedKeys (s : RedisServer K V C) (c : C) : Command K V → Set (Nat × K)
  | .move key dbid => {((s.client c).db, key), ((dbid.getD 0).toNat, key)}
  | _ => ∅

theorem moveCommand_spec (h : ExpiresInv s) (c : C) (key : K) (dbid : Option Int) (now : Int) :
    ∃ s' r, moveCommand s c key dbid now = some (s', r) ∧
      Tracked (movedKeys s c (.move key dbid)) s s' := by
  have hsame := (Tracked.refl h).mono (Set.empty_subset (movedKeys s c (.move key dbid)))
  unfold moveCommand
  simp only
  split
  · exact ⟨_, _, rfl, hsame⟩
  split
  · exact ⟨_, _, rfl, hsame⟩
  next id =>
    split
    · exact ⟨_, _, rfl, hsame⟩
    split
    · exact ⟨_, _, rfl, hsame⟩
    next hne =>
      obtain ⟨s₁, h₁, ht₁⟩ := lookupKeyWrite_spec h (s.client c).db key now
      simp only [h₁, bind_eq_bind, bind_some, pure_def]
      split
      · exact ⟨_, _, rfl, ht₁.mono (Set.empty_subset _)⟩
      next o _ =>
        obtain ⟨s₂, h₂, ht₂⟩ := lookupKeyWrite_spec ht₁.expires id.toNat key now
        have ht := ht₁.trans_empty ht₂
        simp only [h₂, bind_some]
        split
        · exact ⟨_, _, rfl, ht.mono (Set.empty_subset _)⟩
        next hnone =>
          have hnone : s₂.stored id.toNat key = none := by simpa using hnone
          obtain ⟨s₃, h₃, ht₃, _⟩ := dbAdd_spec ht₂.expires o hnone
          have ht₄ := dbDelete_tracked ht₃.expires (s.client c).db key
          refine ⟨(dbDelete s₃ (s.client c).db key).1, .int 1, by rw [h₃]; rfl, ?_⟩
          exact ((ht.trans_empty ht₃).trans ht₄).mono (by simp [movedKeys])

theorem expireGenericCommand_spec (h : ExpiresInv s) (c : C) (key : K) (param : Option Int)
    (absolute : Bool) (unit : TimeUnit) (now : Int) :
    ∃ s' r, expireGenericCommand s c key param absolute unit now = some (s', r) ∧
      Tracked ∅ s s' := by
  unfold expireGenericCommand
  cases param with
  | none => exact ⟨_, _, rfl, Tracked.refl h⟩
  | some p =>
    obtain ⟨s₁, h₁, ht₁⟩ := lookupKeyWrite_spec h (s.client c).db key now
    simp only [h₁, some_bind, pure_def]
    split
    · exact ⟨_, _, rfl, ht₁⟩
    next hsome =>
      have hstored : (s₁.stored (s.client c).db key).isSome := by
        simpa [isSome_iff_ne_none] using hsome
      split
      · have hdel : (dbDelete s₁ (s.client c).db key).2 = true := hstored
        simp only [hdel, if_true]
        exact ⟨_, _, rfl, ht₁.trans_empty (dbDelete_signal_tracked ht₁.expires _ key)⟩
      · obtain ⟨s₂, h₂, ht₂, _⟩ := setExpire_spec ht₁.expires hstored
          (expireWhen p absolute unit now)
        refine ⟨signalModifiedKey s₂ (s.client c).db key, .int 1, by rw [h₂]; rfl, ?_⟩
        exact ((ht₁.trans_empty ht₂).signal _ key).mono (by grind)

/-! ## FLUSHDB and FLUSHALL -/

theorem touchWatchedKeysOnFlush_tracks (c : C) (s : RedisServer K V C) (dbid : Option Nat) :
    Tracks c ∅ s (touchWatchedKeysOnFlush s dbid) := by
  apply Tracks.of_dirty
  · simp only [touchWatchedKeysOnFlush]
    split
    · exact ⟨true, by simp⟩
    · exact ⟨false, by simp⟩
  · rfl
  · rfl

/-- A flush marks the clients that watch a stored key of the database. -/
theorem touchWatchedKeysOnFlush_dirty {dbid : Option Nat} (hd : dbid = none ∨ dbid = some d)
    (hw : (d, k) ∈ (s.client c).watchedKeys) (hk : (s.stored d k).isSome) :
    ((touchWatchedKeysOnFlush s dbid).client c).dirtyCas = true := by
  have hany : (s.client c).watchedKeys.any (flushTouches s dbid) = true := by
    rw [List.any_eq_true]
    refine ⟨(d, k), hw, ?_⟩
    simp only [flushTouches, hk, Bool.and_true, Bool.or_eq_true, decide_eq_true_eq]
    exact hd
  simp [touchWatchedKeysOnFlush, hany]

theorem flush_tracked (h : ExpiresInv s) (dbid : Option Nat)
    (hclient : s'.client = (touchWatchedKeysOnFlush s dbid).client)
    (hprop : s'.propagatedExpires = s.propagatedExpires) (hdb : ∀ d, s'.db d = s.db d ∨
      (s'.db d = (s.db d).empty ∧ (dbid = none ∨ dbid = some d))) : Tracked ∅ s s' where
  expires := by
    intro d k
    rw [RedisServer.stored]
    rcases hdb d with hd | ⟨hd, -⟩
    · rw [hd]
      exact h d k
    · simp [hd, RedisDb.empty]
  tracks := by
    intro c _
    have ht := touchWatchedKeysOnFlush_tracks c s dbid
    have hwatch : ∀ d, (s'.db d).watchedKeys = (s.db d).watchedKeys := by
      intro d
      rcases hdb d with hd | ⟨hd, -⟩
      · rw [hd]
      · rw [hd, RedisDb.empty]
    constructor
    · rw [hclient]
      exact ht.watchedKeys
    · rw [hclient]
      exact ht.dirty
    · intro hinv
      have hinv' := ht.inv hinv
      exact ⟨by rw [hclient]; exact hinv'.nodup, by
        simp only [hclient, Listed, hwatch]
        exact hinv'.listed⟩
    · refine ⟨[], by simpa using hprop, fun d k _ => ?_⟩
      rcases hdb d with hd | ⟨hd, hdbid⟩
      · exact .inl (by simp [RedisServer.stored, hd])
      · cases hk : s.stored d k with
        | none => exact .inl (by simp [RedisServer.stored, hd, RedisDb.empty])
        | some v =>
          right
          intro hw
          rw [hclient]
          exact touchWatchedKeysOnFlush_dirty hdbid hw (by simp [hk])

theorem flushdbCommand_tracked (h : ExpiresInv s) (c : C) : Tracked ∅ s (flushdbCommand s c).1 := by
  apply flush_tracked h (some (s.client c).db)
  · rfl
  · rfl
  · intro d
    simp only [flushdbCommand, signalFlushedDb, setDb_db]
    by_cases hd : d = (s.client c).db
    · subst hd
      exact .inr ⟨by simp [touchWatchedKeysOnFlush], .inr rfl⟩
    · exact .inl (by simp [hd, touchWatchedKeysOnFlush])

theorem flushallCommand_tracked (h : ExpiresInv s) : Tracked ∅ s (flushallCommand s).1 := by
  apply flush_tracked h none
  · rfl
  · rfl
  · intro d
    simp only [flushallCommand, signalFlushedDb, emptyDb, touchWatchedKeysOnFlush]
    by_cases hd : d < s.dbnum
    · exact .inr ⟨by simp [hd], .inl trivial⟩
    · exact .inl (by simp [hd])

end Redis
