import Mathlib.Data.Set.Insert
import Redis.Keyspace.Entries

/-!
# Redis.Keyspace.View

What a command can rely on when it does not know which of the expired keys are deleted already:
the entries that are not expired, and for which keys it is certain that an expired entry is gone.
What a function of the C-level API returns is then certain if it deletes an expired key itself, or
if the key is one of these.
-/

namespace Redis.Keyspace

variable {V : Type} {env : Env} {D : Dataset V} {d : Nat} {key : Key}
  {val v : V} {e : Option Int} {x : Option (V × Option Int)}

/-- The entries that are not expired, and the keys with no expired entry. -/
structure View (V : Type) where
  entries : Dataset V
  settled : Set (Nat × Key)

namespace View

variable (w : View V)

/-- `expireIfNeeded` was called for a key. -/
def touch (d : Nat) (key : Key) : View V := ⟨w.entries, insert (d, key) w.settled⟩

/-- A key has another entry, or none. -/
def set (d : Nat) (key : Key) (x : Option (V × Option Int)) : View V :=
  ⟨w.entries.set d key x, insert (d, key) w.settled⟩

@[simp]
theorem entries_touch : (w.touch d key).entries = w.entries := rfl

@[simp]
theorem entries_set : (w.set d key x).entries = w.entries.set d key x := rfl

@[simp]
theorem mem_set {d' : Nat} {key' : Key} :
    (d', key') ∈ (w.set d key x).settled ↔ (d', key') = (d, key) ∨ (d', key') ∈ w.settled :=
  Iff.rfl

/-- The entry that a key has already. -/
theorem set_eq_self (hx : w.entries d key = x) (hS : (d, key) ∈ w.settled) : w.set d key x = w := by
  rw [set, ← hx, Dataset.set_self, Set.insert_eq_of_mem hS]

end View

variable {w w' : View V} {α : Type} {m : Cmd V α} {r : α}

/-- The entries of `D` are as `w` says. -/
structure Under (env : Env) (w : View V) (D : Dataset V) : Prop where
  live : live env D = w.entries
  settled : ∀ d key, (d, key) ∈ w.settled → D d key = w.entries d key

/-- The server is as `w` says. -/
def Shows (env : Env) (s : Server V) (w : View V) : Prop :=
  ∃ D, Represents env s D ∧ Under env w D

theorem Under.live_apply (h : Under env w D) (d : Nat) (key : Key) :
    Keyspace.live env D d key = w.entries d key := by
  rw [h.live]

/-- Another value of a key that is there is not expired. -/
theorem Under.not_expired (h : Under env w D) (hsome : w.entries d key = some (v, e)) (val : V) :
    env.expired (some (val, e)) = false := by
  have hlive := expired_live env D d key
  rwa [h.live_apply, hsome, Env.expired_of_when env v val] at hlive

theorem Under.touch (h : Under env w D) (d : Nat) (key : Key) :
    Under env (w.touch d key) (settle env D d key) where
  live := by rw [live_settle, h.live, View.entries_touch]
  settled d' key' hmem := by
    rw [settle_eq, Dataset.set_apply, h.live_apply]
    split
    next heq => rw [heq.1, heq.2, View.entries_touch]
    next hne =>
      rcases hmem with heq | hmem
      · exact absurd (Prod.mk.injEq .. ▸ heq) hne
      · exact h.settled d' key' hmem

theorem Under.set (h : Under env w D) (d : Nat) (key : Key) (hx : env.expired x = false) :
    Under env (w.set d key x) (D.set d key x) where
  live := by rw [live_set env D d key x hx, h.live, View.entries_set]
  settled d' key' hmem := by
    rw [View.entries_set, Dataset.set_apply, Dataset.set_apply]
    split
    · rfl
    next hne =>
      rcases hmem with heq | hmem
      · exact absurd (Prod.mk.injEq .. ▸ heq) hne
      · exact h.settled d' key' hmem

/-- A program that does the same with all datasets under a view. -/
theorem Shows.runs (h : ∀ D, Under env w D →
    ∃ D', Runs (Represents env) m D r D' ∧ Under env w' D') : Runs (Shows env) m w r w' := by
  rintro s ⟨D, hrep, hunder⟩
  obtain ⟨D', hruns, hunder'⟩ := h D hunder
  obtain ⟨s', hs', hrep'⟩ := hruns s hrep
  exact ⟨s', hs', D', hrep', hunder'⟩

/-! ## Functions that delete an expired key themselves -/

theorem lookupKeyWrite_shows :
    Runs (Shows env) (lookupKeyWrite env d key) w ((w.entries d key).map Prod.fst)
      (w.touch d key) :=
  Shows.runs fun _ h => ⟨_, h.live_apply d key ▸ lookupKeyWrite_runs, h.touch d key⟩

theorem lookupKeyRead_shows :
    Runs (Shows env) (lookupKeyRead env d key) w ((w.entries d key).map Prod.fst)
      (w.touch d key) :=
  Shows.runs fun _ h => ⟨_, h.live_apply d key ▸ lookupKeyRead_runs, h.touch d key⟩

theorem setKey_shows (hd : env.clusterEnabled = true → d = 0) :
    Runs (Shows env) (setKey env d key val) w () (w.set d key (some (val, none))) :=
  Shows.runs fun _ h => ⟨_, setKey_runs hd, h.set d key rfl⟩

theorem dbDelete_any {β : Type} {k : Cmd V β} {r : β}
    (h : Runs (Shows env) k (w.set d key none) r w') :
    Runs (Shows env) (dbDelete env d key >>= fun _ => k) w r w' := by
  refine Runs.seq ?_ h
  rintro s ⟨D, hrep, hunder⟩
  obtain ⟨s', hs', hrep'⟩ := dbDelete_runs s hrep
  exact ⟨_, s', hs', _, hrep', hunder.set d key rfl⟩

/-! ## Functions for a key whose expiry was checked -/

section Settled

variable (hS : (d, key) ∈ w.settled)

include hS

theorem dbDelete_shows :
    Runs (Shows env) (dbDelete env d key) w (w.entries d key).isSome (w.set d key none) :=
  Shows.runs fun _ h => ⟨_, h.settled d key hS ▸ dbDelete_runs, h.set d key rfl⟩

theorem dbAdd_shows (hnone : w.entries d key = none) (hd : env.clusterEnabled = true → d = 0) :
    Runs (Shows env) (dbAdd env d key val) w () (w.set d key (some (val, none))) :=
  Shows.runs fun _ h =>
    ⟨_, dbAdd_runs ((h.settled d key hS).trans hnone) hd, h.set d key rfl⟩

theorem updateValue_shows (hsome : w.entries d key = some (v, e)) :
    Runs (Shows env) (updateValue d key val) w () (w.set d key (some (val, e))) := by
  exact Shows.runs fun _ h => ⟨_, updateValue_runs ((h.settled d key hS).trans hsome),
    h.set d key (h.not_expired hsome val)⟩

theorem dbOverwrite_shows (hsome : w.entries d key = some (v, e)) :
    Runs (Shows env) (dbOverwrite d key val) w () (w.set d key (some (val, e))) := by
  exact Shows.runs fun _ h => ⟨_, dbOverwrite_runs ((h.settled d key hS).trans hsome),
    h.set d key (h.not_expired hsome val)⟩

theorem setExpire_shows (hsome : w.entries d key = some (v, e)) {when : Int}
    (hwhen : env.expired (some (v, some when)) = false) :
    Runs (Shows env) (setExpire d key when) w () (w.set d key (some (v, some when))) :=
  Shows.runs fun _ h =>
    ⟨_, setExpire_runs ((h.settled d key hS).trans hsome) when, h.set d key hwhen⟩

end Settled

/-! ## Commands -/

/-- The entries of the server that are not expired. -/
def Sees (env : Env) (s : Server V) (E : Dataset V) : Prop :=
  ∃ D, Represents env s D ∧ live env D = E

variable {E : Dataset V} {s : Server V}

theorem sees_iff : Sees env s E ↔ Shows env s ⟨E, ∅⟩ := by
  refine exists_congr fun D => and_congr_right fun _ => ⟨fun h => ⟨h, ?_⟩, Under.live⟩
  exact fun _ _ hmem => hmem.elim

theorem Shows.sees (h : Shows env s w) : Sees env s w.entries := by
  obtain ⟨D, hrep, hunder⟩ := h
  exact ⟨D, hrep, hunder.live⟩

/-- A command, from its first step to its last. -/
theorem runs_sees (h : Runs (Shows env) m ⟨E, ∅⟩ r w') : Runs (Sees env) m E r w'.entries := by
  intro s hs
  obtain ⟨s', hs', hshows⟩ := h s (sees_iff.mp hs)
  exact ⟨s', hs', hshows.sees⟩

/-- The entries that are not expired are determined by the server. -/
theorem Sees.unique {E' : Dataset V} (h : Sees env s E) (h' : Sees env s E') : E = E' := by
  obtain ⟨D, hrep, hlive⟩ := h
  obtain ⟨D', hrep', hlive'⟩ := h'
  rw [← hlive, ← hlive', ← hrep.entries, ← hrep'.entries]

/-- A command that ends with these entries. -/
theorem runs_sees_to {E' : Dataset V} (w' : View V) (h : Runs (Shows env) m ⟨E, ∅⟩ r w')
    (hentries : w'.entries = E') : Runs (Sees env) m E r E' :=
  hentries ▸ runs_sees h

end Redis.Keyspace
