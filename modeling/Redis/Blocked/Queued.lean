import Redis.Blocked.Queue

/-!
# Redis.Blocked.Queued

Each list of clients holds the clients with its flag, once each, and no client that was freed.
`unblockClient` does not look at `REDIS_UNBLOCKED` before it appends the client to
`unblocked_clients`, and neither does `clientsArePaused`.
-/

namespace Redis.Unblocked

open List Option

variable {st st' : State} {c : Nat} {k : Client}

/-! ## The lists and their flags -/

inductive Place where
  | clients
  | unblockedClients
  | clientsToClose
  | slaves
  | monitors
  | clientsWaitingAcks
  | blockingKeys (key : Key)
  | subs (s : Sub)

def State.list (st : State) : Place → List Nat
  | .clients => st.clients
  | .unblockedClients => st.unblockedClients
  | .clientsToClose => st.clientsToClose
  | .slaves => st.slaves
  | .monitors => st.monitors
  | .clientsWaitingAcks => st.clientsWaitingAcks
  | .blockingKeys key => st.blockingKeys key
  | .subs s => st.subs s

/-- The client belongs to the list. -/
def Place.holds : Place → Client → Prop
  | .clients, k => k.connected
  | .unblockedClients, k => k.unblocked
  | .clientsToClose, k => k.closeAsap
  | .slaves, k => k.slave ∧ k.monitor = false
  | .monitors, k => k.slave ∧ k.monitor
  | .clientsWaitingAcks, k => k.btype = .wait
  | .blockingKeys key, k => key ∈ k.keys
  | .subs s, k => s ∈ k.subs

/-- There is a client, and it belongs to the list. -/
def Holds (place : Place) : Option Client → Prop
  | none => False
  | some k => place.holds k

/-- There is a client, and it is blocked. -/
def isBlocked (k : Option Client) : Bool := k.any Client.blocked

/-- The fields of a client fit together. -/
structure Typed (k : Client) : Prop where
  blocked : k.blocked ↔ k.btype ≠ .none
  keys : k.btype ≠ .list → k.keys = []
  monitor : k.monitor → k.slave
  closeAsap : k.closeAsap → k.connected

/-- The lists hold what the flags say, and the blocked clients are counted. -/
structure Inv (st : State) : Prop where
  places : ∀ place, Roster (st.list place) fun c => Holds place (st.client c)
  blocked : ∃ l, (Roster l fun c => isBlocked (st.client c)) ∧ l.length = st.bpopBlockedClients
  typed : ∀ c k, st.client c = some k → Typed k

variable {cs : List Nat} {k' : Option Client} (n : Nat)

theorem Inv.change (h : Inv st) (hclient : st'.client = Function.update st.client c k')
    (hlist : ∀ place, Roster.Change c (Holds place (st.client c)) (Holds place k')
      (st.list place) (st'.list place))
    (hcount : st'.bpopBlockedClients + (isBlocked (st.client c)).toNat =
      st.bpopBlockedClients + (isBlocked k').toNat) (htyped : k'.elim True Typed) : Inv st' := by
  have hself : st'.client c = k' := by rw [hclient, Function.update_self]
  have hother : ∀ c' ≠ c, st'.client c' = st.client c' := by
    intro c' hne
    rw [hclient, Function.update_of_ne hne]
  constructor
  · intro place
    refine (h.places place).change ?_ fun c' hne => by rw [hother c' hne]
    rw [hself]
    exact hlist place
  · obtain ⟨l, hl, hlength⟩ := h.blocked
    have hrest : ∀ c' ≠ c, (isBlocked (st'.client c') ↔ isBlocked (st.client c')) :=
      fun c' hne => by rw [hother c' hne]
    cases hold : isBlocked (st.client c) <;> cases hnew : isBlocked k' <;>
      rw [hold, hnew] at hcount
    · exact ⟨l, hl.change (.keep (by rw [hself, hold, hnew])) hrest, by omega⟩
    · refine ⟨l ++ [c], hl.change (.enter (by simp [hold]) (by rw [hself, hnew])) hrest, ?_⟩
      rw [length_append, length_singleton]
      simp only [Bool.toNat_false, Bool.toNat_true] at hcount
      omega
    · refine ⟨l.erase c, hl.change (.leave (by simp [hself, hnew])) hrest, ?_⟩
      have hmem : c ∈ l := (hl.mem c).mpr hold
      have hpos := length_pos_of_mem hmem
      rw [length_erase_of_mem hmem]
      simp only [Bool.toNat_false, Bool.toNat_true] at hcount
      omega
    · exact ⟨l, hl.change (.keep (by rw [hself, hold, hnew])) hrest, by omega⟩
  · intro c' k hk
    by_cases hne : c' = c
    · subst hne
      rw [hself] at hk
      rwa [hk] at htyped
    · exact h.typed c' k (hother c' hne ▸ hk)

theorem Inv.update (h : Inv st) (hk : st.client c = some k) {k' : Client}
    (hclient : st'.client = Function.update st.client c (some k'))
    (hlist : ∀ place, Roster.Change c (Place.holds place k) (Place.holds place k')
      (st.list place) (st'.list place))
    (hcount : st'.bpopBlockedClients + k.blocked.toNat = st.bpopBlockedClients + k'.blocked.toNat)
    (htyped : Typed k') : Inv st' := by
  refine h.change hclient (fun place => ?_) ?_ htyped
  · rw [hk]
    exact hlist place
  · rw [hk]
    exact hcount

theorem inv_init : Inv .init := by
  refine ⟨fun place => ?_, ⟨[], ⟨nodup_nil, fun c => by simp [State.init, isBlocked]⟩, rfl⟩,
    fun c k hk => by cases hk⟩
  cases place <;> exact ⟨nodup_nil, fun c => by simp [State.init, State.list, Holds]⟩

theorem Inv.client_of_mem (h : Inv st) (place : Place) (hc : c ∈ st.list place) :
    ∃ k, st.client c = some k ∧ place.holds k := by
  have hholds := ((h.places place).mem c).mp hc
  cases hk : st.client c with
  | none =>
    rw [hk] at hholds
    exact hholds.elim
  | some k =>
    rw [hk] at hholds
    exact ⟨k, rfl, hholds⟩

theorem set_client (c' : Nat) : (st.set c k').client c' = if c' = c then k' else st.client c' := by
  by_cases hne : c' = c
  · subst hne
    simp [State.set]
  · simp [State.set, hne]

theorem of_set_client {k' : Client} (h : (st.set c (some k)).client c = some k') : k = k' := by
  rw [set_client, if_pos rfl] at h
  exact Option.some.inj h

/-- A client that is not blocked waits for nothing. -/
theorem Typed.idle (h : Typed k) (hblocked : k.blocked = false) : k.btype = .none ∧ k.keys = [] := by
  have hbtype : k.btype = .none := by
    by_contra hne
    exact absurd (h.blocked.mpr hne) (by simp [hblocked])
  exact ⟨hbtype, h.keys (by simp [hbtype])⟩

/-! ## Blocking -/

theorem Inv.blockForKeys (h : Inv st) (hk : st.client c = some k) (hblocked : k.blocked = false)
    (keys : List Key) : Inv (blockForKeys c k keys st) := by
  have htyped := h.typed c k hk
  obtain ⟨hbtype, hkeys⟩ := htyped.idle hblocked
  refine h.update hk rfl (fun place => ?_) (by rw [hblocked]; rfl)
    ⟨by simp, by simp, htyped.monitor, htyped.closeAsap⟩
  cases place with
  | blockingKeys key =>
    show Roster.Change c _ _ (st.blockingKeys key)
      (if key ∈ keys then st.blockingKeys key ++ [c] else st.blockingKeys key)
    split
    · rename_i hkey
      exact .enter (by simp [Place.holds, hkeys]) hkey
    · rename_i hkey
      exact .keep (by simp [Place.holds, hkeys, hkey])
  | clientsWaitingAcks => exact .keep (by simp [Place.holds, hbtype])
  | _ => exact .keep Iff.rfl

theorem Inv.blockForAcks (h : Inv st) (hk : st.client c = some k) (hblocked : k.blocked = false) :
    Inv (blockForAcks c k st) := by
  have htyped := h.typed c k hk
  obtain ⟨hbtype, hkeys⟩ := htyped.idle hblocked
  refine h.update hk rfl (fun place => ?_) (by rw [hblocked]; rfl)
    ⟨by simp, fun _ => hkeys, htyped.monitor, htyped.closeAsap⟩
  cases place with
  | clientsWaitingAcks => exact .enter (by simp [Place.holds, hbtype]) rfl
  | _ => exact .keep Iff.rfl

/-- The client is not blocked while it is in the queue. -/
def NotQueued (st : State) (c : Nat) : Prop :=
  ∀ k, st.client c = some k → k.blocked → k.unblocked = false

theorem Inv.unblockClient (h : Inv st) (hc : NotQueued st c) : Inv (unblockClient c st) := by
  rw [Unblocked.unblockClient]
  split
  · exact h
  rename_i k hk
  have htyped := h.typed c k hk
  have hcount (hblocked : k.blocked) : st.bpopBlockedClients - 1 + k.blocked.toNat =
      st.bpopBlockedClients + 0 := by
    obtain ⟨l, hl, hlength⟩ := h.blocked
    have hmem : c ∈ l := (hl.mem c).mpr (by rw [hk]; exact hblocked)
    have hpos := hlength ▸ length_pos_of_mem hmem
    rw [hblocked]
    exact Nat.sub_add_cancel hpos
  split
  · rename_i hbtype
    have hblocked : k.blocked = true := htyped.blocked.mpr (by simp [hbtype])
    have hunblocked := hc k hk hblocked
    refine h.update hk rfl (fun place => ?_) (hcount hblocked)
      ⟨by simp, fun _ => rfl, htyped.monitor, htyped.closeAsap⟩
    cases place with
    | unblockedClients => exact .enter (by simp [Place.holds, hunblocked]) rfl
    | clientsWaitingAcks => exact .keep (by simp [Place.holds, hbtype])
    | blockingKeys key =>
      show Roster.Change c _ _ (st.blockingKeys key)
        (if key ∈ k.keys then (st.blockingKeys key).erase c else st.blockingKeys key)
      split
      · exact .leave not_mem_nil
      · rename_i hkey
        exact .keep (by simp [Place.holds, hkey])
    | _ => exact .keep Iff.rfl
  · rename_i hbtype
    have hblocked : k.blocked = true := htyped.blocked.mpr (by simp [hbtype])
    have hunblocked := hc k hk hblocked
    refine h.update hk rfl (fun place => ?_) (hcount hblocked)
      ⟨by simp, fun _ => htyped.keys (by simp [hbtype]), htyped.monitor, htyped.closeAsap⟩
    cases place with
    | unblockedClients => exact .enter (by simp [Place.holds, hunblocked]) rfl
    | clientsWaitingAcks => exact .leave (by simp [Place.holds])
    | _ => exact .keep Iff.rfl
  · exact h

variable {c' : Nat}

theorem unblockClient_client_ne (hne : c' ≠ c) : (unblockClient c st).client c' = st.client c' := by
  rw [unblockClient]
  split
  · rfl
  split <;> simp [queueUnblocked, State.set, hne]

theorem Inv.unblockClient_client (h : Inv st) (hk : st.client c = some k) :
    ∃ k', (Unblocked.unblockClient c st).client c = some k' ∧ k'.blocked = false ∧
      k'.connected = k.connected ∧ k'.slave = k.slave ∧ k'.monitor = k.monitor := by
  have htyped := h.typed c k hk
  rw [Unblocked.unblockClient]
  simp only [hk]
  split
  · exact ⟨_, Function.update_self .., rfl, rfl, rfl, rfl⟩
  · exact ⟨_, Function.update_self .., rfl, rfl, rfl, rfl⟩
  · rename_i hbtype
    refine ⟨k, hk, ?_, rfl, rfl, rfl⟩
    by_contra hblocked
    exact htyped.blocked.mp (by simpa using hblocked) hbtype

theorem Inv.notQueued_unblockClient (h : Inv st) (hc : NotQueued st c') :
    NotQueued (Unblocked.unblockClient c st) c' := by
  intro k' hk' hblocked
  by_cases hne : c' = c
  · subst hne
    cases hk : st.client c' with
    | none =>
      rw [Unblocked.unblockClient, hk] at hk'
      exact hc k' hk' hblocked
    | some k =>
      obtain ⟨k₁, hk₁, hfalse, -⟩ := h.unblockClient_client hk
      rw [hk₁, some_inj] at hk'
      rw [← hk', hfalse] at hblocked
      cases hblocked
  · rw [unblockClient_client_ne hne] at hk'
    exact hc k' hk' hblocked

theorem Inv.setFlag (h : Inv st) {k' : Client} (hk : st.client c = some k)
    (hplaces : ∀ place, Place.holds place k' ↔ Place.holds place k)
    (hblocked : k'.blocked = k.blocked) (htyped : Typed k') : Inv (st.set c (some k')) := by
  refine h.update hk rfl (fun place => ?_) (by rw [hblocked]; rfl) htyped
  have hkeep := hplaces place
  cases place <;> exact .keep hkeep

theorem Inv.processUnblockedClients (h : Inv st) : Inv (processUnblockedClients st) := by
  rw [Unblocked.processUnblockedClients]
  split
  · exact h
  rename_i c rest hlist
  have hmem : c ∈ st.list .unblockedClients := by simp [State.list, hlist]
  obtain ⟨k, hk, -⟩ := h.client_of_mem .unblockedClients hmem
  have htyped := h.typed c k hk
  have hrest : rest = st.unblockedClients.erase c := by rw [hlist, erase_cons_head]
  rw [hk]
  dsimp only
  refine h.update hk rfl (fun place => ?_) rfl { htyped with }
  cases place with
  | unblockedClients =>
    show Roster.Change c _ _ st.unblockedClients rest
    rw [hrest]
    exact .leave (by simp [Place.holds])
  | _ => exact .keep Iff.rfl

theorem Inv.disconnectBlocked (h : Inv st) (hc : NotQueued st c) :
    Inv (disconnectBlocked st c) := by
  rw [Unblocked.disconnectBlocked]
  split
  · split
    · have hun := h.unblockClient hc
      dsimp only
      split
      · rename_i k' hk'
        have htyped := hun.typed c k' hk'
        exact hun.setFlag hk' (fun place => by cases place <;> exact Iff.rfl) rfl
          { htyped with }
      · exact hun
    · exact h
  · exact h

theorem Inv.notQueued_disconnectBlocked (h : Inv st) (hc : NotQueued st c') :
    NotQueued (Unblocked.disconnectBlocked st c) c' := by
  have hun := h.notQueued_unblockClient (c := c) hc
  rw [Unblocked.disconnectBlocked]
  split
  · split
    · dsimp only
      split
      · rename_i k' hk'
        intro k₁ hk₁ hblocked
        by_cases hne : c' = c
        · subst hne
          obtain rfl := of_set_client hk₁
          exact hun k' hk' hblocked
        · rw [set_client, if_neg hne] at hk₁
          exact hun k₁ hk₁ hblocked
      · exact hun
    · exact hc
  · exact hc

theorem Inv.foldl_disconnectBlocked (h : Inv st) (hcs : ∀ c ∈ cs, NotQueued st c) :
    Inv (cs.foldl Unblocked.disconnectBlocked st) := by
  induction cs generalizing st with
  | nil => exact h
  | cons c cs ih =>
    have hstep := h.disconnectBlocked (hcs c mem_cons_self)
    exact ih hstep fun c' hc' =>
      h.notQueued_disconnectBlocked (hcs c' (mem_cons_of_mem c hc'))

/-- The client is in the queue when a pause ends that puts it there. -/
def NotResumed (st : State) (c : Nat) : Prop :=
  ∀ k, st.client c = some k → k.slave = false → k.blocked = false → k.unblocked = false

theorem Inv.resume (h : Inv st) (hc : NotResumed st c) : Inv (resume st c) := by
  rw [Unblocked.resume]
  split
  · rename_i k hk
    have htyped := h.typed c k hk
    split
    · exact h
    · rename_i hskip
      simp only [Bool.or_eq_true, not_or, Bool.not_eq_true] at hskip
      have hunblocked := hc k hk hskip.1 hskip.2
      refine h.update hk rfl (fun place => ?_) rfl { htyped with }
      cases place with
      | unblockedClients => exact .enter (by simp [Place.holds, hunblocked]) rfl
      | _ => exact .keep Iff.rfl
  · exact h

theorem resume_client_ne (hne : c' ≠ c) : (resume st c).client c' = st.client c' := by
  rw [resume]
  split
  · split
    · rfl
    · simp [State.set, hne]
  · rfl

theorem Inv.foldl_resume (h : Inv st) (hnodup : cs.Nodup) (hcs : ∀ c ∈ cs, NotResumed st c) :
    Inv (cs.foldl Unblocked.resume st) := by
  induction cs generalizing st with
  | nil => exact h
  | cons c cs ih =>
    obtain ⟨hc, hnodup⟩ := nodup_cons.mp hnodup
    refine ih (h.resume (hcs c mem_cons_self)) hnodup fun c' hc' k hk => ?_
    have hne : c' ≠ c := by
      rintro rfl
      exact hc hc'
    rw [resume_client_ne hne] at hk
    exact hcs c' (mem_cons_of_mem c hc') k hk

/-! ## Freeing clients -/

theorem Inv.freeClientAsync (h : Inv st) (hc : c ∈ st.clients) : Inv (freeClientAsync c st) := by
  rw [Unblocked.freeClientAsync]
  split
  · rename_i k hk
    have htyped := h.typed c k hk
    have hconnected : k.connected = true := by
      have hholds := ((h.places .clients).mem c).mp hc
      rwa [hk] at hholds
    split
    · exact h
    · rename_i hclosing
      refine h.update hk rfl (fun place => ?_) rfl { htyped with closeAsap := fun _ => hconnected }
      cases place with
      | clientsToClose => exact .enter hclosing rfl
      | _ => exact .keep Iff.rfl
  · exact h

/-- A list that `release` takes the client off if the flag is set. -/
theorem change_release {l : List Nat} {flag : Bool} {old : Prop} (h : old ↔ flag) :
    Roster.Change c old False l (if flag then l.erase c else l) := by
  cases flag with
  | true => exact .leave id
  | false => exact .keep (by simp [h])

theorem Inv.release (h : Inv st) (hk : st.client c = some k) (hblocked : k.blocked = false) :
    Inv (release c k st) := by
  have htyped := h.typed c k hk
  obtain ⟨hbtype, hkeys⟩ := htyped.idle hblocked
  refine h.change (c := c) rfl (fun place => ?_) ?_ trivial
  · rw [hk]
    cases place with
    | clients => exact change_release Iff.rfl
    | unblockedClients => exact change_release Iff.rfl
    | clientsToClose => exact change_release Iff.rfl
    | slaves => exact change_release (by simp [Holds, Place.holds])
    | monitors => exact change_release (by simp [Holds, Place.holds])
    | clientsWaitingAcks => exact .keep (by simp [Holds, Place.holds, hbtype])
    | blockingKeys key => exact .keep (by simp [Holds, Place.holds, hkeys])
    | subs s =>
      show Roster.Change c _ _ (st.subs s)
        (if s ∈ k.subs then (st.subs s).erase c else st.subs s)
      split
      · exact .leave id
      · rename_i hs
        exact .keep (by simp [Holds, Place.holds, hs])
  · simp [Unblocked.release, State.set, isBlocked, hk, hblocked]

theorem Inv.replicationCacheMaster (h : Inv st) (hk : st.client c = some k)
    (hclosing : k.closeAsap = false) : Inv (replicationCacheMaster c k st) := by
  have htyped := h.typed c k hk
  refine h.change (c := c) rfl (fun place => ?_) ?_ ?_
  · rw [hk]
    cases place with
    | clients => exact .leave (by simp [Holds, Place.holds])
    | _ => exact .keep Iff.rfl
  · simp [Unblocked.replicationCacheMaster, State.set, isBlocked, hk]
  · exact ⟨htyped.blocked, htyped.keys, htyped.monitor, fun habs => by simp [hclosing] at habs⟩

theorem Inv.unblockIfBlocked (h : Inv st) (hc : NotQueued st c) : Inv (unblockIfBlocked c st) := by
  rw [Unblocked.unblockIfBlocked]
  split
  · split
    · exact h.unblockClient hc
    · exact h
  · exact h

/-- After `unblockIfBlocked` the client is not blocked, and is a slave as it was. -/
theorem Inv.unblockIfBlocked_client (h : Inv st) (hk : st.client c = some k) :
    ∃ k', (Unblocked.unblockIfBlocked c st).client c = some k' ∧ k'.blocked = false ∧
      k'.connected = k.connected ∧ k'.slave = k.slave ∧ k'.monitor = k.monitor := by
  rw [Unblocked.unblockIfBlocked, hk]
  dsimp only
  split
  · exact h.unblockClient_client hk
  · rename_i hblocked
    exact ⟨k, hk, by simpa using hblocked, rfl, rfl, rfl⟩

theorem unblockIfBlocked_client_ne (hne : c' ≠ c) :
    (unblockIfBlocked c st).client c' = st.client c' := by
  rw [unblockIfBlocked]
  split
  · split
    · exact unblockClient_client_ne hne
    · rfl
  · rfl

theorem isCached_iff : isCached k st ↔ st.master.isSome ∧ k.master ∧
    k.closeAfterReply = false ∧ k.closeAsap = false ∧ k.blocked = false ∧ k.unblocked = false := by
  simp [isCached, and_assoc]

theorem Inv.freeAlone (h : Inv st) (hc : NotQueued st c) : Inv (freeAlone c st) := by
  rw [Unblocked.freeAlone]
  split
  · exact h
  rename_i k hk
  split
  · rename_i hcached
    exact h.replicationCacheMaster hk (isCached_iff.mp hcached).2.2.2.1
  · have hun := h.unblockIfBlocked hc
    obtain ⟨k', hk', hblocked, -⟩ := h.unblockIfBlocked_client hk
    dsimp only
    rw [hk']
    exact hun.release hk' hblocked

theorem freeAlone_client_ne (hne : c' ≠ c) : (freeAlone c st).client c' = st.client c' := by
  rw [freeAlone]
  split
  · rfl
  split
  · simp [replicationCacheMaster, set_client, hne]
  · dsimp only
    split
    · simp [release, set_client, hne, unblockIfBlocked_client_ne hne]
    · exact unblockIfBlocked_client_ne hne

theorem Inv.freeAlone_client (h : Inv st) : (Unblocked.freeAlone c st).client c = none ∨
    ∃ k, (Unblocked.freeAlone c st).client c = some k ∧ k.blocked = false ∧ st.master.isSome ∧
      (Unblocked.freeAlone c st).cachedMaster = some c ∧
        (Unblocked.freeAlone c st).master = none := by
  rw [Unblocked.freeAlone]
  split
  · rename_i hnone
    exact .inl hnone
  rename_i k hk
  split
  · rename_i hcached
    have hcached := isCached_iff.mp hcached
    refine .inr ⟨_, (set_client c).trans (if_pos rfl), ?_, hcached.1, rfl, rfl⟩
    exact hcached.2.2.2.2.1
  · obtain ⟨k', hk', -⟩ := h.unblockIfBlocked_client hk
    dsimp only
    rw [hk']
    exact .inl ((set_client c).trans (if_pos rfl))

theorem Inv.notQueued_freeAlone (h : Inv st) (hc : NotQueued st c') :
    NotQueued (Unblocked.freeAlone c st) c' := by
  intro k hk hblocked
  by_cases hne : c' = c
  · subst hne
    rcases h.freeAlone_client (c := c') with hnone | ⟨k', hk', hfalse, -⟩
    · rw [hnone] at hk
      cases hk
    · rw [hk', some_inj] at hk
      rw [← hk, hfalse] at hblocked
      cases hblocked
  · rw [freeAlone_client_ne hne] at hk
    exact hc k hk hblocked

theorem unblockIfBlocked_frame : (unblockIfBlocked c st).slaves = st.slaves ∧
    (unblockIfBlocked c st).master = st.master ∧
      (unblockIfBlocked c st).cachedMaster = st.cachedMaster ∧
        (unblockIfBlocked c st).masterhost = st.masterhost := by
  have hrefl : st.slaves = st.slaves ∧ st.master = st.master ∧
      st.cachedMaster = st.cachedMaster ∧ st.masterhost = st.masterhost := ⟨rfl, rfl, rfl, rfl⟩
  rw [unblockIfBlocked]
  split
  · split
    · rw [unblockClient]
      split
      · exact hrefl
      split <;> exact hrefl
    · exact hrefl
  · exact hrefl

theorem freeAlone_slaves : (freeAlone c st).slaves = st.slaves ∨
    (freeAlone c st).slaves = st.slaves.erase c := by
  rw [freeAlone]
  split
  · exact .inl rfl
  split
  · exact .inl rfl
  · dsimp only
    split
    · rename_i k' hk'
      have hslaves : (unblockIfBlocked c st).slaves = st.slaves := unblockIfBlocked_frame.1
      rw [← hslaves]
      by_cases hslave : (k'.slave && !k'.monitor) = true
      · exact .inr (if_pos hslave)
      · exact .inl (if_neg hslave)
    · exact .inl unblockIfBlocked_frame.1

theorem freeAlone_masterhost : (freeAlone c st).masterhost = st.masterhost := by
  rw [freeAlone]
  split
  · rfl
  split
  · rfl
  · dsimp only
    split
    · exact unblockIfBlocked_frame.2.2.2
    · exact unblockIfBlocked_frame.2.2.2

theorem freeAlone_slaves_subset : (freeAlone c st).slaves ⊆ st.slaves := by
  have hslaves : (freeAlone c st).slaves = st.slaves ∨
      (freeAlone c st).slaves = st.slaves.erase c := freeAlone_slaves
  rcases hslaves with heq | heq <;> rw [heq]
  · exact Subset.refl _
  · exact erase_subset

theorem Inv.disconnectSlavesLoop (h : Inv st) (n : Nat)
    (hslaves : ∀ s ∈ st.slaves, NotQueued st s) : Inv (disconnectSlavesLoop n st) := by
  induction n generalizing st with
  | zero => exact h
  | succ n ih =>
    rw [Unblocked.disconnectSlavesLoop]
    split
    · exact h
    · rename_i s rest heq
      have hs : s ∈ st.slaves := heq ▸ mem_cons_self
      exact ih (h.freeAlone (hslaves s hs)) fun s' hs' =>
        h.notQueued_freeAlone (hslaves s' (freeAlone_slaves_subset hs'))

/-- Clients that are freed are not blocked while they are in the queue, and neither are the
slaves that are freed with the master. -/
def FreeOk (st : State) (c : Nat) : Prop :=
  NotQueued st c ∧ ∀ k, st.client c = some k → k.master → st.masterhost →
    ∀ s ∈ st.slaves, NotQueued st s

theorem Inv.freeClient (h : Inv st) (hc : FreeOk st c) : Inv (freeClient c st) := by
  rw [Unblocked.freeClient]
  split
  · exact h
  rename_i k hk
  have hfree := h.freeAlone hc.1
  dsimp only
  split
  · rename_i hlost
    rw [Bool.and_eq_true, freeAlone_masterhost] at hlost
    exact hfree.disconnectSlavesLoop _ fun s hs =>
      h.notQueued_freeAlone (hc.2 k hk hlost.1 hlost.2 s (freeAlone_slaves_subset hs))
  · exact hfree

/-- Only what no list depends on is changed. -/
theorem Inv.same (h : Inv st) (hclient : st'.client = st.client)
    (hlist : ∀ place, st'.list place = st.list place)
    (hcount : st'.bpopBlockedClients = st.bpopBlockedClients) : Inv st' := by
  refine ⟨fun place => ?_, ?_, ?_⟩
  · rw [hclient, hlist]
    exact h.places place
  · rw [hclient, hcount]
    exact h.blocked
  · rw [hclient]
    exact h.typed

theorem Inv.freeClientsInAsyncFreeQueue (h : Inv st)
    (hc : ∀ c ∈ st.clientsToClose.head?, FreeOk st c) :
    Inv (freeClientsInAsyncFreeQueue st) := by
  rw [Unblocked.freeClientsInAsyncFreeQueue]
  split
  · exact h
  rename_i c rest hlist
  have hmem : c ∈ st.list .clientsToClose := by simp [State.list, hlist]
  obtain ⟨k, hk, -⟩ := h.client_of_mem .clientsToClose hmem
  have htyped := h.typed c k hk
  have hrest : rest = st.clientsToClose.erase c := by rw [hlist, erase_cons_head]
  have hfree := hc c (by simp [hlist])
  rw [hk]
  dsimp only
  refine Inv.freeClient ?_ ⟨?_, ?_⟩
  · refine h.update hk rfl (fun place => ?_) rfl
      { htyped with closeAsap := fun habs => by simp at habs }
    cases place with
    | clientsToClose =>
      show Roster.Change c _ _ st.clientsToClose rest
      rw [hrest]
      exact .leave (by simp [Place.holds])
    | _ => exact .keep Iff.rfl
  · intro k' hk' hblocked
    obtain rfl := of_set_client hk'
    exact hfree.1 k hk hblocked
  · intro k' hk' hmaster hhost s hs k₁ hk₁ hblocked
    obtain rfl := of_set_client hk'
    rw [set_client] at hk₁
    by_cases hne : s = c
    · rw [if_pos hne, some_inj] at hk₁
      subst hk₁
      exact hfree.1 k hk hblocked
    · rw [if_neg hne] at hk₁
      exact hfree.2 k hk hmaster hhost s hs k₁ hk₁ hblocked

theorem Inv.replicationDiscardCachedMaster (h : Inv st)
    (hc : ∀ c ∈ st.cachedMaster, NotQueued st c) :
    Inv (replicationDiscardCachedMaster st) := by
  rw [Unblocked.replicationDiscardCachedMaster]
  split
  · exact h
  rename_i c hcached
  split
  · rename_i k hk
    have htyped := h.typed c k hk
    have hflag : Inv (st.set c (some { k with master := false })) :=
      h.setFlag hk (fun place => by cases place <;> exact Iff.rfl) rfl
        { htyped with }
    have hfree : FreeOk (st.set c (some { k with master := false })) c := by
      refine ⟨fun k' hk' hblocked => ?_, fun k' hk' hmaster => ?_⟩
      · rw [set_client, if_pos rfl, some_inj] at hk'
        subst hk'
        exact hc c hcached k hk hblocked
      · rw [set_client, if_pos rfl, some_inj] at hk'
        subst hk'
        cases hmaster
    exact (hflag.freeClient hfree).same rfl (fun place => by cases place <;> rfl) rfl
  · exact h.same rfl (fun place => by cases place <;> rfl) rfl

theorem Inv.replicationResurrectCachedMaster (h : Inv st)
    (hc : ∀ c ∈ st.cachedMaster, ∃ k, st.client c = some k ∧ k.connected = false) :
    Inv (replicationResurrectCachedMaster st) := by
  rw [Unblocked.replicationResurrectCachedMaster]
  split
  · exact h
  rename_i c hcached
  obtain ⟨k, hk, hconnected⟩ := hc c hcached
  have htyped := h.typed c k hk
  have hclosing : k.closeAsap = false := by
    by_contra habs
    have := htyped.closeAsap (by simpa using habs)
    simp [hconnected] at this
  rw [hk]
  dsimp only
  refine h.update hk rfl (fun place => ?_) rfl { htyped with closeAsap := fun _ => rfl }
  cases place with
  | clients => exact .enter (by simp [Place.holds, hconnected]) rfl
  | clientsToClose => exact .keep (by simp [Place.holds, hclosing])
  | _ => exact .keep Iff.rfl

theorem Inv.create (h : Inv st) (hc : st.client c = none) (master : Bool)
    (server : Option Nat) :
    Inv ({ st with clients := st.clients ++ [c], master := server }.set c
      (some { Client.fresh with master })) := by
  refine h.change (c := c) rfl (fun place => ?_) ?_ ?_
  · rw [hc]
    cases place with
    | clients => exact .enter id rfl
    | _ => exact .keep (by simp [Holds, Place.holds, Client.fresh])
  · simp [State.set, isBlocked, hc, Client.fresh]
  · exact ⟨by simp [Client.fresh], fun _ => rfl, by simp [Client.fresh], by simp [Client.fresh]⟩

theorem Inv.call (h : Inv st) (hk : st.client c = some k) (hblocked : k.blocked = false)
    (cmd : Command) : Inv (call c k cmd st) := by
  have htyped := h.typed c k hk
  cases cmd with
  | block keys => exact h.blockForKeys hk hblocked keys
  | wait => exact h.blockForAcks hk hblocked
  | quit =>
    exact h.setFlag hk (fun place => by cases place <;> exact Iff.rfl) rfl
      { htyped with }
  | subscribe s =>
    rw [Unblocked.call]
    split
    · exact h
    rename_i hs
    refine h.update hk rfl (fun place => ?_) rfl { htyped with }
    cases place with
    | subs s' =>
      show Roster.Change c _ _ (st.subs s')
        (Function.update st.subs s (st.subs s ++ [c]) s')
      by_cases hne : s' = s
      · subst hne
        rw [Function.update_self]
        exact .enter hs (by simp [Place.holds])
      · rw [Function.update_of_ne hne]
        exact .keep (by simp [Place.holds, hne])
    | _ => exact .keep Iff.rfl
  | unsubscribe s =>
    rw [Unblocked.call]
    split
    · refine h.update hk rfl (fun place => ?_) rfl { htyped with }
      cases place with
      | subs s' =>
        show Roster.Change c _ _ (st.subs s')
          (Function.update st.subs s ((st.subs s).erase c) s')
        by_cases hne : s' = s
        · subst hne
          rw [Function.update_self]
          exact .leave (by simp [Place.holds])
        · rw [Function.update_of_ne hne]
          exact .keep (by simp [Place.holds, hne])
      | _ => exact .keep Iff.rfl
    · exact h
  | monitor =>
    rw [Unblocked.call]
    split
    · exact h
    rename_i hslave
    have hmonitor : k.monitor = false := by
      by_contra habs
      exact hslave (htyped.monitor (by simpa using habs))
    refine h.update hk rfl (fun place => ?_) rfl { htyped with monitor := fun _ => rfl }
    cases place with
    | monitors => exact .enter (by simp [Place.holds, hmonitor]) ⟨rfl, rfl⟩
    | slaves => exact .keep (by simp [Place.holds, hslave])
    | _ => exact .keep Iff.rfl
  | sync =>
    rw [Unblocked.call]
    split
    · exact h
    rename_i hslave
    have hmonitor : k.monitor = false := by
      by_contra habs
      exact hslave (htyped.monitor (by simpa using habs))
    refine h.update hk rfl (fun place => ?_) rfl { htyped with monitor := fun _ => rfl }
    cases place with
    | slaves => exact .enter (by simp [Place.holds, hslave]) ⟨rfl, hmonitor⟩
    | monitors => exact .keep (by simp [Place.holds, hmonitor])
    | _ => exact .keep Iff.rfl

/-! ## Runs -/

/-- `unblockClient` is not called for a client that is in `unblocked_clients` already, no such
client is there when a pause ends, and the cached master was not freed. -/
def StepOk (st : State) : Event → Prop
  | .served key => ∀ c ∈ (st.blockingKeys key).head?, NotQueued st c
  | .acked c | .timedOut c => NotQueued st c
  | .disconnectAllBlockedClients => ∀ c ∈ st.clients, NotQueued st c
  | .pauseEnds => ∀ c ∈ st.clients, NotResumed st c
  | .freeClient c => FreeOk st c
  | .freeClientsInAsyncFreeQueue => ∀ c ∈ st.clientsToClose.head?, FreeOk st c
  | .disconnectSlaves => ∀ s ∈ st.slaves, NotQueued st s
  | .replicationDiscardCachedMaster => ∀ c ∈ st.cachedMaster, NotQueued st c
  | .replicationResurrectCachedMaster =>
    ∀ c ∈ st.cachedMaster, ∃ k, st.client c = some k ∧ k.connected = false
  | .create .. | .input .. | .processUnblockedClients | .freeClientAsync _ |
    .setMasterhost _ => True

theorem Inv.step (h : Inv st) {ev : Event} (hok : StepOk st ev) : Inv (step st ev) := by
  cases ev with
  | create c master =>
    rw [Unblocked.step]
    split
    · exact h
    · rename_i hc
      exact h.create hc master _
  | input c cmd =>
    rw [Unblocked.step]
    split
    · rename_i k hk
      split
      · rename_i hgate
        simp only [Bool.and_eq_true, Bool.not_eq_true'] at hgate
        exact h.call hk hgate.1.2 cmd
      · exact h
    · exact h
  | served key =>
    rw [Unblocked.step]
    split
    · exact h
    · rename_i c rest hlist
      exact h.unblockClient (hok c (by simp [hlist]))
  | acked c =>
    rw [Unblocked.step]
    split
    · exact h.unblockClient hok
    · exact h
  | timedOut c =>
    rw [Unblocked.step]
    split
    · exact h.unblockIfBlocked hok
    · exact h
  | disconnectAllBlockedClients => exact h.foldl_disconnectBlocked hok
  | processUnblockedClients => exact h.processUnblockedClients
  | pauseEnds => exact h.foldl_resume (h.places .clients).nodup hok
  | freeClient c =>
    rw [Unblocked.step]
    split
    · exact h.freeClient hok
    · exact h
  | freeClientAsync c =>
    rw [Unblocked.step]
    split
    · rename_i hc
      exact h.freeClientAsync hc
    · exact h
  | freeClientsInAsyncFreeQueue => exact h.freeClientsInAsyncFreeQueue hok
  | disconnectSlaves =>
    rw [Unblocked.step]
    split
    · exact h.disconnectSlavesLoop _ hok
    · exact h
  | setMasterhost masterhost => exact h.same rfl (fun place => by cases place <;> rfl) rfl
  | replicationDiscardCachedMaster => exact h.replicationDiscardCachedMaster hok
  | replicationResurrectCachedMaster => exact h.replicationResurrectCachedMaster hok

/-- The states of the runs in which all steps meet the condition. -/
inductive Reachable : State → Prop
  | init : Reachable .init
  | step {st : State} {ev : Event} : Reachable st → StepOk st ev → Reachable (step st ev)

theorem Reachable.inv (h : Reachable st) : Inv st := by
  induction h with
  | init => exact inv_init
  | step _ hok ih => exact ih.step hok

end Redis.Unblocked
