import Redis.Blocked.Waiters

/-!
# Redis.Blocked.Wakeup

No client stays blocked for a key that holds a list with elements.  `dbAdd` is what wakes
clients up; `SORT ... STORE` on a key that exists puts a list there without it.

There is no list without elements under a key between commands.  (One that was loaded from a
very old RDB file is not considered.)
-/

namespace Redis.Blocked

open List Option

variable {st st' st'' : State} {key : Key}
variable {value : Value} {c : Nat} {element : Element} {head : Bool} {values : List (List UInt8)}
  {dstkey : Key} {keys pending : List Key} {cmd : Command} {l : List Element}

/-! ## What commands do to keys -/

def IsList : Option Value → Prop
  | some (.list _) => True
  | _ => False

/-- Who waits for a key that holds a list has been noticed. -/
def Woken (st : State) : Prop :=
  ∀ k, st.blocking k ≠ [] → IsList (st.keyspace k) → k ∈ st.readyKeys

/-- A part of a command: no client is blocked or unblocked, and where a list comes to a key
for which clients wait, the key is ready. -/
structure Heard (st st' : State) : Prop where
  same : SameWaiters st st'
  multi : ∀ c, (st'.clients c).multi = (st.clients c).multi
  ready_subset : st.ready ⊆ st'.ready
  readyKeys_subset : st.readyKeys ⊆ st'.readyKeys
  ready : ∀ k ∈ st'.readyKeys, k ∈ st.readyKeys ∨ k ∈ st'.ready
  list : ∀ k, IsList (st'.keyspace k) →
    IsList (st.keyspace k) ∨ st.blocking k = [] ∨ k ∈ st'.readyKeys

theorem Heard.refl (st : State) : Heard st st :=
  ⟨.refl st, fun _ => rfl, Subset.refl _, Subset.refl _, fun _ h => .inl h,
    fun _ h => .inl h⟩

theorem Heard.trans (h : Heard st st') (h' : Heard st' st'') : Heard st st'' := by
  refine ⟨h.same.trans h'.same, fun c => (h'.multi c).trans (h.multi c),
    Subset.trans h.ready_subset h'.ready_subset,
    Subset.trans h.readyKeys_subset h'.readyKeys_subset, fun k hk => ?_, fun k hk => ?_⟩
  · rcases h'.ready k hk with hk | hk
    · exact (h.ready k hk).imp_right fun hk => h'.ready_subset hk
    · exact .inr hk
  · rcases h'.list k hk with hk | hk | hk
    · exact (h.list k hk).imp_right (.imp_right fun hk => h'.readyKeys_subset hk)
    · exact .inr (.inl (h.same.blocking ▸ hk))
    · exact .inr (.inr hk)

theorem Heard.foldl {α : Type} {f : State → α → State} (h : ∀ st a, Heard st (f st a))
    (as : List α) (st : State) : Heard st (as.foldl f st) := by
  induction as generalizing st with
  | nil => exact .refl st
  | cons a as ih => exact (h st a).trans (ih (f st a))

theorem Heard.woken (h : Heard st st') (hw : Woken st) : Woken st' := by
  intro k hk hlist
  rcases h.list k hlist with hl | hl | hl
  · exact h.readyKeys_subset (hw k (h.same.blocking ▸ hk) hl)
  · exact absurd (h.same.blocking ▸ hl) hk
  · exact hl

/-- A value that is no list comes to a key, or none. -/
theorem heard_put {value : Option Value} (h : ¬ IsList value ∨ IsList (st.keyspace key)) :
    Heard st (st.put key value) := by
  refine ⟨⟨rfl, fun _ => rfl, rfl, rfl⟩, fun _ => rfl, Subset.refl _, Subset.refl _,
    fun _ h => .inl h, fun k hk => .inl ?_⟩
  by_cases hkey : k = key
  · subst hkey
    simp only [State.put, Function.update_self] at hk
    exact h.resolve_left fun hn => hn hk
  · simpa [State.put, hkey] using hk

theorem heard_dbDelete : Heard st (dbDelete key st) := heard_put (.inl fun h => h)

theorem heard_signalListAsReady : Heard st (signalListAsReady key st) := by
  rw [signalListAsReady]
  split
  · exact .refl st
  split
  · exact .refl st
  · refine ⟨⟨rfl, fun _ => rfl, rfl, rfl⟩, fun _ => rfl, subset_append_left _ _,
      subset_cons_self _ _, fun k hk => ?_, fun _ h => .inl h⟩
    rcases mem_cons.mp hk with rfl | hk
    · exact .inr (mem_append_right _ mem_cons_self)
    · exact .inl hk

theorem signalListAsReady_ready : st.blocking key = [] ∨
    key ∈ (signalListAsReady key st).readyKeys := by
  rw [signalListAsReady]
  split
  · exact .inl ‹_›
  split
  · exact .inr ‹_›
  · exact .inr mem_cons_self

theorem signalListAsReady_keyspace : (signalListAsReady key st).keyspace = st.keyspace := by
  rw [signalListAsReady]
  split
  · rfl
  split <;> rfl

theorem heard_dbAdd : Heard st (dbAdd key value st) := by
  cases value with
  | other => exact heard_put (.inl fun h => h)
  | list l =>
    have hsignal : Heard (st.put key (some (.list l)))
        (signalListAsReady key (st.put key (some (.list l)))) := heard_signalListAsReady
    have hready : (st.put key (some (.list l))).blocking key = [] ∨
        key ∈ (signalListAsReady key (st.put key (some (.list l)))).readyKeys :=
      signalListAsReady_ready
    refine ⟨⟨hsignal.same.blocking, hsignal.same.blocked, hsignal.same.bpopBlockedClients,
      hsignal.same.clock⟩, hsignal.multi, hsignal.ready_subset, hsignal.readyKeys_subset,
      hsignal.ready, fun k hk => ?_⟩
    by_cases hkey : k = key
    · subst hkey
      exact .inr hready
    · refine .inl ?_
      simpa [dbAdd, signalListAsReady_keyspace, State.put, hkey] using hk

theorem heard_reply {moved : Bool} : Heard st (reply c element moved st) :=
  ⟨⟨rfl, fun _ => rfl, rfl, rfl⟩, fun _ => rfl, Subset.refl _, Subset.refl _,
    fun _ h => .inl h, fun _ h => .inl h⟩

theorem heard_createList : Heard st (createList key st) := by
  rw [createList]
  split
  · exact heard_dbAdd
  · exact .refl st

theorem heard_pushValue {value : List UInt8} : Heard st (pushValue head key value st) := by
  rw [pushValue]
  split
  · rename_i l hl
    have hput : Heard st (st.put key (some (.list (listTypePush head ⟨st.pushes, value⟩ l)))) :=
      heard_put (.inr (by rw [hl]; trivial))
    exact ⟨⟨rfl, fun _ => rfl, rfl, rfl⟩, fun _ => rfl, hput.ready_subset, hput.readyKeys_subset, hput.ready,
      hput.list⟩
  · exact .refl st

theorem heard_deleteIfEmpty : Heard st (deleteIfEmpty key st) := by
  rw [deleteIfEmpty]
  split
  · exact heard_dbDelete
  · exact .refl st

theorem heard_pushGenericCommand : Heard st (pushGenericCommand head key values st) := by
  rw [pushGenericCommand]
  split
  · exact .refl st
  · exact .foldl (fun st value => heard_createList.trans heard_pushValue) values st

theorem heard_popKey (h : popKey head key st = some (element, st')) : Heard st st' := by
  rw [popKey] at h
  split at h
  · rename_i l hl
    obtain ⟨p, -, heq⟩ := map_eq_some_iff.mp h
    obtain ⟨-, rfl⟩ := Prod.mk.inj heq
    exact heard_put (.inr (by rw [hl]; trivial))
  · cases h

theorem heard_popGenericCommand : Heard st (popGenericCommand c head key st) := by
  rw [popGenericCommand]
  split
  · exact .refl st
  · rename_i element st' hpop
    exact (heard_popKey hpop).trans (heard_reply.trans heard_deleteIfEmpty)

theorem heard_rpoplpushHandlePush : Heard st (rpoplpushHandlePush c key element st) := by
  have hcreate : Heard st (createList key st) := heard_createList
  rw [rpoplpushHandlePush]
  split
  · rename_i l hl
    exact hcreate.trans ((heard_put (.inr (by rw [hl]; trivial))).trans heard_reply)
  · exact hcreate

theorem heard_rpoplpushCommand : Heard st (rpoplpushCommand c key dstkey st) := by
  rw [rpoplpushCommand]
  split
  · exact .refl st
  split
  · exact .refl st
  · rename_i element st' hpop
    exact (heard_popKey hpop).trans (heard_rpoplpushHandlePush.trans heard_deleteIfEmpty)

variable {dst newkey : Key} {req : Request} {rest : List Element} (k : Key)

theorem heard_renameCommand : Heard st (renameCommand key newkey st) := by
  rw [renameCommand]
  split
  · exact .refl st
  split
  · exact .refl st
  · exact heard_dbDelete.trans (heard_dbAdd.trans heard_dbDelete)

theorem heard_moveCommand : Heard st (moveCommand key dst st) := by
  rw [moveCommand]
  split
  · exact .refl st
  split
  · exact heard_dbAdd.trans heard_dbDelete
  · exact .refl st

theorem heard_delCommand : Heard st (delCommand keys st) :=
  .foldl (fun _ _ => heard_dbDelete) keys st

/-- `setKey` of a value that is no list, or on a key that no client waits for, or that is
ready, or does not exist. -/
theorem heard_setKey (h : st.keyspace key = none ∨ value = .other ∨
    st.blocking key = [] ∨ key ∈ st.readyKeys) : Heard st (setKey key value st) := by
  rw [setKey]
  split
  · exact heard_dbAdd
  · rename_i old hold
    rw [hold] at h
    refine ⟨⟨rfl, fun _ => rfl, rfl, rfl⟩, fun _ => rfl, Subset.refl _, Subset.refl _,
      fun _ h => .inl h, fun k hk => ?_⟩
    by_cases hkey : k = key
    · subst hkey
      rcases h with h | rfl | h
      · cases h
      · simp [State.put, IsList] at hk
      · exact .inr h
    · exact .inl (by simpa [State.put, hkey] using hk)

/-! ## Lists without elements -/

/-- No key but perhaps `key` holds a list without elements. -/
def NoEmptyBut (key : Key) (st : State) : Prop := ∀ k ≠ key, st.keyspace k ≠ some (.list [])

/-- No key holds a list without elements. -/
def NoEmpty (st : State) : Prop := ∀ k, st.keyspace k ≠ some (.list [])

theorem NoEmpty.but (h : NoEmpty st) (key : Key) : NoEmptyBut key st := fun k _ => h k

theorem NoEmptyBut.noEmpty (h : NoEmptyBut key st) (hkey : st.keyspace key ≠ some (.list [])) :
    NoEmpty st := by
  intro k
  by_cases hk : k = key
  · exact hk ▸ hkey
  · exact h k hk

theorem NoEmptyBut.congr (h : NoEmptyBut key st) (heq : st'.keyspace = st.keyspace) :
    NoEmptyBut key st' := fun k hk => heq ▸ h k hk

theorem put_keyspace (value : Option Value) (k : Key) :
    (st.put key value).keyspace k = if k = key then value else st.keyspace k := by
  by_cases hk : k = key <;> simp [State.put, hk]

theorem dbAdd_keyspace (value : Value) (k : Key) :
    (dbAdd key value st).keyspace k = if k = key then some value else st.keyspace k := by
  cases value with
  | other => exact put_keyspace _ k
  | list l => rw [dbAdd, signalListAsReady_keyspace, put_keyspace]

theorem NoEmptyBut.put (h : NoEmptyBut key st) (value : Option Value) :
    NoEmptyBut key (st.put key value) := by
  intro k hk
  rw [put_keyspace, if_neg hk]
  exact h k hk

theorem NoEmpty.put (h : NoEmpty st) {value : Option Value} (hvalue : value ≠ some (.list [])) :
    NoEmpty (st.put key value) := by
  intro k
  rw [put_keyspace]
  split
  · exact hvalue
  · exact h k

theorem NoEmpty.dbAdd (h : NoEmpty st) (hvalue : value ≠ .list []) :
    NoEmpty (dbAdd key value st) := by
  intro k
  rw [dbAdd_keyspace]
  split
  · exact fun heq => hvalue (some_inj.mp heq)
  · exact h k

theorem NoEmpty.dbDelete (h : NoEmpty st) : NoEmpty (dbDelete key st) := h.put (by simp)

theorem NoEmptyBut.deleteIfEmpty (h : NoEmptyBut key st) : NoEmpty (deleteIfEmpty key st) := by
  rw [Blocked.deleteIfEmpty]
  split
  · exact (h.put none).noEmpty (by simp [put_keyspace])
  · rename_i hne
    exact h.noEmpty hne

theorem listTypePush_ne_nil (head : Bool) (e : Element) (l : List Element) :
    listTypePush head e l ≠ [] := by
  cases head <;> simp [listTypePush]

theorem createList_keyspace : (createList key st).keyspace k =
    if k = key ∧ st.keyspace key = none then some (.list []) else st.keyspace k := by
  rw [createList]
  split
  · rename_i hnone
    rw [dbAdd_keyspace]
    simp [hnone]
  · rename_i v hv
    simp [hv]

theorem NoEmpty.pushValue (h : NoEmptyBut key st) (hkey : IsList (st.keyspace key) ∨ NoEmpty st)
    {value : List UInt8} : NoEmpty (pushValue head key value st) := by
  rw [Blocked.pushValue]
  split
  · rename_i l hl
    have hput := h.put (some (.list (listTypePush head ⟨st.pushes, value⟩ l)))
    exact (hput.noEmpty (by simp [put_keyspace, listTypePush_ne_nil]) : NoEmpty _)
  · rename_i hne
    refine hkey.resolve_left fun hlist => ?_
    cases hv : st.keyspace key with
    | none => simp [hv, IsList] at hlist
    | some v =>
      cases v with
      | list l => exact hne l hv
      | other => simp [hv, IsList] at hlist

theorem NoEmpty.pushGenericCommand (h : NoEmpty st) :
    NoEmpty (pushGenericCommand head key values st) := by
  rw [Blocked.pushGenericCommand]
  split
  · exact h
  · clear * - h
    induction values generalizing st with
    | nil => exact h
    | cons value values ih =>
      refine ih (NoEmpty.pushValue (fun k hk => ?_) ?_)
      · rw [createList_keyspace, if_neg fun hand => hk hand.1]
        exact h k
      · by_cases hnone : st.keyspace key = none
        · exact .inl (by simp [createList_keyspace, hnone, IsList])
        · refine .inr fun k => ?_
          rw [createList_keyspace, if_neg fun hand => hnone hand.2]
          exact h k

theorem NoEmpty.popKey (h : NoEmpty st) (hpop : popKey head key st = some (element, st')) :
    NoEmptyBut key st' := by
  rw [Blocked.popKey] at hpop
  split at hpop
  · obtain ⟨p, -, heq⟩ := map_eq_some_iff.mp hpop
    obtain ⟨-, rfl⟩ := Prod.mk.inj heq
    exact (h.but key).put _
  · cases hpop

theorem NoEmpty.popGenericCommand (h : NoEmpty st) : NoEmpty (popGenericCommand c head key st) := by
  rw [Blocked.popGenericCommand]
  split
  · exact h
  · rename_i element st' hpop
    have hreply : NoEmptyBut key (reply c element false st') := (h.popKey hpop).congr rfl
    exact hreply.deleteIfEmpty

theorem rpoplpushHandlePush_keyspace :
    (rpoplpushHandlePush c dstkey element st).keyspace k =
      if k = dstkey then
        match st.keyspace dstkey with
        | some .other => some .other
        | some (.list l) => some (.list (element :: l))
        | none => some (.list [element])
      else st.keyspace k := by
  have hcreate := @createList_keyspace st dstkey
  rw [rpoplpushHandlePush]
  cases hv : st.keyspace dstkey with
  | none =>
    have hlist : (createList dstkey st).keyspace dstkey = some (.list []) := by
      rw [hcreate, if_pos ⟨rfl, hv⟩]
    simp only [hlist]
    by_cases hk : k = dstkey
    · simp [hk, reply, put_keyspace, listTypePush]
    · simp [hk, reply, put_keyspace, hcreate]
  | some v =>
    have hsame : createList dstkey st = st := by rw [createList, hv]
    rw [hsame]
    cases v with
    | other =>
      simp only [hv]
      by_cases hk : k = dstkey
      · rw [if_pos hk, hk, hv]
      · rw [if_neg hk]
    | list l =>
      simp only [hv]
      by_cases hk : k = dstkey <;> simp [hk, reply, put_keyspace, listTypePush]

theorem NoEmptyBut.rpoplpushHandlePush (h : NoEmptyBut key st) :
    NoEmptyBut key (rpoplpushHandlePush c dstkey element st) := by
  intro k hk
  rw [rpoplpushHandlePush_keyspace]
  split
  · split <;> simp
  · exact h k hk

theorem NoEmpty.rpoplpushCommand (h : NoEmpty st) : NoEmpty (rpoplpushCommand c key dstkey st) := by
  rw [Blocked.rpoplpushCommand]
  split
  · exact h
  split
  · exact h
  · rename_i hpop
    exact (h.popKey hpop).rpoplpushHandlePush.deleteIfEmpty

theorem NoEmpty.renameCommand (h : NoEmpty st) : NoEmpty (renameCommand key newkey st) := by
  rw [Blocked.renameCommand]
  split
  · exact h
  split
  · exact h
  · rename_i o ho
    exact (h.dbDelete.dbAdd fun heq => h key (heq ▸ ho)).dbDelete

theorem NoEmpty.moveCommand (h : NoEmpty st) : NoEmpty (moveCommand key dst st) := by
  rw [Blocked.moveCommand]
  split
  · exact h
  split
  · rename_i o ho _
    exact (h.dbAdd fun heq => h key (heq ▸ ho)).dbDelete
  · exact h

theorem NoEmpty.delCommand (h : NoEmpty st) : NoEmpty (delCommand keys st) := by
  rw [Blocked.delCommand]
  induction keys generalizing st with
  | nil => exact h
  | cons key keys ih => exact ih h.dbDelete

theorem NoEmpty.setKey (h : NoEmpty st) (hvalue : value ≠ .list []) :
    NoEmpty (setKey key value st) := by
  rw [Blocked.setKey]
  split
  · exact h.dbAdd hvalue
  · exact h.put fun heq => hvalue (some_inj.mp heq)

/-! ## Commands -/

/-- What holds between two parts of the code; `pending` are the keys that the current round of
`handleClientsBlockedOnLists` has still to look at. -/
structure Tended (pending : List Key) (st : State) : Prop where
  waiters : Waiters st
  ready : ∀ k ∈ st.readyKeys, k ∈ st.ready ∨ k ∈ pending
  woken : Woken st
  noEmpty : NoEmpty st

theorem Tended.heard (h : Tended pending st) (hheard : Heard st st') (hnoEmpty : NoEmpty st') :
    Tended pending st' := by
  refine ⟨h.waiters.same hheard.same, fun k hk => ?_, hheard.woken h.woken, hnoEmpty⟩
  rcases hheard.ready k hk with hk | hk
  · exact (h.ready k hk).imp_left fun hk => hheard.ready_subset hk
  · exact .inl hk

theorem Tended.blockForKeys (h : Tended [] st) (hc : (st.clients c).blocked = none)
    (hkeys : ∀ k ∈ keys, ¬ IsList (st.keyspace k)) (target : Option Key) (head : Bool) :
    Tended [] (blockForKeys c keys target head st) := by
  refine ⟨h.waiters.blockForKeys hc keys target head, h.ready, fun k hk hlist => ?_, h.noEmpty⟩
  rw [blockForKeys_blocking] at hk
  by_cases hmem : k ∈ keys
  · exact absurd hlist (hkeys k hmem)
  · rw [if_neg hmem] at hk
    exact h.woken k hk hlist

/-- The loop of `blockingPopGenericCommand` pops, or none of the keys holds a list. -/
theorem blockingPopLoop_spec (h : NoEmpty st) (c : Nat) (head : Bool) (keys : List Key) :
    (∃ st', blockingPopLoop c head keys st = some st' ∧ Heard st st' ∧ NoEmpty st') ∨
      blockingPopLoop c head keys st = none ∧ ∀ k ∈ keys, ¬ IsList (st.keyspace k) := by
  induction keys with
  | nil => exact .inr ⟨rfl, fun k hk => absurd hk not_mem_nil⟩
  | cons key keys ih =>
    rw [blockingPopLoop]
    split
    · rename_i hnone
      refine ih.imp_right fun hrest => ⟨hrest.1, fun k hk => ?_⟩
      rcases mem_cons.mp hk with rfl | hk
      · simp [hnone, IsList]
      · exact hrest.2 k hk
    · exact .inl ⟨st, rfl, .refl st, h⟩
    · rename_i hempty
      exact absurd hempty (h key)
    · exact .inl ⟨_, rfl, heard_popGenericCommand, h.popGenericCommand⟩

/-- `SORT ... STORE` of a list with elements does not overwrite a value under a key for which
clients wait, unless the key is ready. -/
def StoreOk (c : Nat) (st : State) : Command → Prop
  | .sortStore output storekey =>
    ∀ values, output st.keyspace = some values → values ≠ [] →
      st.keyspace ((st.clients c).db, storekey) = none ∨
        st.blocking ((st.clients c).db, storekey) = [] ∨
          ((st.clients c).db, storekey) ∈ st.readyKeys
  | _ => True

theorem elements_ne_nil {n : Nat} (h : values ≠ []) : elements n values ≠ [] := by
  cases values with
  | nil => exact absurd rfl h
  | cons value values => simp [elements]

theorem sortStore_spec (h : NoEmpty st)
    {output : (Key → Option Value) → Option (List (List UInt8))} {storekey : List UInt8}
    (hstore : StoreOk c st (.sortStore output storekey)) :
    Heard st (sortStore output ((st.clients c).db, storekey) st) ∧
      NoEmpty (sortStore output ((st.clients c).db, storekey) st) := by
  rcases hout : output st.keyspace with _ | _ | ⟨value, values⟩
  · rw [sortStore, hout]
    exact ⟨.refl st, h⟩
  · rw [sortStore, hout]
    exact ⟨heard_dbDelete, h.dbDelete⟩
  · have hok := hstore _ hout (cons_ne_nil _ _)
    have hpushes : Heard st { st with pushes := st.pushes + (value :: values).length } :=
      ⟨⟨rfl, fun _ => rfl, rfl, rfl⟩, fun _ => rfl, Subset.refl _, Subset.refl _,
        fun _ h => .inl h, fun _ h => .inl h⟩
    have hn : NoEmpty { st with pushes := st.pushes + (value :: values).length } := h
    rw [sortStore, hout]
    refine ⟨hpushes.trans (heard_setKey (hok.imp_right .inr)), hn.setKey fun heq => ?_⟩
    exact elements_ne_nil (cons_ne_nil _ _) (Value.list.inj heq)

theorem Tended.call_heard (h : Tended [] st) (hc : (st.clients c).blocked = none)
    (hcall : Heard st (call c cmd st) ∧ NoEmpty (call c cmd st)) :
    Tended [] (call c cmd st) ∧ ((st.clients c).multi.isSome →
      ((call c cmd st).clients c).blocked = none ∧ ((call c cmd st).clients c).multi.isSome) := by
  refine ⟨h.heard hcall.1 hcall.2, fun hmulti => ?_⟩
  rw [hcall.1.same.blocked, hcall.1.multi]
  exact ⟨hc, hmulti⟩

/-- A command that blocks the client for keys that hold no lists, but in a transaction. -/
theorem Tended.call_block (h : Tended [] st) (hc : (st.clients c).blocked = none)
    {target : Option Key} (hkeys : ∀ k ∈ keys, ¬ IsList (st.keyspace k))
    (hcall : call c cmd st = if (st.clients c).multi.isSome then st
      else Blocked.blockForKeys c keys target head st) :
    Tended [] (call c cmd st) ∧ ((st.clients c).multi.isSome →
      ((call c cmd st).clients c).blocked = none ∧ ((call c cmd st).clients c).multi.isSome) := by
  rw [hcall]
  by_cases hmulti : (st.clients c).multi.isSome
  · rw [if_pos hmulti]
    exact ⟨h, fun _ => ⟨hc, hmulti⟩⟩
  · rw [if_neg hmulti]
    exact ⟨h.blockForKeys hc hkeys target head, fun habs => absurd habs hmulti⟩

/-- A command, of a client that is not blocked; in a transaction it does not block. -/
theorem Tended.call (h : Tended [] st) (hc : (st.clients c).blocked = none)
    (hstore : StoreOk c st cmd) :
    Tended [] (call c cmd st) ∧ ((st.clients c).multi.isSome →
      ((call c cmd st).clients c).blocked = none ∧ ((call c cmd st).clients c).multi.isSome) := by
  have hn := h.noEmpty
  cases cmd with
  | push => exact h.call_heard hc ⟨heard_pushGenericCommand, hn.pushGenericCommand⟩
  | pushx head key value =>
    refine h.call_heard hc ⟨heard_pushValue, ?_⟩
    exact NoEmpty.pushValue (hn.but _) (.inr hn)
  | pop => exact h.call_heard hc ⟨heard_popGenericCommand, hn.popGenericCommand⟩
  | rpoplpush => exact h.call_heard hc ⟨heard_rpoplpushCommand, hn.rpoplpushCommand⟩
  | rename => exact h.call_heard hc ⟨heard_renameCommand, hn.renameCommand⟩
  | move => exact h.call_heard hc ⟨heard_moveCommand, hn.moveCommand⟩
  | del => exact h.call_heard hc ⟨heard_delCommand, hn.delCommand⟩
  | set => exact h.call_heard hc ⟨heard_setKey (.inr (.inl rfl)), hn.setKey (by simp)⟩
  | sortStore output storekey => exact h.call_heard hc (sortStore_spec hn hstore)
  | select dbid =>
    have hsame : SameWaiters st (st.modify c fun k => { k with db := dbid }) := .modify rfl
    refine h.call_heard hc ⟨⟨hsame, fun c' => ?_, Subset.refl _,
      Subset.refl _, fun _ h => .inl h, fun _ h => .inl h⟩, hn⟩
    by_cases hc' : c' = c <;> simp [Blocked.call, State.modify, hc']
  | bpop head keys =>
    have hloop := blockingPopLoop_spec hn c head (keys.map fun key => ((st.clients c).db, key))
    rcases hloop with ⟨st', hloop, hspec⟩ | ⟨hloop, hkeys⟩
    · have heq : Blocked.call c (.bpop head keys) st = st' := by
        rw [Blocked.call, blockingPopGenericCommand, hloop]
      exact h.call_heard hc (heq ▸ hspec)
    · have hcall : Blocked.call c (.bpop head keys) st = if (st.clients c).multi.isSome then st
          else Blocked.blockForKeys c (keys.map fun key => ((st.clients c).db, key)) none head st := by
        rw [Blocked.call, blockingPopGenericCommand, hloop]
      exact h.call_block hc hkeys hcall
  | brpoplpush key dstkey =>
    rcases hv : st.keyspace ((st.clients c).db, key) with _ | _ | _
    · have hcall : Blocked.call c (.brpoplpush key dstkey) st =
          if (st.clients c).multi.isSome then st
          else Blocked.blockForKeys c [((st.clients c).db, key)]
            (some ((st.clients c).db, dstkey)) false st := by
        rw [Blocked.call, brpoplpushCommand, hv]
      exact h.call_block hc (by simp [hv, IsList]) hcall
    · have heq : Blocked.call c (.brpoplpush key dstkey) st =
          rpoplpushCommand c ((st.clients c).db, key) ((st.clients c).db, dstkey) st := by
        rw [Blocked.call, brpoplpushCommand, hv]
      exact h.call_heard hc (heq ▸ ⟨heard_rpoplpushCommand, hn.rpoplpushCommand⟩)
    · have heq : Blocked.call c (.brpoplpush key dstkey) st = st := by
        rw [Blocked.call, brpoplpushCommand, hv]
      exact h.call_heard hc (by rw [heq]; exact ⟨.refl st, hn⟩)

/-- A condition on the commands that are called, at each command of a transaction. -/
def ExecOk (ok : Nat → State → Command → Prop) (c : Nat) : State → List Command → Prop
  | _, [] => True
  | st, cmd :: cmds => ok c st cmd ∧ ExecOk ok c (call c cmd st) cmds

/-- A condition on the commands that are called, for what a client asks for. -/
def RequestOk (ok : Nat → State → Command → Prop) (c : Nat) (st : State) : Request → Prop
  | .command cmd => (st.clients c).multi = none → ok c st cmd
  | .exec dirty =>
    dirty = false → ∀ cmds, (st.clients c).multi = some cmds → ExecOk ok c st cmds
  | _ => True

theorem Tended.setMulti (h : Tended [] st) (c : Nat) (multi : Option (List Command)) :
    Tended [] (st.modify c fun k => { k with multi }) :=
  ⟨h.waiters.same (.modify rfl), h.ready, h.woken, h.noEmpty⟩

theorem Tended.exec (h : Tended [] st) (hc : (st.clients c).blocked = none)
    (hmulti : (st.clients c).multi.isSome) {cmds : List Command} (hok : ExecOk StoreOk c st cmds) :
    Tended [] (cmds.foldl (fun st cmd => Blocked.call c cmd st) st) := by
  induction cmds generalizing st with
  | nil => exact h
  | cons cmd cmds ih =>
    obtain ⟨hcall, hkeep⟩ := h.call hc hok.1
    obtain ⟨hc', hmulti'⟩ := hkeep hmulti
    exact ih hcall hc' hmulti' hok.2

theorem Tended.callRequest (h : Tended [] st) (hc : (st.clients c).blocked = none)
    (hcmd : ∀ cmd, req = .command cmd → (st.clients c).multi = none)
    (hok : RequestOk StoreOk c st req) : Tended [] (callRequest c req st) := by
  cases req with
  | command cmd => exact (h.call hc (hok (hcmd cmd rfl))).1
  | multi =>
    rw [Blocked.callRequest]
    split
    · exact h
    · exact h.setMulti c _
  | exec dirty =>
    rw [Blocked.callRequest, execCommand]
    split
    · exact h
    · rename_i cmds hcmds
      cases dirty with
      | true => exact h.setMulti c none
      | false =>
        exact (h.exec hc (by rw [hcmds]; rfl) (hok rfl cmds hcmds)).setMulti c none
  | discard =>
    rw [Blocked.callRequest]
    split
    · exact h.setMulti c none
    · exact h

/-! ## Serving blocked clients -/

/-- What holds while clients are served for `key`. -/
structure Serving (key : Key) (pending : List Key) (st : State) : Prop where
  waiters : Waiters st
  ready : ∀ k ∈ st.readyKeys, k ∈ st.ready ∨ k ∈ pending
  woken : ∀ k ≠ key, st.blocking k ≠ [] → IsList (st.keyspace k) → k ∈ st.readyKeys
  noEmpty : NoEmptyBut key st
  isList : IsList (st.keyspace key)

/-- A round changes `ready_keys` only when it unblocks a client. -/
def Progress (st st' : State) : Prop :=
  st'.bpopBlockedClients ≤ st.bpopBlockedClients ∧
    (st'.ready = st.ready ∨ st'.bpopBlockedClients < st.bpopBlockedClients)

theorem Progress.refl (st : State) : Progress st st := ⟨le_rfl, .inl rfl⟩

theorem Progress.trans (h : Progress st st') (h' : Progress st' st'') : Progress st st'' := by
  refine ⟨h'.1.trans h.1, ?_⟩
  rcases h.2 with heq | hlt
  · exact h'.2.imp (fun heq' => heq'.trans heq) fun hlt => lt_of_lt_of_le hlt h.1
  · exact .inr (lt_of_le_of_lt h'.1 hlt)

theorem listTypePop_eq {e : Element} (h : listTypePop head l = some (e, rest)) :
    listTypePush head e rest = l := by
  cases head with
  | true =>
    cases l with
    | nil => cases h
    | cons x xs =>
      obtain ⟨rfl, rfl⟩ := Prod.mk.inj (Option.some.inj h)
      rfl
  | false =>
    obtain ⟨x, hx, heq⟩ := map_eq_some_iff.mp h
    obtain ⟨rfl, rfl⟩ := Prod.mk.inj heq
    exact dropLast_append_getLast? x hx

theorem listTypePop_eq_none (h : listTypePop head l = none) : l = [] := by
  cases head with
  | true =>
    cases l with
    | nil => rfl
    | cons x xs => cases h
  | false => simpa [listTypePop] using h

theorem unblockClient_keyspace (c : Nat) : (unblockClient c st).keyspace = st.keyspace := by
  rw [unblockClient]
  split <;> rfl

theorem unblockClient_ready (c : Nat) : (unblockClient c st).ready = st.ready := by
  rw [unblockClient]
  split <;> rfl

theorem unblockClient_readyKeys (c : Nat) : (unblockClient c st).readyKeys = st.readyKeys := by
  rw [unblockClient]
  split <;> rfl

theorem Serving.heard (h : Serving key pending st) (hheard : Heard st st')
    (hnoEmpty : NoEmptyBut key st') (hlist : IsList (st'.keyspace key)) :
    Serving key pending st' := by
  refine ⟨h.waiters.same hheard.same, fun k hk => ?_, fun k hne hk hl => ?_, hnoEmpty, hlist⟩
  · rcases hheard.ready k hk with hk | hk
    · exact (h.ready k hk).imp_left fun hk => hheard.ready_subset hk
    · exact .inl hk
  · rcases hheard.list k hl with hl | hl | hl
    · exact hheard.readyKeys_subset (h.woken k hne (hheard.same.blocking ▸ hk) hl)
    · exact absurd (hheard.same.blocking ▸ hl) hk
    · exact hl

theorem Serving.put (h : Serving key pending st) (l : List Element) :
    Serving key pending (st.put key (some (.list l))) :=
  h.heard (heard_put (.inr h.isList)) (h.noEmpty.put _) (by simp [put_keyspace, IsList])

theorem Serving.unblockClient (h : Serving key pending st) (c : Nat) :
    Serving key pending (unblockClient c st) := by
  refine ⟨h.waiters.unblockClient c, ?_, fun k hne hk hl => ?_, ?_, ?_⟩
  · rw [unblockClient_readyKeys, unblockClient_ready]
    exact h.ready
  · rw [unblockClient_keyspace] at hl
    rw [unblockClient_readyKeys]
    refine h.woken k hne (fun hnil => hk ?_) hl
    rw [h.waiters.unblockClient_blocking, hnil]
    rfl
  · exact h.noEmpty.congr (unblockClient_keyspace c)
  · rw [unblockClient_keyspace]
    exact h.isList

/-- `serveClientBlockedOnList` of a client that was unblocked, and the pop that is undone. -/
theorem Serving.serve (h : Serving key pending st) (receiver : Nat) (dstkey : Option Key)
    (element : Element) :
    (∃ st', serveClientBlockedOnList receiver dstkey element st = some st' ∧
        Serving key pending st' ∧ Heard st st') ∨
      serveClientBlockedOnList receiver dstkey element st = none := by
  cases dstkey with
  | none => exact .inl ⟨_, rfl, h.heard heard_reply (h.noEmpty.congr rfl) h.isList, heard_reply⟩
  | some dst =>
    rw [serveClientBlockedOnList]
    split
    · exact .inr rfl
    · refine .inl ⟨_, rfl, ?_, heard_rpoplpushHandlePush⟩
      refine h.heard heard_rpoplpushHandlePush h.noEmpty.rpoplpushHandlePush ?_
      have hl := h.isList
      rw [rpoplpushHandlePush_keyspace]
      by_cases hdst : key = dst
      · subst hdst
        rw [if_pos rfl]
        cases hv : st.keyspace key with
        | none => trivial
        | some v =>
          cases v with
          | list l => trivial
          | other => simp [hv, IsList] at hl
      · rw [if_neg hdst]
        exact hl

/-- The first client that waits for the key is unblocked after the pop. -/
def popAndUnblock (key : Key) (receiver : Nat) (b : Bpop) (rest : List Element) (st : State) :
    State :=
  unblockClient receiver
    { st.put key (some (.list rest)) with
      services := ⟨receiver, key, b.since, (st.blocking key).map (since st)⟩ :: st.services }

/-- `serveFirst` serves the client, or undoes the pop. -/
theorem serveFirst_eq {receiver : Nat} {others : List Nat} {b : Bpop}
    (hblocking : st.blocking key = receiver :: others)
    (hb : (st.clients receiver).blocked = some b) (hl : st.keyspace key = some (.list l))
    (hpop : listTypePop b.head l = some (element, rest)) :
    serveFirst key st = some
      ((serveClientBlockedOnList receiver b.target element
          (popAndUnblock key receiver b rest st)).getD
        ((popAndUnblock key receiver b rest st).put key (some (.list l)))) := by
  have hsince : since st = fun c => ((st.clients c).blocked.map Bpop.since).getD 0 := rfl
  rw [serveFirst, popAndUnblock, hsince, hblocking]
  simp only [hb, hl, hpop]
  rw [listTypePop_eq hpop]
  generalize serveClientBlockedOnList receiver b.target element _ = served
  cases served <;> rfl

/-- The first client that waits for the key is unblocked, or there is no client or no
element. -/
theorem serveFirst_spec (h : Serving key pending st) :
    (serveFirst key st = none ∧ (st.blocking key = [] ∨ st.keyspace key = some (.list []))) ∨
      ∃ st', serveFirst key st = some st' ∧ Serving key pending st' ∧
        st'.blocking key = (st.blocking key).tail ∧
        st'.bpopBlockedClients + 1 = st.bpopBlockedClients := by
  rcases hblocking : st.blocking key with _ | ⟨receiver, others⟩
  · exact .inl ⟨by rw [serveFirst, hblocking], .inl rfl⟩
  obtain ⟨b, hb, hmem⟩ := (h.waiters.mem_blocking receiver key).mp
    (hblocking ▸ mem_cons_self)
  have hlist := h.isList
  rcases hl : st.keyspace key with _ | l | _
  · simp [hl, IsList] at hlist
  · rcases hpop : listTypePop b.head l with _ | ⟨element, rest⟩
    · refine .inl ⟨?_, .inr (by rw [listTypePop_eq_none hpop])⟩
      rw [serveFirst, hblocking]
      simp only [hb, hl, hpop]
    · have hput : Serving key pending
          { st.put key (some (.list rest)) with
            services := ⟨receiver, key, b.since, (st.blocking key).map (since st)⟩ ::
              st.services } := by
        have hserving := h.put rest
        exact ⟨hserving.waiters.same ⟨rfl, fun _ => rfl, rfl, rfl⟩, hserving.ready,
          hserving.woken, hserving.noEmpty, hserving.isList⟩
      have hpopped : Serving key pending (popAndUnblock key receiver b rest st) :=
        hput.unblockClient receiver
      have hblocking' : (popAndUnblock key receiver b rest st).blocking key = others := by
        rw [popAndUnblock, hput.waiters.unblockClient_blocking]
        show (st.blocking key).erase receiver = others
        rw [hblocking, erase_cons_head]
      have hcount : (popAndUnblock key receiver b rest st).bpopBlockedClients + 1 =
          st.bpopBlockedClients := hput.waiters.unblockClient_count hb
      refine .inr ⟨_, serveFirst_eq hblocking hb hl hpop, ?_⟩
      rcases hpopped.serve receiver b.target element with ⟨st', heq, hserved, hheard⟩ | heq
      · rw [heq, getD_some, hheard.same.blocking, hheard.same.bpopBlockedClients]
        exact ⟨hserved, hblocking', hcount⟩
      · rw [heq, getD_none]
        exact ⟨hpopped.put l, hblocking', hcount⟩
  · simp [hl, IsList] at hlist

/-- After the loop no client waits for the key, or no element is left. -/
theorem serveLoop_spec (n : Nat) (h : Serving key pending st) (hn : (st.blocking key).length ≤ n) :
    Serving key pending (serveLoop key n st) ∧
      ((serveLoop key n st).blocking key = [] ∨
        (serveLoop key n st).keyspace key = some (.list [])) ∧
      Progress st (serveLoop key n st) := by
  induction n generalizing st with
  | zero => exact ⟨h, .inl (length_eq_zero_iff.mp (Nat.le_zero.mp hn)), .refl st⟩
  | succ n ih =>
    rw [serveLoop]
    rcases serveFirst_spec h with ⟨heq, hend⟩ | ⟨st', heq, hserving, hblocking, hcount⟩
    · rw [heq]
      exact ⟨h, hend, .refl st⟩
    · rw [heq]
      obtain ⟨hserving', hend, hprogress⟩ := ih hserving (by
        rw [hblocking, length_tail]
        omega)
      have hle := hprogress.1
      have hlt : (serveLoop key n st').bpopBlockedClients < st.bpopBlockedClients := by omega
      exact ⟨hserving', hend, hlt.le, .inr hlt⟩

theorem Serving.finish (h : Serving key pending st)
    (hend : st.blocking key = [] ∨ st.keyspace key = some (.list [])) :
    Tended pending (deleteIfEmpty key st) ∧ Progress st (deleteIfEmpty key st) := by
  have hheard : Heard st (deleteIfEmpty key st) := heard_deleteIfEmpty
  have hprogress : Progress st (deleteIfEmpty key st) := by
    rw [deleteIfEmpty]
    split <;> exact .refl st
  refine ⟨⟨h.waiters.same hheard.same, fun k hk => ?_, fun k hk hl => ?_,
    h.noEmpty.deleteIfEmpty⟩, hprogress⟩
  · rcases hheard.ready k hk with hk | hk
    · exact (h.ready k hk).imp_left fun hk => hheard.ready_subset hk
    · exact .inl hk
  · rw [hheard.same.blocking] at hk
    by_cases hkey : k = key
    · subst hkey
      rcases hend with hend | hend
      · exact absurd hend hk
      · rw [deleteIfEmpty, hend] at hl
        simp [dbDelete, put_keyspace, IsList] at hl
    · rcases hheard.list k hl with hl | hl | hl
      · exact hheard.readyKeys_subset (h.woken k hkey hk hl)
      · exact absurd hl hk
      · exact hl

theorem Tended.readyKeys (h : Tended (key :: pending) st) :
    ∀ k ∈ st.readyKeys.filter (· ≠ key), k ∈ st.ready ∨ k ∈ pending := by
  intro k hk
  obtain ⟨hk, hne⟩ := mem_filter.mp hk
  rcases h.ready k hk with hk | hk
  · exact .inl hk
  · exact .inr ((mem_cons.mp hk).resolve_left (by simpa using hne))

theorem Tended.woken_filter (h : Tended pending st) :
    ∀ k ≠ key, st.blocking k ≠ [] → IsList (st.keyspace k) → k ∈ st.readyKeys.filter (· ≠ key) := by
  intro k hne hk hl
  exact mem_filter.mpr ⟨h.woken k hk hl, by simpa using hne⟩

theorem Tended.serving (h : Tended (key :: pending) st) (hl : IsList (st.keyspace key)) :
    Serving key pending { st with readyKeys := st.readyKeys.filter (· ≠ key) } :=
  ⟨h.waiters.same ⟨rfl, fun _ => rfl, rfl, rfl⟩, h.readyKeys, h.woken_filter, h.noEmpty.but key, hl⟩

theorem handleKey_spec (h : Tended (key :: pending) st) :
    Tended pending (handleKey st key) ∧ Progress st (handleKey st key) := by
  rw [handleKey]
  dsimp only
  split
  · rename_i l hl
    have hserving := h.serving (by rw [hl]; trivial)
    obtain ⟨hserved, hend, hprogress⟩ := serveLoop_spec _ hserving le_rfl
    obtain ⟨htended, hprogress'⟩ := hserved.finish hend
    have hstart : Progress st { st with readyKeys := st.readyKeys.filter (· ≠ key) } :=
      ⟨le_rfl, .inl rfl⟩
    exact ⟨htended, hstart.trans (hprogress.trans hprogress')⟩
  · rename_i hne
    have hwaiters : Waiters { st with readyKeys := st.readyKeys.filter (· ≠ key) } :=
      h.waiters.same ⟨rfl, fun _ => rfl, rfl, rfl⟩
    refine ⟨⟨hwaiters, h.readyKeys, fun k hk hl => ?_, h.noEmpty⟩, ⟨le_rfl, .inl rfl⟩⟩
    by_cases hkey : k = key
    · subst hkey
      cases hv : st.keyspace k with
      | none => simp [hv, IsList] at hl
      | some v =>
        cases v with
        | list l => exact absurd hv (hne l)
        | other => simp [hv, IsList] at hl
    · exact h.woken_filter k hkey hk hl

theorem handleKeys_spec (h : Tended keys st) :
    Tended [] (keys.foldl handleKey st) ∧ Progress st (keys.foldl handleKey st) := by
  induction keys generalizing st with
  | nil => exact ⟨h, .refl st⟩
  | cons key keys ih =>
    obtain ⟨hkey, hprogress⟩ := handleKey_spec h
    obtain ⟨hkeys, hprogress'⟩ := ih hkey
    exact ⟨hkeys, hprogress.trans hprogress'⟩

theorem Tended.round (h : Tended [] st) : Tended st.ready { st with ready := [] } :=
  ⟨h.waiters.same ⟨rfl, fun _ => rfl, rfl, rfl⟩,
    fun k hk => .inr ((h.ready k hk).resolve_right not_mem_nil), h.woken, h.noEmpty⟩

/-- Each round but the last unblocks a client. -/
theorem handleRound_spec (h : Tended [] st) : Tended [] (handleRound st) ∧
    ((handleRound st).ready = [] ∨
      (handleRound st).bpopBlockedClients < st.bpopBlockedClients) := by
  obtain ⟨htended, hprogress⟩ := handleKeys_spec h.round
  exact ⟨htended, hprogress.2⟩

theorem handleRounds_spec {fuel : Nat} (h : Tended [] st) (hfuel : st.bpopBlockedClients < fuel) :
    Tended [] (handleRounds fuel st) ∧ (handleRounds fuel st).ready = [] := by
  induction fuel generalizing st with
  | zero => omega
  | succ fuel ih =>
    rw [handleRounds]
    by_cases hready : st.ready = []
    · rw [if_pos hready]
      exact ⟨h, hready⟩
    · rw [if_neg hready]
      obtain ⟨htended, hnil | hlt⟩ := handleRound_spec h
      · cases fuel with
        | zero => exact ⟨htended, hnil⟩
        | succ fuel =>
          rw [handleRounds, if_pos hnil]
          exact ⟨htended, hnil⟩
      · exact ih htended (by omega)

/-- `handleClientsBlockedOnLists` ends, and no key is ready then. -/
theorem handleClientsBlockedOnLists_spec (h : Tended [] st) :
    Tended [] (handleClientsBlockedOnLists st) ∧ (handleClientsBlockedOnLists st).ready = [] :=
  handleRounds_spec h (Nat.lt_succ_self _)

/-! ## Runs -/

/-- A condition on the commands that are called, for what happens to the server. -/
def EventOk (ok : Nat → State → Command → Prop) (st : State) : Event → Prop
  | .request c req => RequestOk ok c st req
  | _ => True

/-- The states of the runs in which all commands that are called meet the condition. -/
inductive Reachable (ok : Nat → State → Command → Prop) : State → Prop
  | init : Reachable ok .init
  | step {st : State} {ev : Event} : Reachable ok st → EventOk ok st ev → Reachable ok (step st ev)

/-- No client is blocked for a key that holds a list with elements. -/
def AllServed (st : State) : Prop :=
  ∀ c b, (st.clients c).blocked = some b → ∀ k ∈ b.keys, ∀ e l,
    st.keyspace k ≠ some (.list (e :: l))

/-- Between commands. -/
structure Quiet (st : State) : Prop where
  tended : Tended [] st
  ready : st.ready = []

theorem Quiet.allServed (h : Quiet st) : AllServed st := by
  intro c b hb k hk e l hl
  have hmem := (h.tended.waiters.mem_blocking c k).mpr ⟨b, hb, hk⟩
  have hready := h.tended.woken k (ne_nil_of_mem hmem) (by rw [hl]; trivial)
  have := h.tended.ready k hready
  simp [h.ready] at this

theorem Quiet.unblockClient (h : Quiet st) (c : Nat) : Quiet (unblockClient c st) := by
  refine ⟨⟨h.tended.waiters.unblockClient c, ?_, fun k hk hl => ?_, ?_⟩, ?_⟩
  · rw [unblockClient_readyKeys, unblockClient_ready]
    exact h.tended.ready
  · rw [unblockClient_keyspace] at hl
    rw [unblockClient_readyKeys]
    refine h.tended.woken k (fun hnil => hk ?_) hl
    rw [h.tended.waiters.unblockClient_blocking, hnil]
    rfl
  · intro k
    rw [unblockClient_keyspace]
    exact h.tended.noEmpty k
  · rw [unblockClient_ready]
    exact h.ready

theorem Quiet.processCommand (h : Quiet st) (hc : (st.clients c).blocked = none)
    (hok : RequestOk StoreOk c st req) : Quiet (processCommand c req st) := by
  have hhandle (hcmd : ∀ cmd, req = .command cmd → (st.clients c).multi = none) :
      Quiet (handleClientsBlockedOnLists (callRequest c req st)) := by
    obtain ⟨htended, hready⟩ := handleClientsBlockedOnLists_spec (h.tended.callRequest hc hcmd hok)
    exact ⟨htended, hready⟩
  unfold Blocked.processCommand
  split
  · exact ⟨h.tended.setMulti c _, h.ready⟩
  · rename_i hmulti
    refine hhandle fun cmd hreq => ?_
    cases hm : (st.clients c).multi with
    | none => rfl
    | some cmds => exact (hmulti cmd cmds hreq hm).elim

theorem Quiet.step (h : Quiet st) {ev : Event} (hok : EventOk StoreOk st ev) : Quiet (step st ev) := by
  cases ev with
  | request c req =>
    rw [Blocked.step]
    split
    · exact h
    · rename_i hc
      exact h.processCommand (not_isSome_iff_eq_none.mp hc) hok
  | timeout c => exact h.unblockClient c
  | disconnect c =>
    have hun := h.unblockClient c
    have hsame : SameWaiters (Blocked.unblockClient c st)
        ((Blocked.unblockClient c st).modify c fun _ => .fresh) :=
      .modify (by rw [unblockClient_client, if_pos rfl]; rfl)
    exact ⟨⟨hun.tended.waiters.same hsame, hun.tended.ready, fun k hk hl =>
      hun.tended.woken k hk hl, hun.tended.noEmpty⟩, hun.ready⟩

theorem Reachable.quiet (h : Reachable StoreOk st) : Quiet st := by
  induction h with
  | init =>
    exact ⟨⟨waiters_init, by simp [State.init], by simp [Woken, State.init],
      by simp [NoEmpty, State.init]⟩, rfl⟩
  | step _ hok ih => exact ih.step hok

/-- No wake-up is lost unless `SORT ... STORE` overwrites a value under a key for which
clients wait. -/
theorem no_lost_wakeup (h : Reachable StoreOk st) : AllServed st := h.quiet.allServed

/-- `SORT` of the list of a key, as it is. -/
def sortKey (key : Key) (keyspace : Key → Option Value) : Option (List (List UInt8)) :=
  match keyspace key with
  | none => some []
  | some (.list l) => some (l.map Element.value)
  | some .other => none

/-- A client waits for `k`, and `SORT x STORE k` finds no `k` there. -/
theorem no_lost_wakeup_sort : AllServed (foldl step .init
    [.request 1 (.command (.bpop true [[107]])),
      .request 2 (.command (.push false [120] [[49]])),
      .request 2 (.command (.sortStore (sortKey (0, [120])) [107]))]) := by
  simp only [foldl]
  refine no_lost_wakeup (.step (.step (.step .init ?_) ?_) ?_)
  · exact fun _ => trivial
  · exact fun _ => trivial
  · exact fun _ _ _ _ => .inl rfl

/-- `SET k` while a client waits for `k`, and then `SORT x STORE k`. -/
theorem wakeup_lost : ¬ AllServed (foldl step .init
    [.request 1 (.command (.bpop true [[107]])),
      .request 2 (.command (.set [107])),
      .request 2 (.command (.push false [120] [[49]])),
      .request 2 (.command (.sortStore (sortKey (0, [120])) [107]))]) :=
  fun h => h 1 ⟨[(0, [107])], none, true, 0⟩ rfl (0, [107]) (mem_singleton_self _)
    ⟨1, [49]⟩ [] rfl

end Redis.Blocked
