import Redis.Blocked.Wakeup
import Redis.Tokens

/-!
# Redis.Blocked.Conserve

Pushes and pops, by blocked clients too, move elements between the lists and the clients, and
neither lose nor copy one.  Clients that wait for a key are served in the order in which they
blocked.

An element that `BRPOPLPUSH` or `RPOPLPUSH` moves is in the reply as well; it counts as
delivered with the reply of the command that takes it out of the lists.
-/

namespace Redis.Blocked

open List Option

variable {st st' st'' : State} {key : Key}
variable {head : Bool} {l rest : List Element} {e : Element} {c receiver : Nat} {dst : Key}
  {keys : List Key} {b : Bpop}

/-! ## Where the elements are -/

def listed : Option Value → List Element
  | some (.list l) => l
  | _ => []

/-- The numbers of elements. -/
def tags (l : List Element) : Multiset Nat := Multiset.ofList (l.map Element.tag)

/-- The elements that clients have got, without those that were moved. -/
def delivered (st : State) : List Element :=
  (st.replies.filter fun r => !r.moved).map Reply.element

/-- The places of the elements: the lists of the keys, and the clients; `held` is what a
command has popped and not handed out yet. -/
def places (held : Multiset Nat) (st : State) : Option Key → Multiset Nat
  | none => tags (delivered st) + held
  | some key => tags (listed (st.keyspace key))

/-- Each element is at one place. -/
def Census (held : Multiset Nat) (st : State) : Prop := Distributed (places held st) st.pushes

theorem tags_push (head : Bool) (e : Element) (l : List Element) :
    tags (listTypePush head e l) = tags l + {e.tag} := by
  cases head with
  | true => simp [listTypePush, tags, ← Multiset.cons_coe, Multiset.add_comm]
  | false => simp [listTypePush, tags, ← Multiset.coe_add]

theorem places_put (held : Multiset Nat) (value : Option Value) :
    places held (st.put key value) =
      Function.update (places held st) (some key) (tags (listed value)) := by
  funext p
  cases p with
  | none => rfl
  | some k =>
    by_cases hk : k = key
    · subst hk
      simp [places, put_keyspace]
    · simp [places, put_keyspace, hk]

theorem places_held (held : Multiset Nat) :
    places held st = Function.update (places 0 st) none (places 0 st none + held) := by
  funext p
  cases p with
  | none => simp [places]
  | some k => simp [places]

/-! ## What commands do to elements -/

/-- A part of a command that starts with `held` in its hands and ends with `held'`. -/
structure Carries (held held' : Multiset Nat) (st st' : State) : Prop where
  census : Census held st → Census held' st'
  services : st'.services = st.services

variable {held held' held'' : Multiset Nat}

theorem Carries.refl (held : Multiset Nat) (st : State) : Carries held held st st := ⟨id, rfl⟩

theorem Carries.trans (h : Carries held held' st st') (h' : Carries held' held'' st' st'') :
    Carries held held'' st st'' :=
  ⟨fun hc => h'.census (h.census hc), h'.services.trans h.services⟩

theorem Carries.foldl {α : Type} {f : State → α → State}
    (h : ∀ st a, Carries held held st (f st a)) (as : List α) (st : State) :
    Carries held held st (as.foldl f st) := by
  induction as generalizing st with
  | nil => exact .refl held st
  | cons a as ih => exact (h st a).trans (ih (f st a))

theorem Carries.same (hlist : ∀ k, listed (st'.keyspace k) = listed (st.keyspace k))
    (hreplies : st'.replies = st.replies) (hpushes : st'.pushes = st.pushes)
    (hservices : st'.services = st.services) : Carries held held st st' := by
  refine ⟨fun hc => ?_, hservices⟩
  have hplaces : places held st' = places held st := by
    funext p
    cases p with
    | none => rw [places, places, delivered, delivered, hreplies]
    | some k => rw [places, places, hlist]
  rw [Census, hplaces, hpushes]
  exact hc

/-- A value under a key is replaced by one with the same elements. -/
theorem carries_put {value : Option Value} (h : listed value = listed (st.keyspace key)) :
    Carries held held st (st.put key value) := by
  refine .same (fun k => ?_) rfl rfl rfl
  rw [put_keyspace]
  split
  · rename_i hk
    rw [h, hk]
  · rfl

theorem carries_signalListAsReady : Carries held held st (signalListAsReady key st) := by
  rw [signalListAsReady]
  split
  · exact .refl held st
  split
  · exact .refl held st
  · exact .same (fun _ => rfl) rfl rfl rfl

theorem carries_dbAdd {value : Value} (h : listed (some value) = listed (st.keyspace key)) :
    Carries held held st (dbAdd key value st) := by
  cases value with
  | other => exact carries_put h
  | list l => exact (carries_put h).trans carries_signalListAsReady

theorem carries_createList : Carries held held st (createList key st) := by
  rw [createList]
  split
  · rename_i hnone
    exact carries_dbAdd (by rw [hnone]; rfl)
  · exact .refl held st

theorem carries_deleteIfEmpty : Carries held held st (deleteIfEmpty key st) := by
  rw [deleteIfEmpty]
  split
  · rename_i hnil
    exact carries_put (by rw [hnil]; rfl)
  · exact .refl held st

theorem carries_unblockClient (c : Nat) : Carries held held st (unblockClient c st) := by
  rw [unblockClient]
  split
  · exact .refl held st
  · exact .same (fun _ => rfl) rfl rfl rfl

theorem Census.pop (h : Census 0 st) (hl : st.keyspace key = some (.list l))
    (hpop : listTypePop head l = some (e, rest)) :
    Census {e.tag} (st.put key (some (.list rest))) := by
  have hfrom : places 0 st (some key) = tags rest + {e.tag} := by
    rw [places, hl, listed, ← tags_push head, listTypePop_eq hpop]
  rw [Census, places_held, places_put]
  exact h.move (q := none) (some_ne_none key) hfrom

theorem carries_push (hl : st.keyspace key = some (.list l)) :
    Carries {e.tag} 0 st (st.put key (some (.list (listTypePush head e l)))) := by
  refine ⟨fun h => ?_, rfl⟩
  have hfrom : places {e.tag} st none = places 0 st none + {e.tag} := by simp [places]
  have hto : tags (listTypePush head e l) = places {e.tag} st (some key) + {e.tag} := by
    rw [tags_push, places, hl, listed]
  have hplaces : places 0 st = Function.update (places {e.tag} st) none (places 0 st none) := by
    rw [places_held {e.tag}, Function.update_idem, Function.update_eq_self]
  rw [Census, places_put, listed, hto, hplaces]
  exact h.move (some_ne_none key).symm hfrom

theorem carries_reply (c : Nat) (e : Element) : Carries {e.tag} 0 st (reply c e false st) := by
  refine ⟨fun h => ?_, rfl⟩
  have hplaces : places 0 (reply c e false st) = places {e.tag} st := by
    funext p
    cases p with
    | none => simp [places, reply, delivered, tags, ← Multiset.cons_coe, Multiset.add_comm]
    | some k => rfl
  rw [Census, hplaces]
  exact h

theorem carries_reply_moved (c : Nat) (e : Element) : Carries held held st (reply c e true st) := by
  refine ⟨fun h => ?_, rfl⟩
  have hplaces : places held (reply c e true st) = places held st := by
    funext p
    cases p <;> rfl
  rw [Census, hplaces]
  exact h

/-! ## Commands -/

theorem carries_pushValue {value : List UInt8} : Carries 0 0 st (pushValue head key value st) := by
  rw [pushValue]
  split
  · rename_i l hl
    refine ⟨fun h => ?_, rfl⟩
    have hto : tags (listTypePush head ⟨st.pushes, value⟩ l) =
        places 0 st (some key) + {st.pushes} := by
      rw [tags_push, places, hl, listed]
    have hplaces := @places_put st key 0
      (some (.list (listTypePush head ⟨st.pushes, value⟩ l)))
    rw [listed, hto] at hplaces
    show Distributed (places 0 (st.put key _)) (st.pushes + 1)
    rw [hplaces]
    exact h.add (some key)
  · exact .refl 0 st

theorem carries_pushGenericCommand {values : List (List UInt8)} :
    Carries 0 0 st (pushGenericCommand head key values st) := by
  rw [pushGenericCommand]
  split
  · exact .refl 0 st
  · exact .foldl (fun _ _ => carries_createList.trans carries_pushValue) values st

theorem popKey_cases (h : popKey head key st = some (e, st')) :
    ∃ l rest, st.keyspace key = some (.list l) ∧ listTypePop head l = some (e, rest) ∧
      st' = st.put key (some (.list rest)) := by
  rw [popKey] at h
  split at h
  · rename_i l hl
    obtain ⟨⟨x, rest⟩, hpop, heq⟩ := map_eq_some_iff.mp h
    obtain ⟨rfl, rfl⟩ := Prod.mk.inj heq
    exact ⟨l, rest, hl, hpop, rfl⟩
  · cases h

theorem carries_popKey (h : popKey head key st = some (e, st')) : Carries 0 {e.tag} st st' := by
  obtain ⟨l, rest, hl, hpop, rfl⟩ := popKey_cases h
  exact ⟨fun hc => hc.pop hl hpop, rfl⟩

theorem carries_popGenericCommand : Carries 0 0 st (popGenericCommand c head key st) := by
  rw [popGenericCommand]
  split
  · exact .refl 0 st
  · rename_i e st' hpop
    exact (carries_popKey hpop).trans ((carries_reply c e).trans carries_deleteIfEmpty)

theorem carries_rpoplpushHandlePush (hdst : st.keyspace dst ≠ some .other) :
    Carries {e.tag} 0 st (rpoplpushHandlePush c dst e st) := by
  have hlist : ∃ l, (createList dst st).keyspace dst = some (.list l) := by
    rw [createList_keyspace]
    cases hv : st.keyspace dst with
    | none => exact ⟨[], by simp⟩
    | some v =>
      cases v with
      | list l => exact ⟨l, by simp⟩
      | other => exact absurd hv hdst
  obtain ⟨l, hl⟩ := hlist
  have heq : rpoplpushHandlePush c dst e st =
      reply c e true ((createList dst st).put dst (some (.list (listTypePush true e l)))) := by
    rw [rpoplpushHandlePush, hl]
  rw [heq]
  exact carries_createList.trans ((carries_push hl).trans (carries_reply_moved c e))

theorem carries_rpoplpushCommand : Carries 0 0 st (rpoplpushCommand c key dst st) := by
  rw [rpoplpushCommand]
  split
  · exact .refl 0 st
  · rename_i hdst
    split
    · exact .refl 0 st
    · rename_i e st' hpop
      have hdst' : st'.keyspace dst ≠ some .other := by
        obtain ⟨l, rest, hl, -, rfl⟩ := popKey_cases hpop
        rw [put_keyspace]
        split
        · simp
        · exact fun h => hdst h
      exact (carries_popKey hpop).trans
        ((carries_rpoplpushHandlePush hdst').trans carries_deleteIfEmpty)

theorem carries_blockForKeys {target : Option Key} :
    Carries 0 0 st (blockForKeys c keys target head st) := .same (fun _ => rfl) rfl rfl rfl

theorem carries_blockingPopLoop (h : blockingPopLoop c head keys st = some st') :
    Carries 0 0 st st' := by
  induction keys with
  | nil => cases h
  | cons key keys ih =>
    rw [blockingPopLoop] at h
    split at h
    · exact ih h
    · obtain rfl := Option.some.inj h
      exact .refl 0 st
    · exact ih h
    · obtain rfl := Option.some.inj h
      exact carries_popGenericCommand

theorem carries_blockingPopGenericCommand :
    Carries 0 0 st (blockingPopGenericCommand c head keys st) := by
  rw [blockingPopGenericCommand]
  split
  · rename_i st' hloop
    exact carries_blockingPopLoop hloop
  split
  · exact .refl 0 st
  · exact carries_blockForKeys

theorem carries_brpoplpushCommand : Carries 0 0 st (brpoplpushCommand c key dst st) := by
  rw [brpoplpushCommand]
  split
  · split
    · exact .refl 0 st
    · exact carries_blockForKeys
  · exact .refl 0 st
  · exact carries_rpoplpushCommand

/-- Pushes and pops, and commands that change no list: `SET` only of a key that holds none. -/
def Transfers (c : Nat) (st : State) : Command → Prop
  | .push .. | .pushx .. | .pop .. | .rpoplpush .. | .bpop .. | .brpoplpush .. | .select _ => True
  | .set key => ¬ IsList (st.keyspace ((st.clients c).db, key))
  | .rename .. | .move .. | .del .. | .sortStore .. => False

theorem carries_call {cmd : Command} (h : Transfers c st cmd) : Carries 0 0 st (call c cmd st) := by
  cases cmd with
  | push => exact carries_pushGenericCommand
  | pushx => exact carries_pushValue
  | pop => exact carries_popGenericCommand
  | rpoplpush => exact carries_rpoplpushCommand
  | bpop => exact carries_blockingPopGenericCommand
  | brpoplpush => exact carries_brpoplpushCommand
  | select => exact .same (fun _ => rfl) rfl rfl rfl
  | set key =>
    rw [call, setKey]
    split
    · rename_i hnone
      exact carries_dbAdd (by rw [hnone]; rfl)
    · rename_i v hv
      refine carries_put ?_
      rw [hv]
      cases v with
      | list l => exact absurd (by rw [hv]; trivial) h
      | other => rfl
  | rename => exact h.elim
  | move => exact h.elim
  | del => exact h.elim
  | sortStore => exact h.elim

theorem carries_exec {cmds : List Command} (h : ExecOk Transfers c st cmds) :
    Carries 0 0 st (cmds.foldl (fun st cmd => call c cmd st) st) := by
  induction cmds generalizing st with
  | nil => exact .refl 0 st
  | cons cmd cmds ih => exact (carries_call h.1).trans (ih h.2)

theorem carries_modify {f : Client → Client} :
    Carries 0 0 st (st.modify c f) := .same (fun _ => rfl) rfl rfl rfl

theorem carries_callRequest {req : Request}
    (hcmd : ∀ cmd, req = .command cmd → (st.clients c).multi = none)
    (h : RequestOk Transfers c st req) : Carries 0 0 st (callRequest c req st) := by
  cases req with
  | command cmd => exact carries_call (h (hcmd cmd rfl))
  | multi =>
    rw [callRequest]
    split
    · exact .refl 0 st
    · exact carries_modify
  | exec dirty =>
    rw [callRequest, execCommand]
    split
    · exact .refl 0 st
    · rename_i cmds hcmds
      cases dirty with
      | true =>
        rw [if_pos rfl, discardTransaction]
        exact carries_modify
      | false =>
        rw [if_neg Bool.false_ne_true, discardTransaction]
        exact (carries_exec (h rfl cmds hcmds)).trans carries_modify
  | discard =>
    rw [callRequest]
    split
    · exact carries_modify
    · exact .refl 0 st

/-! ## Serving blocked clients -/

/-- The clients that were unblocked because a key was ready had waited for it longest. -/
def Fair (st : State) : Prop := ∀ s ∈ st.services, ∀ t ∈ s.waiting, s.since ≤ t

theorem serveFirst_cases (h : serveFirst key st = some st') :
    ∃ receiver others b l rest element, st.blocking key = receiver :: others ∧
      (st.clients receiver).blocked = some b ∧ st.keyspace key = some (.list l) ∧
      listTypePop b.head l = some (element, rest) ∧
      st' = (serveClientBlockedOnList receiver b.target element
          (popAndUnblock key receiver b rest st)).getD
        ((popAndUnblock key receiver b rest st).put key (some (.list l))) := by
  rcases hblocking : st.blocking key with _ | ⟨receiver, others⟩
  · simp [serveFirst, hblocking] at h
  rcases hb : (st.clients receiver).blocked with _ | b
  · simp [serveFirst, hblocking, hb] at h
  rcases hl : st.keyspace key with _ | l | _
  · simp [serveFirst, hblocking, hb, hl] at h
  · rcases hpop : listTypePop b.head l with _ | ⟨element, rest⟩
    · simp [serveFirst, hblocking, hb, hl, hpop] at h
    · rw [serveFirst_eq hblocking hb hl hpop] at h
      exact ⟨receiver, others, b, l, rest, element, rfl, hb, rfl, hpop, (Option.some.inj h).symm⟩
  · simp [serveFirst, hblocking, hb, hl] at h

theorem popAndUnblock_keyspace :
    (popAndUnblock key receiver b rest st).keyspace = (st.put key (some (.list rest))).keyspace :=
  unblockClient_keyspace receiver

theorem popAndUnblock_services :
    (popAndUnblock key receiver b rest st).services =
      ⟨receiver, key, b.since, (st.blocking key).map (since st)⟩ :: st.services := by
  have hcarries {st : State} : Carries 0 0 st (unblockClient receiver st) :=
    carries_unblockClient receiver
  exact hcarries.services

theorem Census.popAndUnblock (h : Census 0 st) (hl : st.keyspace key = some (.list l))
    (hpop : listTypePop b.head l = some (e, rest)) :
    Census {e.tag} (popAndUnblock key receiver b rest st) :=
  (carries_unblockClient receiver).census (h.pop hl hpop)

/-- The element goes to the client or to the target. -/
theorem carries_serve {dstkey : Option Key}
    (h : serveClientBlockedOnList receiver dstkey e st = some st') : Carries {e.tag} 0 st st' := by
  cases dstkey with
  | none =>
    obtain rfl := Option.some.inj h
    exact carries_reply receiver e
  | some dst =>
    rw [serveClientBlockedOnList] at h
    split at h
    · cases h
    · rename_i hdst
      obtain rfl := Option.some.inj h
      exact carries_rpoplpushHandlePush fun hother => hdst hother

/-- The pop that is undone. -/
theorem carries_undo (hpop : listTypePop head l = some (e, rest))
    (hl : st.keyspace key = some (.list rest)) :
    Carries {e.tag} 0 st (st.put key (some (.list l))) := by
  rw [← listTypePop_eq hpop]
  exact carries_push hl

theorem serveFirst_conserves (h : Census 0 st) (hserve : serveFirst key st = some st') :
    Census 0 st' := by
  obtain ⟨receiver, others, b, l, rest, e, -, -, hl, hpop, rfl⟩ := serveFirst_cases hserve
  have hpopped : Census {e.tag} (popAndUnblock key receiver b rest st) := h.popAndUnblock hl hpop
  rcases hclient : serveClientBlockedOnList receiver b.target e
    (popAndUnblock key receiver b rest st) with _ | st'
  · have hrest : (popAndUnblock key receiver b rest st).keyspace key = some (.list rest) := by
      rw [popAndUnblock_keyspace, put_keyspace, if_pos rfl]
    exact (carries_undo hpop hrest).census hpopped
  · exact (carries_serve hclient).census hpopped

/-- The client that is served has waited longest. -/
theorem serveFirst_fair (hwaiters : Waiters st) (h : Fair st)
    (hserve : serveFirst key st = some st') : Fair st' := by
  obtain ⟨receiver, others, b, l, rest, e, hblocking, hb, -, -, rfl⟩ := serveFirst_cases hserve
  have hpopped : Fair (popAndUnblock key receiver b rest st) := by
    intro s hs
    rw [popAndUnblock_services] at hs
    rcases mem_cons.mp hs with rfl | hs
    · have hself : since st receiver = b.since := by
        rw [since, hb]
        rfl
      have hsorted := hwaiters.sorted key
      rw [hblocking, pairwise_cons] at hsorted
      intro t ht
      obtain ⟨c, hc, rfl⟩ := mem_map.mp ht
      rw [← hself]
      rcases mem_cons.mp (hblocking ▸ hc) with rfl | hc
      · exact le_rfl
      · exact (hsorted.1 c hc).le
    · exact h s hs
  rcases hclient : serveClientBlockedOnList receiver b.target e
    (popAndUnblock key receiver b rest st) with _ | st'
  · exact hpopped
  · rw [getD_some, Fair, (carries_serve hclient).services]
    exact hpopped

/-- A target of the wrong type: nothing is popped, and the client is unblocked. -/
theorem serveFirst_wrong_type {others : List Nat}
    (hblocking : st.blocking key = receiver :: others)
    (hb : (st.clients receiver).blocked = some b) (htarget : b.target = some dst)
    (hdst : st.keyspace dst = some .other) (hserve : serveFirst key st = some st') :
    st'.keyspace = st.keyspace ∧ st'.replies = st.replies ∧
      (st'.clients receiver).blocked = none := by
  obtain ⟨receiver', others', b', l, rest, e, hblocking', hb', hl, hpop, rfl⟩ :=
    serveFirst_cases hserve
  obtain ⟨rfl, rfl⟩ := List.cons.inj (hblocking.symm.trans hblocking')
  obtain rfl := Option.some.inj (hb.symm.trans hb')
  have hne : dst ≠ key := by
    rintro rfl
    rw [hdst] at hl
    cases hl
  have hnone : serveClientBlockedOnList receiver b.target e
      (popAndUnblock key receiver b rest st) = none := by
    have hother : (popAndUnblock key receiver b rest st).keyspace dst = some .other := by
      rw [popAndUnblock_keyspace, put_keyspace, if_neg hne, hdst]
    rw [htarget, serveClientBlockedOnList]
    simp only [hother]
  rw [hnone, getD_none]
  refine ⟨?_, ?_, ?_⟩
  · funext k
    rw [put_keyspace, popAndUnblock_keyspace, put_keyspace]
    by_cases hk : k = key
    · rw [if_pos hk, hk, hl]
    · rw [if_neg hk, if_neg hk]
  · show (unblockClient receiver _).replies = st.replies
    rw [unblockClient]
    split <;> rfl
  · show ((unblockClient receiver _).clients receiver).blocked = none
    rw [unblockClient_client, if_pos rfl]

/-- What serving blocked clients keeps. -/
structure Kept (P : State → Prop) : Prop where
  frame : ∀ {st : State} (ready readyKeys : List Key), P st → P { st with ready, readyKeys }
  serveFirst : ∀ {key : Key} {pending : List Key} {st st' : State}, Serving key pending st →
    P st → serveFirst key st = some st' → P st'
  deleteIfEmpty : ∀ {key : Key} {st : State}, P st → P (deleteIfEmpty key st)

namespace Kept

variable {P : State → Prop}

theorem serveLoop (hP : Kept P) {pending : List Key} (n : Nat) (h : Serving key pending st)
    (hp : P st) : P (serveLoop key n st) := by
  induction n generalizing st with
  | zero => exact hp
  | succ n ih =>
    rw [Blocked.serveLoop]
    rcases serveFirst_spec h with ⟨heq, -⟩ | ⟨st', heq, hserving, -, -⟩
    · rw [heq]
      exact hp
    · rw [heq]
      exact ih hserving (hP.serveFirst h hp heq)

theorem handleKey (hP : Kept P) {pending : List Key} (h : Tended (key :: pending) st)
    (hp : P st) : P (handleKey st key) := by
  have hstart : P { st with readyKeys := st.readyKeys.filter (· ≠ key) } := hP.frame _ _ hp
  rw [Blocked.handleKey]
  dsimp only
  split
  · rename_i l hl
    exact hP.deleteIfEmpty (hP.serveLoop _ (h.serving (by rw [hl]; trivial)) hstart)
  · exact hstart

theorem handleKeys (hP : Kept P) (h : Tended keys st) (hp : P st) :
    P (keys.foldl Blocked.handleKey st) := by
  induction keys generalizing st with
  | nil => exact hp
  | cons key keys ih => exact ih (handleKey_spec h).1 (hP.handleKey h hp)

theorem handleRounds (hP : Kept P) (fuel : Nat) (h : Tended [] st) (hp : P st) :
    P (handleRounds fuel st) := by
  induction fuel generalizing st with
  | zero => exact hp
  | succ fuel ih =>
    rw [Blocked.handleRounds]
    split
    · exact hp
    · exact ih (handleRound_spec h).1 (hP.handleKeys h.round (hP.frame [] st.readyKeys hp))

end Kept

theorem kept_census : Kept (Census 0) :=
  ⟨fun _ _ h => h, fun _ h hserve => serveFirst_conserves h hserve,
    fun h => carries_deleteIfEmpty.census h⟩

theorem kept_fair : Kept Fair := by
  refine ⟨fun _ _ h => h, fun hserving h hserve => serveFirst_fair hserving.waiters h hserve,
    fun {key st} h => ?_⟩
  have hcarries : Carries 0 0 st (deleteIfEmpty key st) := carries_deleteIfEmpty
  rw [Fair, hcarries.services]
  exact h

/-! ## Runs -/

theorem Transfers.storeOk {cmd : Command} (h : Transfers c st cmd) : StoreOk c st cmd := by
  cases cmd with
  | sortStore => exact h.elim
  | _ => trivial

section Mono

variable {ok ok' : Nat → State → Command → Prop} (hmono : ∀ c st cmd, ok c st cmd → ok' c st cmd)

include hmono

theorem ExecOk.mono {cmds : List Command} (h : ExecOk ok c st cmds) : ExecOk ok' c st cmds := by
  induction cmds generalizing st with
  | nil => trivial
  | cons cmd cmds ih => exact ⟨hmono c st cmd h.1, ih h.2⟩

theorem EventOk.mono {ev : Event} (h : EventOk ok st ev) : EventOk ok' st ev := by
  cases ev with
  | request c req =>
    cases req with
    | command cmd => exact fun hmulti => hmono c st cmd (h hmulti)
    | exec dirty => exact fun hdirty cmds hcmds => ExecOk.mono hmono (h hdirty cmds hcmds)
    | multi => trivial
    | discard => trivial
  | timeout c => trivial
  | disconnect c => trivial

theorem Reachable.mono (h : Reachable ok st) : Reachable ok' st := by
  induction h with
  | init => exact .init
  | step _ hok ih => exact ih.step (EventOk.mono hmono hok)

end Mono

theorem Quiet.step_conserves (h : Quiet st) {ev : Event} (hok : EventOk Transfers st ev)
    (hcensus : Census 0 st) (hfair : Fair st) : Census 0 (Blocked.step st ev) ∧
      Fair (Blocked.step st ev) := by
  have carried {st'} (hcarries : Carries 0 0 st st') : Census 0 st' ∧ Fair st' :=
    ⟨hcarries.census hcensus, by rw [Fair, hcarries.services]; exact hfair⟩
  cases ev with
  | timeout c => exact carried (carries_unblockClient c)
  | disconnect c =>
    have hmodify : Carries 0 0 (Blocked.unblockClient c st)
        ((Blocked.unblockClient c st).modify c fun _ => .fresh) := carries_modify
    exact carried ((carries_unblockClient c).trans hmodify)
  | request c req =>
    rw [Blocked.step]
    split
    · exact ⟨hcensus, hfair⟩
    rename_i hc
    have hc : (st.clients c).blocked = none := not_isSome_iff_eq_none.mp hc
    have hhandle (hcmd : ∀ cmd, req = .command cmd → (st.clients c).multi = none) :
        Census 0 (handleClientsBlockedOnLists (callRequest c req st)) ∧
          Fair (handleClientsBlockedOnLists (callRequest c req st)) := by
      have htended := h.tended.callRequest hc hcmd
        (EventOk.mono (fun _ _ _ => Transfers.storeOk) hok)
      obtain ⟨hcensus', hfair'⟩ := carried (carries_callRequest hcmd hok)
      exact ⟨kept_census.handleRounds _ htended hcensus', kept_fair.handleRounds _ htended hfair'⟩
    unfold Blocked.processCommand
    split
    · exact carried carries_modify
    · rename_i hmulti
      refine hhandle fun cmd hreq => ?_
      cases hm : (st.clients c).multi with
      | none => rfl
      | some cmds => exact (hmulti cmd cmds hreq hm).elim

theorem census_init : Census 0 .init := by
  have hplaces : places 0 .init = fun _ => 0 := by
    funext p
    cases p <;> rfl
  rw [Census, hplaces]
  exact .empty

theorem Reachable.quiet_of_transfers (h : Reachable Transfers st) : Quiet st :=
  (h.mono fun _ _ _ => Transfers.storeOk).quiet

theorem Reachable.conserves (h : Reachable Transfers st) : Census 0 st ∧ Fair st := by
  induction h with
  | init => exact ⟨census_init, fun s hs => absurd hs not_mem_nil⟩
  | step hrun hok ih => exact hrun.quiet_of_transfers.step_conserves hok ih.1 ih.2

/-- A target of the wrong type, when there is an element already. -/
theorem call_brpoplpush_wrong_type {key dst : List UInt8}
    (hdst : st.keyspace ((st.clients c).db, dst) = some .other) :
    (call c (.brpoplpush key dst) st).keyspace = st.keyspace ∧
      (call c (.brpoplpush key dst) st).replies = st.replies := by
  rw [call, brpoplpushCommand]
  split
  · split <;> exact ⟨rfl, rfl⟩
  · exact ⟨rfl, rfl⟩
  · rw [rpoplpushCommand, hdst]
    exact ⟨rfl, rfl⟩

/-- In runs of pushes, pops, transactions, timeouts and disconnections each element is in one
list or delivered once, clients are served in the order in which they blocked, a client is in
the list of a key only while it is blocked for the key, and a target of the wrong type leaves
the lists as they are. -/
theorem elements_conserved (h : Reachable Transfers st) :
    (∀ t < st.pushes, ∃ p, ∀ q, (places 0 st q).count t = if q = p then 1 else 0) ∧
      (∀ s ∈ st.services, ∀ t ∈ s.waiting, s.since ≤ t) ∧
      (∀ c k, c ∈ st.blocking k ↔ ∃ b, (st.clients c).blocked = some b ∧ k ∈ b.keys) ∧
      (∀ c key dst, st.keyspace ((st.clients c).db, dst) = some .other →
        (call c (.brpoplpush key dst) st).keyspace = st.keyspace ∧
          (call c (.brpoplpush key dst) st).replies = st.replies) ∧
      ∀ (st₁ st₂ : State) (key : Key) (receiver : Nat) (others : List Nat) (b : Bpop) (dst : Key),
        st₁.blocking key = receiver :: others → (st₁.clients receiver).blocked = some b →
          b.target = some dst → st₁.keyspace dst = some .other → serveFirst key st₁ = some st₂ →
            st₂.keyspace = st₁.keyspace ∧ st₂.replies = st₁.replies ∧
              (st₂.clients receiver).blocked = none :=
  ⟨h.conserves.1.once, h.conserves.2, h.quiet_of_transfers.tended.waiters.mem_blocking,
    fun _ _ _ hdst => call_brpoplpush_wrong_type hdst,
    fun _ _ _ _ _ _ _ hblocking hb htarget hdst hserve =>
      serveFirst_wrong_type hblocking hb htarget hdst hserve⟩

/-- `BRPOPLPUSH a b`, `LPUSH a x` and `LPOP b`. -/
def movedRun : State := foldl step .init
  [.request 1 (.command (.brpoplpush [97] [98])), .request 2 (.command (.push true [97] [[120]])),
    .request 2 (.command (.pop true [98]))]

theorem reachable_movedRun : Reachable Transfers movedRun := by
  simp only [movedRun, foldl]
  exact .step (.step (.step .init fun _ => trivial) fun _ => trivial) fun _ => trivial

theorem elements_conserved_moved :
    ∃ p, ∀ q, (places 0 movedRun q).count 0 = if q = p then 1 else 0 :=
  (elements_conserved reachable_movedRun).1 0 (by decide)

/-- The element is in no list, and in the replies of `BRPOPLPUSH` and `LPOP`. -/
theorem moved_element_in_two_replies : ∃ st, Reachable Transfers st ∧ ∃ t < st.pushes,
    ¬ ((∃ k, (places 0 st (some k)).count t = 1) ∨
      st.replies.countP (fun r => r.element.tag == t) = 1) := by
  refine ⟨movedRun, reachable_movedRun, 0, by decide, ?_⟩
  rintro (⟨k, hk⟩ | hreplies)
  · have hdelivered : 0 ∈ places 0 movedRun none := by decide
    rw [reachable_movedRun.conserves.1.count_eq_zero (some_ne_none k) hdelivered] at hk
    cases hk
  · exact absurd hreplies (by decide)

end Redis.Blocked
