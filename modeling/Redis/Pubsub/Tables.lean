import Redis.Owned
import Redis.Pubsub

/-!
# Redis.Pubsub.Tables

The two tables of the server and those of the clients are the same relations after
every event, so that no removal fails and no closed client is left in a table.
-/

set_option linter.unusedSectionVars false

namespace Redis.Pubsub

open List Option
open Function (update)

variable {C : Type} [DecidableEq C] {s s' : RedisServer C} {c : C} {cl : RedisClient}

/-! ## The relations -/

/-- The channels of a client, of which a closed one has none. -/
def RedisServer.channels (s : RedisServer C) (c : C) : List Bytes :=
  (s.client c).elim [] RedisClient.pubsubChannels

/-- The patterns of a client. -/
def RedisServer.patterns (s : RedisServer C) (c : C) : List Bytes :=
  (s.client c).elim [] RedisClient.pubsubPatterns

/-- Both sides of each relation agree, and the clients are the open ones. -/
structure PubsubInv (s : RedisServer C) : Prop where
  sides : TwoSided s.pubsubChannels s.channels
  owned : ownedBy s.pubsubPatterns = s.patterns
  distinct : ∀ c, (s.patterns c).Nodup
  nodup : s.clients.Nodup
  connected : ∀ c, c ∈ s.clients ↔ (s.client c).isSome

theorem channels_of_some (h : s.client c = some cl) : s.channels c = cl.pubsubChannels := by
  rw [RedisServer.channels, h, elim_some]

theorem patterns_of_some (h : s.client c = some cl) : s.patterns c = cl.pubsubPatterns := by
  rw [RedisServer.patterns, h, elim_some]

/-- A call has kept the invariant, and left a client with these channels and patterns. -/
structure Moved (s s' : RedisServer C) (c : C) (channels patterns : List Bytes) : Prop where
  inv : PubsubInv s'
  channels : s'.channels = update s.channels c channels
  patterns : s'.patterns = update s.patterns c patterns
  clients : s'.clients = s.clients
  isSome : ∀ x, (s'.client x).isSome = (s.client x).isSome

theorem Moved.refl (h : PubsubInv s) : Moved s s c (s.channels c) (s.patterns c) :=
  ⟨h, (Function.update_eq_self ..).symm, (Function.update_eq_self ..).symm, rfl, fun _ => rfl⟩

variable {channels patterns : List Bytes → Bytes → List Bytes}
  {f : RedisServer C → C → Bytes → Option (RedisServer C × Int)} {l l' p p' : List Bytes}

variable {channel pattern : Bytes} {s₁ : RedisServer C}

theorem Moved.trans (h : Moved s s₁ c l p) (h' : Moved s₁ s' c l' p') : Moved s s' c l' p' :=
  ⟨h'.inv, by rw [h'.channels, h.channels, Function.update_idem],
    by rw [h'.patterns, h.patterns, Function.update_idem], h'.clients.trans h.clients,
    fun x => (h'.isSome x).trans (h.isSome x)⟩

/-- A call that changes no table comes last. -/
theorem Moved.then (h : Moved s s₁ c l p) (h' : Moved s₁ s' c (s₁.channels c) (s₁.patterns c)) :
    Moved s s' c l p := by
  rw [h.channels, h.patterns, Function.update_self, Function.update_self] at h'
  exact h.trans h'

theorem Moved.open (h : Moved s s' c l p) (hc : (s.client c).isSome) :
    ∃ cl, s'.client c = some cl :=
  isSome_iff_exists.mp ((h.isSome c).trans hc)

/-- One client is another one now, and the tables follow. -/
theorem Moved.of (h : PubsubInv s) (hc : (s.client c).isSome) (cl : RedisClient)
    (hclient : s'.client = update s.client c (some cl)) (hclients : s'.clients = s.clients)
    (hsides : TwoSided s'.pubsubChannels (update s.channels c cl.pubsubChannels))
    (howned : ownedBy s'.pubsubPatterns = update s.patterns c cl.pubsubPatterns)
    (hdistinct : cl.pubsubPatterns.Nodup) :
    Moved s s' c cl.pubsubChannels cl.pubsubPatterns := by
  have hchannels : s'.channels = update s.channels c cl.pubsubChannels := by
    funext x
    rw [RedisServer.channels, hclient, Function.update_apply, Function.update_apply]
    split <;> rfl
  have hpatterns : s'.patterns = update s.patterns c cl.pubsubPatterns := by
    funext x
    rw [RedisServer.patterns, hclient, Function.update_apply, Function.update_apply]
    split <;> rfl
  have hsome : ∀ x, (s'.client x).isSome = (s.client x).isSome := by
    intro x
    rw [hclient, Function.update_apply]
    split
    next heq => rw [heq, hc, isSome_some]
    next => rfl
  refine ⟨⟨hchannels ▸ hsides, howned.trans hpatterns.symm, fun x => ?_, ?_, fun x => ?_⟩,
    hchannels, hpatterns, hclients, hsome⟩
  · rw [hpatterns, Function.update_apply]
    split
    · exact hdistinct
    · exact h.distinct x
  · rw [hclients]
    exact h.nodup
  · rw [hclients, hsome]
    exact h.connected x

theorem Moved.setClient (h : PubsubInv s) (hc : s.client c = some cl) (cl' : RedisClient)
    (hchannels : cl'.pubsubChannels = cl.pubsubChannels)
    (hpatterns : cl'.pubsubPatterns = cl.pubsubPatterns) :
    Moved s (s.setClient c cl') c (s.channels c) (s.patterns c) := by
  rw [channels_of_some hc, patterns_of_some hc, ← hchannels, ← hpatterns]
  refine Moved.of h (hc ▸ rfl) cl' rfl rfl ?_ ?_ ?_
  · rw [hchannels, ← channels_of_some hc, Function.update_eq_self]
    exact h.sides
  · rw [hpatterns, ← patterns_of_some hc, Function.update_eq_self]
    exact h.owned
  · rw [hpatterns, ← patterns_of_some hc]
    exact h.distinct c

theorem addReply_eq (hc : s.client c = some cl) (rs : List Reply) :
    addReply s c rs = some (s.setClient c { cl with reply := cl.reply ++ rs }) := by
  rw [addReply, hc]
  rfl

theorem addReply_spec (h : PubsubInv s) (hc : (s.client c).isSome) (rs : List Reply) :
    ∃ s', addReply s c rs = some s' ∧ Moved s s' c (s.channels c) (s.patterns c) := by
  obtain ⟨cl, hcl⟩ := isSome_iff_exists.mp hc
  exact ⟨_, addReply_eq hcl rs, Moved.setClient h hcl _ rfl rfl⟩

theorem addReply_if_spec (h : PubsubInv s) (hc : (s.client c).isSome) (p : Prop) [Decidable p]
    (rs : List Reply) :
    ∃ s', (if p then addReply s c rs else some s) = some s' ∧ Moved s s' c (s.channels c) (s.patterns c) := by
  split
  · exact addReply_spec h hc rs
  · exact ⟨s, rfl, Moved.refl h⟩

/-! ## Changes of the tables -/

theorem notice_spec (h : PubsubInv s) (hc : (s.client c).isSome) (tell : Bool) (bulk : Reply)
    (count : RedisClient → Int) (name : Bytes) :
    ∃ s', notice tell bulk count s c name = some s' ∧ Moved s s' c (s.channels c) (s.patterns c) := by
  obtain ⟨cl, hcl⟩ := isSome_iff_exists.mp hc
  rw [notice, hcl]
  exact addReply_if_spec h hc (tell = true) _

theorem addChannel_spec (h : PubsubInv s) (hc : s.client c = some cl)
    (hnot : channel ∉ cl.pubsubChannels) :
    Moved s (addChannel s c cl channel) c (cl.pubsubChannels ++ [channel]) cl.pubsubPatterns := by
  refine Moved.of h (hc ▸ rfl) { cl with pubsubChannels := cl.pubsubChannels ++ [channel] } rfl rfl
    ?_ ?_ ?_
  · have hjoin := h.sides.join (b := c) (channels_of_some hc ▸ hnot)
    rw [channels_of_some hc] at hjoin
    exact hjoin
  · rw [← patterns_of_some hc, Function.update_eq_self]
    exact h.owned
  · rw [← patterns_of_some hc]
    exact h.distinct c

theorem dropChannel_spec (h : PubsubInv s) (hc : s.client c = some cl)
    (hmem : channel ∈ cl.pubsubChannels) :
    ∃ s', dropChannel s c cl channel = some s' ∧
      Moved s s' c (cl.pubsubChannels.erase channel) cl.pubsubPatterns := by
  rw [← channels_of_some hc] at hmem
  obtain ⟨clients, hclients, hin⟩ := (h.sides.agree channel c).mpr hmem
  refine ⟨{ s.setClient c { cl with pubsubChannels := cl.pubsubChannels.erase channel } with
      pubsubChannels := update s.pubsubChannels channel (dropMember clients c) }, ?_, ?_⟩
  · rw [dropChannel, hclients, some_bind, if_pos hin, Option.pure_def]
  · refine Moved.of h (hc ▸ rfl) { cl with pubsubChannels := cl.pubsubChannels.erase channel } rfl rfl
      ?_ ?_ ?_
    · have hleave := h.sides.leave (b := c) hclients
      rw [channels_of_some hc] at hleave
      convert hleave using 3
      exact lawful_beq_subsingleton _ _
    · rw [← patterns_of_some hc, Function.update_eq_self]
      exact h.owned
    · rw [← patterns_of_some hc]
      exact h.distinct c

theorem addPattern_spec (h : PubsubInv s) (hc : s.client c = some cl)
    (hnot : pattern ∉ cl.pubsubPatterns) :
    Moved s (addPattern s c cl pattern) c cl.pubsubChannels (cl.pubsubPatterns ++ [pattern]) := by
  refine Moved.of h (hc ▸ rfl) { cl with pubsubPatterns := cl.pubsubPatterns ++ [pattern] } rfl rfl
    ?_ ?_ ?_
  · rw [← channels_of_some hc, Function.update_eq_self]
    exact h.sides
  · rw [addPattern, ownedBy_add, h.owned, patterns_of_some hc]
  · have hdistinct := h.distinct c
    rw [patterns_of_some hc] at hdistinct
    exact nodup_append.mpr ⟨hdistinct, by simp, by grind⟩

theorem dropPattern_spec (h : PubsubInv s) (hc : s.client c = some cl)
    (hmem : pattern ∈ cl.pubsubPatterns) :
    ∃ s', dropPattern s c cl pattern = some s' ∧
      Moved s s' c cl.pubsubChannels (cl.pubsubPatterns.erase pattern) := by
  have hin : (c, pattern) ∈ s.pubsubPatterns := by
    rw [← mem_ownedBy, h.owned, patterns_of_some hc]
    exact hmem
  refine ⟨{ s.setClient c { cl with pubsubPatterns := cl.pubsubPatterns.erase pattern } with
      pubsubPatterns := s.pubsubPatterns.erase (c, pattern) }, ?_, ?_⟩
  · rw [dropPattern, if_pos hin]
  · refine Moved.of h (hc ▸ rfl) { cl with pubsubPatterns := cl.pubsubPatterns.erase pattern } rfl rfl
      ?_ ?_ ?_
    · rw [← channels_of_some hc, Function.update_eq_self]
      exact h.sides
    · dsimp only
      rw [ownedBy_erase, h.owned, patterns_of_some hc]
    · have hdistinct := h.distinct c
      rw [patterns_of_some hc] at hdistinct
      exact hdistinct.erase pattern

/-! ## Functions of one name -/

/-- What a function does with one name: it returns, and the channels and the patterns of its client
have changed in this way. -/
def Acts (f : RedisServer C → C → Bytes → Option (RedisServer C × Int))
    (channels patterns : List Bytes → Bytes → List Bytes) : Prop :=
  ∀ (s : RedisServer C) (c : C), PubsubInv s → (s.client c).isSome → ∀ name,
    ∃ s' r, f s c name = some (s', r) ∧
      Moved s s' c (channels (s.channels c) name) (patterns (s.patterns c) name)

/-- Such a function changes the tables, and then may send a message about the name. -/
theorem acts_of_change
    (change : RedisServer C → C → RedisClient → Bytes → Option (RedisServer C × Int))
    (tell : Bool) (bulk : Reply) (count : RedisClient → Int)
    (hf : ∀ {s : RedisServer C} {c : C} {cl : RedisClient} (name : Bytes),
      s.client c = some cl → f s c name = (change s c cl name).bind fun r =>
        (notice tell bulk count r.1 c name).bind fun s' => some (s', r.2))
    (hchange : ∀ {s : RedisServer C} {c : C} {cl : RedisClient} (name : Bytes),
      PubsubInv s → s.client c = some cl → ∃ s' r, change s c cl name = some (s', r) ∧
        Moved s s' c (channels cl.pubsubChannels name) (patterns cl.pubsubPatterns name)) :
    Acts f channels patterns := by
  intro s c h hc name
  obtain ⟨cl, hcl⟩ := isSome_iff_exists.mp hc
  obtain ⟨s₁, r, hs₁, hmoved⟩ := hchange name h hcl
  obtain ⟨s₂, hnotice, hrest⟩ :=
    notice_spec hmoved.inv ((hmoved.isSome c).trans hc) tell bulk count name
  refine ⟨s₂, r, ?_, ?_⟩
  · rw [hf name hcl, hs₁, bind_some, hnotice, bind_some]
  · rw [channels_of_some hcl, patterns_of_some hcl]
    exact hmoved.then hrest

theorem Moved.same (h : PubsubInv s) (hc : s.client c = some cl) :
    Moved s s c cl.pubsubChannels cl.pubsubPatterns := by
  rw [← channels_of_some hc, ← patterns_of_some hc]
  exact Moved.refl h

theorem pubsubSubscribeChannel_acts :
    Acts (C := C) pubsubSubscribeChannel (fun l name => if name ∈ l then l else l ++ [name])
      (fun l _ => l) := by
  refine acts_of_change (fun s c cl name =>
      some (if name ∈ cl.pubsubChannels then (s, 0) else (addChannel s c cl name, 1)))
    true .subscribebulk clientSubscriptionsCount ?_ ?_
  · intro s c cl channel hc
    simp only [pubsubSubscribeChannel, hc, bind_eq_bind, bind_some, Option.pure_def]
  · intro s c cl channel h hc
    split
    next => exact ⟨s, 0, rfl, Moved.same h hc⟩
    next hnot => exact ⟨_, 1, rfl, addChannel_spec h hc hnot⟩

theorem pubsubUnsubscribeChannel_acts (tell : Bool) :
    Acts (C := C) (pubsubUnsubscribeChannel tell) List.erase (fun l _ => l) := by
  refine acts_of_change (fun s c cl name =>
      if name ∈ cl.pubsubChannels then (dropChannel s c cl name).map (·, 1) else some (s, 0))
    tell .unsubscribebulk (·.subscriptions) ?_ ?_
  · intro s c cl channel hc
    simp only [pubsubUnsubscribeChannel, hc, bind_eq_bind, bind_some, Option.pure_def]
  · intro s c cl channel h hc
    split
    next hmem =>
      obtain ⟨s₁, hs₁, hmoved⟩ := dropChannel_spec h hc hmem
      exact ⟨s₁, 1, by rw [hs₁, map_some], hmoved⟩
    next hnot =>
      rw [erase_of_not_mem hnot]
      exact ⟨s, 0, rfl, Moved.same h hc⟩

theorem pubsubSubscribePattern_acts :
    Acts (C := C) pubsubSubscribePattern (fun l _ => l)
      (fun l name => if name ∈ l then l else l ++ [name]) := by
  refine acts_of_change (fun s c cl name =>
      some (if name ∈ cl.pubsubPatterns then (s, 0) else (addPattern s c cl name, 1)))
    true .psubscribebulk clientSubscriptionsCount ?_ ?_
  · intro s c cl pattern hc
    simp only [pubsubSubscribePattern, hc, bind_eq_bind, bind_some, Option.pure_def]
  · intro s c cl pattern h hc
    split
    next => exact ⟨s, 0, rfl, Moved.same h hc⟩
    next hnot => exact ⟨_, 1, rfl, addPattern_spec h hc hnot⟩

theorem pubsubUnsubscribePattern_acts (tell : Bool) :
    Acts (C := C) (pubsubUnsubscribePattern tell) (fun l _ => l) List.erase := by
  refine acts_of_change (fun s c cl name =>
      if name ∈ cl.pubsubPatterns then (dropPattern s c cl name).map (·, 1) else some (s, 0))
    tell .punsubscribebulk (·.subscriptions) ?_ ?_
  · intro s c cl pattern hc
    simp only [pubsubUnsubscribePattern, hc, bind_eq_bind, bind_some, Option.pure_def]
  · intro s c cl pattern h hc
    split
    next hmem =>
      obtain ⟨s₁, hs₁, hmoved⟩ := dropPattern_spec h hc hmem
      exact ⟨s₁, 1, by rw [hs₁, map_some], hmoved⟩
    next hnot =>
      rw [erase_of_not_mem hnot]
      exact ⟨s, 0, rfl, Moved.same h hc⟩

/-! ## Loops over names -/

theorem Acts.each (hf : Acts f channels patterns) (h : PubsubInv s) (hc : (s.client c).isSome)
    (names : List Bytes) :
    ∃ s', eachName f s c names = some s' ∧
      Moved s s' c (names.foldl channels (s.channels c)) (names.foldl patterns (s.patterns c)) := by
  induction names generalizing s with
  | nil => exact ⟨s, rfl, Moved.refl h⟩
  | cons name names ih =>
    obtain ⟨s₁, r, hs₁, hmoved⟩ := hf s c h hc name
    obtain ⟨s₂, hs₂, hrest⟩ := ih hmoved.inv ((hmoved.isSome c).trans hc)
    refine ⟨s₂, ?_, ?_⟩
    · rw [eachName] at hs₂ ⊢
      rw [foldlM_cons, hs₁]
      exact hs₂
    · rw [hmoved.channels, hmoved.patterns, Function.update_self, Function.update_self] at hrest
      exact hmoved.trans hrest

/-- The loop over all names, of which the last message tells that there were none. -/
theorem unsubscribeAll_spec (hf : Acts f channels patterns) (h : PubsubInv s)
    (hc : (s.client c).isSome) (bulk : Reply) (tell : Bool) (names : List Bytes) :
    ∃ s' r, unsubscribeAll f bulk tell s c names = some (s', r) ∧
      Moved s s' c (names.foldl channels (s.channels c)) (names.foldl patterns (s.patterns c)) := by
  have hloop : ∀ count : Int, ∃ s' r,
      names.foldlM (fun (r : RedisServer C × Int) name => do
        let acted ← f r.1 c name
        return (acted.1, toInt (r.2 + acted.2))) (s, count) = some (s', r) ∧
      Moved s s' c (names.foldl channels (s.channels c)) (names.foldl patterns (s.patterns c)) := by
    induction names generalizing s with
    | nil =>
      intro count
      exact ⟨s, count, rfl, Moved.refl h⟩
    | cons name names ih =>
      intro count
      obtain ⟨s₁, r, hs₁, hmoved⟩ := hf s c h hc name
      obtain ⟨s₂, r₂, hs₂, hrest⟩ := ih hmoved.inv ((hmoved.isSome c).trans hc) (toInt (count + r))
      refine ⟨s₂, r₂, ?_, ?_⟩
      · rw [foldlM_cons, hs₁]
        exact hs₂
      · rw [hmoved.channels, hmoved.patterns, Function.update_self, Function.update_self] at hrest
        exact hmoved.trans hrest
  obtain ⟨s₁, r, hs₁, hmoved⟩ := hloop 0
  obtain ⟨cl, hcl⟩ := hmoved.open hc
  obtain ⟨s₂, hreply, hrest⟩ := addReply_if_spec hmoved.inv ((hmoved.isSome c).trans hc)
    (tell = true ∧ r = 0) [.mbulkhdr 3, bulk, .nullbulk, .longLong cl.subscriptions]
  refine ⟨s₂, r, ?_, hmoved.then hrest⟩
  simp only [unsubscribeAll, bind_eq_bind]
  simp only [bind_eq_bind] at hs₁
  rw [hs₁]
  simp only [bind_some, hcl, hreply, Option.pure_def]

theorem foldl_erase_perm {names l : List Bytes} (h : names.Perm l) :
    names.foldl List.erase l = [] := by
  induction names generalizing l with
  | nil => exact h.symm.eq_nil
  | cons name names ih =>
    have herase := h.erase name
    rw [erase_cons_head] at herase
    exact ih herase

theorem pubsubUnsubscribeAllChannels_spec (h : PubsubInv s) (hc : (s.client c).isSome)
    (tell : Bool) (walk : Walk) :
    ∃ s' r, pubsubUnsubscribeAllChannels tell walk s c = some (s', r) ∧
      Moved s s' c [] (s.patterns c) := by
  obtain ⟨cl, hcl⟩ := isSome_iff_exists.mp hc
  obtain ⟨s₁, r, hs₁, hmoved⟩ := unsubscribeAll_spec (pubsubUnsubscribeChannel_acts tell) h hc
    .unsubscribebulk tell (walk.order cl.pubsubChannels)
  rw [channels_of_some hcl, foldl_erase_perm (walk.perm _), foldl_fixed] at hmoved
  refine ⟨s₁, r, ?_, hmoved⟩
  rw [pubsubUnsubscribeAllChannels, hcl]
  exact hs₁

theorem pubsubUnsubscribeAllPatterns_spec (h : PubsubInv s) (hc : (s.client c).isSome)
    (tell : Bool) :
    ∃ s' r, pubsubUnsubscribeAllPatterns tell s c = some (s', r) ∧
      Moved s s' c (s.channels c) [] := by
  obtain ⟨cl, hcl⟩ := isSome_iff_exists.mp hc
  obtain ⟨s₁, r, hs₁, hmoved⟩ := unsubscribeAll_spec (pubsubUnsubscribePattern_acts tell) h hc
    .punsubscribebulk tell cl.pubsubPatterns
  rw [patterns_of_some hcl, foldl_erase_perm (List.Perm.refl _), foldl_fixed] at hmoved
  refine ⟨s₁, r, ?_, hmoved⟩
  rw [pubsubUnsubscribeAllPatterns, hcl]
  exact hs₁

/-! ## Commands and connections -/

/-- A command returns, and keeps the invariant. -/
def Keeps (r : Option (RedisServer C)) : Prop :=
  ∃ s', r = some s' ∧ PubsubInv s'

theorem markPubsub_keeps (h : PubsubInv s) (hc : (s.client c).isSome) :
    Keeps (markPubsub s c) := by
  obtain ⟨cl, hcl⟩ := isSome_iff_exists.mp hc
  refine ⟨_, ?_, (Moved.setClient h hcl { cl with pubsub := true } rfl rfl).inv⟩
  rw [markPubsub, hcl]
  rfl

theorem unmarkPubsub_keeps (h : PubsubInv s) (hc : (s.client c).isSome) :
    Keeps (unmarkPubsub s c) := by
  obtain ⟨cl, hcl⟩ := isSome_iff_exists.mp hc
  refine ⟨_, by rw [unmarkPubsub, hcl]; rfl, ?_⟩
  split
  · exact (Moved.setClient h hcl { cl with pubsub := false } rfl rfl).inv
  · exact h

theorem subscribeCommand_keeps (h : PubsubInv s) (hc : (s.client c).isSome)
    (channels : List Bytes) : Keeps (subscribeCommand s c channels) := by
  obtain ⟨s₁, hs₁, hmoved⟩ := pubsubSubscribeChannel_acts.each h hc channels
  rw [subscribeCommand, hs₁]
  exact markPubsub_keeps hmoved.inv ((hmoved.isSome c).trans hc)

theorem psubscribeCommand_keeps (h : PubsubInv s) (hc : (s.client c).isSome)
    (patterns : List Bytes) : Keeps (psubscribeCommand s c patterns) := by
  obtain ⟨s₁, hs₁, hmoved⟩ := pubsubSubscribePattern_acts.each h hc patterns
  rw [psubscribeCommand, hs₁]
  exact markPubsub_keeps hmoved.inv ((hmoved.isSome c).trans hc)

theorem unsubscribeCommand_keeps (h : PubsubInv s) (hc : (s.client c).isSome) (walk : Walk)
    (channels : List Bytes) : Keeps (unsubscribeCommand walk s c channels) := by
  rw [unsubscribeCommand]
  split
  · obtain ⟨s₁, r, hs₁, hmoved⟩ := pubsubUnsubscribeAllChannels_spec h hc true walk
    rw [hs₁]
    exact unmarkPubsub_keeps hmoved.inv ((hmoved.isSome c).trans hc)
  · obtain ⟨s₁, hs₁, hmoved⟩ := (pubsubUnsubscribeChannel_acts true).each h hc channels
    rw [hs₁]
    exact unmarkPubsub_keeps hmoved.inv ((hmoved.isSome c).trans hc)

theorem punsubscribeCommand_keeps (h : PubsubInv s) (hc : (s.client c).isSome)
    (patterns : List Bytes) : Keeps (punsubscribeCommand s c patterns) := by
  rw [punsubscribeCommand]
  split
  · obtain ⟨s₁, r, hs₁, hmoved⟩ := pubsubUnsubscribeAllPatterns_spec h hc true
    rw [hs₁]
    exact unmarkPubsub_keeps hmoved.inv ((hmoved.isSome c).trans hc)
  · obtain ⟨s₁, hs₁, hmoved⟩ := (pubsubUnsubscribePattern_acts true).each h hc patterns
    rw [hs₁]
    exact unmarkPubsub_keeps hmoved.inv ((hmoved.isSome c).trans hc)

/-- The state when the memory of clients alone changes, and nothing is subscribed at the place. -/
theorem PubsubInv.reconnect (h : PubsubInv s) (hchannels : s.channels c = [])
    (hpatterns : s.patterns c = []) {clients : List C} {o : Option RedisClient}
    (ho : o.elim [] RedisClient.pubsubChannels = [] ∧ o.elim [] RedisClient.pubsubPatterns = [])
    (hnodup : clients.Nodup) (hiff : ∀ x, x ∈ clients ↔ (update s.client c o x).isSome) :
    PubsubInv { s with clients := clients, client := update s.client c o } := by
  have hch : RedisServer.channels
      { s with clients := clients, client := update s.client c o } = s.channels := by
    funext x
    dsimp only [RedisServer.channels]
    rw [Function.update_apply]
    split
    next hx =>
      rw [ho.1, hx]
      exact hchannels.symm
    next => rfl
  have hpat : RedisServer.patterns
      { s with clients := clients, client := update s.client c o } = s.patterns := by
    funext x
    dsimp only [RedisServer.patterns]
    rw [Function.update_apply]
    split
    next hx =>
      rw [ho.2, hx]
      exact hpatterns.symm
    next => rfl
  exact ⟨by rw [hch]; exact h.sides, by rw [hpat]; exact h.owned, by rw [hpat]; exact h.distinct,
    hnodup, hiff⟩

theorem createClient_inv (h : PubsubInv s) (hc : s.client c = none) :
    PubsubInv (createClient s c) := by
  have hnot : c ∉ s.clients := by
    rw [h.connected, hc]
    exact Bool.false_ne_true
  refine h.reconnect (o := some ⟨[], [], false, []⟩) (by rw [RedisServer.channels, hc]; rfl)
    (by rw [RedisServer.patterns, hc]; rfl) ⟨rfl, rfl⟩
    (nodup_append.mpr ⟨h.nodup, by simp, by grind⟩) fun x => ?_
  rw [mem_append, mem_singleton, h.connected, Function.update_apply]
  split
  next hx => simp [hx]
  next hx => simp [hx]

theorem freeClient_keeps (h : PubsubInv s) (hc : (s.client c).isSome) (walk : Walk) :
    Keeps (freeClient walk s c) := by
  obtain ⟨s₁, r₁, hs₁, h₁⟩ := pubsubUnsubscribeAllChannels_spec h hc false walk
  obtain ⟨s₂, r₂, hs₂, h₂⟩ :=
    pubsubUnsubscribeAllPatterns_spec h₁.inv ((h₁.isSome c).trans hc) false
  have hopen := (h₂.isSome c).trans ((h₁.isSome c).trans hc)
  have hmem : c ∈ s₂.clients := (h₂.inv.connected c).mpr hopen
  refine ⟨{ s₂ with clients := s₂.clients.erase c, client := update s₂.client c none },
    ?_, ?_⟩
  · simp only [freeClient, hs₁, hs₂, some_bind, if_pos hmem,
      Option.pure_def]
  · refine h₂.inv.reconnect ?_ ?_ ⟨rfl, rfl⟩ (h₂.inv.nodup.erase c) fun x => ?_
    · rw [h₂.channels, Function.update_self, h₁.channels, Function.update_self]
    · rw [h₂.patterns, Function.update_self]
    · rw [h₂.inv.nodup.mem_erase_iff, h₂.inv.connected, Function.update_apply]
      split
      next hx => simp [hx]
      next hx => simp [hx]

end Redis.Pubsub
