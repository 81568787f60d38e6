import Redis.Pubsub.Tables

/-!
# Redis.Pubsub.Publish

What a message that is published brings to each client, and how many are counted.
-/

set_option linter.unusedSectionVars false

namespace Redis.Pubsub

open List Option

variable {C : Type} [DecidableEq C] {s s' : RedisServer C} {c : C} {cl : RedisClient}
  {channel message : Bytes}

/-! ## Messages in a row -/

/-- Messages to clients, one after the other. -/
def addReplies (s : RedisServer C) (rs : List (C × List Reply)) : Option (RedisServer C) :=
  rs.foldlM (fun s r => addReply s r.1 r.2) s

/-- The clients have these replies behind those they had, and nothing else has changed. -/
structure Delivered (s s' : RedisServer C) (replies : C → List Reply) : Prop where
  clients : s'.clients = s.clients
  channels : s'.pubsubChannels = s.pubsubChannels
  patterns : s'.pubsubPatterns = s.pubsubPatterns
  client : ∀ x, s'.client x = (s.client x).map fun cl => { cl with reply := cl.reply ++ replies x }

theorem addReplies_spec (rs : List (C × List Reply)) (h : ∀ r ∈ rs, (s.client r.1).isSome) :
    ∃ s', addReplies s rs = some s' ∧ Delivered s s' fun x => (ownedBy rs x).flatten := by
  induction rs generalizing s with
  | nil =>
    refine ⟨s, rfl, rfl, rfl, rfl, fun x => ?_⟩
    rw [ownedBy_nil, flatten_nil]
    cases s.client x with
    | none => rfl
    | some cl => rw [map_some, append_nil]
  | cons r rs ih =>
    obtain ⟨cl, hcl⟩ := isSome_iff_exists.mp (h r mem_cons_self)
    obtain ⟨s₁, hs₁, hrest⟩ := @ih (s.setClient r.1 { cl with reply := cl.reply ++ r.2 })
      fun r' hr' => by
        dsimp only [RedisServer.setClient]
        rw [Function.update_apply]
        split
        · rfl
        · exact h r' (mem_cons_of_mem _ hr')
    refine ⟨s₁, ?_, hrest.clients, hrest.channels, hrest.patterns, fun x => ?_⟩
    · rw [addReplies, foldlM_cons, addReply_eq hcl]
      exact hs₁
    · rw [hrest.client, ownedBy_cons]
      dsimp only [RedisServer.setClient]
      rw [Function.update_apply]
      by_cases hx : x = r.1
      · rw [if_pos hx, if_pos hx.symm, hx, hcl, map_some, map_some,
          flatten_cons, ← append_assoc]
      · rw [if_neg hx, if_neg (Ne.symm hx)]

/-! ## Counting -/

theorem toInt_add (a b : Int) : toInt (toInt a + b) = toInt (a + b) := Int.bmod_add_bmod ..

theorem add_succ_cast (n : Int) (k : Nat) : n + ((k + 1 : Nat) : Int) = n + 1 + k := by omega

/-- The loop over the clients of a channel. -/
theorem foldlM_clients (clients : List C) (m : List Reply) (s : RedisServer C) (n : Int) :
    clients.foldlM (fun (r : RedisServer C × Int) c => do
        let s ← addReply r.1 c m
        return (s, toInt (r.2 + 1))) (s, toInt n) =
      (addReplies s (clients.map fun c => (c, m))).map (·, toInt (n + clients.length)) := by
  induction clients generalizing s n with
  | nil => simp [addReplies]
  | cons c clients ih =>
    rw [foldlM_cons, addReplies, map_cons, foldlM_cons]
    dsimp only
    cases addReply s c m with
    | none => rfl
    | some s₁ =>
      have hrest := ih s₁ (n + 1)
      rw [addReplies] at hrest
      simp only [some_bind, Option.pure_def, toInt_add]
      rw [length_cons, add_succ_cast]
      exact hrest

/-- The patterns that match a channel. -/
def matching (channel pattern : Bytes) : Bool :=
  stringmatchlen false pattern (some channel) == some true

/-- The loop over the patterns, when each match stays inside its strings. -/
theorem foldlM_patterns {pats : List (C × Bytes)}
    (h : ∀ pat ∈ pats, (stringmatchlen false pat.2 (some channel)).isSome)
    (m : Bytes → List Reply) (s : RedisServer C) (n : Int) :
    pats.foldlM (fun (r : RedisServer C × Int) pat => do
        if ← stringmatchlen false pat.2 (some channel) then
          let s ← addReply r.1 pat.1 (m pat.2)
          return (s, toInt (r.2 + 1))
        else return (r.1, r.2)) (s, toInt n) =
      (addReplies s ((pats.filter fun pat => matching channel pat.2).map
        fun pat => (pat.1, m pat.2))).map
          (·, toInt (n + (pats.filter fun pat => matching channel pat.2).length)) := by
  induction pats generalizing s n with
  | nil => simp [addReplies]
  | cons pat pats ih =>
    have hrest := ih fun pat' hpat => h pat' (mem_cons_of_mem _ hpat)
    obtain ⟨b, hb⟩ := isSome_iff_exists.mp (h pat mem_cons_self)
    rw [foldlM_cons, hb, filter_cons, matching, hb]
    cases b with
    | false => exact hrest s n
    | true =>
      simp only [some_bind, BEq.rfl, if_true, map_cons]
      rw [addReplies, foldlM_cons]
      cases addReply s pat.1 (m pat.2) with
      | none => rfl
      | some s₁ =>
        have hrest := hrest s₁ (n + 1)
        rw [addReplies] at hrest
        simp only [some_bind, Option.pure_def, toInt_add]
        rw [length_cons, add_succ_cast]
        exact hrest

/-! ## One message -/

/-- The messages to a client: one for the channel, and one for each pattern that matches it. -/
def RedisServer.messages (s : RedisServer C) (channel message : Bytes) (c : C) :
    List (List Reply) :=
  (if channel ∈ s.channels c then [channelMessage channel message] else []) ++
    ((s.patterns c).filter (matching channel)).map (patternMessage channel message)

/-- The messages to all clients together. -/
def RedisServer.total (s : RedisServer C) (channel message : Bytes) : Nat :=
  (s.clients.map fun c => (s.messages channel message c).length).sum

/-- No match of a subscribed pattern reads behind the pattern or the channel. -/
def Inside (s : RedisServer C) (channel : Bytes) : Prop :=
  ∀ pat ∈ s.pubsubPatterns, (stringmatchlen false pat.2 (some channel)).isSome

/-- The messages in the order in which they are sent. -/
def sendings (s : RedisServer C) (channel message : Bytes) : List (C × List Reply) :=
  (((s.pubsubChannels channel).getD []).map fun c => (c, channelMessage channel message)) ++
    (s.pubsubPatterns.filter fun pat => matching channel pat.2).map
      fun pat => (pat.1, patternMessage channel message pat.2)

/-- A client is in the list of a channel once, if it is subscribed. -/
theorem count_channel (h : PubsubInv s) (channel : Bytes) (c : C) :
    ((s.pubsubChannels channel).getD []).count c = if channel ∈ s.channels c then 1 else 0 := by
  have hagree := h.sides.agree channel c
  cases hclients : s.pubsubChannels channel with
  | none =>
    rw [IsMember, hclients] at hagree
    rw [if_neg fun hmem => by simpa using hagree.mpr hmem]
    rfl
  | some clients =>
    rw [isMember_of_some hclients] at hagree
    rw [getD_some, (h.sides.members channel clients hclients).2.count]
    exact if_congr hagree rfl rfl

theorem isSome_of_channel (h : channel ∈ s.channels c) : (s.client c).isSome := by
  cases hc : s.client c with
  | none =>
    rw [RedisServer.channels, hc] at h
    cases h
  | some cl => rfl

theorem isSome_of_pattern {pattern : Bytes} (h : pattern ∈ s.patterns c) : (s.client c).isSome := by
  cases hc : s.client c with
  | none =>
    rw [RedisServer.patterns, hc] at h
    cases h
  | some cl => rfl

theorem isSome_of_sending (h : PubsubInv s) (channel message : Bytes)
    {r : C × List Reply} (hr : r ∈ sendings s channel message) : (s.client r.1).isSome := by
  rcases mem_append.mp hr with hr | hr
  · obtain ⟨c, hc, rfl⟩ := mem_map.mp hr
    have hcount := one_le_count_iff.mpr hc
    rw [count_channel h] at hcount
    exact isSome_of_channel (by_contra fun hnot => by rw [if_neg hnot] at hcount; cases hcount)
  · obtain ⟨pat, hpat, rfl⟩ := mem_map.mp hr
    have hmem : pat.2 ∈ ownedBy s.pubsubPatterns pat.1 :=
      mem_ownedBy.mpr (mem_of_mem_filter hpat)
    rw [h.owned] at hmem
    exact isSome_of_pattern hmem

theorem ownedBy_sendings (h : PubsubInv s) (c : C) :
    ownedBy (sendings s channel message) c = s.messages channel message c := by
  rw [sendings, ownedBy_append, ownedBy_const, count_channel h, ownedBy_filter_map, h.owned,
    RedisServer.messages]
  congr 1
  split <;> rfl

theorem length_sendings (h : PubsubInv s) :
    (sendings s channel message).length = s.total channel message := by
  rw [← sum_length_ownedBy h.nodup fun r hr => (h.connected r.1).mpr 
      (isSome_of_sending h channel message hr), RedisServer.total]
  simp only [ownedBy_sendings h]

theorem pubsubPublishMessage_eq (h : PubsubInv s) (channel message : Bytes) :
    ∃ s₁, addReplies s (((s.pubsubChannels channel).getD []).map
        fun c => (c, channelMessage channel message)) = some s₁ ∧
      pubsubPublishMessage s channel message =
        s.pubsubPatterns.foldlM (fun (r : RedisServer C × Int) pat => do
          if ← stringmatchlen false pat.2 (some channel) then
            let s ← addReply r.1 pat.1 (patternMessage channel message pat.2)
            return (s, toInt (r.2 + 1))
          else return (r.1, r.2))
          (s₁, toInt (0 + ((s.pubsubChannels channel).getD []).length)) := by
  obtain ⟨s₁, hs₁, hdelivered⟩ := addReplies_spec
    (((s.pubsubChannels channel).getD []).map fun c => (c, channelMessage channel message))
    fun r hr => isSome_of_sending h channel message (mem_append_left _ hr)
  have hclients := foldlM_clients ((s.pubsubChannels channel).getD [])
    (channelMessage channel message) s 0
  rw [hs₁, map_some] at hclients
  refine ⟨s₁, hs₁, ?_⟩
  rw [← hdelivered.patterns]
  exact congrArg (Option.bind · _) hclients

/-- A message that is published reaches its clients, and is counted as often. -/
theorem pubsubPublishMessage_spec (h : PubsubInv s) (hin : Inside s channel)
    (message : Bytes) :
    ∃ s', pubsubPublishMessage s channel message = some (s', toInt (s.total channel message)) ∧
      Delivered s s' fun c => (s.messages channel message c).flatten := by
  obtain ⟨s₁, hs₁, heq⟩ := pubsubPublishMessage_eq h channel message
  obtain ⟨s₂, hs₂, hdelivered⟩ := addReplies_spec (sendings s channel message)
    fun r hr => isSome_of_sending h channel message hr
  rw [sendings, addReplies, foldlM_append, ← addReplies, hs₁] at hs₂
  simp only [ownedBy_sendings h] at hdelivered
  refine ⟨s₂, ?_, hdelivered⟩
  have hrest : addReplies s₁ ((s.pubsubPatterns.filter fun pat => matching channel pat.2).map
      fun pat => (pat.1, patternMessage channel message pat.2)) = some s₂ := hs₂
  rw [heq, foldlM_patterns hin, hrest, map_some, ← length_sendings h, sendings,
    length_append, length_map, length_map, Int.natCast_add, Int.zero_add]

/-- A match that reads behind its strings has no result. -/
theorem inside_of_publish (h : PubsubInv s) {r : RedisServer C × Int}
    (hr : pubsubPublishMessage s channel message = some r) : Inside s channel := by
  obtain ⟨s₁, -, heq⟩ := pubsubPublishMessage_eq h channel message
  rw [heq] at hr
  clear heq
  rw [Inside]
  generalize s.pubsubPatterns = pats at hr
  generalize toInt _ = n at hr
  induction pats generalizing s₁ n with
  | nil => exact fun pat hpat => absurd hpat not_mem_nil
  | cons pat pats ih =>
    rw [foldlM_cons] at hr
    obtain ⟨r₁, hone, hrest⟩ := bind_eq_some_iff.mp hr
    obtain ⟨b, hb, -⟩ := bind_eq_some_iff.mp hone
    intro pat' hpat
    rcases mem_cons.mp hpat with rfl | hpat
    · rw [hb]
      rfl
    · exact ih r₁.1 r₁.2 hrest pat' hpat

/-! ## PUBLISH -/

/-- PUBLISH sends each client its messages and no more, and returns how many these are. -/
def Exact (s : RedisServer C) (c : C) (channel message : Bytes) : Prop :=
  ∃ s', publishCommand s c channel message = some s' ∧
    Delivered s s' fun x => (s.messages channel message x).flatten ++
      if x = c then [.longLong (s.total channel message)] else []

theorem toInt_eq_iff (n : Nat) : toInt n = n ↔ n < 2 ^ 31 := by
  rw [toInt, Int.bmod_def]
  omega

theorem Delivered.inv {replies : C → List Reply} (h : PubsubInv s)
    (hd : Delivered s s' replies) : PubsubInv s' := by
  have hchannels : s'.channels = s.channels := by
    funext x
    rw [RedisServer.channels, hd.client, RedisServer.channels]
    cases s.client x <;> rfl
  have hpatterns : s'.patterns = s.patterns := by
    funext x
    rw [RedisServer.patterns, hd.client, RedisServer.patterns]
    cases s.client x <;> rfl
  refine ⟨?_, ?_, ?_, ?_, fun x => ?_⟩
  · rw [hd.channels, hchannels]
    exact h.sides
  · rw [hd.patterns, hpatterns]
    exact h.owned
  · rw [hpatterns]
    exact h.distinct
  · rw [hd.clients]
    exact h.nodup
  · rw [hd.clients, hd.client, isSome_map]
    exact h.connected x

theorem publishCommand_spec (h : PubsubInv s) (hc : (s.client c).isSome)
    (hin : Inside s channel) (message : Bytes) :
    ∃ s', publishCommand s c channel message = some s' ∧
      Delivered s s' fun x => (s.messages channel message x).flatten ++
        if x = c then [.longLong (toInt (s.total channel message))] else [] := by
  obtain ⟨s₁, hs₁, hd⟩ := pubsubPublishMessage_spec h hin message
  obtain ⟨cl, hcl⟩ := isSome_iff_exists.mp hc
  have hcl₁ := hd.client c
  rw [hcl, map_some] at hcl₁
  have hreply := addReply_eq hcl₁ [.longLong (toInt (s.total channel message))]
  refine ⟨_, Eq.trans ?_ hreply, hd.clients, hd.channels, hd.patterns, fun x => ?_⟩
  · rw [publishCommand, hs₁]
    rfl
  · dsimp only [RedisServer.setClient]
    rw [Function.update_apply, hd.client]
    split
    next hx => rw [hx, hcl, map_some, append_assoc]
    next => simp only [append_nil]

/-- In a state that keeps the invariant, PUBLISH is exact for as long as the matches stay inside
their strings and an `int` holds the number. -/
theorem exact_iff (h : PubsubInv s) (hc : (s.client c).isSome) (channel message : Bytes) :
    Exact s c channel message ↔ Inside s channel ∧ s.total channel message < 2 ^ 31 := by
  constructor
  · rintro ⟨s', hs', hd⟩
    obtain ⟨r, hr, -⟩ := bind_eq_some_iff.mp hs'
    have hin := inside_of_publish h hr
    obtain ⟨s₁, hs₁, hd₁⟩ := publishCommand_spec h hc hin message
    obtain rfl : s₁ = s' := Option.some.inj (hs₁.symm.trans hs')
    obtain ⟨cl, hcl⟩ := isSome_iff_exists.mp hc
    have hsame := (hd.client c).symm.trans (hd₁.client c)
    rw [hcl] at hsame
    simp only [map_some, Option.some.injEq, RedisClient.mk.injEq, append_cancel_left_eq,
      if_true, List.cons.injEq, Reply.longLong.injEq, and_true, true_and] at hsame
    exact ⟨hin, (toInt_eq_iff _).mp hsame.symm⟩
  · rintro ⟨hin, hlt⟩
    have hspec := publishCommand_spec h hc hin message
    rw [(toInt_eq_iff _).mpr hlt] at hspec
    exact hspec

/-! ## Runs -/

/-- The channel an event publishes to. -/
def Event.published : Event C → Option Bytes
  | .publish _ channel _ => some channel
  | .notify channel _ => some channel
  | _ => none

theorem ofClient_keeps {r : Option (RedisServer C)} (h : PubsubInv s)
    (hr : (s.client c).isSome → Keeps r) : Keeps (ofClient s c r) := by
  rw [ofClient]
  split
  next hc => exact hr hc
  next => exact ⟨s, rfl, h⟩

/-- Every event has its result, but for a match that reads behind its strings. -/
theorem step_keeps (h : PubsubInv s) (ev : Event C)
    (hin : ∀ channel, ev.published = some channel → Inside s channel) : Keeps (step s ev) := by
  cases ev with
  | connect c =>
    refine ⟨_, rfl, ?_⟩
    split
    · exact h
    next hc => exact createClient_inv h (not_isSome_iff_eq_none.mp hc)
  | subscribe c channels => exact ofClient_keeps h fun hc => subscribeCommand_keeps h hc channels
  | unsubscribe c channels walk =>
    exact ofClient_keeps h fun hc => unsubscribeCommand_keeps h hc walk channels
  | psubscribe c patterns => exact ofClient_keeps h fun hc => psubscribeCommand_keeps h hc patterns
  | punsubscribe c patterns =>
    exact ofClient_keeps h fun hc => punsubscribeCommand_keeps h hc patterns
  | publish c channel message =>
    refine ofClient_keeps h fun hc => ?_
    obtain ⟨s', hs', hd⟩ := publishCommand_spec h hc (hin channel rfl) message
    exact ⟨s', hs', hd.inv h⟩
  | notify channel message =>
    obtain ⟨s', hs', hd⟩ := pubsubPublishMessage_spec h (hin channel rfl) message
    exact ⟨s', by rw [step, hs', map_some], hd.inv h⟩
  | disconnect c walk => exact ofClient_keeps h fun hc => freeClient_keeps h hc walk

theorem step_inv (h : PubsubInv s) {ev : Event C} (hs : step s ev = some s') : PubsubInv s' := by
  have hin : ∀ channel, ev.published = some channel → Inside s channel ∨ s' = s := by
    intro channel hev
    cases ev with
    | publish c channel' message =>
      cases hev
      rw [step, ofClient] at hs
      split at hs
      · obtain ⟨r, hr, -⟩ := bind_eq_some_iff.mp hs
        exact .inl (inside_of_publish h hr)
      · exact .inr (Option.some.inj hs).symm
    | notify channel' message =>
      cases hev
      obtain ⟨r, hr, -⟩ := map_eq_some_iff.mp hs
      exact .inl (inside_of_publish h hr)
    | _ => cases hev
  by_cases hsame : s' = s
  · exact hsame ▸ h
  · obtain ⟨s₁, hs₁, hinv⟩ := step_keeps h ev fun channel hev => (hin channel hev).resolve_right hsame
    exact Option.some.inj (hs₁.symm.trans hs) ▸ hinv

theorem initServer_inv : PubsubInv (initServer : RedisServer C) where
  sides := TwoSided.empty
  owned := rfl
  distinct := fun _ => nodup_nil
  nodup := nodup_nil
  connected := fun _ => by simp [initServer]

theorem run_inv {evs : List (Event C)} (h : PubsubInv s) (hs : run s evs = some s') :
    PubsubInv s' := by
  induction evs generalizing s with
  | nil => exact Option.some.inj hs ▸ h
  | cons ev evs ih =>
    obtain ⟨s₁, hs₁, hrest⟩ := bind_eq_some_iff.mp hs
    exact ih (step_inv h hs₁) hrest

/-- What the tables say: a client is in the list of a channel once if the channel is in its own
table, no list is empty, and each pattern of a client has one entry. -/
structure TablesAgree (s : RedisServer C) : Prop where
  channel : ∀ c channel,
    ((s.pubsubChannels channel).getD []).count c = if channel ∈ s.channels c then 1 else 0
  nonempty : ∀ channel, s.pubsubChannels channel ≠ some []
  pattern : ∀ c pattern,
    s.pubsubPatterns.count (c, pattern) = if pattern ∈ s.patterns c then 1 else 0
  distinct : ∀ c, (s.channels c).Nodup ∧ (s.patterns c).Nodup

theorem PubsubInv.tablesAgree (h : PubsubInv s) : TablesAgree s where
  channel := fun c channel => count_channel h channel c
  nonempty := fun channel heq => (h.sides.members channel [] heq).1 rfl
  pattern := fun c pattern => by
    rw [← count_ownedBy, h.owned]
    exact (h.distinct c).count
  distinct := fun c => ⟨h.sides.nodup c, h.distinct c⟩

/-- In every state that a run reaches the tables agree, an event fails only where it publishes to a
channel with which a match reads behind its strings, and PUBLISH is exact otherwise. -/
theorem publish_exact {evs : List (Event C)} (h : run initServer evs = some s) :
    TablesAgree s ∧
      (∀ ev : Event C, (∀ channel, ev.published = some channel → Inside s channel) →
        (step s ev).isSome) ∧
      ∀ c channel message, (s.client c).isSome →
        (Exact s c channel message ↔ Inside s channel ∧ s.total channel message < 2 ^ 31) := by
  have hinv := run_inv initServer_inv h
  refine ⟨hinv.tablesAgree, fun ev hin => ?_, fun c channel message hc =>
    exact_iff hinv hc channel message⟩
  obtain ⟨s', hs', -⟩ := step_keeps hinv ev hin
  rw [hs']
  rfl

/-- Two clients, one with the channel `a` and the pattern `a*`, the other with the channel until it
leaves it. -/
theorem publish_exact_two :
    ∃ s : RedisServer Nat,
      run initServer [.connect 1, .connect 2, .subscribe 1 [[97], [98]], .psubscribe 1 [[97, 42]],
        .subscribe 2 [[97]], .unsubscribe 2 [] ⟨id, List.Perm.refl⟩] = some s ∧
      TablesAgree s ∧ Exact s 2 [97] [109] := by
  obtain ⟨s, hs, hpatterns, hclients, hone, htwo, hpone, hptwo, hc⟩ : ∃ s : RedisServer Nat,
      run initServer [.connect 1, .connect 2, .subscribe 1 [[97], [98]], .psubscribe 1 [[97, 42]],
        .subscribe 2 [[97]], .unsubscribe 2 [] ⟨id, List.Perm.refl⟩] = some s ∧
      s.pubsubPatterns = [(1, [97, 42])] ∧ s.clients = [1, 2] ∧ s.channels 1 = [[97], [98]] ∧
      s.channels 2 = [] ∧ s.patterns 1 = [[97, 42]] ∧ s.patterns 2 = [] ∧
      (s.client 2).isSome :=
    ⟨_, rfl, rfl, rfl, rfl, rfl, rfl, rfl, rfl⟩
  obtain ⟨htables, -, hexact⟩ := publish_exact hs
  refine ⟨s, hs, htables, (hexact 2 [97] [109] hc).mpr ⟨?_, ?_⟩⟩
  · intro pat hpat
    rw [hpatterns, mem_singleton] at hpat
    subst hpat
    exact stringmatchlen_isSome (by decide)
  · simp only [RedisServer.total, hclients, map_cons, map_nil, RedisServer.messages, hone,
      htwo, hpone, hptwo, length_append, length_map]
    have hfilter := length_filter_le (matching [97]) [[97, 42]]
    simp only [length_cons, length_nil] at hfilter
    simp
    omega

/-- A pattern that ends with a backslash in an open bracket is read behind its end. -/
theorem publish_behind :
    ¬ ∀ (evs : List (Event Nat)) (s : RedisServer Nat), run initServer evs = some s →
      ∀ c channel message, (s.client c).isSome → Exact s c channel message := by
  intro hall
  obtain ⟨s, hs, hpatterns, hc⟩ : ∃ s : RedisServer Nat,
      run initServer [.connect 1, .psubscribe 1 [[91, 92]], .connect 2] = some s ∧
        s.pubsubPatterns = [(1, [91, 92])] ∧ (s.client 2).isSome :=
    ⟨_, rfl, rfl, rfl⟩
  obtain ⟨s', hs', -⟩ := hall _ s hs 2 [120] [] hc
  obtain ⟨r, hr, -⟩ := bind_eq_some_iff.mp hs'
  have hin := inside_of_publish (run_inv initServer_inv hs) hr (1, [91, 92])
    (by rw [hpatterns]; exact mem_cons_self)
  have hone : matchOne false 91 [92] (some [120]) = none := by decide
  rw [stringmatchlen, if_neg (by decide)] at hin
  split at hin
  · cases hin
  next heq => rw [hone] at heq; cases heq
  next heq => rw [hone] at heq; cases heq

end Redis.Pubsub
