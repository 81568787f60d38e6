import Mathlib.Data.Finset.Card
import Mathlib.Data.List.Nodup
import Redis.Blocked.Lists

/-!
# Redis.Blocked.Waiters

The two sides of the bookkeeping of blocked clients agree: `bpop.keys` of the clients and
`blocking_keys` of the databases, where clients are in the order in which they blocked.
-/

namespace Redis.Blocked

open List

variable {st st' st'' : State}

/-- The time since which a client is blocked. -/
def since (st : State) (c : Nat) : Nat := ((st.clients c).blocked.map Bpop.since).getD 0

/-- The bookkeeping of the blocked clients. -/
structure Waiters (st : State) : Prop where
  mem_blocking : ∀ c k, c ∈ st.blocking k ↔ ∃ b, (st.clients c).blocked = some b ∧ k ∈ b.keys
  nodup : ∀ k, (st.blocking k).Nodup
  count : ∃ s : Finset Nat, (∀ c, c ∈ s ↔ (st.clients c).blocked.isSome) ∧
    s.card = st.bpopBlockedClients
  since_lt : ∀ c b, (st.clients c).blocked = some b → b.since < st.clock
  sorted : ∀ k, (st.blocking k).Pairwise fun c c' => since st c < since st c'

/-- A step that neither blocks nor unblocks a client. -/
structure SameWaiters (st st' : State) : Prop where
  blocking : st'.blocking = st.blocking
  blocked : ∀ c, (st'.clients c).blocked = (st.clients c).blocked
  bpopBlockedClients : st'.bpopBlockedClients = st.bpopBlockedClients
  clock : st'.clock = st.clock

theorem SameWaiters.refl (st : State) : SameWaiters st st := ⟨rfl, fun _ => rfl, rfl, rfl⟩

theorem SameWaiters.trans (h : SameWaiters st st') (h' : SameWaiters st' st'') :
    SameWaiters st st'' :=
  ⟨h'.blocking.trans h.blocking, fun c => (h'.blocked c).trans (h.blocked c),
    h'.bpopBlockedClients.trans h.bpopBlockedClients, h'.clock.trans h.clock⟩

theorem SameWaiters.since (h : SameWaiters st st') (c : Nat) : since st' c = since st c := by
  rw [Blocked.since, h.blocked, Blocked.since]

variable {c : Nat}

theorem SameWaiters.modify {f : Client → Client}
    (h : (f (st.clients c)).blocked = (st.clients c).blocked) : SameWaiters st (st.modify c f) := by
  refine ⟨rfl, fun c' => ?_, rfl, rfl⟩
  by_cases hc : c' = c
  · subst hc
    simp [State.modify, h]
  · simp [State.modify, hc]

theorem Waiters.same (h : Waiters st) (hsame : SameWaiters st st') : Waiters st' := by
  constructor
  · intro c k
    rw [hsame.blocking, hsame.blocked, h.mem_blocking]
  · intro k
    rw [hsame.blocking]
    exact h.nodup k
  · obtain ⟨s, hs, hcard⟩ := h.count
    exact ⟨s, fun c => by rw [hs, hsame.blocked], by rw [hcard, hsame.bpopBlockedClients]⟩
  · intro c b hb
    rw [hsame.blocked] at hb
    rw [hsame.clock]
    exact h.since_lt c b hb
  · intro k
    rw [hsame.blocking]
    refine (h.sorted k).imp fun hlt => ?_
    rwa [hsame.since, hsame.since]

theorem waiters_init : Waiters .init := by
  refine ⟨by simp [State.init, Client.fresh], by simp [State.init], ⟨∅, ?_, rfl⟩, ?_, ?_⟩
  · simp [State.init, Client.fresh]
  · simp [State.init, Client.fresh]
  · simp [State.init]

/-! ## Blocking -/

variable {head : Bool} {keys : List Key} {target : Option Key} (c' : Nat)

theorem blockForKeys_blocking {k : Key} :
    (blockForKeys c keys target head st).blocking k =
      if k ∈ keys then st.blocking k ++ [c] else st.blocking k := by
  simp [blockForKeys, State.modify]

theorem blockForKeys_client :
    ((blockForKeys c keys target head st).clients c').blocked =
      if c' = c then some ⟨keys.eraseDups, target, head, st.clock⟩
      else (st.clients c').blocked := by
  by_cases hc : c' = c <;> simp [blockForKeys, State.modify, hc]

theorem Waiters.not_mem (h : Waiters st) (hc : (st.clients c).blocked = none) (k : Key) :
    c ∉ st.blocking k := by
  rw [h.mem_blocking, hc]
  simp

theorem Waiters.blockForKeys (h : Waiters st) (hc : (st.clients c).blocked = none)
    (keys : List Key) (target : Option Key) (head : Bool) :
    Waiters (blockForKeys c keys target head st) := by
  have hsince : ∀ c' ≠ c, since (Blocked.blockForKeys c keys target head st) c' = since st c' := by
    intro c' hne
    rw [since, blockForKeys_client, if_neg hne, since]
  have hself : since (Blocked.blockForKeys c keys target head st) c = st.clock := by
    rw [since, blockForKeys_client, if_pos rfl]
    rfl
  constructor
  · intro c' k
    rw [blockForKeys_blocking, blockForKeys_client]
    by_cases hne : c' = c
    · subst hne
      by_cases hk : k ∈ keys <;> simp [hk, h.not_mem hc k]
    · by_cases hk : k ∈ keys <;> simp [hk, hne, h.mem_blocking]
  · intro k
    rw [blockForKeys_blocking]
    split
    · rw [nodup_append]
      exact ⟨h.nodup k, nodup_singleton c, fun a ha b hb hab =>
        h.not_mem hc k (mem_singleton.mp hb ▸ hab ▸ ha)⟩
    · exact h.nodup k
  · obtain ⟨s, hs, hcard⟩ := h.count
    refine ⟨insert c s, fun c' => ?_, ?_⟩
    · rw [Finset.mem_insert, blockForKeys_client, hs]
      by_cases hne : c' = c <;> simp [hne]
    · rw [Finset.card_insert_of_notMem (by rw [hs, hc]; simp), hcard]
      rfl
  · intro c' b hb
    rw [blockForKeys_client] at hb
    have hclock : (Blocked.blockForKeys c keys target head st).clock = st.clock + 1 := rfl
    rw [hclock]
    by_cases hne : c' = c
    · rw [if_pos hne, Option.some_inj] at hb
      rw [← hb]
      exact Nat.lt_succ_self _
    · rw [if_neg hne] at hb
      exact Nat.lt_succ_of_lt (h.since_lt c' b hb)
  · intro k
    have hold : (st.blocking k).Pairwise fun c₁ c₂ =>
        since (Blocked.blockForKeys c keys target head st) c₁ <
          since (Blocked.blockForKeys c keys target head st) c₂ := by
      refine (h.sorted k).imp_of_mem fun h₁ h₂ hlt => ?_
      rwa [hsince _ fun heq => h.not_mem hc k (heq ▸ h₁),
        hsince _ fun heq => h.not_mem hc k (heq ▸ h₂)]
    rw [blockForKeys_blocking]
    split
    · rw [pairwise_append]
      refine ⟨hold, pairwise_singleton _ _, fun c₁ h₁ c₂ h₂ => ?_⟩
      -- the new client has waited for the shortest time
      obtain ⟨b, hb, -⟩ := (h.mem_blocking c₁ k).mp h₁
      rw [mem_singleton.mp h₂, hself, hsince c₁ fun heq => h.not_mem hc k (heq ▸ h₁), since, hb]
      exact h.since_lt c₁ b hb
    · exact hold

/-! ## Unblocking -/

theorem unblockClient_of_none (hc : (st.clients c).blocked = none) : unblockClient c st = st := by
  rw [unblockClient, hc]

theorem unblockClient_client :
    ((unblockClient c st).clients c').blocked =
      if c' = c then none else (st.clients c').blocked := by
  rw [unblockClient]
  split
  · rename_i hnone
    by_cases hc : c' = c <;> simp [hc, hnone]
  · by_cases hc : c' = c <;> simp [State.modify, hc]

theorem Waiters.unblockClient_blocking (h : Waiters st) (c : Nat) (k : Key) :
    (unblockClient c st).blocking k = (st.blocking k).erase c := by
  rw [unblockClient]
  split
  · rename_i hnone
    rw [erase_of_not_mem (h.not_mem hnone k)]
  · rename_i b hb
    by_cases hk : k ∈ b.keys
    · simp [State.modify, hk]
    · have hmem : c ∉ st.blocking k := by
        rw [h.mem_blocking]
        rintro ⟨b', hb', hk'⟩
        rw [hb, Option.some_inj] at hb'
        exact hk (hb' ▸ hk')
      simp [State.modify, hk, erase_of_not_mem hmem]

theorem unblockClient_clock (c : Nat) : (unblockClient c st).clock = st.clock := by
  rw [unblockClient]
  split <;> rfl

theorem Waiters.unblockClient_count (h : Waiters st) {b : Bpop}
    (hb : (st.clients c).blocked = some b) :
    (unblockClient c st).bpopBlockedClients + 1 = st.bpopBlockedClients := by
  obtain ⟨s, hs, hcard⟩ := h.count
  have hmem : c ∈ s := by rw [hs, hb]; rfl
  have hpos : 0 < s.card := Finset.card_pos.mpr ⟨c, hmem⟩
  have heq : (unblockClient c st).bpopBlockedClients = st.bpopBlockedClients - 1 := by
    rw [unblockClient, hb]
    rfl
  omega

theorem Waiters.unblockClient (h : Waiters st) (c : Nat) : Waiters (unblockClient c st) := by
  cases hb : (st.clients c).blocked with
  | none => rwa [unblockClient_of_none hb]
  | some b =>
    have hsince : ∀ c' ≠ c, since (Blocked.unblockClient c st) c' = since st c' := by
      intro c' hne
      rw [since, unblockClient_client, if_neg hne, since]
    have hne : ∀ k, ∀ c' ∈ (st.blocking k).erase c, c' ≠ c := fun k c' hmem heq =>
      (h.nodup k).not_mem_erase (heq ▸ hmem)
    constructor
    · intro c' k
      rw [h.unblockClient_blocking, unblockClient_client, (h.nodup k).mem_erase_iff, h.mem_blocking]
      by_cases hc : c' = c <;> simp [hc]
    · intro k
      rw [h.unblockClient_blocking]
      exact (h.nodup k).erase c
    · obtain ⟨s, hs, hcard⟩ := h.count
      have hcount := h.unblockClient_count hb
      have hmem : c ∈ s := by rw [hs, hb]; rfl
      refine ⟨s.erase c, fun c' => ?_, ?_⟩
      · rw [Finset.mem_erase, hs, unblockClient_client]
        by_cases hc : c' = c <;> simp [hc]
      · rw [Finset.card_erase_of_mem hmem]
        omega
    · intro c' b' hb'
      rw [unblockClient_client] at hb'
      rw [unblockClient_clock]
      split at hb'
      · cases hb'
      · exact h.since_lt c' b' hb'
    · intro k
      rw [h.unblockClient_blocking]
      refine ((h.sorted k).sublist erase_sublist).imp_of_mem fun h₁ h₂ hlt => ?_
      rwa [hsince _ (hne k _ h₁), hsince _ (hne k _ h₂)]

end Redis.Blocked
