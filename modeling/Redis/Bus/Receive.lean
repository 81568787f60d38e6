import Redis.Bus.Within

/-!
# Redis.Bus.Receive

`clusterProcessPacket` is a run of small changes.
-/

namespace Redis.Bus

variable {N : Type} [LinearOrder N] {g : Guard N} {st st' : State N}

/-! ## The header -/

theorem Calm.config {n : Ptr} (hn : n ∈ st.nodes) {e : Nat} (hle : (st.node n).configEpoch ≤ e)
    (he : g.anyEpoch ∨ e ≤ st.currentEpoch) :
    Calm g st (st.modNode n fun x => { x with configEpoch := e }) :=
  of_frame (.config st n e hn hle he) (Frame.modNode st n fun _ => ⟨rfl, rfl, rfl, rfl, rfl, rfl⟩) rfl

/-- The header of a known sender raises the current epoch, and the rest keeps
the roles and links. -/
theorem updateFromHeader_calm {sender : Option Ptr} (hsender : ∀ s, sender = some s → s ∈ st.nodes)
    {hdr : Msg N} (he : g.anyEpoch ∨ hdr.configEpoch ≤ hdr.currentEpoch) :
    ∃ e, st.currentEpoch ≤ e ∧ e ≤ max st.currentEpoch hdr.currentEpoch ∧
      (∀ s, sender = some s → (st.node s).flags.handshake = false → hdr.currentEpoch ≤ e) ∧
      Calm g { st with currentEpoch := e } (updateFromHeader st sender hdr) := by
  unfold updateFromHeader
  split
  · exact ⟨st.currentEpoch, Nat.le_refl _, Nat.le_max_left _ _, fun s hs => (by cases hs), .refl _⟩
  · next s =>
    split
    · next hh =>
      refine ⟨st.currentEpoch, Nat.le_refl _, Nat.le_max_left _ _, fun s' hs' hf => ?_, .refl _⟩
      injection hs' with hs'
      rw [hs', hf] at hh
      cases hh
    · refine ⟨max st.currentEpoch hdr.currentEpoch, Nat.le_max_left _ _, Nat.le_refl _,
        fun _ _ _ => Nat.le_max_right _ _, ?_⟩
      extract_lets st1 st2 st3
      have h2 : Calm g st1 st2 := by
        unfold st2
        split
        · next hlt =>
          refine Calm.trans (Calm.trans ?_ (Calm.todoSave _)) (Calm.todoFsync _)
          have hmem : s ∈ st1.nodes := hsender s rfl
          exact Calm.config hmem (Nat.le_of_lt hlt)
            (he.imp_right fun h => h.trans (Nat.le_max_right _ _))
        · exact .refl st1
      have h3 : Calm g st2 st3 := Calm.modNode st2 s fun _ => .rest (.refl _)
      refine (h2.trans h3).trans ?_
      split
      · exact .of_soft { Soft.refl st3 with }
      · exact .refl st3

/-! ## Slots and epochs of the sender -/

omit [LinearOrder N] in
theorem staleClaim_slots {s n : Ptr} {epoch : Nat} {hdr : Msg N}
    (h : staleClaim st s epoch hdr = some n) : ∃ j, st.slots j = some n := by
  have hmem := List.mem_of_find?_eq_some h
  obtain ⟨j, _, hj⟩ := List.mem_filterMap.mp hmem
  exact ⟨j, hj⟩

theorem collision_cases (st : State N) (s : Ptr) :
    clusterHandleConfigEpochCollision st s = st ∨
      clusterHandleConfigEpochCollision st s = clusterSaveConfig (takeNewEpoch st) true := by
  unfold clusterHandleConfigEpochCollision
  split
  · exact .inl rfl
  · split
    · exact .inl rfl
    · exact .inr rfl

theorem Steps.newEpoch (h : g.wrap ∨ st.currentEpoch + 1 < 2 ^ 64) :
    Steps g st (clusterSaveConfig (takeNewEpoch st) true) :=
  (Relation.ReflTransGen.single (.newEpoch st h)).tail (.save _ true)

variable {hdr : Msg N} (env : Env N)

/-- The slots of the sender, and the collision of configuration epochs at the
end. -/
theorem Steps.processSlots {s : Ptr} (hs : s ∈ st.nodes) (epoch : Nat)
    (hslots : ∀ j ∈ hdr.myslots, j < clusterSlots) (hwrap : g.wrap ∨ st.currentEpoch + 1 < 2 ^ 64) :
    Steps g st (processSlots env st s epoch hdr) ∧
      st.nodes ⊆ (processSlots env st s epoch hdr).nodes := by
  unfold Bus.processSlots
  extract_lets dirty st1 st2
  have h1 : Run g st st1 := by
    unfold st1
    split
    · exact .updateSlotsConfigWith hs epoch hslots
    · exact .refl st
  have h2 : Run g st1 st2 := by
    unfold st2
    split
    · split
      · next n hn =>
        obtain ⟨j, hj⟩ := staleClaim_slots hn
        exact (Calm.sendUpdate env st1 s n hj).toRun
      · exact .refl st1
    · exact .refl st1
  have h12 := h1.trans h2
  split
  · rcases collision_cases st2 s with h | h
    · rw [h]
      exact ⟨h12.steps, h12.nodes⟩
    · rw [h]
      refine ⟨h12.steps.trans (newEpoch ?_), ?_⟩
      · rw [h12.currentEpoch]
        exact hwrap
      · intro p hp
        exact h12.nodes hp
  · exact ⟨h12.steps, h12.nodes⟩

/-! ## Handshakes -/

/-- What a heartbeat does to the handshake with the node of its link. -/
theorem processHandshake_cases (st : State N) (link sender : Option Ptr) (hdr : Msg N) :
    processHandshake env st link sender hdr = (st, true) ∨
    (∃ l s, link = some l ∧ (st.node l).flags.handshake = true ∧ sender = some s ∧
      processHandshake env st link sender hdr =
        (clusterDelNode env (nodeUpdateAddressIfNeeded env st s link hdr.port) l, false)) ∨
    (∃ l, link = some l ∧ (st.node l).flags.handshake = true ∧ sender = none ∧
      processHandshake env st link sender hdr =
        (todoSave ((clusterRenameNode st l hdr.sender).modNode l fun x =>
          { x with flags := { x.flags with
              handshake := false
              master := x.flags.master || hdr.flags.master
              slave := x.flags.slave || hdr.flags.slave } }), true)) ∨
    (∃ st', Soft st st' ∧ processHandshake env st link sender hdr = (st', false)) := by
  unfold processHandshake
  cases link with
  | none => exact .inl rfl
  | some l =>
    dsimp only
    split
    · next hh =>
      cases sender with
      | some s => exact .inr (.inl ⟨l, s, rfl, hh, rfl, rfl⟩)
      | none => exact .inr (.inr (.inl ⟨l, rfl, hh, rfl, rfl⟩))
    · split
      · refine .inr (.inr (.inr ⟨_, Soft.trans ?_ (Soft.todoSave _), rfl⟩))
        exact Soft.modNode st l fun _ => .rest (.refl _)
      · exact .inl rfl

omit [LinearOrder N] in
/-- A node in handshake is not this node. -/
theorem MyselfInv.ne_of_handshake (h : MyselfInv st) {l : Ptr}
    (hl : (st.node l).flags.handshake = true) : l ≠ st.myself := by
  intro heq
  have hself := h.handshake
  rw [State.me, ← heq, hl] at hself
  cases hself

theorem Steps.endHandshake (hw : Wf st) {l : Ptr} (hl : l ∈ st.nodes)
    (hh : (st.node l).flags.handshake = true) {name : N} (hname : clusterLookupNode st name = none)
    (m s : Bool) :
    Steps g st (todoSave ((clusterRenameNode st l name).modNode l fun x =>
      { x with flags := { x.flags with
          handshake := false
          master := x.flags.master || m
          slave := x.flags.slave || s } })) := by
  have hne := hw.myself.ne_of_handshake hh
  have hmicro := Micro.endHandshake (g := g) st l name m s hl hne hh hname
  exact (Relation.ReflTransGen.single hmicro).tail (.soft (Soft.todoSave _))

/-! ## Heartbeats -/

theorem Calm.processPeer (st : State N) (link sender : Option Ptr) (hdr : Msg N) (type : PingType) :
    Calm g st (processPeer env st link sender hdr type) := by
  unfold Bus.processPeer
  extract_lets st1
  have h1 : Calm g st st1 := by
    unfold st1
    split
    · split
      · exact nodeUpdateAddressIfNeeded env st _ link hdr.port
      · exact refl st
    · exact refl st
  refine h1.trans ?_
  split
  · split
    · exact processPong env st1 _
    · exact refl st1
  · exact refl st1

theorem Steps.processConfig (hw : Wf st) {env : Env N} (hname : ∀ p, g.names (env.newName p))
    {link sender : Option Ptr} (hlink : ∀ l, link = some l → l ∈ st.nodes)
    (hsender : ∀ s, sender = some s → s ∈ st.nodes) (epoch : Nat)
    (hnone : sender = none → clusterLookupNode st hdr.sender = none)
    (hslots : ∀ j ∈ hdr.myslots, j < clusterSlots) (hwrap : g.wrap ∨ st.currentEpoch + 1 < 2 ^ 64)
    (htidy : g.links ∨ ∀ l s, link = some l → (st.node l).flags.handshake = true →
      sender = some s → Tidy st l)
    (hrole : g.links ∨ ∀ s, sender = some s → (st.node s).flags.master = true →
      hdr.slaveof ≠ none → (st.node s).slaves = []) (type : PingType) (gossip : List (Gossip N)) :
    Steps g st (processConfig env st link sender epoch hdr type gossip) := by
  unfold Bus.processConfig
  rcases processHandshake_cases env st link sender hdr with
    h | ⟨l, s, rfl, hh, rfl, h⟩ | ⟨l, rfl, hh, rfl, h⟩ | ⟨st', hs, h⟩
  · rw [h]
    dsimp only [Bool.not_true, Bool.false_eq_true, if_false]
    have hpeer : Calm g st (processPeer env st link sender hdr type) :=
      Calm.processPeer env st link sender hdr type
    generalize processPeer env st link sender hdr type = st1 at hpeer ⊢
    refine hpeer.steps.trans ?_
    cases sender with
    | none => exact .refl
    | some s =>
      have hs := hsender s rfl
      have hw1 := hw.steps hpeer.steps
      have hsame := hpeer.node s (hw.table.next s hs)
      have hrole1 : Run g st1 (processRole st1 s hdr) := by
        refine .processRole hw1 (hpeer.nodes hs) hdr (hrole.imp_right fun hr => ?_)
        rw [hsame.master, hsame.slaves]
        exact hr s rfl
      dsimp only
      generalize processRole st1 s hdr = st2 at hrole1 ⊢
      have hs2 := hrole1.nodes (hpeer.nodes hs)
      obtain ⟨hslots2, hnodes2⟩ := Steps.processSlots (g := g) env hs2 epoch hslots
        (by rwa [hrole1.currentEpoch, hpeer.currentEpoch])
      refine (hrole1.steps.trans hslots2).trans (Calm.gossipSection ?_ hname ?_ hdr gossip).steps
      · exact (hw1.steps hrole1.steps).steps hslots2
      · exact fun l hl => hnodes2 (hrole1.nodes (hpeer.nodes (hlink l hl)))
  · -- the node is known under its name already, and the handshake node is deleted
    rw [h]
    have haddr : Calm g st (nodeUpdateAddressIfNeeded env st s (some l) hdr.port) :=
      Calm.nodeUpdateAddressIfNeeded env st s (some l) hdr.port
    refine haddr.steps.trans (Steps.delNode (hw.steps haddr.steps) env ?_ ?_ ?_ ?_)
    · exact haddr.nodes (hlink l rfl)
    · rw [haddr.myself]
      exact hw.myself.ne_of_handshake hh
    · exact htidy.imp_right fun ht => (ht l s rfl hh rfl).calm haddr (hw.table.next l (hlink l rfl))
    · rw [(haddr.node l (hw.table.next l (hlink l rfl))).handshake]
      exact .inr hh
  · have hend : Steps g st _ := Steps.endHandshake hw (hlink l rfl) hh (hnone rfl) hdr.flags.master
      hdr.flags.slave
    generalize todoSave _ = st1 at h hend
    rw [h]
    exact hend.trans (Calm.processPeer env st1 (some l) none hdr type).steps
  · rw [h]
    exact .single (.soft hs)

/-! ## The other packets -/

theorem Steps.sendFailoverAuthIfNeeded (st : State N) (n : Ptr) (request : Msg N) :
    Steps g st (clusterSendFailoverAuthIfNeeded env st n request) := by
  unfold clusterSendFailoverAuthIfNeeded
  split
  · exact .refl
  split
  · exact .refl
  split
  · exact .refl
  next hvote =>
  split
  · exact .refl
  split
  · exact .refl
  next m _ =>
  split
  · exact .refl
  split
  · exact .refl
  split
  · exact .refl
  exact (Relation.ReflTransGen.single (.vote env st n hvote)).tail (.soft (Soft.modNode _ m fun _ => .rest (.refl _)))

theorem Steps.processUpdate {e : Nat} (nodename : N) {slots : SlotBitmap}
    (hslots : ∀ j ∈ slots, j < clusterSlots) (he : g.anyEpoch ∨ e ≤ st.currentEpoch) :
    Steps g st (processUpdate st e nodename slots) := by
  unfold Bus.processUpdate
  split
  · exact .refl
  · next n hn =>
    split
    · exact .refl
    · next hlt =>
      have hmem := (clusterLookupNode_some hn).1
      extract_lets st1 st2
      have h1 : Run g st st1 ∧ (st1.node n).configEpoch = (st.node n).configEpoch := by
        unfold st1
        split
        · exact ⟨.setNodeAsMaster hmem, ((Links.setNodeAsMaster st n).node n).configEpoch⟩
        · exact ⟨.refl st, rfl⟩
      have h2 : Run g st1 st2 := by
        have hsoft : ∀ s : State N, Run g s (todoFsync (todoSave s)) := fun s =>
          .of_soft { Soft.refl s with }
        refine Run.trans ?_ (hsoft _)
        refine (Calm.config (h1.1.nodes hmem) ?_ ?_).toRun
        · rw [h1.2]
          exact Nat.le_of_lt (Nat.lt_of_not_le hlt)
        · rw [h1.1.currentEpoch]
          exact he
      have h12 := h1.1.trans h2
      exact (h12.trans (.updateSlotsConfigWith (h12.nodes hmem) e hslots)).steps

theorem Calm.processAck (st : State N) (s : Ptr) (currentEpoch : Nat) :
    Calm g st (processAck st s currentEpoch) := by
  unfold Bus.processAck
  split
  · exact of_soft { Soft.refl st with }
  · exact refl st

theorem Steps.processMFStart {s : Ptr} (hs : s ∈ st.nodes) :
    Steps g st (processMFStart env st s) := by
  unfold Bus.processMFStart
  split
  · exact .refl
  · have h1 : Soft st { st with mfEnd := env.now + 5000, mfCanStart := false, mfMasterOffset := 0 } :=
      { Soft.refl st with }
    refine (Relation.ReflTransGen.single (.soft h1)).tail (.mfSlave _ (some s) fun p hp => ?_)
    injection hp with hp
    exact hp ▸ hs

/-! ## `clusterProcessPacket` -/

/-- The packet is a `PING`, a `PONG` or a `MEET`. -/
def MsgData.isHeartbeat : MsgData N → Bool
  | .ping _ => true
  | .pong _ => true
  | .meet _ => true
  | _ => false

/-- What holds of a packet that comes from the socket of a node: `link->node`
is in the table, bitmaps have `clusterSlots` bits, and the random names drawn
while it is processed are not the name of its sender. -/
structure PacketOk (st : State N) (env : Env N) (link : Option Ptr) (hdr : Msg N) : Prop where
  link : ∀ l, link = some l → l ∈ st.nodes
  myslots : ∀ j ∈ hdr.myslots, j < clusterSlots
  update : ∀ e name slots, hdr.data = .update e name slots → ∀ j ∈ slots, j < clusterSlots
  newName : ∀ p, env.newName p ≠ hdr.sender

/-- The epochs of a packet are not above its current epoch, and an `UPDATE`
does not come from a node in handshake. -/
structure PacketEpochs (st : State N) (hdr : Msg N) : Prop where
  config : hdr.configEpoch ≤ hdr.currentEpoch
  update : ∀ e name slots, hdr.data = .update e name slots → e ≤ hdr.currentEpoch
  handshake : ∀ s, clusterLookupNode st hdr.sender = some s → (st.node s).flags.handshake = false

/-- A packet leaves no links behind: the node in handshake it has deleted is
tidy, and a master it turns into a slave has no slaves. -/
structure PacketLinks (st : State N) (link : Option Ptr) (hdr : Msg N) : Prop where
  handshake : hdr.data.isHeartbeat = true → ∀ l s, link = some l →
    (st.node l).flags.handshake = true → clusterLookupNode st hdr.sender = some s → Tidy st l
  role : hdr.data.isHeartbeat = true → ∀ s, clusterLookupNode st hdr.sender = some s →
    (st.node s).flags.master = true → hdr.slaveof ≠ none → (st.node s).slaves = []

theorem Steps.processPacket (hw : Wf st) {env : Env N} {link : Option Ptr}
    (hok : PacketOk st env link hdr) (hname : ∀ p, g.names (env.newName p))
    (hsender : ¬g.names hdr.sender) (hepochs : g.anyEpoch ∨ PacketEpochs st hdr)
    (hwrap : g.wrap ∨ (st.currentEpoch + 1 < 2 ^ 64 ∧ hdr.currentEpoch + 1 < 2 ^ 64))
    (hlinks : g.links ∨ PacketLinks st link hdr) :
    Steps g st (clusterProcessPacket env st link hdr) := by
  unfold clusterProcessPacket
  extract_lets sender epoch currentEpoch st1
  have hmem : ∀ s, sender = some s → s ∈ st.nodes := fun s hs => (clusterLookupNode_some hs).1
  obtain ⟨e, hle, hmax, hcur, hcalm⟩ := updateFromHeader_calm (g := g) hmem
    (hepochs.imp_right PacketEpochs.config)
  have h1 : Steps g st st1 := (Relation.ReflTransGen.single (.current st e hle)).trans hcalm.steps
  have hw1 := hw.steps h1
  have hlink1 : ∀ l, link = some l → l ∈ st1.nodes := fun l hl => hcalm.nodes (hok.link l hl)
  have hmem1 : ∀ s, sender = some s → s ∈ st1.nodes := fun s hs => hcalm.nodes (hmem s hs)
  have hnone1 : sender = none → clusterLookupNode st1 hdr.sender = none := by
    intro hs
    exact hcalm.lookup hdr.sender hsender hs
  have hwrap1 : g.wrap ∨ st1.currentEpoch + 1 < 2 ^ 64 := by
    refine hwrap.imp_right fun h => ?_
    rw [hcalm.currentEpoch]
    dsimp only
    omega
  -- the heartbeats, after a run that keeps the roles and links
  have hbeat : ∀ st2, Calm g st1 st2 → hdr.data.isHeartbeat = true → ∀ type gossip,
      Steps g st (Bus.processConfig env st2 link sender epoch hdr type gossip) := by
    intro st2 h2 hb type gossip
    have hsame2 : ∀ p ∈ st.nodes, SameRole (st.node p) (st2.node p) := fun p hp =>
      (hcalm.trans h2).node p (hw.table.next p hp)
    refine (h1.trans h2.steps).trans (Steps.processConfig (hw1.steps h2.steps) hname ?_ ?_ epoch ?_
      hok.myslots ?_ ?_ ?_ type gossip)
    · exact fun l hl => h2.nodes (hlink1 l hl)
    · exact fun s hs => h2.nodes (hmem1 s hs)
    · exact fun hs => h2.lookup hdr.sender hsender (hnone1 hs)
    · rw [h2.currentEpoch]
      exact hwrap1
    · refine hlinks.imp_right fun h l s hl hh hs => ?_
      have hlmem := hok.link l hl
      rw [(hsame2 l hlmem).handshake] at hh
      have htidy : Tidy { st with currentEpoch := e } l := { h.handshake hb l s hl hh hs with }
      exact htidy.calm (hcalm.trans h2) (hw.table.next l hlmem)
    · refine hlinks.imp_right fun h s hs hm hne => ?_
      rw [(hsame2 s (hmem s hs)).master] at hm
      rw [(hsame2 s (hmem s hs)).slaves]
      exact h.role hb s hs hm hne
  cases hdata : hdr.data with
  | ping gossip =>
    exact hbeat _ (Calm.processPing hw1 hname hlink1 sender hdr false gossip)
      (by rw [hdata]; rfl) .ping gossip
  | meet gossip =>
    exact hbeat _ (Calm.processPing hw1 hname hlink1 sender hdr true gossip)
      (by rw [hdata]; rfl) .meet gossip
  | pong gossip => exact hbeat st1 (.refl st1) (by rw [hdata]; rfl) .pong gossip
  | fail nodename =>
    dsimp only
    split
    · exact h1.trans (Calm.processFail env st1 nodename).steps
    · exact h1
  | publish => exact h1
  | failoverAuthRequest =>
    cases sender with
    | none => exact h1
    | some s => exact h1.trans (Steps.sendFailoverAuthIfNeeded env st1 s hdr)
  | failoverAuthAck =>
    cases sender with
    | none => exact h1
    | some s => exact h1.trans (Calm.processAck st1 s currentEpoch).steps
  | update e' nodename slots =>
    dsimp only
    split
    · next hs =>
      obtain ⟨s, hs⟩ := Option.isSome_iff_exists.mp hs
      refine h1.trans (Steps.processUpdate nodename (hok.update e' nodename slots hdata)
        (hepochs.imp_right fun h => ?_))
      rw [hcalm.currentEpoch]
      exact (h.update e' nodename slots hdata).trans (hcur s hs (h.handshake s hs))
    · exact h1
  | mfstart =>
    cases hs : sender with
    | none => exact h1
    | some s => exact h1.trans (Steps.processMFStart env (hmem1 s hs))
  | unknown => exact h1

end Redis.Bus
