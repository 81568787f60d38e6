import Redis.Bus.Wf

/-!
# Redis.Bus.Within

The functions of the cluster bus are runs of the small changes of
`Redis.Bus.Micro`: one lemma for each function, up to `clusterProcessPacket`,
`clusterCron`, `clusterBeforeSleep` and `clusterCommand`.
-/

namespace Redis.Bus

open List

variable {N : Type} {g : Guard N} {st st' : State N}
variable {msg : Msg N} {sender n s : Ptr} {j : Nat} {env : Env N}

/-! ## Sending -/

theorem honest_clusterBuildMessageHdr (env : Env N) (st : State N) {data : MsgData N}
    (hack : data ≠ .failoverAuthAck)
    (hupdate : ∀ e name slots, data = .update e name slots →
      ∃ j n, st.slots j = some n ∧ (st.node n).configEpoch = e) :
    Honest st (clusterBuildMessageHdr env st data) := by
  refine ⟨rfl, rfl, ?_, hupdate, hack⟩
  unfold clusterBuildMessageHdr
  dsimp only
  split
  · cases hm : st.me.slaveof with
    | none => exact .inl rfl
    | some m => exact .inr ⟨m, rfl, rfl⟩
  · exact .inl rfl

variable [LinearOrder N]

namespace Calm

theorem todoSave (st : State N) : Calm g st (todoSave st) := of_soft { Soft.refl st with }

theorem todoState (st : State N) : Calm g st (todoState st) := of_soft { Soft.refl st with }

theorem todoFsync (st : State N) : Calm g st (todoFsync st) := of_soft { Soft.refl st with }

/-- A record is changed in what nothing depends on. -/
theorem modNode (st : State N) (p : Ptr) {f : Node N → Node N} (h : ∀ x, SoftNode x (f x)) :
    Calm g st (st.modNode p f) :=
  of_soft (Soft.modNode st p h)

theorem assert (st : State N) (b : Bool) {a : Assertion} (h1 : a ≠ .delSlot)
    (h2 : a ≠ .setMasterSelf) (h3 : a ≠ .setMasterSlots) : Calm g st (st.assert b a) := by
  have hm := Micro.assert (g := g) st b a h1 h2 h3
  rw [State.assert_eq] at hm ⊢
  exact of_run (.of_micro hm rfl rfl rfl) rfl rfl (fun _ => ⟨rfl, rfl, rfl, rfl, rfl, rfl⟩) rfl
    fun _ => rfl

theorem send (h : Honest st msg) (p : Option Ptr) : Calm g st (clusterSendMessage st p msg) :=
  of_run (.of_micro (.send st p msg h) rfl rfl rfl) rfl rfl
    (fun _ => ⟨rfl, rfl, rfl, rfl, rfl, rfl⟩) rfl fun _ => rfl

/-- A node is created and added. -/
theorem create (ht : TableInv st) (now : Int) {name : N} (hname : g.names name) {f : NodeFlags}
    (h1 : f.myself = false) (h2 : f.master = false) (h3 : f.slave = false) :
    Calm g st (clusterAddNode (createClusterNode st now name f).1 st.next) := by
  have hm := Micro.create st now name f hname h1 h2 h3
  rw [ht.create_eq] at hm ⊢
  have hold : ∀ p, p < st.next →
      Function.update st.node st.next (newNode now name f) p = st.node p :=
    fun p hp => Function.update_of_ne (Nat.ne_of_lt hp) _ _
  refine ⟨⟨.single hm, ?_, rfl, rfl⟩, rfl, Nat.le_succ _, fun p hp => ?_, fun name' hnot hnone => ?_⟩
  · intro p hp
    dsimp only
    split
    · exact hp
    · exact mem_append_left _ hp
  · simp only [hold p hp]
    exact ⟨rfl, rfl, rfl, rfl, rfl, rfl⟩
  · refine find?_eq_none.mpr fun p hp => ?_
    have hp : p ∈ st.nodes ∨ p = st.next := by
      dsimp only at hp
      split at hp
      · exact .inl hp
      · simpa using hp
    rcases hp with hp | rfl
    · simp only [hold p (ht.next p hp)]
      simpa using clusterLookupNode_none hnone hp
    · have hne : name ≠ name' := fun heq => hnot (heq ▸ hname)
      simpa [newNode] using hne

theorem failureReport (st : State N) (now : Int) (failing : Ptr) (h : sender ∈ st.nodes) :
    Calm g st (clusterNodeAddFailureReport st now failing sender) := by
  refine of_run (.of_micro (.failureReport st now failing sender h) rfl rfl rfl) rfl rfl
    (fun p => ?_) rfl fun p => ?_
  · simp only [clusterNodeAddFailureReport, State.modNode_node]
    split
    · exact ⟨rfl, rfl, rfl, rfl, rfl, rfl⟩
    · exact ⟨rfl, rfl, rfl, rfl, rfl, rfl⟩
  · simp only [clusterNodeAddFailureReport, State.modNode_node]
    split
    · rfl
    · rfl

end Calm

theorem Calm.broadcastMessage (h : Honest st msg) : Calm g st (clusterBroadcastMessage st msg) := by
  unfold clusterBroadcastMessage
  generalize st.nodes.filter _ = ps
  induction ps generalizing st with
  | nil => exact refl st
  | cons p ps ih => exact (send h (some p)).trans (ih { h with })

theorem Calm.sendPing (env : Env N) (st : State N) (p : Option Ptr) (type : PingType) :
    Calm g st (clusterSendPing env st p type) := by
  unfold clusterSendPing
  extract_lets st1 gossip data
  have h1 : Calm g st st1 := by
    unfold st1
    split
    · split
      · exact modNode st _ fun _ => .rest (.refl _)
      · exact refl st
    · exact refl st
  refine h1.trans (send (honest_clusterBuildMessageHdr env st1 ?_ ?_) p)
  · unfold data
    cases type with
    | ping => simp
    | pong => simp
    | meet => simp
  · intro e name slots hdata
    unfold data at hdata
    cases type with
    | ping => simp at hdata
    | pong => simp at hdata
    | meet => simp at hdata

theorem Calm.broadcastPong (env : Env N) (st : State N) (localSlaves : Bool) :
    Calm g st (clusterBroadcastPong env st localSlaves) :=
  foldl fun st' _ p _ => sendPing env st' (some p) .pong

theorem Calm.sendFail (env : Env N) (st : State N) (nodename : N) :
    Calm g st (clusterSendFail env st nodename) :=
  broadcastMessage (honest_clusterBuildMessageHdr env st (by simp) fun _ _ _ h => by simp at h)

theorem Calm.sendIfLink (h : Honest st msg) (p : Ptr) : Calm g st (clusterSendIfLink st p msg) := by
  unfold clusterSendIfLink
  split
  · exact send h (some p)
  · exact refl st

theorem Calm.sendUpdate (env : Env N) (st : State N) (p n : Ptr) (hj : st.slots j = some n) :
    Calm g st (clusterSendUpdate env st p n) := by
  refine sendIfLink (honest_clusterBuildMessageHdr env st (by simp) fun e name slots h => ?_) p
  injection h with he
  exact ⟨j, n, hj, he⟩

theorem Calm.requestFailoverAuth (env : Env N) (st : State N) :
    Calm g st (clusterRequestFailoverAuth env st) := by
  have h : Honest st (clusterBuildMessageHdr env st .failoverAuthRequest) :=
    honest_clusterBuildMessageHdr env st (by simp) fun _ _ _ h => by simp at h
  exact broadcastMessage { h with }

theorem Calm.sendMFStart (env : Env N) (st : State N) (p : Ptr) :
    Calm g st (clusterSendMFStart env st p) :=
  sendIfLink (honest_clusterBuildMessageHdr env st (by simp) fun _ _ _ h => by simp at h) p

/-! ## Failure detection -/

omit [LinearOrder N] in
theorem Soft.cleanupFailureReports (env : Env N) (st : State N) (n : Ptr) :
    Soft st (clusterNodeCleanupFailureReports st env n) :=
  modNode st n fun _ => .rest (List.Sublist.map _ filter_sublist)

omit [LinearOrder N] in
theorem Soft.delFailureReport (env : Env N) (st : State N) (n sender : Ptr) :
    Soft st (clusterNodeDelFailureReport st env n sender) := by
  unfold clusterNodeDelFailureReport
  split
  · refine trans ?_ (cleanupFailureReports env _ n)
    exact modNode st n fun _ => .rest (List.Sublist.map _ eraseP_sublist)
  · exact refl st

theorem Calm.markNodeAsFailingIfNeeded (env : Env N) (st : State N) (n : Ptr) :
    Calm g st (markNodeAsFailingIfNeeded env st n) := by
  unfold Bus.markNodeAsFailingIfNeeded
  split
  · exact refl st
  · extract_lets st1 failures st2 st3
    have h1 : Calm g st st1 := of_soft (Soft.cleanupFailureReports env st n)
    have h2 : Calm g st1 st2 :=
      modNode st1 n fun _ => .rest (.refl _)
    have h3 : Calm g st2 st3 := by
      unfold st3
      split
      · exact sendFail env st2 _
      · exact refl st2
    split
    · exact h1
    · exact (((h1.trans h2).trans h3).trans (todoSave _)).trans (todoState _)

theorem Calm.clearNodeFailureIfNeeded (env : Env N) (st : State N) (n : Ptr) :
    Calm g st (clearNodeFailureIfNeeded env st n) := by
  unfold Bus.clearNodeFailureIfNeeded
  extract_lets st1 clear st2
  have hclear : ∀ st : State N, Calm g st (clear st) := by
    intro st
    refine trans (trans ?_ (todoSave _)) (todoState _)
    exact modNode st n fun _ => .rest (.refl _)
  have h1 : Calm g st st1 := assert st _ (by simp) (by simp) (by simp)
  have h2 : Calm g st1 st2 := by
    unfold st2
    split
    · exact hclear st1
    · exact refl st1
  refine (h1.trans h2).trans ?_
  split
  · exact hclear st2
  · exact refl st2

/-! ## Gossip -/

/-- The address of a node can be set before or after it is added. -/
theorem clusterAddNode_modNode (st : State N) (p q : Ptr) {f : Node N → Node N}
    (hf : ∀ x, (f x).name = x.name) :
    clusterAddNode (st.modNode p f) q = (clusterAddNode st q).modNode p f := by
  have hname : ∀ r, ((st.modNode p f).node r).name = (st.node r).name := by
    intro r
    rw [State.modNode_node]
    split
    · exact hf _
    · rfl
  have hlookup : clusterLookupNode (st.modNode p f) (st.node q).name =
      clusterLookupNode st (st.node q).name :=
    clusterLookupNode_congr rfl fun r _ => hname r
  unfold clusterAddNode
  rw [hname, hlookup]
  cases clusterLookupNode st (st.node q).name with
  | none => rfl
  | some r => rfl

theorem Calm.createAt (hw : Wf st) (now : Int) {name : N} (hname : g.names name) {f : NodeFlags}
    (h1 : f.myself = false) (h2 : f.master = false) (h3 : f.slave = false) (ip : CString)
    (port : Nat) :
    Calm g st (clusterAddNode ((createClusterNode st now name f).1.modNode st.next fun x =>
      { x with ip, port }) st.next) := by
  have hcomm := clusterAddNode_modNode (createClusterNode st now name f).1 st.next st.next
    (f := fun x => { x with ip, port }) fun _ => rfl
  rw [hcomm]
  refine (create hw.table now hname h1 h2 h3).trans ?_
  exact modNode _ _ fun _ => .rest (.refl _)

theorem Calm.startHandshake (hw : Wf st) (hname : ∀ p, g.names (env.newName p)) (ip : CString)
    (port : Int) : Calm g st (clusterStartHandshake env st ip port).1 := by
  unfold clusterStartHandshake
  split
  · exact refl st
  · next normIp _ =>
    split
    · exact refl st
    · split
      · exact refl st
      · exact createAt hw env.now (hname _) rfl rfl rfl normIp port.toNat

theorem Calm.processGossip (hw : Wf st) (hname : ∀ p, g.names (env.newName p))
    {sender : Option Ptr} (h : ∀ s, sender = some s → s ∈ st.nodes) (e : Gossip N) :
    Calm g st (processGossip env sender st e) := by
  unfold Bus.processGossip
  split
  · next node _ =>
    extract_lets st1
    have h1 : Calm g st st1 := by
      unfold st1
      split
      · next s =>
        split
        · split
          · exact (failureReport st env.now node (h s rfl)).trans
              (markNodeAsFailingIfNeeded env _ node)
          · exact of_soft (Soft.delFailureReport env st node s)
        · exact refl st
      · exact refl st
    split
    · exact h1.trans (startHandshake (hw.steps h1.steps) hname e.ip e.port)
    · exact h1
  · split
    · extract_lets st1
      have h1 : Calm g st st1 := of_soft { Soft.refl st with }
      split
      · exact h1
      · exact h1.trans (startHandshake (hw.steps h1.steps) hname e.ip e.port)
    · exact refl st

variable {link : Option Ptr} {slots : SlotBitmap}

theorem Calm.gossipSection (hw : Wf st) (hname : ∀ p, g.names (env.newName p))
    (h : ∀ l, link = some l → l ∈ st.nodes) (hdr : Msg N) (gossip : List (Gossip N)) :
    Calm g st (clusterProcessGossipSection env st link hdr gossip) := by
  unfold clusterProcessGossipSection
  extract_lets sender
  have hsender : ∀ s, sender = some s → s ∈ st.nodes := by
    intro s hs
    unfold sender at hs
    cases link with
    | some l =>
      injection hs with hs
      exact h s (congrArg some hs)
    | none => exact (clusterLookupNode_some hs).1
  exact foldl fun st' h' e _ =>
    processGossip (hw.steps h'.steps) hname (fun s hs => h'.nodes (hsender s hs)) e

/-! ## Addresses -/

theorem Calm.nodeUpdateAddressIfNeeded (env : Env N) (st : State N) (n : Ptr) (link : Option Ptr)
    (port : Nat) : Calm g st (nodeUpdateAddressIfNeeded env st n link port) := by
  unfold Bus.nodeUpdateAddressIfNeeded
  split
  · exact refl st
  · split
    · exact refl st
    · refine trans (trans ?_ (todoSave _)) (todoState _)
      exact modNode st n fun _ => .rest (.refl _)

theorem Calm.updateMyIp (env : Env N) (st : State N) (isMeet : Bool) :
    Calm g st (updateMyIp env st isMeet) := by
  unfold Bus.updateMyIp
  split
  · split
    · split
      · refine trans ?_ (todoSave _)
        exact modNode st _ fun _ => .rest (.refl _)
      · exact refl st
    · exact refl st
  · exact refl st

theorem Calm.processPing (hw : Wf st) (hname : ∀ p, g.names (env.newName p))
    (h : ∀ l, link = some l → l ∈ st.nodes) (sender : Option Ptr) (hdr : Msg N) (isMeet : Bool)
    (gossip : List (Gossip N)) : Calm g st (processPing env st link sender hdr isMeet gossip) := by
  unfold Bus.processPing
  extract_lets st1 st2
  have h1 : Calm g st st1 := updateMyIp env st isMeet
  have h2 : Calm g st1 st2 := by
    unfold st2
    split
    · have hadd : Calm g st1 (Bus.todoSave (clusterAddNode ((createClusterNode st1 env.now
          (env.newName st1.next) { handshake := true }).1.modNode st1.next fun x =>
          { x with ip := env.peerIp, port := hdr.port }) st1.next)) :=
        (createAt (hw.steps h1.steps) env.now (hname _) rfl rfl rfl env.peerIp hdr.port).trans
          (todoSave _)
      exact hadd.trans (gossipSection (hw.steps (h1.trans hadd).steps) hname
        (fun l hl => hadd.nodes (h1.nodes (h l hl))) hdr gossip)
    · exact refl st1
  exact (h1.trans h2).trans (sendPing env st2 link .pong)

theorem Calm.processPong (env : Env N) (st : State N) (l : Ptr) :
    Calm g st (processPong env st l) := by
  unfold Bus.processPong
  extract_lets st1
  have h1 : Calm g st st1 :=
    modNode st l fun _ => .rest (.refl _)
  refine h1.trans ?_
  split
  · refine trans (trans ?_ (todoSave _)) (todoState _)
    exact modNode st1 l fun _ => .rest (.refl _)
  · split
    · exact clearNodeFailureIfNeeded env st1 l
    · exact refl st1

theorem Calm.processFail (env : Env N) (st : State N) (nodename : N) :
    Calm g st (processFail env st nodename) := by
  unfold Bus.processFail
  split
  · exact refl st
  · split
    · exact refl st
    · refine trans (trans ?_ (todoSave _)) (todoState _)
      exact modNode st _ fun _ => .rest (.refl _)

/-! ## Slots -/

theorem Run.todo (st : State N) : Run g st (todoFsync (todoState (todoSave st))) :=
  of_soft { Soft.refl st with }

theorem Run.delSlot (st : State N) (j : Nat) : Run g st (clusterDelSlot st j) :=
  of_micro (.delSlot st j) (Frame.delSlot st j).nodes (Frame.delSlot st j).myself
    (clusterDelSlot_currentEpoch st j)

theorem Run.addSlot (hn : n ∈ st.nodes) (hj : j < clusterSlots)
    (h : n ≠ st.myself ∨ st.me.flags.slave = false ∨ g.slaveSlots) :
    Run g st (clusterAddSlot st n j) :=
  of_micro (.addSlot st n j hn hj h) (Frame.addSlot st n j).nodes (Frame.addSlot st n j).myself
    (clusterAddSlot_currentEpoch st n j)

theorem Run.moveSlot (hn : n ∈ st.nodes) (hj : j < clusterSlots)
    (h : n ≠ st.myself ∨ st.me.flags.slave = false ∨ g.slaveSlots) :
    Run g st (clusterAddSlot (clusterDelSlot st j) n j) := by
  have hf := Frame.delSlot st j
  refine (delSlot st j).trans (addSlot ?_ hj ?_)
  · rw [hf.nodes]
    exact hn
  · rw [hf.myself, hf.me_flags]
    exact h

omit [LinearOrder N] in
theorem rebindSlot_fst (sender : Ptr) (epoch : Nat) (cur : Option Ptr) (st : State N) (b : Bool)
    (j : Nat) :
    (rebindSlot sender epoch cur (st, b) j).1 = st ∨
      (rebindSlot sender epoch cur (st, b) j).1 =
        todoFsync (todoState (todoSave (clusterAddSlot (clusterDelSlot st j) sender j))) := by
  unfold rebindSlot
  dsimp only
  split
  · exact .inl rfl
  · split
    · exact .inr rfl
    · exact .inl rfl

theorem Run.rebindSlots (hs : sender ∈ st.nodes) (hne : sender ≠ st.myself) (epoch : Nat)
    (cur : Option Ptr) (hslots : ∀ j ∈ slots, j < clusterSlots) (b : Bool) :
    Run g st (slots.foldl (rebindSlot sender epoch cur) (st, b)).1 ∧
      Frame st (slots.foldl (rebindSlot sender epoch cur) (st, b)).1 := by
  induction slots generalizing st b with
  | nil => exact ⟨.refl st, Frame.refl st⟩
  | cons j slots ih =>
    rw [foldl_cons]
    have hj := hslots j mem_cons_self
    have hone : Run g st (rebindSlot sender epoch cur (st, b) j).1 ∧
        Frame st (rebindSlot sender epoch cur (st, b) j).1 := by
      rcases rebindSlot_fst sender epoch cur st b j with h | h
      · rw [h]
        exact ⟨.refl st, Frame.refl st⟩
      · rw [h]
        have hmove : Run g st (clusterAddSlot (clusterDelSlot st j) sender j) :=
          moveSlot hs hj (.inl hne)
        exact ⟨hmove.trans (todo _), (Frame.moveSlot st sender j).trans (Frame.todo _)⟩
    obtain ⟨hrun, hframe⟩ := hone
    set acc := rebindSlot sender epoch cur (st, b) j
    have hne' : sender ≠ acc.1.myself := by rwa [hrun.myself]
    obtain ⟨ih1, ih2⟩ := ih (hrun.nodes hs) hne'
      (fun i hi => hslots i (mem_cons_of_mem j hi)) acc.2
    exact ⟨hrun.trans ih1, hframe.trans ih2⟩

theorem Run.setMaster (hn : n ∈ st.nodes)
    (h : (n ≠ st.myself ∧ (st.me.flags.master = true → st.me.numslots = 0)) ∨
      (st.me.slaveof ≠ none ∧ (st.node n).flags.slave = false)) :
    Run g st (clusterSetMaster st n) :=
  of_micro (.setMaster st n hn h) (Links.setMaster st n).nodes (Links.setMaster st n).myself
    (Links.setMaster st n).currentEpoch

theorem Run.updateSlotsConfigWith (hs : sender ∈ st.nodes) (epoch : Nat)
    (hslots : ∀ j ∈ slots, j < clusterSlots) :
    Run g st (clusterUpdateSlotsConfigWith st sender epoch slots) := by
  unfold clusterUpdateSlotsConfigWith
  extract_lets cur
  split
  · exact refl st
  · next hne =>
    obtain ⟨hrun, hframe⟩ := rebindSlots (g := g) hs hne epoch cur hslots false
    generalize slots.foldl (rebindSlot sender epoch cur) (st, false) = acc at hrun hframe
    obtain ⟨st1, newmaster⟩ := acc
    dsimp only at hrun hframe ⊢
    refine hrun.trans ?_
    cases newmaster with
    | false => exact refl st1
    | true =>
      simp only [if_true]
      cases hcur : cur with
      | none => exact (Calm.assert st1 _ (by simp) (by simp) (by simp)).toRun
      | some m =>
        dsimp only
        split
        · next hnum =>
          refine trans ?_ (todo _)
          refine setMaster (hrun.nodes hs) (.inl ⟨by rwa [hrun.myself], fun hm => ?_⟩)
          -- a master is its own `curmaster`, whose last slot was taken
          rw [hframe.me_flags] at hm
          have hself : cur = some st.myself := if_pos hm
          rw [hcur] at hself
          injection hself with hself
          rw [State.me, hrun.myself, ← hself]
          exact hnum
        · exact refl st1

/-! ## Roles -/

omit [LinearOrder N] in
theorem Frame.delSlots (st : State N) (js : List Nat) : Frame st (js.foldl clusterDelSlot st) := by
  induction js generalizing st with
  | nil => exact refl st
  | cons j js ih => exact (delSlot st j).trans (ih _)

omit [LinearOrder N] in
theorem delSlots_bits (st : State N) (js : List Nat) (p : Ptr) :
    ((js.foldl clusterDelSlot st).node p).slots ⊆ (st.node p).slots := by
  induction js generalizing st with
  | nil => exact fun _ h => h
  | cons j js ih => exact fun i hi => clusterDelSlot_bits st j p (ih _ hi)

omit [LinearOrder N] in
theorem delSlots_slots (st : State N) (js : List Nat) :
    ∀ j ∈ js, (js.foldl clusterDelSlot st).slots j = none := by
  refine foldl_establish (f := clusterDelSlot) (I := fun _ => True)
    (P := fun st j => st.slots j = none) (fun _ _ _ => trivial) ?_ ?_ js trivial
  · intro st j _
    rw [clusterDelSlot_slots, if_pos rfl]
  · intro st j i _ hi
    rw [clusterDelSlot_slots, hi, ite_self]

theorem Run.delSlots (st : State N) (js : List Nat) : Run g st (js.foldl clusterDelSlot st) :=
  foldl fun st' _ j _ => delSlot st' j

theorem delNodeSlots_numslots (hw : Wf st) (hn : n ∈ st.nodes) :
    ((clusterDelNodeSlots st n).node n).numslots = 0 := by
  unfold clusterDelNodeSlots
  have hrun : Run Guard.none st _ := Run.delSlots st (st.node n).slots
  have hslots := (hw.steps hrun.steps).slots
  have hmem := hrun.nodes hn
  have hgone := delSlots_slots st (st.node n).slots
  have hsub := delSlots_bits st (st.node n).slots n
  rw [hslots.numslots n hmem, length_eq_zero_iff]
  refine eq_nil_iff_forall_not_mem.mpr fun j hj => ?_
  have howner := (hslots.owner j n).mpr ⟨hmem, hj⟩
  rw [hgone j (hsub hj)] at howner
  cases howner

theorem Run.demoteNode (hw : Wf st) (hs : s ∈ st.nodes) (hm : (st.node s).flags.master = true)
    (h : g.links ∨ (st.node s).slaves = []) : Run g st (demoteNode st s) := by
  unfold Bus.demoteNode
  extract_lets st1 st2
  have h1 : Run g st st1 := delSlots st (st.node s).slots
  have hf : Frame st st1 := Frame.delSlots st (st.node s).slots
  have hnum : (st1.node s).numslots = 0 := delNodeSlots_numslots hw hs
  have h2 : Run g st1 (clusterNodeResetSlaves st2 s) := by
    have hl := Links.demote st1 s
    refine of_micro (.demote st1 s (h1.nodes hs) ?_ hnum ?_) hl.nodes hl.myself hl.currentEpoch
    · rw [(hf.node s).flags]
      exact hm
    · rw [(hf.node s).slaves]
      exact h
  exact (h1.trans h2).trans (of_soft { Soft.refl _ with })

theorem Run.setNodeAsMaster (hn : n ∈ st.nodes) : Run g st (clusterSetNodeAsMaster st n) :=
  of_micro (.setNodeAsMaster st n hn) (Links.setNodeAsMaster st n).nodes
    (Links.setNodeAsMaster st n).myself (Links.setNodeAsMaster st n).currentEpoch

theorem Run.changeMaster {m : Ptr} (hs : s ∈ st.nodes) (hm : m ∈ st.nodes)
    (h : (st.node s).flags.master = false) : Run g st (changeMaster st s m) :=
  of_micro (.changeMaster st s m hs hm h) (Links.changeMaster st s m).nodes
    (Links.changeMaster st s m).myself (Links.changeMaster st s m).currentEpoch

/-- The check for a role switch; a master that turned into a slave leaves its
slaves behind. -/
theorem Run.processRole (hw : Wf st) (hs : s ∈ st.nodes) (hdr : Msg N)
    (h : g.links ∨ ((st.node s).flags.master = true → hdr.slaveof ≠ none → (st.node s).slaves = [])) :
    Run g st (processRole st s hdr) := by
  unfold Bus.processRole
  split
  · exact setNodeAsMaster hs
  · next name hslaveof =>
    extract_lets master st1
    have h1 : Run g st st1 ∧ (st1.node s).flags.master = false := by
      unfold st1
      cases hm : (st.node s).flags.master with
      | false => exact ⟨refl st, hm⟩
      | true =>
        have hne : hdr.slaveof ≠ none := by simp [hslaveof]
        refine ⟨demoteNode hw hs hm (h.imp_right fun h' => h' hm hne), ?_⟩
        simp [Bus.demoteNode, todoState, todoSave, clusterNodeResetSlaves]
    cases hmaster : master with
    | none => exact h1.1
    | some m =>
      have hmem : m ∈ st.nodes := (clusterLookupNode_some hmaster).1
      dsimp only
      split
      · exact h1.1.trans (changeMaster (h1.1.nodes hs) (h1.1.nodes hmem) h1.2)
      · exact h1.1

/-! ## Deleting a node -/

/-- A small change that keeps the nodes table, the roles and the links. -/
theorem Calm.of_frame (hm : Micro g st st') (hf : Frame st st')
    (he : st'.currentEpoch = st.currentEpoch) : Calm g st st' := by
  refine of_run (.of_micro hm hf.nodes hf.myself he) hf.mfSlave hf.next (fun p => ?_) hf.nodes
    fun p => (hf.node p).name
  have h := hf.node p
  exact ⟨h.ctime, by rw [h.flags], by rw [h.flags], by rw [h.flags], h.slaves, h.slaveof⟩

theorem Calm.delSlot (st : State N) (j : Nat) : Calm g st (clusterDelSlot st j) :=
  of_frame (.delSlot st j) (Frame.delSlot st j) (clusterDelSlot_currentEpoch st j)

theorem Calm.openSlots (mig imp : Nat → Option Ptr)
    (hmig : ∀ j n, mig j = some n →
      (j < clusterSlots ∧ n ∈ st.nodes) ∨ st.migratingSlotsTo j = some n)
    (himp : ∀ j n, imp j = some n →
      (j < clusterSlots ∧ n ∈ st.nodes) ∨ st.importingSlotsFrom j = some n) :
    Calm g st { st with migratingSlotsTo := mig, importingSlotsFrom := imp } :=
  of_run (.of_micro (.openSlots st mig imp hmig himp) rfl rfl rfl) rfl rfl
    (fun _ => ⟨rfl, rfl, rfl, rfl, rfl, rfl⟩) rfl fun _ => rfl

/-- The importing mark of a slot is cleared, or set to a node of the table. -/
theorem Calm.setImporting (j : Nat) {n : Option Ptr}
    (h : ∀ p, n = some p → j < clusterSlots ∧ p ∈ st.nodes) :
    Calm g st { st with importingSlotsFrom := Function.update st.importingSlotsFrom j n } := by
  refine openSlots st.migratingSlotsTo _ (fun _ _ hi => .inr hi) fun i p hi => ?_
  rw [Function.update_apply] at hi
  split at hi
  · next hij => exact .inl (hij ▸ h p hi)
  · exact .inr hi

/-- The migrating mark of a slot is cleared, or set to a node of the table. -/
theorem Calm.setMigrating (j : Nat) {n : Option Ptr}
    (h : ∀ p, n = some p → j < clusterSlots ∧ p ∈ st.nodes) :
    Calm g st { st with migratingSlotsTo := Function.update st.migratingSlotsTo j n } := by
  refine openSlots _ st.importingSlotsFrom (fun i p hi => ?_) fun _ _ hi => .inr hi
  rw [Function.update_apply] at hi
  split at hi
  · next hij => exact .inl (hij ▸ h p hi)
  · exact .inr hi

theorem Tidy.calm (h : Tidy st n) (hc : Calm g st st') (hn : n < st.next) : Tidy st' n := by
  have hr := hc.node n hn
  refine ⟨?_, ?_, ?_⟩
  · rw [hc.mfSlave]
    exact h.mfSlave
  · rw [hr.slaves, hr.master]
    exact h.slaves
  · rw [hr.slaveof, hr.slave]
    exact h.slaveof

theorem Calm.delNodeSlot (n : Ptr) (st : State N) (j : Nat) :
    Calm g st (clusterDelNodeSlot n st j) := by
  unfold clusterDelNodeSlot
  extract_lets st1 st2
  have h1 : Calm g st st1 := by
    unfold st1
    split
    · exact setImporting j fun p hp => by cases hp
    · exact refl st
  have h2 : Calm g st1 st2 := by
    unfold st2
    split
    · exact setMigrating j fun p hp => by cases hp
    · exact refl st1
  refine (h1.trans h2).trans ?_
  split
  · exact delSlot st2 j
  · exact refl st2

omit [LinearOrder N] in
theorem Soft.foldl {α : Type} {f : State N → α → State N} (h : ∀ st x, Soft st (f st x))
    {xs : List α} : Soft st (xs.foldl f st) := by
  induction xs generalizing st with
  | nil => exact refl st
  | cons x xs ih => exact (h st x).trans ih

/-- Slot `j` says nothing of the node `n`. -/
def SlotClear (n : Ptr) (st : State N) (j : Nat) : Prop :=
  st.slots j ≠ some n ∧ st.migratingSlotsTo j ≠ some n ∧ st.importingSlotsFrom j ≠ some n

omit [LinearOrder N] in
theorem slotClear_delNodeSlot (n : Ptr) (st : State N) (j i : Nat)
    (h : i ≠ j → SlotClear n st i) : SlotClear n (clusterDelNodeSlot n st j) i := by
  unfold clusterDelNodeSlot
  extract_lets st1 st2
  have himp : st2.importingSlotsFrom i ≠ some n := by
    have hst2 : st2.importingSlotsFrom = st1.importingSlotsFrom := by
      unfold st2
      split
      · rfl
      · rfl
    rw [hst2]
    unfold st1
    by_cases hij : i = j
    · subst hij
      split
      · simp
      · assumption
    · split
      · simpa [hij] using (h hij).2.2
      · exact (h hij).2.2
  have hst1 : st1.migratingSlotsTo = st.migratingSlotsTo := by
    unfold st1
    split
    · rfl
    · rfl
  have hmig : st2.migratingSlotsTo i ≠ some n := by
    unfold st2
    by_cases hij : i = j
    · subst hij
      split
      · simp
      · assumption
    · have hi := (h hij).2.1
      rw [← hst1] at hi
      split
      · simpa [hij] using hi
      · exact hi
  have hslots : st2.slots = st.slots := by
    have hst1 : st1.slots = st.slots := by
      unfold st1
      split
      · rfl
      · rfl
    unfold st2
    split
    · exact hst1
    · exact hst1
  have hf := Frame.delSlot st2 j
  split
  · refine ⟨?_, ?_, ?_⟩
    · rw [clusterDelSlot_slots, hslots]
      split
      · simp
      · next hij => exact (h hij).1
    · rw [hf.migratingSlotsTo]
      exact hmig
    · rw [hf.importingSlotsFrom]
      exact himp
  · next hj =>
    refine ⟨?_, hmig, himp⟩
    by_cases hij : i = j
    · rw [hij]
      exact hj
    · rw [hslots]
      exact (h hij).1

omit [LinearOrder N] in
theorem delFailureReport_sublist (env : Env N) (st : State N) (p n q : Ptr) :
    (((clusterNodeDelFailureReport st env p n).node q).failReports.map FailReport.node).Sublist
      ((st.node q).failReports.map FailReport.node) := by
  unfold clusterNodeDelFailureReport clusterNodeCleanupFailureReports
  split
  · simp only [State.modNode_node]
    split
    · exact List.Sublist.map _ (filter_sublist.trans eraseP_sublist)
    · exact Sublist.refl _
  · exact Sublist.refl _

omit [LinearOrder N] in
/-- A node reports a failure once, so that deleting its report leaves none. -/
theorem not_mem_delFailureReport (env : Env N) (st : State N) (p n : Ptr)
    (h : ((st.node p).failReports.map FailReport.node).Nodup) :
    n ∉ ((clusterNodeDelFailureReport st env p n).node p).failReports.map FailReport.node := by
  unfold clusterNodeDelFailureReport clusterNodeCleanupFailureReports
  split
  · simp only [State.modNode_node, if_true]
    intro hn
    have hn := (List.Sublist.map FailReport.node filter_sublist).subset hn
    clear * - h hn
    generalize (st.node p).failReports = frs at h hn
    induction frs with
    | nil => simp at hn
    | cons fr frs ih =>
      rw [map_cons, nodup_cons] at h
      by_cases hfr : fr.node = n
      · rw [eraseP_cons_of_pos (by simp [hfr])] at hn
        exact h.1 (hfr ▸ hn)
      · rw [eraseP_cons_of_neg (by simp [hfr]), map_cons, mem_cons] at hn
        rcases hn with hn | hn
        · exact hfr hn.symm
        · exact ih h.2 hn
  · next hany =>
    intro hn
    obtain ⟨fr, hfr, heq⟩ := mem_map.mp hn
    exact hany (any_eq_true.mpr ⟨fr, hfr, by simp [heq]⟩)

omit [LinearOrder N] in
theorem not_mem_delFailureReports (env : Env N) (ps : List Ptr) (n : Ptr)
    (h : ∀ q, ((st.node q).failReports.map FailReport.node).Nodup) :
    ∀ p ∈ ps, n ∉ ((ps.foldl (fun st p => clusterNodeDelFailureReport st env p n) st).node
      p).failReports.map FailReport.node :=
  foldl_establish (f := fun s p => clusterNodeDelFailureReport s env p n)
    (I := fun s : State N => ∀ q, ((s.node q).failReports.map FailReport.node).Nodup)
    (P := fun s p => n ∉ (s.node p).failReports.map FailReport.node)
    (fun s p hs q => (hs q).sublist (delFailureReport_sublist env s p n q))
    (fun s p hs => not_mem_delFailureReport env s p n (hs p))
    (fun s p q _ hq hmem => hq ((delFailureReport_sublist env s p n q).subset hmem)) ps h

omit [LinearOrder N] in
theorem slotClear_delNodeSlots (st : State N) (n : Ptr) :
    ∀ j ∈ range clusterSlots,
      SlotClear n ((range clusterSlots).foldl (clusterDelNodeSlot n) st) j :=
  foldl_establish (f := clusterDelNodeSlot n) (I := fun _ => True) (P := SlotClear n)
    (fun _ _ _ => trivial)
    (fun s j _ => slotClear_delNodeSlot n s j j fun hj => absurd rfl hj)
    (fun s j i _ hi => slotClear_delNodeSlot n s j i fun _ => hi) _ trivial

omit [LinearOrder N] in
theorem clusterDelNodeSlot_nodes (n : Ptr) (st : State N) (j : Nat) :
    (clusterDelNodeSlot n st j).nodes = st.nodes := by
  unfold clusterDelNodeSlot
  extract_lets st1 st2
  have h2 : st2.nodes = st.nodes := by
    unfold st2 st1
    split_ifs <;> rfl
  split
  · rw [(Frame.delSlot st2 j).nodes, h2]
  · exact h2

/-- `clusterDelNode` frees the node when neither a slot nor a failure report
speaks of it. -/
theorem clusterDelNode_eq (hw : Wf st) (env : Env N) (hn : n ∈ st.nodes) (hne : n ≠ st.myself) :
    ∃ st2, Calm g st st2 ∧ st2.nodes = st.nodes ∧ clusterDelNode env st n = freeClusterNode st2 n ∧
      (g.links ∨ Tidy st n → g.forget ∨ (st.node n).flags.handshake = true →
        Micro g st2 (freeClusterNode st2 n)) := by
  unfold clusterDelNode
  extract_lets st1 st2
  have h1 : Calm g st st1 := Calm.foldl fun st' _ j _ => Calm.delNodeSlot n st' j
  have hnodes1 : st1.nodes = st.nodes := by
    unfold st1
    generalize range clusterSlots = js
    clear * -
    induction js generalizing st with
    | nil => rfl
    | cons j js ih => exact ih.trans (clusterDelNodeSlot_nodes n st j)
  have hclear : ∀ j ∈ range clusterSlots, SlotClear n st1 j := slotClear_delNodeSlots st n
  clear_value st1
  have hs2 : Soft st1 st2 := Soft.foldl fun st' p => Soft.delFailureReport env st' p n
  have h12 := h1.trans (.of_soft hs2)
  have hw2 := hw.steps h12.steps
  refine ⟨st2, h12, hs2.nodes.trans hnodes1, rfl,
    fun h hforget => .free st2 n (h12.nodes hn) ?_ ?_ ?_ ?_ ?_⟩
  · rw [h12.myself]
    exact hne
  · intro j
    by_cases hj : j < clusterSlots
    · rw [hs2.slots, hs2.migratingSlotsTo, hs2.importingSlotsFrom]
      exact hclear j (mem_range.mpr hj)
    · exact ⟨fun hs => hj (hw2.slots.range hs), fun hs => hj (hw2.table.migrating j n hs),
        fun hs => hj (hw2.table.importing j n hs)⟩
  · intro p hp hpn
    rw [hs2.nodes] at hp
    exact not_mem_delFailureReports env _ n (hw.steps h1.steps).table.reports p
      (mem_filter.mpr ⟨hp, by simpa using hpn⟩)
  · exact h.imp_right fun ht => ht.calm h12 (hw.table.next n hn)
  · rw [(h12.node n (hw.table.next n hn)).handshake]
    exact hforget

theorem Steps.delNode (hw : Wf st) (env : Env N) (hn : n ∈ st.nodes) (hne : n ≠ st.myself)
    (h : g.links ∨ Tidy st n) (hforget : g.forget ∨ (st.node n).flags.handshake = true) :
    Steps g st (clusterDelNode env st n) := by
  obtain ⟨st2, hcalm, _, heq, hmicro⟩ := clusterDelNode_eq (g := g) hw env hn hne
  rw [heq]
  exact hcalm.steps.tail (hmicro h hforget)

/-! ## What deleting a node leaves of the others -/

/-- The record `y` has the roles of `x` and no more links. -/
structure ThinNode (x y : Node N) : Prop where
  ctime : y.ctime = x.ctime
  master : y.flags.master = x.flags.master
  slave : y.flags.slave = x.flags.slave
  handshake : y.flags.handshake = x.flags.handshake
  slaves : y.slaves ≠ [] → x.slaves ≠ []
  slaveof : y.slaveof ≠ none → x.slaveof ≠ none

/-- The nodes keep their roles and get no links. -/
structure Thin (st st' : State N) : Prop where
  myself : st'.myself = st.myself
  currentEpoch : st'.currentEpoch = st.currentEpoch
  mfSlave : st'.mfSlave = st.mfSlave
  next : st.next ≤ st'.next
  node : ∀ p, p < st.next → ThinNode (st.node p) (st'.node p)

omit [LinearOrder N] in
theorem Thin.trans {st'' : State N} (h : Thin st st') (h' : Thin st' st'') : Thin st st'' := by
  refine ⟨h'.myself.trans h.myself, h'.currentEpoch.trans h.currentEpoch,
    h'.mfSlave.trans h.mfSlave, h.next.trans h'.next, fun p hp => ?_⟩
  have h1 := h.node p hp
  have h2 := h'.node p (Nat.lt_of_lt_of_le hp h.next)
  exact ⟨h2.ctime.trans h1.ctime, h2.master.trans h1.master, h2.slave.trans h1.slave,
    h2.handshake.trans h1.handshake, fun hs => h1.slaves (h2.slaves hs),
    fun hs => h1.slaveof (h2.slaveof hs)⟩

theorem Calm.thin (h : Calm g st st') : Thin st st' := by
  refine ⟨h.myself, h.currentEpoch, h.mfSlave, h.next, fun p hp => ?_⟩
  have hr := h.node p hp
  refine ⟨hr.ctime, hr.master, hr.slave, hr.handshake, ?_, ?_⟩
  · rw [hr.slaves]
    exact fun hs => hs
  · rw [hr.slaveof]
    exact fun hs => hs

omit [LinearOrder N] in
theorem Tidy.thin (h : Tidy st n) (ht : Thin st st') (hn : n < st.next) : Tidy st' n := by
  have hr := ht.node n hn
  refine ⟨?_, fun hs => ?_, fun hs => ?_⟩
  · rw [ht.mfSlave]
    exact h.mfSlave
  · rw [hr.master]
    exact h.slaves (hr.slaves hs)
  · rw [hr.slave]
    exact h.slaveof (hr.slaveof hs)

theorem Thin.free (hw : TableInv st) (hn : n ∈ st.nodes) : Thin st (freeClusterNode st n) := by
  have hl := Links.free hw hn
  refine ⟨hl.myself, hl.currentEpoch, freeClusterNode_mfSlave st n, hl.next.ge, fun p _ => ?_⟩
  obtain ⟨link, hnode⟩ := freeClusterNode_node st n p
  refine ⟨(hl.node p).ctime, by rw [hnode], by rw [hnode], by rw [hnode], ?_, ?_⟩
  · rw [hnode]
    dsimp only
    split_ifs
    · intro hs hnil
      have hsub := slavesWithout_sublist (detached st n) n p
      rw [detached_slaves, hnil] at hsub
      exact hs (sublist_nil.mp hsub)
    · exact fun hs => hs
  · rw [hnode, detached_node]
    dsimp only
    split_ifs
    · exact fun hs => absurd rfl hs
    · exact fun hs => hs

theorem delNode_thin (hw : Wf st) (env : Env N) (hn : n ∈ st.nodes) (hne : n ≠ st.myself) :
    (clusterDelNode env st n).nodes = st.nodes.erase n ∧ Thin st (clusterDelNode env st n) := by
  obtain ⟨st2, hcalm, hnodes, heq, _⟩ := clusterDelNode_eq (g := Guard.none) hw env hn hne
  have hw2 := hw.steps hcalm.steps
  have hn2 := hcalm.nodes hn
  rw [heq]
  refine ⟨?_, hcalm.thin.trans (Thin.free hw2.table hn2)⟩
  rw [← hnodes]
  exact (Links.free hw2.table hn2).nodes

end Redis.Bus
