import Redis.Bus.Events

/-!
# Redis.Bus.Epoch

Configuration epochs in a cluster.  On every node the current epoch is at least
the configuration epoch of every node it knows, and of every packet it sends;
since packets carry both epochs, a node that takes over an epoch from a packet
takes over the current epoch with it.

A node in handshake has a random name, which no process has; that a packet does
not come from it is part of the invariant.
-/

namespace Redis.Bus

open List

variable {N : Type}
variable {e : Nat} {name : N} {p : Ptr} {ev : Event N}

/-! ## What the epochs depend on -/

/-- The record `y` has the name, the epoch and the handshake flag of `x`. -/
structure SameId (x y : Node N) : Prop where
  name : y.name = x.name
  handshake : y.flags.handshake = x.flags.handshake
  configEpoch : y.configEpoch = x.configEpoch

/-- The nodes, with their names and epochs, the epochs of the node itself and its
packets are the same. -/
structure SameIds (st st' : State N) : Prop where
  currentEpoch : st'.currentEpoch = st.currentEpoch
  failoverAuthEpoch : st'.failoverAuthEpoch = st.failoverAuthEpoch
  queued : st'.queued = st.queued
  sent : st'.sent = st.sent
  myself : st'.myself = st.myself
  next : st'.next = st.next
  nodes : st'.nodes = st.nodes
  node : ∀ p, SameId (st.node p) (st'.node p)

theorem SameId.refl (x : Node N) : SameId x x := ⟨rfl, rfl, rfl⟩

theorem SameIds.refl (st : State N) : SameIds st st :=
  ⟨rfl, rfl, rfl, rfl, rfl, rfl, rfl, fun _ => SameId.refl _⟩

variable {st st' : State N}

theorem SameIds.modNode (st : State N) (p : Ptr) {f : Node N → Node N} (h : ∀ x, SameId x (f x)) :
    SameIds st (st.modNode p f) where
  __ := SameIds.refl st
  node := by
    intro q
    rw [State.modNode_node]
    split
    · exact h _
    · exact SameId.refl _

/-- Changes of roles and links that keep the handshake flags. -/
theorem Links.sameIds (h : Links st st')
    (hh : ∀ p, (st'.node p).flags.handshake = (st.node p).flags.handshake) : SameIds st st' :=
  ⟨h.currentEpoch, h.failoverAuthEpoch, h.queued, h.sent, h.myself, h.next, h.nodes,
    fun p => ⟨(h.node p).name, hh p, (h.node p).configEpoch⟩⟩

theorem SameIds.setNodeAsMaster (st : State N) (n : Ptr) :
    SameIds st (clusterSetNodeAsMaster st n) := by
  refine (Links.setNodeAsMaster st n).sameIds fun p => ?_
  cases hm : (st.node n).flags.master with
  | true => simp [clusterSetNodeAsMaster, hm]
  | false =>
    rw [clusterSetNodeAsMaster_node hm]
    dsimp only
    split
    · rfl
    · rfl

theorem SameIds.setMaster (st : State N) (n : Ptr) : SameIds st (clusterSetMaster st n) := by
  refine (Links.setMaster st n).sameIds fun p => ?_
  rw [clusterSetMaster_node]
  dsimp only
  rw [leaveRole_node]
  dsimp only
  split
  · rfl
  · rfl

theorem Frame.sameIds (h : Frame st st') (hledger : SameLedger st st')
    (he : ∀ p, (st'.node p).configEpoch = (st.node p).configEpoch) : SameIds st st' :=
  ⟨hledger.currentEpoch, hledger.failoverAuthEpoch, hledger.queued, hledger.sent, h.myself, h.next,
    h.nodes, fun p => ⟨(h.node p).name, by rw [(h.node p).flags], he p⟩⟩

theorem clusterAddSlot_configEpoch (st : State N) (n : Ptr) (j : Nat) (p : Ptr) :
    ((clusterAddSlot st n j).node p).configEpoch = (st.node p).configEpoch := by
  unfold clusterAddSlot
  split
  · rfl
  · rw [State.modNode_node]
    split
    · rfl
    · rfl

theorem clusterDelSlot_configEpoch (st : State N) (j : Nat) (p : Ptr) :
    ((clusterDelSlot st j).node p).configEpoch = (st.node p).configEpoch := by
  unfold clusterDelSlot
  split
  · rfl
  · dsimp only
    rw [State.modNode_node]
    split
    · rw [State.assert_node]
      rfl
    · rw [State.assert_node]

variable [LinearOrder N] {g : Guard N}

/-- A small change, where the changes that keep the nodes and the ledger are one
case. -/
inductive EpochStep (g : Guard N) (st : State N) : State N → Prop
  | same {st' : State N} : SameIds st st' → EpochStep g st st'
  | create (now : Int) (name : N) (f : NodeFlags) : g.names name →
      EpochStep g st (clusterAddNode (createClusterNode st now name f).1 st.next)
  | free {st' : State N} (n : Ptr) : SameIds { st with nodes := st.nodes.erase n } st' →
      n ≠ st.myself → (g.forget ∨ (st.node n).flags.handshake = true) → EpochStep g st st'
  | endHandshake (p : Ptr) (name : N) (master slave : Bool) : p ∈ st.nodes → p ≠ st.myself →
      (st.node p).flags.handshake = true → clusterLookupNode st name = none →
      EpochStep g st ((clusterRenameNode st p name).modNode p fun x => { x with flags := { x.flags with
        handshake := false, master := x.flags.master || master, slave := x.flags.slave || slave } })
  | current (e : Nat) : st.currentEpoch ≤ e → EpochStep g st { st with currentEpoch := e }
  | config (n : Ptr) (e : Nat) : (st.node n).configEpoch ≤ e → (g.anyEpoch ∨ e ≤ st.currentEpoch) →
      EpochStep g st (st.modNode n fun x => { x with configEpoch := e })
  | newEpoch : (g.wrap ∨ st.currentEpoch + 1 < 2 ^ 64) → EpochStep g st (takeNewEpoch st)
  | election : (g.wrap ∨ st.currentEpoch + 1 < 2 ^ 64) →
      EpochStep g st { st with currentEpoch := incr64 st.currentEpoch,
                               failoverAuthEpoch := incr64 st.currentEpoch }
  | win : st.me.configEpoch < st.failoverAuthEpoch →
      EpochStep g st (st.modNode st.myself fun x => { x with configEpoch := st.failoverAuthEpoch })
  | send {st' : State N} (dest : Option N) (msg : Msg N) : msg.sender = st.me.name →
      msg.currentEpoch = st.currentEpoch → (∃ p, msg.configEpoch = (st.node p).configEpoch) →
      (∀ e name slots, msg.data = .update e name slots → ∃ n, (st.node n).configEpoch = e) →
      SameIds { st with queued := st.queued ++ [(dest, msg)] } st' → EpochStep g st st'
  | flush : EpochStep g st (flush st)
  | hardReset (env : Env N) : g.hardReset → EpochStep g st (hardReset env st)

omit [LinearOrder N] in
theorem clusterBuildMessageHdr_configEpoch (env : Env N) (st : State N) (data : MsgData N) :
    ∃ p, (clusterBuildMessageHdr env st data).configEpoch = (st.node p).configEpoch := by
  unfold clusterBuildMessageHdr
  dsimp only
  split
  · cases st.me.slaveof with
    | none => exact ⟨st.myself, rfl⟩
    | some m => exact ⟨m, rfl⟩
  · exact ⟨st.myself, rfl⟩

theorem Micro.epoch (hw : Wf st) (hm : Micro g st st') : EpochStep g st st' := by
  cases hm with
  | soft hs =>
    exact .same ⟨hs.currentEpoch, hs.failoverAuthEpoch, hs.queued, hs.sent, hs.myself, hs.next,
      hs.nodes, fun p => ⟨(hs.node p).name, (hs.node p).handshake, (hs.node p).configEpoch⟩⟩
  | assert _ b a =>
    rw [State.assert_eq]
    exact .same { SameIds.refl st with }
  | addSlot _ n j =>
    exact .same ((Frame.addSlot st n j).sameIds (SameLedger.addSlot st n j)
      (clusterAddSlot_configEpoch st n j))
  | delSlot _ j =>
    exact .same ((Frame.delSlot st j).sameIds (SameLedger.delSlot st j)
      (clusterDelSlot_configEpoch st j))
  | create _ now name f hname => exact .create now name f hname
  | free _ n hn hne _ _ _ hforget =>
    refine .free n ((Links.free hw.table hn).sameIds fun p => ?_) hne hforget
    obtain ⟨link, heq⟩ := freeClusterNode_node st n p
    rw [heq]
  | endHandshake _ p name m s hp hne hh hname => exact .endHandshake p name m s hp hne hh hname
  | setNodeAsMaster _ n => exact .same (SameIds.setNodeAsMaster st n)
  | demote _ s =>
    refine .same ((Links.demote st s).sameIds fun p => ?_)
    simp only [clusterNodeResetSlaves, State.modNode_node]
    split
    · rfl
    · rfl
  | changeMaster _ s m =>
    refine .same ((Links.changeMaster st s m).sameIds fun p => ?_)
    rw [changeMaster_node]
  | setMaster _ n => exact .same (SameIds.setMaster st n)
  | failureReport _ now failing sender => exact .same (SameIds.modNode st failing fun _ => ⟨rfl, rfl, rfl⟩)
  | openSlots _ mig imp => exact .same { SameIds.refl st with }
  | mfSlave _ s => exact .same { SameIds.refl st with }
  | current _ e he => exact .current e he
  | config _ n e _ hle he => exact .config n e hle he
  | newEpoch _ h => exact .newEpoch h
  | election _ h => exact .election h
  | win _ h => exact .win h
  | vote env _ n _ =>
    unfold clusterSendFailoverAuth clusterSendIfLink
    split
    · refine .send (some (st.node n).name) (clusterBuildMessageHdr env st .failoverAuthAck) rfl rfl
        (clusterBuildMessageHdr_configEpoch env st _) (fun e name slots h => by cases h) ?_
      exact ⟨rfl, rfl, rfl, rfl, rfl, rfl, rfl, fun _ => SameId.refl _⟩
    · exact .same { SameIds.refl st with }
  | send _ p msg h =>
    refine .send (p.map fun p => (st.node p).name) msg h.sender h.currentEpoch ?_ ?_
      (SameIds.refl (clusterSendMessage st p msg))
    · rcases h.configEpoch with he | ⟨m, _, he⟩
      · exact ⟨st.myself, he⟩
      · exact ⟨m, he⟩
    · intro e name slots hd
      obtain ⟨_, n, _, hn⟩ := h.update e name slots hd
      exact ⟨n, hn⟩
  | save _ fsync => exact .same { SameIds.refl st with }
  | flush => exact .flush
  | hardReset env _ h _ => exact .hardReset env h

/-! ## The invariant of a node -/

/-- A packet of the node named `r`: its epochs are not above its current epoch. -/
structure MsgEpochs (r : N) (msg : Msg N) : Prop where
  sender : msg.sender = r
  config : msg.configEpoch ≤ msg.currentEpoch
  update : ∀ e name slots, msg.data = .update e name slots → e ≤ msg.currentEpoch

/-- The node named `r`, in a cluster in which `real` are the names of the
processes. -/
structure EpochInv (real : N → Prop) (r : N) (st : State N) : Prop where
  node : ∀ p, (st.node p).configEpoch ≤ st.currentEpoch
  auth : st.failoverAuthEpoch ≤ st.currentEpoch
  queued : ∀ x ∈ st.queued, MsgEpochs r x.2 ∧ x.2.currentEpoch ≤ st.currentEpoch
  sent : ∀ x ∈ st.sent, MsgEpochs r x.2
  name : st.me.name = r
  handshake : ∀ p ∈ st.nodes, (st.node p).flags.handshake = true → ¬real (st.node p).name

namespace EpochInv

variable {real : N → Prop} {r : N}

omit [LinearOrder N] in
theorem same (h : EpochInv real r st) (hs : SameIds st st') : EpochInv real r st' where
  node := by
    intro p
    rw [(hs.node p).configEpoch, hs.currentEpoch]
    exact h.node p
  auth := by
    rw [hs.failoverAuthEpoch, hs.currentEpoch]
    exact h.auth
  queued := by
    rw [hs.queued, hs.currentEpoch]
    exact h.queued
  sent := by
    rw [hs.sent]
    exact h.sent
  name := by
    rw [State.me, hs.myself, (hs.node _).name]
    exact h.name
  handshake := by
    intro p hp hh
    rw [hs.nodes] at hp
    rw [(hs.node p).handshake] at hh
    rw [(hs.node p).name]
    exact h.handshake p hp hh

omit [LinearOrder N] in
theorem current (h : EpochInv real r st) (he : st.currentEpoch ≤ e) :
    EpochInv real r { st with currentEpoch := e } where
  node := fun p => (h.node p).trans he
  auth := h.auth.trans he
  queued := fun x hx => ⟨(h.queued x hx).1, (h.queued x hx).2.trans he⟩
  sent := h.sent
  name := h.name
  handshake := h.handshake

omit [LinearOrder N] in
theorem config (h : EpochInv real r st) (n : Ptr) (he : e ≤ st.currentEpoch) :
    EpochInv real r (st.modNode n fun x => { x with configEpoch := e }) := by
  have hid : ∀ p, ((st.modNode n fun x => { x with configEpoch := e }).node p).name = (st.node p).name ∧
      ((st.modNode n fun x => { x with configEpoch := e }).node p).flags = (st.node p).flags := by
    intro p
    rw [State.modNode_node]
    split
    · exact ⟨rfl, rfl⟩
    · exact ⟨rfl, rfl⟩
  refine ⟨fun p => ?_, h.auth, h.queued, h.sent, ?_, fun p hp hh => ?_⟩
  · rw [State.modNode_node]
    split
    · exact he
    · exact h.node p
  · exact (hid st.myself).1.trans h.name
  · rw [(hid p).2] at hh
    rw [(hid p).1]
    exact h.handshake p hp hh

theorem create (h : EpochInv real r st) (hw : Wf st) (now : Int) (hname : ¬real name)
    (f : NodeFlags) :
    EpochInv real r (clusterAddNode (createClusterNode st now name f).1 st.next) := by
  have hne : st.myself ≠ st.next := Nat.ne_of_lt (hw.table.next _ hw.myself.mem)
  rw [hw.table.create_eq]
  refine ⟨fun p => ?_, h.auth, h.queued, h.sent, ?_, fun p hp hh => ?_⟩
  · dsimp only
    rw [Function.update_apply]
    split
    · exact Nat.zero_le _
    · exact h.node p
  · have hme : Function.update st.node st.next (newNode now name f) st.myself = st.me :=
      Function.update_of_ne hne _ _
    exact (congrArg Node.name hme).trans h.name
  · dsimp only at hp hh ⊢
    by_cases hpn : p = st.next
    · rw [hpn, Function.update_self]
      exact hname
    · rw [Function.update_of_ne hpn] at hh ⊢
      refine h.handshake p ?_ hh
      split at hp
      · exact hp
      · simpa [hpn] using hp

theorem endHandshake (h : EpochInv real r st) (hw : Wf st) (hp : p ∈ st.nodes)
    (hne : p ≠ st.myself) (hname : clusterLookupNode st name = none) (m s : Bool) :
    EpochInv real r ((clusterRenameNode st p name).modNode p fun x => { x with flags := { x.flags with
      handshake := false, master := x.flags.master || m, slave := x.flags.slave || s } }) := by
  rw [hw.table.rename_eq hp hname]
  refine ⟨fun q => ?_, h.auth, h.queued, h.sent, ?_, fun q hq hh => ?_⟩
  · simp only [State.modNode_node]
    split
    · exact h.node q
    · exact h.node q
  · have hme : (st.node st.myself).name = r := h.name
    simp [State.me, Ne.symm hne, hme]
  · simp only [State.modNode_node] at hh ⊢
    split at hh
    · cases hh
    · next hqp =>
      simp only [hqp, if_false] at hh ⊢
      refine h.handshake q ?_ hh
      have hq' : q ∈ st.nodes.erase p ++ [p] := hq
      simpa [hqp, hw.table.nodup.mem_erase_iff] using hq'

theorem step (hnames : ∀ name, g.names name → ¬real name) (hhard : ¬g.hardReset)
    (hany : ¬g.anyEpoch) (hwrap : ¬g.wrap) (hw : Wf st) (h : EpochInv real r st)
    (hs : EpochStep g st st') : EpochInv real r st' := by
  cases hs with
  | same hs => exact h.same hs
  | create now name f hname => exact h.create hw now (hnames name hname) f
  | free n hs hne _ =>
    have herase : EpochInv real r { st with nodes := st.nodes.erase n } :=
      { h with handshake := fun p hp => h.handshake p (mem_of_mem_erase hp) }
    exact herase.same hs
  | endHandshake p name m s hp hne _ hname => exact h.endHandshake hw hp hne hname m s
  | current e he => exact h.current he
  | config n e _ he => exact h.config n (he.resolve_left hany)
  | newEpoch hlt =>
    have hle : st.currentEpoch ≤ incr64 st.currentEpoch :=
      (Nat.mod_eq_of_lt (hlt.resolve_left hwrap)).ge.trans' (Nat.le_succ _)
    exact (h.current hle).config st.myself (Nat.le_refl _)
  | election hlt =>
    have hle : st.currentEpoch ≤ incr64 st.currentEpoch :=
      (Nat.mod_eq_of_lt (hlt.resolve_left hwrap)).ge.trans' (Nat.le_succ _)
    exact { h.current hle with auth := Nat.le_refl _ }
  | win _ => exact h.config st.myself h.auth
  | send dest msg hsender hcur hconfig hupdate hs =>
    have hmsg : MsgEpochs r msg := by
      refine ⟨hsender.trans h.name, ?_, fun e name slots hd => ?_⟩
      · obtain ⟨p, hp⟩ := hconfig
        rw [hp, hcur]
        exact h.node p
      · obtain ⟨n, hn⟩ := hupdate e name slots hd
        rw [← hn, hcur]
        exact h.node n
    have hqueue : EpochInv real r { st with queued := st.queued ++ [(dest, msg)] } := by
      refine { h with queued := fun x hx => ?_ }
      rcases mem_append.mp hx with hx | hx
      · exact h.queued x hx
      · rw [mem_singleton.mp hx]
        exact ⟨hmsg, hcur.le⟩
    exact hqueue.same hs
  | flush =>
    refine { h with queued := fun x hx => absurd hx not_mem_nil, sent := fun x hx => ?_ }
    rcases mem_append.mp hx with hx | hx
    · exact h.sent x hx
    · exact (h.queued x hx).1
  | hardReset env hg => exact absurd hg hhard

omit [LinearOrder N] in
theorem fresh (env : Env N) (hname : env.newName 1 = r) : EpochInv real r (freshState env []) := by
  have hepoch : ∀ p, ((freshState env []).node p).configEpoch = 0 := by
    intro p
    by_cases hp : p = 1
    · rw [hp]
      rfl
    · simp [freshState, hp, newNode]
  refine ⟨fun p => (hepoch p).le, Nat.le_refl _, fun x hx => absurd hx not_mem_nil,
    fun x hx => absurd hx not_mem_nil, hname, fun p hp hh => ?_⟩
  rw [mem_singleton.mp hp] at hh
  cases hh

omit [LinearOrder N] in
theorem configEpoch_le_clusterGetMaxEpoch (st : State N) (hp : p ∈ st.nodes) :
    (st.node p).configEpoch ≤ clusterGetMaxEpoch st := by
  have hfold : ∀ (ps : List Ptr) (m : Nat),
      m ≤ ps.foldl (fun m p => max m (st.node p).configEpoch) m ∧
      ∀ q ∈ ps, (st.node q).configEpoch ≤ ps.foldl (fun m p => max m (st.node p).configEpoch) m := by
    intro ps
    induction ps with
    | nil => exact fun m => ⟨Nat.le_refl m, fun q hq => absurd hq not_mem_nil⟩
    | cons q ps ih =>
      intro m
      obtain ⟨h1, h2⟩ := ih (max m (st.node q).configEpoch)
      refine ⟨(Nat.le_max_left _ _).trans h1, fun x hx => ?_⟩
      rcases mem_cons.mp hx with rfl | hx
      · exact (Nat.le_max_right _ _).trans h1
      · exact h2 x hx
  have hle := (hfold st.nodes 0).2 p hp
  unfold clusterGetMaxEpoch
  dsimp only
  split
  · next hlt => exact hle.trans hlt.le
  · exact hle

/-- A start from a file in which the node itself is named `r`. -/
theorem load_lines {lines : List (NodeLine N)} (hl : LinesWf lines) {l : NodeLine N} (hmem : l ∈ lines)
    (hmyself : l.flags.myself = true) (hname : l.name = r) {sent : List (Option N × Msg N)}
    (hsent : ∀ x ∈ sent, MsgEpochs r x.2) (env : Env N) (c v : Nat) :
    EpochInv real r (clusterInit env (some (fileLines lines c v)) sent) := by
  obtain ⟨st1, hload, heq⟩ := clusterInit_eq env hl c v sent
  rw [heq]
  refine ⟨fun p => ?_, ?_, ?_, ?_, ?_, fun p hp hh => ?_⟩
  · rw [loadedState_node]
    by_cases hp : p ∈ st1.nodes
    · exact configEpoch_le_clusterGetMaxEpoch { st1 with currentEpoch := c, lastVoteEpoch := v } hp
    · rw [(hload.other p fun l _ hmem => absurd hmem hp).2.1]
      exact Nat.zero_le _
  · have hauth : (loadedState env st1 c v).failoverAuthEpoch = 0 := hload.failoverAuthEpoch
    rw [hauth]
    exact Nat.zero_le _
  · have hqueued : (loadedState env st1 c v).queued = [] := hload.queued
    rw [hqueued]
    exact fun x hx => absurd hx not_mem_nil
  · have hsent' : (loadedState env st1 c v).sent = sent := hload.sent
    rw [hsent']
    exact hsent
  · rw [State.me, loadedState_node]
    exact (hload.myself l hmem hmyself).2.trans hname
  · -- the file has no nodes in handshake
    rw [loadedState_node] at hh
    rcases hload.node_cases hp with ⟨l, hlmem, hline⟩ | ⟨hflags, _⟩
    · have hflag := hl.handshake l hlmem
      simp [hline.flags, orFlags, hflag] at hh
    · simp [hflags] at hh

/-- A restart from a file that was written under the invariant; the packets of
the processes before stay under way. -/
theorem load {st0 : State N} (hw : Wf st0) (h : EpochInv real r st) (h0 : EpochInv real r st0)
    (env : Env N) : EpochInv real r (clusterInit env (some (configLines st0)) st.sent) := by
  have hline : clusterGenNodeDescription st0 st0.me ∈ nodeLines st0 :=
    mem_nodeLines.mpr ⟨st0.myself, hw.myself.mem, hw.myself.handshake, rfl⟩
  have hmyself : (clusterGenNodeDescription st0 st0.me).flags.myself = true :=
    (hw.myself.flag _ hw.myself.mem).mpr rfl
  rw [configLines_eq]
  exact load_lines hw.nodeLines hline hmyself h0.name h.sent env _ _

end EpochInv

/-! ## What a process keeps -/

/-- From `st` to `st'` no epoch decreases, and the packets that left in between
are not above the current epoch; unless nodes are forgotten, those out of
handshake stay in the table, and this node does anyway. -/
structure Keeps (forget : Prop) (st st' : State N) : Prop where
  myself : st'.myself = st.myself
  currentEpoch : st.currentEpoch ≤ st'.currentEpoch
  sent : ∀ x ∈ st'.sent, x ∈ st.sent ∨ x.2.currentEpoch ≤ st'.currentEpoch
  node : ∀ p ∈ st.nodes, ¬forget ∨ p = st.myself → (st.node p).flags.handshake = false →
    p ∈ st'.nodes ∧ (st'.node p).name = (st.node p).name ∧
      (st'.node p).flags.handshake = false ∧ (st.node p).configEpoch ≤ (st'.node p).configEpoch

namespace Keeps

variable {forget : Prop} {st'' : State N}

omit [LinearOrder N] in
theorem refl (st : State N) : Keeps forget st st :=
  ⟨rfl, Nat.le_refl _, fun _ hx => .inl hx, fun _ hp _ hh => ⟨hp, rfl, hh, Nat.le_refl _⟩⟩

omit [LinearOrder N] in
theorem trans (h : Keeps forget st st') (h' : Keeps forget st' st'') : Keeps forget st st'' where
  myself := h'.myself.trans h.myself
  currentEpoch := h.currentEpoch.trans h'.currentEpoch
  sent := by
    intro x hx
    rcases h'.sent x hx with hx | hle
    · exact (h.sent x hx).imp_right fun hle => hle.trans h'.currentEpoch
    · exact .inr hle
  node := by
    intro p hp hf hh
    obtain ⟨hp1, hname1, hh1, hle1⟩ := h.node p hp hf hh
    rw [← h.myself] at hf
    obtain ⟨hp2, hname2, hh2, hle2⟩ := h'.node p hp1 hf hh1
    exact ⟨hp2, hname2.trans hname1, hh2, hle1.trans hle2⟩

omit [LinearOrder N] in
theorem same (hs : SameIds st st') : Keeps forget st st' where
  myself := hs.myself
  currentEpoch := hs.currentEpoch.ge
  sent := by
    rw [hs.sent]
    exact fun x hx => .inl hx
  node := by
    intro p hp _ hh
    rw [hs.nodes, (hs.node p).name, (hs.node p).handshake, (hs.node p).configEpoch]
    exact ⟨hp, rfl, hh, Nat.le_refl _⟩

omit [LinearOrder N] in
/-- The current epoch and one configuration epoch grow. -/
theorem config (n : Ptr) {e' : Nat} (hcur : st.currentEpoch ≤ e)
    (hle : (st.node n).configEpoch ≤ e') :
    Keeps forget st (State.modNode { st with currentEpoch := e } n fun x => { x with configEpoch := e' }) where
  myself := rfl
  currentEpoch := hcur
  sent := fun _ hx => .inl hx
  node := by
    intro p hp _ hh
    refine ⟨hp, ?_⟩
    rw [State.modNode_node]
    split
    · next hpn => exact ⟨rfl, hh, hpn ▸ hle⟩
    · exact ⟨rfl, hh, Nat.le_refl _⟩

theorem create (hw : Wf st) (now : Int) (name : N) (f : NodeFlags) :
    Keeps forget st (clusterAddNode (createClusterNode st now name f).1 st.next) := by
  rw [hw.table.create_eq]
  refine ⟨rfl, Nat.le_refl _, fun _ hx => .inl hx, fun p hp _ hh => ?_⟩
  have hne : p ≠ st.next := Nat.ne_of_lt (hw.table.next p hp)
  dsimp only
  rw [Function.update_of_ne hne]
  refine ⟨?_, rfl, hh, Nat.le_refl _⟩
  split
  · exact hp
  · exact mem_append_left _ hp

theorem endHandshake (hw : Wf st) {n : Ptr} (hn : n ∈ st.nodes)
    (hhand : (st.node n).flags.handshake = true) (hname : clusterLookupNode st name = none)
    (m s : Bool) :
    Keeps forget st ((clusterRenameNode st n name).modNode n fun x => { x with flags := { x.flags with
      handshake := false, master := x.flags.master || m, slave := x.flags.slave || s } }) := by
  rw [hw.table.rename_eq hn hname]
  refine ⟨rfl, Nat.le_refl _, fun _ hx => .inl hx, fun p hp _ hh => ?_⟩
  have hne : p ≠ n := by
    rintro rfl
    rw [hh] at hhand
    cases hhand
  refine ⟨?_, ?_⟩
  · have hmem : p ∈ st.nodes.erase n ++ [n] :=
      mem_append_left _ (hw.table.nodup.mem_erase_iff.mpr ⟨hne, hp⟩)
    exact hmem
  · simp only [State.modNode_node, hne, if_false]
    exact ⟨trivial, hh, Nat.le_refl _⟩

theorem step {real : N → Prop} {r : N} (hforget : g.forget → forget) (hhard : ¬g.hardReset)
    (hwrap : ¬g.wrap) (hw : Wf st) (h : EpochInv real r st) (hs : EpochStep g st st') :
    Keeps forget st st' := by
  have hincr : (g.wrap ∨ st.currentEpoch + 1 < 2 ^ 64) → st.currentEpoch ≤ incr64 st.currentEpoch :=
    fun hlt => (Nat.mod_eq_of_lt (hlt.resolve_left hwrap)).ge.trans' (Nat.le_succ _)
  cases hs with
  | same hs => exact .same hs
  | create now name f _ => exact .create hw now name f
  | free n hs hne hn =>
    have herase : Keeps forget st { st with nodes := st.nodes.erase n } := by
      refine ⟨rfl, Nat.le_refl _, fun _ hx => .inl hx, fun p hp hf hh => ?_⟩
      have hne : p ≠ n := by
        rintro rfl
        have hhand := hn.resolve_left fun hg => (hf.resolve_right hne) (hforget hg)
        rw [hh] at hhand
        cases hhand
      exact ⟨hw.table.nodup.mem_erase_iff.mpr ⟨hne, hp⟩, rfl, hh, Nat.le_refl _⟩
    exact herase.trans (.same hs)
  | endHandshake p name m s hp _ hh hname => exact .endHandshake hw hp hh hname m s
  | current e he => exact ⟨rfl, he, fun _ hx => .inl hx, fun p hp _ hh => ⟨hp, rfl, hh, Nat.le_refl _⟩⟩
  | config n e hle _ => exact .config n (Nat.le_refl _) hle
  | newEpoch hlt => exact .config st.myself (hincr hlt) ((h.node st.myself).trans (hincr hlt))
  | election hlt =>
    exact ⟨rfl, hincr hlt, fun _ hx => .inl hx, fun p hp _ hh => ⟨hp, rfl, hh, Nat.le_refl _⟩⟩
  | win hlt => exact .config st.myself (Nat.le_refl _) hlt.le
  | send dest msg _ _ _ _ hs =>
    have hqueue : Keeps forget st { st with queued := st.queued ++ [(dest, msg)] } :=
      ⟨rfl, Nat.le_refl _, fun _ hx => .inl hx, fun p hp _ hh => ⟨hp, rfl, hh, Nat.le_refl _⟩⟩
    exact hqueue.trans (.same hs)
  | flush =>
    refine ⟨rfl, Nat.le_refl _, fun x hx => ?_, fun p hp _ hh => ⟨hp, rfl, hh, Nat.le_refl _⟩⟩
    exact (mem_append.mp hx).imp_right fun hx => (h.queued x hx).2
  | hardReset env hg => exact absurd hg hhard

/-- A node out of handshake is found under its name, with an epoch that is not
smaller. -/
theorem lookup (h : Keeps forget st st') (hf : ¬forget) (hw : Wf st')
    (hp : clusterLookupNode st name = some p) (hh : (st.node p).flags.handshake = false) :
    clusterLookupNode st' name = some p ∧ (st.node p).configEpoch ≤ (st'.node p).configEpoch := by
  obtain ⟨hmem, rfl⟩ := clusterLookupNode_some hp
  obtain ⟨hp', hname, _, hle⟩ := h.node p hmem (.inl hf) hh
  rw [← hname]
  exact ⟨hw.table.lookup hp', hle⟩

end Keeps

/-- The small changes of an event in a cluster whose nodes are named by `real`. -/
def deliverGuard (real : N → Prop) (ev : Event N) : Guard N :=
  ⟨fun name => ¬real name, True, True, ev.forgets, False, False, False⟩

theorem EpochInv.deliver {real : N → Prop} {r : N} (hw : Wf st) (h : EpochInv real r st)
    (hm : Micro (deliverGuard real ev) st st') : EpochInv real r st' :=
  h.step (g := deliverGuard real ev) (fun _ hname => hname) (fun hg => hg) (fun hg => hg)
    (fun hg => hg) hw (hm.epoch hw)

/-- The small changes of an event keep the invariant, and the epochs do not
decrease. -/
theorem EpochInv.steps {real : N → Prop} {r : N} (hw : Wf st) (h : EpochInv real r st)
    (hs : Steps (deliverGuard real ev) st st') :
    Wf st' ∧ EpochInv real r st' ∧ Keeps ev.forgets st st' := by
  induction hs with
  | refl => exact ⟨hw, h, .refl st⟩
  | tail _ hm ih =>
    obtain ⟨hw1, hi1, hk1⟩ := ih
    exact ⟨hw1.micro hm, hi1.deliver hw1 hm, hk1.trans (.step (fun hg => hg) (fun hg => hg)
      (fun hg => hg) hw1 hi1 (hm.epoch hw1))⟩

/-! ## The nodes together -/

section System

variable {ι : Type} [DecidableEq ι] {real : ι → N} {sys sys' : ι → State N} {i : ι}

/-- What may happen to the node `i` of a cluster whose nodes are named by `real`:
the random names are new, a packet is one that some node has sent, the node is
not reset hard and its epochs stay below `2 ^ 64`. -/
structure Delivers (real : ι → N) (sys : ι → State N) (i : ι) (ev : Event N) : Prop where
  ok : ev.Ok (sys i)
  draws : ∀ name, ev.draws name → ∀ j, name ≠ real j
  sent : ∀ env link hdr, ev = .packet env link hdr → ∃ j, ∃ x ∈ (sys j).sent, x.2 = hdr
  soft : ¬ev.isHardReset
  noWrap : ev.NoWrap (sys i)

/-- The cluster in which the event has happened to the node `i`. -/
def stepAt (sys : ι → State N) (i : ι) (ev : Event N) : ι → State N :=
  Function.update sys i (step (sys i) ev)

/-- The states of a cluster of nodes that started fresh. -/
inductive ClusterReachable (real : ι → N) : (ι → State N) → Prop
  | start (envs : ι → Env N) : (∀ i, (envs i).newName 1 = real i) →
      ClusterReachable real fun i => clusterInit (envs i) none []
  | step {sys : ι → State N} (i : ι) (ev : Event N) : ClusterReachable real sys →
      Delivers real sys i ev → ClusterReachable real (stepAt sys i ev)

/-- A run in which the node `i` does not restart, and forgets nodes only when
`forget` holds. -/
inductive RunsOn (real : ι → N) (i : ι) (forget : Prop) (sys : ι → State N) : (ι → State N) → Prop
  | refl : RunsOn real i forget sys sys
  | step {sys' : ι → State N} (j : ι) (ev : Event N) : RunsOn real i forget sys sys' →
      Delivers real sys' j ev → (j = i → (∀ env, ev ≠ .restart env) ∧ (ev.forgets → forget)) →
      RunsOn real i forget sys (stepAt sys' j ev)

/-- The invariant of the node named `r`. -/
structure ProcInv (real : N → Prop) (r : N) (st : State N) : Prop where
  wf : Wf st
  epochs : EpochInv real r st
  saved : Saved (EpochInv real r) st

def realName (real : ι → N) (name : N) : Prop := ∃ j, name = real j

omit [DecidableEq ι] in
theorem Delivers.allowed (h : ∀ j, ProcInv (realName real) (real j) (sys j))
    (hd : Delivers real sys i ev) : ev.Allowed (deliverGuard (realName real) ev) (sys i) := by
  have hsender : ∀ env link hdr, ev = .packet env link hdr → ∃ j, MsgEpochs (real j) hdr := by
    intro env link hdr hev
    obtain ⟨j, x, hx, rfl⟩ := hd.sent env link hdr hev
    exact ⟨j, (h j).epochs.sent x hx⟩
  refine ⟨hd.ok, fun name hname ⟨j, hj⟩ => hd.draws name hname j hj, ?_, .inr ?_, .inr hd.noWrap,
    .inl trivial, .inl trivial, fun hf => hf, fun hf => absurd hf hd.soft⟩
  · intro env link hdr hev hname
    obtain ⟨j, hj⟩ := hsender env link hdr hev
    exact hname ⟨j, hj.sender⟩
  · cases ev with
    | packet env link hdr =>
      obtain ⟨j, hj⟩ := hsender env link hdr rfl
      refine ⟨hj.config, hj.update, fun s hs => ?_⟩
      -- a node in handshake does not have the name of a process
      obtain ⟨hmem, hname⟩ := clusterLookupNode_some hs
      by_contra hh
      exact (h i).epochs.handshake s hmem (by simpa using hh) ⟨j, hname.trans hj.sender⟩
    | _ => trivial

theorem ProcInv.steps {real : N → Prop} {r : N} {st st' : State N} (h : ProcInv real r st)
    (hs : Steps (deliverGuard real ev) st st') : ProcInv real r st' := by
  obtain ⟨hw, hi, hsaved⟩ := hs.invariant (fun _ _ hw hi hm => hi.deliver hw hm) h.wf h.epochs h.saved
  exact ⟨hw, hi, hsaved⟩

theorem ProcInv.start {real : N → Prop} (env : Env N) {r : N} (hname : env.newName 1 = r) :
    ProcInv real r (clusterInit env none []) := by
  have hw := freshState_wf env []
  have hi : EpochInv real r (freshState env []) := .fresh env hname
  have hsave : Micro (deliverGuard real (.linkError 0)) (freshState env [])
      (clusterSaveConfig (freshState env []) true) := .save _ true
  have hsaved : ProcInv real r (clusterSaveConfig (freshState env []) true) :=
    ⟨hw.micro hsave, hi.deliver hw hsave, _, hw, hi, rfl⟩
  have hsteps : Steps (deliverGuard real (.linkError 0)) (clusterSaveConfig (freshState env []) true)
      (clusterInit env none []) := clusterInit_none env []
  exact hsaved.steps hsteps

theorem ProcInv.step {real : N → Prop} {r : N} {st : State N} (h : ProcInv real r st)
    (hallowed : ev.Allowed (deliverGuard real ev) st) : ProcInv real r (step st ev) := by
  cases ev with
  | restart env =>
    obtain ⟨st0, hw0, hi0, hfile⟩ := h.saved
    obtain ⟨st1, hl, heq⟩ := clusterInit_eq env hw0.nodeLines st0.currentEpoch
      st0.lastVoteEpoch st.sent
    have hi1 := h.epochs.load hw0 hi0 env
    rw [Bus.step, hfile]
    refine ⟨?_, hi1, st0, hw0, hi0, ?_⟩
    · rw [configLines_eq, heq]
      exact hl.wf hw0.nodeLines env _ _
    · rw [configLines_eq, heq]
      exact hl.file
  | _ =>
    rw [step_eq _ (by simp)]
    split
    · exact h
    · exact h.steps (Steps.runEvent h.wf (by simp) hallowed)

theorem ClusterReachable.inv (h : ClusterReachable real sys) (j : ι) :
    ProcInv (realName real) (real j) (sys j) := by
  induction h generalizing j with
  | start envs hnames => exact .start (envs j) (hnames j)
  | step i ev _ hd ih =>
    unfold stepAt
    by_cases hj : j = i
    · subst hj
      rw [Function.update_self]
      exact (ih j).step (hd.allowed ih)
    · rw [Function.update_of_ne hj]
      exact ih j

theorem ClusterReachable.runsOn {forget : Prop} (h : ClusterReachable real sys)
    (hr : RunsOn real i forget sys sys') : ClusterReachable real sys' := by
  induction hr with
  | refl => exact h
  | step j ev _ hd _ ih => exact .step j ev ih hd

omit [LinearOrder N] in
theorem Keeps.mono {forget forget' : Prop} {st st' : State N} (h : Keeps forget st st')
    (himp : forget → forget') : Keeps forget' st st' :=
  { h with node := fun p hp hf => h.node p hp (hf.imp_left fun hf hg => hf (himp hg)) }

theorem RunsOn.keeps {forget : Prop} (h : ClusterReachable real sys)
    (hr : RunsOn real i forget sys sys') : Keeps forget (sys i) (sys' i) := by
  induction hr with
  | refl => exact .refl _
  | @step sys1 j ev hrun hd hev ih =>
    refine ih.trans ?_
    unfold stepAt
    by_cases hj : i = j
    · subst hj
      obtain ⟨hrestart, hforget⟩ := hev rfl
      rw [Function.update_self, step_eq _ hrestart]
      have hinv := (h.runsOn hrun).inv
      split
      · exact .refl _
      · have hsteps := Steps.runEvent (hinv i).wf hrestart (hd.allowed hinv)
        exact ((hinv i).epochs.steps (hinv i).wf hsteps).2.2.mono hforget
    · rw [Function.update_of_ne hj]
      exact .refl _

/-- The nodes a node knows, and the packets it sends, are not above its current
epoch.  While it runs on, its current epoch does not decrease, nor do the
configuration epochs it has recorded for the nodes of the cluster, unless it is
told to forget them. -/
theorem epoch_dominance {forget : Prop} (h : ClusterReachable real sys)
    (hrun : RunsOn real i forget sys sys') :
    (∀ p ∈ (sys' i).nodes, ((sys' i).node p).configEpoch ≤ (sys' i).currentEpoch) ∧
    (∀ x ∈ (sys' i).sent ++ (sys' i).queued, x.2.configEpoch ≤ x.2.currentEpoch ∧
      ∀ e name slots, x.2.data = .update e name slots → e ≤ x.2.currentEpoch) ∧
    (∀ x ∈ (sys' i).sent ++ (sys' i).queued, x ∈ (sys i).sent ∨
      x.2.currentEpoch ≤ (sys' i).currentEpoch) ∧
    (sys i).currentEpoch ≤ (sys' i).currentEpoch ∧
    (¬forget → ∀ j p, clusterLookupNode (sys i) (real j) = some p →
      clusterLookupNode (sys' i) (real j) = some p ∧
        ((sys i).node p).configEpoch ≤ ((sys' i).node p).configEpoch) := by
  have hinv := (h.runsOn hrun).inv i
  have hkeeps := hrun.keeps h
  refine ⟨fun p _ => hinv.epochs.node p, fun x hx => ?_, fun x hx => ?_, hkeeps.currentEpoch,
    fun hf j p hp => hkeeps.lookup hf hinv.wf hp ?_⟩
  · have hmsg : MsgEpochs (real i) x.2 := by
      rcases mem_append.mp hx with hx | hx
      · exact hinv.epochs.sent x hx
      · exact (hinv.epochs.queued x hx).1
    exact ⟨hmsg.config, hmsg.update⟩
  · rcases mem_append.mp hx with hx | hx
    · exact hkeeps.sent x hx
    · exact .inr (hinv.epochs.queued x hx).2
  · obtain ⟨hmem, hname⟩ := clusterLookupNode_some hp
    by_contra hh
    exact (h.inv i).epochs.handshake p hmem (by simpa using hh) ⟨j, hname⟩

end System

/-- The environments in which two nodes named 1 and 2 start. -/
def pairEnv (i : Bool) : Env Nat := { quietEnv with newName := fun _ => if i then 2 else 1 }

/-- The first node is given the epoch 3. -/
def epochPair : Bool → State Nat :=
  stepAt (fun i => clusterInit (pairEnv i) none []) false (.command quietEnv (.setConfigEpoch 3))

/-- It is told to meet the second, and its `MEET` leaves. -/
def meetPair : Bool → State Nat :=
  stepAt (stepAt (stepAt epochPair false (.command quietEnv (.meet [49] 6379))) false
    (.cron quietEnv)) false (.beforeSleep quietEnv)

def pairMeet : Msg Nat :=
  { masterPong 1 with
    data := .meet [], currentEpoch := 3, configEpoch := 3, flags := { master := true, myself := true } }

/-- The names drawn in the quiet environment are not those of the two nodes. -/
theorem quietEnv_draws {name : Nat} (h : quietEnv.newName p = name) (j : Bool) :
    name ≠ (pairEnv j).newName 1 := by
  have hp : (100 + p : Nat) = name := h
  have hlt : (pairEnv j).newName 1 < 100 := by
    cases j with
    | false => decide
    | true => decide
  omega

theorem quiet_delivers {sys : Bool → State Nat} {i : Bool} {ev : Event Nat}
    (hev : (∃ cmd, cmd ≠ .reset true ∧ ev = .command quietEnv cmd) ∨ ev = .cron quietEnv ∨
      ev = .beforeSleep quietEnv) (hle : (sys i).currentEpoch ≤ 3) :
    Delivers (fun i => (pairEnv i).newName 1) sys i ev := by
  have hlt : (sys i).currentEpoch + 1 < 2 ^ 64 := by omega
  rcases hev with ⟨cmd, hc, rfl⟩ | rfl | rfl
  · exact ⟨trivial, fun _ ⟨_, hp⟩ => quietEnv_draws hp, by simp, hc, hlt⟩
  · exact ⟨trivial, fun _ h => h.elim, by simp, fun h => h, hlt⟩
  · exact ⟨trivial, fun _ h => h.elim, by simp, fun h => h, hlt⟩

/-- The second node receives the `MEET`; the epoch in it is not above that of the
first. -/
theorem epoch_dominance_meet :
    (meetPair false).sent.map Prod.fst = [some 102] ∧
      (∀ x ∈ (stepAt meetPair true (.packet quietEnv none pairMeet) false).sent ++
        (stepAt meetPair true (.packet quietEnv none pairMeet) false).queued,
        x ∈ (epochPair false).sent ∨ x.2.currentEpoch ≤
          (stepAt meetPair true (.packet quietEnv none pairMeet) false).currentEpoch) := by
  have hstart : ClusterReachable (fun i => (pairEnv i).newName 1) epochPair :=
    .step false _ (.start pairEnv fun _ => rfl)
      (quiet_delivers (.inl ⟨_, by simp, rfl⟩) (by decide))
  have hmeet : RunsOn (fun i => (pairEnv i).newName 1) false False epochPair meetPair := by
    refine .step _ _ (.step _ _ (.step _ _ .refl (quiet_delivers (.inl ⟨_, by simp, rfl⟩) ?_) ?_)
      (quiet_delivers (.inr (.inl rfl)) ?_) ?_) (quiet_delivers (.inr (.inr rfl)) ?_) ?_
    · decide
    · exact fun _ => ⟨by simp, fun h => h.elim⟩
    · decide
    · exact fun _ => ⟨by simp, fun h => h.elim⟩
    · decide
    · exact fun _ => ⟨by simp, fun h => h.elim⟩
  have hsent : (meetPair false).sent = [(some 102, pairMeet)] := rfl
  have hdeliver : Delivers (fun i => (pairEnv i).newName 1) meetPair true
      (.packet quietEnv none pairMeet) := by
    refine ⟨quietPacket_ok rfl (by simp) rfl (by simp [pairMeet]) (by decide),
      fun _ ⟨_, hp⟩ => quietEnv_draws hp, ?_, fun h => h, by decide, by decide⟩
    rintro _ _ _ ⟨⟩
    exact ⟨false, _, hsent ▸ mem_singleton.mpr rfl, rfl⟩
  have hrun := RunsOn.step true _ hmeet hdeliver (fun h => by cases h)
  exact ⟨by rw [hsent]; rfl, (epoch_dominance hstart hrun).2.2.1⟩

end Redis.Bus
