import Redis.Bus.Events
import Redis.TwoWay

/-!
# Redis.Bus.Graph

The references between nodes: every pointer the state holds is to a node of the
nodes table, and masters and slaves know each other (`TwoWay`).  Deleting a node
or turning a master into a slave can leave links behind; a run in which that
does not happen keeps the graph closed.
-/

namespace Redis.Bus

open List

variable {N : Type}

/-- Every reference is to a node of the table, and the links between masters and
slaves agree in both directions. -/
structure Graph (st : State N) : Prop where
  links : TwoWay st.nodes (fun m => (st.node m).slaves) (fun n => (st.node n).slaveof)
  slots : ∀ j n, st.slots j = some n → n ∈ st.nodes
  migrating : ∀ j n, st.migratingSlotsTo j = some n → n ∈ st.nodes
  importing : ∀ j n, st.importingSlotsFrom j = some n → n ∈ st.nodes
  failReports : ∀ p ∈ st.nodes, ∀ n ∈ (st.node p).failReports.map FailReport.node, n ∈ st.nodes
  mfSlave : ∀ s, st.mfSlave = some s → s ∈ st.nodes

namespace Graph

variable {st st' : State N}

/-- Nothing the references depend on changes. -/
theorem of_links (h : Graph st) (hw : Wf st') (hl : Links st st')
    (hlinks : TwoWay st.nodes (fun m => (st'.node m).slaves) (fun n => (st'.node n).slaveof)) :
    Graph st' where
  links := by
    rw [hl.nodes]
    exact hlinks
  slots := fun j n hj => ((hw.slots.owner j n).mp hj).1
  migrating := by
    intro j n hj
    rw [hl.nodes]
    exact h.migrating j n (hl.migratingSlotsTo j n hj)
  importing := by
    intro j n hj
    rw [hl.nodes]
    exact h.importing j n (hl.importingSlotsFrom j n hj)
  failReports := by
    intro p hp n hn
    rw [hl.nodes] at hp ⊢
    exact h.failReports p hp n ((hl.node p).failReports.subset hn)
  mfSlave := by
    intro s hs
    rw [hl.nodes]
    rcases hl.mfSlave with hmf | hmf
    · exact h.mfSlave s (hmf ▸ hs)
    · rw [hmf] at hs
      cases hs

theorem frame (h : Graph st) (hw : Wf st') (hf : Frame st st') : Graph st' where
  links := h.links.congr (fun n => by rw [hf.nodes]) (fun n _ => (hf.node n).slaves)
    fun n _ => (hf.node n).slaveof
  slots := fun j n hj => ((hw.slots.owner j n).mp hj).1
  migrating := by
    rw [hf.migratingSlotsTo, hf.nodes]
    exact h.migrating
  importing := by
    rw [hf.importingSlotsFrom, hf.nodes]
    exact h.importing
  failReports := by
    intro p hp n hn
    rw [hf.nodes] at hp ⊢
    rw [(hf.node p).failReports] at hn
    exact h.failReports p hp n hn
  mfSlave := by
    rw [hf.mfSlave, hf.nodes]
    exact h.mfSlave

variable {m n s : Ptr}

theorem setNodeAsMaster (h : Graph st) (hw : Wf (clusterSetNodeAsMaster st n)) (hn : n ∈ st.nodes) :
    Graph (clusterSetNodeAsMaster st n) := by
  cases hm : (st.node n).flags.master with
  | true =>
    have heq : clusterSetNodeAsMaster st n = st := by simp [clusterSetNodeAsMaster, hm]
    rw [heq]
    exact h
  | false =>
    refine h.of_links hw (Links.setNodeAsMaster st n) ?_
    refine (h.links.leave hn).congr (fun _ => Iff.rfl) (fun p _ => ?_) fun p _ => ?_
    · rw [clusterSetNodeAsMaster_node hm]
      rfl
    · rw [clusterSetNodeAsMaster_node hm, Function.update_apply]

theorem changed (h : Graph st) (hs : s ∈ st.nodes) (hm : m ∈ st.nodes) :
    TwoWay st.nodes (fun p => if p = m then slavesWith (slavesWithout st s p) s else slavesWithout st s p)
      (fun p => if p = s then some m else (st.node p).slaveof) := by
  have hleave := h.links.leave hs
  have hjoin := hleave.join hs hm (by rw [Function.update_self])
  refine hjoin.congr (fun _ => Iff.rfl) (fun p hp => ?_) fun p _ => ?_
  · have hnot : s ∉ slavesWithout st s p := fun hmem => by
      have := (hleave.agree p hp s hs).mp hmem
      rw [Function.update_self] at this
      cases this
    split
    · exact if_neg hnot
    · rfl
  · rw [Function.update_idem, Function.update_apply]

theorem changeMaster (h : Graph st) (hw : Wf (changeMaster st s m)) (hs : s ∈ st.nodes)
    (hm : m ∈ st.nodes) : Graph (changeMaster st s m) := by
  refine h.of_links hw (Links.changeMaster st s m) ?_
  refine (h.changed hs hm).congr (fun _ => Iff.rfl) (fun p _ => ?_) fun p _ => ?_
  · rw [changeMaster_node]
  · rw [changeMaster_node]

theorem setMaster (h : Graph st) (hself : MyselfInv st) (hw : Wf (clusterSetMaster st n))
    (hn : n ∈ st.nodes) : Graph (clusterSetMaster st n) := by
  refine h.of_links hw (Links.setMaster st n) ?_
  have hslaves : ∀ p, ((leaveRole st).node p).slaves = slavesWithout st st.myself p := by
    intro p
    rw [leaveRole_node]
    dsimp only
    split
    · next hm =>
      -- a master has no master to leave
      have hrole := hself.role
      rw [hm] at hrole
      have hnone : (st.node st.myself).slaveof = none := by
        by_contra hne
        have hslave := hself.slaveof hne
        rw [hrole] at hslave
        cases hslave
      simp [slavesWithout, hnone]
    · rfl
  refine (h.changed hself.mem hn).congr (fun _ => Iff.rfl) (fun p _ => ?_) fun p _ => ?_
  · rw [clusterSetMaster_node]
    dsimp only
    rw [hslaves]
  · rw [clusterSetMaster_node]

variable [LinearOrder N]

theorem free (h : Graph st) (hw : Wf st) (hn : n ∈ st.nodes) (hw' : Wf (freeClusterNode st n))
    (hslots : ∀ j, st.slots j ≠ some n ∧ st.migratingSlotsTo j ≠ some n ∧
      st.importingSlotsFrom j ≠ some n)
    (hreports : ∀ p ∈ st.nodes, p ≠ n → n ∉ (st.node p).failReports.map FailReport.node)
    (htidy : Tidy st n) : Graph (freeClusterNode st n) := by
  have hl := Links.free hw.table hn
  have hnodes : (freeClusterNode st n).nodes = st.nodes.erase n := hl.nodes
  have hmem : ∀ p ∈ st.nodes, p ≠ n → p ∈ (freeClusterNode st n).nodes := by
    intro p hp hne
    rw [hnodes]
    exact (mem_erase_of_ne hne).mpr hp
  have hne : ∀ p ∈ (freeClusterNode st n).nodes, p ∈ st.nodes ∧ p ≠ n := by
    intro p hp
    rw [hnodes] at hp
    exact ⟨mem_of_mem_erase hp, fun hpn => hw.table.nodup.not_mem_erase (hpn ▸ hp)⟩
  refine ⟨?_, fun j p hj => ((hw'.slots.owner j p).mp hj).1, ?_, ?_, ?_, ?_⟩
  · -- its slaves lose their master, it leaves its own, and then it has no links
    have hdetach : (fun p => ((detached st n).node p).slaveof) =
        fun p => if p ∈ (st.node n).slaves then none else (st.node p).slaveof := by
      funext p
      rw [detached_node]
      dsimp only
      by_cases hp : p ∈ (st.node n).slaves
      · have hm := htidy.slaves (ne_nil_of_mem hp)
        simp [hp, hm]
      · simp [hp]
    have h1 := h.links.detach hn
    rw [← hdetach] at h1
    have h2 := (h1.leave hn).erase hn ?_ (Function.update_self (β := fun _ => Option Ptr) n none _)
    · refine h2.congr (fun p => by rw [hnodes]) (fun p hp => ?_) fun p hp => ?_
      · have hpn := (hne p (hnodes ▸ hp)).2
        obtain ⟨link, heq⟩ := freeClusterNode_node st n p
        rw [heq]
        dsimp only
        rw [if_neg hpn]
        split
        · rw [slavesWithout, detached_slaves]
        · next hslave =>
          have hnone : (st.node n).slaveof = none := by
            by_contra hsome
            exact hslave (htidy.slaveof hsome)
          rw [congrFun hdetach n, hnone]
          simp
      · have hpn := (hne p (hnodes ▸ hp)).2
        obtain ⟨link, heq⟩ := freeClusterNode_node st n p
        rw [heq, Function.update_of_ne hpn]
    · simp
  · intro j p hj
    have hj' := hl.migratingSlotsTo j p hj
    exact hmem p (h.migrating j p hj') fun hpn => (hslots j).2.1 (hpn ▸ hj')
  · intro j p hj
    have hj' := hl.importingSlotsFrom j p hj
    exact hmem p (h.importing j p hj') fun hpn => (hslots j).2.2 (hpn ▸ hj')
  · intro p hp q hq
    obtain ⟨hp', hpn⟩ := hne p hp
    have hq' := (hl.node p).failReports.subset hq
    exact hmem q (h.failReports p hp' q hq') fun hqn => hreports p hp' hpn (hqn ▸ hq')
  · intro s hs
    rw [freeClusterNode_mfSlave] at hs
    exact hmem s (h.mfSlave s hs) fun hsn => htidy.mfSlave (hsn ▸ hs)

theorem create (h : Graph st) (hw : Wf st) (now : Int) (name : N) (f : NodeFlags) :
    Graph (clusterAddNode (createClusterNode st now name f).1 st.next) := by
  have hnot : st.next ∉ st.nodes := fun hn => Nat.lt_irrefl _ (hw.table.next _ hn)
  have hold : ∀ p ∈ st.nodes, Function.update st.node st.next (newNode now name f) p = st.node p :=
    fun p hp => Function.update_of_ne (Nat.ne_of_lt (hw.table.next p hp)) _ _
  rw [hw.table.create_eq]
  -- a new node has no links, and it is not in the table if its name is taken
  have hlinks : TwoWay st.nodes
      (fun m => (Function.update st.node st.next (newNode now name f) m).slaves)
      (fun n => (Function.update st.node st.next (newNode now name f) n).slaveof) :=
    h.links.congr (fun _ => Iff.rfl) (fun p hp => by rw [hold p hp]) fun p hp => by rw [hold p hp]
  have hsub : ∀ p ∈ st.nodes,
      p ∈ if (clusterLookupNode st name).isSome then st.nodes else st.nodes ++ [st.next] := by
    intro p hp
    split
    · exact hp
    · exact mem_append_left _ hp
  refine ⟨?_, fun j n hj => hsub n (h.slots j n hj), fun j n hj => hsub n (h.migrating j n hj),
    fun j n hj => hsub n (h.importing j n hj), fun p hp n hn => ?_,
    fun s hs => hsub s (h.mfSlave s hs)⟩
  · dsimp only
    split
    · exact hlinks
    · refine hlinks.add hnot ?_ ?_
      · rw [Function.update_self]
        rfl
      · rw [Function.update_self]
        rfl
  · dsimp only at hp hn
    by_cases hpn : p = st.next
    · rw [hpn, Function.update_self] at hn
      exact absurd hn not_mem_nil
    · rw [Function.update_of_ne hpn] at hn
      have hp' : p ∈ st.nodes := by
        split at hp
        · exact hp
        · simpa [hpn] using hp
      exact hsub n (h.failReports p hp' n hn)

theorem rename (h : Graph st) (hw : Wf st) {p : Ptr} (hp : p ∈ st.nodes) {name : N}
    (hname : clusterLookupNode st name = none) : Graph (clusterRenameNode st p name) := by
  rw [hw.table.rename_eq hp hname]
  have hperm : ∀ q, q ∈ st.nodes.erase p ++ [p] ↔ q ∈ st.nodes := by
    intro q
    rw [mem_append, mem_singleton, hw.table.nodup.mem_erase_iff]
    by_cases hq : q = p
    · simp [hq, hp]
    · simp [hq]
  have hnode : ∀ q, ((st.modNode p fun x => { x with name }).node q).slaves = (st.node q).slaves ∧
      ((st.modNode p fun x => { x with name }).node q).slaveof = (st.node q).slaveof ∧
      ((st.modNode p fun x => { x with name }).node q).failReports = (st.node q).failReports := by
    intro q
    rw [State.modNode_node]
    split
    · exact ⟨rfl, rfl, rfl⟩
    · exact ⟨rfl, rfl, rfl⟩
  refine ⟨h.links.congr hperm (fun q _ => (hnode q).1) fun q _ => (hnode q).2.1,
    fun j n hj => (hperm n).mpr (h.slots j n hj), fun j n hj => (hperm n).mpr (h.migrating j n hj),
    fun j n hj => (hperm n).mpr (h.importing j n hj), fun q hq n hn => ?_,
    fun s hs => (hperm s).mpr (h.mfSlave s hs)⟩
  have hn' : n ∈ (st.node q).failReports.map FailReport.node := (hnode q).2.2 ▸ hn
  exact (hperm n).mpr (h.failReports q ((hperm q).mp hq) n hn')

omit [LinearOrder N] in
theorem failureReport (h : Graph st) (now : Int) (failing : Ptr) {sender : Ptr}
    (hsender : sender ∈ st.nodes) : Graph (clusterNodeAddFailureReport st now failing sender) := by
  have hnode : ∀ q, ((clusterNodeAddFailureReport st now failing sender).node q).slaves =
      (st.node q).slaves ∧
      ((clusterNodeAddFailureReport st now failing sender).node q).slaveof = (st.node q).slaveof := by
    intro q
    rw [clusterNodeAddFailureReport, State.modNode_node]
    split
    · exact ⟨rfl, rfl⟩
    · exact ⟨rfl, rfl⟩
  refine ⟨h.links.congr (fun _ => Iff.rfl) (fun q _ => (hnode q).1) fun q _ => (hnode q).2, h.slots,
    h.migrating, h.importing, fun p hp n hn => ?_, h.mfSlave⟩
  rw [clusterNodeAddFailureReport, State.modNode_node] at hn
  split at hn
  · have hmap : ((st.node p).failReports.map fun fr => if fr.node = sender then { fr with time := now }
        else fr).map FailReport.node = (st.node p).failReports.map FailReport.node := by
      rw [map_map]
      refine map_congr_left fun fr _ => ?_
      simp only [Function.comp_apply]
      split
      · rfl
      · rfl
    dsimp only at hn
    split at hn
    · exact h.failReports p hp n (hmap ▸ hn)
    · rw [map_append, mem_append] at hn
      rcases hn with hn | hn
      · exact h.failReports p hp n hn
      · rw [show n = sender from by simpa using hn]
        exact hsender
  · exact h.failReports p hp n hn

theorem hardReset (h : Graph st) (hw : Wf st) (hnodes : st.nodes = [st.myself]) (env : Env N) :
    Graph (hardReset env st) := by
  rw [hw.table.hardReset_eq hnodes]
  have hnode : ∀ q, ((st.modNode st.myself fun x =>
        { x with configEpoch := 0, name := env.newName st.next }).node q).slaves = (st.node q).slaves ∧
      ((st.modNode st.myself fun x =>
        { x with configEpoch := 0, name := env.newName st.next }).node q).slaveof =
        (st.node q).slaveof ∧
      ((st.modNode st.myself fun x =>
        { x with configEpoch := 0, name := env.newName st.next }).node q).failReports =
        (st.node q).failReports := by
    intro q
    rw [State.modNode_node]
    split
    · exact ⟨rfl, rfl, rfl⟩
    · exact ⟨rfl, rfl, rfl⟩
  refine ⟨h.links.congr (fun _ => Iff.rfl) (fun q _ => (hnode q).1) fun q _ => (hnode q).2.1, h.slots,
    h.migrating, h.importing, fun p hp n hn => ?_, h.mfSlave⟩
  have hn' : n ∈ (st.node p).failReports.map FailReport.node := (hnode p).2.2 ▸ hn
  exact h.failReports p hp n hn'

variable {g : Guard N}

/-- A small change keeps the graph closed, unless it leaves links behind. -/
theorem micro (hg : ¬g.links) (hw : Wf st) (h : Graph st) (hm : Micro g st st') : Graph st' := by
  have hw' := hw.micro hm
  cases hm with
  | soft hs =>
    refine h.of_links hw' (.of_soft hs) (h.links.congr (fun _ => Iff.rfl) ?_ ?_)
    · exact fun p _ => (hs.node p).slaves
    · exact fun p _ => (hs.node p).slaveof
  | assert _ b a =>
    rw [State.assert_eq]
    exact { h with }
  | addSlot _ n j => exact h.frame hw' (Frame.addSlot st n j)
  | delSlot _ j => exact h.frame hw' (Frame.delSlot st j)
  | create _ now name f => exact h.create hw now name f
  | free _ n hn _ hslots hreports htidy _ =>
    exact h.free hw hn hw' hslots hreports (htidy.resolve_left hg)
  | endHandshake _ p name m s hp _ _ hnone =>
    have h1 := h.rename hw hp hnone
    generalize clusterRenameNode st p name = st1 at h1 hw' ⊢
    have hl := Links.modNode st1 p (f := fun x => { x with flags := { x.flags with
      handshake := false, master := x.flags.master || m, slave := x.flags.slave || s } })
      fun _ => ⟨rfl, rfl, rfl, rfl, rfl, rfl, .refl _⟩
    refine h1.of_links hw' hl (h1.links.congr (fun _ => Iff.rfl) (fun q _ => ?_) fun q _ => ?_)
    · rw [State.modNode_node]
      split
      · rfl
      · rfl
    · rw [State.modNode_node]
      split
      · rfl
      · rfl
  | setNodeAsMaster _ n hn => exact h.setNodeAsMaster hw' hn
  | demote _ s hs _ _ hslaves =>
    have hnil := hslaves.resolve_left hg
    refine h.of_links hw' (Links.demote st s) (h.links.congr (fun _ => Iff.rfl) ?_ ?_)
    · intro q _
      simp only [clusterNodeResetSlaves, State.modNode_node]
      split
      · next hq => rw [hq, hnil]
      · rfl
    · intro q _
      simp only [clusterNodeResetSlaves, State.modNode_node]
      split
      · rfl
      · rfl
  | changeMaster _ s m hs hm => exact h.changeMaster hw' hs hm
  | setMaster _ n hn => exact h.setMaster hw.myself hw' hn
  | failureReport _ now failing sender hsender => exact h.failureReport now failing hsender
  | openSlots _ mig imp hmig himp =>
    refine { h with migrating := ?_, importing := ?_ }
    · intro j n hj
      rcases hmig j n hj with hn | hn
      · exact hn.2
      · exact h.migrating j n hn
    · intro j n hj
      rcases himp j n hj with hn | hn
      · exact hn.2
      · exact h.importing j n hn
  | mfSlave _ s hs => exact { h with mfSlave := hs }
  | current _ e => exact { h with }
  | config _ n e =>
    exact h.frame hw' (Frame.modNode st n fun _ => ⟨rfl, rfl, rfl, rfl, rfl, rfl⟩)
  | newEpoch => exact h.frame hw' (Frame.takeNewEpoch st)
  | election => exact { h with }
  | win => exact h.frame hw' (Frame.modNode st _ fun _ => ⟨rfl, rfl, rfl, rfl, rfl, rfl⟩)
  | vote env _ n => exact h.frame hw' { Frame.sendFailoverAuth env st n with }
  | send _ p msg => exact { h with }
  | save _ fsync => exact { h with }
  | flush => exact { h with }
  | hardReset env _ _ hnodes => exact h.hardReset hw hnodes env

theorem load {st0 : State N} (hw : Wf st0) (env : Env N) (sent : List (Option N × Msg N)) :
    Graph (clusterInit env (some (configLines st0)) sent) := by
  obtain ⟨st1, hl, heq⟩ := clusterInit_eq env hw.nodeLines st0.currentEpoch st0.lastVoteEpoch sent
  rw [configLines_eq, heq]
  -- a record that is not in the table has no master
  have hmem : ∀ s m, (st1.node s).slaveof = some m → s ∈ st1.nodes := by
    intro s m hs
    by_contra hnot
    rw [(hl.other s fun l _ hmem => absurd hmem hnot).2.2] at hs
    cases hs
  have hopen : ∀ (b : Bool) (new : Nat → Option Ptr),
      OpenLoaded st1 ((nodeLines st0).flatMap NodeLine.openSlots) b (fun _ => none) new →
      ∀ j n, new j = some n → n ∈ st1.nodes := by
    intro b new hnew j n hj
    rcases hnew j with ⟨_, _, _, _, p, hp, hp', _⟩ | ⟨_, hnone⟩
    · exact Option.some.inj (hp'.symm.trans hj) ▸ hp
    · rw [hnone] at hj
      cases hj
  refine ⟨⟨?_, ?_, ?_, ?_⟩, fun j n hj => ((hl.slots.owner j n).mp hj).1, hopen true _ hl.migrating,
    hopen false _ hl.importing, fun p _ n hn => ?_, fun s hs => by cases hs⟩
  · intro n _ m hm
    rw [loadedState_node] at hm
    exact hl.master n m hm
  · intro m _ n hn
    rw [loadedState_node] at hn
    exact hmem n m ((hl.slaves m n).mp hn)
  · intro m _ n _
    rw [loadedState_node, loadedState_node]
    exact hl.slaves m n
  · intro m _
    rw [loadedState_node]
    exact hl.slavesNodup m
  · rw [loadedState_node] at hn
    dsimp only at hn
    rw [hl.failReports p] at hn
    exact absurd hn not_mem_nil

omit [LinearOrder N] in
theorem fresh (env : Env N) (sent : List (Option N × Msg N)) : Graph (freshState env sent) := by
  have hnode : ∀ p, ((freshState env sent).node p).slaves = [] ∧
      ((freshState env sent).node p).slaveof = none ∧
      ((freshState env sent).node p).failReports = [] := by
    intro p
    by_cases hp : p = 1
    · subst hp
      exact ⟨rfl, rfl, rfl⟩
    · simp [freshState, hp, newNode]
  refine ⟨⟨fun n _ m hm => ?_, fun m _ n hn => ?_, fun m _ n _ => ?_, fun m _ => ?_⟩,
    ?_, ?_, ?_, fun p _ n hn => ?_, ?_⟩
  · rw [(hnode n).2.1] at hm
    cases hm
  · rw [(hnode m).1] at hn
    exact absurd hn not_mem_nil
  · rw [(hnode m).1, (hnode n).2.1]
    simp
  · rw [(hnode m).1]
    exact nodup_nil
  · exact fun j n hj => by cases hj
  · exact fun j n hj => by cases hj
  · exact fun j n hj => by cases hj
  · rw [(hnode p).2.2] at hn
    exact absurd hn not_mem_nil
  · exact fun s hs => by cases hs

end Graph

variable [LinearOrder N] {st : State N}

/-- In a run in which no node is deleted or turned into a slave while links to it
are left behind, the references of the state are to nodes of the table, and the
links between masters and slaves agree. -/
theorem reachable_graph (h : Reachable (fun st ev => ev.Ok st ∧ ev.TidyLinks st) st) : Graph st := by
  refine (h.invariant (fun ev => { ev.guard with links := False }) ?_ ?_ ?_ ?_).2.1
  · intro st ev _ _ hok _
    exact ⟨hok.1, fun _ hn => hn, hok.1.sender, .inl trivial, .inl trivial, .inl trivial, .inr hok.2,
      fun _ => trivial, fun _ => trivial⟩
  · exact fun ev st st' hw hi hm => hi.micro (fun hg => hg) hw hm
  · exact fun env => Graph.fresh env []
  · exact fun env st st0 _ hw _ _ _ => Graph.load hw env st.sent

/-- A node that became a slave with `CLUSTER REPLICATE`. -/
theorem graph_replicate :
    (replicateEvents.foldl step (clusterInit quietEnv none [])).me.slaveof = some 2 ∧
      Graph (replicateEvents.foldl step (clusterInit quietEnv none [])) := by
  have h : Reachable (fun st ev => ev.Ok st ∧ ev.TidyLinks st) (clusterInit quietEnv none []) :=
    .start quietEnv
  refine ⟨by decide, reachable_graph (h.run ⟨⟨trivial, trivial⟩, ⟨trivial, ?_⟩, ⟨masterPong_ok ?_, ?_⟩,
    ⟨trivial, trivial⟩, trivial⟩)⟩
  · have hnone : ∀ p ∈ (replicateEvents.take 1).foldl step (clusterInit quietEnv none []) |>.nodes,
        handshakeTimedOut quietEnv ((replicateEvents.take 1).foldl step (clusterInit quietEnv none []))
          p = false := by decide
    exact fun p hp ht => absurd ((hnone p hp).symm.trans ht) Bool.false_ne_true
  · decide
  · have hnone : clusterLookupNode ((replicateEvents.take 2).foldl step (clusterInit quietEnv none []))
        7 = none := by decide
    refine ⟨fun _ l s _ _ hs => ?_, fun _ s hs => ?_⟩
    · exact absurd (hnone.symm.trans hs) (by simp)
    · exact absurd (hnone.symm.trans hs) (by simp)

theorem clusterCommand_forget {env : Env N} {name : N} {n : Ptr}
    (hlookup : clusterLookupNode st name = some n) (hne : n ≠ st.myself)
    (hmaster : st.me.slaveof ≠ some n) :
    (clusterCommand env st (.forget name)).1 =
      todoState (todoSave (clusterDelNode env (clusterBlacklistAddNode st env n) n)) := by
  have hm : ¬(st.me.flags.slave = true ∧ st.me.slaveof = some n) := fun h => hmaster h.2
  rw [clusterCommand, hlookup]
  dsimp only
  rw [if_neg hne, if_neg hm]

omit [LinearOrder N] in
theorem todo_refs (st : State N) : (todoState (todoSave st)).mfSlave = st.mfSlave ∧
    (todoState (todoSave st)).nodes = st.nodes := ⟨rfl, rfl⟩

/-- `CLUSTER FORGET` of the slave of a manual failover leaves `mf_slave` behind. -/
theorem forget_mfSlave (env : Env N) {name : N} {n : Ptr} (hw : Wf st) (hfailed : st.failed = none)
    (hlookup : clusterLookupNode st name = some n) (hne : n ≠ st.myself)
    (hmaster : st.me.slaveof ≠ some n) (hmf : st.mfSlave = some n) :
    (step st (.command env (.forget name))).mfSlave = some n ∧
      n ∉ (step st (.command env (.forget name))).nodes := by
  have hn := (clusterLookupNode_some hlookup).1
  have hsoft : Soft st (clusterBlacklistAddNode st env n) := { Soft.refl st with }
  have hw1 : Wf (clusterBlacklistAddNode st env n) :=
    hw.micro (g := Guard.none) (.soft hsoft)
  obtain ⟨hnodes, hthin⟩ := delNode_thin hw1 env (n := n) hn hne
  rw [step_eq st (by simp), hfailed, Option.isSome_none, if_neg Bool.false_ne_true, runEvent,
    clusterCommand_forget hlookup hne hmaster, (todo_refs _).1, (todo_refs _).2, hnodes]
  exact ⟨hthin.mfSlave.trans hmf, hw.table.nodup.not_mem_erase⟩

/-- The node named 7 joins, becomes a slave of this node and starts a manual
failover. -/
def manualFailoverEvents : List (Event Nat) :=
  [.command quietEnv (.meet [49] 6379), .cron quietEnv, .packet quietEnv (some 2) (masterPong 7),
    .packet quietEnv (some 2) { masterPong 7 with slaveof := some 101, flags := { slave := true } },
    .packet quietEnv none { masterPong 7 with
      data := .mfstart, slaveof := some 101, flags := { slave := true } }]

/-- The slave of a manual failover is forgotten, and `mf_slave` is a pointer to
no node. -/
theorem forget_dangling : ∃ st : State Nat, Reachable (fun st ev => ev.Ok st) st ∧
    st.mfSlave = some 2 ∧ 2 ∉ st.nodes ∧ ¬Graph st := by
  have h : Reachable (fun st ev => ev.Ok st) (clusterInit quietEnv none []) := .start quietEnv
  have hrun : Reachable (fun st ev => ev.Ok st)
      (manualFailoverEvents.foldl step (clusterInit quietEnv none [])) := by
    refine h.run ⟨trivial, trivial, masterPong_ok (by decide), quietPacket_ok rfl ?_ rfl ?_ (by decide),
      quietPacket_ok rfl (by simp) rfl (by simp) (by decide), trivial⟩
    · rintro _ ⟨⟩
      decide
    · simp [masterPong]
  have hw : Wf (manualFailoverEvents.foldl step (clusterInit quietEnv none [])) :=
    hrun.wf fun _ _ hok => hok
  have hlookup : clusterLookupNode (manualFailoverEvents.foldl step (clusterInit quietEnv none [])) 7 =
      some 2 := by decide
  obtain ⟨hmf, hnot⟩ := forget_mfSlave quietEnv hw (by decide) hlookup (by decide)
    (by decide) (by decide)
  exact ⟨_, .step (.command quietEnv (.forget 7)) hrun trivial, hmf, hnot,
    fun hg => hnot (hg.mfSlave 2 hmf)⟩

end Redis.Bus
