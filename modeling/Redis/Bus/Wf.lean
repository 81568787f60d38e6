import Redis.Bus.Table

/-!
# Redis.Bus.Wf

The record of the node itself keeps to `MyselfInv`, and with `Redis.Bus.Table`
every small change keeps the state well formed.
-/

namespace Redis.Bus

open List

variable {N : Type}

/-! ## Roles and links -/

section Roles

variable {st st' : State N}

theorem detachSlaves_node (st : State N) (slaves : List Ptr) (p : Ptr) :
    (detachSlaves st slaves).node p =
      if p ∈ slaves then { st.node p with slaveof := none } else st.node p := by
  unfold detachSlaves
  induction slaves generalizing st with
  | nil => simp
  | cons s slaves ih =>
    rw [foldl_cons, ih]
    by_cases hps : p = s
    · subst hps
      simp
    · simp [hps]

/-- The slaves of `m` when `s` has left its master. -/
def slavesWithout (st : State N) (s m : Ptr) : List Ptr :=
  if (st.node s).slaveof = some m then (st.node m).slaves.erase s else (st.node m).slaves

/-- The slaves of a master with `s`. -/
def slavesWith (slaves : List Ptr) (s : Ptr) : List Ptr :=
  if s ∈ slaves then slaves else slaves ++ [s]

theorem leaveMaster_node (st : State N) (s p : Ptr) :
    (leaveMaster st s).node p = { st.node p with slaves := slavesWithout st s p } := by
  unfold leaveMaster slavesWithout
  cases (st.node s).slaveof with
  | none => simp
  | some m =>
    by_cases hp : p = m
    · simp [hp, clusterNodeRemoveSlave]
    · simp [hp, Ne.symm hp, clusterNodeRemoveSlave]

/-- The state in which the slaves of `n` have lost their master. -/
def detached (st : State N) (n : Ptr) : State N :=
  if (st.node n).flags.master then detachSlaves st (st.node n).slaves else st

theorem detached_node (st : State N) (n p : Ptr) :
    (detached st n).node p =
      { st.node p with
        slaveof := if (st.node n).flags.master = true ∧ p ∈ (st.node n).slaves then none
          else (st.node p).slaveof } := by
  unfold detached
  split
  · next hm =>
    rw [detachSlaves_node]
    by_cases hp : p ∈ (st.node n).slaves
    · simp [hm, hp]
    · simp [hp]
  · next hm => simp [hm]

theorem detached_slaves (st : State N) (n p : Ptr) :
    ((detached st n).node p).slaves = (st.node p).slaves := by
  rw [detached_node]

theorem slavesWithout_sublist (st : State N) (s m : Ptr) :
    (slavesWithout st s m).Sublist (st.node m).slaves := by
  unfold slavesWithout
  split
  · exact erase_sublist
  · exact Sublist.refl _

theorem detachSlaves_mfSlave (st : State N) (slaves : List Ptr) :
    (detachSlaves st slaves).mfSlave = st.mfSlave := by
  unfold detachSlaves
  induction slaves generalizing st with
  | nil => rfl
  | cons s slaves ih => exact ih _

theorem leaveMaster_mfSlave (st : State N) (n : Ptr) :
    (leaveMaster st n).mfSlave = st.mfSlave := by
  unfold leaveMaster
  split
  · rfl
  · rfl

/-- A freed node stays the slave of a manual failover. -/
theorem freeClusterNode_mfSlave [DecidableEq N] (st : State N) (n : Ptr) :
    (freeClusterNode st n).mfSlave = st.mfSlave := by
  unfold freeClusterNode
  extract_lets st1 st2 st3 st4
  have h1 : st1.mfSlave = st.mfSlave := by
    unfold st1
    split
    · exact detachSlaves_mfSlave st _
    · rfl
  have h2 : st2.mfSlave = st1.mfSlave := by
    unfold st2
    split
    · exact leaveMaster_mfSlave st1 n
    · rfl
  have h3 : st3.mfSlave = st2.mfSlave := by
    unfold st3
    rw [State.assert_eq]
  have h4 : st4.mfSlave = st3.mfSlave := by
    unfold st4 dictDeleteNode
    split
    · rfl
    · rfl
  exact h4.trans (h3.trans (h2.trans h1))

/-- What `freeClusterNode` does to the records: the slaves of the node lose
their master, and its master loses it. -/
theorem freeClusterNode_node [DecidableEq N] (st : State N) (n p : Ptr) :
    ∃ link, (freeClusterNode st n).node p =
      { st.node p with
        slaveof := ((detached st n).node p).slaveof
        slaves := if (st.node n).flags.slave then slavesWithout (detached st n) n p
          else (st.node p).slaves
        link } := by
  unfold freeClusterNode
  extract_lets st1 st2 st3 st4
  have h1 : st1 = detached st n := rfl
  have h2 : st2.node p = { st.node p with
      slaveof := ((detached st n).node p).slaveof
      slaves := if (st.node n).flags.slave then slavesWithout (detached st n) n p
        else (st.node p).slaves } := by
    have hslave : (st1.node n).flags.slave = (st.node n).flags.slave := by rw [h1, detached_node]
    unfold st2
    rw [hslave, h1]
    split
    · rw [leaveMaster_node, detached_node]
    · rw [detached_node]
  have h4 : st4.node p = st2.node p := by
    unfold st4 dictDeleteNode
    split
    · exact State.assert_node st2 _ _ p
    · exact State.assert_node st2 _ _ p
  rw [State.modNode_node, h4, h2]
  split
  · exact ⟨none, rfl⟩
  · exact ⟨_, rfl⟩

theorem clusterSetNodeAsMaster_node {n : Ptr} (h : (st.node n).flags.master = false) (p : Ptr) :
    (clusterSetNodeAsMaster st n).node p =
      { st.node p with
        flags := if p = n then { (st.node p).flags with slave := false, master := true }
          else (st.node p).flags
        slaveof := if p = n then none else (st.node p).slaveof
        slaves := slavesWithout st n p } := by
  unfold clusterSetNodeAsMaster
  simp only [h, Bool.false_eq_true, if_false, todoState, todoSave, State.modNode_node,
    leaveMaster_node]
  split_ifs <;> rfl

theorem changeMaster_node (st : State N) (s m p : Ptr) :
    (changeMaster st s m).node p =
      { st.node p with
        slaveof := if p = s then some m else (st.node p).slaveof
        slaves := if p = m then slavesWith (slavesWithout st s p) s else slavesWithout st s p } := by
  unfold changeMaster slavesWith
  simp only [todoSave, clusterNodeAddSlave, State.modNode_node, leaveMaster_node]
  split_ifs <;> rfl

/-- A node that leaves its role: a master leaves no master. -/
theorem leaveRole_node (st : State N) (p : Ptr) :
    (leaveRole st).node p =
      { st.node p with
        flags := if p = st.myself ∧ st.me.flags.master = true then
            { (st.node p).flags with master := false, slave := true }
          else (st.node p).flags
        slaves := if st.me.flags.master = true then (st.node p).slaves
          else slavesWithout st st.myself p } := by
  unfold leaveRole
  split
  · next hm =>
    simp only [clusterCloseAllSlots, State.modNode_node, hm, and_true]
    split_ifs <;> rfl
  · next hm =>
    have hneg : ¬(p = st.myself ∧ st.me.flags.master = true) := fun h => hm h.2
    rw [leaveMaster_node, if_neg hneg]

theorem clusterSetMaster_node (st : State N) (n p : Ptr) :
    (clusterSetMaster st n).node p =
      { st.node p with
        flags := ((leaveRole st).node p).flags
        slaveof := if p = st.myself then some n else (st.node p).slaveof
        slaves := if p = n then slavesWith ((leaveRole st).node p).slaves st.myself
          else ((leaveRole st).node p).slaves } := by
  unfold clusterSetMaster
  extract_lets st1 st2 st3 st4
  have h2 : st2 = { st with failed := st2.failed } := by
    unfold st2
    rw [State.assert_eq st1]
    unfold st1
    rw [State.assert_eq st]
  have hnode : ∀ q, st3.node q = (leaveRole st).node q := by
    intro q
    unfold st3
    rw [h2, leaveRole_node, leaveRole_node]
    rfl
  have hmyself : st3.myself = st.myself := by
    have h3 : st3.myself = st2.myself := (Links.leaveRole st2).myself
    rw [h3, h2]
  simp only [resetManualFailover, clusterNodeAddSlave, State.modNode_node, State.modNode_myself,
    st4, hmyself, hnode]
  rw [leaveRole_node]
  by_cases hn : p = n
  · by_cases hme : p = st.myself
    · simp only [if_pos hn, if_pos hme]
      rfl
    · simp only [if_pos hn, if_neg hme]
      rfl
  · by_cases hme : p = st.myself
    · simp only [if_neg hn, if_pos hme]
      rfl
    · simp only [if_neg hn, if_neg hme]
      rfl

theorem MyselfInv.of_eq (h : MyselfInv st) (hmyself : st'.myself = st.myself)
    (hmem : st.myself ∈ st'.nodes) (hnodes : ∀ p ∈ st'.nodes, p ∈ st.nodes)
    (hflag : ∀ p ∈ st.nodes, (st'.node p).flags.myself = (st.node p).flags.myself)
    (hhandshake : (st'.node st.myself).flags.handshake = st.me.flags.handshake)
    (hmaster : (st'.node st.myself).flags.master = st.me.flags.master)
    (hslave : (st'.node st.myself).flags.slave = st.me.flags.slave)
    (hslaveof : (st'.node st.myself).slaveof ≠ none → st.me.slaveof ≠ none) : MyselfInv st' := by
  have hme : st'.me = st'.node st.myself := by rw [State.me, hmyself]
  constructor
  · rw [hmyself]
    exact hmem
  · intro p hp
    rw [hflag p (hnodes p hp), hmyself]
    exact h.flag p (hnodes p hp)
  · rw [hme, hhandshake]
    exact h.handshake
  · rw [hme, hmaster, hslave]
    exact h.role
  · rw [hme, hslave]
    exact fun hne => h.slaveof (hslaveof hne)

theorem MyselfInv.of_role (h : MyselfInv st) (hl : Links st st')
    (hhandshake : (st'.node st.myself).flags.handshake = false)
    (hrole : (st'.node st.myself).flags.slave = !(st'.node st.myself).flags.master)
    (hslaveof : (st'.node st.myself).slaveof ≠ none → (st'.node st.myself).flags.slave = true) :
    MyselfInv st' := by
  have hme : st'.me = st'.node st.myself := by rw [State.me, hl.myself]
  constructor
  · rw [hl.myself, hl.nodes]
    exact h.mem
  · intro p hp
    rw [hl.nodes] at hp
    rw [(hl.node p).myself, hl.myself]
    exact h.flag p hp
  · rw [hme]
    exact hhandshake
  · rw [hme]
    exact hrole
  · rw [hme]
    exact hslaveof

end Roles

/-! ## The record of the node itself -/

section Myself

variable {st st' : State N}

theorem MyselfInv.soft (h : MyselfInv st) (hs : Soft st st') : MyselfInv st' := by
  have hme := hs.node st.myself
  refine h.of_eq hs.myself ?_ ?_ (fun p _ => (hs.node p).myself) hme.handshake hme.master hme.slave ?_
  · rw [hs.nodes]
    exact h.mem
  · rw [hs.nodes]
    exact fun _ hp => hp
  · rw [hme.slaveof]
    exact fun hne => hne

theorem MyselfInv.endHandshake (h : MyselfInv st) {p : Ptr} (hp : p ≠ st.myself) (m s : Bool) :
    MyselfInv (st.modNode p fun x => { x with flags := { x.flags with
      handshake := false, master := x.flags.master || m, slave := x.flags.slave || s } }) := by
  have hl : Links st (st.modNode p fun x => { x with flags := { x.flags with
      handshake := false, master := x.flags.master || m, slave := x.flags.slave || s } }) :=
    Links.modNode st p fun _ => ⟨rfl, rfl, rfl, rfl, rfl, rfl, .refl _⟩
  have hme : ∀ f, (State.modNode st p f).node st.myself = st.me := by
    intro f
    rw [State.modNode_node, if_neg (Ne.symm hp)]
    rfl
  refine h.of_role hl ?_ ?_ ?_
  · rw [hme]
    exact h.handshake
  · rw [hme]
    exact h.role
  · rw [hme]
    exact h.slaveof

theorem MyselfInv.setNodeAsMaster (h : MyselfInv st) (n : Ptr) :
    MyselfInv (clusterSetNodeAsMaster st n) := by
  cases hm : (st.node n).flags.master with
  | true =>
    have heq : clusterSetNodeAsMaster st n = st := by simp [clusterSetNodeAsMaster, hm]
    rw [heq]
    exact h
  | false =>
    have hnode := clusterSetNodeAsMaster_node hm st.myself
    refine h.of_role (Links.setNodeAsMaster st n) ?_ ?_ ?_
    · rw [hnode]
      split_ifs
      · exact h.handshake
      · exact h.handshake
    · rw [hnode]
      split_ifs
      · rfl
      · exact h.role
    · rw [hnode]
      split_ifs
      · exact fun hne => absurd rfl hne
      · exact h.slaveof

theorem MyselfInv.demote (h : MyselfInv st) (s : Ptr) :
    MyselfInv (clusterNodeResetSlaves (st.modNode s fun x =>
      { x with flags := { x.flags with master := false, slave := true } }) s) := by
  refine h.of_role (Links.demote st s) ?_ ?_ ?_
  · simp only [clusterNodeResetSlaves, State.modNode_node]
    split_ifs
    · exact h.handshake
    · exact h.handshake
  · simp only [clusterNodeResetSlaves, State.modNode_node]
    split_ifs
    · rfl
    · exact h.role
  · simp only [clusterNodeResetSlaves, State.modNode_node]
    split_ifs
    · exact fun _ => rfl
    · exact h.slaveof

theorem MyselfInv.changeMaster (h : MyselfInv st) {s : Ptr} (hs : (st.node s).flags.master = false)
    (m : Ptr) : MyselfInv (changeMaster st s m) := by
  have hnode := changeMaster_node st s m st.myself
  refine h.of_role (Links.changeMaster st s m) ?_ ?_ ?_
  · rw [hnode]
    exact h.handshake
  · rw [hnode]
    exact h.role
  · rw [hnode]
    dsimp only
    split_ifs with hme
    · subst hme
      intro _
      have hrole := h.role
      rw [State.me, hs] at hrole
      exact hrole
    · exact h.slaveof

theorem MyselfInv.setMaster (h : MyselfInv st) (n : Ptr) : MyselfInv (clusterSetMaster st n) := by
  have hnode := clusterSetMaster_node st n st.myself
  rw [leaveRole_node] at hnode
  refine h.of_role (Links.setMaster st n) ?_ ?_ ?_
  · rw [hnode]
    dsimp only
    split_ifs
    · exact h.handshake
    · exact h.handshake
  · rw [hnode]
    dsimp only
    split_ifs
    · rfl
    · exact h.role
  · rw [hnode]
    intro _
    cases hm : st.me.flags.master with
    | true => simp
    | false =>
      have hrole := h.role
      rw [hm] at hrole
      simpa [State.me] using hrole

theorem MyselfInv.openSlots (h : MyselfInv st) (mig imp : Nat → Option Ptr) :
    MyselfInv { st with migratingSlotsTo := mig, importingSlotsFrom := imp } :=
  { h with }

theorem MyselfInv.failureReport (h : MyselfInv st) (now : Int) (failing sender : Ptr) :
    MyselfInv (clusterNodeAddFailureReport st now failing sender) := by
  have hnode : ∀ p, ((clusterNodeAddFailureReport st now failing sender).node p).flags =
      (st.node p).flags ∧ ((clusterNodeAddFailureReport st now failing sender).node p).slaveof =
      (st.node p).slaveof := by
    intro p
    simp only [clusterNodeAddFailureReport, State.modNode_node]
    split
    · exact ⟨rfl, rfl⟩
    · exact ⟨rfl, rfl⟩
  have hme := hnode st.myself
  refine h.of_eq rfl h.mem (fun _ hp => hp) (fun p _ => ?_) ?_ ?_ ?_ ?_
  · rw [(hnode p).1]
  · rw [hme.1]
    rfl
  · rw [hme.1]
    rfl
  · rw [hme.1]
    rfl
  · rw [hme.2]
    exact fun hne => hne

variable [LinearOrder N]

theorem MyselfInv.create (h : MyselfInv st) (ht : TableInv st) (now : Int) (name : N)
    {f : NodeFlags} (hf : f.myself = false) :
    MyselfInv (clusterAddNode (createClusterNode st now name f).1 st.next) := by
  rw [ht.create_eq]
  have hold : ∀ p ∈ st.nodes, Function.update st.node st.next (newNode now name f) p = st.node p :=
    fun p hp => Function.update_of_ne (Nat.ne_of_lt (ht.next p hp)) _ _
  have hme := hold st.myself h.mem
  have hne : st.next ≠ st.myself := (Nat.ne_of_lt (ht.next _ h.mem)).symm
  constructor
  · change st.myself ∈ if _ then _ else _
    split
    · exact h.mem
    · exact mem_append_left _ h.mem
  · intro p hp
    have hp : p ∈ st.nodes ∨ p = st.next := by
      change p ∈ if _ then _ else _ at hp
      split at hp
      · exact .inl hp
      · simpa using hp
    rcases hp with hp | rfl
    · simp only [hold p hp]
      exact h.flag p hp
    · simp [newNode, hf, hne]
  · simp only [State.me, hme]
    exact h.handshake
  · simp only [State.me, hme]
    exact h.role
  · simp only [State.me, hme]
    exact h.slaveof

theorem MyselfInv.rename (h : MyselfInv st) (ht : TableInv st) {p : Ptr} (hp : p ∈ st.nodes)
    {name : N} (hname : clusterLookupNode st name = none) :
    MyselfInv (clusterRenameNode st p name) := by
  rw [ht.rename_eq hp hname]
  have hmem : ∀ q, q ∈ st.nodes.erase p ++ [p] ↔ q ∈ st.nodes := by
    intro q
    rw [mem_append, ht.nodup.mem_erase_iff, mem_singleton]
    grind
  have hnode : ∀ q, ((st.modNode p fun x => { x with name }).node q).flags = (st.node q).flags ∧
      ((st.modNode p fun x => { x with name }).node q).slaveof = (st.node q).slaveof := by
    intro q
    rw [State.modNode_node]
    split
    · exact ⟨rfl, rfl⟩
    · exact ⟨rfl, rfl⟩
  have hme := hnode st.myself
  refine h.of_eq rfl ((hmem _).mpr h.mem) (fun q hq => (hmem q).mp hq) (fun q _ => ?_) ?_ ?_ ?_ ?_
  · rw [(hnode q).1]
  · rw [hme.1]
    rfl
  · rw [hme.1]
    rfl
  · rw [hme.1]
    rfl
  · rw [hme.2]
    exact fun hne => hne

theorem MyselfInv.free (h : MyselfInv st) (ht : TableInv st) {n : Ptr} (hn : n ∈ st.nodes)
    (hne : n ≠ st.myself) : MyselfInv (freeClusterNode st n) := by
  have hl := Links.free ht hn
  have hnodes : (freeClusterNode st n).nodes = st.nodes.erase n := hl.nodes
  obtain ⟨link, hnode⟩ := freeClusterNode_node st n st.myself
  refine h.of_eq hl.myself ?_ ?_ (fun p _ => (hl.node p).myself) ?_ ?_ ?_ ?_
  · rw [hnodes]
    exact (mem_erase_of_ne (Ne.symm hne)).mpr h.mem
  · rw [hnodes]
    exact fun p hp => mem_of_mem_erase hp
  · rw [hnode]
    rfl
  · rw [hnode]
    rfl
  · rw [hnode]
    rfl
  · rw [hnode, detached_node]
    dsimp only
    split_ifs
    · exact fun hne => absurd rfl hne
    · exact fun hne => hne

end Myself

/-! ## Every small change -/

section Wf

variable {st st' : State N} {g : Guard N}

theorem Wf.frame (h : Wf st) (hf : Frame st st') (hs : SlotsInv st') : Wf st' :=
  ⟨h.table.frame hf, h.myself.frame hf, hs⟩

variable [LinearOrder N]

theorem Wf.free (h : Wf st) {n : Ptr} (hn : n ∈ st.nodes) (hne : n ≠ st.myself)
    (hslots : ∀ j, st.slots j ≠ some n) : Wf (freeClusterNode st n) := by
  have hl := Links.free h.table hn
  exact ⟨(h.table.erase n).links hl, h.myself.free h.table hn hne,
    (h.slots.erase hslots).links hl⟩

theorem Wf.hardReset (h : Wf st) (hnodes : st.nodes = [st.myself]) (env : Env N) :
    Wf (hardReset env st) := by
  rw [h.table.hardReset_eq hnodes]
  have hone : ∀ p ∈ st.nodes, p = st.myself := by simp [hnodes]
  refine ⟨?_, ?_, ?_⟩
  · refine ⟨h.table.nodup, ?_, h.table.next, h.table.pos, h.table.migrating, h.table.importing, ?_⟩
    · intro p hp q hq _
      exact (hone p hp).trans (hone q hq).symm
    · intro p
      simp only [State.modNode_node]
      split
      · exact h.table.reports p
      · exact h.table.reports p
  · refine h.myself.of_eq rfl h.myself.mem (fun _ hp => hp) (fun p _ => ?_) ?_ ?_ ?_ ?_
    · simp only [State.modNode_node]
      split
      · rfl
      · rfl
    · simp [State.me]
    · simp [State.me]
    · simp [State.me]
    · simp [State.me]
  · exact { h.slots.modNode st.myself (f := fun x =>
      { x with configEpoch := 0, name := env.newName st.next }) fun _ => ⟨rfl, rfl⟩ with }

theorem Wf.endHandshake (h : Wf st) {p : Ptr} (hp : p ∈ st.nodes) (hne : p ≠ st.myself) {name : N}
    (hname : clusterLookupNode st name = none) (m s : Bool) :
    Wf ((clusterRenameNode st p name).modNode p fun x => { x with flags := { x.flags with
      handshake := false, master := x.flags.master || m, slave := x.flags.slave || s } }) := by
  have hself : (clusterRenameNode st p name).myself = st.myself := by
    rw [h.table.rename_eq hp hname]
    rfl
  have hl := Links.modNode (clusterRenameNode st p name) p (f := fun x => { x with flags :=
    { x.flags with handshake := false, master := x.flags.master || m, slave := x.flags.slave || s } })
    fun _ => ⟨rfl, rfl, rfl, rfl, rfl, rfl, .refl _⟩
  refine ⟨(h.table.rename hp hname).links hl, ?_, (h.slots.rename h.table hp hname).links hl⟩
  exact (h.myself.rename h.table hp hname).endHandshake (hself ▸ hne) m s

theorem Wf.micro (h : Wf st) (hm : Micro g st st') : Wf st' := by
  cases hm with
  | soft hs => exact ⟨h.table.links (.of_soft hs), h.myself.soft hs, h.slots.links (.of_soft hs)⟩
  | assert _ b a ha _ _ =>
    have hl := Links.assert st b ha
    have hself : MyselfInv (st.assert b a) := by
      rw [State.assert_eq]
      exact { h.myself with }
    exact ⟨h.table.links hl, hself, h.slots.links hl⟩
  | addSlot _ n j hn hj _ => exact h.frame (Frame.addSlot st n j) (h.slots.addSlot hn hj)
  | delSlot _ j => exact h.frame (Frame.delSlot st j) (h.slots.delSlot j)
  | create _ now name f _ hself _ _ =>
    exact ⟨h.table.create now name f, h.myself.create h.table now name hself,
      h.slots.create h.table now name f⟩
  | free _ n hn hne hslots _ _ _ => exact h.free hn hne fun j => (hslots j).1
  | endHandshake _ p name m s hp hne _ hname => exact h.endHandshake hp hne hname m s
  | setNodeAsMaster _ n _ =>
    have hl := Links.setNodeAsMaster st n
    exact ⟨h.table.links hl, h.myself.setNodeAsMaster n, h.slots.links hl⟩
  | demote _ s _ _ _ _ =>
    have hl := Links.demote st s
    exact ⟨h.table.links hl, h.myself.demote s, h.slots.links hl⟩
  | changeMaster _ s m _ _ hs =>
    have hl := Links.changeMaster st s m
    exact ⟨h.table.links hl, h.myself.changeMaster hs m, h.slots.links hl⟩
  | setMaster _ n _ _ =>
    have hl := Links.setMaster st n
    exact ⟨h.table.links hl, h.myself.setMaster n, h.slots.links hl⟩
  | failureReport _ now failing sender _ =>
    exact ⟨h.table.failureReport now failing sender, h.myself.failureReport now failing sender,
      h.slots.modNode failing fun _ => ⟨rfl, rfl⟩⟩
  | openSlots _ mig imp hmig himp =>
    exact ⟨h.table.openSlots mig imp hmig himp, h.myself.openSlots mig imp, { h.slots with }⟩
  | mfSlave _ s _ => exact ⟨{ h.table with }, { h.myself with }, { h.slots with }⟩
  | current _ e _ => exact ⟨{ h.table with }, { h.myself with }, { h.slots with }⟩
  | config _ n e _ _ _ =>
    exact h.frame (Frame.modNode st n fun _ => ⟨rfl, rfl, rfl, rfl, rfl, rfl⟩)
      (h.slots.modNode n fun _ => ⟨rfl, rfl⟩)
  | newEpoch _ _ =>
    have hs : SlotsInv { st with currentEpoch := incr64 st.currentEpoch } := { h.slots with }
    exact h.frame (Frame.takeNewEpoch st) (hs.modNode st.myself
      (f := fun x => { x with configEpoch := incr64 st.currentEpoch }) fun _ => ⟨rfl, rfl⟩)
  | election _ _ => exact ⟨{ h.table with }, { h.myself with }, { h.slots with }⟩
  | win _ _ =>
    exact h.frame (Frame.modNode st _ fun _ => ⟨rfl, rfl, rfl, rfl, rfl, rfl⟩)
      (h.slots.modNode _ fun _ => ⟨rfl, rfl⟩)
  | vote env _ n _ =>
    refine h.frame { Frame.sendFailoverAuth env st n with } ?_
    unfold clusterSendFailoverAuth clusterSendIfLink
    split
    · exact { h.slots with }
    · exact { h.slots with }
  | send _ p msg _ => exact ⟨{ h.table with }, { h.myself with }, { h.slots with }⟩
  | save _ fsync => exact ⟨{ h.table with }, { h.myself with }, { h.slots with }⟩
  | flush _ => exact ⟨{ h.table with }, { h.myself with }, { h.slots with }⟩
  | hardReset env _ _ hnodes => exact h.hardReset hnodes env

theorem Wf.steps (h : Wf st) (hs : Steps g st st') : Wf st' := by
  induction hs with
  | refl => exact h
  | tail _ hm ih => exact ih.micro hm

end Wf

end Redis.Bus
