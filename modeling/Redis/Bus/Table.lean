import Mathlib.Data.List.Perm.Basic
import Redis.Bus.Micro

/-!
# Redis.Bus.Table

The nodes table and the slots table are well formed, whatever the node does:
`Wf` is kept by every small change of `Redis.Bus.Micro` (`Redis.Bus.Wf`).

* `TableInv` is about the nodes table, the open slots and the failure reports;
* `MyselfInv` is about the record of the node itself;
* `SlotsInv` is about the three places where the owner of a slot is stored.
-/

namespace Redis.Bus

open List

variable {N : Type}

/-! ## The invariant -/

/-- The nodes table holds allocated nodes with different names, the open slots
are slots, and a node reports a failure once. -/
structure TableInv (st : State N) : Prop where
  nodup : st.nodes.Nodup
  names : ∀ p ∈ st.nodes, ∀ q ∈ st.nodes, (st.node p).name = (st.node q).name → p = q
  next : ∀ p ∈ st.nodes, p < st.next
  pos : 0 < st.next
  migrating : ∀ j n, st.migratingSlotsTo j = some n → j < clusterSlots
  importing : ∀ j n, st.importingSlotsFrom j = some n → j < clusterSlots
  reports : ∀ p, ((st.node p).failReports.map FailReport.node).Nodup

/-- The node itself is in the table, is the one that is flagged so, is out of
handshake and either a master or a slave, and has a master only as a slave. -/
structure MyselfInv (st : State N) : Prop where
  mem : st.myself ∈ st.nodes
  flag : ∀ p ∈ st.nodes, (st.node p).flags.myself = true ↔ p = st.myself
  handshake : st.me.flags.handshake = false
  role : st.me.flags.slave = !st.me.flags.master
  slaveof : st.me.slaveof ≠ none → st.me.flags.slave = true

/-- The slots table, the bitmaps and the counters agree, a bitmap has
`clusterSlots` bits, and the assertion of `clusterDelSlot` has not failed. -/
structure SlotsInv (st : State N) : Prop where
  owner : ∀ j n, st.slots j = some n ↔ n ∈ st.nodes ∧ j ∈ (st.node n).slots
  bits : ∀ p, ∀ j ∈ (st.node p).slots, j < clusterSlots
  nodup : ∀ n ∈ st.nodes, (st.node n).slots.Nodup
  numslots : ∀ n ∈ st.nodes, (st.node n).numslots = (st.node n).slots.length
  failed : st.failed ≠ some .delSlot

theorem SlotsInv.range {st : State N} (h : SlotsInv st) {j : Nat} {n : Ptr}
    (hj : st.slots j = some n) : j < clusterSlots :=
  h.bits n j ((h.owner j n).mp hj).2

/-- The state is well formed. -/
structure Wf (st : State N) : Prop where
  table : TableInv st
  myself : MyselfInv st
  slots : SlotsInv st

/-! ## Changes of roles and links -/

/-- The record `y` differs from `x` in its roles and links, and in what
`SoftNode` leaves open. -/
structure LinkNode (x y : Node N) : Prop where
  ctime : y.ctime = x.ctime
  name : y.name = x.name
  myself : y.flags.myself = x.flags.myself
  configEpoch : y.configEpoch = x.configEpoch
  slots : y.slots = x.slots
  numslots : y.numslots = x.numslots
  failReports : (y.failReports.map FailReport.node).Sublist (x.failReports.map FailReport.node)

theorem LinkNode.refl (x : Node N) : LinkNode x x :=
  ⟨rfl, rfl, rfl, rfl, rfl, rfl, Sublist.refl _⟩

/-- Nothing but roles and links differs; open slots and the slave of a manual
failover may be gone. -/
structure Links (st st' : State N) : Prop where
  myself : st'.myself = st.myself
  currentEpoch : st'.currentEpoch = st.currentEpoch
  nodes : st'.nodes = st.nodes
  next : st'.next = st.next
  migratingSlotsTo : ∀ j n, st'.migratingSlotsTo j = some n → st.migratingSlotsTo j = some n
  importingSlotsFrom : ∀ j n, st'.importingSlotsFrom j = some n → st.importingSlotsFrom j = some n
  slots : st'.slots = st.slots
  failoverAuthEpoch : st'.failoverAuthEpoch = st.failoverAuthEpoch
  mfSlave : st'.mfSlave = st.mfSlave ∨ st'.mfSlave = none
  lastVoteEpoch : st'.lastVoteEpoch = st.lastVoteEpoch
  file : st'.file = st.file
  queued : st'.queued = st.queued
  sent : st'.sent = st.sent
  failed : st'.failed = some .delSlot → st.failed = some .delSlot
  node : ∀ p, LinkNode (st.node p) (st'.node p)

namespace Links

variable {st st' st'' : State N}

theorem refl (st : State N) : Links st st :=
  ⟨rfl, rfl, rfl, rfl, fun _ _ h => h, fun _ _ h => h, rfl, rfl, .inl rfl, rfl, rfl, rfl, rfl,
    fun h => h, fun _ => LinkNode.refl _⟩

theorem trans (h : Links st st') (h' : Links st' st'') : Links st st'' where
  myself := h'.myself.trans h.myself
  currentEpoch := h'.currentEpoch.trans h.currentEpoch
  nodes := h'.nodes.trans h.nodes
  next := h'.next.trans h.next
  migratingSlotsTo := fun j n hj => h.migratingSlotsTo j n (h'.migratingSlotsTo j n hj)
  importingSlotsFrom := fun j n hj => h.importingSlotsFrom j n (h'.importingSlotsFrom j n hj)
  slots := h'.slots.trans h.slots
  failoverAuthEpoch := h'.failoverAuthEpoch.trans h.failoverAuthEpoch
  mfSlave := by
    rcases h'.mfSlave with h' | h'
    · rw [h']
      exact h.mfSlave
    · exact .inr h'
  lastVoteEpoch := h'.lastVoteEpoch.trans h.lastVoteEpoch
  file := h'.file.trans h.file
  queued := h'.queued.trans h.queued
  sent := h'.sent.trans h.sent
  failed := fun hf => h.failed (h'.failed hf)
  node := fun p =>
    ⟨(h'.node p).ctime.trans (h.node p).ctime, (h'.node p).name.trans (h.node p).name,
      (h'.node p).myself.trans (h.node p).myself,
      (h'.node p).configEpoch.trans (h.node p).configEpoch,
      (h'.node p).slots.trans (h.node p).slots, (h'.node p).numslots.trans (h.node p).numslots,
      (h'.node p).failReports.trans (h.node p).failReports⟩

theorem modNode (st : State N) (p : Ptr) {f : Node N → Node N} (h : ∀ x, LinkNode x (f x)) :
    Links st (st.modNode p f) where
  __ := refl st
  node := by
    intro q
    rw [State.modNode_node]
    split
    · exact h _
    · exact LinkNode.refl _

theorem of_soft (h : Soft st st') : Links st st' where
  myself := h.myself
  currentEpoch := h.currentEpoch
  nodes := h.nodes
  next := h.next
  migratingSlotsTo := fun j n hj => by rwa [h.migratingSlotsTo] at hj
  importingSlotsFrom := fun j n hj => by rwa [h.importingSlotsFrom] at hj
  slots := h.slots
  failoverAuthEpoch := h.failoverAuthEpoch
  mfSlave := .inl h.mfSlave
  lastVoteEpoch := h.lastVoteEpoch
  file := h.file
  queued := h.queued
  sent := h.sent
  failed := fun hf => by rwa [h.failed] at hf
  node := fun p => ⟨(h.node p).ctime, (h.node p).name, (h.node p).myself, (h.node p).configEpoch, (h.node p).slots,
    (h.node p).numslots, (h.node p).failReports⟩

/-- The same change, with another nodes table. -/
theorem with_nodes (h : Links st st') (nodes : List Ptr) :
    Links { st with nodes } { st' with nodes } :=
  { h with nodes := rfl }

theorem todoSave (st : State N) : Links st (todoSave st) := { refl st with }

theorem todoState (st : State N) : Links st (todoState st) := { refl st with }

theorem assert (st : State N) (b : Bool) {a : Assertion} (h : a ≠ .delSlot) :
    Links st (st.assert b a) := by
  unfold State.assert
  split
  · exact refl st
  · refine { refl st with failed := fun hf => ?_ }
    cases hs : st.failed with
    | none => simp [hs, h] at hf
    | some b => simpa [hs] using hf

theorem closeAllSlots (st : State N) : Links st (clusterCloseAllSlots st) :=
  { refl st with
    migratingSlotsTo := fun _ _ h => by cases h
    importingSlotsFrom := fun _ _ h => by cases h }

theorem resetManualFailover (st : State N) : Links st (resetManualFailover st) :=
  { refl st with mfSlave := .inr rfl }

theorem removeSlave (st : State N) (m s : Ptr) : Links st (clusterNodeRemoveSlave st m s) :=
  modNode st m fun _ => ⟨rfl, rfl, rfl, rfl, rfl, rfl, .refl _⟩

theorem leaveMaster (st : State N) (n : Ptr) : Links st (leaveMaster st n) := by
  unfold Bus.leaveMaster
  split
  · exact removeSlave st _ n
  · exact refl st

theorem addSlave (st : State N) (m s : Ptr) : Links st (clusterNodeAddSlave st m s) :=
  modNode st m fun _ => ⟨rfl, rfl, rfl, rfl, rfl, rfl, .refl _⟩

theorem setNodeAsMaster (st : State N) (n : Ptr) : Links st (clusterSetNodeAsMaster st n) := by
  unfold clusterSetNodeAsMaster
  split
  · exact refl st
  · refine trans (trans ?_ (todoSave _)) (todoState _)
    refine trans ?_ (modNode _ n fun _ => ⟨rfl, rfl, rfl, rfl, rfl, rfl, .refl _⟩)
    exact leaveMaster st n

theorem demote (st : State N) (s : Ptr) :
    Links st (clusterNodeResetSlaves (st.modNode s fun x =>
      { x with flags := { x.flags with master := false, slave := true } }) s) := by
  refine trans ?_ (modNode _ s fun _ => ⟨rfl, rfl, rfl, rfl, rfl, rfl, .refl _⟩)
  exact modNode st s fun _ => ⟨rfl, rfl, rfl, rfl, rfl, rfl, .refl _⟩

theorem changeMaster (st : State N) (s m : Ptr) : Links st (changeMaster st s m) := by
  unfold Bus.changeMaster
  refine trans ?_ (todoSave _)
  refine trans ?_ (modNode _ s fun _ => ⟨rfl, rfl, rfl, rfl, rfl, rfl, .refl _⟩)
  refine trans ?_ (addSlave _ m s)
  exact leaveMaster st s

theorem leaveRole (st : State N) : Links st (leaveRole st) := by
  unfold Bus.leaveRole
  split
  · refine trans ?_ (closeAllSlots _)
    exact modNode st _ fun _ => ⟨rfl, rfl, rfl, rfl, rfl, rfl, .refl _⟩
  · exact leaveMaster st _

theorem setMaster (st : State N) (n : Ptr) : Links st (clusterSetMaster st n) := by
  unfold clusterSetMaster
  refine trans ?_ (resetManualFailover _)
  refine trans ?_ (addSlave _ n _)
  refine trans ?_ (modNode _ _ fun _ => ⟨rfl, rfl, rfl, rfl, rfl, rfl, .refl _⟩)
  have h1 := assert st (decide (n ≠ st.myself)) (a := .setMasterSelf) (by simp)
  refine h1.trans ?_
  set st1 := st.assert (decide (n ≠ st.myself)) .setMasterSelf
  have h2 := assert st1 (decide (st1.me.numslots = 0)) (a := .setMasterSlots) (by simp)
  refine h2.trans ?_
  exact leaveRole _

theorem detachSlaves (st : State N) (slaves : List Ptr) : Links st (detachSlaves st slaves) := by
  unfold Bus.detachSlaves
  induction slaves generalizing st with
  | nil => exact refl st
  | cons s slaves ih =>
    have h := modNode st s (f := fun x => { x with slaveof := none })
      fun _ => ⟨rfl, rfl, rfl, rfl, rfl, rfl, .refl _⟩
    exact h.trans (ih _)

end Links

theorem TableInv.links {st st' : State N} (h : TableInv st) (hl : Links st st') : TableInv st' where
  nodup := by
    rw [hl.nodes]
    exact h.nodup
  names := by
    intro p hp q hq hname
    rw [hl.nodes] at hp hq
    rw [(hl.node p).name, (hl.node q).name] at hname
    exact h.names p hp q hq hname
  next := by
    intro p hp
    rw [hl.nodes] at hp
    rw [hl.next]
    exact h.next p hp
  pos := by
    rw [hl.next]
    exact h.pos
  migrating := fun j n hj => h.migrating j n (hl.migratingSlotsTo j n hj)
  importing := fun j n hj => h.importing j n (hl.importingSlotsFrom j n hj)
  reports := fun p => (h.reports p).sublist (hl.node p).failReports

theorem SlotsInv.links {st st' : State N} (h : SlotsInv st) (hl : Links st st') : SlotsInv st' where
  owner := by
    intro j n
    rw [hl.slots, hl.nodes, (hl.node n).slots]
    exact h.owner j n
  bits := by
    intro p j hj
    rw [(hl.node p).slots] at hj
    exact h.bits p j hj
  nodup := by
    intro n hn
    rw [hl.nodes] at hn
    rw [(hl.node n).slots]
    exact h.nodup n hn
  numslots := by
    intro n hn
    rw [hl.nodes] at hn
    rw [(hl.node n).slots, (hl.node n).numslots]
    exact h.numslots n hn
  failed := fun hf => h.failed (hl.failed hf)

/-! ## Looking up nodes -/

section Lookup

variable [DecidableEq N] {st st' : State N} {name : N} {p : Ptr}

theorem clusterLookupNode_some (h : clusterLookupNode st name = some p) :
    p ∈ st.nodes ∧ (st.node p).name = name := by
  unfold clusterLookupNode at h
  exact ⟨mem_of_find?_eq_some h, by simpa using find?_some h⟩

theorem clusterLookupNode_none (h : clusterLookupNode st name = none) (hp : p ∈ st.nodes) :
    (st.node p).name ≠ name := by
  unfold clusterLookupNode at h
  simpa using find?_eq_none.mp h p hp

theorem TableInv.lookup (h : TableInv st) (hp : p ∈ st.nodes) :
    clusterLookupNode st (st.node p).name = some p := by
  cases hl : clusterLookupNode st (st.node p).name with
  | none => exact absurd rfl (clusterLookupNode_none hl hp)
  | some q =>
    obtain ⟨hq, hname⟩ := clusterLookupNode_some hl
    rw [h.names q hq p hp hname]

theorem clusterLookupNode_congr (hnodes : st'.nodes = st.nodes)
    (hname : ∀ p ∈ st.nodes, (st'.node p).name = (st.node p).name) :
    clusterLookupNode st' name = clusterLookupNode st name := by
  unfold clusterLookupNode
  rw [hnodes]
  clear hnodes
  generalize st.nodes = nodes at hname
  induction nodes with
  | nil => rfl
  | cons p ps ih =>
    have hp := hname p mem_cons_self
    have hps := ih fun q hq => hname q (mem_cons_of_mem p hq)
    simp only [find?_cons, hp, hps]

theorem TableInv.dictDeleteNode (h : TableInv st) (hp : p ∈ st.nodes) :
    dictDeleteNode st (st.node p).name = { st with nodes := st.nodes.erase p } := by
  unfold Bus.dictDeleteNode
  rw [h.lookup hp]

/-- `freeClusterNode` takes the node out of the table, and changes roles and
links besides. -/
theorem Links.free (h : TableInv st) (hp : p ∈ st.nodes) :
    Links { st with nodes := st.nodes.erase p } (freeClusterNode st p) := by
  unfold freeClusterNode
  extract_lets st1 st2 st3 st4
  have h1 : Links st st1 := by
    unfold st1
    split
    · exact detachSlaves st _
    · exact refl st
  have h2 : Links st1 st2 := by
    unfold st2
    split
    · exact leaveMaster st1 p
    · exact refl st1
  have h3 : Links st st3 := (h1.trans h2).trans (assert st2 _ (by simp))
  have hdel : st4 = { st3 with nodes := st.nodes.erase p } := by
    unfold st4
    rw [(h.links h3).dictDeleteNode (h3.nodes ▸ hp), h3.nodes]
  rw [hdel]
  refine (h3.with_nodes _).trans ?_
  exact modNode _ p fun _ => ⟨rfl, rfl, rfl, rfl, rfl, rfl, .refl _⟩

end Lookup

/-- A fold establishes for each element what its step establishes and the
other steps keep. -/
theorem foldl_establish {σ α : Type} {f : σ → α → σ} {I : σ → Prop} {P : σ → α → Prop}
    (hI : ∀ s x, I s → I (f s x)) (hest : ∀ s x, I s → P (f s x) x)
    (hkeep : ∀ s x y, I s → P s y → P (f s x) y) (xs : List α) {s : σ} (hs : I s) :
    ∀ x ∈ xs, P (xs.foldl f s) x := by
  have hrest : ∀ (xs : List α) (s : σ) (x : α), I s → P s x → P (xs.foldl f s) x := by
    intro xs
    induction xs with
    | nil => exact fun _ _ _ h => h
    | cons y ys ih => exact fun s x hs hx => ih (f s y) x (hI s y hs) (hkeep s y x hs hx)
  induction xs generalizing s with
  | nil => exact fun x hx => by cases hx
  | cons y ys ih =>
    intro x hx
    rcases mem_cons.mp hx with rfl | hx
    · exact hrest ys (f s x) x (hI s x hs) (hest s x hs)
    · exact ih (hI s y hs) x hx

/-! ## Changes of slots and epochs -/

theorem clusterDelSlot_slots (st : State N) (j i : Nat) :
    (clusterDelSlot st j).slots i = if i = j then none else st.slots i := by
  unfold clusterDelSlot
  split
  · next h =>
    split
    · next hij => rw [hij, h]
    · rfl
  · rw [State.assert_eq]
    simp [Function.update_apply]

theorem clusterDelSlot_bits (st : State N) (j : Nat) (p : Ptr) :
    ((clusterDelSlot st j).node p).slots ⊆ (st.node p).slots := by
  unfold clusterDelSlot
  split
  · exact fun _ h => h
  · rw [State.assert_eq]
    simp only [State.modNode_node]
    split
    · exact filter_sublist.subset
    · exact fun _ h => h

theorem clusterAddSlot_currentEpoch (st : State N) (n : Ptr) (j : Nat) :
    (clusterAddSlot st n j).currentEpoch = st.currentEpoch := by
  unfold clusterAddSlot
  split
  · rfl
  · rfl

theorem clusterDelSlot_currentEpoch (st : State N) (j : Nat) :
    (clusterDelSlot st j).currentEpoch = st.currentEpoch := by
  unfold clusterDelSlot
  split
  · rfl
  · rw [State.assert_eq]
    rfl

/-- The record `y` differs from `x` in its slots and epoch only. -/
structure FrameNode (x y : Node N) : Prop where
  ctime : y.ctime = x.ctime
  name : y.name = x.name
  flags : y.flags = x.flags
  slaves : y.slaves = x.slaves
  slaveof : y.slaveof = x.slaveof
  failReports : y.failReports = x.failReports

/-- The nodes table, the roles and the links are the same. -/
structure Frame (st st' : State N) : Prop where
  myself : st'.myself = st.myself
  nodes : st'.nodes = st.nodes
  next : st'.next = st.next
  migratingSlotsTo : st'.migratingSlotsTo = st.migratingSlotsTo
  importingSlotsFrom : st'.importingSlotsFrom = st.importingSlotsFrom
  mfSlave : st'.mfSlave = st.mfSlave
  node : ∀ p, FrameNode (st.node p) (st'.node p)

namespace Frame

variable {st st' st'' : State N}

theorem refl (st : State N) : Frame st st :=
  ⟨rfl, rfl, rfl, rfl, rfl, rfl, fun _ => ⟨rfl, rfl, rfl, rfl, rfl, rfl⟩⟩

theorem trans (h : Frame st st') (h' : Frame st' st'') : Frame st st'' where
  myself := h'.myself.trans h.myself
  nodes := h'.nodes.trans h.nodes
  next := h'.next.trans h.next
  migratingSlotsTo := h'.migratingSlotsTo.trans h.migratingSlotsTo
  importingSlotsFrom := h'.importingSlotsFrom.trans h.importingSlotsFrom
  mfSlave := h'.mfSlave.trans h.mfSlave
  node := fun p =>
    ⟨(h'.node p).ctime.trans (h.node p).ctime, (h'.node p).name.trans (h.node p).name,
      (h'.node p).flags.trans (h.node p).flags,
      (h'.node p).slaves.trans (h.node p).slaves, (h'.node p).slaveof.trans (h.node p).slaveof,
      (h'.node p).failReports.trans (h.node p).failReports⟩

theorem modNode (st : State N) (p : Ptr) {f : Node N → Node N} (h : ∀ x, FrameNode x (f x)) :
    Frame st (st.modNode p f) where
  __ := refl st
  node := by
    intro q
    rw [State.modNode_node]
    split
    · exact h _
    · exact ⟨rfl, rfl, rfl, rfl, rfl, rfl⟩

theorem addSlot (st : State N) (n : Ptr) (j : Nat) : Frame st (clusterAddSlot st n j) := by
  unfold clusterAddSlot
  split
  · exact refl st
  · have h := modNode st n (f := fun x => clusterNodeSetSlotBit x j)
      fun _ => ⟨rfl, rfl, rfl, rfl, rfl, rfl⟩
    exact { h with }

theorem delSlot (st : State N) (j : Nat) : Frame st (clusterDelSlot st j) := by
  unfold clusterDelSlot
  split
  · exact refl st
  · next n _ =>
    have h := modNode st n (f := fun x => clusterNodeClearSlotBit x j)
      fun _ => ⟨rfl, rfl, rfl, rfl, rfl, rfl⟩
    unfold State.assert
    split
    · exact { h with }
    · exact { h with }

theorem todo (st : State N) : Frame st (todoFsync (todoState (todoSave st))) :=
  { refl st with }

theorem moveSlot (st : State N) (n : Ptr) (j : Nat) :
    Frame st (clusterAddSlot (clusterDelSlot st j) n j) :=
  (delSlot st j).trans (addSlot _ n j)

theorem me_flags (h : Frame st st') : st'.me.flags = st.me.flags := by
  unfold State.me
  rw [h.myself]
  exact (h.node st.myself).flags

theorem takeNewEpoch (st : State N) : Frame st (takeNewEpoch st) :=
  { modNode st st.myself (f := fun x => { x with configEpoch := incr64 st.currentEpoch })
      fun _ => ⟨rfl, rfl, rfl, rfl, rfl, rfl⟩ with }

theorem sendFailoverAuth (env : Env N) (st : State N) (n : Ptr) :
    Frame st (clusterSendFailoverAuth env st n) := by
  unfold clusterSendFailoverAuth clusterSendIfLink
  split
  · exact { refl st with }
  · exact refl st

end Frame

theorem TableInv.frame {st st' : State N} (h : TableInv st) (hf : Frame st st') : TableInv st' where
  nodup := by
    rw [hf.nodes]
    exact h.nodup
  names := by
    intro p hp q hq hname
    rw [hf.nodes] at hp hq
    rw [(hf.node p).name, (hf.node q).name] at hname
    exact h.names p hp q hq hname
  next := by
    intro p hp
    rw [hf.nodes] at hp
    rw [hf.next]
    exact h.next p hp
  pos := by
    rw [hf.next]
    exact h.pos
  migrating := by
    rw [hf.migratingSlotsTo]
    exact h.migrating
  importing := by
    rw [hf.importingSlotsFrom]
    exact h.importing
  reports := by
    intro p
    rw [(hf.node p).failReports]
    exact h.reports p

theorem MyselfInv.frame {st st' : State N} (h : MyselfInv st) (hf : Frame st st') :
    MyselfInv st' := by
  have hme : FrameNode st.me st'.me := by
    unfold State.me
    rw [hf.myself]
    exact hf.node st.myself
  constructor
  · rw [hf.myself, hf.nodes]
    exact h.mem
  · intro p hp
    rw [hf.nodes] at hp
    rw [(hf.node p).flags, hf.myself]
    exact h.flag p hp
  · rw [hme.flags]
    exact h.handshake
  · rw [hme.flags]
    exact h.role
  · rw [hme.flags, hme.slaveof]
    exact h.slaveof

/-! ## The nodes table -/

section NodesTable

variable {st : State N}

/-- The nodes table with a node less. -/
theorem TableInv.erase (h : TableInv st) (n : Ptr) :
    TableInv { st with nodes := st.nodes.erase n } where
  nodup := h.nodup.erase n
  names := fun p hp q hq hname =>
    h.names p (mem_of_mem_erase hp) q (mem_of_mem_erase hq) hname
  next := fun p hp => h.next p (mem_of_mem_erase hp)
  pos := h.pos
  migrating := h.migrating
  importing := h.importing
  reports := h.reports

theorem TableInv.failureReport (h : TableInv st) (now : Int) (failing sender : Ptr) :
    TableInv (clusterNodeAddFailureReport st now failing sender) := by
  unfold clusterNodeAddFailureReport
  refine ⟨h.nodup, ?_, h.next, h.pos, h.migrating, h.importing, ?_⟩
  · intro p hp q hq hname
    refine h.names p hp q hq ?_
    simp only [State.modNode_node] at hname
    grind
  · intro p
    have hp := h.reports p
    simp only [State.modNode_node]
    split
    · split
      · have hmap : map FailReport.node ((st.node p).failReports.map fun fr =>
            if fr.node = sender then { fr with time := now } else fr) =
            (st.node p).failReports.map FailReport.node := by
          rw [map_map]
          refine map_congr_left fun fr _ => ?_
          simp only [Function.comp_apply]
          split
          · rfl
          · rfl
        simp only [hmap]
        exact hp
      · next hany =>
        simp only [map_append, map_cons, map_nil]
        refine nodup_append.mpr ⟨hp, nodup_singleton _, ?_⟩
        intro a ha b hb hab
        rw [mem_singleton] at hb
        rw [hab, hb] at ha
        obtain ⟨fr, hfr, heq⟩ := mem_map.mp ha
        exact hany (any_eq_true.mpr ⟨fr, hfr, by simp [heq]⟩)
    · exact hp

theorem TableInv.openSlots (h : TableInv st) (mig imp : Nat → Option Ptr)
    (hmig : ∀ j n, mig j = some n →
      (j < clusterSlots ∧ n ∈ st.nodes) ∨ st.migratingSlotsTo j = some n)
    (himp : ∀ j n, imp j = some n →
      (j < clusterSlots ∧ n ∈ st.nodes) ∨ st.importingSlotsFrom j = some n) :
    TableInv { st with migratingSlotsTo := mig, importingSlotsFrom := imp } :=
  { h with
    migrating := fun j n hj => (hmig j n hj).elim (fun h' => h'.1) (h.migrating j n)
    importing := fun j n hj => (himp j n hj).elim (fun h' => h'.1) (h.importing j n) }

variable [LinearOrder N]

/-- What creating a node and adding it does: a name that is in the table leaves
the table as it is. -/
theorem TableInv.create_eq (h : TableInv st) (now : Int) (name : N) (f : NodeFlags) :
    clusterAddNode (createClusterNode st now name f).1 st.next =
      { st with
        node := Function.update st.node st.next (newNode now name f)
        next := st.next + 1
        nodes := if (clusterLookupNode st name).isSome then st.nodes else st.nodes ++ [st.next] } := by
  have hlookup : clusterLookupNode (createClusterNode st now name f).1 name =
      clusterLookupNode st name := by
    refine clusterLookupNode_congr rfl fun p hp => ?_
    have hne : p ≠ st.next := Nat.ne_of_lt (h.next p hp)
    simp [createClusterNode, hne]
  unfold clusterAddNode
  have hname : ((createClusterNode st now name f).1.node st.next).name = name := by
    simp [createClusterNode, newNode]
  rw [hname, hlookup]
  cases clusterLookupNode st name with
  | none => rfl
  | some p => rfl

theorem TableInv.create (h : TableInv st) (now : Int) (name : N) (f : NodeFlags) :
    TableInv (clusterAddNode (createClusterNode st now name f).1 st.next) := by
  rw [h.create_eq]
  have hold : ∀ p ∈ st.nodes, Function.update st.node st.next (newNode now name f) p = st.node p :=
    fun p hp => Function.update_of_ne (Nat.ne_of_lt (h.next p hp)) _ _
  have hfresh : st.next ∉ st.nodes := fun hp => Nat.lt_irrefl _ (h.next _ hp)
  have hreports : ∀ p, ((Function.update st.node st.next (newNode now name f) p).failReports.map
      FailReport.node).Nodup := by
    intro p
    by_cases hp : p = st.next
    · subst hp
      simp [newNode]
    · rw [Function.update_of_ne hp]
      exact h.reports p
  cases hl : clusterLookupNode st name with
  | some q =>
    refine ⟨h.nodup, ?_, ?_, Nat.succ_pos _, h.migrating, h.importing, hreports⟩
    · intro p hp q hq hname
      simp only [hold p hp, hold q hq] at hname
      exact h.names p hp q hq hname
    · exact fun p hp => Nat.lt_succ_of_lt (h.next p hp)
  | none =>
    have hnew : ∀ p ∈ st.nodes, (st.node p).name ≠ name := fun p hp =>
      clusterLookupNode_none hl hp
    simp only [Option.isSome_none, Bool.false_eq_true, if_false]
    refine ⟨?_, ?_, ?_, Nat.succ_pos _, h.migrating, h.importing, hreports⟩
    · exact nodup_append.mpr ⟨h.nodup, nodup_singleton _, fun p hp q hq =>
        fun heq => hfresh (by rw [mem_singleton] at hq; rwa [heq, hq] at hp)⟩
    · intro p hp q hq hname
      rw [mem_append, mem_singleton] at hp hq
      rcases hp with hp | rfl <;> rcases hq with hq | rfl
      · simp only [hold p hp, hold q hq] at hname
        exact h.names p hp q hq hname
      · simp only [hold p hp, Function.update_self] at hname
        exact absurd hname (hnew p hp)
      · simp only [hold q hq, Function.update_self] at hname
        exact absurd hname.symm (hnew q hq)
      · rfl
    · intro p hp
      rw [mem_append, mem_singleton] at hp
      rcases hp with hp | rfl
      · exact Nat.lt_succ_of_lt (h.next p hp)
      · exact Nat.lt_succ_self _

theorem TableInv.rename_eq (h : TableInv st) {p : Ptr} (hp : p ∈ st.nodes) {name : N}
    (hname : clusterLookupNode st name = none) :
    clusterRenameNode st p name =
      { st.modNode p fun x => { x with name } with nodes := st.nodes.erase p ++ [p] } := by
  unfold clusterRenameNode
  extract_lets st1 st2 st3
  have h1 : st1 = st := by
    unfold st1
    rw [h.lookup hp]
    rfl
  have h2 : st2 = { st with nodes := st.nodes.erase p } := by
    unfold st2
    rw [h1, h.dictDeleteNode hp]
  have hself : (st3.node p).name = name := by simp [st3]
  have hnone : clusterLookupNode st3 name = none := by
    refine find?_eq_none.mpr fun q hq => ?_
    have hq : q ∈ st.nodes.erase p := by simpa [st3, h2, State.modNode] using hq
    have hqp : q ≠ p := fun heq => (h.nodup.mem_erase_iff.mp (heq ▸ hq)).1 rfl
    simpa [st3, h2, hqp] using clusterLookupNode_none hname (mem_of_mem_erase hq)
  unfold clusterAddNode
  rw [hself, hnone]
  simp only [st3, h2]
  rfl

theorem TableInv.rename (h : TableInv st) {p : Ptr} (hp : p ∈ st.nodes) {name : N}
    (hname : clusterLookupNode st name = none) : TableInv (clusterRenameNode st p name) := by
  rw [h.rename_eq hp hname]
  have hmem : ∀ q, q ∈ st.nodes.erase p ++ [p] ↔ q ∈ st.nodes := by
    intro q
    rw [mem_append, h.nodup.mem_erase_iff, mem_singleton]
    grind
  refine ⟨?_, ?_, ?_, h.pos, h.migrating, h.importing, ?_⟩
  · refine nodup_append.mpr ⟨h.nodup.erase p, nodup_singleton p, ?_⟩
    intro q hq r hr heq
    rw [mem_singleton] at hr
    exact (h.nodup.mem_erase_iff.mp hq).1 (heq.trans hr)
  · intro q hq r hr hqr
    rw [hmem] at hq hr
    simp only [State.modNode_node] at hqr
    have hq' := clusterLookupNode_none hname hq
    have hr' := clusterLookupNode_none hname hr
    have := h.names q hq r hr
    grind
  · intro q hq
    exact h.next q ((hmem q).mp hq)
  · intro q
    simp only [State.modNode_node]
    split
    · exact h.reports q
    · exact h.reports q

/-- What a hard reset does, when the node knows no other node. -/
theorem TableInv.hardReset_eq (h : TableInv st) (hnodes : st.nodes = [st.myself]) (env : Env N) :
    hardReset env st =
      { st.modNode st.myself fun x => { x with configEpoch := 0, name := env.newName st.next } with
        currentEpoch := 0, lastVoteEpoch := 0 } := by
  unfold hardReset
  extract_lets st1 st2 st3 st4
  have h1 : TableInv st1 := h.frame { Frame.refl st with }
  have h2 : TableInv st2 := h1.frame (Frame.modNode st1 _ fun _ => ⟨rfl, rfl, rfl, rfl, rfl, rfl⟩)
  have h3 : st3 = { st2 with nodes := [] } := by
    have hme : st2.myself ∈ st2.nodes := by
      simp [st2, st1, State.modNode, hnodes]
    unfold st3
    rw [State.me, h2.dictDeleteNode hme]
    simp [st2, st1, State.modNode, hnodes]
  unfold clusterAddNode
  have hnone : ∀ name, clusterLookupNode st4 name = none := by
    intro name
    simp [clusterLookupNode, st4, h3, State.modNode]
  rw [hnone]
  simp only [st4, h3, st2, st1, State.modNode, Function.update_self, Function.update_idem,
    nil_append, ← hnodes]
  rfl

end NodesTable

/-! ## The slots table -/

section SlotsTable

variable {st st' : State N}

theorem SlotsInv.of_eq (h : SlotsInv st) (hslots : st'.slots = st.slots)
    (hnodes : ∀ p, p ∈ st'.nodes ↔ p ∈ st.nodes)
    (hbits : ∀ p, (st'.node p).slots = (st.node p).slots)
    (hnum : ∀ p, (st'.node p).numslots = (st.node p).numslots) (hfailed : st'.failed = st.failed) :
    SlotsInv st' where
  owner := by
    intro j n
    rw [hslots, hnodes, hbits]
    exact h.owner j n
  bits := by
    intro p
    rw [hbits]
    exact h.bits p
  nodup := by
    intro n hn
    rw [hbits]
    exact h.nodup n ((hnodes n).mp hn)
  numslots := by
    intro n hn
    rw [hbits, hnum]
    exact h.numslots n ((hnodes n).mp hn)
  failed := by
    rw [hfailed]
    exact h.failed

theorem SlotsInv.modNode (h : SlotsInv st) (p : Ptr) {f : Node N → Node N}
    (hf : ∀ x, (f x).slots = x.slots ∧ (f x).numslots = x.numslots) :
    SlotsInv (st.modNode p f) := by
  refine h.of_eq rfl (fun _ => Iff.rfl) (fun q => ?_) (fun q => ?_) rfl
  · rw [State.modNode_node]
    split
    · exact (hf _).1
    · rfl
  · rw [State.modNode_node]
    split
    · exact (hf _).2
    · rfl

theorem SlotsInv.addSlot (h : SlotsInv st) {n : Ptr} (hn : n ∈ st.nodes) {j : Nat}
    (hj : j < clusterSlots) : SlotsInv (clusterAddSlot st n j) := by
  unfold clusterAddSlot
  cases hs : st.slots j with
  | some m => exact h
  | none =>
    have hfree : ∀ m ∈ st.nodes, j ∉ (st.node m).slots := by
      intro m hm hjm
      rw [(h.owner j m).mpr ⟨hm, hjm⟩] at hs
      cases hs
    have htest : bitmapTestBit (st.node n).slots j = false := by
      simpa [bitmapTestBit] using hfree n hn
    have hset : clusterNodeSetSlotBit (st.node n) j =
        { st.node n with slots := j :: (st.node n).slots, numslots := (st.node n).numslots + 1 } := by
      simp [clusterNodeSetSlotBit, bitmapSetBit, htest]
    refine ⟨?_, ?_, ?_, ?_, h.failed⟩
    · intro i m
      have ho := h.owner i m
      have hf := hfree m
      simp only [State.modNode, Function.update_apply]
      by_cases hm : m = n
      · subst hm
        simp only [if_true, hset]
        grind
      · simp only [hm, if_false]
        grind
    · intro m i him
      simp only [State.modNode_node] at him
      by_cases hmn : m = n
      · subst hmn
        simp only [if_true, hset, mem_cons] at him
        rcases him with rfl | him
        · exact hj
        · exact h.bits m i him
      · simp only [hmn, if_false] at him
        exact h.bits m i him
    · intro m hm
      simp only [State.modNode_node]
      by_cases hmn : m = n
      · subst hmn
        simp only [if_true, hset]
        exact nodup_cons.mpr ⟨hfree m hm, h.nodup m hm⟩
      · simp only [hmn, if_false]
        exact h.nodup m hm
    · intro m hm
      simp only [State.modNode_node]
      by_cases hmn : m = n
      · subst hmn
        simp only [if_true, hset, length_cons, h.numslots m hm]
      · simp only [hmn, if_false]
        exact h.numslots m hm

theorem SlotsInv.delSlot (h : SlotsInv st) (j : Nat) : SlotsInv (clusterDelSlot st j) := by
  unfold clusterDelSlot
  cases hs : st.slots j with
  | none => exact h
  | some n =>
    obtain ⟨hn, hjn⟩ := (h.owner j n).mp hs
    have htest : bitmapTestBit (st.node n).slots j = true := by simpa [bitmapTestBit] using hjn
    have hassert : st.assert (bitmapTestBit (st.node n).slots j) .delSlot = st := by
      rw [htest]
      rfl
    have hclear : clusterNodeClearSlotBit (st.node n) j =
        { st.node n with slots := (st.node n).slots.erase j
                         numslots := (st.node n).numslots - 1 } := by
      simp only [clusterNodeClearSlotBit, htest, if_true, bitmapClearBit]
      rw [(h.nodup n hn).erase_eq_filter]
      congr 1
      refine filter_congr fun i _ => ?_
      by_cases hij : i = j
      · simp [hij]
      · simp [hij]
    simp only [hassert]
    refine ⟨?_, ?_, ?_, ?_, h.failed⟩
    · intro i m
      have ho := h.owner i m
      have hon := h.owner j m
      simp only [State.modNode, Function.update_apply]
      by_cases hm : m = n
      · subst hm
        simp only [if_true, hclear, (h.nodup m hn).mem_erase_iff]
        grind
      · simp only [hm, if_false]
        grind
    · intro m i him
      simp only [State.modNode_node] at him
      by_cases hmn : m = n
      · subst hmn
        simp only [if_true, hclear] at him
        exact h.bits m i (mem_of_mem_erase him)
      · simp only [hmn, if_false] at him
        exact h.bits m i him
    · intro m hm
      simp only [State.modNode_node]
      by_cases hmn : m = n
      · subst hmn
        simp only [if_true, hclear]
        exact (h.nodup m hm).erase j
      · simp only [hmn, if_false]
        exact h.nodup m hm
    · intro m hm
      simp only [State.modNode_node]
      by_cases hmn : m = n
      · subst hmn
        simp only [if_true, hclear, length_erase_of_mem hjn, h.numslots m hm]
      · simp only [hmn, if_false]
        exact h.numslots m hm

theorem SlotsInv.erase (h : SlotsInv st) {n : Ptr} (hn : ∀ j, st.slots j ≠ some n) :
    SlotsInv { st with nodes := st.nodes.erase n } where
  owner := by
    intro j m
    have hne : st.slots j = some m → m ≠ n := fun hj hmn => hn j (hmn ▸ hj)
    constructor
    · intro hj
      obtain ⟨hm, hjm⟩ := (h.owner j m).mp hj
      exact ⟨(mem_erase_of_ne (hne hj)).mpr hm, hjm⟩
    · rintro ⟨hm, hjm⟩
      exact (h.owner j m).mpr ⟨mem_of_mem_erase hm, hjm⟩
  bits := h.bits
  nodup := fun m hm => h.nodup m (mem_of_mem_erase hm)
  numslots := fun m hm => h.numslots m (mem_of_mem_erase hm)
  failed := h.failed

variable [LinearOrder N]

theorem SlotsInv.create (h : SlotsInv st) (ht : TableInv st) (now : Int) (name : N)
    (f : NodeFlags) : SlotsInv (clusterAddNode (createClusterNode st now name f).1 st.next) := by
  rw [ht.create_eq]
  have hold : ∀ p ∈ st.nodes, Function.update st.node st.next (newNode now name f) p = st.node p :=
    fun p hp => Function.update_of_ne (Nat.ne_of_lt (ht.next p hp)) _ _
  have hnew : ∀ p, p ∈ (if (clusterLookupNode st name).isSome then st.nodes
      else st.nodes ++ [st.next]) → p ∈ st.nodes ∨ p = st.next := by
    intro p hp
    split at hp
    · exact .inl hp
    · simpa using hp
  have hsub : ∀ p ∈ st.nodes, p ∈ (if (clusterLookupNode st name).isSome then st.nodes
      else st.nodes ++ [st.next]) := by
    intro p hp
    split
    · exact hp
    · exact mem_append_left _ hp
  refine ⟨?_, ?_, ?_, ?_, h.failed⟩
  · intro j n
    constructor
    · intro hj
      obtain ⟨hn, hjn⟩ := (h.owner j n).mp hj
      simp only [hold n hn]
      exact ⟨hsub n hn, hjn⟩
    · rintro ⟨hn, hjn⟩
      rcases hnew n hn with hn | rfl
      · simp only [hold n hn] at hjn
        exact (h.owner j n).mpr ⟨hn, hjn⟩
      · simp [newNode] at hjn
  · intro p j hj
    by_cases hp : p = st.next
    · subst hp
      simp [newNode] at hj
    · simp only [Function.update_of_ne hp] at hj
      exact h.bits p j hj
  · intro n hn
    rcases hnew n hn with hn | rfl
    · simp only [hold n hn]
      exact h.nodup n hn
    · simp [newNode]
  · intro n hn
    rcases hnew n hn with hn | rfl
    · simp only [hold n hn]
      exact h.numslots n hn
    · simp [newNode]

theorem SlotsInv.rename (h : SlotsInv st) (ht : TableInv st) {p : Ptr} (hp : p ∈ st.nodes)
    {name : N} (hname : clusterLookupNode st name = none) :
    SlotsInv (clusterRenameNode st p name) := by
  rw [ht.rename_eq hp hname]
  have hmod := h.modNode p (f := fun x => { x with name }) fun _ => ⟨rfl, rfl⟩
  refine hmod.of_eq rfl (fun q => ?_) (fun _ => rfl) (fun _ => rfl) rfl
  change q ∈ st.nodes.erase p ++ [p] ↔ q ∈ st.nodes
  rw [mem_append, ht.nodup.mem_erase_iff, mem_singleton]
  grind

end SlotsTable

end Redis.Bus
