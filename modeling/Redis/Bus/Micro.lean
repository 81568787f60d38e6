import Mathlib.Logic.Relation
import Redis.Bus.Command

/-!
# Redis.Bus.Micro

What the functions of the cluster bus can do to the state, said once: each of
them is a run of the small changes `Micro`.  An invariant that the small
changes keep is then kept by every packet, command and timer.

Some of the small changes are the places where an invariant can break.  A
`Guard` says which of them a run may contain.
-/

namespace Redis.Bus

variable {N : Type}

/-! ## Changes nothing depends on -/

/-- The record `y` has the name, role, epoch, slots and links of `x`, and its
failure reports come from some of the nodes those of `x` come from. -/
structure SoftNode (x y : Node N) : Prop where
  ctime : y.ctime = x.ctime
  name : y.name = x.name
  master : y.flags.master = x.flags.master
  slave : y.flags.slave = x.flags.slave
  myself : y.flags.myself = x.flags.myself
  handshake : y.flags.handshake = x.flags.handshake
  configEpoch : y.configEpoch = x.configEpoch
  slots : y.slots = x.slots
  numslots : y.numslots = x.numslots
  slaves : y.slaves = x.slaves
  slaveof : y.slaveof = x.slaveof
  failReports : (y.failReports.map FailReport.node).Sublist (x.failReports.map FailReport.node)

theorem SoftNode.rest {x : Node N} {pfail fail noaddr meet : Bool} {port : Nat} {ip : CString}
    {pingSent pongReceived failTime votedTime replOffset : Int} {link : Option Int}
    {failReports : List FailReport}
    (h : (failReports.map FailReport.node).Sublist (x.failReports.map FailReport.node)) :
    SoftNode x { x with
      pingSent, pongReceived, failTime, votedTime, replOffset, ip, port, link, failReports
      flags := { x.flags with pfail, fail, noaddr, meet } } :=
  ⟨rfl, rfl, rfl, rfl, rfl, rfl, rfl, rfl, rfl, rfl, rfl, h⟩

theorem SoftNode.refl (x : Node N) : SoftNode x x := .rest (.refl _)

theorem SoftNode.trans {x y z : Node N} (h : SoftNode x y) (h' : SoftNode y z) : SoftNode x z :=
  ⟨h'.ctime.trans h.ctime, h'.name.trans h.name, h'.master.trans h.master, h'.slave.trans h.slave,
    h'.myself.trans h.myself, h'.handshake.trans h.handshake, h'.configEpoch.trans h.configEpoch,
    h'.slots.trans h.slots, h'.numslots.trans h.numslots, h'.slaves.trans h.slaves,
    h'.slaveof.trans h.slaveof, h'.failReports.trans h.failReports⟩

/-- Nothing but clocks, addresses, links, failure flags and plans differs. -/
structure Soft (st st' : State N) : Prop where
  myself : st'.myself = st.myself
  currentEpoch : st'.currentEpoch = st.currentEpoch
  nodes : st'.nodes = st.nodes
  next : st'.next = st.next
  migratingSlotsTo : st'.migratingSlotsTo = st.migratingSlotsTo
  importingSlotsFrom : st'.importingSlotsFrom = st.importingSlotsFrom
  slots : st'.slots = st.slots
  failoverAuthEpoch : st'.failoverAuthEpoch = st.failoverAuthEpoch
  mfSlave : st'.mfSlave = st.mfSlave
  lastVoteEpoch : st'.lastVoteEpoch = st.lastVoteEpoch
  file : st'.file = st.file
  queued : st'.queued = st.queued
  sent : st'.sent = st.sent
  failed : st'.failed = st.failed
  node : ∀ p, SoftNode (st.node p) (st'.node p)

namespace Soft

theorem refl (st : State N) : Soft st st :=
  ⟨rfl, rfl, rfl, rfl, rfl, rfl, rfl, rfl, rfl, rfl, rfl, rfl, rfl, rfl, fun _ => SoftNode.refl _⟩

theorem trans {st st' st'' : State N} (h : Soft st st') (h' : Soft st' st'') : Soft st st'' where
  myself := h'.myself.trans h.myself
  currentEpoch := h'.currentEpoch.trans h.currentEpoch
  nodes := h'.nodes.trans h.nodes
  next := h'.next.trans h.next
  migratingSlotsTo := h'.migratingSlotsTo.trans h.migratingSlotsTo
  importingSlotsFrom := h'.importingSlotsFrom.trans h.importingSlotsFrom
  slots := h'.slots.trans h.slots
  failoverAuthEpoch := h'.failoverAuthEpoch.trans h.failoverAuthEpoch
  mfSlave := h'.mfSlave.trans h.mfSlave
  lastVoteEpoch := h'.lastVoteEpoch.trans h.lastVoteEpoch
  file := h'.file.trans h.file
  queued := h'.queued.trans h.queued
  sent := h'.sent.trans h.sent
  failed := h'.failed.trans h.failed
  node := fun p => (h.node p).trans (h'.node p)

theorem modNode (st : State N) (p : Ptr) {f : Node N → Node N} (h : ∀ x, SoftNode x (f x)) :
    Soft st (st.modNode p f) := by
  refine ⟨rfl, rfl, rfl, rfl, rfl, rfl, rfl, rfl, rfl, rfl, rfl, rfl, rfl, rfl, fun q => ?_⟩
  rw [State.modNode_node]
  split
  · exact h _
  · exact SoftNode.refl _

theorem todoSave (st : State N) : Soft st (todoSave st) := { refl st with }

end Soft

/-! ## Small changes -/

/-- The links of a node that is deleted are in order: it is not the slave of a
manual failover, it is a master if it has slaves, and a slave if it has a
master. -/
structure Tidy (st : State N) (n : Ptr) : Prop where
  mfSlave : st.mfSlave ≠ some n
  slaves : (st.node n).slaves ≠ [] → (st.node n).flags.master = true
  slaveof : (st.node n).slaveof ≠ none → (st.node n).flags.slave = true

/-- What a run may contain beyond what is always allowed. -/
structure Guard (N : Type) where
  /-- the names nodes are created with -/
  names : N → Prop
  /-- a slave is given slots -/
  slaveSlots : Prop
  /-- links to a node are left behind -/
  links : Prop
  /-- a node is deleted that is not in handshake -/
  forget : Prop
  /-- the node is reset to a new name and epoch 0 -/
  hardReset : Prop
  /-- a configuration epoch above the current epoch is taken over -/
  anyEpoch : Prop
  /-- the current epoch goes from `2^64 - 1` to 0 -/
  wrap : Prop

/-- The guard that allows nothing. -/
def Guard.none : Guard N := ⟨fun _ => False, False, False, False, False, False, False⟩

/-- A packet that says what is in the state, and grants no vote. -/
structure Honest (st : State N) (msg : Msg N) : Prop where
  sender : msg.sender = st.me.name
  currentEpoch : msg.currentEpoch = st.currentEpoch
  configEpoch : msg.configEpoch = st.me.configEpoch ∨
    ∃ m, st.me.slaveof = some m ∧ msg.configEpoch = (st.node m).configEpoch
  update : ∀ e name slots, msg.data = .update e name slots →
    ∃ j n, st.slots j = some n ∧ (st.node n).configEpoch = e
  noAck : msg.data ≠ .failoverAuthAck

variable [LinearOrder N]

/-- A small change of the state. -/
inductive Micro (g : Guard N) : State N → State N → Prop
  | soft {st st' : State N} : Soft st st' → Micro g st st'
  | assert (st : State N) (b : Bool) (a : Assertion) : a ≠ .delSlot → a ≠ .setMasterSelf →
      a ≠ .setMasterSlots → Micro g st (st.assert b a)
  | addSlot (st : State N) (n : Ptr) (j : Nat) : n ∈ st.nodes → j < clusterSlots →
      (n ≠ st.myself ∨ st.me.flags.slave = false ∨ g.slaveSlots) →
      Micro g st (clusterAddSlot st n j)
  | delSlot (st : State N) (j : Nat) : Micro g st (clusterDelSlot st j)
  | create (st : State N) (now : Int) (name : N) (f : NodeFlags) : g.names name →
      f.myself = false → f.master = false → f.slave = false →
      Micro g st (clusterAddNode (createClusterNode st now name f).1 st.next)
  | free (st : State N) (n : Ptr) : n ∈ st.nodes → n ≠ st.myself →
      (∀ j, st.slots j ≠ some n ∧ st.migratingSlotsTo j ≠ some n ∧
        st.importingSlotsFrom j ≠ some n) →
      (∀ p ∈ st.nodes, p ≠ n → n ∉ (st.node p).failReports.map FailReport.node) →
      (g.links ∨ Tidy st n) → (g.forget ∨ (st.node n).flags.handshake = true) →
      Micro g st (freeClusterNode st n)
  | endHandshake (st : State N) (p : Ptr) (name : N) (master slave : Bool) : p ∈ st.nodes →
      p ≠ st.myself → (st.node p).flags.handshake = true → clusterLookupNode st name = none →
      Micro g st ((clusterRenameNode st p name).modNode p fun x => { x with flags := { x.flags with
        handshake := false, master := x.flags.master || master, slave := x.flags.slave || slave } })
  | setNodeAsMaster (st : State N) (n : Ptr) : n ∈ st.nodes →
      Micro g st (clusterSetNodeAsMaster st n)
  | demote (st : State N) (s : Ptr) : s ∈ st.nodes → (st.node s).flags.master = true →
      (st.node s).numslots = 0 → (g.links ∨ (st.node s).slaves = []) →
      Micro g st (clusterNodeResetSlaves (st.modNode s fun x =>
        { x with flags := { x.flags with master := false, slave := true } }) s)
  | changeMaster (st : State N) (s m : Ptr) : s ∈ st.nodes → m ∈ st.nodes →
      (st.node s).flags.master = false → Micro g st (changeMaster st s m)
  | setMaster (st : State N) (n : Ptr) : n ∈ st.nodes →
      ((n ≠ st.myself ∧ (st.me.flags.master = true → st.me.numslots = 0)) ∨
        (st.me.slaveof ≠ none ∧ (st.node n).flags.slave = false)) →
      Micro g st (clusterSetMaster st n)
  | failureReport (st : State N) (now : Int) (failing sender : Ptr) : sender ∈ st.nodes →
      Micro g st (clusterNodeAddFailureReport st now failing sender)
  | openSlots (st : State N) (mig imp : Nat → Option Ptr) :
      (∀ j n, mig j = some n → (j < clusterSlots ∧ n ∈ st.nodes) ∨ st.migratingSlotsTo j = some n) →
      (∀ j n, imp j = some n →
        (j < clusterSlots ∧ n ∈ st.nodes) ∨ st.importingSlotsFrom j = some n) →
      Micro g st { st with migratingSlotsTo := mig, importingSlotsFrom := imp }
  | mfSlave (st : State N) (s : Option Ptr) : (∀ p, s = some p → p ∈ st.nodes) →
      Micro g st { st with mfSlave := s }
  | current (st : State N) (e : Nat) : st.currentEpoch ≤ e →
      Micro g st { st with currentEpoch := e }
  | config (st : State N) (n : Ptr) (e : Nat) : n ∈ st.nodes → (st.node n).configEpoch ≤ e →
      (g.anyEpoch ∨ e ≤ st.currentEpoch) →
      Micro g st (st.modNode n fun x => { x with configEpoch := e })
  | newEpoch (st : State N) : (g.wrap ∨ st.currentEpoch + 1 < 2 ^ 64) → Micro g st (takeNewEpoch st)
  | election (st : State N) : (g.wrap ∨ st.currentEpoch + 1 < 2 ^ 64) →
      Micro g st { st with currentEpoch := incr64 st.currentEpoch,
                           failoverAuthEpoch := incr64 st.currentEpoch }
  | win (st : State N) : st.me.configEpoch < st.failoverAuthEpoch →
      Micro g st (st.modNode st.myself fun x => { x with configEpoch := st.failoverAuthEpoch })
  | vote (env : Env N) (st : State N) (n : Ptr) : st.lastVoteEpoch ≠ st.currentEpoch →
      Micro g st { clusterSendFailoverAuth env st n with
        lastVoteEpoch := (clusterSendFailoverAuth env st n).currentEpoch }
  | send (st : State N) (p : Option Ptr) (msg : Msg N) : Honest st msg →
      Micro g st (clusterSendMessage st p msg)
  | save (st : State N) (fsync : Bool) : Micro g st (clusterSaveConfig st fsync)
  | flush (st : State N) : Micro g st (flush st)
  | hardReset (env : Env N) (st : State N) : g.hardReset → st.nodes = [st.myself] →
      Micro g st (hardReset env st)

abbrev Steps (g : Guard N) : State N → State N → Prop := Relation.ReflTransGen (Micro g)

/-- A run of small changes that deletes no node and keeps the current epoch. -/
structure Run (g : Guard N) (st st' : State N) : Prop where
  steps : Steps g st st'
  nodes : st.nodes ⊆ st'.nodes
  myself : st'.myself = st.myself
  currentEpoch : st'.currentEpoch = st.currentEpoch

namespace Run

variable {g : Guard N} {st st' st'' : State N}

theorem refl (st : State N) : Run g st st := ⟨.refl, fun _ h => h, rfl, rfl⟩

theorem trans (h : Run g st st') (h' : Run g st' st'') : Run g st st'' :=
  ⟨h.steps.trans h'.steps, fun _ hp => h'.nodes (h.nodes hp), h'.myself.trans h.myself,
    h'.currentEpoch.trans h.currentEpoch⟩

theorem of_soft (h : Soft st st') : Run g st st' :=
  ⟨.single (.soft h), by rw [h.nodes]; exact fun _ hp => hp, h.myself, h.currentEpoch⟩

theorem of_micro (h : Micro g st st') (hnodes : st'.nodes = st.nodes)
    (hmyself : st'.myself = st.myself) (hepoch : st'.currentEpoch = st.currentEpoch) :
    Run g st st' :=
  ⟨.single h, by rw [hnodes]; exact fun _ hp => hp, hmyself, hepoch⟩

theorem foldl {α : Type} {f : State N → α → State N} {xs : List α}
    (h : ∀ st', Run g st st' → ∀ x ∈ xs, Run g st' (f st' x)) :
    Run g st (xs.foldl f st) := by
  induction xs generalizing st with
  | nil => exact refl st
  | cons x xs ih =>
    have hx := h st (refl st) x List.mem_cons_self
    refine hx.trans (ih fun st' hst' y hy => ?_)
    exact h st' (hx.trans hst') y (List.mem_cons_of_mem x hy)

end Run

/-- The record `y` has the roles and links of `x`. -/
structure SameRole (x y : Node N) : Prop where
  ctime : y.ctime = x.ctime
  master : y.flags.master = x.flags.master
  slave : y.flags.slave = x.flags.slave
  handshake : y.flags.handshake = x.flags.handshake
  slaves : y.slaves = x.slaves
  slaveof : y.slaveof = x.slaveof

/-- A run that keeps the roles and links of the nodes there are, and creates
nodes with the names of the guard only. -/
structure Calm (g : Guard N) (st st' : State N) : Prop extends Run g st st' where
  mfSlave : st'.mfSlave = st.mfSlave
  next : st.next ≤ st'.next
  node : ∀ p, p < st.next → SameRole (st.node p) (st'.node p)
  lookup : ∀ name, ¬g.names name → clusterLookupNode st name = none →
    clusterLookupNode st' name = none

namespace Calm

variable {g : Guard N} {st st' st'' : State N}

theorem refl (st : State N) : Calm g st st :=
  ⟨.refl st, rfl, Nat.le_refl _, fun _ _ => ⟨rfl, rfl, rfl, rfl, rfl, rfl⟩, fun _ _ h => h⟩

theorem trans (h : Calm g st st') (h' : Calm g st' st'') : Calm g st st'' := by
  refine ⟨h.toRun.trans h'.toRun, h'.mfSlave.trans h.mfSlave, h.next.trans h'.next, fun p hp => ?_,
    fun name hname hnone => h'.lookup name hname (h.lookup name hname hnone)⟩
  have h1 := h.node p hp
  have h2 := h'.node p (Nat.lt_of_lt_of_le hp h.next)
  exact ⟨h2.ctime.trans h1.ctime, h2.master.trans h1.master, h2.slave.trans h1.slave,
    h2.handshake.trans h1.handshake, h2.slaves.trans h1.slaves, h2.slaveof.trans h1.slaveof⟩

theorem of_run (h : Run g st st') (hmf : st'.mfSlave = st.mfSlave) (hnext : st'.next = st.next)
    (hnode : ∀ p, SameRole (st.node p) (st'.node p)) (hnodes : st'.nodes = st.nodes)
    (hname : ∀ p, (st'.node p).name = (st.node p).name) : Calm g st st' := by
  refine ⟨h, hmf, hnext.ge, fun p _ => hnode p, fun name _ hnone => ?_⟩
  unfold clusterLookupNode at hnone ⊢
  simp only [hnodes, hname]
  exact hnone

theorem of_soft (h : Soft st st') : Calm g st st' :=
  of_run (.of_soft h) h.mfSlave h.next
    (fun p => ⟨(h.node p).ctime, (h.node p).master, (h.node p).slave, (h.node p).handshake,
      (h.node p).slaves, (h.node p).slaveof⟩) h.nodes fun p => (h.node p).name

theorem foldl {α : Type} {f : State N → α → State N} {xs : List α}
    (h : ∀ st', Calm g st st' → ∀ x ∈ xs, Calm g st' (f st' x)) :
    Calm g st (xs.foldl f st) := by
  induction xs generalizing st with
  | nil => exact refl st
  | cons x xs ih =>
    have hx := h st (refl st) x List.mem_cons_self
    refine hx.trans (ih fun st' hst' y hy => ?_)
    exact h st' (hx.trans hst') y (List.mem_cons_of_mem x hy)

end Calm

end Redis.Bus
