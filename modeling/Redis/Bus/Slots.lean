import Redis.Bus.Events

/-!
# Redis.Bus.Slots

What holds of the slots in every state a node reaches: the slots table, the
bitmaps and the counters agree, and a slave has no slots unless a command gave
it some.
-/

namespace Redis.Bus

open List

variable {N : Type}

/-! ## The three places a slot is stored in -/

/-- The slots table, the bitmaps and the counters of the nodes agree, and the
assertion of `clusterDelSlot` has not failed. -/
structure SlotBookkeeping (st : State N) : Prop where
  owner : ∀ j n, st.slots j = some n ↔ n ∈ st.nodes ∧ bitmapTestBit (st.node n).slots j = true
  numslots : ∀ n ∈ st.nodes, (st.node n).numslots =
    (range clusterSlots).countP (bitmapTestBit (st.node n).slots)
  unique : ∀ n ∈ st.nodes, ∀ m ∈ st.nodes, ∀ j, bitmapTestBit (st.node n).slots j = true →
    bitmapTestBit (st.node m).slots j = true → n = m
  delSlot : st.failed ≠ some .delSlot

theorem countP_bitmapTestBit {slots : SlotBitmap} (hnodup : slots.Nodup)
    (hlt : ∀ j ∈ slots, j < clusterSlots) :
    (range clusterSlots).countP (bitmapTestBit slots) = slots.length := by
  rw [countP_eq_length_filter]
  refine Perm.length_eq ((perm_ext_iff_of_nodup ?_ hnodup).mpr fun j => ?_)
  · exact nodup_range.filter _
  · simp only [mem_filter, mem_range, bitmapTestBit, decide_eq_true_eq]
    exact ⟨fun hj => hj.2, fun hj => ⟨hlt j hj, hj⟩⟩

theorem Wf.bookkeeping {st : State N} (h : Wf st) : SlotBookkeeping st where
  owner := by
    intro j n
    rw [h.slots.owner, bitmapTestBit, decide_eq_true_eq]
  numslots := by
    intro n hn
    rw [h.slots.numslots n hn, countP_bitmapTestBit (h.slots.nodup n hn) (h.slots.bits n)]
  unique := by
    intro n hn m hm j hj hj'
    rw [bitmapTestBit, decide_eq_true_eq] at hj hj'
    have hn' := (h.slots.owner j n).mpr ⟨hn, hj⟩
    have hm' := (h.slots.owner j m).mpr ⟨hm, hj'⟩
    exact Option.some.inj (hn'.symm.trans hm')
  delSlot := h.slots.failed

variable [LinearOrder N]

/-- The slot bookkeeping is right in every state a node reaches. -/
theorem reachable_slotBookkeeping {st : State N} (h : Reachable (fun st ev => ev.Ok st) st) :
    SlotBookkeeping st :=
  (h.wf fun _ _ hok => hok).bookkeeping

/-- `CLUSTER ADDSLOTS 0 1` and `CLUSTER DELSLOTS 0` in a new node. -/
theorem slotBookkeeping_addslots :
    SlotBookkeeping ([Event.command quietEnv (.addslots [some 0, some 1]),
        .command quietEnv (.delslots [some 0])].foldl step (clusterInit quietEnv none [])) ∧
      ([Event.command quietEnv (.addslots [some 0, some 1]),
        .command quietEnv (.delslots [some 0])].foldl step (clusterInit quietEnv none [])).slots 1 =
        some 1 :=
  ⟨reachable_slotBookkeeping ((Reachable.start quietEnv).run ⟨trivial, trivial, trivial⟩), by decide⟩

/-! ## The slots of a slave -/

/-- A slave has no slots, and no assertion of `clusterSetMaster` has failed. -/
structure SlaveInv (st : State N) : Prop where
  numslots : st.me.flags.slave = true → st.me.numslots = 0
  setMasterSelf : st.failed ≠ some .setMasterSelf
  setMasterSlots : st.failed ≠ some .setMasterSlots

section SlaveInv

omit [LinearOrder N]

variable {st st' : State N}

theorem SlaveInv.of_me (h : SlaveInv st) (hmyself : st'.myself = st.myself)
    (hme : (st'.node st.myself).flags.slave = true → (st'.node st.myself).numslots = 0)
    (hfailed : st'.failed = st.failed) : SlaveInv st' where
  numslots := by
    rw [State.me, hmyself]
    exact hme
  setMasterSelf := by
    rw [hfailed]
    exact h.setMasterSelf
  setMasterSlots := by
    rw [hfailed]
    exact h.setMasterSlots

theorem SlaveInv.of_eq (h : SlaveInv st) (hmyself : st'.myself = st.myself)
    (hslave : (st'.node st.myself).flags.slave = st.me.flags.slave)
    (hnum : (st'.node st.myself).numslots = st.me.numslots) (hfailed : st'.failed = st.failed) :
    SlaveInv st' := by
  refine h.of_me hmyself ?_ hfailed
  rw [hslave, hnum]
  exact h.numslots

/-- An assertion other than those of `clusterSetMaster`. -/
theorem SlaveInv.assert (h : SlaveInv st) (b : Bool) {a : Assertion} (h1 : a ≠ .setMasterSelf)
    (h2 : a ≠ .setMasterSlots) : SlaveInv (st.assert b a) := by
  unfold State.assert
  split
  · exact h
  · cases hf : st.failed with
    | none => exact ⟨h.numslots, by simpa using h1, by simpa using h2⟩
    | some a' => exact ⟨h.numslots, by simpa [hf] using h.setMasterSelf, by simpa [hf] using h.setMasterSlots⟩

theorem leaveMaster_failed (st : State N) (n : Ptr) : (leaveMaster st n).failed = st.failed := by
  unfold leaveMaster
  split
  · rfl
  · rfl

theorem detachSlaves_failed (st : State N) (slaves : List Ptr) :
    (detachSlaves st slaves).failed = st.failed := by
  unfold detachSlaves
  induction slaves generalizing st with
  | nil => rfl
  | cons s slaves ih =>
    rw [foldl_cons, ih]
    rfl

theorem clusterSetNodeAsMaster_failed (st : State N) (n : Ptr) :
    (clusterSetNodeAsMaster st n).failed = st.failed := by
  unfold clusterSetNodeAsMaster
  split
  · rfl
  · exact leaveMaster_failed st n

theorem changeMaster_failed (st : State N) (s m : Ptr) : (changeMaster st s m).failed = st.failed :=
  leaveMaster_failed st s

theorem SlaveInv.addSlot (h : SlaveInv st) {n : Ptr} (j : Nat)
    (hn : n ≠ st.myself ∨ st.me.flags.slave = false) : SlaveInv (clusterAddSlot st n j) := by
  have hme := (Frame.addSlot st n j).me_flags
  unfold clusterAddSlot at hme ⊢
  cases hs : st.slots j with
  | some q => exact h
  | none =>
    rw [hs] at hme
    refine h.of_me rfl (fun hslave => ?_) rfl
    rcases hn with hn | hn
    · simpa [Ne.symm hn, State.me] using h.numslots (hme ▸ hslave)
    · rw [← hme] at hn
      exact absurd hslave (by simpa [State.me] using hn)

theorem SlaveInv.delSlot (h : SlaveInv st) (j : Nat) : SlaveInv (clusterDelSlot st j) := by
  unfold clusterDelSlot
  cases hs : st.slots j with
  | none => exact h
  | some n =>
    dsimp only
    have h1 := h.assert (bitmapTestBit (st.node n).slots j) (a := .delSlot) (by simp) (by simp)
    generalize st.assert (bitmapTestBit (st.node n).slots j) .delSlot = st1 at h1 ⊢
    refine h1.of_me rfl ?_ rfl
    simp only [State.modNode_node, clusterNodeClearSlotBit]
    split
    · intro hslave
      have hnum : (st1.node st1.myself).numslots = 0 := h1.numslots hslave
      dsimp only
      rw [hnum]
      split
      · rfl
      · rfl
    · exact h1.numslots

theorem SlaveInv.setNodeAsMaster (h : SlaveInv st) (n : Ptr) :
    SlaveInv (clusterSetNodeAsMaster st n) := by
  have hl := Links.setNodeAsMaster st n
  cases hm : (st.node n).flags.master with
  | true =>
    have heq : clusterSetNodeAsMaster st n = st := by simp [clusterSetNodeAsMaster, hm]
    rw [heq]
    exact h
  | false =>
    refine h.of_me hl.myself ?_ (clusterSetNodeAsMaster_failed st n)
    rw [clusterSetNodeAsMaster_node hm]
    dsimp only
    split
    · exact fun hslave => absurd hslave Bool.false_ne_true
    · exact h.numslots

theorem SlaveInv.setMaster (h : SlaveInv st) {n : Ptr} (hne : n ≠ st.myself)
    (hnum : st.me.numslots = 0) : SlaveInv (clusterSetMaster st n) := by
  have hl := Links.setMaster st n
  have hfailed : (clusterSetMaster st n).failed = st.failed := by
    have h1 : st.assert (decide (n ≠ st.myself)) .setMasterSelf = st := by simp [State.assert, hne]
    have h2 : st.assert (decide (st.me.numslots = 0)) .setMasterSlots = st := by
      simp [State.assert, hnum]
    have hleave : (leaveRole st).failed = st.failed := by
      unfold leaveRole
      split
      · rfl
      · exact leaveMaster_failed st _
    unfold clusterSetMaster
    simp only [h1, h2]
    exact hleave
  refine h.of_me hl.myself (fun _ => ?_) hfailed
  rw [(hl.node st.myself).numslots]
  exact hnum

end SlaveInv

variable {st st' : State N} {g : Guard N}

theorem freeClusterNode_failed (hw : Wf st) {n : Ptr} (hn : n ∈ st.nodes) :
    (freeClusterNode st n).failed = st.failed := by
  unfold freeClusterNode
  extract_lets st1 st2 st3 st4
  have hfailed1 : st1.failed = st.failed := by
    unfold st1
    split
    · exact detachSlaves_failed st _
    · rfl
  have hfailed2 : st2.failed = st1.failed := by
    unfold st2
    split
    · exact leaveMaster_failed st1 n
    · rfl
  have hl1 : Links st st1 := by
    unfold st1
    split
    · exact Links.detachSlaves st _
    · exact Links.refl st
  have hl2 : Links st1 st2 := by
    unfold st2
    split
    · exact Links.leaveMaster st1 n
    · exact Links.refl st1
  have hl := hl1.trans hl2
  have hlookup := (hw.table.links hl).lookup (hl.nodes ▸ hn)
  have h3 : st3 = st2 := by
    unfold st3
    rw [hlookup]
    rfl
  have h4 : st4.failed = st3.failed := by
    unfold st4 dictDeleteNode
    split
    · rfl
    · rfl
  exact h4.trans (by rw [h3, hfailed2, hfailed1])

/-- A small change keeps the slots of a slave empty, unless it gives it one. -/
theorem SlaveInv.micro (hg : ¬g.slaveSlots) (hw : Wf st) (h : SlaveInv st) (hm : Micro g st st') :
    SlaveInv st' := by
  cases hm with
  | soft hs => exact h.of_eq hs.myself (hs.node _).slave (hs.node _).numslots hs.failed
  | assert _ b a _ h1 h2 => exact h.assert b h1 h2
  | addSlot _ n j _ _ hn => exact h.addSlot j (hn.imp_right fun hn => hn.resolve_right hg)
  | delSlot _ j => exact h.delSlot j
  | create _ now name f =>
    have hne : st.myself ≠ st.next := Nat.ne_of_lt (hw.table.next _ hw.myself.mem)
    rw [hw.table.create_eq]
    refine h.of_eq rfl ?_ ?_ rfl
    · simp only [Function.update_of_ne hne]
      rfl
    · simp only [Function.update_of_ne hne]
      rfl
  | free _ n hn hne =>
    have hl := Links.free hw.table hn
    refine h.of_eq hl.myself ?_ (hl.node st.myself).numslots (freeClusterNode_failed hw hn)
    obtain ⟨link, heq⟩ := freeClusterNode_node st n st.myself
    rw [heq]
    rfl
  | endHandshake _ p name m s hp hne _ hnone =>
    rw [hw.table.rename_eq hp hnone]
    refine h.of_eq rfl ?_ ?_ rfl
    · simp [Ne.symm hne, State.me]
    · simp [Ne.symm hne, State.me]
  | setNodeAsMaster _ n => exact h.setNodeAsMaster n
  | demote _ s _ _ hnum =>
    refine h.of_me rfl ?_ rfl
    simp only [clusterNodeResetSlaves, State.modNode_node]
    split
    · next hs => exact fun _ => hs ▸ hnum
    · exact h.numslots
  | changeMaster _ s m =>
    refine h.of_eq (Links.changeMaster st s m).myself ?_ ?_ (changeMaster_failed st s m)
    · rw [changeMaster_node]
      rfl
    · rw [changeMaster_node]
      rfl
  | setMaster _ n _ hn =>
    rcases hn with ⟨hne, hnum⟩ | ⟨hslaveof, hnslave⟩
    · refine h.setMaster hne ?_
      cases hm : st.me.flags.master with
      | true => exact hnum hm
      | false =>
        have hrole := hw.myself.role
        rw [hm] at hrole
        exact h.numslots hrole
    · have hslave := hw.myself.slaveof hslaveof
      refine h.setMaster ?_ (h.numslots hslave)
      rintro rfl
      rw [State.me, hnslave] at hslave
      cases hslave
  | failureReport _ now failing sender =>
    refine h.of_eq rfl ?_ ?_ rfl
    · simp only [clusterNodeAddFailureReport, State.modNode_node]
      split
      · rfl
      · rfl
    · simp only [clusterNodeAddFailureReport, State.modNode_node]
      split
      · rfl
      · rfl
  | openSlots _ mig imp => exact { h with }
  | mfSlave _ s => exact { h with }
  | current _ e => exact { h with }
  | config _ n e =>
    refine h.of_eq rfl ?_ ?_ rfl
    · rw [State.modNode_node]
      split
      · rfl
      · rfl
    · rw [State.modNode_node]
      split
      · rfl
      · rfl
  | newEpoch => exact h.of_eq rfl (by simp [takeNewEpoch, State.me]) (by simp [takeNewEpoch, State.me]) rfl
  | election => exact { h with }
  | win => exact h.of_eq rfl (by simp [State.me]) (by simp [State.me]) rfl
  | vote env _ n =>
    unfold clusterSendFailoverAuth clusterSendIfLink
    split
    · exact { h with }
    · exact { h with }
  | send _ p msg => exact { h with }
  | save _ fsync => exact { h with }
  | flush => exact { h with }
  | hardReset env _ _ hnodes =>
    rw [hw.table.hardReset_eq hnodes]
    exact h.of_eq rfl (by simp [State.me]) (by simp [State.me]) rfl

theorem SlaveInv.load {st0 : State N} (hw : Wf st0) (h : SlaveInv st0) (env : Env N)
    (sent : List (Option N × Msg N)) :
    SlaveInv (clusterInit env (some (configLines st0)) sent) := by
  obtain ⟨st1, hl, heq⟩ := clusterInit_eq env hw.nodeLines st0.currentEpoch st0.lastVoteEpoch sent
  rw [configLines_eq, heq]
  obtain ⟨hmem, hline⟩ := hl.me_line hw
  have hfailed : (loadedState env st1 st0.currentEpoch st0.lastVoteEpoch).failed = none := hl.failed
  refine ⟨fun hslave => ?_, by simp [hfailed], by simp [hfailed]⟩
  have hme : (loadedState env st1 st0.currentEpoch st0.lastVoteEpoch).me = _ :=
    loadedState_node env st1 _ _ st1.myself
  rw [hme] at hslave ⊢
  dsimp only at hslave ⊢
  -- the line of a slave has no slots
  rw [hline.flags] at hslave
  have hslots : st0.me.slots = [] := by
    have hnum := hw.slots.numslots _ hw.myself.mem
    have hzero : st0.me.numslots = 0 := h.numslots (by simpa [orFlags, clusterGenNodeDescription] using hslave)
    exact eq_nil_of_length_eq_zero (hnum.symm.trans hzero)
  rw [hl.slots.numslots _ hmem, length_eq_zero_iff, eq_nil_iff_forall_not_mem]
  intro j hj
  have hj0 := hl.slot hw hw.myself.mem hline.name hj hmem
  rw [show (st0.node st0.myself).slots = [] from hslots] at hj0
  exact absurd hj0 not_mem_nil

/-- In a run in which no command gives slots to the node while it is a slave, a
slave has no slots and the assertions of `clusterSetMaster` hold. -/
theorem reachable_slaveInv (h : Reachable (fun st ev => ev.Ok st ∧ ¬ev.slaveSlots st) st) :
    SlaveInv st := by
  refine (h.invariant (fun ev => { ev.guard with slaveSlots := False }) ?_ ?_ ?_ ?_).2.1
  · intro st ev _ _ hok _
    exact ⟨hok.1, fun _ hn => hn, hok.1.sender, .inl trivial, .inl trivial, .inr hok.2, .inl trivial,
      fun _ => trivial, fun _ => trivial⟩
  · exact fun ev st st' hw hi hm => hi.micro (fun hg => hg) hw hm
  · intro env
    exact ⟨fun _ => rfl, by simp [freshState, emptyState], by simp [freshState, emptyState]⟩
  · exact fun env st st0 _ hw hi _ _ => hi.load hw env st.sent

/-- A node that became a slave with `CLUSTER REPLICATE`. -/
theorem slaveInv_replicate :
    (replicateEvents.foldl step (clusterInit quietEnv none [])).me.flags.slave = true ∧
      SlaveInv (replicateEvents.foldl step (clusterInit quietEnv none [])) :=
  ⟨by decide, reachable_slaveInv ((Reachable.start quietEnv).run replicateEvents_ok)⟩

/-- `CLUSTER ADDSLOTS` is accepted by a slave, and the next `CLUSTER REPLICATE`
ends the process. -/
theorem addslots_slave : ∃ st : State Nat, Reachable (fun st ev => ev.Ok st) st ∧
    st.me.flags.slave = true ∧ st.me.numslots = 1 ∧
    (step st (.command quietEnv (.replicate 7))).failed = some .setMasterSlots := by
  have h : Reachable (fun st ev => ev.Ok st) (clusterInit quietEnv none []) := .start quietEnv
  have hrun : Reachable (fun st ev => ev.Ok st)
      (replicateEvents.foldl step (clusterInit quietEnv none [])) :=
    h.run ⟨trivial, trivial, masterPong_ok (by decide), trivial, trivial⟩
  exact ⟨_, .step (.command quietEnv (.addslots [some 0])) hrun trivial, by decide, by decide,
    by decide⟩

end Redis.Bus
