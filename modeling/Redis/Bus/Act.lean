import Redis.Bus.Receive

/-!
# Redis.Bus.Act

What the node does on its own and on command is a run of small changes:
failovers, `clusterCron`, `clusterBeforeSleep` and `clusterCommand`.
-/

namespace Redis.Bus

open List

variable {N : Type} {g : Guard N} {st st' : State N}

/-! ## Failing over the master -/

variable {p : Ptr} {ps : List Ptr} {slot : Nat} (env : Env N)

theorem Soft.clusterUpdateState (st : State N) : Soft st (clusterUpdateState env st) := by
  unfold Bus.clusterUpdateState
  extract_lets st1 covered masters reachable st2 minority st3 newState rejoinDelay
  have h1 : Soft st st1 := { refl st with }
  have h2 : Soft st st2 := { refl st with }
  have h3 : Soft st st3 := by
    unfold st3
    split
    · exact { h2 with }
    · exact h2
  split
  · exact h1
  · split
    · split
      · exact h3
      · exact { h3 with }
    · exact h3

variable [LinearOrder N]

theorem Run.resetManualFailover (st : State N) : Run g st (resetManualFailover st) := by
  have h1 : Soft st { st with mfEnd := 0, mfCanStart := false, mfMasterOffset := 0 } :=
    { Soft.refl st with }
  exact (of_soft h1).trans (of_micro (.mfSlave _ none fun p hp => by cases hp) rfl rfl rfl)

theorem Run.save (st : State N) (fsync : Bool) : Run g st (clusterSaveConfig st fsync) :=
  of_micro (.save st fsync) rfl rfl rfl

theorem Run.claimSlots (hw : Wf st) (hslave : st.me.flags.slave = false) (oldmaster : Ptr)
    {js : List Nat} (hjs : ∀ j ∈ js, j < clusterSlots) :
    Run g st (js.foldl (claimSlot oldmaster) st) := by
  induction js generalizing st with
  | nil => exact refl st
  | cons j js ih =>
    have hj := hjs j mem_cons_self
    have hone : Run g st (claimSlot oldmaster st j) ∧ Frame st (claimSlot oldmaster st j) := by
      unfold claimSlot
      split
      · exact ⟨moveSlot hw.myself.mem hj (.inr (.inl hslave)), Frame.moveSlot st st.myself j⟩
      · exact ⟨refl st, Frame.refl st⟩
    refine hone.1.trans (ih (hw.steps hone.1.steps) ?_ fun i hi => hjs i (mem_cons_of_mem j hi))
    rw [hone.2.me_flags]
    exact hslave

theorem Run.failoverReplaceYourMaster (hw : Wf st) (env : Env N) :
    Run g st (clusterFailoverReplaceYourMaster env st) := by
  unfold clusterFailoverReplaceYourMaster
  split
  · exact refl st
  · next hm =>
    have hm : (st.node st.myself).flags.master = false := by simpa [State.me] using hm
    split
    · exact refl st
    · next oldmaster _ =>
      extract_lets st1 st2 st3 st4 st5
      have h1 : Run g st st1 := setNodeAsMaster hw.myself.mem
      have hw1 := hw.steps h1.steps
      have hslave : st1.me.flags.slave = false := by
        have hmyself : st1.myself = st.myself := (Links.setNodeAsMaster st st.myself).myself
        have hnode := clusterSetNodeAsMaster_node hm st.myself
        have hme : st1.me = st1.node st.myself := by rw [State.me, hmyself]
        rw [hme, hnode, if_pos rfl]
      have h2 : Run g st1 st2 := claimSlots hw1 hslave oldmaster (hw1.slots.bits oldmaster)
      have h3 : Run g st2 st3 := of_soft (Soft.clusterUpdateState env st2)
      have h4 : Run g st3 st4 := save st3 true
      have h5 : Run g st4 st5 := (Calm.broadcastPong env st4 false).toRun
      exact ((((h1.trans h2).trans h3).trans h4).trans h5).trans (resetManualFailover st5)

theorem Calm.scheduleElection (st : State N) : Calm g st (scheduleElection env st) := by
  unfold Bus.scheduleElection
  extract_lets st1 rank st2
  have h1 : Calm g st st1 := assert st _ (by simp) (by simp) (by simp)
  have h2 : Calm g st1 st2 := of_soft { Soft.refl st1 with }
  exact (h1.trans h2).trans (broadcastPong env st2 true)

theorem Calm.updateRank (st : State N) : Calm g st (updateRank env st) := by
  unfold Bus.updateRank
  split
  · extract_lets st1 newrank
    have h1 : Calm g st st1 := assert st _ (by simp) (by simp) (by simp)
    refine h1.trans ?_
    split
    · exact of_soft { Soft.refl st1 with }
    · exact refl st1
  · exact refl st

/-- A run that deletes no node; the current epoch may be raised. -/
structure Grows (g : Guard N) (st st' : State N) : Prop where
  steps : Steps g st st'
  nodes : st.nodes ⊆ st'.nodes
  myself : st'.myself = st.myself

theorem Run.grows (h : Run g st st') : Grows g st st' := ⟨h.steps, h.nodes, h.myself⟩

theorem Grows.trans {st'' : State N} (h : Grows g st st') (h' : Grows g st' st'') :
    Grows g st st'' :=
  ⟨h.steps.trans h'.steps, fun _ hp => h'.nodes (h.nodes hp), h'.myself.trans h.myself⟩

theorem Grows.startElection (h : g.wrap ∨ st.currentEpoch + 1 < 2 ^ 64) :
    Grows g st (startElection env st) := by
  unfold Bus.startElection
  extract_lets st1 st2 st3
  have h2 : Grows g st st2 := ⟨.single (.election st h), fun _ hp => hp, rfl⟩
  have h3 : Run g st2 st3 := (Calm.requestFailoverAuth env st2).toRun
  have h4 : Run g st3 (todoFsync (todoState (todoSave { st3 with failoverAuthSent := true }))) :=
    .of_soft { Soft.refl st3 with }
  exact h2.trans (h3.trans h4).grows

theorem Run.winElection (hw : Wf st) (env : Env N) : Run g st (winElection env st) := by
  unfold Bus.winElection
  extract_lets st1
  have h1 : Run g st st1 := by
    unfold st1
    split
    · next hlt => exact of_micro (.win st hlt) rfl rfl rfl
    · exact refl st
  exact h1.trans (failoverReplaceYourMaster (hw.steps h1.steps) env)

theorem Grows.handleSlaveFailover (hw : Wf st) (env : Env N)
    (h : g.wrap ∨ st.currentEpoch + 1 < 2 ^ 64) :
    Grows g st (clusterHandleSlaveFailover env st) := by
  unfold clusterHandleSlaveFailover
  extract_lets authAge manualFailover st1 st2
  have h1 : Run g st st1 := .of_soft { Soft.refl st with }
  split
  · exact h1.grows
  split
  · exact h1.grows
  split
  · exact h1.grows
  split
  · exact h1.grows
  split
  · exact (h1.trans (Calm.scheduleElection env st1).toRun).grows
  have h2 : Calm g st1 st2 := Calm.updateRank env st1
  have h12 := h1.trans h2.toRun
  split
  · exact h12.grows
  split
  · exact h12.grows
  split
  · refine h12.grows.trans (Grows.startElection env ?_)
    rw [h12.currentEpoch]
    exact h
  split
  · exact (h12.trans (Run.winElection (hw.steps h12.steps) env)).grows
  · exact h12.grows

/-! ## Slave migration -/

/-- The target of a slave migration is a node of the table that is not a
slave. -/
theorem migrationRound_target (st : State N) (maxSlaves : Nat) (hps : ∀ p ∈ ps, p ∈ st.nodes)
    (acc : Option Ptr × Ptr)
    (hacc : ∀ t, acc.1 = some t → t ∈ st.nodes ∧ (st.node t).flags.slave = false) :
    ∀ t, (ps.foldl (migrationRound st maxSlaves) acc).1 = some t →
      t ∈ st.nodes ∧ (st.node t).flags.slave = false := by
  induction ps generalizing acc with
  | nil => exact hacc
  | cons p ps ih =>
    refine ih (fun q hq => hps q (mem_cons_of_mem p hq)) _ ?_
    have hp := hps p mem_cons_self
    intro t ht
    unfold migrationRound at ht
    dsimp only at ht
    split at ht
    · exact hacc t ht
    · next hflags =>
      have hslave : (st.node p).flags.slave = false := by
        simp only [Bool.or_eq_true, not_or, Bool.not_eq_true] at hflags
        exact hflags.1.1
      dsimp only at ht
      split at ht
      · injection ht with ht
        exact ht ▸ ⟨hp, hslave⟩
      · exact hacc t ht

theorem Run.handleSlaveMigration (st : State N) (maxSlaves : Nat) :
    Run g st (clusterHandleSlaveMigration env st maxSlaves) := by
  unfold clusterHandleSlaveMigration
  split
  · exact refl st
  split
  · exact refl st
  next mymaster hm =>
  extract_lets okslaves
  split
  · exact refl st
  split
  · next target candidate heq =>
    split
    · have ht := migrationRound_target st maxSlaves (fun p hp => hp) (none, st.myself)
        (fun t ht => by cases ht) target (by rw [heq])
      exact setMaster ht.1 (.inr ⟨by simp [hm], ht.2⟩)
    · exact refl st
  · exact refl st

/-! ## `clusterCron` -/

omit [LinearOrder N] in
theorem Thin.handshakeTimedOut (h : Thin st st') (env : Env N) (hp : p < st.next) :
    handshakeTimedOut env st' p = handshakeTimedOut env st p := by
  unfold Bus.handshakeTimedOut
  rw [(h.node p hp).handshake, (h.node p hp).ctime]

theorem Steps.cronConnect (hw : Wf st) (env : Env N) (hp : p ∈ st.nodes)
    (h : g.links ∨ (handshakeTimedOut env st p = true → Tidy st p)) :
    Steps g st (cronConnect env st p) ∧ Thin st (cronConnect env st p) ∧
      ∀ q ∈ st.nodes, q ≠ p → q ∈ (cronConnect env st p).nodes := by
  have hcalm : ∀ st', Calm g st st' →
      Steps g st st' ∧ Thin st st' ∧ ∀ q ∈ st.nodes, q ≠ p → q ∈ st'.nodes :=
    fun st' hc => ⟨hc.steps, hc.thin, fun q hq _ => hc.nodes hq⟩
  unfold Bus.cronConnect
  split
  · exact hcalm st (.refl st)
  next hflags =>
  split
  · next ht =>
    have hne : p ≠ st.myself := by
      intro heq
      have hself := (hw.myself.flag p hp).mpr heq
      simp [hself] at hflags
    obtain ⟨hnodes, hthin⟩ := delNode_thin hw env hp hne
    have hh : (st.node p).flags.handshake = true := by
      rw [Bus.handshakeTimedOut, Bool.and_eq_true] at ht
      exact ht.1
    refine ⟨Steps.delNode hw env hp hne (h.imp_right fun h' => h' ht) (.inr hh), hthin,
      fun q hq hqp => ?_⟩
    rw [hnodes]
    exact (mem_erase_of_ne hqp).mpr hq
  split
  · exact hcalm st (.refl st)
  split
  · exact hcalm _ (Calm.modNode st p fun _ => .rest (.refl _))
  · extract_lets oldPingSent st1 st2
    have h1 : Calm g st st1 := Calm.modNode st p fun _ => .rest (.refl _)
    have h2 : Calm g st1 st2 := Calm.sendPing env st1 (some p) _
    exact hcalm _ ((h1.trans h2).trans (Calm.modNode st2 p fun _ => .rest (.refl _)))

theorem Steps.cronConnects (hw : Wf st) (env : Env N) (hnodup : ps.Nodup)
    (hps : ∀ p ∈ ps, p ∈ st.nodes)
    (h : g.links ∨ ∀ p ∈ ps, handshakeTimedOut env st p = true → Tidy st p) :
    Steps g st (ps.foldl (Bus.cronConnect env) st) ∧ Thin st (ps.foldl (Bus.cronConnect env) st) := by
  induction ps generalizing st with
  | nil => exact ⟨.refl, (Calm.refl (g := g) st).thin⟩
  | cons p ps ih =>
    have hp := hps p mem_cons_self
    obtain ⟨hsteps, hthin, hrest⟩ := Steps.cronConnect (g := g) hw env hp
      (h.imp_right fun h' => h' p mem_cons_self)
    obtain ⟨hpps, hnodup⟩ := nodup_cons.mp hnodup
    have hmem : ∀ q ∈ ps, q ∈ st.nodes := fun q hq => hps q (mem_cons_of_mem p hq)
    obtain ⟨h1, h2⟩ := ih (hw.steps hsteps) hnodup
      (fun q hq => hrest q (hmem q hq) fun heq => hpps (heq ▸ hq))
      (h.imp_right fun h' q hq ht => by
        have hlt := hw.table.next q (hmem q hq)
        rw [hthin.handshakeTimedOut env hlt] at ht
        exact (h' q (mem_cons_of_mem p hq) ht).thin hthin hlt)
    exact ⟨hsteps.trans h1, hthin.trans h2⟩

theorem Calm.cronPingRandom (st : State N) : Calm g st (cronPingRandom env st) := by
  unfold Bus.cronPingRandom
  extract_lets cands
  cases cands with
  | nil => exact refl st
  | cons p ps => exact sendPing env st _ .ping

theorem Calm.cronCloseLink (st : State N) (p : Ptr) : Calm g st (cronCloseLink env st p) := by
  unfold Bus.cronCloseLink
  split
  · split
    · exact modNode st p fun _ => .rest (.refl _)
    · exact refl st
  · exact refl st

theorem Calm.cronCheck (st : State N) (cnt : CronCount) (p : Ptr) :
    Calm g st (cronCheck env (st, cnt) p).1 := by
  unfold Bus.cronCheck
  dsimp only
  have h1 : Calm g st (Bus.cronCloseLink env st p) := cronCloseLink env st p
  generalize Bus.cronCloseLink env st p = st1 at h1
  split
  · exact refl st
  split
  · exact h1.trans (sendPing env st1 (some p) .ping)
  split
  · exact h1.trans (sendPing env st1 (some p) .ping)
  split
  · refine h1.trans ?_
    dsimp only
    exact modNode st1 p fun _ => .rest (.refl _)
  · exact h1

theorem Calm.cronChecks (ps : List Ptr) (acc : State N × CronCount) :
    Calm g acc.1 (ps.foldl (Bus.cronCheck env) acc).1 := by
  induction ps generalizing acc with
  | nil => exact refl acc.1
  | cons p ps ih => exact (cronCheck env acc.1 acc.2 p).trans (ih _)

theorem Run.manualFailoverCheckTimeout (st : State N) :
    Run g st (manualFailoverCheckTimeout env st) := by
  unfold Bus.manualFailoverCheckTimeout
  split
  · exact resetManualFailover st
  · exact refl st

theorem Calm.handleManualFailover (st : State N) :
    Calm g st (clusterHandleManualFailover env st) := by
  unfold clusterHandleManualFailover
  split
  · exact refl st
  split
  · exact of_soft { Soft.refl st with }
  · exact refl st

theorem Steps.cronSlave (hw : Wf st) (env : Env N) (hwrap : g.wrap ∨ st.currentEpoch + 1 < 2 ^ 64)
    (cnt : CronCount) : Steps g st (cronSlave env st cnt) := by
  unfold Bus.cronSlave
  split
  · extract_lets st1 st2
    have h1 : Calm g st st1 := Calm.handleManualFailover env st
    have h2 : Grows g st1 st2 :=
      Grows.handleSlaveFailover (hw.steps h1.steps) env (by rwa [h1.currentEpoch])
    refine (h1.steps.trans h2.steps).trans ?_
    split
    · exact (Run.handleSlaveMigration env st2 cnt.maxSlaves).steps
    · exact .refl
  · exact .refl

theorem Steps.cron (hw : Wf st) (env : Env N) (hwrap : g.wrap ∨ st.currentEpoch + 1 < 2 ^ 64)
    (hlinks : g.links ∨ ∀ p ∈ st.nodes, handshakeTimedOut env st p = true → Tidy st p) :
    Steps g st (clusterCron env st) := by
  obtain ⟨h1, hthin⟩ := Steps.cronConnects (g := g) hw env hw.table.nodup (fun p hp => hp) hlinks
  unfold clusterCron
  extract_lets st1 st2
  have h2 : Calm g st1 st2 := Calm.cronPingRandom env st1
  have h3 : Calm g st2 (st2.nodes.foldl (cronCheck env) (st2, {})).1 :=
    Calm.cronChecks env st2.nodes (st2, {})
  generalize st2.nodes.foldl (cronCheck env) (st2, {}) = acc at h3 ⊢
  obtain ⟨st3, cnt⟩ := acc
  dsimp only at h3 ⊢
  have h4 : Run g st3 (manualFailoverCheckTimeout env st3) :=
    Run.manualFailoverCheckTimeout env st3
  generalize manualFailoverCheckTimeout env st3 = st4 at h4 ⊢
  have h14 : Run g st1 st4 := (h2.trans h3).toRun.trans h4
  have h5 : Steps g st4 (Bus.cronSlave env st4 cnt) := by
    refine Steps.cronSlave ((hw.steps h1).steps h14.steps) env ?_ cnt
    rw [h14.currentEpoch, hthin.currentEpoch]
    exact hwrap
  refine ((h1.trans h14.steps).trans h5).trans ?_
  split
  · exact .single (.soft (Soft.clusterUpdateState env _))
  · exact .refl

theorem Steps.beforeSleep (hw : Wf st) (env : Env N)
    (hwrap : g.wrap ∨ st.currentEpoch + 1 < 2 ^ 64) : Steps g st (clusterBeforeSleep env st) := by
  unfold clusterBeforeSleep
  extract_lets st1 st2 st3
  have h1 : Steps g st st1 := by
    unfold st1
    split
    · exact (Grows.handleSlaveFailover hw env hwrap).steps
    · exact .refl
  have h2 : Steps g st1 st2 := by
    unfold st2
    split
    · exact .single (.soft (Soft.clusterUpdateState env st1))
    · exact .refl
  have h3 : Steps g st2 st3 := by
    unfold st3
    split
    · exact .single (.save st2 _)
    · exact .refl
  exact ((h1.trans h2).trans h3).tail (.soft { Soft.refl st3 with })

/-! ## `clusterCommand` -/

omit [LinearOrder N] in
theorem getSlotOrReply_lt {arg : Option Int} (h : getSlotOrReply arg = some slot) :
    slot < clusterSlots := by
  unfold getSlotOrReply at h
  split at h
  · split at h
    · cases h
    · injection h with h
      omega
  · cases h

theorem Run.changeSlot (hw : Wf st) (del : Bool) {j : Nat} (hj : j < clusterSlots)
    (h : del = false → st.me.flags.slave = false ∨ g.slaveSlots) :
    Run g st (changeSlot del st j) ∧ (changeSlot del st j).me.flags = st.me.flags := by
  unfold Bus.changeSlot
  extract_lets st1 st2
  have h1 : Calm g st st1 := Calm.setImporting j fun p hp => by cases hp
  have h2 : Calm g st1 st2 := Calm.assert st1 _ (by simp) (by simp) (by simp)
  have h12 := h1.trans h2
  have hme : st2.me = st.me := by
    unfold st2
    rw [State.assert_eq]
    rfl
  split
  · refine ⟨h12.toRun.trans (delSlot st2 j), ?_⟩
    rw [(Frame.delSlot st2 j).me_flags, hme]
  · next hdel =>
    refine ⟨h12.toRun.trans (addSlot ?_ hj (.inr ?_)), ?_⟩
    · rw [h12.myself]
      exact h12.nodes hw.myself.mem
    · rw [hme]
      exact h (by simpa using hdel)
    · rw [(Frame.addSlot st2 _ j).me_flags, hme]

theorem Run.changeSlots (hw : Wf st) (del : Bool) {js : List Nat} (hjs : ∀ j ∈ js, j < clusterSlots)
    (h : del = false → st.me.flags.slave = false ∨ g.slaveSlots) :
    Run g st (js.foldl (Bus.changeSlot del) st) := by
  induction js generalizing st with
  | nil => exact refl st
  | cons j js ih =>
    obtain ⟨h1, hme⟩ := Run.changeSlot (g := g) hw del (hjs j mem_cons_self) h
    refine h1.trans (ih (hw.steps h1.steps) (fun i hi => hjs i (mem_cons_of_mem j hi)) ?_)
    rw [hme]
    exact h

/-- The command gives slots to this node while it is a slave. -/
def Command.slaveSlots (st : State N) : Command N → Prop
  | .addslots args => st.me.flags.slave = true ∧ checkSlots st false args [] = none
  | .setslot arg (.node name) =>
    st.me.flags.slave = true ∧ getSlotOrReply arg ≠ none ∧ name = st.me.name
  | _ => False

/-- A command that deletes nodes leaves no links behind; `RESET` ends the
manual failover first. -/
def Command.TidyLinks (st : State N) : Command N → Prop
  | .forget name => ∀ n, clusterLookupNode st name = some n → Tidy st n
  | .reset _ => ∀ n ∈ st.nodes, n ≠ st.myself →
      ((st.node n).slaves ≠ [] → (st.node n).flags.master = true) ∧
      ((st.node n).slaveof ≠ none → (st.node n).flags.slave = true)
  | _ => True

/-- The command deletes nodes. -/
def Command.forgets : Command N → Prop
  | .forget _ => True
  | .reset _ => True
  | _ => False

theorem Grows.bumpConfigEpoch (h : g.wrap ∨ st.currentEpoch + 1 < 2 ^ 64) :
    Grows g st (clusterBumpConfigEpochWithoutConsensus st) := by
  unfold clusterBumpConfigEpochWithoutConsensus
  split
  · have h1 : Grows g st (takeNewEpoch st) := ⟨.single (.newEpoch st h), fun _ hp => hp, rfl⟩
    have h2 : Run g (takeNewEpoch st) (todoFsync (todoSave (takeNewEpoch st))) :=
      .of_soft { Soft.refl (takeNewEpoch st) with }
    exact h1.trans h2.grows
  · exact (Run.refl st).grows

omit [LinearOrder N] in
theorem bumpConfigEpoch_frame (st : State N) :
    Frame st (clusterBumpConfigEpochWithoutConsensus st) := by
  unfold clusterBumpConfigEpochWithoutConsensus
  split
  · exact (Frame.takeNewEpoch st).trans { Frame.refl (takeNewEpoch st) with }
  · exact Frame.refl st

theorem Steps.setslotNode (hslot : slot < clusterSlots) (name : N)
    (hwrap : g.wrap ∨ st.currentEpoch + 1 < 2 ^ 64)
    (hslave : g.slaveSlots ∨ (name = st.me.name → st.me.flags.slave = false)) :
    Steps g st (setslotNode env st slot name).1 := by
  unfold Bus.setslotNode
  split
  · exact .refl
  next n hn =>
  split
  · exact .refl
  obtain ⟨hmem, hname⟩ := clusterLookupNode_some hn
  extract_lets st1 st2 st3 st4
  have h1 : Calm g st st1 ∧ st1.me = st.me := by
    unfold st1
    split
    · exact ⟨Calm.setMigrating slot fun p hp => (by cases hp), rfl⟩
    · exact ⟨.refl st, rfl⟩
  have h2 : Grows g st1 st2 := by
    refine Grows.bumpConfigEpoch ?_
    rw [h1.1.currentEpoch]
    exact hwrap
  have h3 : Grows g st1 st3 ∧ st3.me.flags = st1.me.flags := by
    unfold st3
    split
    · exact ⟨h2.trans (Calm.setImporting slot fun p hp => (by cases hp)).toRun.grows,
        (bumpConfigEpoch_frame st1).me_flags⟩
    · exact ⟨(Run.refl st1).grows, rfl⟩
  have h13 := h1.1.toRun.grows.trans h3.1
  have h4 : Run g st3 st4 := by
    refine Run.moveSlot (h13.nodes hmem) hslot ?_
    rw [h13.myself, h3.2, h1.2]
    by_cases hself : n = st.myself
    · refine .inr (hslave.symm.imp_left fun h => h ?_)
      rw [← hname, hself]
      rfl
    · exact .inl hself
  exact (h13.steps.trans h4.steps).tail (.soft { Soft.refl st4 with })

theorem Steps.setslot (hslot : slot < clusterSlots) (action : SetslotAction N)
    (hwrap : g.wrap ∨ st.currentEpoch + 1 < 2 ^ 64)
    (hslave : g.slaveSlots ∨ ∀ name, action = .node name → name = st.me.name →
      st.me.flags.slave = false) : Steps g st (clusterSetslot env st slot action).1 := by
  have htodo : ∀ st' : State N, Calm g st' (todoState (todoSave st')) := fun st' =>
    .of_soft { Soft.refl st' with }
  cases action with
  | migrating name =>
    rw [clusterSetslot]
    split
    · exact .refl
    split
    · exact .refl
    next n hn =>
    have hn := (clusterLookupNode_some hn).1
    refine (Calm.trans (Calm.setMigrating slot fun p hp => ?_) (htodo _)).steps
    injection hp with hp
    exact ⟨hslot, hp ▸ hn⟩
  | importing name =>
    rw [clusterSetslot]
    split
    · exact .refl
    split
    · exact .refl
    next n hn =>
    have hn := (clusterLookupNode_some hn).1
    refine (Calm.trans (Calm.setImporting slot fun p hp => ?_) (htodo _)).steps
    injection hp with hp
    exact ⟨hslot, hp ▸ hn⟩
  | stable =>
    have h1 : Calm g st
        { st with importingSlotsFrom := Function.update st.importingSlotsFrom slot none } :=
      Calm.setImporting slot fun p hp => by cases hp
    have h2 : Calm g { st with
          importingSlotsFrom := Function.update st.importingSlotsFrom slot none }
        { st with
          importingSlotsFrom := Function.update st.importingSlotsFrom slot none
          migratingSlotsTo := Function.update st.migratingSlotsTo slot none } :=
      Calm.setMigrating slot fun p hp => by cases hp
    exact ((h1.trans h2).trans (htodo _)).steps
  | node name =>
    exact Steps.setslotNode env hslot name hwrap (hslave.imp_right fun h => h name rfl)

theorem Grows.failover (hw : Wf st) (env : Env N) (option : FailoverOption)
    (hwrap : g.wrap ∨ st.currentEpoch + 1 < 2 ^ 64) :
    Grows g st (clusterFailover env st option).1 := by
  unfold clusterFailover
  split
  · exact (Run.refl st).grows
  split
  · exact (Run.refl st).grows
  next m _ =>
  split
  · exact (Run.refl st).grows
  extract_lets src st1 st2
  have h1 : Run g st st1 := by
    have hreset : Run g st (resetManualFailover st) := .resetManualFailover st
    have hsoft : Soft (resetManualFailover st) st1 := { Soft.refl (resetManualFailover st) with }
    exact hreset.trans (.of_soft hsoft)
  refine h1.grows.trans ?_
  unfold st2
  cases option with
  | none => exact (Calm.sendMFStart env st1 m).toRun.grows
  | force =>
    have hsoft : Soft st1 { st1 with mfCanStart := true } := { Soft.refl st1 with }
    exact (Run.of_soft hsoft).grows
  | takeover =>
    have hbump : Grows g st1 (clusterBumpConfigEpochWithoutConsensus st1) := by
      refine Grows.bumpConfigEpoch ?_
      rw [h1.currentEpoch]
      exact hwrap
    have hw1 := (hw.steps h1.steps).steps hbump.steps
    exact hbump.trans (Run.failoverReplaceYourMaster hw1 env).grows

theorem Steps.delNodes (hw : Wf st) (env : Env N) (hnodup : ps.Nodup)
    (hps : ∀ p ∈ ps, p ∈ st.nodes ∧ p ≠ st.myself) (h : g.links ∨ ∀ p ∈ ps, Tidy st p)
    (hforget : g.forget) :
    Steps g st (ps.foldl (clusterDelNode env) st) ∧
      (ps.foldl (clusterDelNode env) st).myself = st.myself ∧
      ∀ q, q ∈ (ps.foldl (clusterDelNode env) st).nodes → q ∈ st.nodes ∧ q ∉ ps := by
  induction ps generalizing st with
  | nil => exact ⟨.refl, rfl, fun q hq => ⟨hq, by simp⟩⟩
  | cons p ps ih =>
    obtain ⟨hp, hne⟩ := hps p mem_cons_self
    obtain ⟨hpps, hnodup⟩ := nodup_cons.mp hnodup
    have hstep := Steps.delNode hw env hp hne (h.imp_right fun h' => h' p mem_cons_self)
      (.inl hforget)
    obtain ⟨hnodes, hthin⟩ := delNode_thin hw env hp hne
    have hrest : ∀ q ∈ ps, q ∈ (clusterDelNode env st p).nodes ∧
        q ≠ (clusterDelNode env st p).myself := by
      intro q hq
      obtain ⟨hqmem, hqne⟩ := hps q (mem_cons_of_mem p hq)
      rw [hnodes, hthin.myself]
      have hqp : q ≠ p := fun heq => hpps (heq ▸ hq)
      exact ⟨(mem_erase_of_ne hqp).mpr hqmem, hqne⟩
    obtain ⟨h1, h2, h3⟩ := ih (hw.steps hstep) hnodup hrest (h.imp_right fun h' q hq =>
      (h' q (mem_cons_of_mem p hq)).thin hthin
        (hw.table.next q (hps q (mem_cons_of_mem p hq)).1))
    rw [foldl_cons]
    refine ⟨hstep.trans h1, by rw [h2, hthin.myself], fun q hq => ?_⟩
    obtain ⟨hqmem, hqps⟩ := h3 q hq
    rw [hnodes, hw.table.nodup.mem_erase_iff] at hqmem
    exact ⟨hqmem.2, by simp [hqmem.1, hqps]⟩

theorem eq_singleton_of_nodup {α : Type} {xs : List α} {a : α} (hnodup : xs.Nodup) (ha : a ∈ xs)
    (h : ∀ x ∈ xs, x = a) : xs = [a] := by
  match xs, ha with
  | [b], _ => rw [h b mem_cons_self]
  | b :: c :: xs, _ =>
    have hb := h b mem_cons_self
    have hc := h c (mem_cons_of_mem b mem_cons_self)
    rw [hb, hc] at hnodup
    simp at hnodup

omit [LinearOrder N] in
/-- When this node turns into a master, another node may lose it as a slave. -/
theorem setMyselfAsMaster_node (st : State N) (hne : p ≠ st.myself) :
    ((clusterSetNodeAsMaster st st.myself).node p).flags = (st.node p).flags ∧
      (((clusterSetNodeAsMaster st st.myself).node p).slaves ≠ [] → (st.node p).slaves ≠ []) ∧
      ((clusterSetNodeAsMaster st st.myself).node p).slaveof = (st.node p).slaveof := by
  cases hm : (st.node st.myself).flags.master with
  | true =>
    have heq : clusterSetNodeAsMaster st st.myself = st := by
      simp [clusterSetNodeAsMaster, hm]
    rw [heq]
    exact ⟨rfl, fun hs => hs, rfl⟩
  | false =>
    rw [clusterSetNodeAsMaster_node hm]
    refine ⟨if_neg hne, fun hs hnil => ?_, if_neg hne⟩
    have hsub := slavesWithout_sublist st st.myself p
    rw [hnil] at hsub
    exact hs (sublist_nil.mp hsub)

/-- `clusterReset` before it deletes the other nodes: it leaves them tidy. -/
theorem Run.resetMyself (hw : Wf st) :
    Run g st (resetMyself st) ∧ (resetMyself st).nodes = st.nodes ∧
      ∀ p, p ≠ st.myself → ((st.node p).slaves ≠ [] → (st.node p).flags.master = true) →
        ((st.node p).slaveof ≠ none → (st.node p).flags.slave = true) →
        Tidy (resetMyself st) p := by
  unfold Bus.resetMyself
  extract_lets st1 st2
  have h1 : Run g st st1 ∧ st1.nodes = st.nodes ∧ ∀ p, p ≠ st.myself →
      (st1.node p).flags = (st.node p).flags ∧
      ((st1.node p).slaves ≠ [] → (st.node p).slaves ≠ []) ∧
      (st1.node p).slaveof = (st.node p).slaveof := by
    unfold st1
    split
    · exact ⟨.setNodeAsMaster hw.myself.mem, (Links.setNodeAsMaster st st.myself).nodes,
        fun p hne => setMyselfAsMaster_node st hne⟩
    · exact ⟨.refl st, rfl, fun _ _ => ⟨rfl, fun hs => hs, rfl⟩⟩
  have hclose : Run g st1 (clusterCloseAllSlots st1) :=
    (Calm.openSlots (fun _ => none) (fun _ => none) (fun _ _ hj => by cases hj)
      fun _ _ hj => by cases hj).toRun
  have h2 : Run g st st2 := (h1.1.trans hclose).trans (.resetManualFailover _)
  have hf := Frame.delSlots st2 (range clusterSlots)
  refine ⟨h2.trans (.delSlots st2 _), ?_, fun p hne hslaves hslaveof => ?_⟩
  · rw [hf.nodes]
    exact h1.2.1
  · obtain ⟨hflags, hs, ho⟩ := h1.2.2 p hne
    have hfp : FrameNode (st1.node p) _ := hf.node p
    refine ⟨?_, ?_, ?_⟩
    · rw [hf.mfSlave]
      exact fun hmf => by cases hmf
    · rw [hfp.slaves, hfp.flags, hflags]
      exact fun hne => hslaves (hs hne)
    · rw [hfp.slaveof, hfp.flags, hflags, ho]
      exact hslaveof

theorem Steps.resetNodes (hw : Wf st) (env : Env N) (hard : Bool) (hhard : hard = true → g.hardReset)
    (hforget : g.forget) (h : g.links ∨ ∀ p ∈ st.nodes, p ≠ st.myself → Tidy st p) :
    Steps g st (resetNodes env st hard) := by
  unfold Bus.resetNodes
  extract_lets st1 st2
  have hmem : ∀ p, p ∈ st.nodes.filter (fun p => decide (p ≠ st.myself)) ↔
      p ∈ st.nodes ∧ p ≠ st.myself := by simp
  obtain ⟨h1, hmyself, hnodes⟩ := Steps.delNodes (g := g) hw env (hw.table.nodup.filter _)
    (fun p hp => (hmem p).mp hp)
    (h.imp_right fun ht p hp => ht p ((hmem p).mp hp).1 ((hmem p).mp hp).2) hforget
  have hw1 : Wf st1 := hw.steps h1
  have h2 : Steps g st1 st2 := by
    unfold st2
    split
    · next hh =>
      refine .single (.hardReset env st1 (hhard hh) ?_)
      refine eq_singleton_of_nodup hw1.table.nodup hw1.myself.mem fun q hq => ?_
      obtain ⟨hqmem, hnot⟩ := hnodes q hq
      by_contra hne
      refine hnot ((hmem q).mpr ⟨hqmem, ?_⟩)
      rw [← hmyself]
      exact hne
    · exact .refl
  exact (h1.trans h2).trans (Run.todo st2).steps

theorem Steps.reset (hw : Wf st) (env : Env N) (hard : Bool) (hhard : hard = true → g.hardReset)
    (hforget : g.forget) (h : g.links ∨ Command.TidyLinks st (.reset hard)) : Steps g st (clusterReset env st hard) := by
  obtain ⟨hrun, hnodes, htidy⟩ := Run.resetMyself (g := g) hw
  refine hrun.steps.trans (Steps.resetNodes (hw.steps hrun.steps) env hard hhard hforget ?_)
  refine h.imp_right fun ht p hp hne => ?_
  rw [hnodes] at hp
  rw [hrun.myself] at hne
  exact htidy p hne (ht p hp hne).1 (ht p hp hne).2

theorem Steps.command (hw : Wf st) {env : Env N} (hname : ∀ p, g.names (env.newName p))
    (cmd : Command N) (hwrap : g.wrap ∨ st.currentEpoch + 1 < 2 ^ 64)
    (hslave : g.slaveSlots ∨ ¬cmd.slaveSlots st) (hforget : cmd.forgets → g.forget)
    (hhard : cmd = .reset true → g.hardReset) (hlinks : g.links ∨ cmd.TidyLinks st) : Steps g st (clusterCommand env st cmd).1 := by
  have htodo : ∀ st' : State N, Steps g st' (todoState (todoSave st')) := fun st' =>
    .single (.soft { Soft.refl st' with })
  cases cmd with
  | meet ip port => exact (Calm.startHandshake hw hname ip port).steps
  | flushslots =>
    rw [clusterCommand]
    split
    · exact .refl
    · exact (Run.delSlots st _).steps.trans (htodo _)
  | addslots args =>
    rw [clusterCommand, Bus.changeSlots]
    split
    · exact .refl
    · next hcheck =>
      refine (Run.changeSlots hw false ?_ fun _ => ?_).steps.trans (htodo _)
      · intro j hj
        obtain ⟨arg, _, harg⟩ := mem_filterMap.mp hj
        exact getSlotOrReply_lt harg
      · refine hslave.symm.imp_left fun h => ?_
        have hne : ¬(st.me.flags.slave = true) := fun hs => h ⟨hs, hcheck⟩
        simpa using hne
  | delslots args =>
    rw [clusterCommand, Bus.changeSlots]
    split
    · exact .refl
    · refine (Run.changeSlots hw true ?_ fun h => by cases h).steps.trans (htodo _)
      intro j hj
      obtain ⟨arg, _, harg⟩ := mem_filterMap.mp hj
      exact getSlotOrReply_lt harg
  | setslot arg action =>
    rw [clusterCommand]
    split
    · exact .refl
    · next slot hslot =>
      refine Steps.setslot env (getSlotOrReply_lt hslot) action hwrap (hslave.imp_right ?_)
      intro h name haction heq
      subst haction
      have hne : ¬(st.me.flags.slave = true) := fun hs => h ⟨hs, by simp [hslot], heq⟩
      simpa using hne
  | saveconfig => exact (Run.save st true).steps
  | forget name =>
    rw [clusterCommand]
    split
    · exact .refl
    next n hn =>
    split
    · exact .refl
    next hne =>
    split
    · exact .refl
    have hmem := (clusterLookupNode_some hn).1
    extract_lets st1
    have h1 : Soft st st1 := { Soft.refl st with }
    have hw1 := hw.steps (g := g) (.single (.soft h1))
    refine (Relation.ReflTransGen.single (.soft h1)).trans
      ((Steps.delNode hw1 env hmem hne (hlinks.imp_right fun h => ?_)
        (.inl (hforget trivial))).trans (htodo _))
    exact { h n hn with }
  | replicate name =>
    rw [clusterCommand]
    split
    · exact .refl
    next n hn =>
    split
    · exact .refl
    next hne =>
    split
    · exact .refl
    split
    · exact .refl
    next hempty =>
    refine (Run.setMaster (clusterLookupNode_some hn).1 (.inl ⟨hne, fun hm => ?_⟩)).steps.trans
      (htodo _)
    by_contra hnum
    exact hempty ⟨hm, .inl hnum⟩
  | countFailureReports name =>
    rw [clusterCommand]
    split
    · exact .refl
    · exact .single (.soft (Soft.cleanupFailureReports env st _))
  | failover option => exact (Grows.failover hw env option hwrap).steps
  | setConfigEpoch epoch =>
    rw [clusterCommand]
    split
    · exact .refl
    split
    · exact .refl
    split
    · exact .refl
    next hzero =>
    -- the current epoch is raised first
    have h1 : Micro g st { st with currentEpoch := max st.currentEpoch epoch.toNat } :=
      .current st _ (Nat.le_max_left _ _)
    have h2 := Micro.config (g := g) { st with currentEpoch := max st.currentEpoch epoch.toNat }
      st.myself epoch.toNat hw.myself.mem ?_ (.inr (Nat.le_max_right _ _))
    · exact ((Relation.ReflTransGen.single h1).tail h2).trans (htodo _)
    · have hzero : (st.node st.myself).configEpoch = 0 := by simpa [State.me] using hzero
      simp [hzero]
  | reset hard =>
    rw [clusterCommand]
    split
    · exact .refl
    · exact Steps.reset hw env hard (fun h => hhard (by rw [h])) (hforget trivial) hlinks

end Redis.Bus
