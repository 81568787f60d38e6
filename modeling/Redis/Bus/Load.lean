import Redis.Bus.Act

/-!
# Redis.Bus.Load

What `clusterLoadConfig` builds from the lines of `nodes.conf`.

Nodes are created on first reference, by the line of the node or before it by a
line that names it as a master or in an open slot.  A node that was created has
nothing but a name, as the memory it is created in, so that creating nodes is
invisible except through the names (`Created`).
-/

namespace Redis.Bus

open List

variable {N : Type}
variable {st st' st'' : State N} {n : Ptr}

/-! ## Creating nodes on reference -/

/-- The record of no node, or of a node that has nothing but a name. -/
structure Blank (x : Node N) : Prop where
  flags : x.flags = {}
  configEpoch : x.configEpoch = 0
  slots : x.slots = []
  numslots : x.numslots = 0
  slaves : x.slaves = []
  slaveof : x.slaveof = none
  ip : x.ip = []
  port : x.port = 0
  failReports : x.failReports = []

/-- The record `y` has everything of `x` that `nodes.conf` restores, except for
the name. -/
structure SameBody (x y : Node N) : Prop where
  flags : y.flags = x.flags
  configEpoch : y.configEpoch = x.configEpoch
  slots : y.slots = x.slots
  numslots : y.numslots = x.numslots
  slaves : y.slaves = x.slaves
  slaveof : y.slaveof = x.slaveof
  ip : y.ip = x.ip
  port : y.port = x.port
  failReports : y.failReports = x.failReports

/-- The state while the file is read: the tables are well formed, and memory
that is not in use is blank. -/
structure Loading (st : State N) : Prop where
  table : TableInv st
  slots : SlotsInv st
  zero : ∀ p ∈ st.nodes, p ≠ 0
  blank : ∀ p, st.next ≤ p → Blank (st.node p)

/-- Nodes are added to the table. -/
structure Extends (st st' : State N) : Prop where
  nodes : st.nodes ⊆ st'.nodes
  fresh : ∀ p ∈ st'.nodes, p ∈ st.nodes ∨ st.next ≤ p
  name : ∀ p ∈ st.nodes, (st'.node p).name = (st.node p).name
  next : st.next ≤ st'.next

/-- The fields of the state that a line of a node does not touch. -/
structure SameVars (st st' : State N) : Prop where
  currentEpoch : st'.currentEpoch = st.currentEpoch
  lastVoteEpoch : st'.lastVoteEpoch = st.lastVoteEpoch
  failoverAuthEpoch : st'.failoverAuthEpoch = st.failoverAuthEpoch
  mfSlave : st'.mfSlave = st.mfSlave
  file : st'.file = st.file
  queued : st'.queued = st.queued
  sent : st'.sent = st.sent

/-- Nodes were created and slots opened, and nothing else happened. -/
structure Opened (st st' : State N) : Prop extends Extends st st', SameVars st st' where
  body : ∀ p, SameBody (st.node p) (st'.node p)
  myself : st'.myself = st.myself
  slots : st'.slots = st.slots
  failed : st'.failed = st.failed

/-- Nodes were created, and nothing else happened. -/
structure Created (st st' : State N) : Prop extends Opened st st' where
  migratingSlotsTo : st'.migratingSlotsTo = st.migratingSlotsTo
  importingSlotsFrom : st'.importingSlotsFrom = st.importingSlotsFrom

theorem Extends.refl (st : State N) : Extends st st :=
  ⟨fun _ h => h, fun _ h => .inl h, fun _ _ => rfl, Nat.le_refl _⟩

theorem Extends.trans (h : Extends st st') (h' : Extends st' st'') :
    Extends st st'' where
  nodes := fun _ hp => h'.nodes (h.nodes hp)
  fresh := by
    intro p hp
    rcases h'.fresh p hp with hp | hp
    · exact h.fresh p hp
    · exact .inr (h.next.trans hp)
  name := fun p hp => (h'.name p (h.nodes hp)).trans (h.name p hp)
  next := h.next.trans h'.next

theorem SameVars.refl (st : State N) : SameVars st st := ⟨rfl, rfl, rfl, rfl, rfl, rfl, rfl⟩

theorem SameVars.trans (h : SameVars st st') (h' : SameVars st' st'') : SameVars st st'' :=
  ⟨h'.currentEpoch.trans h.currentEpoch, h'.lastVoteEpoch.trans h.lastVoteEpoch,
    h'.failoverAuthEpoch.trans h.failoverAuthEpoch, h'.mfSlave.trans h.mfSlave,
    h'.file.trans h.file, h'.queued.trans h.queued, h'.sent.trans h.sent⟩

theorem SameBody.refl (x : Node N) : SameBody x x := ⟨rfl, rfl, rfl, rfl, rfl, rfl, rfl, rfl, rfl⟩

theorem SameBody.trans {x y z : Node N} (h : SameBody x y) (h' : SameBody y z) : SameBody x z :=
  ⟨h'.flags.trans h.flags, h'.configEpoch.trans h.configEpoch, h'.slots.trans h.slots,
    h'.numslots.trans h.numslots, h'.slaves.trans h.slaves, h'.slaveof.trans h.slaveof,
    h'.ip.trans h.ip, h'.port.trans h.port, h'.failReports.trans h.failReports⟩

theorem Opened.refl (st : State N) : Opened st st :=
  { Extends.refl st, SameVars.refl st with
    body := fun _ => SameBody.refl _
    myself := rfl
    slots := rfl
    failed := rfl }

theorem Opened.trans (h : Opened st st') (h' : Opened st' st'') : Opened st st'' :=
  { h.toExtends.trans h'.toExtends, h.toSameVars.trans h'.toSameVars with
    body := fun p => (h.body p).trans (h'.body p)
    myself := h'.myself.trans h.myself
    slots := h'.slots.trans h.slots
    failed := h'.failed.trans h.failed }

variable [LinearOrder N]

theorem lookupOrCreate_spec (h : Loading st) (now : Int) (name : N) :
    Loading (lookupOrCreate now st name).1 ∧ Created st (lookupOrCreate now st name).1 ∧
      (lookupOrCreate now st name).2 ∈ (lookupOrCreate now st name).1.nodes ∧
      ((lookupOrCreate now st name).1.node (lookupOrCreate now st name).2).name = name := by
  unfold lookupOrCreate
  cases hl : clusterLookupNode st name with
  | some p =>
    obtain ⟨hp, hname⟩ := clusterLookupNode_some hl
    exact ⟨h, { Opened.refl st with migratingSlotsTo := rfl, importingSlotsFrom := rfl }, hp, hname⟩
  | none =>
    have hblank := h.blank st.next (Nat.le_refl _)
    have htable := h.table.create now name {}
    have hslots := h.slots.create h.table now name {}
    change Loading (clusterAddNode (createClusterNode st now name {}).1 st.next) ∧
      Created st (clusterAddNode (createClusterNode st now name {}).1 st.next) ∧
      st.next ∈ (clusterAddNode (createClusterNode st now name {}).1 st.next).nodes ∧
      ((clusterAddNode (createClusterNode st now name {}).1 st.next).node st.next).name = name
    rw [h.table.create_eq] at htable hslots ⊢
    simp only [hl, Option.isSome_none, Bool.false_eq_true, if_false] at htable hslots ⊢
    refine ⟨⟨htable, hslots, ?_, ?_⟩, ?_, ?_, ?_⟩
    · intro p hp
      rcases mem_append.mp hp with hp | hp
      · exact h.zero p hp
      · rw [mem_singleton.mp hp]
        exact Nat.pos_iff_ne_zero.mp h.table.pos
    · intro p hp
      have hne : p ≠ st.next := Nat.ne_of_gt hp
      dsimp only
      rw [Function.update_of_ne hne]
      exact h.blank p (Nat.le_of_succ_le hp)
    · refine { SameVars.refl st with
        nodes := fun p hp => mem_append_left _ hp
        fresh := ?_
        name := ?_
        next := Nat.le_succ _
        body := ?_
        myself := rfl
        slots := rfl
        migratingSlotsTo := rfl
        importingSlotsFrom := rfl
        failed := rfl }
      · intro p hp
        rcases mem_append.mp hp with hp | hp
        · exact .inl hp
        · exact .inr (mem_singleton.mp hp).ge
      · intro p hp
        dsimp only
        rw [Function.update_of_ne (Nat.ne_of_lt (h.table.next p hp))]
      · intro p
        dsimp only
        by_cases hp : p = st.next
        · subst hp
          rw [Function.update_self]
          exact ⟨hblank.flags.symm, hblank.configEpoch.symm, hblank.slots.symm,
            hblank.numslots.symm, hblank.slaves.symm, hblank.slaveof.symm, hblank.ip.symm,
            hblank.port.symm, hblank.failReports.symm⟩
        · rw [Function.update_of_ne hp]
          exact SameBody.refl _
    · exact mem_append_right _ (mem_singleton.mpr rfl)
    · rw [Function.update_self]
      rfl

/-! ## The parts of a line -/

omit [LinearOrder N] in
/-- A record of the table is changed, but not its name, slots and failure
reports. -/
theorem Loading.modNode (h : Loading st) (hn : n ∈ st.nodes) {f : Node N → Node N}
    (hname : ∀ x, (f x).name = x.name) (hslots : ∀ x, (f x).slots = x.slots)
    (hnum : ∀ x, (f x).numslots = x.numslots) (hrep : ∀ x, (f x).failReports = x.failReports) :
    Loading (st.modNode n f) := by
  have hproj : ∀ {α : Type} (g : Node N → α), (∀ x, g (f x) = g x) → ∀ p,
      g ((st.modNode n f).node p) = g (st.node p) := by
    intro α g hg p
    rw [State.modNode_node]
    split
    · exact hg _
    · rfl
  refine ⟨?_, h.slots.modNode n fun x => ⟨hslots x, hnum x⟩, h.zero, fun p hp => ?_⟩
  · refine ⟨h.table.nodup, ?_, h.table.next, h.table.pos, h.table.migrating, h.table.importing, ?_⟩
    · intro p hp q hq hpq
      rw [hproj Node.name hname, hproj Node.name hname] at hpq
      exact h.table.names p hp q hq hpq
    · intro p
      rw [hproj Node.failReports hrep]
      exact h.table.reports p
  · have hne : p ≠ n := Nat.ne_of_gt (Nat.lt_of_lt_of_le (h.table.next n hn) hp)
    rw [State.modNode_node, if_neg hne]
    exact h.blank p hp

/-- What the master of a line does: `p` is the node of the line. -/
structure MasterLoaded (st st' : State N) (p : Ptr) (slaveof : Option N) : Prop where
  absent : slaveof = none → ∀ q, (st'.node q).slaveof = (st.node q).slaveof ∧
    (st'.node q).slaves = (st.node q).slaves
  named : ∀ name, slaveof = some name → ∃ m ∈ st'.nodes, (st'.node m).name = name ∧
    ∀ q, (st'.node q).slaveof = (if q = p then some m else (st.node q).slaveof) ∧
      (st'.node q).slaves = if q = m then slavesWith (st.node q).slaves p else (st.node q).slaves

/-- The tables other than the nodes table are the same. -/
structure SameTables (st st' : State N) : Prop where
  myself : st'.myself = st.myself
  slots : st'.slots = st.slots
  migratingSlotsTo : st'.migratingSlotsTo = st.migratingSlotsTo
  importingSlotsFrom : st'.importingSlotsFrom = st.importingSlotsFrom
  failed : st'.failed = st.failed

theorem loadMaster_spec (h : Loading st) (now : Int) (hn : n ∈ st.nodes) (slaveof : Option N) :
    Loading (loadMaster now st n slaveof) ∧ Extends st (loadMaster now st n slaveof) ∧
      SameVars st (loadMaster now st n slaveof) ∧ SameTables st (loadMaster now st n slaveof) ∧
      MasterLoaded st (loadMaster now st n slaveof) n slaveof ∧
      ∀ q, SameBody (st.node q) { (loadMaster now st n slaveof).node q with
        slaveof := (st.node q).slaveof
        slaves := (st.node q).slaves } := by
  unfold loadMaster
  cases slaveof with
  | none =>
    refine ⟨h, Extends.refl st, SameVars.refl st, ⟨rfl, rfl, rfl, rfl, rfl⟩, ⟨?_, ?_⟩, fun q => ?_⟩
    · exact fun _ q => ⟨rfl, rfl⟩
    · exact fun name hname => by cases hname
    · exact ⟨rfl, rfl, rfl, rfl, rfl, rfl, rfl, rfl, rfl⟩
  | some name =>
    dsimp only
    obtain ⟨h1, hc, hm, hname⟩ := lookupOrCreate_spec h now name
    generalize lookupOrCreate now st name = r at h1 hc hm hname ⊢
    obtain ⟨st1, m⟩ := r
    dsimp only at h1 hc hm hname ⊢
    have hn1 := hc.nodes hn
    have h2 : Loading (st1.modNode n fun x => { x with slaveof := some m }) :=
      h1.modNode hn1 (fun _ => rfl) (fun _ => rfl) (fun _ => rfl) fun _ => rfl
    have h3 : Loading (clusterNodeAddSlave (st1.modNode n fun x => { x with slaveof := some m }) m n) :=
      h2.modNode hm (fun _ => rfl) (fun _ => rfl) (fun _ => rfl) fun _ => rfl
    have hnode : ∀ q, (clusterNodeAddSlave (st1.modNode n fun x => { x with slaveof := some m }) m
        n).node q = { st1.node q with
          slaveof := if q = n then some m else (st1.node q).slaveof
          slaves := if q = m then slavesWith (st1.node q).slaves n else (st1.node q).slaves } := by
      intro q
      simp only [clusterNodeAddSlave, State.modNode_node, slavesWith]
      split_ifs <;> rfl
    refine ⟨h3, ?_, ?_, ?_, ⟨?_, ?_⟩, ?_⟩
    · refine hc.toExtends.trans ⟨fun _ hp => hp, fun _ hp => .inl hp, fun q hq => ?_, Nat.le_refl _⟩
      rw [hnode]
    · exact hc.toSameVars.trans ⟨rfl, rfl, rfl, rfl, rfl, rfl, rfl⟩
    · exact ⟨hc.myself, hc.slots, hc.migratingSlotsTo, hc.importingSlotsFrom, hc.failed⟩
    · exact fun hnone => by cases hnone
    · intro name' heq
      injection heq with heq
      refine ⟨m, hm, ?_, fun q => ?_⟩
      · rw [hnode, hname, heq]
      · rw [hnode]
        dsimp only
        rw [(hc.body q).slaveof, (hc.body q).slaves]
        exact ⟨rfl, rfl⟩
    · intro q
      have hb := hc.body q
      rw [hnode]
      exact ⟨hb.flags, hb.configEpoch, hb.slots, hb.numslots, rfl, rfl, hb.ip, hb.port,
        hb.failReports⟩

omit [LinearOrder N] in
theorem loadSlots_spec (h : Loading st) (hn : n ∈ st.nodes) {js : List Nat}
    (hjs : ∀ j ∈ js, j < clusterSlots) :
    Loading (js.foldl (fun st j => clusterAddSlot st n j) st) ∧
      Frame st (js.foldl (fun st j => clusterAddSlot st n j) st) ∧
      SameVars st (js.foldl (fun st j => clusterAddSlot st n j) st) ∧
      (∀ q, SameBody (st.node q) { (js.foldl (fun st j => clusterAddSlot st n j) st).node q with
        slots := (st.node q).slots
        numslots := (st.node q).numslots }) ∧
      (js.foldl (fun st j => clusterAddSlot st n j) st).failed = st.failed ∧
      ∀ j, (js.foldl (fun st j => clusterAddSlot st n j) st).slots j =
        (st.slots j).orElse fun _ => if j ∈ js then some n else none := by
  induction js generalizing st with
  | nil =>
    refine ⟨h, Frame.refl st, SameVars.refl st, fun _ => SameBody.refl _, rfl, fun j => ?_⟩
    cases hs : st.slots j with
    | none => simp [hs]
    | some p => simp [hs]
  | cons j js ih =>
    have hj := hjs j mem_cons_self
    have hf := Frame.addSlot st n j
    have hone : SameVars st (clusterAddSlot st n j) ∧
        (∀ q, SameBody (st.node q) { (clusterAddSlot st n j).node q with
          slots := (st.node q).slots
          numslots := (st.node q).numslots }) ∧
        (clusterAddSlot st n j).failed = st.failed ∧
        (∀ q, q ≠ n → (clusterAddSlot st n j).node q = st.node q) ∧
        ∀ i, (clusterAddSlot st n j).slots i =
          (st.slots i).orElse fun _ => if i = j then some n else none := by
      unfold clusterAddSlot
      cases hs : st.slots j with
      | some p =>
        refine ⟨SameVars.refl st, fun _ => SameBody.refl _, rfl, fun _ _ => rfl, fun i => ?_⟩
        by_cases hi : i = j
        · simp [hi, hs]
        · cases hi' : st.slots i with
          | none => simp [hi]
          | some q => simp
      | none =>
        refine ⟨⟨rfl, rfl, rfl, rfl, rfl, rfl, rfl⟩, fun q => ?_, rfl, fun q hq => ?_, fun i => ?_⟩
        · simp only [State.modNode_node]
          split
          · exact ⟨rfl, rfl, rfl, rfl, rfl, rfl, rfl, rfl, rfl⟩
          · exact SameBody.refl _
        · simp [hq]
        · by_cases hi : i = j
          · simp [hi, hs]
          · cases hi' : st.slots i with
            | none => simp [hi, hi']
            | some q => simp [hi, hi']
    obtain ⟨hvars, hbody, hfailed, hother, hslots⟩ := hone
    have h1 : Loading (clusterAddSlot st n j) := by
      refine ⟨h.table.frame hf, h.slots.addSlot hn hj, ?_, fun p hp => ?_⟩
      · rw [hf.nodes]
        exact h.zero
      · rw [hf.next] at hp
        have hne : p ≠ n := Nat.ne_of_gt (Nat.lt_of_lt_of_le (h.table.next n hn) hp)
        rw [hother p hne]
        exact h.blank p hp
    obtain ⟨ih1, ih2, ih3, ih4, ih5, ih6⟩ := ih h1 (by rw [hf.nodes]; exact hn)
      fun i hi => hjs i (mem_cons_of_mem j hi)
    rw [foldl_cons]
    refine ⟨ih1, hf.trans ih2, hvars.trans ih3, fun q => ?_, ih5.trans hfailed, fun i => ?_⟩
    · have hb := hbody q
      have hb' := ih4 q
      exact ⟨hb'.flags.trans hb.flags, hb'.configEpoch.trans hb.configEpoch, rfl, rfl,
        hb'.slaves.trans hb.slaves, hb'.slaveof.trans hb.slaveof, hb'.ip.trans hb.ip,
        hb'.port.trans hb.port, hb'.failReports.trans hb.failReports⟩
    · rw [ih6, hslots]
      cases st.slots i with
      | some q => simp
      | none =>
        by_cases hi : i = j
        · simp [hi]
        · simp [hi]

theorem loadOpenSlot_spec (h : Loading st) (now : Int) {o : OpenSlot N}
    (ho : o.slot < clusterSlots) :
    Loading (loadOpenSlot now st o) ∧ Opened st (loadOpenSlot now st o) ∧
      ∃ p ∈ (loadOpenSlot now st o).nodes, ((loadOpenSlot now st o).node p).name = o.node ∧
        (loadOpenSlot now st o).migratingSlotsTo =
          (if o.migrating then Function.update st.migratingSlotsTo o.slot (some p)
            else st.migratingSlotsTo) ∧
        (loadOpenSlot now st o).importingSlotsFrom =
          (if o.migrating then st.importingSlotsFrom
            else Function.update st.importingSlotsFrom o.slot (some p)) := by
  unfold loadOpenSlot
  obtain ⟨h1, hc, hp, hname⟩ := lookupOrCreate_spec h now o.node
  generalize lookupOrCreate now st o.node = r at h1 hc hp hname ⊢
  obtain ⟨st1, p⟩ := r
  dsimp only at h1 hc hp hname ⊢
  have hupdate : ∀ f : Nat → Option Ptr, (∀ j n, f j = some n → j < clusterSlots) →
      ∀ j n, Function.update f o.slot (some p) j = some n → j < clusterSlots := by
    intro f hf j n hj
    rw [Function.update_apply] at hj
    split at hj
    · next hjo => exact hjo ▸ ho
    · exact hf j n hj
  rw [← hc.migratingSlotsTo, ← hc.importingSlotsFrom]
  cases o.migrating with
  | true =>
    simp only [if_true]
    refine ⟨⟨?_, { h1.slots with }, h1.zero, h1.blank⟩, { hc.toOpened with }, p, hp, hname, rfl, trivial⟩
    exact { h1.table with migrating := hupdate _ h1.table.migrating }
  | false =>
    simp only [Bool.false_eq_true, if_false]
    refine ⟨⟨?_, { h1.slots with }, h1.zero, h1.blank⟩, { hc.toOpened with }, p, hp, hname, trivial, rfl⟩
    exact { h1.table with importing := hupdate _ h1.table.importing }

/-- Slot `j` is open as the open slots `os` say, or else as it was in `old`. -/
def OpenLoaded (st : State N) (os : List (OpenSlot N)) (migrating : Bool) (old new : Nat → Option Ptr) :
    Prop :=
  ∀ j, (∃ o ∈ os, o.migrating = migrating ∧ o.slot = j ∧
    ∃ p ∈ st.nodes, new j = some p ∧ (st.node p).name = o.node) ∨
  ((∀ o ∈ os, o.migrating = migrating → o.slot ≠ j) ∧ new j = old j)

theorem loadOpenSlots_spec (h : Loading st) (now : Int) {os : List (OpenSlot N)}
    (hos : ∀ o ∈ os, o.slot < clusterSlots) :
    Loading (os.foldl (loadOpenSlot now) st) ∧ Opened st (os.foldl (loadOpenSlot now) st) ∧
      OpenLoaded (os.foldl (loadOpenSlot now) st) os true st.migratingSlotsTo
        (os.foldl (loadOpenSlot now) st).migratingSlotsTo ∧
      OpenLoaded (os.foldl (loadOpenSlot now) st) os false st.importingSlotsFrom
        (os.foldl (loadOpenSlot now) st).importingSlotsFrom := by
  induction os generalizing st with
  | nil =>
    refine ⟨h, Opened.refl st, fun j => .inr ⟨?_, rfl⟩, fun j => .inr ⟨?_, rfl⟩⟩
    · exact fun o ho => absurd ho not_mem_nil
    · exact fun o ho => absurd ho not_mem_nil
  | cons o os ih =>
    obtain ⟨h1, hopen, p, hp, hname, hmig, himp⟩ := loadOpenSlot_spec h now
      (hos o mem_cons_self)
    rw [foldl_cons]
    generalize loadOpenSlot now st o = st1 at h1 hopen hp hname hmig himp ⊢
    obtain ⟨h2, hopen2, hmig2, himp2⟩ := ih h1 fun o' ho' => hos o' (mem_cons_of_mem o ho')
    -- the first open slot, unless a later one is about the same slot
    have hcons : ∀ (b : Bool) (old mid new : Nat → Option Ptr),
        mid = (if o.migrating = b then Function.update old o.slot (some p) else old) →
        OpenLoaded (os.foldl (loadOpenSlot now) st1) os b mid new →
        OpenLoaded (os.foldl (loadOpenSlot now) st1) (o :: os) b old new := by
      intro b old mid new hmid hos j
      rcases hos j with ⟨o', ho', hb, hj, hq⟩ | ⟨hnone, hold⟩
      · exact .inl ⟨o', mem_cons_of_mem o ho', hb, hj, hq⟩
      · by_cases hb : o.migrating = b ∧ o.slot = j
        · refine .inl ⟨o, mem_cons_self, hb.1, hb.2, p, hopen2.nodes hp, ?_, ?_⟩
          · rw [hold, hmid, if_pos hb.1, ← hb.2, Function.update_self]
          · rw [hopen2.name p hp, hname]
        · refine .inr ⟨?_, ?_⟩
          · intro o' ho' hb' hj
            rcases mem_cons.mp ho' with rfl | ho'
            · exact hb ⟨hb', hj⟩
            · exact hnone o' ho' hb' hj
          · rw [hold, hmid]
            split
            · next ho =>
              exact Function.update_of_ne (fun hj => hb ⟨ho, hj.symm⟩) _ _
            · rfl
    refine ⟨h2, hopen.trans hopen2, hcons true _ _ _ ?_ hmig2, hcons false _ _ _ ?_ himp2⟩
    · exact hmig
    · rw [himp]
      cases o.migrating with
      | true => rfl
      | false => rfl

omit [LinearOrder N] in
/-- The flags of a line, and the pointer to the node itself. -/
theorem loadFlags_spec (h : Loading st) (now : Int) (hn : n ∈ st.nodes) {f : NodeFlags}
    (hmyself : f.myself = true → st.myself = 0) :
    Loading (loadFlags now st n f) ∧ Extends st (loadFlags now st n f) ∧
      SameVars st (loadFlags now st n f) ∧
      SameTables { st with myself := if f.myself then n else st.myself } (loadFlags now st n f) ∧
      ∀ q, SameBody (st.node q) { (loadFlags now st n f).node q with flags := (st.node q).flags } ∧
        ((loadFlags now st n f).node q).flags =
          if q = n then orFlags (st.node q).flags f else (st.node q).flags := by
  unfold loadFlags
  extract_lets st0 st1
  have heq : st1 = { st with myself := if f.myself then n else st.myself } := by
    unfold st1 st0
    cases hf : f.myself with
    | true => simp [State.assert, hmyself hf]
    | false => simp
  rw [heq]
  have h1 : Loading { st with myself := if f.myself then n else st.myself } :=
    ⟨{ h.table with }, { h.slots with }, h.zero, h.blank⟩
  refine ⟨h1.modNode hn (fun _ => rfl) (fun _ => rfl) (fun _ => rfl) fun _ => rfl,
    ⟨fun _ hp => hp, fun _ hp => .inl hp, fun q _ => ?_, Nat.le_refl _⟩,
    ⟨rfl, rfl, rfl, rfl, rfl, rfl, rfl⟩, ⟨rfl, rfl, rfl, rfl, rfl⟩, fun q => ?_⟩
  · rw [State.modNode_node]
    split
    · rfl
    · rfl
  · rw [State.modNode_node]
    split
    · exact ⟨⟨rfl, rfl, rfl, rfl, rfl, rfl, rfl, rfl, rfl⟩, rfl⟩
    · exact ⟨SameBody.refl _, rfl⟩

omit [LinearOrder N] in
/-- A record of the table is changed, but not its name. -/
theorem modNode_same (st : State N) (n : Ptr) {f : Node N → Node N} (h : ∀ x, (f x).name = x.name) :
    Extends st (st.modNode n f) ∧ SameVars st (st.modNode n f) ∧ SameTables st (st.modNode n f) := by
  refine ⟨⟨fun _ hp => hp, fun _ hp => .inl hp, fun q _ => ?_, Nat.le_refl _⟩,
    ⟨rfl, rfl, rfl, rfl, rfl, rfl, rfl⟩, ⟨rfl, rfl, rfl, rfl, rfl⟩⟩
  rw [State.modNode_node]
  split
  · exact h _
  · rfl

omit [LinearOrder N] in
theorem loadAddress_spec (h : Loading st) (hn : n ∈ st.nodes) (ip : CString) (port : Nat) :
    Loading (st.modNode n fun x => { x with ip, port }) ∧
      Extends st (st.modNode n fun x => { x with ip, port }) ∧
      SameVars st (st.modNode n fun x => { x with ip, port }) ∧
      SameTables st (st.modNode n fun x => { x with ip, port }) ∧
      ∀ q, SameBody { st.node q with
          ip := if q = n then ip else (st.node q).ip
          port := if q = n then port else (st.node q).port }
        ((st.modNode n fun x => { x with ip, port }).node q) := by
  obtain ⟨hx, hv, ht⟩ := modNode_same st n (f := fun x => { x with ip, port }) fun _ => rfl
  refine ⟨h.modNode hn (fun _ => rfl) (fun _ => rfl) (fun _ => rfl) fun _ => rfl, hx, hv, ht,
    fun q => ?_⟩
  rw [State.modNode_node]
  by_cases hq : q = n
  · simp only [hq, if_true]
    exact ⟨rfl, rfl, rfl, rfl, rfl, rfl, rfl, rfl, rfl⟩
  · simp only [hq, if_false]
    exact SameBody.refl _

omit [LinearOrder N] in
theorem loadEpoch_spec (h : Loading st) (now : Int) (hn : n ∈ st.nodes) (line : NodeLine N) :
    Loading (loadEpoch now st n line) ∧ Extends st (loadEpoch now st n line) ∧
      SameVars st (loadEpoch now st n line) ∧ SameTables st (loadEpoch now st n line) ∧
      ∀ q, SameBody { st.node q with
          configEpoch := if q = n then line.configEpoch else (st.node q).configEpoch }
        ((loadEpoch now st n line).node q) := by
  obtain ⟨hx, hv, ht⟩ := modNode_same st n (f := fun x => { x with
    pingSent := if line.pingSent % 2 ^ 32 ≠ 0 then now else x.pingSent
    pongReceived := if line.pongReceived % 2 ^ 32 ≠ 0 then now else x.pongReceived
    configEpoch := line.configEpoch }) fun _ => rfl
  refine ⟨h.modNode hn (fun _ => rfl) (fun _ => rfl) (fun _ => rfl) fun _ => rfl, hx, hv, ht,
    fun q => ?_⟩
  rw [loadEpoch, State.modNode_node]
  by_cases hq : q = n
  · simp only [hq, if_true]
    exact ⟨rfl, rfl, rfl, rfl, rfl, rfl, rfl, rfl, rfl⟩
  · simp only [hq, if_false]
    exact SameBody.refl _

/-! ## A line -/

/-- What the line of a node does, where `n` is the node. -/
structure LineLoaded (st st' : State N) (line : NodeLine N) (n : Ptr) : Prop
    extends Extends st st', SameVars st st' where
  mem : n ∈ st'.nodes
  lineName : (st'.node n).name = line.name
  lineIp : (st'.node n).ip = line.ip
  linePort : (st'.node n).port = line.port
  lineEpoch : (st'.node n).configEpoch = line.configEpoch
  flags : ∀ q, (st'.node q).flags =
    if q = n then orFlags (st.node q).flags line.flags else (st.node q).flags
  other : ∀ q, q ≠ n → (st'.node q).ip = (st.node q).ip ∧ (st'.node q).port = (st.node q).port ∧
    (st'.node q).configEpoch = (st.node q).configEpoch
  failReports : ∀ q, (st'.node q).failReports = (st.node q).failReports
  master : MasterLoaded st st' n line.slaveof
  myself : st'.myself = if line.flags.myself then n else st.myself
  slots : ∀ j, st'.slots j = (st.slots j).orElse fun _ => if j ∈ line.slots then some n else none
  migrating : OpenLoaded st' line.openSlots true st.migratingSlotsTo st'.migratingSlotsTo
  importing : OpenLoaded st' line.openSlots false st.importingSlotsFrom st'.importingSlotsFrom
  failed : st'.failed = st.failed

theorem loadNode_spec (h : Loading st) (now : Int) {line : NodeLine N}
    (hmyself : line.flags.myself = true → st.myself = 0)
    (hslots : ∀ j ∈ line.slots, j < clusterSlots)
    (hopen : ∀ o ∈ line.openSlots, o.slot < clusterSlots) :
    Loading (loadNode now st line) ∧ ∃ n, LineLoaded st (loadNode now st line) line n := by
  unfold loadNode
  obtain ⟨h1, hc, hn1, hname⟩ := lookupOrCreate_spec h now line.name
  generalize lookupOrCreate now st line.name = r at h1 hc hn1 hname ⊢
  obtain ⟨st1, n⟩ := r
  dsimp only at h1 hc hn1 hname ⊢
  -- the address
  obtain ⟨h2, hx2, hv2, ht2, hb2⟩ := loadAddress_spec h1 hn1 line.ip line.port
  generalize (st1.modNode n fun x => { x with ip := line.ip, port := line.port }) = st2
    at h2 hx2 hv2 ht2 hb2 ⊢
  have hn2 := hx2.nodes hn1
  -- the flags
  obtain ⟨h3, hx3, hv3, ht3, hb3⟩ := loadFlags_spec h2 now hn2 (f := line.flags) (by
    rw [ht2.myself, hc.myself]
    exact hmyself)
  generalize loadFlags now st2 n line.flags = st3 at h3 hx3 hv3 ht3 hb3 ⊢
  have hn3 := hx3.nodes hn2
  -- the master
  obtain ⟨h4, hx4, hv4, ht4, hm4, hb4⟩ := loadMaster_spec h3 now hn3 line.slaveof
  generalize loadMaster now st3 n line.slaveof = st4 at h4 hx4 hv4 ht4 hm4 hb4 ⊢
  have hn4 := hx4.nodes hn3
  -- the clocks and the configuration epoch
  obtain ⟨h5, hx5, hv5, ht5, hb5⟩ := loadEpoch_spec h4 now hn4 line
  generalize loadEpoch now st4 n line = st5 at h5 hx5 hv5 ht5 hb5 ⊢
  have hn5 := hx5.nodes hn4
  -- the slots
  obtain ⟨h6, hf6, hv6, hb6, hfailed6, hslots6⟩ := loadSlots_spec h5 hn5 hslots
  generalize line.slots.foldl (fun st j => clusterAddSlot st n j) st5 = st6
    at h6 hf6 hv6 hb6 hfailed6 hslots6 ⊢
  have hx6 : Extends st5 st6 := by
    refine ⟨?_, ?_, fun q _ => (hf6.node q).name, hf6.next.ge⟩
    · rw [hf6.nodes]
      exact fun _ hp => hp
    · rw [hf6.nodes]
      exact fun _ hp => .inl hp
  have hn6 := hx6.nodes hn5
  -- the open slots
  obtain ⟨h7, hopen7, hmig7, himp7⟩ := loadOpenSlots_spec h6 now hopen
  generalize line.openSlots.foldl (loadOpenSlot now) st6 = st7 at h7 hopen7 hmig7 himp7 ⊢
  have hx37 : Extends st4 st7 := (hx5.trans hx6).trans hopen7.toExtends
  have hx17 : Extends st1 st7 := ((hx2.trans hx3).trans hx4).trans hx37
  have hv17 : SameVars st1 st7 :=
    (((((hv2.trans hv3).trans hv4).trans hv5).trans hv6).trans hopen7.toSameVars)
  have hflags7 : ∀ q, (st7.node q).flags = (st3.node q).flags := fun q =>
    (hopen7.body q).flags.trans ((hb6 q).flags.trans ((hb5 q).flags.trans (hb4 q).flags))
  have hepoch7 : ∀ q, (st7.node q).configEpoch =
      if q = n then line.configEpoch else (st.node q).configEpoch := by
    intro q
    rw [(hopen7.body q).configEpoch, (hb6 q).configEpoch, (hb5 q).configEpoch,
      (hb4 q).configEpoch, (hb3 q).1.configEpoch, (hb2 q).configEpoch, (hc.body q).configEpoch]
  have hip7 : ∀ q, (st7.node q).ip = if q = n then line.ip else (st.node q).ip := by
    intro q
    rw [(hopen7.body q).ip, (hb6 q).ip, (hb5 q).ip, (hb4 q).ip, (hb3 q).1.ip, (hb2 q).ip, (hc.body q).ip]
  have hport7 : ∀ q, (st7.node q).port = if q = n then line.port else (st.node q).port := by
    intro q
    rw [(hopen7.body q).port, (hb6 q).port, (hb5 q).port, (hb4 q).port, (hb3 q).1.port, (hb2 q).port, (hc.body q).port]
  have hlinks3 : ∀ q, (st3.node q).slaveof = (st.node q).slaveof ∧
      (st3.node q).slaves = (st.node q).slaves := by
    intro q
    rw [(hb3 q).1.slaveof, (hb3 q).1.slaves, (hb2 q).slaveof, (hb2 q).slaves,
      (hc.body q).slaveof, (hc.body q).slaves]
    exact ⟨rfl, rfl⟩
  have hlinks7 : ∀ q, (st7.node q).slaveof = (st4.node q).slaveof ∧
      (st7.node q).slaves = (st4.node q).slaves := by
    intro q
    rw [(hopen7.body q).slaveof, (hb6 q).slaveof, (hb5 q).slaveof, (hopen7.body q).slaves,
      (hb6 q).slaves, (hb5 q).slaves]
    exact ⟨rfl, rfl⟩
  refine ⟨h7, n, { hc.toExtends.trans hx17, hc.toSameVars.trans hv17 with
    mem := hopen7.nodes hn6
    lineName := by rw [hx17.name n hn1, hname]
    lineIp := by rw [hip7, if_pos rfl]
    linePort := by rw [hport7, if_pos rfl]
    lineEpoch := by rw [hepoch7, if_pos rfl]
    flags := ?_
    other := ?_
    failReports := ?_
    master := ⟨?_, ?_⟩
    myself := ?_
    slots := ?_
    migrating := ?_
    importing := ?_
    failed := ?_ }⟩
  · intro q
    rw [hflags7, (hb3 q).2, (hb2 q).flags, (hc.body q).flags]
  · intro q hq
    rw [hip7, hport7, hepoch7, if_neg hq, if_neg hq, if_neg hq]
    exact ⟨rfl, rfl, rfl⟩
  · intro q
    rw [(hopen7.body q).failReports, (hb6 q).failReports, (hb5 q).failReports,
      (hb4 q).failReports, (hb3 q).1.failReports, (hb2 q).failReports, (hc.body q).failReports]
  · intro hnone q
    rw [(hlinks7 q).1, (hlinks7 q).2, (hm4.absent hnone q).1, (hm4.absent hnone q).2]
    exact hlinks3 q
  · intro name hsome
    obtain ⟨m, hm, hmname, hq⟩ := hm4.named name hsome
    refine ⟨m, hx37.nodes hm, (hx37.name m hm).trans hmname, fun q => ?_⟩
    rw [(hlinks7 q).1, (hlinks7 q).2, (hq q).1, (hq q).2, (hlinks3 q).1, (hlinks3 q).2]
    exact ⟨rfl, rfl⟩
  · rw [hopen7.myself, hf6.myself, ht5.myself, ht4.myself, ht3.myself, ht2.myself, hc.myself]
  · intro j
    rw [hopen7.slots, hslots6, ht5.slots, ht4.slots, ht3.slots]
    dsimp only
    rw [ht2.slots, hc.slots]
  · rw [hf6.migratingSlotsTo, ht5.migratingSlotsTo, ht4.migratingSlotsTo, ht3.migratingSlotsTo]
      at hmig7
    dsimp only at hmig7
    rw [ht2.migratingSlotsTo, hc.migratingSlotsTo] at hmig7
    exact hmig7
  · rw [hf6.importingSlotsFrom, ht5.importingSlotsFrom, ht4.importingSlotsFrom,
      ht3.importingSlotsFrom] at himp7
    dsimp only at himp7
    rw [ht2.importingSlotsFrom, hc.importingSlotsFrom] at himp7
    exact himp7
  · rw [hopen7.failed, hfailed6, ht5.failed, ht4.failed, ht3.failed]
    dsimp only
    rw [ht2.failed, hc.failed]

end Redis.Bus
