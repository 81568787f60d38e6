import Redis.Bus.Load

/-!
# Redis.Bus.Restart

What the lines of `nodes.conf` build together (`Loaded`), and the state of a
node that starts: it is well formed when the file was written from a well formed
state, or when there is no file.
-/

namespace Redis.Bus

open List Option

variable {N : Type} [LinearOrder N]
variable {st st0 : State N} {line : NodeLine N}

/-! ## The lines of the nodes -/

/-- The node `p` is as the line says. -/
structure LineOf (st : State N) (line : NodeLine N) (p : Ptr) : Prop where
  name : (st.node p).name = line.name
  ip : (st.node p).ip = line.ip
  port : (st.node p).port = line.port
  flags : (st.node p).flags = orFlags {} line.flags
  configEpoch : (st.node p).configEpoch = line.configEpoch
  slaveof : ((st.node p).slaveof.map fun m => (st.node m).name) = line.slaveof

/-- What the lines read so far have built, from the state `st0`. -/
structure Loaded (st0 st : State N) (lines : List (NodeLine N)) : Prop
    extends Loading st, SameVars st0 st where
  line : ∀ l ∈ lines, ∃ p ∈ st.nodes, LineOf st l p
  other : ∀ p, (∀ l ∈ lines, p ∈ st.nodes → l.name ≠ (st.node p).name) →
    (st.node p).flags = {} ∧ (st.node p).configEpoch = 0 ∧ (st.node p).slaveof = none
  slaves : ∀ m s, s ∈ (st.node m).slaves ↔ (st.node s).slaveof = some m
  slavesNodup : ∀ m, (st.node m).slaves.Nodup
  master : ∀ s m, (st.node s).slaveof = some m → m ∈ st.nodes
  failReports : ∀ p, (st.node p).failReports = []
  myself : ∀ l ∈ lines, l.flags.myself = true →
    st.myself ∈ st.nodes ∧ (st.node st.myself).name = l.name
  noMyself : (∀ l ∈ lines, l.flags.myself = false) → st.myself = 0
  owner : ∀ j p, st.slots j = some p → ∃ l ∈ lines, l.name = (st.node p).name ∧ j ∈ l.slots
  owned : ∀ l ∈ lines, ∀ j ∈ l.slots, ∃ p, st.slots j = some p ∧ (st.node p).name = l.name
  migrating : OpenLoaded st (lines.flatMap NodeLine.openSlots) true (fun _ => none)
    st.migratingSlotsTo
  importing : OpenLoaded st (lines.flatMap NodeLine.openSlots) false (fun _ => none)
    st.importingSlotsFrom
  failed : st.failed = none

variable {st' : State N} (env : Env N)

omit [LinearOrder N] in
/-- Open slots that were loaded, and then those of one more line. -/
theorem OpenLoaded.append {os os' : List (OpenSlot N)} {b : Bool} {old mid new : Nat → Option Ptr}
    (h : OpenLoaded st os b old mid) (h' : OpenLoaded st' os' b mid new) (hx : Extends st st') :
    OpenLoaded st' (os ++ os') b old new := by
  intro j
  rcases h' j with ⟨o, ho, hb, hj, hp⟩ | ⟨hnone', hmid⟩
  · exact .inl ⟨o, mem_append_right os ho, hb, hj, hp⟩
  · rcases h j with ⟨o, ho, hb, hj, p, hp, hnew, hname⟩ | ⟨hnone, hold⟩
    · exact .inl ⟨o, mem_append_left os' ho, hb, hj, p, hx.nodes hp, hmid.trans hnew,
        (hx.name p hp).trans hname⟩
    · refine .inr ⟨fun o ho => ?_, hmid.trans hold⟩
      rcases mem_append.mp ho with ho | ho
      · exact hnone o ho
      · exact hnone' o ho

omit [LinearOrder N] in
/-- The links after the master of a line is set, where the node of the line had
none. -/
theorem MasterLoaded.links {n : Ptr} {slaveof : Option N} (h : MasterLoaded st st' n slaveof)
    (hn : (st.node n).slaveof = none)
    (hslaves : ∀ m s, s ∈ (st.node m).slaves ↔ (st.node s).slaveof = some m)
    (hnodup : ∀ m, (st.node m).slaves.Nodup) :
    (∀ m s, s ∈ (st'.node m).slaves ↔ (st'.node s).slaveof = some m) ∧
      ∀ m, (st'.node m).slaves.Nodup := by
  cases slaveof with
  | none =>
    refine ⟨fun m s => ?_, fun m => ?_⟩
    · rw [(h.absent rfl m).2, (h.absent rfl s).1]
      exact hslaves m s
    · rw [(h.absent rfl m).2]
      exact hnodup m
  | some name =>
    obtain ⟨m0, _, _, hq⟩ := h.named name rfl
    have hnot : ∀ m, n ∉ (st.node m).slaves := by
      intro m hm
      rw [hslaves m n, hn] at hm
      cases hm
    have hwith : ∀ m, slavesWith (st.node m).slaves n = (st.node m).slaves ++ [n] := fun m =>
      if_neg (hnot m)
    refine ⟨fun m s => ?_, fun m => ?_⟩
    · rw [(hq m).2, (hq s).1, hwith]
      by_cases hs : s = n
      · subst hs
        by_cases hm : m = m0
        · simp [hm]
        · simp [hm, hnot m, Ne.symm hm]
      · by_cases hm : m = m0
        · simp [hm, hs, hslaves m0 s]
        · simp [hm, hs, hslaves m s]
    · rw [(hq m).2, hwith]
      split
      · rw [nodup_append]
        refine ⟨hnodup m, nodup_singleton n, fun a ha b hb hab => ?_⟩
        rw [mem_singleton.mp hb] at hab
        exact hnot m (hab ▸ ha)
      · exact hnodup m

/-- A line is read after the lines `lines`. -/
theorem Loaded.loadNode {lines : List (NodeLine N)} (h : Loaded st0 st lines) (now : Int)
    (hname : ∀ l ∈ lines, l.name ≠ line.name)
    (hmyself : line.flags.myself = true → ∀ l ∈ lines, l.flags.myself = false)
    (hslots : ∀ j ∈ line.slots, j < clusterSlots)
    (hdisjoint : ∀ l ∈ lines, ∀ j ∈ l.slots, j ∉ line.slots)
    (hopen : ∀ o ∈ line.openSlots, o.slot < clusterSlots) :
    Loaded st0 (loadNode now st line) (lines ++ [line]) := by
  obtain ⟨hload, n, hl⟩ := loadNode_spec h.toLoading now
    (fun hm => h.noMyself (hmyself hm)) hslots hopen
  generalize Bus.loadNode now st line = st' at hload hl ⊢
  -- the node of the line has nothing but a name so far
  obtain ⟨hflags, _, hslaveof⟩ := h.other n fun l hlmem hn heq =>
    hname l hlmem (heq.trans ((hl.name n hn).symm.trans hl.lineName))
  obtain ⟨hslaves, hnodup⟩ := hl.master.links hslaveof h.slaves h.slavesNodup
  -- the masters of the nodes of the lines before stay
  have hold : ∀ p, p ≠ n → (st'.node p).slaveof = (st.node p).slaveof := by
    intro p hp
    cases hs : line.slaveof with
    | none => exact (hl.master.absent hs p).1
    | some name =>
      obtain ⟨m, _, _, hq⟩ := hl.master.named name hs
      rw [(hq p).1, if_neg hp]
  have hmap : ∀ p, ((st.node p).slaveof.map fun m => (st'.node m).name) =
      (st.node p).slaveof.map fun m => (st.node m).name := by
    intro p
    cases hs : (st.node p).slaveof with
    | none => rfl
    | some m => exact congrArg some (hl.name m (h.master p m hs))
  have hne : ∀ l ∈ lines, ∀ p ∈ st.nodes, (st.node p).name = l.name → p ≠ n := by
    rintro l hlmem p hp hpname rfl
    exact hname l hlmem (hpname.symm.trans ((hl.name p hp).symm.trans hl.lineName))
  refine { hload, h.toSameVars.trans hl.toSameVars with
    line := ?_
    other := ?_
    slaves := hslaves
    slavesNodup := hnodup
    master := ?_
    failReports := fun p => (hl.failReports p).trans (h.failReports p)
    myself := ?_
    noMyself := ?_
    owner := ?_
    owned := ?_
    migrating := ?_
    importing := ?_
    failed := hl.failed.trans h.failed }
  · intro l hlmem
    rcases mem_append.mp hlmem with hlmem | hlmem
    · obtain ⟨p, hp, hp'⟩ := h.line l hlmem
      have hpn := hne l hlmem p hp hp'.name
      obtain ⟨hip, hport, hepoch⟩ := hl.other p hpn
      refine ⟨p, hl.nodes hp, (hl.name p hp).trans hp'.name, hip.trans hp'.ip, hport.trans hp'.port,
        ?_, hepoch.trans hp'.configEpoch, ?_⟩
      · rw [hl.flags, if_neg hpn]
        exact hp'.flags
      · rw [hold p hpn, hmap]
        exact hp'.slaveof
    · rw [mem_singleton.mp hlmem]
      refine ⟨n, hl.mem, hl.lineName, hl.lineIp, hl.linePort, ?_, hl.lineEpoch, ?_⟩
      · rw [hl.flags, if_pos rfl, hflags]
      · cases hs : line.slaveof with
        | none => rw [(hl.master.absent hs n).1, hslaveof, map_none]
        | some name =>
          obtain ⟨m, _, hmname, hq⟩ := hl.master.named name hs
          rw [(hq n).1, if_pos rfl, map_some, hmname]
  · intro p hp
    have hpn : p ≠ n := by
      rintro rfl
      exact hp line (mem_append_right lines (mem_singleton.mpr rfl)) hl.mem hl.lineName.symm
    obtain ⟨_, _, hepoch⟩ := hl.other p hpn
    rw [hl.flags, if_neg hpn, hepoch, hold p hpn]
    refine h.other p fun l hlmem hpmem => ?_
    rw [← hl.name p hpmem]
    exact hp l (mem_append_left _ hlmem) (hl.nodes hpmem)
  · intro s m hsm
    cases hs : line.slaveof with
    | none =>
      rw [(hl.master.absent hs s).1] at hsm
      exact hl.nodes (h.master s m hsm)
    | some name =>
      obtain ⟨m', hm', _, hq⟩ := hl.master.named name hs
      rw [(hq s).1] at hsm
      split at hsm
      · injection hsm with hsm
        exact hsm ▸ hm'
      · exact hl.nodes (h.master s m hsm)
  · intro l hlmem hlm
    rw [hl.myself]
    rcases mem_append.mp hlmem with hlmem | hlmem
    · cases hm : line.flags.myself with
      | true =>
        rw [hmyself hm l hlmem] at hlm
        cases hlm
      | false =>
        rw [if_neg Bool.false_ne_true]
        obtain ⟨hmem, hmname⟩ := h.myself l hlmem hlm
        exact ⟨hl.nodes hmem, (hl.name _ hmem).trans hmname⟩
    · rw [mem_singleton.mp hlmem] at hlm ⊢
      rw [hlm, if_pos rfl]
      exact ⟨hl.mem, hl.lineName⟩
  · intro hall
    rw [hl.myself, hall line (mem_append_right lines (mem_singleton.mpr rfl)),
      if_neg Bool.false_ne_true]
    exact h.noMyself fun l hlmem => hall l (mem_append_left _ hlmem)
  · intro j p hj
    rw [hl.slots] at hj
    cases hs : st.slots j with
    | some q =>
      rw [hs] at hj
      injection hj with hj
      subst hj
      obtain ⟨l, hlmem, hlname, hjl⟩ := h.owner j q hs
      refine ⟨l, mem_append_left _ hlmem, ?_, hjl⟩
      rw [hl.name q ((h.slots.owner j q).mp hs).1]
      exact hlname
    | none =>
      rw [hs] at hj
      by_cases hmem : j ∈ line.slots
      · simp only [hmem, if_true, orElse_none, Option.some.injEq] at hj
        subst hj
        exact ⟨line, mem_append_right _ (mem_singleton.mpr rfl), hl.lineName.symm, hmem⟩
      · simp [hmem] at hj
  · intro l hlmem j hj
    rcases mem_append.mp hlmem with hlmem | hlmem
    · obtain ⟨p, hp, hpname⟩ := h.owned l hlmem j hj
      refine ⟨p, ?_, (hl.name p ((h.slots.owner j p).mp hp).1).trans hpname⟩
      rw [hl.slots, hp]
      rfl
    · rw [mem_singleton.mp hlmem] at hj ⊢
      refine ⟨n, ?_, hl.lineName⟩
      have hnone : st.slots j = none := by
        cases hs : st.slots j with
        | none => rfl
        | some q =>
          obtain ⟨l', hl', _, hjl'⟩ := h.owner j q hs
          exact absurd hj (hdisjoint l' hl' j hjl')
      rw [hl.slots, hnone]
      simp [hj]
  · rw [flatMap_append, flatMap_singleton]
    exact h.migrating.append hl.migrating hl.toExtends
  · rw [flatMap_append, flatMap_singleton]
    exact h.importing.append hl.importing hl.toExtends

/-- The lines are about different nodes and give a slot to one of them, at most
one of them is the line of the node itself, and slots are slots. -/
structure LinesOk (lines : List (NodeLine N)) : Prop where
  pairwise : lines.Pairwise fun l l' => l.name ≠ l'.name ∧
    (l'.flags.myself = true → l.flags.myself = false) ∧ ∀ j ∈ l.slots, j ∉ l'.slots
  slots : ∀ l ∈ lines, ∀ j ∈ l.slots, j < clusterSlots
  openSlots : ∀ l ∈ lines, ∀ o ∈ l.openSlots, o.slot < clusterSlots

omit [LinearOrder N] in
theorem LinesOk.init {lines : List (NodeLine N)} (h : LinesOk (lines ++ [line])) :
    LinesOk lines where
  pairwise := (pairwise_append.mp h.pairwise).1
  slots := fun l hl => h.slots l (mem_append_left _ hl)
  openSlots := fun l hl => h.openSlots l (mem_append_left _ hl)

theorem Loaded.lines (h : Loaded st0 st0 []) (now : Int) {lines : List (NodeLine N)}
    (hlines : LinesOk lines) : Loaded st0 (lines.foldl (Bus.loadNode now) st0) lines := by
  induction lines using reverseRecOn with
  | nil => exact h
  | append_singleton lines line ih =>
    have hlast : line ∈ lines ++ [line] := mem_append_right _ (mem_singleton.mpr rfl)
    have hpair : ∀ l ∈ lines, l.name ≠ line.name ∧
        (line.flags.myself = true → l.flags.myself = false) ∧ ∀ j ∈ l.slots, j ∉ line.slots :=
      fun l hl => (pairwise_append.mp hlines.pairwise).2.2 l hl line (mem_singleton.mpr rfl)
    rw [foldl_append, foldl_cons, foldl_nil]
    refine (ih hlines.init).loadNode now (fun l hl => (hpair l hl).1) ?_ (hlines.slots line hlast)
      (fun l hl => (hpair l hl).2.2) (hlines.openSlots line hlast)
    exact fun hm l hl => (hpair l hl).2.1 hm

omit [LinearOrder N] in
theorem loaded_emptyState (name : N) (file : Option (List (ConfigLine N)))
    (sent : List (Option N × Msg N)) :
    Loaded (emptyState name file sent) (emptyState name file sent) [] where
  table := by
    refine ⟨nodup_nil, ?_, ?_, Nat.one_pos, ?_, ?_, fun _ => nodup_nil⟩
    · exact fun p hp => absurd hp not_mem_nil
    · exact fun p hp => absurd hp not_mem_nil
    · exact fun j n hj => by cases hj
    · exact fun j n hj => by cases hj
  slots := by
    refine ⟨fun j n => ⟨?_, ?_⟩, ?_, ?_, ?_, ?_⟩
    · exact fun hj => by cases hj
    · exact fun hn => absurd hn.1 not_mem_nil
    · exact fun p j hj => absurd hj not_mem_nil
    · exact fun n hn => absurd hn not_mem_nil
    · exact fun n hn => absurd hn not_mem_nil
    · exact fun hf => by cases hf
  zero := fun p hp => absurd hp not_mem_nil
  blank := fun p _ => ⟨rfl, rfl, rfl, rfl, rfl, rfl, rfl, rfl, rfl⟩
  toSameVars := SameVars.refl _
  line := fun l hl => absurd hl not_mem_nil
  other := fun p _ => ⟨rfl, rfl, rfl⟩
  slaves := fun m s => ⟨fun hs => absurd hs not_mem_nil, fun hs => by cases hs⟩
  slavesNodup := fun _ => nodup_nil
  master := fun s m hs => by cases hs
  failReports := fun _ => rfl
  myself := fun l hl => absurd hl not_mem_nil
  noMyself := fun _ => rfl
  owner := fun j p hj => by cases hj
  owned := fun l hl => absurd hl not_mem_nil
  migrating := fun j => .inr ⟨fun o ho => absurd ho not_mem_nil, rfl⟩
  importing := fun j => .inr ⟨fun o ho => absurd ho not_mem_nil, rfl⟩
  failed := rfl

theorem Loaded.node_cases {lines : List (NodeLine N)} (h : Loaded st0 st lines) {p : Ptr}
    (hp : p ∈ st.nodes) :
    (∃ l ∈ lines, LineOf st l p) ∨ ((st.node p).flags = {} ∧ (st.node p).configEpoch = 0 ∧
      (st.node p).slaveof = none ∧ ∀ l ∈ lines, l.name ≠ (st.node p).name) := by
  by_cases hl : ∃ l ∈ lines, l.name = (st.node p).name
  · obtain ⟨l, hlmem, hlname⟩ := hl
    obtain ⟨q, hq, hline⟩ := h.line l hlmem
    have hqp : q = p := h.table.names q hq p hp (hline.name.trans hlname)
    exact .inl ⟨l, hlmem, hqp ▸ hline⟩
  · have hnone : ∀ l ∈ lines, l.name ≠ (st.node p).name := fun l hlmem heq => hl ⟨l, hlmem, heq⟩
    obtain ⟨hflags, hepoch, hslaveof⟩ := h.other p fun l hlmem _ => hnone l hlmem
    exact .inr ⟨hflags, hepoch, hslaveof, hnone⟩

/-! ## The file -/

/-- The lines are good, and one of them is the line of the node itself, which is
a master or a slave; the nodes are out of handshake. -/
structure LinesWf (lines : List (NodeLine N)) : Prop extends LinesOk lines where
  myself : ∃ l ∈ lines, l.flags.myself = true ∧ l.flags.slave = !l.flags.master ∧
    (l.slaveof ≠ none → l.flags.slave = true)
  handshake : ∀ l ∈ lines, l.flags.handshake = false

def fileLines (lines : List (NodeLine N)) (currentEpoch lastVoteEpoch : Nat) : List (ConfigLine N) :=
  lines.map .node ++ [.vars currentEpoch lastVoteEpoch]

/-- The lines of the nodes that `clusterSaveConfig` writes. -/
def nodeLines (st : State N) : List (NodeLine N) :=
  (st.nodes.filter fun p => !(st.node p).flags.handshake).map fun p =>
    clusterGenNodeDescription st (st.node p)

omit [LinearOrder N] in
theorem configLines_eq (st : State N) :
    configLines st = fileLines (nodeLines st) st.currentEpoch st.lastVoteEpoch := by
  simp [configLines, fileLines, nodeLines, List.map_map, Function.comp_def]

/-- What `clusterInit` makes of the state that was read. -/
def loadedState (env : Env N) (st : State N) (currentEpoch lastVoteEpoch : Nat) : State N :=
  let st := { st with currentEpoch, lastVoteEpoch }
  let st := { st with currentEpoch := clusterGetMaxEpoch st }
  resetManualFailover (st.modNode st.myself fun x => { x with port := env.port })

omit [LinearOrder N] in
theorem le_clusterGetMaxEpoch (st : State N) : st.currentEpoch ≤ clusterGetMaxEpoch st := by
  unfold clusterGetMaxEpoch
  dsimp only
  split
  · exact Nat.le_refl _
  · next hlt => exact Nat.not_lt.mp hlt

theorem clusterInit_eq {lines : List (NodeLine N)} (h : LinesWf lines) (c v : Nat)
    (sent : List (Option N × Msg N)) :
    ∃ st, Loaded (emptyState (env.newName 0) (some (fileLines lines c v)) sent) st lines ∧
      clusterInit env (some (fileLines lines c v)) sent = loadedState env st c v := by
  have hl := (loaded_emptyState (env.newName 0) (some (fileLines lines c v)) sent).lines env.now
    h.toLinesOk
  refine ⟨_, hl, ?_⟩
  unfold clusterInit clusterLoadConfig
  dsimp only
  have hfold : (fileLines lines c v).foldl (loadLine env.now)
      (emptyState (env.newName 0) (some (fileLines lines c v)) sent) =
      { lines.foldl (loadNode env.now) (emptyState (env.newName 0) (some (fileLines lines c v)) sent)
        with currentEpoch := c, lastVoteEpoch := v } := by
    conv_lhs => rw [fileLines, foldl_append, foldl_map]
    rfl
  rw [hfold]
  generalize lines.foldl (loadNode env.now)
    (emptyState (env.newName 0) (some (fileLines lines c v)) sent) = st at hl ⊢
  obtain ⟨l, hlmem, hlm, _⟩ := h.myself
  have hne : st.myself ≠ 0 := hl.zero _ (hl.myself l hlmem hlm).1
  have hassert : State.assert { st with currentEpoch := c, lastVoteEpoch := v }
      (decide (st.myself ≠ 0)) .loadMyself = { st with currentEpoch := c, lastVoteEpoch := v } := by
    simp [State.assert, hne]
  rw [hassert]
  unfold loadedState
  dsimp only
  split
  · rfl
  · next hmax =>
    have heq : clusterGetMaxEpoch { st with currentEpoch := c, lastVoteEpoch := v } = c :=
      Nat.le_antisymm (Nat.not_lt.mp hmax)
        (le_clusterGetMaxEpoch { st with currentEpoch := c, lastVoteEpoch := v })
    simp only [heq]

/-! ## The invariant across a restart -/

omit [LinearOrder N] in
theorem mem_nodeLines :
    line ∈ nodeLines st ↔ ∃ p ∈ st.nodes, (st.node p).flags.handshake = false ∧
      clusterGenNodeDescription st (st.node p) = line := by
  simp [nodeLines, and_assoc]

omit [LinearOrder N] in
theorem mem_genNodeDescription_slots {x : Node N} {j : Nat} :
    j ∈ (clusterGenNodeDescription st x).slots ↔ j < clusterSlots ∧ j ∈ x.slots := by
  simp [clusterGenNodeDescription, bitmapTestBit]

omit [LinearOrder N] in
theorem mem_openSlots {o : OpenSlot N} :
    o ∈ openSlots st ↔ o.slot < clusterSlots ∧
      ((∃ n, st.migratingSlotsTo o.slot = some n ∧ o.migrating = true ∧ o.node = (st.node n).name) ∨
      (st.migratingSlotsTo o.slot = none ∧ ∃ n, st.importingSlotsFrom o.slot = some n ∧
        o.migrating = false ∧ o.node = (st.node n).name)) := by
  obtain ⟨j, b, name⟩ := o
  unfold openSlots
  rw [mem_filterMap]
  constructor
  · rintro ⟨i, hi, hm⟩
    rw [mem_range] at hi
    split at hm
    · next n hn =>
      simp only [Option.some.injEq, OpenSlot.mk.injEq] at hm
      obtain ⟨rfl, rfl, rfl⟩ := hm
      exact ⟨hi, .inl ⟨n, hn, rfl, rfl⟩⟩
    · next hn =>
      obtain ⟨n, hn', hm⟩ := map_eq_some_iff.mp hm
      simp only [OpenSlot.mk.injEq] at hm
      obtain ⟨rfl, rfl, rfl⟩ := hm
      exact ⟨hi, .inr ⟨hn, n, hn', rfl, rfl⟩⟩
  · rintro ⟨hj, ⟨n, hn, rfl, rfl⟩ | ⟨hnone, n, hn, rfl, rfl⟩⟩
    · exact ⟨j, mem_range.mpr hj, by simp only [hn]⟩
    · exact ⟨j, mem_range.mpr hj, by simp only [hnone, hn, map_some]⟩

theorem filter_bitmapTestBit {slots : SlotBitmap} (hs : slots.Pairwise (· < ·))
    (hlt : ∀ j ∈ slots, j < clusterSlots) :
    (range clusterSlots).filter (bitmapTestBit slots) = slots := by
  have hrange : ((range clusterSlots).filter (bitmapTestBit slots)).Pairwise (· < ·) :=
    pairwise_lt_range.filter _
  refine Perm.eq_of_pairwise (fun a b _ _ hab hba => absurd hab hba.le.not_gt) hrange hs ?_
  refine (perm_ext_iff_of_nodup (hrange.imp Nat.ne_of_lt) (hs.imp Nat.ne_of_lt)).mpr fun j => ?_
  simp only [mem_filter, mem_range, bitmapTestBit, decide_eq_true_eq]
  exact ⟨fun hj => hj.2, fun hj => ⟨hlt j hj, hj⟩⟩

omit [LinearOrder N] in
/-- The line of a node whose bitmap is sorted, when no slot is open. -/
theorem genNodeDescription_eq {x : Node N} (hs : x.slots.Pairwise (· < ·))
    (hlt : ∀ j ∈ x.slots, j < clusterSlots) (hmig : ∀ j, st.migratingSlotsTo j = none)
    (himp : ∀ j, st.importingSlotsFrom j = none) :
    clusterGenNodeDescription st x =
      { name := x.name, ip := x.ip, port := x.port, flags := { x.flags with meet := false },
        slaveof := x.slaveof.map fun m => (st.node m).name, pingSent := x.pingSent,
        pongReceived := x.pongReceived, configEpoch := x.configEpoch, slots := x.slots,
        openSlots := [] } := by
  have hopen : openSlots st = [] := by
    refine filterMap_eq_nil_iff.mpr fun j _ => ?_
    simp only [hmig, himp, map_none]
  unfold clusterGenNodeDescription
  rw [filter_bitmapTestBit hs hlt, hopen, ite_self]

omit [LinearOrder N] in
theorem Wf.nodeLines (h : Wf st) : LinesWf (nodeLines st) where
  pairwise := by
    unfold Bus.nodeLines
    rw [pairwise_map]
    refine (h.table.nodup.filter _).imp_of_mem fun {p q} hp hq hpq => ?_
    have hp := (mem_filter.mp hp).1
    have hq := (mem_filter.mp hq).1
    refine ⟨fun hname => hpq (h.table.names p hp q hq hname), fun hm => ?_, fun j hj hj' => ?_⟩
    · have hqm := (h.myself.flag q hq).mp hm
      cases hpm : (st.node p).flags.myself with
      | false => exact hpm
      | true => exact absurd (((h.myself.flag p hp).mp hpm).trans hqm.symm) hpq
    · have hpj := (h.slots.owner j p).mpr ⟨hp, (mem_genNodeDescription_slots.mp hj).2⟩
      have hqj := (h.slots.owner j q).mpr ⟨hq, (mem_genNodeDescription_slots.mp hj').2⟩
      rw [hpj] at hqj
      exact hpq (Option.some.inj hqj)
  slots := by
    intro l hl j hj
    obtain ⟨p, _, _, rfl⟩ := mem_nodeLines.mp hl
    exact (mem_genNodeDescription_slots.mp hj).1
  openSlots := by
    intro l hl o ho
    obtain ⟨p, _, _, rfl⟩ := mem_nodeLines.mp hl
    simp only [clusterGenNodeDescription] at ho
    split at ho
    · exact (mem_openSlots.mp ho).1
    · exact absurd ho not_mem_nil
  myself := by
    have hm := h.myself.mem
    refine ⟨_, mem_nodeLines.mpr ⟨st.myself, hm, h.myself.handshake, rfl⟩,
      (h.myself.flag st.myself hm).mpr rfl, h.myself.role, fun hs => h.myself.slaveof fun hnone => ?_⟩
    have hnone' : (st.node st.myself).slaveof = none := hnone
    apply hs
    simp [clusterGenNodeDescription, hnone']
  handshake := by
    intro l hl
    obtain ⟨p, _, hp, rfl⟩ := mem_nodeLines.mp hl
    exact hp

omit [LinearOrder N] in
theorem Loaded.myself_line {lines : List (NodeLine N)} (h : Loaded st0 st lines)
    (hlines : LinesWf lines) : st.myself ∈ st.nodes ∧
      ∃ l ∈ lines, l.flags.myself = true ∧ l.flags.slave = !l.flags.master ∧
        (l.slaveof ≠ none → l.flags.slave = true) ∧ LineOf st l st.myself := by
  obtain ⟨l, hl, hlm, hrole, hslaveof⟩ := hlines.myself
  obtain ⟨hmem, hname⟩ := h.myself l hl hlm
  obtain ⟨q, hq, hline⟩ := h.line l hl
  have hqm : q = st.myself := h.table.names q hq _ hmem (hline.name.trans hname.symm)
  exact ⟨hmem, l, hl, hlm, hrole, hslaveof, hqm ▸ hline⟩

theorem Loaded.myselfInv {lines : List (NodeLine N)} (h : Loaded st0 st lines)
    (hlines : LinesWf lines) : MyselfInv st := by
  obtain ⟨hmem, l, hl, hlm, hrole, hslaveof, hline⟩ := h.myself_line hlines
  refine ⟨hmem, fun p hp => ⟨fun hpm => ?_, ?_⟩, ?_, ?_, fun hs => ?_⟩
  · rcases h.node_cases hp with ⟨l', hl', hline'⟩ | ⟨hflags, _⟩
    · rw [hline'.flags] at hpm
      -- two lines of the node itself are the same line
      have hpm : l'.flags.myself = true := by simpa [orFlags] using hpm
      have hname : l'.name = l.name :=
        (h.myself l' hl' hpm).2.symm.trans (h.myself l hl hlm).2
      exact h.table.names p hp _ hmem (hline'.name.trans (hname.trans hline.name.symm))
    · rw [hflags] at hpm
      cases hpm
  · rintro rfl
    rw [hline.flags]
    simp [orFlags, hlm]
  · rw [State.me, hline.flags]
    simp [orFlags, hlines.handshake l hl]
  · rw [State.me, hline.flags]
    simpa [orFlags] using hrole
  · rw [State.me, hline.flags]
    have hs' : l.slaveof ≠ none := by
      rw [← hline.slaveof]
      intro hnone
      exact hs (map_eq_none_iff.mp hnone)
    simpa [orFlags] using hslaveof hs'

omit [LinearOrder N] in
/-- The node itself is loaded from the line of the node itself. -/
theorem Loaded.me_line {st1 : State N} (hw : Wf st1) (h : Loaded st0 st (Bus.nodeLines st1)) :
    st.myself ∈ st.nodes ∧ LineOf st (clusterGenNodeDescription st1 st1.me) st.myself := by
  obtain ⟨hmem, l, hl, hlm, _, _, hline⟩ := h.myself_line hw.nodeLines
  obtain ⟨p, hp, _, rfl⟩ := mem_nodeLines.mp hl
  obtain rfl : p = st1.myself := (hw.myself.flag p hp).mp hlm
  exact ⟨hmem, hline⟩

omit [LinearOrder N] in
/-- A slot is loaded for the node whose line has it. -/
theorem Loaded.slot {st1 : State N} (hw : Wf st1) (h : Loaded st0 st (Bus.nodeLines st1))
    {j : Nat} {p p1 : Ptr} (hp1 : p1 ∈ st1.nodes) (hname : (st.node p).name = (st1.node p1).name)
    (hj : j ∈ (st.node p).slots) (hp : p ∈ st.nodes) : j ∈ (st1.node p1).slots := by
  obtain ⟨l, hl, hlname, hjl⟩ := h.owner j p ((h.slots.owner j p).mpr ⟨hp, hj⟩)
  obtain ⟨q, hq, _, rfl⟩ := mem_nodeLines.mp hl
  have hqp : q = p1 := hw.table.names q hq p1 hp1 (hlname.trans hname)
  exact hqp ▸ (mem_genNodeDescription_slots.mp hjl).2

omit [LinearOrder N] in
/-- The record of a node after `clusterInit`: only the port of the node itself
is set. -/
theorem loadedState_node (st : State N) (c v : Nat) (p : Ptr) :
    (loadedState env st c v).node p =
      { st.node p with port := if p = st.myself then env.port else (st.node p).port } := by
  simp only [loadedState, resetManualFailover, State.modNode_node]
  split
  · rfl
  · rfl

omit [LinearOrder N] in
theorem loadedState_currentEpoch (st : State N) (c v : Nat) :
    c ≤ (loadedState env st c v).currentEpoch :=
  le_clusterGetMaxEpoch { st with currentEpoch := c, lastVoteEpoch := v }

theorem Loaded.wf {lines : List (NodeLine N)} (h : Loaded st0 st lines) (hlines : LinesWf lines)
    (env : Env N) (c v : Nat) : Wf (loadedState env st c v) where
  table := by
    refine ⟨h.table.nodup, ?_, h.table.next, h.table.pos, h.table.migrating, h.table.importing, ?_⟩
    · intro p hp q hq hpq
      rw [loadedState_node, loadedState_node] at hpq
      exact h.table.names p hp q hq hpq
    · intro p
      rw [loadedState_node]
      exact h.table.reports p
  myself := by
    have hm := h.myselfInv hlines
    refine hm.of_eq ?_ hm.mem (fun _ hp => hp) (fun p _ => ?_) ?_ ?_ ?_ ?_
    · rfl
    · rw [loadedState_node]
    · rw [loadedState_node]
      rfl
    · rw [loadedState_node]
      rfl
    · rw [loadedState_node]
      rfl
    · rw [loadedState_node]
      exact fun hs => hs
  slots := by
    refine h.slots.of_eq ?_ (fun _ => Iff.rfl) (fun p => ?_) (fun p => ?_) ?_
    · rfl
    · rw [loadedState_node]
    · rw [loadedState_node]
    · rfl

/-- The state of a node that starts without a file, when it has created itself. -/
def freshState (env : Env N) (sent : List (Option N × Msg N)) : State N :=
  { emptyState (env.newName 0) none sent with
    nodes := [1]
    next := 2
    myself := 1
    node := Function.update (fun _ => newNode 0 (env.newName 0) {}) 1
      (newNode env.now (env.newName 1) { myself := true, master := true }) }

theorem createMyself_eq (sent : List (Option N × Msg N)) :
    createMyself env (emptyState (env.newName 0) none sent) =
      clusterSaveConfig (freshState env sent) true := rfl

theorem clusterInit_none (sent : List (Option N × Msg N)) {g : Guard N} :
    Steps g (clusterSaveConfig (freshState env sent) true) (clusterInit env none sent) := by
  unfold clusterInit
  dsimp only
  rw [createMyself_eq]
  generalize clusterSaveConfig (freshState env sent) true = st
  have hport : Soft st (st.modNode st.myself fun x => { x with port := env.port }) :=
    .modNode _ _ fun x => .rest (.refl _)
  exact (Relation.ReflTransGen.single (.soft hport)).trans (Run.resetManualFailover _).steps

omit [LinearOrder N] in
theorem freshState_wf (sent : List (Option N × Msg N)) : Wf (freshState env sent) := by
  have hme : ∀ p ∈ (freshState env sent).nodes, p = 1 := fun p hp => mem_singleton.mp hp
  have hnode : ∀ p, ((freshState env sent).node p).slots = [] ∧
      ((freshState env sent).node p).numslots = 0 ∧
      ((freshState env sent).node p).failReports = [] ∧
      ((freshState env sent).node p).slaveof = none := by
    intro p
    by_cases hp : p = 1
    · subst hp
      exact ⟨rfl, rfl, rfl, rfl⟩
    · have heq : (freshState env sent).node p = newNode 0 (env.newName 0) {} := by
        simp [freshState, hp]
      rw [heq]
      exact ⟨rfl, rfl, rfl, rfl⟩
  refine ⟨⟨nodup_singleton 1, ?_, ?_, Nat.two_pos, ?_, ?_, ?_⟩, ⟨mem_singleton.mpr rfl, ?_,
    rfl, rfl, ?_⟩, ⟨?_, ?_, ?_, ?_, ?_⟩⟩
  · exact fun p hp q hq _ => (hme p hp).trans (hme q hq).symm
  · intro p hp
    rw [hme p hp]
    exact Nat.one_lt_two
  · exact fun j n hj => by cases hj
  · exact fun j n hj => by cases hj
  · intro p
    rw [(hnode p).2.2.1]
    exact nodup_nil
  · intro p hp
    rw [hme p hp]
    exact ⟨fun _ => rfl, fun _ => rfl⟩
  · exact fun hs => absurd (hnode 1).2.2.2 hs
  · intro j n
    rw [(hnode n).1]
    exact ⟨fun hj => (by cases hj), fun hj => absurd hj.2 not_mem_nil⟩
  · intro p j hj
    rw [(hnode p).1] at hj
    exact absurd hj not_mem_nil
  · intro n _
    rw [(hnode n).1]
    exact nodup_nil
  · intro n _
    rw [(hnode n).1, (hnode n).2.1]
    rfl
  · exact fun hf => by cases hf

end Redis.Bus
