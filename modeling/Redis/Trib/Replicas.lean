import Redis.Trib.Masters

/-!
# Redis.Trib.Replicas

The replicas of a new cluster: the pass for the requested ones leaves fewer nodes than a
master and its replicas are, and the pass for the unused ones gives each master one of them.
-/

namespace Redis.Trib

open List

variable {η κ : Type}

/-! ## What is claimed -/

/-- The masters have all the slots, and all the other nodes. -/
structure Allocated [DecidableEq κ] (replicas : ℕ) (nodes masters : List (ClusterNode η κ))
    (infos : Infos η κ) : Prop where
  subset : ∀ m ∈ masters, m ∈ nodes ∧ infos.replicate m = none
  slots : Shares infos.slots masters 0 ClusterHashSlots
  replica : ∀ n ∈ nodes, n ∉ masters → ∃! m, m ∈ masters ∧ infos.replicate n = some m.name
  enough : ∀ m ∈ masters, replicas ≤ (nodes.filter fun n => infos.replicate n = some m.name).length

/-- The script ends, and every node has its role. -/
def Allocates [DecidableEq η] [DecidableEq κ] (replicas : ℕ) (nodes : List (ClusterNode η κ)) :
    Prop :=
  ∃ masters infos, allocSlots replicas nodes Infos.empty = some (masters, infos) ∧
    Allocated replicas nodes masters infos

/-! ## A replica -/

/-- What was done between two states: the replicas that were assigned, each with its master. -/
structure Assigned (log : List (ClusterNode η κ × ClusterNode η κ)) (s s' : Spare η κ) :
    Prop where
  perm : s.interleaved.Perm (log.map Prod.fst ++ s'.interleaved)
  count : s'.nodesCount = s'.interleaved.length
  slave : ∀ e ∈ log, s'.infos.replicate e.1 = some e.2.name
  other : ∀ n ∉ log.map Prod.fst, s'.infos.replicate n = s.infos.replicate n
  slots : s'.infos.slots = s.infos.slots

namespace Assigned

variable {log log' : List (ClusterNode η κ × ClusterNode η κ)} {s s' s'' : Spare η κ}

theorem refl (h : s.nodesCount = s.interleaved.length) : Assigned [] s s :=
  ⟨.refl _, h, by simp, fun _ _ => rfl, rfl⟩

theorem length_eq (h : Assigned log s s') :
    s.interleaved.length = log.length + s'.interleaved.length := by
  simpa using h.perm.length_eq

theorem nodup (h : Assigned log s s') (hnodup : s.interleaved.Nodup) : s'.interleaved.Nodup :=
  (nodup_append.mp (h.perm.nodup_iff.mp hnodup)).2.1

theorem trans (h : Assigned log s s') (h' : Assigned log' s' s'') (hnodup : s.interleaved.Nodup) :
    Assigned (log ++ log') s s'' := by
  refine ⟨?_, h'.count, ?_, ?_, h'.slots.trans h.slots⟩
  · rw [map_append, append_assoc]
    exact h.perm.trans (h'.perm.append_left _)
  · intro e he
    rcases mem_append.mp he with he | he
    · have hout : e.1 ∉ log'.map Prod.fst := by
        intro hmem
        have hdisjoint := (nodup_append.mp (h.perm.nodup_iff.mp hnodup)).2.2
        exact hdisjoint e.1 (mem_map_of_mem he) e.1
          (h'.perm.mem_iff.mpr (mem_append_left _ hmem)) rfl
      rw [h'.other e.1 hout]
      exact h.slave e he
    · exact h'.slave e he
  · intro n hn
    rw [map_append, mem_append, not_or] at hn
    rw [h'.other n hn.2, h.other n hn.1]

end Assigned

section Passes

variable [DecidableEq η] [DecidableEq κ]

/-- A node is taken out of `interleaved` when there is one. -/
theorem takeReplica_perm (m : ClusterNode η κ) {interleaved : List (ClusterNode η κ)}
    (hne : interleaved ≠ []) (hnodup : interleaved.Nodup) :
    ∃ slave rest, takeReplica m interleaved = some (slave, rest) ∧
      interleaved.Perm (slave :: rest) := by
  unfold takeReplica
  split
  next node hfind =>
    refine ⟨node, _, rfl, ?_⟩
    have herase : interleaved.filter (fun n => n ≠ node) = interleaved.erase node := by
      rw [hnodup.erase_eq_filter]
      refine filter_congr fun n _ => ?_
      by_cases hn : n = node <;> simp [hn]
    rw [herase]
    exact perm_cons_erase (mem_of_find?_eq_some hfind)
  next =>
    obtain ⟨slave, rest, rfl⟩ := exists_cons_of_ne_nil hne
    exact ⟨slave, rest, rfl, .refl _⟩

variable {m : ClusterNode η κ} {s : Spare η κ}

theorem assigned_replica {slave : ClusterNode η κ} {rest : List (ClusterNode η κ)}
    (hcount : s.nodesCount = s.interleaved.length) (hperm : s.interleaved.Perm (slave :: rest)) :
    Assigned [(slave, m)] s ⟨rest, s.nodesCount - 1, s.infos.setAsReplica slave m.name⟩ := by
  refine ⟨hperm, ?_, ?_, ?_, rfl⟩
  · have := hperm.length_eq
    rw [length_cons] at this
    dsimp only
    omega
  · intro e he
    obtain rfl := mem_singleton.mp he
    exact s.infos.setAsReplica_self slave m.name
  · intro n hn
    exact s.infos.setAsReplica_of_ne (by simpa using hn) m.name

/-- How many replicas a pass wants for each master. -/
def Assign.quota (replicas : ℕ) : Assign → ℕ
  | .requested => replicas
  | .unused => min 1 replicas

theorem assignLoop_assigned (assign : Assign) (m : ClusterNode η κ) (left : ℕ)
    (hcount : s.nodesCount = s.interleaved.length) (hnodup : s.interleaved.Nodup) :
    ∃ log s', assignLoop assign m left s = some s' ∧ Assigned log s s' ∧
      (∀ e ∈ log, e.2 = m) ∧ log.length = min (assign.quota left) s.interleaved.length := by
  induction left generalizing s with
  | zero => exact ⟨[], s, rfl, .refl hcount, by simp, by cases assign <;> simp [Assign.quota]⟩
  | succ left ih =>
    rw [assignLoop]
    by_cases hzero : s.nodesCount = 0
    · rw [if_pos hzero]
      exact ⟨[], s, rfl, .refl hcount, by simp, by
        rw [← hcount, hzero, Nat.min_zero, length_nil]⟩
    have hne : s.interleaved ≠ [] := by
      rw [← length_pos_iff]
      omega
    obtain ⟨slave, rest, htake, hperm⟩ := takeReplica_perm m hne hnodup
    have hturn := assigned_replica (m := m) hcount hperm
    have hlength := hperm.length_eq
    rw [length_cons] at hlength
    rw [if_neg hzero, htake]
    cases assign with
    | unused =>
      refine ⟨_, _, rfl, hturn, by simp, ?_⟩
      rw [Assign.quota, hlength, length_singleton]
      omega
    | requested =>
      obtain ⟨log, s', hloop, hlog, hm, hlen⟩ := ih hturn.count (hturn.nodup hnodup)
      refine ⟨_, s', hloop, hturn.trans hlog hnodup, ?_, ?_⟩
      · intro e he
        rcases mem_append.mp he with he | he
        · rw [mem_singleton.mp he]
        · exact hm e he
      · rw [Assign.quota] at hlen ⊢
        dsimp only at hlen
        rw [length_append, length_singleton, hlen, hlength]
        omega

/-- A pass gives the masters what it wants for them, as long as there are nodes. -/
theorem assignPass_assigned (replicas : ℕ) (assign : Assign) (masters : List (ClusterNode η κ))
    (hcount : s.nodesCount = s.interleaved.length) (hnodup : s.interleaved.Nodup) :
    ∃ log s', assignPass replicas assign masters s = some s' ∧ Assigned log s s' ∧
      (∀ e ∈ log, e.2 ∈ masters) ∧
      log.length = min (masters.length * assign.quota replicas) s.interleaved.length ∧
      (masters.length * assign.quota replicas ≤ s.interleaved.length →
        ∀ m ∈ masters, assign.quota replicas ≤ log.countP fun e => e.2 = m) := by
  induction masters generalizing s with
  | nil => exact ⟨[], s, rfl, .refl hcount, by simp, by simp, by simp⟩
  | cons m masters ih =>
    obtain ⟨log, s₁, hloop, hlog, hm, hlen⟩ :=
      assignLoop_assigned assign m replicas hcount hnodup
    obtain ⟨log', s', hpass, hlog', hmasters, hlen', hquota⟩ :=
      ih hlog.count (hlog.nodup hnodup)
    have hlength := hlog.length_eq
    have hmul : (m :: masters).length * assign.quota replicas =
        masters.length * assign.quota replicas + assign.quota replicas := by
      rw [length_cons, Nat.succ_mul]
    rw [assignPass, hloop, hmul]
    refine ⟨log ++ log', s', hpass, hlog.trans hlog' hnodup, ?_, ?_, ?_⟩
    · intro e he
      rcases mem_append.mp he with he | he
      · rw [hm e he]
        exact mem_cons_self
      · exact mem_cons_of_mem m (hmasters e he)
    · rw [length_append]
      omega
    · intro hle n hn
      rw [countP_append]
      rcases mem_cons.mp hn with rfl | hn
      · have hall : log.countP (fun e => e.2 = n) = log.length :=
          countP_eq_length.mpr fun e he => by simpa using hm e he
        omega
      · have := hquota (by omega) n hn
        omega

/-! ## All the nodes -/

/-- The roles after the script: the replicas, each with its master, and nodes without a
role. -/
structure Roles (replicas : ℕ) (nodes masters : List (ClusterNode η κ)) (infos : Infos η κ)
    (log : List (ClusterNode η κ × ClusterNode η κ)) (rest : List (ClusterNode η κ)) : Prop where
  perm : (masters ++ (log.map Prod.fst ++ rest)).Perm nodes
  slots : Shares infos.slots masters 0 ClusterHashSlots
  slave : ∀ e ∈ log, e.2 ∈ masters ∧ infos.replicate e.1 = some e.2.name
  other : ∀ n ∉ log.map Prod.fst, infos.replicate n = none
  enough : ∀ m ∈ masters, replicas ≤ log.countP fun e => e.2 = m
  length_rest : rest.length = nodes.length % (replicas + 1) - nodes.length / (replicas + 1)

theorem allocSlots_roles {replicas : ℕ} {nodes : List (ClusterNode η κ)} (hnodup : nodes.Nodup)
    (hpos : 0 < nodes.length / (replicas + 1))
    (hle : ((nodes.length / (replicas + 1) : ℕ) : ℤ) ≤ ClusterHashSlots) :
    ∃ masters infos log rest,
      allocSlots replicas nodes Infos.empty = some (masters, infos) ∧
      Roles replicas nodes masters infos log rest := by
  have hne : nodes ≠ [] := by
    rintro rfl
    simp at hpos
  obtain ⟨all, hall, hperm⟩ := interleave_perm hne
  have hallNodup : all.Nodup := hperm.nodup_iff.mpr hnodup
  have hallLength := hperm.length_eq
  obtain ⟨k, hk⟩ : ∃ k, k = nodes.length / (replicas + 1) := ⟨_, rfl⟩
  rw [← hk] at hpos hle
  have hdiv : k * replicas + k + nodes.length % (replicas + 1) = nodes.length := by
    rw [hk, ← Nat.mul_succ]
    exact Nat.div_add_mod' _ _
  have hmasters : (all.take k).length = k := by
    rw [length_take]
    omega
  have hmastersNe : all.take k ≠ [] := by
    rw [← length_pos_iff, hmasters]
    exact hpos
  obtain ⟨hshares, hnone⟩ := slots_shares hmastersNe (by rw [hmasters]; exact hle)
    (hallNodup.sublist (take_sublist k all))
  rw [hmasters] at hshares hnone
  obtain ⟨infos, hinfos⟩ : ∃ infos, infos = slotsLoop k (ClusterHashSlots / k : ℚ) (all.take k)
      0 0 0 (Infos.empty : Infos η κ) := ⟨_, rfl⟩
  rw [← hinfos] at hshares hnone
  have hcount : nodes.length - k = (all.drop k).length := by
    rw [length_drop, hallLength]
  have hdrop : (all.drop k).Nodup := hallNodup.sublist (drop_sublist k all)
  obtain ⟨log, s, hpass, hlog, hlogMem, hlogLength, hquota⟩ :=
    assignPass_assigned replicas .requested (all.take k) hcount hdrop
      (s := ⟨all.drop k, nodes.length - k, infos⟩)
  obtain ⟨log', s', hpass', hlog', hlogMem', hlogLength', -⟩ :=
    assignPass_assigned replicas .unused (all.take k) hlog.count (hlog.nodup hdrop)
  have htrans := hlog.trans hlog' hdrop
  have hfirst := hlog.length_eq
  have hsecond := hlog'.length_eq
  rw [hmasters] at hlogLength hlogLength' hquota
  simp only [Assign.quota] at hfirst hlogLength hlogLength' hquota
  rw [← hcount] at hfirst hlogLength hquota
  refine ⟨all.take k, s'.infos, log ++ log', s'.interleaved, ?_, ?_, ?_, ?_, ?_, ?_, ?_⟩
  · rw [allocSlots, hall]
    simp only [← hk, hmasters, ← hinfos, hpass, hpass']
  · refine Perm.trans ?_ hperm
    conv_rhs => rw [← take_append_drop k all]
    exact htrans.perm.symm.append_left _
  · rw [htrans.slots]
    exact hshares
  · intro e he
    refine ⟨?_, htrans.slave e he⟩
    rcases mem_append.mp he with he | he
    · exact hlogMem e he
    · exact hlogMem' e he
  · intro n hn
    rw [htrans.other n hn, hnone]
  · intro m hm
    have := hquota (by omega) m hm
    rw [countP_append]
    omega
  · have hrem : nodes.length % (replicas + 1) < replicas + 1 := Nat.mod_lt _ (Nat.succ_pos _)
    cases replicas with
    | zero =>
      rw [← hk]
      omega
    | succ replicas =>
      rw [Nat.min_eq_left (Nat.succ_le_succ (Nat.zero_le replicas)), Nat.mul_one]
        at hlogLength'
      rw [← hk]
      omega

variable {replicas : ℕ} {nodes masters rest : List (ClusterNode η κ)} {infos : Infos η κ}
  {log : List (ClusterNode η κ × ClusterNode η κ)}

theorem Roles.master (h : Roles replicas nodes masters infos log rest) (hnodup : nodes.Nodup)
    (hm : m ∈ masters) : m ∈ nodes ∧ infos.replicate m = none := by
  refine ⟨h.perm.mem_iff.mp (mem_append_left _ hm), h.other m fun hmem => ?_⟩
  have hdisjoint := (nodup_append.mp (h.perm.nodup_iff.mpr hnodup)).2.2
  exact hdisjoint m hm m (mem_append_left _ hmem) rfl

/-- The replicas of a master are different nodes. -/
theorem Roles.enough_nodes (h : Roles replicas nodes masters infos log rest)
    (hnodup : nodes.Nodup) (hm : m ∈ masters) :
    replicas ≤ (nodes.filter fun n => infos.replicate n = some m.name).length := by
  have hslaves : ((log.filter fun e => e.2 = m).map Prod.fst).Nodup := by
    have hright := (nodup_append.mp (h.perm.nodup_iff.mpr hnodup)).2.1
    exact (nodup_append.mp hright).1.sublist (filter_sublist.map Prod.fst)
  have hsubset : (log.filter fun e => e.2 = m).map Prod.fst ⊆
      nodes.filter fun n => infos.replicate n = some m.name := by
    intro n hn
    obtain ⟨e, he, rfl⟩ := mem_map.mp hn
    obtain ⟨hlog, hem⟩ := mem_filter.mp he
    rw [decide_eq_true_iff] at hem
    refine mem_filter.mpr ⟨?_, by simpa [hem] using (h.slave e hlog).2⟩
    exact h.perm.mem_iff.mp (mem_append_right _
      (mem_append_left _ (mem_map_of_mem hlog)))
  have hle := (subperm_of_subset hslaves hsubset).length_le
  rw [length_map, ← countP_eq_length_filter] at hle
  exact (h.enough m hm).trans hle

theorem Roles.allocated (h : Roles replicas nodes masters infos log [])
    (hnames : (nodes.map ClusterNode.name).Nodup) : Allocated replicas nodes masters infos := by
  have hnodup : nodes.Nodup := hnames.of_map
  refine ⟨fun m hm => h.master hnodup hm, h.slots, ?_, fun m hm => h.enough_nodes hnodup hm⟩
  intro n hn hnot
  have hmem := h.perm.mem_iff.mpr hn
  rw [append_nil, mem_append] at hmem
  obtain ⟨e, he, rfl⟩ := mem_map.mp (hmem.resolve_left hnot)
  obtain ⟨hmaster, hreplicate⟩ := h.slave e he
  refine ⟨e.2, ⟨hmaster, hreplicate⟩, ?_⟩
  rintro m ⟨hm, hreplicate'⟩
  rw [hreplicate, Option.some_inj] at hreplicate'
  exact inj_on_of_nodup_map hnames (h.master hnodup hm).1 (h.master hnodup hmaster).1
    hreplicate'.symm

theorem Roles.not_allocated (h : Roles replicas nodes masters infos log rest)
    (hnodup : nodes.Nodup) (hrest : rest ≠ []) : ¬ Allocated replicas nodes masters infos := by
  intro halloc
  obtain ⟨n, rest, rfl⟩ := exists_cons_of_ne_nil hrest
  obtain ⟨-, hright, hleft⟩ := nodup_append.mp (h.perm.nodup_iff.mpr hnodup)
  have hmem : n ∈ log.map Prod.fst ++ n :: rest := by simp
  have hmaster : n ∉ masters := fun hm => hleft n hm n hmem rfl
  have hslave : n ∉ log.map Prod.fst := fun hs =>
    (nodup_append.mp hright).2.2 n hs n mem_cons_self rfl
  obtain ⟨m, ⟨-, hreplicate⟩, -⟩ :=
    halloc.replica n (h.perm.mem_iff.mp (mem_append_right _ hmem)) hmaster
  rw [h.other n hslave] at hreplicate
  exact Option.some_ne_none _ hreplicate.symm

/-- Nodes are left over when there are more of them than masters. -/
theorem not_allocates_of_lt (hnodup : nodes.Nodup) (hpos : 0 < nodes.length / (replicas + 1))
    (hle : ((nodes.length / (replicas + 1) : ℕ) : ℤ) ≤ ClusterHashSlots)
    (hlt : nodes.length / (replicas + 1) < nodes.length % (replicas + 1)) :
    ¬ Allocates replicas nodes := by
  rintro ⟨masters', infos', heq, halloc⟩
  obtain ⟨masters, infos, log, rest, hscript, hroles⟩ := allocSlots_roles hnodup hpos hle
  rw [hscript, Option.some_inj, Prod.mk.injEq] at heq
  obtain ⟨rfl, rfl⟩ := heq
  have hrest : rest ≠ [] := by
    rw [← length_pos_iff, hroles.length_rest]
    omega
  exact hroles.not_allocated hnodup hrest halloc

/-- The second pass gives each master one node, so that all of them are used when there are
not more left over than masters. -/
theorem allocates_iff (hnames : (nodes.map ClusterNode.name).Nodup)
    (hcheck : checkCreateParameters replicas nodes = true)
    (hle : ((nodes.length / (replicas + 1) : ℕ) : ℤ) ≤ ClusterHashSlots) :
    Allocates replicas nodes ↔ nodes.length % (replicas + 1) ≤ nodes.length / (replicas + 1) := by
  have hnodup : nodes.Nodup := hnames.of_map
  have hpos : 0 < nodes.length / (replicas + 1) := by
    rw [checkCreateParameters, decide_eq_true_iff] at hcheck
    omega
  constructor
  · intro halloc
    by_contra hlt
    exact not_allocates_of_lt hnodup hpos hle (Nat.lt_of_not_le hlt) halloc
  · intro hrem
    obtain ⟨masters, infos, log, rest, hscript, hroles⟩ := allocSlots_roles hnodup hpos hle
    obtain rfl : rest = [] := by
      refine eq_nil_of_length_eq_zero ?_
      rw [hroles.length_rest]
      omega
    exact ⟨masters, infos, hscript, hroles.allocated hnames⟩

end Passes

/-- Nodes of two hosts. -/
def twoHosts (n : ℕ) : List (ClusterNode ℕ ℕ) := (range n).map fun i => ⟨i % 2, i⟩

theorem names_twoHosts (n : ℕ) : ((twoHosts n).map ClusterNode.name).Nodup := by
  have hnames : (twoHosts n).map ClusterNode.name = range n := by
    rw [twoHosts, map_map]
    exact map_id _
  rw [hnames]
  exact nodup_range

theorem allocates_seven : Allocates 1 (twoHosts 7) :=
  (allocates_iff (names_twoHosts 7) (by decide) (by decide)).mpr (by decide)

/-- Three masters with five replicas each, and five nodes for three masters. -/
theorem not_allocates_twentyThree : ((twoHosts 23).map ClusterNode.name).Nodup ∧
    checkCreateParameters 5 (twoHosts 23) = true ∧
    (((twoHosts 23).length / (5 + 1) : ℕ) : ℤ) ≤ ClusterHashSlots ∧
    ¬ Allocates 5 (twoHosts 23) :=
  ⟨names_twoHosts 23, by decide, by decide,
    not_allocates_of_lt (names_twoHosts 23).of_map (by decide) (by decide) (by decide)⟩

end Redis.Trib
