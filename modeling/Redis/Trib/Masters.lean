import Redis.Trib

/-!
# Redis.Trib.Masters

The masters of a new cluster: the loop over the hosts takes every node once, and the slots are
cut into ranges at the rounded multiples of the slots of one node.
-/

namespace Redis.Trib

open List

/-! ## Shares of a range -/

/-- Each of `ms` has a range that is not empty, and these make up the numbers from `a` to
below `b`. -/
structure Shares {ν : Type} (share : ν → Finset ℤ) (ms : List ν) (a b : ℤ) : Prop where
  le : a ≤ b
  contiguous : ∀ m ∈ ms, ∃ first last, first ≤ last ∧ share m = slotRange first last
  within : ∀ m ∈ ms, ∀ s ∈ share m, a ≤ s ∧ s < b
  cover : ∀ s, a ≤ s → s < b → ∃! m, m ∈ ms ∧ s ∈ share m

namespace Shares

variable {ν : Type} {share : ν → Finset ℤ} {ms : List ν} {m : ν} {a b c : ℤ}

theorem nil (share : ν → Finset ℤ) (a : ℤ) : Shares share [] a a :=
  ⟨le_rfl, by simp, by simp, fun s ha hb => absurd hb (not_lt.mpr ha)⟩

/-- A range in front of the shares of the others. -/
theorem cons (h : Shares share ms c b) (hac : a < c) (hm : share m = slotRange a (c - 1)) :
    Shares share (m :: ms) a b := by
  refine ⟨hac.le.trans h.le, ?_, ?_, ?_⟩
  · intro n hn
    rcases mem_cons.mp hn with rfl | hn
    · exact ⟨a, c - 1, by omega, hm⟩
    · exact h.contiguous n hn
  · intro n hn s hs
    have hle := h.le
    rcases mem_cons.mp hn with rfl | hn
    · rw [hm, mem_slotRange] at hs
      omega
    · have := h.within n hn s hs
      omega
  · intro s ha hb
    by_cases hs : s < c
    · refine ⟨m, ⟨mem_cons_self, by rw [hm, mem_slotRange]; omega⟩, ?_⟩
      rintro n ⟨hn, hmem⟩
      rcases mem_cons.mp hn with rfl | hn
      · rfl
      · exact absurd (h.within n hn s hmem).1 (not_le.mpr hs)
    · obtain ⟨n, ⟨hn, hmem⟩, huniq⟩ := h.cover s (not_lt.mp hs) hb
      refine ⟨n, ⟨mem_cons_of_mem m hn, hmem⟩, ?_⟩
      rintro n' ⟨hn', hmem'⟩
      rcases mem_cons.mp hn' with rfl | hn'
      · rw [hm, mem_slotRange] at hmem'
        omega
      · exact huniq n' ⟨hn', hmem'⟩

end Shares

section Hosts

variable {η κ : Type}

/-! ## The loop over the hosts -/

/-- The nodes that are left. -/
def remaining (ips : Ips η κ) : List (ClusterNode η κ) := ips.flatMap fun e => e.2

theorem remaining_cons (ip : η) (nodes : List (ClusterNode η κ)) (ips : Ips η κ) :
    remaining ((ip, nodes) :: ips) = nodes ++ remaining ips := rfl

variable (n : ClusterNode η κ)

theorem pushNode_perm [DecidableEq η] (ips : Ips η κ) :
    (remaining (pushNode n ips)).Perm (n :: remaining ips) := by
  induction ips with
  | nil => rfl
  | cons e ips ih =>
    obtain ⟨ip, nodes⟩ := e
    rw [pushNode]
    split
    · rw [remaining_cons, remaining_cons, append_assoc]
      exact perm_middle
    · rw [remaining_cons, remaining_cons]
      exact (ih.append_left nodes).trans perm_middle

theorem pushNode_ne_nil [DecidableEq η] (ips : Ips η κ) : pushNode n ips ≠ [] := by
  cases ips with
  | nil => simp [pushNode]
  | cons e ips =>
    rw [pushNode]
    split <;> simp

theorem foldl_pushNode_perm [DecidableEq η] (nodes : List (ClusterNode η κ)) (ips : Ips η κ) :
    (remaining (nodes.foldl (fun ips n => pushNode n ips) ips)).Perm
      (nodes ++ remaining ips) := by
  induction nodes generalizing ips with
  | nil => rfl
  | cons n nodes ih =>
    rw [foldl_cons, cons_append]
    exact (ih _).trans (((pushNode_perm n ips).append_left nodes).trans perm_middle)

theorem foldl_pushNode_ne_nil [DecidableEq η] {nodes : List (ClusterNode η κ)}
    (h : nodes ≠ []) (ips : Ips η κ) : nodes.foldl (fun ips n => pushNode n ips) ips ≠ [] := by
  rw [← dropLast_append_getLast h, foldl_append]
  exact pushNode_ne_nil _ _

section

variable (nodesCount : ℕ) (ips : Ips η κ) (interleaved : List (ClusterNode η κ)) (stop : Bool)

attribute [elab_as_elim] takeEach.induct_unfolding

theorem takeEach_perm :
    (remaining (takeEach nodesCount ips interleaved stop).1 ++
        (takeEach nodesCount ips interleaved stop).2.1).Perm
      (remaining ips ++ interleaved) := by
  fun_induction takeEach nodesCount ips interleaved stop with
  | case1 interleaved stop => rfl
  | case2 ip ips interleaved stop r ih => exact ih
  | case3 ip n nodes ips interleaved stop r ih =>
    rw [remaining_cons, remaining_cons, append_assoc, append_assoc]
    refine (ih.append_left nodes).trans ?_
    rw [← append_assoc (remaining ips), ← append_assoc nodes]
    exact perm_append_comm

theorem length_le_takeEach :
    interleaved.length ≤ (takeEach nodesCount ips interleaved stop).2.1.length := by
  fun_induction takeEach nodesCount ips interleaved stop with
  | case1 interleaved stop => exact le_rfl
  | case2 ip ips interleaved stop r ih => exact ih
  | case3 ip n nodes ips interleaved stop r ih =>
    rw [length_append] at ih
    exact (Nat.le_add_right _ _).trans ih

/-- A host gives a node when there is one. -/
theorem length_lt_takeEach (h : remaining ips ≠ []) :
    interleaved.length < (takeEach nodesCount ips interleaved stop).2.1.length := by
  fun_induction takeEach nodesCount ips interleaved stop with
  | case1 interleaved stop => exact absurd rfl h
  | case2 ip ips interleaved stop r ih => exact ih h
  | case3 ip n nodes ips interleaved stop r ih =>
    have := length_le_takeEach nodesCount ips (interleaved ++ [n]) stop
    rw [length_append] at this
    exact Nat.lt_of_succ_le this

/-- The loop only stops when all nodes are interleaved. -/
theorem takeEach_stop (h : (takeEach nodesCount ips interleaved stop).2.2 = true) :
    stop = true ∨ nodesCount ≤ (takeEach nodesCount ips interleaved stop).2.1.length := by
  fun_induction takeEach nodesCount ips interleaved stop with
  | case1 interleaved stop => exact .inl h
  | case2 ip ips interleaved stop r ih =>
    rcases ih h with hstop | hle
    · rw [Bool.or_eq_true, beq_iff_eq] at hstop
      rcases hstop with hstop | hlen
      · exact .inl hstop
      · refine .inr (hlen.ge.trans ?_)
        exact length_le_takeEach nodesCount ips interleaved _
    · exact .inr hle
  | case3 ip n nodes ips interleaved stop r ih => exact ih h

theorem takeEach_keeps_stop :
    stop = true → (takeEach nodesCount ips interleaved stop).2.2 = true := by
  fun_induction takeEach nodesCount ips interleaved stop with
  | case1 interleaved stop => exact id
  | case2 ip ips interleaved stop r ih => exact fun h => ih (by rw [h, Bool.true_or])
  | case3 ip n nodes ips interleaved stop r ih => exact ih

/-- When no host has a node, the first host ends the loop. -/
theorem takeEach_done (hips : ips ≠ []) (h : remaining ips = [])
    (hlen : interleaved.length = nodesCount) :
    (takeEach nodesCount ips interleaved stop).2.2 = true := by
  cases ips with
  | nil => exact absurd rfl hips
  | cons e ips =>
    obtain ⟨ip, nodes⟩ := e
    obtain ⟨rfl, -⟩ := append_eq_nil_iff.mp (remaining_cons ip nodes ips ▸ h)
    rw [takeEach]
    exact takeEach_keeps_stop nodesCount ips interleaved _ (by rw [hlen, beq_self_eq_true,
      Bool.or_true])

theorem takeEach_ne_nil (h : ips ≠ []) : (takeEach nodesCount ips interleaved stop).1 ≠ [] := by
  fun_cases takeEach nodesCount ips interleaved stop with
  | case1 => exact h
  | case2 => simp
  | case3 => simp

end

/-- `interleaved` has every node once. -/
theorem interleaveLoop_perm {nodesCount fuel : ℕ} {ips : Ips η κ}
    {interleaved : List (ClusterNode η κ)} (hips : ips ≠ [])
    (hcount : (remaining ips ++ interleaved).length = nodesCount)
    (hfuel : (remaining ips).length < fuel) :
    ∃ all, interleaveLoop nodesCount fuel ips interleaved = some all ∧
      all.Perm (remaining ips ++ interleaved) := by
  induction fuel generalizing ips interleaved with
  | zero => exact absurd hfuel (Nat.not_lt_zero _)
  | succ fuel ih =>
    have hperm := takeEach_perm nodesCount ips interleaved false
    have hlength := hperm.length_eq
    rw [hcount, length_append] at hlength
    rw [interleaveLoop]
    by_cases hstop : (takeEach nodesCount ips interleaved false).2.2 = true
    · have hle : nodesCount ≤ _ :=
        (takeEach_stop nodesCount ips interleaved false hstop).resolve_left Bool.false_ne_true
      have hnil : remaining (takeEach nodesCount ips interleaved false).1 = [] :=
        eq_nil_of_length_eq_zero (by omega)
      rw [hnil, nil_append] at hperm
      rw [if_pos hstop]
      exact ⟨_, rfl, hperm⟩
    · have hleft : remaining ips ≠ [] := by
        intro hnil
        rw [hnil, nil_append] at hcount
        exact hstop (takeEach_done nodesCount ips interleaved false hips hnil hcount)
      have hmove := length_lt_takeEach nodesCount ips interleaved false hleft
      rw [length_append] at hcount
      rw [if_neg hstop]
      obtain ⟨all, hloop, hall⟩ := ih (takeEach_ne_nil nodesCount ips interleaved false hips)
        (by rw [length_append]; exact hlength) (by omega)
      exact ⟨all, hloop, hall.trans hperm⟩

theorem interleave_perm [DecidableEq η] {nodes : List (ClusterNode η κ)} (h : nodes ≠ []) :
    ∃ all, interleaveLoop nodes.length (nodes.length + 1)
        (nodes.foldl (fun ips n => pushNode n ips) []) [] = some all ∧ all.Perm nodes := by
  have hperm : (remaining (nodes.foldl (fun ips n => pushNode n ips) [])).Perm nodes := by
    simpa [remaining] using foldl_pushNode_perm nodes []
  have hlength := hperm.length_eq
  obtain ⟨all, hloop, hall⟩ := interleaveLoop_perm (foldl_pushNode_ne_nil h [])
    (by rw [append_nil, hlength]) (by rw [hlength]; exact Nat.lt_succ_self _)
  rw [append_nil] at hall
  exact ⟨all, hloop, hall.trans hperm⟩

end Hosts

/-! ## The slots of the masters -/

section Slots

/-- The bounds of the ranges are apart, as a node has at least one slot. -/
theorem round_lt_round_succ {slotsPerNode : ℚ} (h : 1 ≤ slotsPerNode) (i : ℕ) :
    round (i * slotsPerNode) < round ((i + 1 : ℕ) * slotsPerNode) := by
  have hle : (i : ℚ) * slotsPerNode + 1 ≤ (i + 1 : ℕ) * slotsPerNode := by
    push_cast
    linarith
  have hmono : round ((i : ℚ) * slotsPerNode + 1) ≤ round ((i + 1 : ℕ) * slotsPerNode) := by
    rw [round_eq, round_eq]
    exact Int.floor_mono (by linarith)
  rw [round_add_one] at hmono
  omega

/-- The range of a master ends in front of the next multiple; both special cases of the loop
change nothing. -/
theorem lastSlot_eq {slotsPerNode : ℚ} {k i : ℕ} (h : 1 ≤ slotsPerNode)
    (hk : k * slotsPerNode = ClusterHashSlots) (hi : i < k) :
    (let last := round (i * slotsPerNode + slotsPerNode - 1)
      let last :=
        if last > ClusterHashSlots ∨ i = k - 1 then ClusterHashSlots - 1 else last
      if last < round (i * slotsPerNode) then round (i * slotsPerNode) else last) =
      round ((i + 1 : ℕ) * slotsPerNode) - 1 := by
  have hnext : (i : ℚ) * slotsPerNode + slotsPerNode = (i + 1 : ℕ) * slotsPerNode := by
    push_cast
    ring
  have hstep := round_lt_round_succ h i
  have hend : round (k * slotsPerNode) = ClusterHashSlots := by rw [hk, round_intCast]
  have hmono : round ((i + 1 : ℕ) * slotsPerNode) ≤ round (k * slotsPerNode) := by
    have hik : ((i + 1 : ℕ) : ℚ) ≤ k := by exact_mod_cast hi
    have hmul : ((i + 1 : ℕ) : ℚ) * slotsPerNode ≤ k * slotsPerNode :=
      mul_le_mul_of_nonneg_right hik (by linarith)
    rw [round_eq, round_eq]
    exact Int.floor_mono (by linarith)
  rw [hend] at hmono
  rw [hnext, round_sub_one]
  have hlast : (if round ((i + 1 : ℕ) * slotsPerNode) - 1 > ClusterHashSlots ∨ i = k - 1
      then ClusterHashSlots - 1 else round ((i + 1 : ℕ) * slotsPerNode) - 1) =
      round ((i + 1 : ℕ) * slotsPerNode) - 1 := by
    split
    next hcase =>
      obtain rfl : i + 1 = k := by omega
      rw [hend]
    next => rfl
  simp only [hlast]
  rw [if_neg (by omega)]

variable {η κ : Type} [DecidableEq η] [DecidableEq κ]

variable {masters : List (ClusterNode η κ)}

/-- The loop gives the masters from the `i`-th on their shares, and leaves the other nodes. -/
theorem slotsLoop_shares {slotsPerNode : ℚ} {k : ℕ} (i : ℕ) (infos : Infos η κ)
    (h : 1 ≤ slotsPerNode) (hk : k * slotsPerNode = ClusterHashSlots)
    (hlen : i + masters.length = k) (hnodup : masters.Nodup)
    (hempty : ∀ m ∈ masters, infos.slots m = ∅) :
    let after := slotsLoop k slotsPerNode masters i (round (i * slotsPerNode))
      (i * slotsPerNode) infos
    Shares after.slots masters (round (i * slotsPerNode)) ClusterHashSlots ∧
      after.replicate = infos.replicate ∧ ∀ n ∉ masters, after.slots n = infos.slots n := by
  induction masters generalizing i infos with
  | nil =>
    obtain rfl : i = k := by simpa using hlen
    rw [hk, round_intCast]
    exact ⟨Shares.nil _ _, rfl, fun n _ => rfl⟩
  | cons m masters ih =>
    rw [length_cons] at hlen
    rw [nodup_cons] at hnodup
    have hlast := lastSlot_eq h hk (by omega : i < k)
    have hcursor : (i : ℚ) * slotsPerNode + slotsPerNode = (i + 1 : ℕ) * slotsPerNode := by
      push_cast
      ring
    dsimp only at hlast ⊢
    rw [slotsLoop, hlast, hcursor, Int.sub_add_cancel]
    have hlen' : i + 1 + masters.length = k := by omega
    have hempty' : ∀ n ∈ masters, (infos.addSlots m (round (i * slotsPerNode))
        (round ((i + 1 : ℕ) * slotsPerNode) - 1)).slots n = ∅ := by
      intro n hn
      have hne : n ≠ m := fun heq => hnodup.1 (heq ▸ hn)
      rw [Infos.addSlots_of_ne infos hne]
      exact hempty n (mem_cons_of_mem m hn)
    obtain ⟨hshares, hreplicate, hother⟩ := ih (i + 1) _ hlen' hnodup.2 hempty'
    refine ⟨hshares.cons (round_lt_round_succ h i) ?_, hreplicate, ?_⟩
    · rw [hother m hnodup.1, Infos.addSlots_self, hempty m mem_cons_self,
        Finset.empty_union]
    · intro n hn
      rw [mem_cons, not_or] at hn
      rw [hother n hn.2, Infos.addSlots_of_ne infos hn.1]

/-- The slots of the masters, when there are not more masters than slots. -/
theorem slots_shares (hne : masters ≠ []) (hle : (masters.length : ℤ) ≤ ClusterHashSlots)
    (hnodup : masters.Nodup) :
    let after := slotsLoop masters.length (ClusterHashSlots / masters.length : ℚ) masters 0 0 0
      Infos.empty
    Shares after.slots masters 0 ClusterHashSlots ∧ after.replicate = fun _ => none := by
  have hpos : (0 : ℚ) < masters.length := by
    exact_mod_cast length_pos_iff.mpr hne
  have hone : (1 : ℚ) ≤ ClusterHashSlots / masters.length := by
    rw [le_div_iff₀ hpos, one_mul]
    exact_mod_cast hle
  have hk : (masters.length : ℚ) * (ClusterHashSlots / masters.length) = ClusterHashSlots :=
    mul_div_cancel₀ _ hpos.ne'
  have hloop := slotsLoop_shares 0 Infos.empty hone hk (Nat.zero_add _) hnodup fun _ _ => rfl
  simp only [Nat.cast_zero, zero_mul, round_zero] at hloop
  exact ⟨hloop.1, hloop.2.1⟩

end Slots

end Redis.Trib
