import Mathlib
import Redis.Trib

/-!
# Redis.Trib.Reshard

`compute_reshard_table` of `redis-trib`: which slots leave which masters when a number of slots is
to move.  The largest master gives its share rounded up and the others theirs rounded down, so
that the plan is too short when the others lose a whole slot between them.
-/

namespace Redis.Trib

open List

variable {η κ : Type}

local instance instIsTransSlot : IsTrans ℤ (· ≤ ·) := inferInstance

local instance instAntisymmSlot : Std.Antisymm fun a b : ℤ => a ≤ b := inferInstance

/-! ## The script -/

/-- `numslots.to_f/source_tot_slots*s.slots.length`. -/
def share (numslots tot len : ℕ) : ℚ := numslots / tot * len

/-- How many slots the source at position `i` is to give. -/
def givenSlots (numslots tot i len : ℕ) : ℕ :=
  (if i = 0 then ⌈share numslots tot len⌉ else ⌊share numslots tot len⌋).toNat

/-- The loop over the slots that a source gives. -/
def moveSlots (numslots : ℕ) (s : ClusterNode η κ) :
    List ℤ → List (ClusterNode η κ × ℤ) → List (ClusterNode η κ × ℤ)
  | [], moved => moved
  | slot :: slots, moved =>
    moveSlots numslots s slots (if moved.length < numslots then moved ++ [(s, slot)] else moved)

/-- The slots of a source that it gives, lowest first. -/
def sourceSlots (infos : Infos η κ) (numslots tot i : ℕ) (s : ClusterNode η κ) : List ℤ :=
  ((infos.slots s).sort (· ≤ ·)).take (givenSlots numslots tot i (infos.slots s).card)

/-- The loop over the sources, from position `i` on. -/
def reshardLoop (infos : Infos η κ) (numslots tot : ℕ) :
    ℕ → List (ClusterNode η κ) → List (ClusterNode η κ × ℤ) → List (ClusterNode η κ × ℤ)
  | _, [], moved => moved
  | i, s :: sources, moved =>
    reshardLoop infos numslots tot (i + 1) sources
      (moveSlots numslots s (sourceSlots infos numslots tot i s) moved)

/-- `compute_reshard_table`.  `sort` puts larger sources first; Ruby leaves open how it orders
sources of one size. -/
def computeReshardTable (sort : List (ClusterNode η κ) → List (ClusterNode η κ))
    (infos : Infos η κ) (sources : List (ClusterNode η κ)) (numslots : ℕ) :
    List (ClusterNode η κ × ℤ) :=
  let sources := sort sources
  let source_tot_slots := (sources.map fun s => (infos.slots s).card).sum
  reshardLoop infos numslots source_tot_slots 0 sources []

/-! ## What is asked of the plan -/

/-- The plan moves `numslots` slots, each of them once and from a source that has it, and takes
from each source its proportional share up to one slot. -/
structure Plans [DecidableEq η] [DecidableEq κ] (infos : Infos η κ)
    (sources : List (ClusterNode η κ)) (numslots : ℕ) (table : List (ClusterNode η κ × ℤ)) : Prop where
  length : table.length = numslots
  owned : ∀ e ∈ table, e.1 ∈ sources ∧ e.2 ∈ infos.slots e.1
  nodup : (table.map Prod.snd).Nodup
  proportional : ∀ s ∈ sources, |((table.countP (·.1 = s) : ℕ) : ℚ) -
    share numslots (sources.map fun s => (infos.slots s).card).sum (infos.slots s).card| ≤ 1

/-- The sources other than a largest one lose less than one slot when their shares are rounded
down. -/
def LosesNone (infos : Infos η κ) (sources : List (ClusterNode η κ)) (numslots : ℕ) : Prop :=
  let rest (s : ClusterNode η κ) : ℚ := Int.fract
    (share numslots (sources.map fun s => (infos.slots s).card).sum (infos.slots s).card)
  ∀ s ∈ sources, (∀ s' ∈ sources, (infos.slots s').card ≤ (infos.slots s).card) →
    (sources.map rest).sum - rest s < 1

/-! ## The plan without the limit -/

section Planned

variable {infos : Infos η κ} {numslots tot i len : ℕ} {s : ClusterNode η κ}
  {sources : List (ClusterNode η κ)}

variable {moved : List (ClusterNode η κ × ℤ)}

theorem moveSlots_eq {slots : List ℤ} (h : moved.length + slots.length ≤ numslots) :
    moveSlots numslots s slots moved = moved ++ slots.map (Prod.mk s) := by
  induction slots generalizing moved with
  | nil => exact (append_nil moved).symm
  | cons slot slots ih =>
    rw [length_cons] at h
    rw [moveSlots, if_pos (by omega), ih (by rw [length_append, length_singleton]; omega),
      append_assoc]
    rfl

/-- All that the sources give. -/
def planned (infos : Infos η κ) (numslots tot : ℕ) :
    ℕ → List (ClusterNode η κ) → List (ClusterNode η κ × ℤ)
  | _, [] => []
  | i, s :: sources =>
    (sourceSlots infos numslots tot i s).map (Prod.mk s) ++
      planned infos numslots tot (i + 1) sources

theorem reshardLoop_eq
    (h : moved.length + (planned infos numslots tot i sources).length ≤ numslots) :
    reshardLoop infos numslots tot i sources moved =
      moved ++ planned infos numslots tot i sources := by
  induction sources generalizing i moved with
  | nil => exact (append_nil moved).symm
  | cons s sources ih =>
    rw [planned, length_append, length_map] at h
    have hmove : moveSlots numslots s (sourceSlots infos numslots tot i s) moved = _ :=
      moveSlots_eq (by omega)
    rw [reshardLoop, hmove, ih ?_, append_assoc]
    · rfl
    · rw [length_append, length_map]
      omega

theorem mem_planned {e : ClusterNode η κ × ℤ} (h : e ∈ planned infos numslots tot i sources) :
    e.1 ∈ sources ∧ e.2 ∈ infos.slots e.1 := by
  induction sources generalizing i with
  | nil => exact absurd h not_mem_nil
  | cons s sources ih =>
    obtain hfirst | hrest := mem_append.mp h
    · obtain ⟨slot, hslot, rfl⟩ := mem_map.mp hfirst
      exact ⟨mem_cons_self, (Finset.mem_sort _).mp (mem_of_mem_take hslot)⟩
    · exact ⟨mem_cons_of_mem s (ih hrest).1, (ih hrest).2⟩

theorem nodup_planned
    (h : sources.Pairwise fun s s' => Disjoint (infos.slots s) (infos.slots s')) :
    ((planned infos numslots tot i sources).map Prod.snd).Nodup := by
  induction sources generalizing i with
  | nil => exact nodup_nil
  | cons s sources ih =>
    obtain ⟨hfirst, hrest⟩ := pairwise_cons.mp h
    rw [planned, map_append, map_map]
    have hsnd : Prod.snd ∘ Prod.mk s = (id : ℤ → ℤ) := rfl
    rw [hsnd, map_id]
    refine nodup_append'.mpr ⟨((infos.slots s).sort_nodup _).sublist (take_sublist _ _),
      ih hrest, fun slot hslot hslot' => ?_⟩
    obtain ⟨e, he, rfl⟩ := mem_map.mp hslot'
    obtain ⟨hmem, hown⟩ := mem_planned he
    exact Finset.disjoint_left.mp (hfirst _ hmem)
      ((Finset.mem_sort _).mp (mem_of_mem_take hslot)) hown

/-! ## How much the sources give -/

theorem share_nonneg : 0 ≤ share numslots tot len := by
  rw [share]
  positivity

theorem share_le (h : numslots ≤ tot) : share numslots tot len ≤ len := by
  have hle : (numslots : ℚ) / tot ≤ 1 := by
    refine div_le_one_of_le₀ ?_ (Nat.cast_nonneg tot)
    exact_mod_cast h
  rw [share]
  exact mul_le_of_le_one_left (Nat.cast_nonneg len) hle

theorem givenSlots_le (h : numslots ≤ tot) : givenSlots numslots tot i len ≤ len := by
  have hle : share numslots tot len ≤ ((len : ℤ) : ℚ) := share_le h
  rw [givenSlots, Int.toNat_le]
  split
  · exact Int.ceil_le.mpr hle
  · exact Int.floor_le_iff.mpr (hle.trans_lt (lt_add_one _))

theorem cast_givenSlots_zero :
    ((givenSlots numslots tot 0 len : ℕ) : ℚ) = ⌈share numslots tot len⌉ := by
  have hnonneg : 0 ≤ share numslots tot len := share_nonneg
  have h := Int.toNat_of_nonneg (Int.ceil_nonneg hnonneg)
  rw [givenSlots, if_pos rfl, ← Int.cast_natCast, h]

theorem cast_givenSlots_succ : ((givenSlots numslots tot (i + 1) len : ℕ) : ℚ) =
    share numslots tot len - Int.fract (share numslots tot len) := by
  have hnonneg : 0 ≤ share numslots tot len := share_nonneg
  have h := Int.toNat_of_nonneg (Int.floor_nonneg.mpr hnonneg)
  rw [givenSlots, if_neg (Nat.succ_ne_zero i), ← Int.cast_natCast, h, Int.self_sub_fract]

theorem abs_givenSlots_sub_le :
    |((givenSlots numslots tot i len : ℕ) : ℚ) - share numslots tot len| ≤ 1 := by
  cases i with
  | zero =>
    have hle := Int.le_ceil (share numslots tot len)
    have hlt := Int.ceil_lt_add_one (share numslots tot len)
    rw [cast_givenSlots_zero, abs_le]
    constructor <;> linarith
  | succ i =>
    have hle := Int.fract_nonneg (share numslots tot len)
    have hlt := Int.fract_lt_one (share numslots tot len)
    rw [cast_givenSlots_succ, abs_le]
    constructor <;> linarith

theorem length_sourceSlots (h : numslots ≤ tot) : (sourceSlots infos numslots tot i s).length =
    givenSlots numslots tot i (infos.slots s).card := by
  rw [sourceSlots, length_take, Finset.length_sort, Nat.min_eq_left (givenSlots_le h)]

/-- A source gives what it has to at its position. -/
theorem countP_planned [DecidableEq η] [DecidableEq κ] (h : numslots ≤ tot) (hs : s ∈ sources)
    (hnodup : sources.Nodup) :
    ∃ j, (planned infos numslots tot i sources).countP (·.1 = s) =
      givenSlots numslots tot j (infos.slots s).card := by
  induction sources generalizing i with
  | nil => exact absurd hs not_mem_nil
  | cons s' sources ih =>
    obtain ⟨hout, hrest⟩ := nodup_cons.mp hnodup
    rw [planned]
    simp only [countP_append, countP_map]
    obtain rfl | hs := mem_cons.mp hs
    · refine ⟨i, ?_⟩
      have hnone : (planned infos numslots tot (i + 1) sources).countP (·.1 = s) = 0 := by
        rw [countP_eq_zero]
        rintro e he heq
        rw [decide_eq_true_eq] at heq
        exact hout (heq ▸ (mem_planned he).1)
      have hall : (sourceSlots infos numslots tot i s).countP
          ((fun e : ClusterNode η κ × ℤ => decide (e.1 = s)) ∘ Prod.mk s) =
            (sourceSlots infos numslots tot i s).length := by
        rw [countP_eq_length]
        exact fun _ _ => decide_eq_true rfl
      rw [hnone, hall, length_sourceSlots h, Nat.add_zero]
    · obtain ⟨j, hj⟩ := ih (i := i + 1) hs hrest
      refine ⟨j, ?_⟩
      have hnone : (sourceSlots infos numslots tot i s').countP
          ((fun e : ClusterNode η κ × ℤ => decide (e.1 = s)) ∘ Prod.mk s') = 0 := by
        rw [countP_eq_zero]
        rintro slot - heq
        rw [Function.comp_apply, decide_eq_true_eq] at heq
        obtain rfl : s' = s := heq
        exact hout hs
      rw [hnone, hj, Nat.zero_add]

theorem length_planned_succ (h : numslots ≤ tot) :
    ((planned infos numslots tot (i + 1) sources).length : ℚ) =
      (sources.map fun s => share numslots tot (infos.slots s).card).sum -
        (sources.map fun s => Int.fract (share numslots tot (infos.slots s).card)).sum := by
  induction sources generalizing i with
  | nil => simp [planned]
  | cons s sources ih =>
    rw [planned, length_append, length_map, length_sourceSlots h, Nat.cast_add,
      cast_givenSlots_succ, ih]
    simp only [map_cons, sum_cons]
    ring

theorem sum_share (hpos : 0 < tot) (htot : (sources.map fun s => (infos.slots s).card).sum = tot) :
    (sources.map fun s => share numslots tot (infos.slots s).card).sum = numslots := by
  have hne : (tot : ℚ) ≠ 0 := by exact_mod_cast hpos.ne'
  have hsum : (sources.map fun s => share numslots tot (infos.slots s).card).sum =
      numslots / tot * ((sources.map fun s => (infos.slots s).card).sum : ℕ) := by
    clear htot
    induction sources with
    | nil => simp
    | cons s sources ih =>
      rw [map_cons, sum_cons, ih, map_cons, sum_cons, Nat.cast_add, share]
      ring
  rw [hsum, htot, div_mul_cancel₀ _ hne]

/-- Rounding adds to the first share and takes from the others. -/
theorem length_planned (h : numslots ≤ tot) (hpos : 0 < tot)
    (htot : ((s :: sources).map fun s => (infos.slots s).card).sum = tot) :
    ((planned infos numslots tot 0 (s :: sources)).length : ℚ) = numslots +
      (⌈share numslots tot (infos.slots s).card⌉ - share numslots tot (infos.slots s).card) -
        (sources.map fun s => Int.fract (share numslots tot (infos.slots s).card)).sum := by
  have hsum : ((s :: sources).map fun s => share numslots tot (infos.slots s).card).sum = numslots :=
    sum_share hpos htot
  rw [map_cons, sum_cons] at hsum
  rw [planned, length_append, length_map, length_sourceSlots h, Nat.cast_add,
    cast_givenSlots_zero, length_planned_succ h]
  linarith

theorem sum_fract_nonneg :
    0 ≤ (sources.map fun s => Int.fract (share numslots tot (infos.slots s).card)).sum := by
  induction sources with
  | nil => exact le_rfl
  | cons s sources ih =>
    rw [map_cons, sum_cons]
    exact add_nonneg (Int.fract_nonneg _) ih

theorem length_planned_le (h : numslots ≤ tot) (hpos : 0 < tot)
    (htot : ((s :: sources).map fun s => (infos.slots s).card).sum = tot) :
    (planned infos numslots tot 0 (s :: sources)).length ≤ numslots := by
  have hlen := length_planned h hpos htot
  have hceil := Int.ceil_lt_add_one (share numslots tot (infos.slots s).card)
  have hlost : 0 ≤ (sources.map fun s => Int.fract (share numslots tot (infos.slots s).card)).sum :=
    sum_fract_nonneg
  have hlt : ((planned infos numslots tot 0 (s :: sources)).length : ℚ) < (numslots + 1 : ℕ) := by
    push_cast
    linarith
  exact Nat.lt_succ_iff.mp (by exact_mod_cast hlt)

theorem length_planned_eq_iff (h : numslots ≤ tot) (hpos : 0 < tot)
    (htot : ((s :: sources).map fun s => (infos.slots s).card).sum = tot) :
    (planned infos numslots tot 0 (s :: sources)).length = numslots ↔
      (sources.map fun s => Int.fract (share numslots tot (infos.slots s).card)).sum < 1 := by
  have hlen := length_planned h hpos htot
  have hle := Int.le_ceil (share numslots tot (infos.slots s).card)
  have hceil := Int.ceil_lt_add_one (share numslots tot (infos.slots s).card)
  refine ⟨fun heq => ?_, fun hlt => ?_⟩
  · rw [heq] at hlen
    linarith
  · have hgt : ((numslots : ℕ) : ℚ) <
        ((planned infos numslots tot 0 (s :: sources)).length + 1 : ℕ) := by
      push_cast
      linarith
    exact (length_planned_le h hpos htot).antisymm (Nat.lt_succ_iff.mp (by exact_mod_cast hgt))

end Planned

/-! ## The plan -/

section Plan

variable {sort : List (ClusterNode η κ) → List (ClusterNode η κ)} {infos : Infos η κ}
  {sources : List (ClusterNode η κ)} {numslots : ℕ}

/-- The limit of the loop cuts nothing off. -/
theorem computeReshardTable_eq (hperm : ∀ l, (sort l).Perm l) (hpos : 0 < numslots)
    (hnum : numslots ≤ (sources.map fun s => (infos.slots s).card).sum) :
    computeReshardTable sort infos sources numslots = planned infos numslots
      (sources.map fun s => (infos.slots s).card).sum 0 (sort sources) := by
  have htot := ((hperm sources).map fun s => (infos.slots s).card).sum_eq
  rw [computeReshardTable, htot]
  cases hsort : sort sources with
  | nil => rfl
  | cons s rest =>
    rw [hsort] at htot
    exact reshardLoop_eq (by simpa using length_planned_le hnum (hpos.trans_le hnum) htot)

/-- The largest source comes first, so that the others are those that lose. -/
theorem losesNone_iff (hperm : ∀ l, (sort l).Perm l)
    (hsorted : ∀ l, (sort l).Pairwise fun a b => (infos.slots b).card ≤ (infos.slots a).card)
    {s : ClusterNode η κ} {rest : List (ClusterNode η κ)} (hsort : sort sources = s :: rest) :
    LosesNone infos sources numslots ↔ (rest.map fun s => Int.fract (share numslots
      (sources.map fun s => (infos.slots s).card).sum (infos.slots s).card)).sum < 1 := by
  have hmem (s' : ClusterNode η κ) : s' ∈ sources ↔ s' ∈ s :: rest := by
    rw [← hsort, (hperm sources).mem_iff]
  have hmax : ∀ s' ∈ sources, (infos.slots s').card ≤ (infos.slots s).card := by
    intro s' hs'
    obtain rfl | hrest := mem_cons.mp ((hmem s').mp hs')
    · exact le_rfl
    · have hfirst := hsorted sources
      rw [hsort] at hfirst
      exact rel_of_pairwise_cons hfirst hrest
  have hs : s ∈ sources := (hmem s).mpr mem_cons_self
  rw [LosesNone]
  generalize (sources.map fun s => (infos.slots s).card).sum = tot
  have hsum := ((hperm sources).map fun s =>
    Int.fract (share numslots tot (infos.slots s).card)).sum_eq
  rw [hsort, map_cons, sum_cons] at hsum
  refine ⟨fun h => ?_, fun h s' hs' hmax' => ?_⟩
  · have := h s hs hmax
    linarith
  · have heq : (infos.slots s').card = (infos.slots s).card := (hmax s' hs').antisymm (hmax' s hs)
    simp only [heq]
    linarith

/-- The plan is the one that is asked for if and only if the sources that round down lose less
than one slot. -/
theorem plans_iff [DecidableEq η] [DecidableEq κ] (hperm : ∀ l, (sort l).Perm l)
    (hsorted : ∀ l, (sort l).Pairwise fun a b => (infos.slots b).card ≤ (infos.slots a).card)
    (hnodup : sources.Nodup)
    (hdisjoint : sources.Pairwise fun s s' => Disjoint (infos.slots s) (infos.slots s'))
    (hpos : 1 ≤ numslots) (hnum : numslots ≤ (sources.map fun s => (infos.slots s).card).sum) :
    Plans infos sources numslots (computeReshardTable sort infos sources numslots) ↔
      LosesNone infos sources numslots := by
  have hp := hperm sources
  have htot := (hp.map fun s => (infos.slots s).card).sum_eq
  rw [computeReshardTable_eq hperm hpos hnum]
  obtain ⟨s, rest, hsort⟩ : ∃ s rest, sort sources = s :: rest := by
    refine exists_cons_of_ne_nil fun hnil => ?_
    rw [hnil, map_nil, sum_nil] at htot
    omega
  rw [losesNone_iff hperm hsorted hsort]
  have hiff := length_planned_eq_iff hnum (hpos.trans hnum) (hsort ▸ htot)
  rw [← hiff, ← hsort]
  refine ⟨Plans.length, fun hlen => ⟨hlen, fun e he => ?_, ?_, fun s' hs' => ?_⟩⟩
  · exact ⟨hp.mem_iff.mp (mem_planned he).1, (mem_planned he).2⟩
  · exact nodup_planned ((hp.pairwise_iff fun h => h.symm).mpr hdisjoint)
  · obtain ⟨j, hj⟩ := countP_planned hnum (hp.mem_iff.mpr hs') (hp.nodup_iff.mpr hnodup)
    rw [hj]
    exact abs_givenSlots_sub_le

end Plan

/-! ## Masters of one slot -/

def oneSlot : Infos ℕ ℕ := ⟨fun n => {(n.name : ℤ)}, fun _ => none⟩

theorem card_oneSlot (n : ClusterNode ℕ ℕ) : (oneSlot.slots n).card = 1 := Finset.card_singleton _

theorem plans_iff_two : Plans oneSlot [⟨0, 0⟩, ⟨1, 1⟩] 1
    (computeReshardTable id oneSlot [⟨0, 0⟩, ⟨1, 1⟩] 1) ↔ LosesNone oneSlot [⟨0, 0⟩, ⟨1, 1⟩] 1 := by
  refine plans_iff (fun l => List.Perm.refl l) (fun l => ?_) (by decide) (by decide) le_rfl
    (by decide)
  simp only [card_oneSlot, le_refl]
  exact pairwise_of_forall fun _ _ => trivial

/-- Two slots from three masters: the largest gives one, the others none. -/
theorem not_plans_three : ¬Plans oneSlot [⟨0, 0⟩, ⟨1, 1⟩, ⟨2, 2⟩] 2
    (computeReshardTable id oneSlot [⟨0, 0⟩, ⟨1, 1⟩, ⟨2, 2⟩] 2) := by
  intro h
  have hlen := h.length
  have hperm : ∀ l : List (ClusterNode ℕ ℕ), (id l).Perm l := List.Perm.refl
  rw [computeReshardTable_eq hperm (by decide) (by decide)] at hlen
  have hlost := (length_planned_eq_iff (s := ⟨0, 0⟩) (by decide) (by decide) rfl).mp hlen
  have hfract : Int.fract (2 / 3 : ℚ) = 2 / 3 := Int.fract_eq_self.mpr ⟨by norm_num, by norm_num⟩
  simp [card_oneSlot, share, hfract] at hlost
  norm_num at hlost

end Redis.Trib
