import Redis.Dict.Scan

/-!
# Redis.Dict.Enumerate

An iteration of `dictScan` over a dict that does not change.  The cursors are the numbers below
the size of the smaller table in the reversed order, each of them once, and a call passes the
bucket of the cursor and, during a rehash, the buckets of the larger table that it expands to.
-/

namespace Redis

open List Nat

variable {K V : Type} {ty : DictType K}

open scoped List

/-! ## The model -/

/-- Calls of `dictScan` from the cursor `v` on until one returns 0: what is passed to the callback,
and the number of the calls. -/
def dictScanAll (d : Dict K V) : (fuel : Nat) → Cursor → Option (List (DictEntry K V) × Nat)
  | 0, _ => none
  | fuel + 1, v => do
    let (em, v) ← dictScan d v
    if v = 0 then return (em, 1)
    else
      let (rest, calls) ← dictScanAll d fuel v
      return (em ++ rest, calls + 1)

/-- The size of the smaller table, or of the only one. -/
def scanCalls (d : Dict K V) : Nat :=
  if dictIsRehashing d then min d.ht0.size d.ht1.size else d.ht0.size

/-! ## Buckets -/

def bucket (t : Dictht K V) (i : Nat) : List (DictEntry K V) := (t.table[i]?).getD []

theorem flatten_eq_flatMap_bucket (t : Dictht K V) :
    t.table.flatten = (range t.table.length).flatMap (bucket t) := by
  have hmap : (range t.table.length).map (bucket t) = t.table := by
    refine ext_getElem (by simp) fun i hi hi' => ?_
    simp [bucket, getElem?_eq_getElem hi']
  rw [flatMap_def, hmap]

variable {a : Nat} {d : Dict K V}

theorem scanEmit_eq {t : Dictht K V} (h : HtInv ty t) (hfit : t.size ≤ 2 ^ 60)
    (ha : t.size = 2 ^ a) (ha63 : a ≤ 63) (v : Cursor) :
    scanEmit t v = some (bucket t (v.toNat % 2 ^ a)) := by
  have hlt : v.toNat % 2 ^ a < t.table.length := by
    rw [h.length, zcallocSlots_eq hfit, ha]
    exact mod_lt _ (Nat.two_pow_pos a)
  rw [scanEmit, h.scanMask_eq ha, toNat_and_lowMask v ha63, bucket,
    getElem?_eq_getElem hlt, Option.getD_some]

/-- The numbers below `N * M`, by their remainders. -/
theorem range_perm_residues {N : Nat} (hN : 0 < N) (M : Nat) :
    ((range N).flatMap fun r => (range M).map fun i => r + i * N).Perm
      (range (N * M)) := by
  have hdiv {r i : Nat} (hr : r < N) : (r + i * N) / N = i ∧ (r + i * N) % N = r := by
    rw [add_mul_div_right _ _ hN, add_mul_mod_self_right, div_eq_of_lt hr,
      mod_eq_of_lt hr, Nat.zero_add]
    exact ⟨rfl, rfl⟩
  refine (perm_ext_iff_of_nodup ?_ nodup_range).mpr fun j => ?_
  · rw [nodup_flatMap]
    constructor
    · intro r hr
      refine Nodup.map_on (fun i _ i' _ heq => ?_) nodup_range
      have hr := mem_range.mp hr
      rw [← (hdiv hr (i := i)).1, heq, (hdiv hr).1]
    · refine Pairwise.imp_of_mem ?_ nodup_range
      intro r r' hr hr' hne j hj hj'
      obtain ⟨i, -, rfl⟩ := mem_map.mp hj
      obtain ⟨i', -, heq⟩ := mem_map.mp hj'
      have hmod := (hdiv (mem_range.mp hr') (i := i')).2
      rw [heq, (hdiv (mem_range.mp hr)).2] at hmod
      exact hne hmod
  · simp only [mem_flatMap, mem_range, mem_map]
    constructor
    · rintro ⟨r, hr, i, hi, rfl⟩
      have hmul : (i + 1) * N ≤ M * N := Nat.mul_le_mul_right _ hi
      rw [Nat.mul_comm N M]
      rw [succ_mul] at hmul
      omega
    · intro hj
      refine ⟨j % N, mod_lt _ hN, j / N, Nat.div_lt_of_lt_mul hj, ?_⟩
      rw [Nat.mul_comm]
      exact mod_add_div j N

/-! ## One call -/

/-- The walk over the larger table passes each expansion from the cursor's own bucket on once. -/
theorem scanExpansions_exact {t1 : Dictht K V} (h1 : HtInv ty t1) (hfit : t1.size ≤ 2 ^ 60)
    {b r i : Nat} (hab : a ≤ b) (hb : t1.size = 2 ^ b) (hb63 : b ≤ 63) (hr : r < 2 ^ a)
    (hi : i < 2 ^ (b - a)) (fuel : Nat) (hfuel : 2 ^ (b - a) - i ≤ fuel) {v : Cursor}
    (hv : v.toNat = r + i * 2 ^ a) :
    ∃ v', scanExpansions t1 (BitVec.ofNat 64 (2 ^ a - 1)) fuel v =
        some ((range' i (2 ^ (b - a) - i)).flatMap fun j => bucket t1 (r + j * 2 ^ a), v') ∧
      v'.toNat % 2 ^ a = r := by
  have ha63 : a ≤ 63 := hab.trans hb63
  have hpow : 2 ^ (b - a) * 2 ^ a = 2 ^ b := by rw [← Nat.pow_add, Nat.sub_add_cancel hab]
  have hb64 : 2 ^ b ≤ 2 ^ 63 := Nat.pow_le_pow_right (by decide) hb63
  induction fuel generalizing i v with
  | zero => omega
  | succ fuel ih =>
    have hmul : (i + 1) * 2 ^ a ≤ 2 ^ b := hpow ▸ Nat.mul_le_mul_right _ hi
    rw [succ_mul] at hmul
    have hvb : v.toNat % 2 ^ b = r + i * 2 ^ a := by
      rw [hv]
      exact mod_eq_of_lt (by omega)
    have hnext := toNat_scanNextExpansion v ha63
    rw [hv, mod_eq_of_lt (by omega)] at hnext
    have hnext' : (scanNextExpansion (BitVec.ofNat 64 (2 ^ a - 1)) v).toNat =
        r + (i + 1) * 2 ^ a := by
      rw [hnext, succ_mul]
      omega
    have hlow : (scanNextExpansion (BitVec.ofNat 64 (2 ^ a - 1)) v).toNat % 2 ^ a = r := by
      rw [hnext', add_mul_mod_self_right, mod_eq_of_lt hr]
    have hrange : range' i (2 ^ (b - a) - i) =
        i :: range' (i + 1) (2 ^ (b - a) - (i + 1)) := by
      rw [← range'_succ]
      congr 1
      omega
    rw [scanExpansions, scanEmit_eq h1 hfit hb hb63, hvb, hrange, flatMap_cons]
    simp only [some_bind, h1.scanMask_eq hb, ne_eq, and_xor_masks_eq_zero_iff _ ha63 hb63, hlow]
    by_cases hlast : i + 1 < 2 ^ (b - a)
    · have hmul' : (i + 2) * 2 ^ a ≤ 2 ^ b := hpow ▸ Nat.mul_le_mul_right _ hlast
      have hmore : r ≠ (scanNextExpansion (BitVec.ofNat 64 (2 ^ a - 1)) v).toNat % 2 ^ b := by
        have hpos := Nat.two_pow_pos a
        rw [hnext', mod_eq_of_lt (by rw [succ_mul] at hmul'; omega), succ_mul]
        omega
      obtain ⟨v', hrest, hv'⟩ := ih hlast (by omega) hnext'
      rw [if_pos hmore, hrest]
      exact ⟨v', rfl, hv'⟩
    · obtain hend : i + 1 = 2 ^ (b - a) := by omega
      have hstop : r = (scanNextExpansion (BitVec.ofNat 64 (2 ^ a - 1)) v).toNat % 2 ^ b := by
        have hlt : r < 2 ^ b := hr.trans_le (Nat.pow_le_pow_right (by decide) hab)
        rw [hnext', hend, hpow, add_mod_right, mod_eq_of_lt hlt]
      rw [if_neg (not_not.mpr hstop), hend]
      exact ⟨_, by simp, hlow⟩

/-- What a call with a cursor below the size `2 ^ a` of the smaller table passes. -/
structure Visits (d : Dict K V) (a : Nat) (visit : Nat → List (DictEntry K V)) : Prop where
  le : a ≤ 63
  call : ∀ v : Cursor, v.toNat < 2 ^ a →
    ∃ v', dictScan d v = some (visit v.toNat, scanAdvance (BitVec.ofNat 64 (2 ^ a - 1)) v') ∧
      v'.toNat % 2 ^ a = v.toNat
  entries : ((range (2 ^ a)).flatMap visit).Perm (dictEntries d)

/-- With one table a call passes the bucket of the cursor. -/
theorem visits_idle (h : DictInv ty d) (hf : DictFits d) (hne : dictSize d ≠ 0)
    (hre : dictIsRehashing d = false) (ha : d.ht0.size = 2 ^ a) (ha63 : a ≤ 63)
    (h0 : HtInv ty d.ht0) : Visits d a (bucket d.ht0) where
  le := ha63
  call v hv := by
    refine ⟨v, ?_, mod_eq_of_lt hv⟩
    rw [dictScan, if_neg hne]
    simp only [hre, Bool.not_false, if_true, scanEmit_eq h0 hf.1 ha ha63, h0.scanMask_eq ha,
      mod_eq_of_lt hv, some_bind]
    rfl
  entries := by
    have h1 := h.idle (dictIsRehashing_eq_false.mp hre)
    rw [dictEntries, h1, flatten_eq_flatMap_bucket d.ht0, h0.length, zcallocSlots_eq hf.1, ha]
    simp [dictReset]

/-- During a rehash it passes the bucket in the smaller table and its expansions in the larger
one. -/
theorem visits_busy (h : DictInv ty d) (hf : DictFits d) (hne : dictSize d ≠ 0)
    (hre : dictIsRehashing d = true) :
    ∃ a visit, min d.ht0.size d.ht1.size = 2 ^ a ∧ Visits d a visit := by
  obtain ⟨h0, h1, hsize, -⟩ := h.scanTables hre
  have hfits : (scanTables d).1.size ≤ 2 ^ 60 ∧ (scanTables d).2.size ≤ 2 ^ 60 ∧
      min d.ht0.size d.ht1.size = (scanTables d).1.size ∧
      ((scanTables d).1.table.flatten ++ (scanTables d).2.table.flatten).Perm (dictEntries d) := by
    unfold scanTables dictEntries
    split
    next hgt => exact ⟨hf.2, hf.1, min_eq_right (Nat.le_of_lt hgt), perm_append_comm⟩
    next hle => exact ⟨hf.1, hf.2, min_eq_left (Nat.not_lt.mp hle), List.Perm.refl _⟩
  obtain ⟨hfit0, hfit1, hmin, hentries⟩ := hfits
  obtain ⟨a, ha, ha63⟩ := h0.size_pow
  obtain ⟨b, hb, hb63⟩ := h1.size_pow
  have hab : a ≤ b := by
    rw [ha, hb] at hsize
    exact (Nat.pow_le_pow_iff_right (by decide : 1 < 2)).mp hsize
  refine ⟨a, fun r => bucket (scanTables d).1 r ++
    (range (2 ^ (b - a))).flatMap fun i => bucket (scanTables d).2 (r + i * 2 ^ a),
    hmin.trans ha, ha63, fun v hv => ?_, ?_⟩
  · obtain ⟨v', hexp, hv'⟩ := scanExpansions_exact h1 hfit1 hab hb hb63 hv
      (Nat.two_pow_pos (b - a)) (scanTables d).2.size
      (by rw [hb]; exact (sub_le _ _).trans (Nat.pow_le_pow_right (by decide) (sub_le _ _)))
      (v := v) (by rw [Nat.zero_mul, Nat.add_zero])
    refine ⟨v', ?_, hv'⟩
    rw [dictScan, if_neg hne]
    simp only [hre, Bool.not_true, Bool.false_eq_true, if_false, scanEmit_eq h0 hfit0 ha ha63,
      h0.scanMask_eq ha, hexp, mod_eq_of_lt hv, some_bind,
      Nat.sub_zero, ← range_eq_range']
    rfl
  · have hpow : 2 ^ a * 2 ^ (b - a) = 2 ^ b := by rw [← Nat.pow_add, Nat.add_sub_cancel' hab]
    have hsmall : (range (2 ^ a)).flatMap (bucket (scanTables d).1) =
        (scanTables d).1.table.flatten := by
      rw [flatten_eq_flatMap_bucket, h0.length, zcallocSlots_eq hfit0, ha]
    have hlarge : ((range (2 ^ a)).flatMap fun r => (range (2 ^ (b - a))).flatMap
        fun i => bucket (scanTables d).2 (r + i * 2 ^ a)).Perm (scanTables d).2.table.flatten := by
      have hp := (range_perm_residues (Nat.two_pow_pos a) (2 ^ (b - a))).flatMap_right
        (bucket (scanTables d).2)
      rw [flatMap_assoc, hpow] at hp
      simp only [flatMap_map] at hp
      rw [flatten_eq_flatMap_bucket (scanTables d).2, h1.length, zcallocSlots_eq hfit1, hb]
      exact hp
    refine (flatMap_append_perm _ _ _).symm.trans ?_
    rw [hsmall]
    exact (hlarge.append_left _).trans hentries

/-! ## Iterations -/

/-- From the `k`-th cursor on every later one is used once, and then 0 is returned. -/
theorem dictScanAll_nth {visit : Nat → List (DictEntry K V)} (h : Visits d a visit) {n k : Nat}
    (hk : k + (n + 1) = 2 ^ a) :
    dictScanAll d (n + 1) (BitReverse.nth 64 a k) =
      some ((range' k (n + 1)).flatMap fun i => visit (BitReverse.nth 64 a i).toNat,
        n + 1) := by
  have ha : a ≤ 64 := h.le.trans (by decide)
  induction n generalizing k with
  | zero =>
    obtain ⟨v', hcall, hv'⟩ := h.call _ (BitReverse.toNat_nth_lt 64 a k)
    have hnext : scanAdvance (BitVec.ofNat 64 (2 ^ a - 1)) v' = 0 := by
      rw [scanAdvance_eq, BitReverse.reverse_succ_nth ha (show k < 2 ^ a by omega)
        (by rw [hv', mod_eq_of_lt (BitReverse.toNat_nth_lt 64 a k)]), hk,
        BitReverse.nth_two_pow ha]
    simp [dictScanAll, hcall, hnext]
  | succ n ih =>
    obtain ⟨v', hcall, hv'⟩ := h.call _ (BitReverse.toNat_nth_lt 64 a k)
    have hnext : scanAdvance (BitVec.ofNat 64 (2 ^ a - 1)) v' = BitReverse.nth 64 a (k + 1) := by
      rw [scanAdvance_eq, BitReverse.reverse_succ_nth ha (show k < 2 ^ a by omega)
        (by rw [hv', mod_eq_of_lt (BitReverse.toNat_nth_lt 64 a k)])]
    have hne : BitReverse.nth 64 a (k + 1) ≠ 0 := by
      intro heq
      rw [← BitReverse.nth_zero 64 a] at heq
      have := BitReverse.nth_injective ha (by omega) (Nat.two_pow_pos a) heq
      omega
    rw [dictScanAll, hcall]
    simp only [some_bind, hnext, hne, if_false, ih (show k + 1 + (n + 1) = 2 ^ a by omega)]
    rw [range'_succ (s := k), flatMap_cons]
    rfl

theorem dictScanAll_of_ne (h : DictInv ty d) (hf : DictFits d) (hne : dictSize d ≠ 0) :
    ∃ em, dictScanAll d (scanCalls d) 0 = some (em, scanCalls d) ∧ em.Perm (dictEntries d) := by
  have hvisits : ∃ a visit, scanCalls d = 2 ^ a ∧ Visits d a visit := by
    rw [scanCalls]
    cases hre : dictIsRehashing d with
    | true =>
      simp only [if_true]
      exact visits_busy h hf hne hre
    | false =>
      have h0 : HtInv ty d.ht0 := by
        rcases h.ht0 with hr | hi
        · rw [dictSize, h.idle (dictIsRehashing_eq_false.mp hre), hr] at hne
          exact absurd rfl hne
        · exact hi
      obtain ⟨a, ha, ha63⟩ := h0.size_pow
      simp only [Bool.false_eq_true, if_false]
      exact ⟨a, _, ha, visits_idle h hf hne hre ha ha63 h0⟩
  obtain ⟨a, visit, hcalls, hv⟩ := hvisits
  obtain ⟨n, hn⟩ : ∃ n, 2 ^ a = n + 1 := ⟨2 ^ a - 1, by have := Nat.two_pow_pos a; omega⟩
  have hall := dictScanAll_nth hv (n := n) (k := 0) (by omega)
  rw [BitReverse.nth_zero, ← hn, ← range_eq_range'] at hall
  rw [hcalls]
  refine ⟨_, hall, ?_⟩
  have hp := (BitReverse.map_nth_perm (hv.le.trans (by decide : 63 ≤ 64))).flatMap_right visit
  rw [flatMap_map] at hp
  exact hp.trans hv.entries

/-- **Exact enumeration.**  An iteration over a dict that does not change passes every entry once,
and takes as many calls as the smaller table has buckets; a dict without entries takes one. -/
theorem dictScanAll_exact {d : Dict K V} (h : DictInv ty d) (hf : DictFits d) :
    ∃ em calls, calls = (if dictSize d = 0 then 1 else scanCalls d) ∧
      dictScanAll d calls 0 = some (em, calls) ∧ em.Perm (dictEntries d) := by
  by_cases hzero : dictSize d = 0
  · refine ⟨[], 1, by rw [if_pos hzero], ?_, ?_⟩
    · simp [dictScanAll, dictScan, hzero]
    · rw [dictSize_eq h, length_eq_zero_iff] at hzero
      rw [hzero]
  · obtain ⟨em, hall, hperm⟩ := dictScanAll_of_ne h hf hzero
    exact ⟨em, _, by rw [if_neg hzero], hall, hperm⟩

theorem dictInv_growingDict : DictInv natDictType growingDict := by
  have hb : RunBounded natDictType oneKeyDict [(true, .expand 8)] :=
    ⟨show 8 < LONG_MAX by decide, fun _ _ _ => trivial⟩
  exact (dictRun_keeps [(true, .expand 8)] dictInv_oneKeyDict hb
    (show _ = some (growingDict, [.layout true]) by rfl)).1

/-- In the middle of a rehash from four to eight buckets. -/
theorem dictScanAll_exact_growing :
    ∃ em calls, calls = 4 ∧ dictScanAll growingDict calls 0 = some (em, calls) ∧
      em.Perm [⟨1, 10⟩] := by
  obtain ⟨em, calls, hcalls, hall, hperm⟩ := dictScanAll_exact dictInv_growingDict
    (show DictFits growingDict from ⟨by decide, by decide⟩)
  exact ⟨em, calls, hcalls.trans (by decide), hall, hperm⟩

/-- A table of four buckets whose only key was deleted. -/
def emptiedDict : Dict Nat Nat := ⟨⟨[[], [], [], []], 4, 3, 0⟩, dictReset, -1, 0⟩

/-- With no entries the first call returns 0 already, however many buckets there are. -/
theorem dictScanAll_emptied :
    DictInv natDictType emptiedDict ∧ DictFits emptiedDict ∧ scanCalls emptiedDict = 4 ∧
      dictScanAll emptiedDict 4 0 = some ([], 1) := by
  have hb : RunBounded natDictType oneKeyDict [(true, .delete 1)] :=
    ⟨trivial, fun _ _ _ => trivial⟩
  refine ⟨?_, ⟨by decide, by decide⟩, by decide, by decide⟩
  exact (dictRun_keeps [(true, .delete 1)] dictInv_oneKeyDict hb
    (show _ = some (emptiedDict, [.status true]) by rfl)).1

end Redis
