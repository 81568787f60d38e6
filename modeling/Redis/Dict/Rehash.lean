import Redis.Dict.Inv
import Redis.Bytes

/-!
# Redis.Dict.Rehash

Incremental rehashing keeps the invariant and only moves entries; within the
allocation bound it cannot fault, so the assertion at the head of its loop
holds in every reachable state.
-/

namespace Redis

open scoped List

variable {K V : Type} {ty : DictType K}
variable {d d' : Dict K V} {i : Nat}

/-- What a number of rehash steps guarantees: entries only move, and no table
becomes larger than the larger of the two. -/
structure DictRehashed (ty : DictType K) (d d' : Dict K V) : Prop extends DictMoved ty d d' where
  sizes : ∀ b, d.ht0.size ≤ b → d.ht1.size ≤ b → d'.ht0.size ≤ b ∧ d'.ht1.size ≤ b
  nonnull : d.ht0.size ≠ 0 → d'.ht0.size ≠ 0
  target : (dictTarget d').size = (dictTarget d).size

theorem DictRehashed.refl (h : DictInv ty d) : DictRehashed ty d d :=
  { DictMoved.refl h with sizes := fun _ h0 h1 => ⟨h0, h1⟩, nonnull := id, target := rfl }

theorem DictRehashed.trans {d'' : Dict K V} (h : DictRehashed ty d d')
    (h' : DictRehashed ty d' d'') : DictRehashed ty d d'' :=
  { h.toDictMoved.trans h'.toDictMoved with
    sizes := fun b h0 h1 => h'.sizes b (h.sizes b h0 h1).1 (h.sizes b h0 h1).2
    nonnull := fun h0 => h'.nonnull (h.nonnull h0)
    target := h'.target.trans h.target }

theorem DictRehashed.fits (h : DictRehashed ty d d') (hf : DictFits d) : DictFits d' :=
  h.sizes _ hf.1 hf.2

/-! ## Moving one bucket -/

variable {more : Bool} (chain : List (DictEntry K V)) (table : List (List (DictEntry K V)))
  (n emptyVisits : Nat)

/-- Moving the entries of a chain: `ht[0]` only has its counter lowered,
`ht[1]` gains exactly these entries. -/
theorem rehashChain_spec (h : chain.foldlM (dictRehashEntry ty) d = some d') (hi : HtInv ty d.ht1) :
    d'.ht0 = { d.ht0 with used := d.ht0.used - chain.length } ∧ HtInv ty d'.ht1 ∧
      d'.ht1.table.flatten.Perm (chain ++ d.ht1.table.flatten) ∧
      d'.ht1.size = d.ht1.size ∧ d'.iterators = d.iterators := by
  induction chain generalizing d with
  | nil =>
    simp only [List.foldlM_nil, Option.pure_def, Option.some.injEq] at h
    subst h
    exact ⟨rfl, hi, List.Perm.refl _, rfl, rfl⟩
  | cons de chain ih =>
    rw [List.foldlM_cons, bind_eq_some] at h
    obtain ⟨dm, hm, h⟩ := h
    rw [dictRehashEntry, bind_eq_some] at hm
    obtain ⟨c, hc, hm⟩ := hm
    obtain rfl := Option.some.inj hm
    have hi' : HtInv ty { d.ht1 with
        table := d.ht1.table.set (dictHashKey ty de.key &&& d.ht1.sizemask) (de :: c),
        used := d.ht1.used + 1 } := by
      refine hi.replace hc ?_ (by rw [List.length_cons]; omega)
      intro e he
      rcases List.mem_cons.mp he with rfl | he
      · rfl
      · exact hi.placed _ c hc e he
    obtain ⟨h0, h1, hperm, hsize, hit⟩ := ih h hi'
    refine ⟨?_, h1, ?_, hsize, hit⟩
    · rw [h0, List.length_cons, Nat.sub_sub, Nat.add_comm 1]
    · refine hperm.trans ?_
      exact ((Chains.flatten_set_cons_perm de hc).append_left chain).trans List.perm_middle

theorem rehashChain_isSome (hi : HtInv ty d.ht1) (hfit : d.ht1.size ≤ 2 ^ 60) :
    ∃ d', chain.foldlM (dictRehashEntry ty) d = some d' := by
  induction chain generalizing d with
  | nil => exact ⟨d, rfl⟩
  | cons de chain ih =>
    obtain ⟨c, hc⟩ := hi.getElem?_and_mask hfit (dictHashKey ty de.key)
    have hstep : ∃ dm, dictRehashEntry ty d de = some dm := by
      rw [dictRehashEntry, Option.bind_eq_bind, hc]
      exact ⟨_, rfl⟩
    obtain ⟨dm, hm⟩ := hstep
    -- the one-entry case of `rehashChain_spec` says the table is still sound
    have hone : [de].foldlM (dictRehashEntry ty) d = some dm := by
      rw [List.foldlM_cons, Option.bind_eq_bind, hm]; rfl
    obtain ⟨-, hi', -, hsize, -⟩ := rehashChain_spec [de] hone hi
    obtain ⟨d', hd'⟩ := ih hi' (by rw [hsize]; exact hfit)
    exact ⟨d', by rw [List.foldlM_cons, Option.bind_eq_bind, hm]; exact hd'⟩

theorem dictMoveBucket_spec (h : DictInv ty d) (hre : d.rehashidx ≠ -1)
    (hlow : ∀ j < i, ∀ c, d.ht0.table[j]? = some c → c = [])
    (hm : dictMoveBucket ty d i = some d') : DictRehashed ty d d' ∧ d'.rehashidx ≠ -1 := by
  obtain ⟨hi0, hi1⟩ := h.busy hre
  rw [dictMoveBucket, bind_eq_some] at hm
  obtain ⟨chain, hc, hm⟩ := hm
  rw [bind_eq_some] at hm
  obtain ⟨dm, hfold, hm⟩ := hm
  rw [Option.pure_def, Option.some.injEq] at hm
  obtain ⟨h0, hi1', hperm, hsize, hit⟩ := rehashChain_spec chain hfold hi1
  have hlen : chain.length ≤ d.ht0.used := by
    rw [hi0.used, ← (Chains.flatten_set_nil_perm hc).length_eq, List.length_append]
    omega
  have hi0' : HtInv ty d'.ht0 := by
    rw [← hm, h0]
    refine hi0.replace hc ?_ ?_
    · intro e he; contradiction
    · change d.ht0.used - chain.length + chain.length = d.ht0.used + 0
      omega
  have hentries : (dictEntries d').Perm (dictEntries d) := by
    have hsplit := Chains.flatten_set_nil_perm hc
    rw [← hm, dictEntries, dictEntries, h0]
    calc (d.ht0.table.set i []).flatten ++ dm.ht1.table.flatten
        _ ~ (d.ht0.table.set i []).flatten ++ (chain ++ d.ht1.table.flatten) :=
          hperm.append_left _
        _ = ((d.ht0.table.set i []).flatten ++ chain) ++ d.ht1.table.flatten :=
          (List.append_assoc _ _ _).symm
        _ ~ d.ht0.table.flatten ++ d.ht1.table.flatten :=
          (List.perm_append_comm.trans hsplit).append_right _
  have hidx : d'.rehashidx = (i : Int) + 1 := by rw [← hm]
  have hne : d'.rehashidx ≠ -1 := by omega
  refine ⟨{
    inv := {
      ht0 := Or.inr hi0'
      idle := fun hb => absurd hb hne
      busy := fun _ => ⟨hi0', by rw [← hm]; exact hi1'⟩
      nonneg := fun _ => by omega
      passed := ?_
      distinct := h.distinct.perm hentries.symm }
    perm := hentries
    iterators := by rw [← hm]; exact hit
    sizes := ?_
    nonnull := ?_
    target := ?_ }, hne⟩
  · intro _ j hj c hcj
    rw [hidx, show ((i : Int) + 1).toNat = i + 1 by omega] at hj
    rw [← hm, h0] at hcj
    by_cases hji : i = j
    · subst hji
      have hlt : i < d.ht0.table.length := (List.getElem?_eq_some_iff.mp hc).1
      rw [List.getElem?_set_self hlt, Option.some.injEq] at hcj
      exact hcj.symm
    · rw [List.getElem?_set_ne hji] at hcj
      exact hlow j (by omega) c hcj
  · intro b hb0 hb1
    rw [← hm, h0]
    exact ⟨hb0, by rw [hsize]; exact hb1⟩
  · intro _
    rw [← hm, h0]
    exact hi0.ne_reset
  · rw [dictTarget, dictTarget, if_pos (dictIsRehashing_eq_true.mpr hne),
      if_pos (dictIsRehashing_eq_true.mpr hre), ← hm]
    exact hsize

/-! ## Skipping empty buckets -/

/-- The buckets a skip steps over are empty, and the one it stops at is not. -/
theorem dictSkipEmpty_spec (r : Nat) (res : SkipResult)
    (h : dictSkipEmpty table emptyVisits r = some res)
    (hlow : ∀ j < r, ∀ c, table[j]? = some c → c = []) :
    match res with
    | .found i ev => (∀ j < i, ∀ c, table[j]? = some c → c = []) ∧
        (∃ c, table[i]? = some c ∧ c ≠ []) ∧ (0 < emptyVisits → 0 < ev)
    | .exhausted i => ∀ j < i, ∀ c, table[j]? = some c → c = [] := by
  induction emptyVisits generalizing r with
  | zero => contradiction
  | succ ev ih =>
    rw [dictSkipEmpty, bind_eq_some] at h
    obtain ⟨chain, hc, h⟩ := h
    split at h
    · next hempty =>
        have hlow' : ∀ j < r + 1, ∀ c, table[j]? = some c → c = [] := by
          intro j hj c hcj
          rcases Nat.lt_succ_iff_lt_or_eq.mp hj with hj | rfl
          · exact hlow j hj c hcj
          · rw [hc, Option.some.injEq] at hcj
            rw [← hcj]
            exact List.isEmpty_iff.mp hempty
        split at h
        · obtain rfl := Option.some.inj h
          exact hlow'
        · next hev =>
            have := ih (r + 1) h hlow'
            cases res with
            | exhausted i => exact this
            | found i ev' => exact ⟨this.1, this.2.1, fun _ => this.2.2 (by omega)⟩
    · next hne =>
        obtain rfl := Option.some.inj h
        exact ⟨hlow, ⟨chain, hc, fun hn => hne (List.isEmpty_iff.mpr hn)⟩, id⟩

theorem dictSkipEmpty_isSome {emptyVisits r : Nat} {c : List (DictEntry K V)}
    (hev : 0 < emptyVisits) (hri : r ≤ i) (hc : table[i]? = some c) (hne : c ≠ []) :
    ∃ res, dictSkipEmpty table emptyVisits r = some res := by
  induction emptyVisits generalizing r with
  | zero => contradiction
  | succ ev ih =>
    have hlt : r < table.length := Nat.lt_of_le_of_lt hri (List.getElem?_eq_some_iff.mp hc).1
    rw [dictSkipEmpty, Option.bind_eq_bind, List.getElem?_eq_getElem hlt, Option.bind_some]
    split
    · next hempty =>
        have hri' : r ≠ i := by
          rintro rfl
          rw [List.getElem?_eq_getElem hlt, Option.some.injEq] at hc
          rw [hc] at hempty
          exact hne (List.isEmpty_iff.mp hempty)
        split
        · exact ⟨_, rfl⟩
        · exact ih (by omega) (by omega)
    · exact ⟨_, rfl⟩

/-! ## `dictRehash` -/

/-- Giving up in the middle of the empty buckets only advances `rehashidx`. -/
theorem DictInv.advance (h : DictInv ty d) (hre : d.rehashidx ≠ -1)
    (hlow : ∀ j < i, ∀ c, d.ht0.table[j]? = some c → c = []) :
    DictRehashed ty d { d with rehashidx := i } where
  inv := {
    ht0 := h.ht0
    idle := fun hb => absurd hb (by change (i : Int) ≠ -1; omega)
    busy := fun _ => h.busy hre
    nonneg := fun _ => Int.natCast_nonneg i
    passed := fun _ j hj => hlow j (by simpa using hj)
    distinct := h.distinct }
  perm := List.Perm.refl _
  iterators := rfl
  sizes := fun _ h0 h1 => ⟨h0, h1⟩
  nonnull := id
  target := by
    have hne : dictIsRehashing { d with rehashidx := (i : Int) } = true :=
      dictIsRehashing_eq_true.mpr (by change (i : Int) ≠ -1; omega)
    rw [dictTarget, dictTarget, if_pos hne, if_pos (dictIsRehashing_eq_true.mpr hre)]

theorem dictRehashFinish_spec (h : DictInv ty d) (hre : d.rehashidx ≠ -1) :
    DictRehashed ty d (dictRehashFinish d).1 ∧
      (dictRehashFinish d).2 = dictIsRehashing (dictRehashFinish d).1 := by
  obtain ⟨hi0, hi1⟩ := h.busy hre
  unfold dictRehashFinish
  split
  · next hused =>
      have hnil : d.ht0.table.flatten = [] := by
        rw [hi0.used] at hused
        exact List.length_eq_zero_iff.mp hused
      have hentries : dictEntries { d with ht0 := d.ht1, ht1 := dictReset, rehashidx := -1 } =
          dictEntries d := by
        simp [dictEntries, dictReset, hnil]
      refine ⟨{
        inv := {
          ht0 := Or.inr hi1
          idle := fun _ => rfl
          busy := fun hb => absurd rfl hb
          nonneg := fun hb => absurd rfl hb
          passed := fun hb => absurd rfl hb
          distinct := by rw [hentries]; exact h.distinct }
        perm := by rw [hentries]
        iterators := rfl
        sizes := fun b _ h1 => ⟨h1, Nat.zero_le b⟩
        nonnull := fun _ => hi1.ne_reset
        target := ?_ }, rfl⟩
      rw [dictTarget, dictTarget, if_pos (dictIsRehashing_eq_true.mpr hre)]
      rfl
  · exact ⟨DictRehashed.refl h, (dictIsRehashing_eq_true.mpr hre).symm⟩

theorem dictRehashLoop_spec (h : DictInv ty d) (hre : d.rehashidx ≠ -1)
    (hl : dictRehashLoop ty n emptyVisits d = some (d', more)) :
    DictRehashed ty d d' ∧ more = dictIsRehashing d' := by
  induction n generalizing emptyVisits d with
  | zero =>
    rw [dictRehashLoop, Option.pure_def, Option.some.injEq] at hl
    have hf := dictRehashFinish_spec h hre
    rw [hl] at hf
    exact hf
  | succ n ih =>
    rw [dictRehashLoop] at hl
    split at hl
    · rw [Option.pure_def, Option.some.injEq] at hl
      have hf := dictRehashFinish_spec h hre
      rw [hl] at hf
      exact hf
    · split at hl
      · contradiction
      · rw [bind_eq_some] at hl
        obtain ⟨res, hskip, hl⟩ := hl
        have hs := dictSkipEmpty_spec _ _ _ _ hskip (h.passed hre)
        cases res with
        | exhausted i =>
          obtain ⟨rfl, rfl⟩ := Prod.mk.inj (Option.some.inj hl)
          refine ⟨h.advance hre hs, (dictIsRehashing_eq_true.mpr ?_).symm⟩
          change (i : Int) ≠ -1
          omega
        | found i ev =>
          simp only [bind_eq_some] at hl
          obtain ⟨dm, hm, hl⟩ := hl
          obtain ⟨hmoved, hre'⟩ := dictMoveBucket_spec h hre hs.1 hm
          obtain ⟨hrest, hmore⟩ := ih ev hmoved.inv hre' hl
          exact ⟨hmoved.trans hrest, hmore⟩

theorem dictRehashLoop_isSome (h : DictInv ty d) (hre : d.rehashidx ≠ -1) (hf : DictFits d)
    (hev : 0 < emptyVisits) : ∃ res, dictRehashLoop ty n emptyVisits d = some res := by
  induction n generalizing emptyVisits d with
  | zero => exact ⟨_, rfl⟩
  | succ n ih =>
    obtain ⟨hi0, hi1⟩ := h.busy hre
    rw [dictRehashLoop]
    split
    · exact ⟨_, rfl⟩
    · next hused =>
        have hflat : d.ht0.table.flatten ≠ [] := by
          intro hn
          rw [hi0.used, hn] at hused
          exact hused rfl
        -- some bucket at or above `rehashidx` still holds entries
        obtain ⟨i, c, hri, hc, hne⟩ := Chains.exists_nonempty_ge (h.passed hre) hflat
        have hlt : i < d.ht0.size := by
          rw [← zcallocSlots_eq hf.1, ← hi0.length]
          exact (List.getElem?_eq_some_iff.mp hc).1
        rw [if_neg (by omega)]
        obtain ⟨res, hskip⟩ := dictSkipEmpty_isSome d.ht0.table hev hri hc hne
        have hs := dictSkipEmpty_spec _ _ _ _ hskip (h.passed hre)
        rw [hskip, some_bind]
        cases res with
        | exhausted i => exact ⟨_, rfl⟩
        | found i ev =>
          obtain ⟨c, hc, -⟩ := hs.2.1
          obtain ⟨dm, hfold⟩ := rehashChain_isSome c hi1 hf.2
          have hm : ∃ dm, dictMoveBucket ty d i = some dm := by
            rw [dictMoveBucket, Option.bind_eq_bind, hc, Option.bind_some, hfold]
            exact ⟨_, rfl⟩
          obtain ⟨dm, hm⟩ := hm
          obtain ⟨hmoved, hre'⟩ := dictMoveBucket_spec h hre hs.1 hm
          simp only [hm, some_bind]
          exact ih ev hmoved.inv hre' (hmoved.fits hf) (hs.2.2 hev)

/-- `dictRehash` keeps the invariant, only moves entries, and reports whether
the rehash is still in progress. -/
theorem dictRehash_spec {n : Nat} (h : DictInv ty d) (hr : dictRehash ty d n = some (d', more)) :
    DictRehashed ty d d' ∧ more = dictIsRehashing d' := by
  rw [dictRehash] at hr
  cases hre : dictIsRehashing d with
  | false =>
    simp only [hre, Bool.not_false, if_true, Option.pure_def, Option.some.injEq,
      Prod.mk.injEq] at hr
    obtain ⟨rfl, rfl⟩ := hr
    exact ⟨DictRehashed.refl h, hre.symm⟩
  | true =>
    simp only [hre, Bool.not_true, Bool.false_eq_true, if_false] at hr
    exact dictRehashLoop_spec n (n * 10) h (dictIsRehashing_eq_true.mp hre) hr

/-- Within the allocation bound the assertion of `dictRehash` holds and all
its accesses are inside the tables. -/
theorem dictRehash_isSome (h : DictInv ty d) (hf : DictFits d) :
    ∃ res, dictRehash ty d n = some res := by
  rw [dictRehash]
  cases hre : dictIsRehashing d with
  | false => exact ⟨_, rfl⟩
  | true =>
    simp only [Bool.not_true, Bool.false_eq_true, if_false]
    cases n with
    | zero => exact ⟨_, rfl⟩
    | succ n =>
      exact dictRehashLoop_isSome _ _ h (dictIsRehashing_eq_true.mp hre) hf (by omega)

theorem dictRehashStepIfNeeded_spec (h : DictInv ty d)
    (hr : dictRehashStepIfNeeded ty d = some d') : DictRehashed ty d d' := by
  unfold dictRehashStepIfNeeded dictRehashStep at hr
  split at hr
  · split at hr
    · rw [Option.map_eq_some_iff] at hr
      obtain ⟨⟨dr, more⟩, hr, rfl⟩ := hr
      exact (dictRehash_spec h hr).1
    · obtain rfl := Option.some.inj hr
      exact DictRehashed.refl h
  · obtain rfl := Option.some.inj hr
    exact DictRehashed.refl h

theorem dictRehashStepIfNeeded_isSome (h : DictInv ty d) (hf : DictFits d) :
    ∃ d', dictRehashStepIfNeeded ty d = some d' := by
  unfold dictRehashStepIfNeeded dictRehashStep
  split
  · split
    · obtain ⟨res, hres⟩ := dictRehash_isSome 1 h hf
      exact ⟨res.1, by rw [hres]; rfl⟩
    · exact ⟨d, rfl⟩
  · exact ⟨d, rfl⟩

end Redis
