import Redis.Skiplist.Inv

/-!
# Redis.Skiplist.Query

What is asked of a skiplist.  The towers a test holds for are in front of those it does
not hold for, so that their number is the position where a descent ends; the ranks are
these positions.
-/

namespace Redis.Skiplist

open List Option Nat Bool

variable {S : Type}
variable {q p : Nat} {t a b : Tower S}

/-! ## Cuts -/

/-- A test that holds only behind what it holds for already: it holds up to a position. -/
theorem test_eq {α : Type} {p : α → Bool} {ts : List α} (h : ts.Pairwise fun a b => p b → p a)
    {t : α} (ht : ts[q]? = some t) : p t = decide (q + 1 ≤ ts.countP p) := by
  induction ts generalizing q with
  | nil => cases ht
  | cons u ts ih =>
    obtain ⟨hu, hts⟩ := pairwise_cons.mp h
    have hnone : p u = false → ts.countP p = 0 := fun hfalse =>
      countP_eq_zero.mpr fun a ha hpa => by rw [hu a ha hpa] at hfalse; cases hfalse
    cases q with
    | zero =>
      obtain rfl := Option.some.inj ht
      cases hp : p u with
      | false => rw [countP_cons_of_neg (by rw [hp]; decide), hnone hp]; rfl
      | true => rw [countP_cons_of_pos hp]; exact (decide_eq_true (by omega)).symm
    | succ q =>
      rw [ih hts ht]
      cases hp : p u with
      | false => rw [countP_cons_of_neg (by rw [hp]; decide), hnone hp]; rfl
      | true => rw [countP_cons_of_pos hp]; exact decide_eq_decide.mpr (by omega)

theorem filter_eq_take_drop {α : Type} {p : α → Bool} {ts : List α} {k m : Nat}
    (h : ∀ q t, ts[q]? = some t → p t = decide (k ≤ q ∧ q < m)) :
    ts.filter p = (ts.take m).drop k := by
  induction ts generalizing k m with
  | nil => simp
  | cons t ts ih =>
    have ht := h 0 t rfl
    have hts : ts.filter p = (ts.take (m - 1)).drop (k - 1) := ih fun q u hu => by
      rw [h (q + 1) u hu]
      exact decide_eq_decide.mpr (by omega)
    rw [filter_cons, ht, hts]
    cases m with
    | zero => simp
    | succ m => cases k with
      | zero => simp
      | succ k => simp

/-! ## Ranges -/

/-- What a range tests of the nodes, as tests of the towers. -/
structure ZslRange.Tests (range : ZslRange S) (zsl : Zskiplist S) (ts : List (Tower S))
    (gteMin lteMax : Tower S → Bool) : Prop where
  gte : ∀ (q : Nat) t nd, ts[q]? = some t → zsl.node t.addr = some nd → range.gteMin nd = some (gteMin t)
  lte : ∀ (q : Nat) t nd, ts[q]? = some t → zsl.node t.addr = some nd → range.lteMax nd = some (lteMax t)
  up : ts.Pairwise fun a b => gteMin a → gteMin b
  down : ts.Pairwise fun a b => lteMax b → lteMax a
  empty : range.empty = true → ∀ t ∈ ts, (gteMin t && lteMax t) = false

section Ranges

variable [LinearOrder S] {zsl : Zskiplist S} {ts : List (Tower S)} {range : ZslRange S}
  {gteMin lteMax : Tower S → Bool}

omit [LinearOrder S] in
/-- The towers below the minimum are those up to a position. -/
theorem ZslRange.Tests.gteMin_eq (h : range.Tests zsl ts gteMin lteMax) (ht : ts[q]? = some t) :
    (!gteMin t) = decide (q + 1 ≤ ts.countP (!gteMin ·)) := by
  refine test_eq (p := (!gteMin ·)) (h.up.imp fun hab hb => ?_) ht
  cases ha : gteMin _ with
  | false => rfl
  | true => rw [hab ha] at hb; cases hb

omit [LinearOrder S] in
/-- The towers up to the maximum are those up to a position. -/
theorem ZslRange.Tests.lteMax_eq (h : range.Tests zsl ts gteMin lteMax) (ht : ts[q]? = some t) :
    lteMax t = decide (q + 1 ≤ ts.countP lteMax) :=
  test_eq h.down ht

omit [LinearOrder S] in
theorem ZslRange.Tests.filter_eq (h : range.Tests zsl ts gteMin lteMax) :
    ts.filter (fun t => gteMin t && lteMax t) =
      (ts.take (ts.countP lteMax)).drop (ts.countP (!gteMin ·)) := by
  refine filter_eq_take_drop fun q t ht => ?_
  rw [← not_not (gteMin t), h.gteMin_eq ht, h.lteMax_eq ht, ← decide_not, ← decide_and]
  exact decide_eq_decide.mpr (by omega)

theorem Inv.forward_zero (h : Inv zsl ts) (p : Nat) :
    (link (ts.drop p) 0).forward = ts[p]?.map Tower.addr := by
  rcases Nat.lt_or_ge p ts.length with hlt | hge
  · rw [drop_eq_getElem_cons hlt, link, if_pos (h.heights _ (getElem_mem hlt)).1,
      getElem?_eq_getElem hlt]
    rfl
  · rw [drop_of_length_le hge, getElem?_eq_none hge]
    rfl

theorem Inv.zslNext_at (h : Inv zsl ts) (hp : p ≤ ts.length) :
    zslNext zsl (addrAt zsl ts p) = some (ts[p]?.map Tower.addr) := by
  have htall : Tall zsl ts p 0 := by
    cases p with
    | zero => exact h.level.1
    | succ q => exact ⟨ts[q], getElem?_eq_getElem hp, (h.heights _ (getElem_mem hp)).1⟩
  obtain ⟨nd, hnd, hlevel⟩ := h.level_at htall
  rw [zslNext, hnd, some_bind, hlevel, some_bind, h.forward_zero]
  rfl

theorem Inv.node_at (h : Inv zsl ts) (ht : ts[q]? = some t) :
    ∃ nd, zsl.node t.addr = some nd ∧ nd.obj = some t.obj ∧ nd.score = t.score := by
  obtain ⟨nd, hnd, hobj, hscore, -⟩ := h.node q t ht
  exact ⟨nd, hnd, hobj, hscore⟩

theorem zslIsIn_eq (h : Inv zsl ts) (hrange : range.Tests zsl ts gteMin lteMax) :
    zslIsIn zsl range =
      some (!range.empty && (ts.getLast?.any gteMin && ts.head?.any lteMax)) := by
  rw [zslIsIn]
  cases hempty : range.empty with
  | true => rfl
  | false =>
    rw [h.tail, getLast?_eq_getElem?, head?_eq_getElem?]
    cases hlast : ts[ts.length - 1]? with
    | none => rfl
    | some last =>
      obtain ⟨nd, hnd, -⟩ := h.node_at hlast
      have hhead : ∃ t, ts[0]? = some t :=
        ⟨_, getElem?_eq_getElem (by have := (List.getElem?_eq_some_iff.mp hlast).1; omega)⟩
      obtain ⟨t, ht⟩ := hhead
      obtain ⟨first, hfirst, -⟩ := h.node_at ht
      have hnext : zslNext zsl zsl.header = some (some t.addr) := by
        have hnext := h.zslNext_at (Nat.zero_le _)
        rw [ht] at hnext
        exact hnext
      have hgte := hrange.gte _ _ _ hlast hnd
      have hlte := hrange.lte _ _ _ ht hfirst
      simp only [map_some, hnd, hgte, hnext, hfirst, hlte, some_bind]
      cases hlt : gteMin last <;> simp [ht, hlt]

omit [LinearOrder S] in
/-- Out of a range that is not passed on there is no tower. -/
theorem filter_eq_nil (hrange : range.Tests zsl ts gteMin lteMax)
    (hout : (!range.empty && (ts.getLast?.any gteMin && ts.head?.any lteMax)) = false) :
    ts.filter (fun t => gteMin t && lteMax t) = [] := by
  refine filter_eq_nil_iff.mpr fun t ht hboth => ?_
  obtain ⟨q, ht⟩ := mem_iff_getElem?.mp ht
  have hq : q < ts.length := (List.getElem?_eq_some_iff.mp ht).1
  obtain ⟨hgte, hlte⟩ := and_eq_true_iff.mp hboth
  -- the last tower is not below the minimum, and the first is not above the maximum
  have hlast : gteMin ts[ts.length - 1] = true := by
    have hcut := hrange.gteMin_eq ht
    have hcut' := hrange.gteMin_eq (getElem?_eq_getElem (show ts.length - 1 < ts.length by omega))
    rw [hgte] at hcut
    have hle : ¬ q + 1 ≤ ts.countP (!gteMin ·) := of_decide_eq_false hcut.symm
    rw [decide_eq_false (by omega)] at hcut'
    simpa using hcut'
  have hfirst : lteMax ts[0] = true := by
    have hcut := hrange.lteMax_eq ht
    rw [hlte] at hcut
    have hle : q + 1 ≤ ts.countP lteMax := of_decide_eq_true hcut.symm
    rw [hrange.lteMax_eq (getElem?_eq_getElem (zero_lt_of_lt hq)), decide_eq_true_eq]
    omega
  rw [getLast?_eq_getElem?, getElem?_eq_getElem (by omega), head?_eq_getElem?,
    getElem?_eq_getElem (by omega), any_some, any_some, hlast, hfirst] at hout
  cases hempty : range.empty with
  | false => rw [hempty] at hout; cases hout
  | true => rw [hrange.empty hempty t (mem_of_getElem? ht)] at hboth; cases hboth

/-- The first member of a range is found, and there is none where nothing is found. -/
theorem zslFirstIn_spec (h : Inv zsl ts) (hrange : range.Tests zsl ts gteMin lteMax) :
    zslFirstIn zsl range =
      some ((ts.filter fun t => gteMin t && lteMax t).head?.map Tower.addr) := by
  rw [zslFirstIn, zslIsIn_eq h hrange]
  cases hin : !range.empty && (ts.getLast?.any gteMin && ts.head?.any lteMax) with
  | false =>
    rw [filter_eq_nil hrange hin]
    rfl
  | true =>
    have hgo : ∀ q t nd, ts[q]? = some t → zsl.node t.addr = some nd →
        (range.gteMin nd).map (!·) = some (decide (q + 1 ≤ ts.countP (!gteMin ·))) := by
      intro q t nd ht hnd
      rw [hrange.gte q t nd ht hnd, map_some, hrange.gteMin_eq ht]
    have hle : ts.countP (!gteMin ·) ≤ ts.length := countP_le_length
    have hdescend := zslDescend_spec h (fun _ nd => (range.gteMin nd).map (!·)) hgo hle
    have hnext := h.zslNext_at hle
    -- the last tower is not below the minimum, so that there is a next one
    obtain ⟨t, ht⟩ : ∃ t, ts[ts.countP (!gteMin ·)]? = some t := by
      obtain ⟨-, hends⟩ := and_eq_true_iff.mp hin
      obtain ⟨last, hlast, hgte⟩ := (any_eq_true _ _).mp (and_eq_true_iff.mp hends).1
      have hlt : ts.countP (!gteMin ·) < ts.length := by
        refine Nat.lt_of_le_of_ne hle fun heq => ?_
        have := countP_eq_length.mp heq last (mem_of_getLast? hlast)
        rw [hgte] at this
        cases this
      exact ⟨_, getElem?_eq_getElem hlt⟩
    obtain ⟨nd, hnd, -⟩ := h.node_at ht
    have hlte := hrange.lte _ _ _ ht hnd
    rw [ht] at hnext
    simp only [hdescend, hnext, hnd, hlte, some_bind, map_some]
    rw [hrange.filter_eq, head?_drop, hrange.lteMax_eq ht, getElem?_take, ht]
    by_cases hlt : ts.countP (!gteMin ·) < ts.countP lteMax
    · rw [decide_eq_true (succ_le_of_lt hlt), if_pos hlt]
      rfl
    · rw [decide_eq_false fun hle => hlt (lt_of_succ_le hle), if_neg hlt]
      rfl

/-- The last member of a range is found, and there is none where nothing is found. -/
theorem zslLastIn_spec (h : Inv zsl ts) (hrange : range.Tests zsl ts gteMin lteMax) :
    zslLastIn zsl range =
      some ((ts.filter fun t => gteMin t && lteMax t).getLast?.map Tower.addr) := by
  rw [zslLastIn, zslIsIn_eq h hrange]
  cases hin : !range.empty && (ts.getLast?.any gteMin && ts.head?.any lteMax) with
  | false =>
    rw [filter_eq_nil hrange hin]
    rfl
  | true =>
    have hgo : ∀ q t nd, ts[q]? = some t → zsl.node t.addr = some nd →
        range.lteMax nd = some (decide (q + 1 ≤ ts.countP lteMax)) := by
      intro q t nd ht hnd
      rw [hrange.lte q t nd ht hnd, hrange.lteMax_eq ht]
    have hle : ts.countP lteMax ≤ ts.length := countP_le_length
    have hdescend := zslDescend_spec h (fun _ nd => range.lteMax nd) hgo hle
    -- the first tower is not above the maximum, so that the descent leaves the header
    obtain ⟨m, hm⟩ : ∃ m, ts.countP lteMax = m + 1 := by
      obtain ⟨-, hends⟩ := and_eq_true_iff.mp hin
      obtain ⟨first, hfirst, hlte⟩ := (any_eq_true _ _).mp (and_eq_true_iff.mp hends).2
      have hpos : 0 < ts.countP lteMax :=
        countP_pos_iff.mpr ⟨first, mem_of_head? hfirst, hlte⟩
      exact ⟨_, (succ_pred_eq_of_pos hpos).symm⟩
    obtain ⟨t, ht⟩ : ∃ t, ts[m]? = some t := ⟨_, getElem?_eq_getElem (by omega)⟩
    obtain ⟨nd, hnd, -⟩ := h.node_at ht
    have hgte := hrange.gte _ _ _ ht hnd
    have hcut := hrange.gteMin_eq ht
    rw [hm, addrAt_succ zsl ht] at hdescend
    simp only [hdescend, hnd, hgte, some_bind]
    rw [hrange.filter_eq, hm, getLast?_drop, getLast?_take, Nat.add_sub_cancel, ht,
      length_take, Nat.min_eq_left (by omega), if_neg (succ_ne_zero m), hcut]
    by_cases hlt : m + 1 ≤ ts.countP (!gteMin ·)
    · rw [decide_eq_true hlt, if_pos hlt]
      rfl
    · rw [decide_eq_false hlt, if_neg hlt]
      rfl

end Ranges

/-! ## Ranges of scores -/

section Scores

variable [LinearOrder S] {zsl : Zskiplist S} {ts : List (Tower S)}

/-- A score lies in a range. -/
def Zrangespec.contains (spec : Zrangespec S) (score : S) : Prop :=
  (if spec.minex then spec.min < score else spec.min ≤ score) ∧
    if spec.maxex then score < spec.max else score ≤ spec.max

theorem Tower.Before.score_le (h : a.Before b) : a.score ≤ b.score := by
  rcases h with hlt | ⟨heq, -⟩
  · exact le_of_lt hlt
  · exact le_of_eq heq

variable (value : S) (spec : Zrangespec S)

theorem zslValueGteMin_iff :
    zslValueGteMin value spec = true ↔ if spec.minex then spec.min < value else spec.min ≤ value := by
  rw [zslValueGteMin]
  split <;> exact decide_eq_true_iff

theorem zslValueLteMax_iff :
    zslValueLteMax value spec = true ↔ if spec.maxex then value < spec.max else value ≤ spec.max := by
  rw [zslValueLteMax]
  split <;> exact decide_eq_true_iff

theorem contains_iff (value : S) :
    (zslValueGteMin value spec && zslValueLteMax value spec) = true ↔ spec.contains value := by
  rw [and_eq_true_iff, zslValueGteMin_iff, zslValueLteMax_iff, Zrangespec.contains]

instance (spec : Zrangespec S) (value : S) : Decidable (spec.contains value) :=
  decidable_of_iff _ (contains_iff spec value)

theorem contains_eq (value : S) :
    (zslValueGteMin value spec && zslValueLteMax value spec) = decide (spec.contains value) := by
  rw [Bool.eq_iff_iff, contains_iff, decide_eq_true_iff]

/-- A range that is passed over contains nothing. -/
theorem not_contains_of_empty {spec : Zrangespec S} (hempty : spec.range.empty = true) (value : S) :
    ¬ spec.contains value := by
  rintro ⟨hmin, hmax⟩
  have hmin' : spec.min ≤ value := by
    split at hmin
    · exact le_of_lt hmin
    · exact hmin
  have hmax' : value ≤ spec.max := by
    split at hmax
    · exact le_of_lt hmax
    · exact hmax
  simp only [Zrangespec.range, or_eq_true, and_eq_true, decide_eq_true_eq] at hempty
  rcases hempty with hlt | ⟨heq, hex⟩
  · exact absurd (le_trans hmin' hmax') (not_le_of_gt hlt)
  · rcases hex with hex | hex
    · rw [if_pos hex, heq] at hmin
      exact absurd hmax' (not_le_of_gt hmin)
    · rw [if_pos hex, ← heq] at hmax
      exact absurd hmin' (not_le_of_gt hmax)

theorem Inv.tests (h : Inv zsl ts) (spec : Zrangespec S) :
    spec.range.Tests zsl ts (fun t => zslValueGteMin t.score spec)
      (fun t => zslValueLteMax t.score spec) where
  gte q t nd ht hnd := by
    obtain ⟨nd', hnd', -, hscore⟩ := h.node_at ht
    obtain rfl := Option.some.inj (hnd.symm.trans hnd')
    rw [← hscore]
    rfl
  lte q t nd ht hnd := by
    obtain ⟨nd', hnd', -, hscore⟩ := h.node_at ht
    obtain rfl := Option.some.inj (hnd.symm.trans hnd')
    rw [← hscore]
    rfl
  up := h.sorted.imp fun {a b} hab ha => by
    rw [zslValueGteMin_iff] at ha ⊢
    split at ha
    next hex => rw [if_pos hex]; exact lt_of_lt_of_le ha hab.score_le
    next hex => rw [if_neg hex]; exact le_trans ha hab.score_le
  down := h.sorted.imp fun {a b} hab hb => by
    rw [zslValueLteMax_iff] at hb ⊢
    split at hb
    next hex => rw [if_pos hex]; exact lt_of_le_of_lt hab.score_le hb
    next hex => rw [if_neg hex]; exact le_trans hab.score_le hb
  empty hempty t ht := by
    rw [contains_eq]
    exact decide_eq_false (not_contains_of_empty hempty t.score)

theorem zslFirstInRange_eq (h : Inv zsl ts) (spec : Zrangespec S) :
    zslFirstInRange zsl spec =
      some ((ts.filter fun t => spec.contains t.score).head?.map Tower.addr) := by
  rw [zslFirstInRange, zslFirstIn_spec h (h.tests spec)]
  simp only [contains_eq]

theorem zslLastInRange_eq (h : Inv zsl ts) (spec : Zrangespec S) :
    zslLastInRange zsl spec =
      some ((ts.filter fun t => spec.contains t.score).getLast?.map Tower.addr) := by
  rw [zslLastInRange, zslLastIn_spec h (h.tests spec)]
  simp only [contains_eq]

end Scores

/-! ## Ranks -/

section Ranks

variable [LinearOrder S] {zsl : Zskiplist S} {ts : List (Tower S)}

theorem Tower.Before.asymm (h : a.Before b) : ¬ b.Before a := by
  rintro (hlt | ⟨heq, hlt⟩)
  · exact absurd h.score_le (not_le_of_gt hlt)
  · rcases h with hlt' | ⟨-, hlt'⟩
    · exact absurd hlt' (by rw [heq]; exact lt_irrefl _)
    · exact List.lt_asymm hlt' hlt

theorem Inv.before (h : Inv zsl ts) (ha : ts[p]? = some a) (hb : ts[q]? = some b) (hpq : p < q) :
    a.Before b := by
  obtain ⟨hp, rfl⟩ := List.getElem?_eq_some_iff.mp ha
  obtain ⟨hq, rfl⟩ := List.getElem?_eq_some_iff.mp hb
  exact pairwise_iff_getElem.mp h.sorted p q hp hq hpq

theorem Inv.position_eq (h : Inv zsl ts) (ha : ts[p]? = some a) (hb : ts[q]? = some b)
    (hobj : a.obj = b.obj) : p = q := by
  have hp : p < (ts.map Tower.obj).length := by
    rw [length_map]
    exact (List.getElem?_eq_some_iff.mp ha).1
  refine (getElem?_inj hp h.distinct).mp ?_
  rw [getElem?_map, getElem?_map, ha, hb, map_some, map_some, hobj]

/-- The walks to the object of a tower end at it. -/
theorem Inv.zslUpTo_eq (h : Inv zsl ts) (ht : ts[q]? = some t) (p : Nat) (u : Tower S)
    (nd : ZskiplistNode S) (hu : ts[p]? = some u) (hnd : zsl.node u.addr = some nd) :
    zslUpTo t.score t.obj (p + 1) nd = some (decide (p + 1 ≤ q + 1)) := by
  obtain ⟨nd', hnd', hobj, hscore⟩ := h.node_at hu
  obtain rfl := Option.some.inj (hnd.symm.trans hnd')
  rw [zslUpTo, hobj, hscore, some_bind]
  refine congrArg some ?_
  rw [Bool.eq_iff_iff, or_eq_true, and_eq_true, decide_eq_true_iff, decide_eq_true_iff,
    decide_eq_true_iff, decide_eq_true_iff]
  have hle : compareStringObjects u.obj t.obj ≤ 0 ↔ u.obj < t.obj ∨ u.obj = t.obj := by
    rw [← compareStringObjects_lt, ← compareStringObjects_eq]
    omega
  rw [hle]
  rcases Nat.lt_trichotomy p q with hlt | rfl | hgt
  · refine iff_of_true ?_ (by omega)
    rcases h.before hu ht hlt with hlt | ⟨heq, hlt⟩
    · exact .inl hlt
    · exact .inr ⟨heq, .inl hlt⟩
  · obtain rfl := Option.some.inj (hu.symm.trans ht)
    exact iff_of_true (.inr ⟨rfl, .inr rfl⟩) (Nat.le_refl _)
  · have hbefore := h.before ht hu hgt
    refine iff_of_false ?_ (by omega)
    rintro (hlt | ⟨heq, hlt | hobj⟩)
    · exact hbefore.asymm (.inl hlt)
    · exact hbefore.asymm (.inr ⟨heq, hlt⟩)
    · exact absurd (h.position_eq hu ht hobj) (Nat.ne_of_gt hgt)

/-- The object that is read at a position; the header has none. -/
theorem Inv.obj_at (h : Inv zsl ts) (hp : p ≤ ts.length) :
    ∃ nd, zsl.node (addrAt zsl ts p) = some nd ∧
      ∀ q t, ts[q]? = some t → (nd.obj = some t.obj ↔ p = q + 1) := by
  cases p with
  | zero =>
    obtain ⟨nd, hnd, hnone, -⟩ := h.header
    refine ⟨nd, hnd, fun q t _ => ?_⟩
    rw [hnone]
    exact iff_of_false (by simp) (by omega)
  | succ p =>
    have hu := getElem?_eq_getElem hp
    obtain ⟨nd, hnd, hobj, -⟩ := h.node_at hu
    refine ⟨nd, by rw [addrAt_succ zsl hu]; exact hnd, fun q t ht => ?_⟩
    rw [hobj, Option.some.injEq, Nat.succ.injEq]
    refine ⟨h.position_eq hu ht, ?_⟩
    rintro rfl
    rw [Option.some.inj (hu.symm.trans ht)]

theorem zslGetRankLoop_spec (h : Inv zsl ts) (ht : ts[q]? = some t) {i : Nat} (hi : i ≤ zsl.level)
    (hpos : 0 < i) (hp : p ≤ q + 1) (htall : ∀ j < i, Tall zsl ts p j) :
    zslGetRankLoop zsl t.score t.obj i (addrAt zsl ts p) p = some (q + 1) := by
  induction i generalizing p with
  | zero => exact absurd hpos (Nat.lt_irrefl 0)
  | succ i ih =>
    have hq : q + 1 ≤ ts.length := (List.getElem?_eq_some_iff.mp ht).1
    have hforward := zslForward_spec h (zslUpTo t.score t.obj) (h.zslUpTo_eq ht) hp
      (htall i (lt_succ_self i)) (show ts.length < p + (zsl.length + 1) by rw [h.length]; omega)
      (Nat.le_trans hp hq)
    have hobj := h.obj_at (Nat.le_trans (pred_le ts i (q + 1)) hq)
    rw [zslGetRankLoop, hforward, some_bind]
    obtain ⟨nd, hnd, hobj⟩ := hobj
    dsimp only
    rw [hnd, some_bind]
    split
    next hfound => rw [(hobj q t ht).mp hfound]; rfl
    next hnot =>
      have hi0 : 0 < i := by
        refine Nat.pos_of_ne_zero fun hzero => hnot ((hobj q t ht).mpr ?_)
        rw [hzero, h.pred_zero hq]
      exact ih (le_of_succ_le hi) hi0 (pred_le ts i (q + 1)) fun j hj =>
        (pred_tall hi _).mono (Nat.le_of_lt hj)

theorem zslGetRank_eq (h : Inv zsl ts) (ht : ts[q]? = some t) :
    zslGetRank zsl t.score t.obj = some (q + 1) :=
  zslGetRankLoop_spec h ht (Nat.le_refl _) h.level.1 (Nat.zero_le _) fun _ hj => hj

omit [LinearOrder S] in
/-- From a position in front of a rank the node with this rank is found. -/
theorem zslGetElementByRankLoop_spec [LinearOrder S] (h : Inv zsl ts) {rank : Nat}
    (hrank : rank ≤ ts.length) {i : Nat} (hi : i ≤ zsl.level) (hpos : 0 < i) (hp : p ≤ rank)
    (htall : ∀ j < i, Tall zsl ts p j) :
    zslGetElementByRankLoop zsl rank i (addrAt zsl ts p) p = some (some (addrAt zsl ts rank)) := by
  induction i generalizing p with
  | zero => exact absurd hpos (Nat.lt_irrefl 0)
  | succ i ih =>
    have hforward := zslForward_spec h (fun r _ => some (decide (r ≤ rank))) (fun _ _ _ _ _ => rfl) hp
      (htall i (lt_succ_self i)) (show ts.length < p + (zsl.length + 1) by rw [h.length]; omega)
      (Nat.le_trans hp hrank)
    rw [zslGetElementByRankLoop, hforward, some_bind]
    dsimp only
    split
    next hfound => rw [hfound]; rfl
    next hnot =>
      have hi0 : 0 < i := by
        refine Nat.pos_of_ne_zero fun hzero => hnot ?_
        rw [hzero, h.pred_zero hrank]
      exact ih (le_of_succ_le hi) hi0 (pred_le ts i rank) fun j hj =>
        (pred_tall hi _).mono (Nat.le_of_lt hj)

theorem zslGetElementByRank_eq (h : Inv zsl ts) (ht : ts[q]? = some t) :
    zslGetElementByRank zsl (q + 1) = some (some t.addr) := by
  have hq : q + 1 ≤ ts.length := (List.getElem?_eq_some_iff.mp ht).1
  rw [← addrAt_succ zsl ht]
  exact zslGetElementByRankLoop_spec h hq (Nat.le_refl _) h.level.1 (Nat.zero_le _) fun _ hj => hj

end Ranks

end Redis.Skiplist
