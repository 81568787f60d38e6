import Redis.Skiplist

/-!
# Redis.Skiplist.Inv

What a skiplist is: towers in the order of scores and objects, each level of which
points to the next tower that is as high, and knows how far away it is.  A walk in
the levels that stops behind a given place ends at the last tower in front of it.
-/

namespace Redis.Skiplist

open List

variable {S : Type}

/-! ## Towers -/

/-- A node without its pointers. -/
structure Tower (S : Type) where
  addr : Nat
  score : S
  obj : List UInt8
  height : Nat

/-- The pointer and the span at one level in front of these towers; behind the last tower of this
height there is no pointer, and the span counts to the end. -/
@[grind =]
def link : List (Tower S) → Nat → ZskiplistLevel
  | [], _ => ⟨none, 0⟩
  | t :: ts, i =>
    if i < t.height then ⟨some t.addr, 1⟩
    else ⟨(link ts i).forward, (link ts i).span + 1⟩

/-- The address of the node at a position: the header at 0, and then the towers. -/
def addrAt (zsl : Zskiplist S) (ts : List (Tower S)) : Nat → Nat
  | 0 => zsl.header
  | q + 1 => (ts[q]?).elim 0 Tower.addr

/-- The node at a position takes part in a level. -/
def Tall (zsl : Zskiplist S) (ts : List (Tower S)) (p i : Nat) : Prop :=
  match p with
  | 0 => i < zsl.level
  | q + 1 => ∃ t, ts[q]? = some t ∧ i < t.height

/-- The last position up to `k` that takes part in a level. -/
@[grind =]
def pred (ts : List (Tower S)) (i : Nat) : Nat → Nat
  | 0 => 0
  | k + 1 => if (ts[k]?).any fun t => i < t.height then k + 1 else pred ts i k

variable [LinearOrder S]

/-- The order of a skiplist. -/
def Tower.Before (a b : Tower S) : Prop := a.score < b.score ∨ a.score = b.score ∧ a.obj < b.obj

/-- The skiplist has these towers. -/
structure Inv (zsl : Zskiplist S) (ts : List (Tower S)) : Prop where
  addrs : (zsl.header :: ts.map Tower.addr).Nodup
  header : ∃ nd, zsl.node zsl.header = some nd ∧ nd.obj = none ∧
    nd.level.length = zskiplistMaxlevel ∧ (∀ i < zsl.level, nd.level[i]? = some (link ts i)) ∧
    ∀ i l, zsl.level ≤ i → nd.level[i]? = some l → l.forward = none
  node : ∀ q t, ts[q]? = some t → ∃ nd, zsl.node t.addr = some nd ∧ nd.obj = some t.obj ∧
    nd.score = t.score ∧ nd.level.length = t.height ∧
    (∀ i < t.height, nd.level[i]? = some (link (ts.drop (q + 1)) i)) ∧
    nd.backward = if q = 0 then none else some (addrAt zsl ts q)
  heights : ∀ t ∈ ts, 0 < t.height ∧ t.height ≤ zsl.level
  level : 0 < zsl.level ∧ zsl.level ≤ zskiplistMaxlevel
  length : zsl.length = ts.length
  tail : zsl.tail = ts.getLast?.map Tower.addr
  sorted : ts.Pairwise Tower.Before
  /-- An object is in a sorted set once, which the callers of `zslInsert` test. -/
  distinct : (ts.map Tower.obj).Nodup

/-! ## Links -/

variable {zsl : Zskiplist S} {ts : List (Tower S)} {i p k q : Nat}

omit [LinearOrder S] in
/-- A link points over towers that are lower. -/
theorem link_spec (ts : List (Tower S)) (i : Nat) :
    ((∀ t ∈ ts, t.height ≤ i) ∧ link ts i = ⟨none, ts.length⟩) ∨
      ∃ d t, ts[d]? = some t ∧ i < t.height ∧ (∀ e t', e < d → ts[e]? = some t' → t'.height ≤ i) ∧
        link ts i = ⟨some t.addr, d + 1⟩ := by
  induction ts with
  | nil => exact .inl ⟨by simp, rfl⟩
  | cons t ts ih =>
    rw [link]
    split
    next hlt => exact .inr ⟨0, t, rfl, hlt, fun e t' he => absurd he (Nat.not_lt_zero e), rfl⟩
    next hge =>
      rcases ih with ⟨hall, heq⟩ | ⟨d, u, hu, hlt, hbetween, heq⟩
      · refine .inl ⟨fun t' ht' => ?_, by rw [heq]; rfl⟩
        rcases mem_cons.mp ht' with rfl | ht'
        · exact Nat.le_of_not_lt hge
        · exact hall t' ht'
      · refine .inr ⟨d + 1, u, hu, hlt, fun e t' he ht' => ?_, by rw [heq]⟩
        cases e with
        | zero =>
          obtain rfl := Option.some.inj ht'
          exact Nat.le_of_not_lt hge
        | succ e => exact hbetween e t' (Nat.lt_of_succ_lt_succ he) ht'

/-! ## Positions -/

omit [LinearOrder S] in
theorem pred_le (ts : List (Tower S)) (i k : Nat) : pred ts i k ≤ k := by
  induction k with
  | zero => exact Nat.le_refl 0
  | succ k ih =>
    rw [pred]
    split
    · exact Nat.le_refl _
    · exact Nat.le_succ_of_le ih

omit [LinearOrder S] in
theorem pred_tall (hi : i < zsl.level) (k : Nat) : Tall zsl ts (pred ts i k) i := by
  induction k with
  | zero => exact hi
  | succ k ih =>
    rw [pred]
    split
    next hany =>
      rw [Option.any_eq_true] at hany
      obtain ⟨t, ht, hlt⟩ := hany
      exact ⟨t, ht, of_decide_eq_true hlt⟩
    next => exact ih

omit [LinearOrder S] in
theorem pred_eq (hp : p ≤ k) (htall : Tall zsl ts p i)
    (hbetween : ∀ q t, p ≤ q → q < k → ts[q]? = some t → t.height ≤ i) : pred ts i k = p := by
  induction k with
  | zero => rw [Nat.le_zero.mp hp, pred]
  | succ k ih =>
    rw [pred]
    rcases Nat.lt_or_eq_of_le hp with hlt | rfl
    · rw [if_neg, ih (Nat.lt_succ_iff.mp hlt) fun q t hq hk =>
        hbetween q t hq (Nat.lt_succ_of_lt hk)]
      rw [Option.any_eq_true]
      rintro ⟨t, ht, hlt'⟩
      have := hbetween k t (Nat.lt_succ_iff.mp hlt) (Nat.lt_succ_self k) ht
      exact absurd (of_decide_eq_true hlt') (Nat.not_lt.mpr this)
    · obtain ⟨t, ht, hlt⟩ := htall
      rw [if_pos]
      rw [ht, Option.any_some, decide_eq_true_eq]
      exact hlt

omit [LinearOrder S] in
/-- Behind the last position that takes part in a level there are only lower towers. -/
theorem pred_low (ts : List (Tower S)) {t : Tower S} (hq : pred ts i k ≤ q) (hk : q < k)
    (ht : ts[q]? = some t) : t.height ≤ i := by
  induction k with
  | zero => exact absurd hk (Nat.not_lt_zero q)
  | succ k ih =>
    rw [pred] at hq
    split at hq
    next => exact absurd hk (Nat.not_lt.mpr hq)
    next hlow =>
      rcases Nat.lt_or_eq_of_le (Nat.le_of_lt_succ hk) with hlt | rfl
      · exact ih hq hlt
      · rw [ht, Option.any_some, decide_eq_true_eq] at hlow
        exact Nat.le_of_not_lt hlow

/-- The level that is read at a position. -/
theorem Inv.level_at (h : Inv zsl ts) (htall : Tall zsl ts p i) :
    ∃ nd, zsl.node (addrAt zsl ts p) = some nd ∧ nd.level[i]? = some (link (ts.drop p) i) := by
  cases p with
  | zero =>
    obtain ⟨nd, hnd, -, -, hlevel, -⟩ := h.header
    exact ⟨nd, hnd, hlevel i htall⟩
  | succ q =>
    obtain ⟨t, ht, hlt⟩ := htall
    obtain ⟨nd, hnd, -, -, -, hlevel, -⟩ := h.node q t ht
    refine ⟨nd, ?_, hlevel i hlt⟩
    rw [addrAt, ht]
    exact hnd

/-! ## Addresses -/

omit [LinearOrder S] in
theorem addrAt_eq (zsl : Zskiplist S) (hp : p ≤ ts.length) :
    (zsl.header :: ts.map Tower.addr)[p]? = some (addrAt zsl ts p) := by
  cases p with
  | zero => rfl
  | succ q =>
    rw [getElem?_cons_succ, getElem?_map, addrAt, getElem?_eq_getElem hp]
    rfl

omit [LinearOrder S] in
theorem addrAt_congr {zsl' : Zskiplist S} (h : zsl.header = zsl'.header) (ts : List (Tower S))
    (p : Nat) : addrAt zsl ts p = addrAt zsl' ts p := by
  cases p with
  | zero => exact h
  | succ q => rfl

theorem Inv.addrAt_inj (h : Inv zsl ts) (hp : p ≤ ts.length) (hq : q ≤ ts.length) :
    addrAt zsl ts p = addrAt zsl ts q ↔ p = q := by
  rw [← Option.some.injEq, ← addrAt_eq zsl hp, ← addrAt_eq zsl hq]
  refine getElem?_inj ?_ h.addrs
  rw [length_cons, length_map]
  exact Nat.lt_succ_of_le hp

/-! ## Walks -/

omit [LinearOrder S] in
theorem addrAt_succ (zsl : Zskiplist S) {t : Tower S} (ht : ts[q]? = some t) :
    addrAt zsl ts (q + 1) = t.addr := by
  rw [addrAt, ht]
  rfl

/-- A walk forward in one level ends at the last position up to `k` that takes part in it. -/
theorem zslForward_spec (h : Inv zsl ts) (go : Nat → ZskiplistNode S → Option Bool)
    (hgo : ∀ q t nd, ts[q]? = some t → zsl.node t.addr = some nd →
      go (q + 1) nd = some (decide (q + 1 ≤ k))) {fuel : Nat} (hp : p ≤ k)
    (htall : Tall zsl ts p i) (hfuel : ts.length < p + fuel) (hlen : p ≤ ts.length) :
    zslForward zsl go i fuel (addrAt zsl ts p) p =
      some (addrAt zsl ts (pred ts i k), pred ts i k) := by
  induction fuel generalizing p with
  | zero => omega
  | succ fuel ih =>
    obtain ⟨nd, hnd, hlevel⟩ := h.level_at htall
    rw [zslForward, hnd, some_bind, hlevel, some_bind]
    rcases link_spec (ts.drop p) i with ⟨hall, hlink⟩ | ⟨d, t, ht, hlt, hbetween, hlink⟩
    · -- no tower behind this position takes part in the level
      have hpred : pred ts i k = p := pred_eq hp htall fun q t hq _ ht =>
        hall t (mem_of_getElem? (i := q - p)
          (by rw [getElem?_drop, Nat.add_sub_cancel' hq]; exact ht))
      rw [hlink, hpred]
      rfl
    · rw [getElem?_drop] at ht
      obtain ⟨next, hnext, -⟩ := h.node _ _ ht
      have hgo' := hgo _ _ _ ht hnext
      rw [hlink]
      show (do
        let b ← go (p + (d + 1)) (← zsl.node t.addr)
        if b then zslForward zsl go i fuel t.addr (p + (d + 1))
        else return (addrAt zsl ts p, p)) = _
      rw [hnext, some_bind, ← Nat.add_assoc, hgo', some_bind]
      split
      next hk =>
        have hk' : p + d + 1 ≤ k := of_decide_eq_true hk
        have := (List.getElem?_eq_some_iff.mp ht).1
        rw [← addrAt_succ zsl ht]
        exact ih hk' ⟨t, ht, hlt⟩ (by omega) (by omega)
      next hk =>
        have hk' : ¬ p + d + 1 ≤ k := fun hle => hk (decide_eq_true hle)
        have hpred : pred ts i k = p := pred_eq hp htall fun q u hq hqk hu =>
          hbetween (q - p) u (by omega)
            (by rw [getElem?_drop, Nat.add_sub_cancel' hq]; exact hu)
        rw [hpred]
        rfl

omit [LinearOrder S] in
theorem Tall.mono {j : Nat} (hij : j ≤ i) (h : Tall zsl ts p i) : Tall zsl ts p j := by
  cases p with
  | zero => exact Nat.lt_of_le_of_lt hij h
  | succ q =>
    obtain ⟨t, ht, hlt⟩ := h
    exact ⟨t, ht, Nat.lt_of_le_of_lt hij hlt⟩

/-- Every tower takes part in the lowest level. -/
theorem Inv.pred_zero (h : Inv zsl ts) (hk : k ≤ ts.length) : pred ts 0 k = k := by
  cases k with
  | zero => rfl
  | succ k =>
    obtain ⟨hpos, -⟩ := h.heights _ (getElem_mem hk)
    rw [pred, if_pos]
    rw [getElem?_eq_getElem hk, Option.any_some]
    exact decide_eq_true hpos

/-- The levels below `i` are each left at the last position up to `k` that takes part in them. -/
theorem zslDescend_from (h : Inv zsl ts) (go : Nat → ZskiplistNode S → Option Bool)
    (hgo : ∀ q t nd, ts[q]? = some t → zsl.node t.addr = some nd →
      go (q + 1) nd = some (decide (q + 1 ≤ k))) (hk : k ≤ ts.length) (hi : i ≤ zsl.level)
    (hp : p ≤ k) (htall : ∀ j < i, Tall zsl ts p j) :
    zslDescend zsl go i (addrAt zsl ts p) p =
      some (addrAt zsl ts (if i = 0 then p else k),
        (range i).map fun j => addrAt zsl ts (pred ts j k)) := by
  induction i generalizing p with
  | zero => rfl
  | succ i ih =>
    have hforward : zslForward zsl go i (zsl.length + 1) (addrAt zsl ts p) p =
        some (addrAt zsl ts (pred ts i k), pred ts i k) :=
      zslForward_spec h go hgo hp (htall i (Nat.lt_succ_self i)) (by rw [h.length]; omega)
        (Nat.le_trans hp hk)
    have htall' : ∀ j < i, Tall zsl ts (pred ts i k) j := fun j hj =>
      (pred_tall hi k).mono (Nat.le_of_lt hj)
    have hlast : (if i = 0 then pred ts i k else k) = k := by
      split
      next hzero => rw [hzero, h.pred_zero hk]
      next => rfl
    rw [zslDescend, hforward, some_bind]
    dsimp only
    rw [ih (Nat.le_of_succ_le hi) (pred_le ts i k) htall', hlast, range_succ, map_append]
    rfl

/-- A descent ends at the last node whose test is true, and each level was left at the last such node
that takes part in it. -/
theorem zslDescend_spec (h : Inv zsl ts) (go : Nat → ZskiplistNode S → Option Bool)
    (hgo : ∀ q t nd, ts[q]? = some t → zsl.node t.addr = some nd →
      go (q + 1) nd = some (decide (q + 1 ≤ k))) (hk : k ≤ ts.length) :
    zslDescend zsl go zsl.level zsl.header 0 =
      some (addrAt zsl ts k, (range zsl.level).map fun i => addrAt zsl ts (pred ts i k)) := by
  have hdescend := zslDescend_from h go hgo hk (Nat.le_refl zsl.level) (Nat.zero_le k) fun _ hj => hj
  rw [if_neg (Nat.ne_of_gt h.level.1)] at hdescend
  exact hdescend

/-! ## Objects -/

theorem compareStringObjects_cons (a b : UInt8) (as bs : List UInt8) :
    compareStringObjects (a :: as) (b :: bs) =
      if a = b then compareStringObjects as bs else (a.toNat : Int) - b.toNat := by
  have hne : a ≠ b → (a.toNat : Int) - b.toNat ≠ 0 := fun hab heq =>
    hab (UInt8.toNat_inj.mp (by omega))
  simp only [compareStringObjects, length_cons, Nat.add_min_add_right, take_succ_cons,
    memcmp]
  split
  next => split <;> omega
  next hab => rw [if_neg (hne hab)]

variable (a b : List UInt8)

theorem compareStringObjects_nil_left : compareStringObjects [] b = -(b.length : Int) := by
  simp only [compareStringObjects, length_nil, Nat.zero_min, take_zero, memcmp]
  rw [if_pos trivial]
  omega

theorem compareStringObjects_nil_right : compareStringObjects a [] = (a.length : Int) := by
  simp only [compareStringObjects, length_nil, Nat.min_zero, take_zero, memcmp]
  rw [if_pos trivial]
  omega

theorem compareStringObjects_lt : compareStringObjects a b < 0 ↔ a < b := by
  induction a generalizing b with
  | nil =>
    rw [compareStringObjects_nil_left]
    cases b with
    | nil => decide
    | cons b bs => exact iff_of_true (by rw [length_cons]; omega) (nil_lt_cons b bs)
  | cons a as ih =>
    cases b with
    | nil =>
      rw [compareStringObjects_nil_right]
      exact iff_of_false (by omega) (not_lt_nil _)
    | cons b bs =>
      rw [compareStringObjects_cons, cons_lt_cons_iff]
      split
      next hab =>
        rw [ih, hab]
        exact ⟨fun h => .inr ⟨rfl, h⟩, fun h => (h.resolve_left (UInt8.lt_irrefl b)).2⟩
      next hab =>
        rw [UInt8.lt_iff_toNat_lt]
        refine ⟨fun hlt => .inl (by omega), ?_⟩
        rintro (hlt | ⟨heq, -⟩)
        · omega
        · exact absurd heq hab

theorem compareStringObjects_eq : compareStringObjects a b = 0 ↔ a = b := by
  induction a generalizing b with
  | nil =>
    rw [compareStringObjects_nil_left]
    cases b with
    | nil => decide
    | cons b bs => exact iff_of_false (by rw [length_cons]; omega) (cons_ne_nil b bs).symm
  | cons a as ih =>
    cases b with
    | nil =>
      rw [compareStringObjects_nil_right]
      exact iff_of_false (by rw [length_cons]; omega) (cons_ne_nil a as)
    | cons b bs =>
      rw [compareStringObjects_cons, List.cons.injEq]
      split
      next hab => simp [hab, ih]
      next hab =>
        have hne : a.toNat ≠ b.toNat := fun h => hab (UInt8.toNat_inj.mp h)
        exact iff_of_false (by omega) fun h => hab h.1

end Redis.Skiplist
