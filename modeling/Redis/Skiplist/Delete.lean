import Redis.Skiplist.Query

/-!
# Redis.Skiplist.Delete

A node is taken out of a skiplist: each level it takes part in is linked over it by the
last node in front, and the spans of the others that reach over it shrink by one.
-/

namespace Redis.Skiplist

open List Option

variable {S : Type}

/-! ## Links -/

variable {mid : List (Tower S)}

/-- What stands behind a tower that takes part in a level does not matter to it. -/
theorem link_append_of_tall {i : Nat} (h : ∃ t ∈ mid, i < t.height) (as bs : List (Tower S)) :
    link (mid ++ as) i = link (mid ++ bs) i := by
  induction mid with
  | nil => obtain ⟨t, ht, -⟩ := h; cases ht
  | cons u mid ih =>
    rw [cons_append, cons_append, link, link]
    split
    next => rfl
    next hge =>
      obtain ⟨t, ht, hlt⟩ := h
      rcases mem_cons.mp ht with rfl | ht
      · exact absurd hlt hge
      · rw [ih ⟨t, ht, hlt⟩]

theorem link_append_of_low {i : Nat} (h : ∀ t ∈ mid, t.height ≤ i) (as : List (Tower S)) :
    link (mid ++ as) i = ⟨(link as i).forward, mid.length + (link as i).span⟩ := by
  induction mid with
  | nil => rw [nil_append, length_nil, Nat.zero_add]
  | cons u mid ih =>
    rw [cons_append, link, if_neg (Nat.not_lt.mpr (h u mem_cons_self)),
      ih fun t ht => h t (mem_cons_of_mem u ht)]
    simp only [length_cons, ZskiplistLevel.mk.injEq, true_and]
    omega

/-- The level that links over the node `x`. -/
def unlinkedLevel (nd : ZskiplistNode S) (x : Nat) (i : Nat) (l : ZskiplistLevel) :
    ZskiplistLevel :=
  if l.forward = some x then
    (nd.level[i]?).elim l fun lx => ⟨lx.forward, l.span + lx.span - 1⟩
  else { l with span := l.span - 1 }

/-- The node at `y` when the levels from `i` on are linked over `x`, those of `update` in turn. -/
def unlinked (nd : ZskiplistNode S) (x i : Nat) (update : List Nat) (y : Nat)
    (ndy : ZskiplistNode S) : ZskiplistNode S :=
  { ndy with level := ndy.level.mapIdx fun j l =>
      if i ≤ j ∧ update[j - i]? = some y then unlinkedLevel nd x j l else l }

theorem unlinked_of_not_mem {update : List Nat} {y : Nat} (h : y ∉ update) (nd : ZskiplistNode S)
    (x i : Nat) (ndy : ZskiplistNode S) : unlinked nd x i update y ndy = ndy := by
  have hnone : ∀ j : Nat, update[j]? ≠ some y := fun j hj => h (mem_of_getElem? hj)
  have hid : (ndy.level.mapIdx fun j l =>
      if i ≤ j ∧ update[j - i]? = some y then unlinkedLevel nd x j l else l) = ndy.level :=
    ext_getElem? fun j => by simp [hnone]
  rw [unlinked, hid]

theorem unlinked_cons (nd : ZskiplistNode S) (x i y u : Nat) (update : List Nat)
    {ndy : ZskiplistNode S} {l : ZskiplistLevel} (hl : y = u → ndy.level[i]? = some l) :
    unlinked nd x (i + 1) update y
      (if y = u then ndy.setLevel i (unlinkedLevel nd x i l) else ndy) =
      unlinked nd x i (u :: update) y ndy := by
  have hindex : ∀ j, i + 1 ≤ j → (u :: update)[j - i]? = update[j - (i + 1)]? := fun j hj => by
    rw [show j - i = j - (i + 1) + 1 by omega, getElem?_cons_succ]
  split
  next heq =>
    subst heq
    rw [unlinked, unlinked, ZskiplistNode.setLevel]
    congr 1
    refine ext_getElem? fun j => ?_
    rw [getElem?_mapIdx, getElem?_mapIdx, getElem?_set]
    rcases Nat.lt_trichotomy j i with hlt | rfl | hgt
    · rw [if_neg (Nat.ne_of_gt hlt)]
      simp only [show ¬ i + 1 ≤ j by omega, show ¬ i ≤ j by omega, false_and, if_false]
    · rw [if_pos rfl, if_pos (List.getElem?_eq_some_iff.mp (hl rfl)).1, hl rfl]
      simp
    · rw [if_neg (Nat.ne_of_lt hgt), hindex j hgt]
      simp only [show i + 1 ≤ j by omega, show i ≤ j by omega, true_and]
  next hne =>
    rw [unlinked, unlinked]
    congr 1
    refine ext_getElem? fun j => ?_
    rw [getElem?_mapIdx, getElem?_mapIdx]
    rcases Nat.lt_trichotomy j i with hlt | rfl | hgt
    · simp only [show ¬ i + 1 ≤ j by omega, show ¬ i ≤ j by omega, false_and, if_false]
    · have hne' : ¬ (u = y) := fun heq => hne heq.symm
      simp [hne', show ¬ j + 1 ≤ j by omega]
    · rw [hindex j hgt]
      simp only [show i + 1 ≤ j by omega, show i ≤ j by omega, true_and]

theorem zslUnlink_eq {zsl : Zskiplist S} {x i : Nat} {update : List Nat} {nd : ZskiplistNode S}
    (hx : zsl.node x = some nd)
    (hupdate : ∀ j u, update[j]? = some u → u ≠ x ∧ ∃ ndu l, zsl.node u = some ndu ∧
      ndu.level[i + j]? = some l ∧ (l.forward = some x → ∃ lx, nd.level[i + j]? = some lx)) :
    zslUnlink zsl x i update =
      some { zsl with node := fun y => (zsl.node y).map (unlinked nd x i update y) } := by
  induction update generalizing zsl i with
  | nil =>
    rw [zslUnlink]
    have hid : ∀ y, (zsl.node y).map (unlinked nd x i [] y) = zsl.node y := fun y => by
      cases zsl.node y with
      | none => rfl
      | some ndy => rw [map_some, unlinked_of_not_mem not_mem_nil]
    simp only [hid]
  | cons u update ih =>
    obtain ⟨hne, ndu, l, hndu, hl, hlx⟩ := hupdate 0 u rfl
    rw [Nat.add_zero] at hl hlx
    have hlevel : (if l.forward = some x then do
          let lx ← (← zsl.node x).level[i]?
          return ⟨lx.forward, l.span + lx.span - 1⟩
        else return { l with span := l.span - 1 } : Option ZskiplistLevel) =
        some (unlinkedLevel nd x i l) := by
      rw [unlinkedLevel]
      split
      next hforward =>
        obtain ⟨lx, hlx⟩ := hlx hforward
        rw [hx, some_bind, hlx]
        rfl
      next => rfl
    rw [zslUnlink, hndu, bind_eq_bind, bind_some, hl, bind_eq_bind,
      bind_some, hlevel, bind_some]
    have hnode : ∀ y, (zsl.modNode u (·.setLevel i (unlinkedLevel nd x i l))).node y =
        (zsl.node y).map fun ndy =>
          if y = u then ndy.setLevel i (unlinkedLevel nd x i l) else ndy := fun y => by
      rw [Zskiplist.modNode]
      dsimp only
      split
      next => rfl
      next => simp
    rw [ih]
    · rw [Option.some.injEq, Zskiplist.modNode, Zskiplist.mk.injEq]
      refine ⟨funext fun y => ?_, rfl, rfl, rfl, rfl⟩
      have hy := hnode y
      rw [Zskiplist.modNode] at hy
      dsimp only at hy ⊢
      rw [hy, Option.map_map]
      cases hndy : zsl.node y with
      | none => rfl
      | some ndy =>
        refine congrArg some (unlinked_cons nd x i y u update fun heq => ?_)
        subst heq
        rw [hndu] at hndy
        rw [← Option.some.inj hndy]
        exact hl
    · rw [hnode, hx, map_some, if_neg (Ne.symm hne)]
    · intro j u' hu'
      obtain ⟨hne', ndu', l', hndu', hl', hlx'⟩ := hupdate (j + 1) u' hu'
      rw [show i + (j + 1) = i + 1 + j by omega] at hl' hlx'
      refine ⟨hne', _, l', by rw [hnode, hndu', map_some], ?_, hlx'⟩
      split
      next =>
        rw [ZskiplistNode.setLevel, getElem?_set, if_neg (by omega)]
        exact hl'
      next => exact hl'

/-! ## Without a tower -/

section Node

variable [LinearOrder S] {zsl : Zskiplist S} {ts : List (Tower S)} {k : Nat} {t : Tower S}
  {nd : ZskiplistNode S}

theorem Inv.tower_eq (h : Inv zsl ts) {p q : Nat} {a b : Tower S} (ha : ts[p]? = some a)
    (hb : ts[q]? = some b) (haddr : a.addr = b.addr) : p = q := by
  have hp := (List.getElem?_eq_some_iff.mp ha).1
  have hq := (List.getElem?_eq_some_iff.mp hb).1
  rw [← addrAt_succ zsl ha, ← addrAt_succ zsl hb, h.addrAt_inj hp hq] at haddr
  exact Nat.succ.inj haddr

/-- A pointer to a tower comes from a level it takes part in. -/
theorem Inv.lt_height (h : Inv zsl ts) {q p i : Nat} {u : Tower S} (hu : ts[q]? = some u)
    (hlink : (link (ts.drop p) i).forward = some u.addr) : i < u.height ∧ p ≤ q := by
  rcases link_spec (ts.drop p) i with ⟨-, heq⟩ | ⟨d, v, hv, hlt, -, heq⟩
  · rw [heq] at hlink
    cases hlink
  · rw [heq] at hlink
    rw [getElem?_drop] at hv
    obtain rfl := h.tower_eq hv hu (Option.some.inj hlink)
    obtain rfl := Option.some.inj (hv.symm.trans hu)
    exact ⟨hlt, Nat.le_add_right p d⟩

/-- The levels in front of a tower that is taken out. -/
theorem Inv.link_eraseIdx (h : Inv zsl ts) (ht : ts[k]? = some t)
    (hnd : ∀ i < t.height, nd.level[i]? = some (link (ts.drop (k + 1)) i)) {p i : Nat} (hp : p ≤ k)
    (htall : Tall zsl ts p i) :
    link ((ts.eraseIdx k).drop p) i =
      if pred ts i k = p then unlinkedLevel nd t.addr i (link (ts.drop p) i)
      else link (ts.drop p) i := by
  have hk : k < ts.length := (List.getElem?_eq_some_iff.mp ht).1
  have hold : ts.drop p = (ts.take k).drop p ++ t :: ts.drop (k + 1) := by
    rw [← (List.getElem?_eq_some_iff.mp ht).2,
      ← drop_append_of_le_length (by rw [length_take]; omega), ← drop_eq_getElem_cons,
      take_append_drop]
  have hnew : (ts.eraseIdx k).drop p = (ts.take k).drop p ++ ts.drop (k + 1) := by
    rw [eraseIdx_eq_take_drop_succ,
      drop_append_of_le_length (by rw [length_take]; omega)]
  have hmid : ∀ u ∈ (ts.take k).drop p, ∃ q, p ≤ q ∧ q < k ∧ ts[q]? = some u := fun u hu => by
    obtain ⟨q, hq⟩ := mem_iff_getElem?.mp hu
    rw [getElem?_drop, getElem?_take] at hq
    split at hq
    next hlt => exact ⟨p + q, Nat.le_add_right p q, hlt, hq⟩
    next => cases hq
  rw [hold, hnew]
  split
  next hpred =>
    have hlow : ∀ u ∈ (ts.take k).drop p, u.height ≤ i := fun u hu => by
      obtain ⟨q, hpq, hqk, hu⟩ := hmid u hu
      exact pred_low ts (by rw [hpred]; exact hpq) hqk hu
    rw [link_append_of_low hlow, link_append_of_low hlow, link, unlinkedLevel]
    split
    next hlt =>
      rw [if_pos rfl, hnd i hlt, elim_some, ZskiplistLevel.mk.injEq]
      refine ⟨rfl, ?_⟩
      dsimp only
      omega
    next hge =>
      have hother : (link (ts.drop (k + 1)) i).forward ≠ some t.addr := fun heq => by
        have := (h.lt_height ht heq).2
        omega
      rw [if_neg hother]
      rfl
  next hpred =>
    refine link_append_of_tall ?_ _ _
    by_contra hnone
    refine hpred (pred_eq hp htall fun q u hpq hqk hu => ?_)
    by_contra hgt
    refine hnone ⟨u, mem_of_getElem? (i := q - p) ?_, Nat.lt_of_not_le hgt⟩
    rw [getElem?_drop, Nat.add_sub_cancel' hpq, getElem?_take, if_pos hqk]
    exact hu

omit [LinearOrder S] in
theorem zslDropLevels_spec (header : ZskiplistNode S) {level : Nat} (hpos : 0 < level)
    (hlevel : ∀ i < level, ∃ l, header.level[i]? = some l) :
    ∃ level', zslDropLevels header level = some level' ∧ 0 < level' ∧ level' ≤ level ∧
      ∀ i l, level' ≤ i → i < level → header.level[i]? = some l → l.forward = none := by
  induction level with
  | zero => exact absurd hpos (Nat.lt_irrefl 0)
  | succ level ih =>
    rw [zslDropLevels]
    split
    next hzero =>
      subst hzero
      exact ⟨1, rfl, Nat.one_pos, Nat.le_refl 1, fun i l hi hlt => absurd hlt (Nat.not_lt.mpr hi)⟩
    next hne =>
      obtain ⟨l, hl⟩ := hlevel level (Nat.lt_succ_self level)
      rw [hl, some_bind]
      split
      next hnone =>
        obtain ⟨level', heq, hpos', hle, hempty⟩ :=
          ih (Nat.pos_of_ne_zero hne) fun i hi => hlevel i (Nat.lt_succ_of_lt hi)
        refine ⟨level', heq, hpos', Nat.le_succ_of_le hle, fun i l' hi hlt hl' => ?_⟩
        rcases Nat.lt_or_eq_of_le (Nat.le_of_lt_succ hlt) with hlt | rfl
        · exact hempty i l' hi hlt hl'
        · rw [← Option.some.inj (hl.symm.trans hl')]
          exact hnone
      next =>
        exact ⟨level + 1, rfl, Nat.succ_pos level, Nat.le_refl _,
          fun i l hi hlt => absurd hlt (Nat.not_lt.mpr hi)⟩

/-- A position of what is left as a position of before. -/
def oldPosition (k p : Nat) : Nat := if p ≤ k then p else p + 1

theorem oldPosition_of_le {k p : Nat} (h : p ≤ k) : oldPosition k p = p := if_pos h

theorem oldPosition_of_lt {k p : Nat} (h : k < p) : oldPosition k p = p + 1 :=
  if_neg (Nat.not_le.mpr h)

omit [LinearOrder S] in
theorem getElem?_eraseIdx_old (ts : List (Tower S)) (k q : Nat) :
    (ts.eraseIdx k)[q]? = ts[oldPosition k (q + 1) - 1]? := by
  rw [getElem?_eraseIdx]
  split
  next hlt => rw [oldPosition_of_le hlt]; rfl
  next hge => rw [oldPosition_of_lt (by omega)]; rfl

omit [LinearOrder S] in
theorem addrAt_eraseIdx (zsl : Zskiplist S) (ts : List (Tower S)) (k p : Nat) :
    addrAt zsl (ts.eraseIdx k) p = addrAt zsl ts (oldPosition k p) := by
  cases p with
  | zero => rw [oldPosition_of_le (Nat.zero_le k)]; rfl
  | succ q =>
    rw [addrAt, getElem?_eraseIdx]
    split
    next hlt => rw [oldPosition_of_le hlt]; rfl
    next hge => rw [oldPosition_of_lt (by omega)]; rfl

omit [LinearOrder S] in
theorem drop_eraseIdx (ts : List (Tower S)) {k p : Nat} (h : k < p) :
    (ts.eraseIdx k).drop p = ts.drop (p + 1) := by
  refine ext_getElem? fun q => ?_
  rw [getElem?_drop, getElem?_drop, getElem?_eraseIdx, if_neg (by omega)]
  exact congrArg (ts[·]?) (by omega)

theorem Inv.unlinked_level (h : Inv zsl ts) (ht : ts[k]? = some t)
    (hnd : ∀ i < t.height, nd.level[i]? = some (link (ts.drop (k + 1)) i)) {p i : Nat}
    (hp : oldPosition k p ≤ ts.length) (hi : i < zsl.level) (htall : Tall zsl ts (oldPosition k p) i)
    {ndp : ZskiplistNode S} (hndp : ndp.level[i]? = some (link (ts.drop (oldPosition k p)) i)) :
    (unlinked nd t.addr 0 ((range zsl.level).map fun i => addrAt zsl ts (pred ts i k))
      (addrAt zsl ts (oldPosition k p)) ndp).level[i]? = some (link ((ts.eraseIdx k).drop p) i) := by
  have hk : k < ts.length := (List.getElem?_eq_some_iff.mp ht).1
  have hpred : pred ts i k ≤ k := pred_le ts i k
  rw [unlinked, getElem?_mapIdx, hndp, map_some, Nat.sub_zero, getElem?_map,
    getElem?_range hi, map_some]
  simp only [Nat.zero_le, true_and, Option.some.injEq]
  simp only [h.addrAt_inj (show pred ts i k ≤ ts.length by omega) hp]
  rcases Nat.lt_or_ge k p with hgt | hle
  · rw [oldPosition_of_lt hgt, if_neg (by omega), drop_eraseIdx ts hgt]
  · rw [oldPosition_of_le hle] at htall ⊢
    exact (h.link_eraseIdx ht hnd hle htall).symm

/-- The node at `y` when the one behind the node that is taken out points back over it. -/
def relinked (next backward : Option Nat) (y : Nat) (ndy : ZskiplistNode S) : ZskiplistNode S :=
  if next = some y then { ndy with backward := backward } else ndy

omit [LinearOrder S] in
@[simp]
theorem relinked_obj (next backward : Option Nat) (y : Nat) (ndy : ZskiplistNode S) :
    (relinked next backward y ndy).obj = ndy.obj := by
  rw [relinked]
  split <;> rfl

omit [LinearOrder S] in
@[simp]
theorem relinked_score (next backward : Option Nat) (y : Nat) (ndy : ZskiplistNode S) :
    (relinked next backward y ndy).score = ndy.score := by
  rw [relinked]
  split <;> rfl

omit [LinearOrder S] in
@[simp]
theorem relinked_level (next backward : Option Nat) (y : Nat) (ndy : ZskiplistNode S) :
    (relinked next backward y ndy).level = ndy.level := by
  rw [relinked]
  split <;> rfl

omit [LinearOrder S] in
theorem zslRelink_eq (zsl : Zskiplist S) (next backward : Option Nat) :
    zslRelink zsl next backward =
      { zsl with
        node := fun y => (zsl.node y).map (relinked next backward y)
        tail := if next = none then backward else zsl.tail } := by
  cases next with
  | none =>
    rw [zslRelink, Zskiplist.mk.injEq]
    refine ⟨funext fun y => ?_, rfl, rfl, rfl, rfl⟩
    have hid : relinked none backward y = fun ndy : ZskiplistNode S => ndy := funext fun ndy => rfl
    rw [hid, Option.map_id']
  | some next =>
    rw [zslRelink, Zskiplist.modNode, Zskiplist.mk.injEq]
    refine ⟨funext fun y => ?_, rfl, rfl, rfl, rfl⟩
    split
    next heq =>
      refine congrFun (congrArg Option.map (funext fun ndy => ?_)) _
      rw [relinked, if_pos (congrArg some heq.symm)]
    next hne =>
      have hid : relinked (some next) backward y = fun ndy : ZskiplistNode S => ndy :=
        funext fun ndy => if_neg fun heq => hne (Option.some.inj heq).symm
      rw [hid, Option.map_id']

/-- The skiplist without a node. -/
def without (zsl : Zskiplist S) (nd : ZskiplistNode S) (x : Nat) (update : List Nat)
    (next : Option Nat) (level : Nat) : Zskiplist S where
  node y := (zsl.node y).map fun ndy => relinked next nd.backward y (unlinked nd x 0 update y ndy)
  header := zsl.header
  tail := if next = none then nd.backward else zsl.tail
  length := zsl.length - 1
  level := level

/-- The nodes in which the levels were left are in front. -/
theorem Inv.update_ne (h : Inv zsl ts) (ht : ts[k]? = some t) :
    t.addr ∉ (range zsl.level).map fun i => addrAt zsl ts (pred ts i k) := by
  have hk : k < ts.length := (List.getElem?_eq_some_iff.mp ht).1
  intro hmem
  obtain ⟨i, -, heq⟩ := mem_map.mp hmem
  have hpred : pred ts i k ≤ k := pred_le ts i k
  rw [← addrAt_succ zsl ht, h.addrAt_inj (by omega) hk] at heq
  omega

theorem Inv.zslUnlink_eq (h : Inv zsl ts) (ht : ts[k]? = some t) (hnd : zsl.node t.addr = some nd) :
    zslUnlink zsl t.addr 0 ((range zsl.level).map fun i => addrAt zsl ts (pred ts i k)) =
      some { zsl with node := fun y => (zsl.node y).map (unlinked nd t.addr 0
        ((range zsl.level).map fun i => addrAt zsl ts (pred ts i k)) y) } := by
  refine Skiplist.zslUnlink_eq hnd fun i u hu => ?_
  refine ⟨fun heq => h.update_ne ht (heq ▸ mem_of_getElem? hu), ?_⟩
  obtain ⟨nd', hnd', -, -, -, hlevel, -⟩ := h.node k t ht
  obtain rfl := Option.some.inj (hnd.symm.trans hnd')
  rw [getElem?_map, map_eq_some_iff] at hu
  obtain ⟨j, hj, rfl⟩ := hu
  obtain ⟨hi, rfl⟩ := List.getElem?_eq_some_iff.mp hj
  rw [getElem_range, Nat.zero_add]
  rw [length_range] at hi
  obtain ⟨ndu, hndu, hl⟩ := h.level_at (show Tall zsl ts _ _ from pred_tall hi k)
  refine ⟨ndu, _, hndu, hl, fun hforward => ?_⟩
  exact ⟨_, hlevel i (h.lt_height ht hforward).1⟩

omit [LinearOrder S] in
theorem addrAt_without (zsl : Zskiplist S) (nd : ZskiplistNode S) (x : Nat) (update : List Nat)
    (next : Option Nat) (level : Nat) (ts : List (Tower S)) (p : Nat) :
    addrAt (without zsl nd x update next level) ts p = addrAt zsl ts p :=
  addrAt_congr rfl ts p

theorem zslDeleteNode_eq (h : Inv zsl ts) (ht : ts[k]? = some t) (hnd : zsl.node t.addr = some nd)
    {update : List Nat}
    (hupdate : update.take zsl.level =
      (range zsl.level).map fun i => addrAt zsl ts (pred ts i k)) :
    ∃ hd level', zsl.node zsl.header = some hd ∧
      zslDeleteNode zsl t.addr update =
        some (without zsl nd t.addr (update.take zsl.level) (link (ts.drop (k + 1)) 0).forward level') ∧
      0 < level' ∧ level' ≤ zsl.level ∧
      ∀ i l, level' ≤ i → i < zsl.level →
        (unlinked nd t.addr 0 (update.take zsl.level) zsl.header hd).level[i]? = some l →
        l.forward = none := by
  obtain ⟨hd, hhd, -, -, hlevels, -⟩ := h.header
  obtain ⟨nd', hnd', -, -, -, hlevel, -⟩ := h.node k t ht
  obtain rfl := Option.some.inj (hnd.symm.trans hnd')
  have hzero := hlevel 0 (h.heights t (mem_of_getElem? ht)).1
  have hlink := h.zslUnlink_eq ht hnd
  have hself := unlinked_of_not_mem (h.update_ne ht) nd t.addr 0 nd
  rw [← hupdate] at hlink hself
  obtain ⟨level', hdrop, hpos, hle, hempty⟩ := zslDropLevels_spec
    (relinked (link (ts.drop (k + 1)) 0).forward nd.backward zsl.header
      (unlinked nd t.addr 0 (update.take zsl.level) zsl.header hd)) h.level.1 fun i hi => by
        rw [relinked_level, unlinked, getElem?_mapIdx, hlevels i hi]
        exact ⟨_, rfl⟩
  simp only [relinked_level] at hempty
  refine ⟨hd, level', hhd, ?_, hpos, hle, hempty⟩
  rw [zslDeleteNode, hlink, some_bind]
  dsimp only
  rw [hnd, map_some, hself, bind_eq_bind, bind_some, hzero,
    bind_eq_bind, bind_some, zslRelink_eq]
  dsimp only
  rw [hhd, map_some, map_some, bind_eq_bind, bind_some, hdrop,
    bind_some, without]
  simp only [Option.map_map]
  rfl

/-- The node behind the one that is taken out points to the one in front of it. -/
theorem Inv.relinked_backward (h : Inv zsl ts) {q r : Nat} {u : Tower S} {ndu : ZskiplistNode S}
    (hu : ts[r]? = some u) (hr : oldPosition k (q + 1) = r + 1)
    (hback : nd.backward = if k = 0 then none else some (addrAt zsl ts k))
    (huback : ndu.backward = if r = 0 then none else some (addrAt zsl ts r)) :
    (relinked (link (ts.drop (k + 1)) 0).forward nd.backward u.addr ndu).backward =
      if q = 0 then none else some (addrAt zsl ts (oldPosition k q)) := by
  rw [relinked, h.forward_zero]
  have hother : r ≠ k + 1 → ts[k + 1]?.map Tower.addr ≠ some u.addr := fun hne heq => by
    obtain ⟨v, hv, haddr⟩ := map_eq_some_iff.mp heq
    exact hne (h.tower_eq hu hv haddr.symm)
  rcases Nat.lt_trichotomy q k with hlt | rfl | hgt
  · rw [oldPosition_of_le hlt] at hr
    obtain rfl := Nat.succ.inj hr
    rw [if_neg (hother (by omega)), huback, oldPosition_of_le (Nat.le_of_lt hlt)]
  · rw [oldPosition_of_lt (Nat.lt_succ_self q)] at hr
    obtain rfl := Nat.succ.inj hr
    rw [hu, map_some, if_pos rfl, oldPosition_of_le (Nat.le_refl q)]
    exact hback
  · rw [oldPosition_of_lt (Nat.lt_succ_of_lt hgt)] at hr
    obtain rfl := Nat.succ.inj hr
    rw [if_neg (hother (by omega)), huback, oldPosition_of_lt hgt, if_neg (by omega),
      if_neg (by omega)]

/-- The last node of what is left. -/
theorem Inv.without_tail (h : Inv zsl ts) (ht : ts[k]? = some t)
    (hback : nd.backward = if k = 0 then none else some (addrAt zsl ts k)) :
    (if (link (ts.drop (k + 1)) 0).forward = none then nd.backward else zsl.tail) =
      (ts.eraseIdx k).getLast?.map Tower.addr := by
  have hk : k < ts.length := (List.getElem?_eq_some_iff.mp ht).1
  rw [h.forward_zero, getLast?_eq_getElem?, length_eraseIdx, if_pos hk,
    getElem?_eraseIdx]
  rcases Nat.lt_or_ge (k + 1) ts.length with hlt | hge
  · rw [getElem?_eq_getElem hlt, if_neg (by simp), h.tail, getLast?_eq_getElem?,
      if_neg (by omega)]
    exact congrArg (fun n => ts[n]?.map Tower.addr) (by omega)
  · rw [getElem?_eq_none hge, map_none, if_pos rfl, hback]
    rcases Nat.eq_zero_or_pos k with rfl | hpos
    · rw [if_pos rfl, if_neg (by omega), getElem?_eq_none (by omega)]
      rfl
    · obtain ⟨j, rfl⟩ : ∃ j, k = j + 1 := ⟨k - 1, by omega⟩
      have hj : ts[j]? = some ts[j] := getElem?_eq_getElem (by omega)
      rw [if_neg (Nat.succ_ne_zero j), if_pos (by omega), addrAt_succ zsl hj,
        show ts.length - 1 - 1 = j by omega, hj]
      rfl

/-- Without a tower the others are what they were. -/
theorem Inv.without (h : Inv zsl ts) (ht : ts[k]? = some t) (hnd : zsl.node t.addr = some nd)
    {hd : ZskiplistNode S} {level' : Nat} (hhd : zsl.node zsl.header = some hd) (hpos : 0 < level')
    (hle : level' ≤ zsl.level)
    (hempty : ∀ i l, level' ≤ i → i < zsl.level →
      (unlinked nd t.addr 0 ((range zsl.level).map fun i => addrAt zsl ts (pred ts i k))
        zsl.header hd).level[i]? = some l → l.forward = none) :
    Inv (without zsl nd t.addr ((range zsl.level).map fun i => addrAt zsl ts (pred ts i k))
      (link (ts.drop (k + 1)) 0).forward level') (ts.eraseIdx k) := by
  have hk : k < ts.length := (List.getElem?_eq_some_iff.mp ht).1
  obtain ⟨nd', hnd', hobj, hscore, hlen, hlevel, hback⟩ := h.node k t ht
  obtain rfl := Option.some.inj (hnd.symm.trans hnd')
  obtain ⟨hd', hhd', hnone, hhdlen, hhdlevel, hhdempty⟩ := h.header
  obtain rfl := Option.some.inj (hhd.symm.trans hhd')
  -- the levels of the header
  have hheader : ∀ i < zsl.level, (unlinked nd t.addr 0
      ((range zsl.level).map fun i => addrAt zsl ts (pred ts i k)) zsl.header hd).level[i]? =
        some (link (ts.eraseIdx k) i) := fun i hi =>
    h.unlinked_level (p := 0) ht hlevel (Nat.zero_le _) hi hi (hhdlevel i hi)
  have hheights : ∀ u ∈ ts.eraseIdx k, u.height ≤ level' := fun u hu => by
    by_contra hgt
    have hmem := mem_of_mem_eraseIdx hu
    have hlt : u.height - 1 < zsl.level := by have := h.heights u hmem; omega
    have hnull := hempty _ _ (by omega) hlt (hheader _ hlt)
    rcases link_spec (ts.eraseIdx k) (u.height - 1) with ⟨hall, -⟩ | ⟨d, v, -, -, -, heq⟩
    · have := hall u hu
      have := (h.heights u hmem).1
      omega
    · rw [heq] at hnull
      cases hnull
  have hnode : ∀ {y ndy}, zsl.node y = some ndy →
      (Skiplist.without zsl nd t.addr
        ((range zsl.level).map fun i => addrAt zsl ts (pred ts i k))
        (link (ts.drop (k + 1)) 0).forward level').node y =
      some (relinked (link (ts.drop (k + 1)) 0).forward nd.backward y (unlinked nd t.addr 0
        ((range zsl.level).map fun i => addrAt zsl ts (pred ts i k)) y ndy)) := fun hndy => by
    rw [Skiplist.without]
    dsimp only
    rw [hndy]
    rfl
  refine {
    addrs := h.addrs.sublist (((eraseIdx_sublist ts k).map Tower.addr).cons_cons _)
    header := ⟨_, hnode hhd, by rw [relinked_obj]; exact hnone, ?_, fun i hi => ?_, fun i l hi hl => ?_⟩
    node := fun q u hu => ?_
    heights := fun u hu => ⟨(h.heights u (mem_of_mem_eraseIdx hu)).1, hheights u hu⟩
    level := ⟨hpos, Nat.le_trans hle h.level.2⟩
    length := by rw [Skiplist.without, h.length, length_eraseIdx, if_pos hk]
    tail := ?_
    sorted := h.sorted.sublist (eraseIdx_sublist ts k)
    distinct := h.distinct.sublist ((eraseIdx_sublist ts k).map Tower.obj) }
  · rw [relinked_level, unlinked, length_mapIdx]
    exact hhdlen
  · rw [relinked_level]
    exact hheader i (Nat.lt_of_lt_of_le hi hle)
  · rw [relinked_level] at hl
    rcases Nat.lt_or_ge i zsl.level with hlt | hge
    · exact hempty i l hi hlt hl
    · rw [unlinked, getElem?_mapIdx, getElem?_eq_none (by simpa using hge)] at hl
      simp only [reduceCtorEq, and_false, if_false, Option.map_id'] at hl
      exact hhdempty i l hge hl
  · obtain ⟨r, hr⟩ : ∃ r, oldPosition k (q + 1) = r + 1 := by
      rcases Nat.lt_or_ge k (q + 1) with hlt | hge
      · exact ⟨_, oldPosition_of_lt hlt⟩
      · exact ⟨_, oldPosition_of_le hge⟩
    rw [getElem?_eraseIdx_old, hr, Nat.add_sub_cancel] at hu
    obtain ⟨ndu, hndu, huobj, huscore, hulen, hulevel, huback⟩ := h.node r u hu
    have haddr : addrAt zsl ts (oldPosition k (q + 1)) = u.addr := by rw [hr, addrAt_succ zsl hu]
    refine ⟨_, hnode hndu, by rw [relinked_obj]; exact huobj, by rw [relinked_score]; exact huscore,
      by rw [relinked_level, unlinked, length_mapIdx]; exact hulen, fun i hi => ?_, ?_⟩
    · have hmem := mem_of_getElem? hu
      have hlevels := h.unlinked_level (p := q + 1) (i := i) ht hlevel
        (by rw [hr]; exact (List.getElem?_eq_some_iff.mp hu).1)
        (Nat.lt_of_lt_of_le hi (h.heights u hmem).2) (by rw [hr]; exact ⟨u, hu, hi⟩)
        (by rw [hr]; exact hulevel i hi)
      rw [haddr] at hlevels
      rw [relinked_level]
      exact hlevels
    · rw [addrAt_without, addrAt_eraseIdx]
      exact h.relinked_backward hu hr hback huback
  · exact h.without_tail ht hback

end Node

/-! ## Deleting -/

section Delete

variable [LinearOrder S] {zsl : Zskiplist S} {ts : List (Tower S)} {k : Nat} {t : Tower S}
  {update : List Nat}

/-- In these nodes the levels were left in front of a position. -/
def Leaves (zsl : Zskiplist S) (ts : List (Tower S)) (k : Nat) (update : List Nat) : Prop :=
  update.take zsl.level = (range zsl.level).map fun i => addrAt zsl ts (pred ts i k)

omit [LinearOrder S] in
theorem pred_eraseIdx (ts : List (Tower S)) (i : Nat) {k j : Nat} (h : j ≤ k) :
    pred (ts.eraseIdx k) i j = pred ts i j := by
  induction j with
  | zero => rfl
  | succ j ih =>
    rw [pred, pred, getElem?_eraseIdx, if_pos (Nat.lt_of_succ_le h), ih (Nat.le_of_succ_le h)]

/-- A node is taken out, and the levels are still left in front of where it stood. -/
theorem zslDeleteNode_spec (h : Inv zsl ts) (ht : ts[k]? = some t) (hupdate : Leaves zsl ts k update) :
    ∃ zsl', zslDeleteNode zsl t.addr update = some zsl' ∧ Inv zsl' (ts.eraseIdx k) ∧
      Leaves zsl' (ts.eraseIdx k) k update ∧ zsl'.header = zsl.header := by
  obtain ⟨nd, hnd, -⟩ := h.node_at ht
  obtain ⟨hd, level', hhd, heq, hpos, hle, hempty⟩ := zslDeleteNode_eq h ht hnd hupdate
  rw [hupdate] at heq hempty
  refine ⟨_, heq, h.without ht hnd hhd hpos hle hempty, ?_, rfl⟩
  have htake : update.take level' = (update.take zsl.level).take level' := by
    rw [take_take, Nat.min_eq_left hle]
  rw [Leaves]
  show update.take level' = (range level').map _
  rw [htake, hupdate, ← map_take, take_range, Nat.min_eq_left hle]
  refine map_congr_left fun i _ => ?_
  rw [addrAt_without, addrAt_eraseIdx, pred_eraseIdx ts i (Nat.le_refl k),
    oldPosition_of_le (pred_le ts i k)]

/-- A node that is not part of the skiplist is freed. -/
theorem Inv.free (h : Inv zsl ts) {x : Nat} (hx : x ∉ zsl.header :: ts.map Tower.addr) :
    Inv (zslFreeNode zsl x) ts where
  addrs := h.addrs
  header := by
    obtain ⟨nd, hnd, hrest⟩ := h.header
    refine ⟨nd, ?_, hrest⟩
    have hne : zsl.header ≠ x := fun heq => hx (heq ▸ mem_cons_self)
    exact (if_neg hne).trans hnd
  node q t ht := by
    obtain ⟨nd, hnd, hobj, hscore, hlen, hlevel, hback⟩ := h.node q t ht
    have haddr : (zslFreeNode zsl x).node t.addr = some nd := by
      have hmem : t.addr ∈ ts.map Tower.addr := mem_map_of_mem (mem_of_getElem? ht)
      have hne : t.addr ≠ x := fun heq => hx (heq ▸ mem_cons_of_mem _ hmem)
      exact (if_neg hne).trans hnd
    refine ⟨nd, haddr, hobj, hscore, hlen, hlevel, ?_⟩
    rw [show addrAt (zslFreeNode zsl x) ts q = addrAt zsl ts q from addrAt_congr rfl ts q]
    exact hback
  heights := h.heights
  level := h.level
  length := h.length
  tail := h.tail
  sorted := h.sorted
  distinct := h.distinct

/-- A node that is taken out is no part of the skiplist any more. -/
theorem Inv.addr_not_mem (h : Inv zsl ts) (ht : ts[k]? = some t) :
    t.addr ∉ zsl.header :: (ts.eraseIdx k).map Tower.addr := by
  intro hmem
  rcases mem_cons.mp hmem with heq | hmem
  · have hzero := (h.addrAt_inj (List.getElem?_eq_some_iff.mp ht).1 (Nat.zero_le _)).mp
      ((addrAt_succ zsl ht).trans heq)
    exact absurd hzero (Nat.succ_ne_zero k)
  · obtain ⟨u, hu, haddr⟩ := mem_map.mp hmem
    obtain ⟨q, hq⟩ := mem_iff_getElem?.mp hu
    rw [getElem?_eraseIdx_old] at hq
    have hqk := h.tower_eq hq ht haddr
    rcases Nat.lt_or_ge k (q + 1) with hlt | hge
    · rw [oldPosition_of_lt hlt] at hqk
      omega
    · rw [oldPosition_of_le hge] at hqk
      omega

/-- A tower stands before a score and an object. -/
def Tower.isBefore (score : S) (obj : List UInt8) (u : Tower S) : Bool :=
  decide (u.score < score) || (decide (u.score = score) && decide (u.obj < obj))

theorem Tower.isBefore_iff (t u : Tower S) : u.isBefore t.score t.obj = true ↔ u.Before t := by
  rw [Tower.isBefore, Tower.Before, Bool.or_eq_true, Bool.and_eq_true, decide_eq_true_iff,
    decide_eq_true_iff, decide_eq_true_iff]

theorem Inv.isBefore_down (h : Inv zsl ts) (score : S) (obj : List UInt8) :
    ts.Pairwise fun a b => b.isBefore score obj → a.isBefore score obj := by
  refine h.sorted.imp fun {a b} hab hb => ?_
  simp only [Tower.isBefore, Bool.or_eq_true, Bool.and_eq_true, decide_eq_true_eq] at hb ⊢
  rcases hab with hlt | ⟨heq, hlt⟩
  · rcases hb with hb | ⟨rfl, -⟩
    · exact .inl (lt_trans hlt hb)
    · exact .inl hlt
  · rw [heq]
    rcases hb with hb | ⟨hb, hobj⟩
    · exact .inl hb
    · exact .inr ⟨hb, List.lt_trans hlt hobj⟩

/-- The walks to the place of a score and an object end in front of it. -/
theorem Inv.zslBefore_eq (h : Inv zsl ts) (score : S) (obj : List UInt8) (p : Nat) (u : Tower S)
    (nd : ZskiplistNode S) (hu : ts[p]? = some u) (hnd : zsl.node u.addr = some nd) :
    zslBefore score obj (p + 1) nd = some (decide (p + 1 ≤ ts.countP (·.isBefore score obj))) := by
  obtain ⟨nd', hnd', hobj, hscore⟩ := h.node_at hu
  obtain rfl := Option.some.inj (hnd.symm.trans hnd')
  rw [zslBefore, hobj, hscore, some_bind,
    ← test_eq (h.isBefore_down score obj) hu, Tower.isBefore]
  simp only [compareStringObjects_lt]
  rfl

theorem Inv.countP_isBefore (h : Inv zsl ts) (ht : ts[k]? = some t) :
    ts.countP (·.isBefore t.score t.obj) = k := by
  have hself := test_eq (h.isBefore_down t.score t.obj) ht
  have hirrefl : t.isBefore t.score t.obj = false := Bool.eq_false_iff.mpr fun htrue =>
    ((Tower.isBefore_iff t t).mp htrue).asymm ((Tower.isBefore_iff t t).mp htrue)
  have hle : ¬ k + 1 ≤ ts.countP (·.isBefore t.score t.obj) :=
    of_decide_eq_false (hself.symm.trans hirrefl)
  cases k with
  | zero => omega
  | succ j =>
    have hj : j < ts.length := Nat.lt_of_succ_lt (List.getElem?_eq_some_iff.mp ht).1
    have hu := getElem?_eq_getElem hj
    have hprev := test_eq (h.isBefore_down t.score t.obj) hu
    rw [(Tower.isBefore_iff t _).mpr (h.before hu ht (Nat.lt_succ_self j))] at hprev
    have hge : j + 1 ≤ ts.countP (·.isBefore t.score t.obj) := of_decide_eq_true hprev.symm
    omega

theorem zslDelete_spec (h : Inv zsl ts) (ht : ts[k]? = some t) :
    ∃ zsl', zslDelete zsl t.score t.obj = some (zsl', true) ∧ Inv zsl' (ts.eraseIdx k) := by
  have hk : k < ts.length := (List.getElem?_eq_some_iff.mp ht).1
  have hdescend := zslDescend_spec h (zslBefore t.score t.obj) (h.zslBefore_eq t.score t.obj)
    countP_le_length
  rw [h.countP_isBefore ht] at hdescend
  have hnext := h.zslNext_at (Nat.le_of_lt hk)
  rw [ht] at hnext
  obtain ⟨nd, hnd, hobj, hscore⟩ := h.node_at ht
  have hleaves : Leaves zsl ts k ((range zsl.level).map fun i => addrAt zsl ts (pred ts i k)) := by
    rw [Leaves, ← map_take, take_range, Nat.min_self]
  obtain ⟨zsl', hdelete, hinv, -, hheader⟩ := zslDeleteNode_spec h ht hleaves
  refine ⟨zslFreeNode zsl' t.addr, ?_, hinv.free (by rw [hheader]; exact h.addr_not_mem ht)⟩
  rw [zslDelete, hdescend, some_bind]
  dsimp only
  rw [hnext, map_some, some_bind]
  dsimp only
  rw [hnd, some_bind, if_pos ⟨hscore.symm, hobj⟩, hdelete]
  rfl

end Delete

end Redis.Skiplist
