import Redis.Keyspace.Entries
import Redis.Skiplist.Delete

/-!
# Redis.Skiplist.Slots

`server.cluster->slots_to_keys` as the skiplist it is, with the functions of `db.c` that
count, list and delete the keys of a slot.  The score of a key is its slot, which a
`double` holds exactly.
-/

namespace Redis.Skiplist

open Keyspace List Option

/-- The databases, and the keys of the first one by slot. -/
structure ClusterServer (V : Type) where
  db : Nat → Keyspace.RedisDb V
  slotsToKeys : Zskiplist Nat

/-- `range.min = range.max = hashslot; range.minex = range.maxex = 0;`. -/
def slotRange (hashslot : Nat) : Zrangespec Nat := ⟨hashslot, hashslot, false, false⟩

/-- The loop of `getKeysInSlot`. -/
def getKeysInSlotLoop (zsl : Zskiplist Nat) (hashslot : Nat) :
    (fuel : Nat) → (n : Option Nat) → (count : Nat) → Option (List Key)
  | 0, _, _ => none
  | _ + 1, none, _ => some []
  | fuel + 1, some n, count => do
    let nd ← zsl.node n
    if nd.score = hashslot ∧ count ≠ 0 then
      let key ← nd.obj
      let keys ← getKeysInSlotLoop zsl hashslot fuel (← zslNext zsl n) (count - 1)
      return key :: keys
    else return []

/-- `getKeysInSlot`: what it returns, and what it writes to `keys`. -/
def getKeysInSlot (zsl : Zskiplist Nat) (hashslot : Nat) (count : UInt32) :
    Option (UInt32 × List Key) := do
  let n ← zslFirstInRange zsl (slotRange hashslot)
  let keys ← getKeysInSlotLoop zsl hashslot (zsl.length + 1) n count.toNat
  return (UInt32.ofNat keys.length, keys)

/-- `countKeysInSlot`.  An `int` is here what it is as an `unsigned int`. -/
def countKeysInSlot (zsl : Zskiplist Nat) (hashslot : Nat) : Option UInt32 := do
  match ← zslFirstInRange zsl (slotRange hashslot) with
  | none => return 0
  | some zn =>
    let nd ← zsl.node zn
    let rank := UInt32.ofNat (← zslGetRank zsl nd.score (← nd.obj))
    let count := UInt32.ofNat zsl.length - (rank - 1)
    match ← zslLastInRange zsl (slotRange hashslot) with
    | none => return count
    | some zn =>
      let nd ← zsl.node zn
      let rank := UInt32.ofNat (← zslGetRank zsl nd.score (← nd.obj))
      return count - (UInt32.ofNat zsl.length - rank)

variable {V : Type}

/-- `dbDelete`, when the server is part of a cluster. -/
def dbDelete (s : ClusterServer V) (d : Nat) (key : Key) : Option (ClusterServer V × Bool) :=
  let expires := ((s.db d).expires.delete key).getD (s.db d).expires
  match (s.db d).dict.delete key with
  | none => some ({ s with db := Function.update s.db d { s.db d with expires } }, false)
  | some dict => do
    let (slotsToKeys, _) ← zslDelete s.slotsToKeys (keyHashSlot key) key
    return ({ db := Function.update s.db d { dict, expires }, slotsToKeys }, true)

/-- The loop of `delKeysInSlot`, with how often it deletes. -/
def delKeysInSlotLoop (hashslot : Nat) :
    (fuel : Nat) → ClusterServer V → (n : Option Nat) → Option (ClusterServer V × Nat)
  | 0, _, _ => none
  | _ + 1, s, none => some (s, 0)
  | fuel + 1, s, some n => do
    let nd ← s.slotsToKeys.node n
    if nd.score = hashslot then
      let key ← nd.obj
      -- go to the next item before freeing it
      let next ← zslNext s.slotsToKeys n
      let (s, _) ← dbDelete s 0 key
      let (s, j) ← delKeysInSlotLoop hashslot fuel s next
      return (s, j + 1)
    else return (s, 0)

def delKeysInSlot (s : ClusterServer V) (hashslot : Nat) : Option (ClusterServer V × UInt32) := do
  let n ← zslFirstInRange s.slotsToKeys (slotRange hashslot)
  let (s, j) ← delKeysInSlotLoop hashslot (s.slotsToKeys.length + 1) s n
  return (s, UInt32.ofNat j)

/-! ## The keys of a slot -/

section Positions

variable {zsl : Zskiplist Nat} {ts : List (Tower Nat)}

theorem slotRange_contains (hashslot score : Nat) :
    (slotRange hashslot).contains score ↔ score = hashslot := by
  simp only [slotRange, Zrangespec.contains, Bool.false_eq_true, if_false]
  omega

/-- From a position on the next `m` towers, and no others, are those of a slot. -/
structure SlotAt (ts : List (Tower Nat)) (hashslot c m : Nat) : Prop where
  le : c + m ≤ ts.length
  iff : ∀ (q : Nat) t, ts[q]? = some t → (t.score = hashslot ↔ c ≤ q ∧ q < c + m)

theorem Inv.slotAt (h : Inv zsl ts) (hashslot : Nat) :
    ∃ c m, SlotAt ts hashslot c m ∧
      (ts.filter fun t => (slotRange hashslot).contains t.score) = (ts.drop c).take m := by
  have htests := h.tests (slotRange hashslot)
  have hle : (ts.countP fun t => !zslValueGteMin t.score (slotRange hashslot)) ≤
      ts.countP fun t => zslValueLteMax t.score (slotRange hashslot) := by
    refine countP_mono_left fun t _ ht => ?_
    have hlt : ¬ hashslot ≤ t.score := of_decide_eq_false ((Bool.not_eq_true' _).mp ht)
    exact decide_eq_true (Nat.le_of_lt (Nat.lt_of_not_le hlt))
  have hlength : (ts.countP fun t => zslValueLteMax t.score (slotRange hashslot)) ≤ ts.length :=
    countP_le_length
  refine ⟨ts.countP fun t => !zslValueGteMin t.score (slotRange hashslot),
    (ts.countP fun t => zslValueLteMax t.score (slotRange hashslot)) -
      ts.countP fun t => !zslValueGteMin t.score (slotRange hashslot),
    ⟨by omega, fun q t ht => ?_⟩, ?_⟩
  · have hgte := htests.gteMin_eq ht
    have hlte := htests.lteMax_eq ht
    have hiff := contains_iff (slotRange hashslot) t.score
    rw [Bool.and_eq_true, slotRange_contains] at hiff
    rw [← hiff, hlte, ← Bool.not_not (zslValueGteMin _ _), hgte, Bool.not_eq_true',
      decide_eq_false_iff_not, decide_eq_true_iff]
    omega
  · rw [← drop_take, ← htests.filter_eq]
    simp only [contains_eq]

/-- Without its first tower the slot has one less. -/
theorem SlotAt.eraseIdx {hashslot c m : Nat} (h : SlotAt ts hashslot c (m + 1)) :
    SlotAt (ts.eraseIdx c) hashslot c m where
  le := by
    have := h.le
    rw [length_eraseIdx, if_pos (by omega)]
    omega
  iff q t ht := by
    rw [getElem?_eraseIdx] at ht
    split at ht
    next hlt => rw [h.iff q t ht]; omega
    next hge => rw [h.iff (q + 1) t ht]; omega

end Positions

/-! ## Listing and counting -/

section Queries

variable {zsl : Zskiplist Nat} {ts : List (Tower Nat)} {hashslot c m : Nat}

/-- The keys of a slot from a position on, up to a number of them. -/
theorem getKeysInSlotLoop_eq (count : Nat) (h : Inv zsl ts) (hslot : SlotAt ts hashslot c m)
    {p r fuel : Nat} (hp : c ≤ p) (hr : p + r = c + m) (hfuel : r < fuel) :
    getKeysInSlotLoop zsl hashslot fuel (ts[p]?.map Tower.addr) count =
      some (((ts.drop p).take (min r count)).map Tower.obj) := by
  have hle := hslot.le
  induction fuel generalizing p r count with
  | zero => omega
  | succ fuel ih =>
    cases ht : ts[p]? with
    | none =>
      have hlen := List.getElem?_eq_none_iff.mp ht
      rw [drop_of_length_le hlen, take_nil]
      rfl
    | some t =>
      obtain ⟨nd, hnd, hobj, hscore⟩ := h.node_at ht
      obtain ⟨hlt, rfl⟩ := List.getElem?_eq_some_iff.mp ht
      rw [map_some, getKeysInSlotLoop, hnd, some_bind, hscore]
      split
      next hin =>
        obtain ⟨hin, hcount⟩ := hin
        have hpr := (hslot.iff p _ ht).mp hin
        obtain ⟨r, rfl⟩ : ∃ j, r = j + 1 := ⟨r - 1, by omega⟩
        obtain ⟨count, rfl⟩ : ∃ j, count = j + 1 := ⟨count - 1, by omega⟩
        have hnext := h.zslNext_at (p := p + 1) hlt
        rw [addrAt_succ zsl ht] at hnext
        rw [hobj, some_bind, hnext, some_bind, Nat.add_sub_cancel, @ih count (p + 1) r (by omega) (by omega) (by omega),
          Nat.add_min_add_right, drop_eq_getElem_cons hlt, take_succ_cons]
        rfl
      next hout =>
        have hzero : min r count = 0 := by
          have hpr := hslot.iff p _ ht
          by_contra hne
          exact hout ⟨hpr.mpr (by omega), by omega⟩
        rw [hzero]
        rfl

/-- The keys of a slot: where they start, the first and the last of them, and their number. -/
theorem SlotAt.ends (h : Inv zsl ts) (hslot : SlotAt ts hashslot c (m + 1))
    (hfilter : (ts.filter fun t => (slotRange hashslot).contains t.score) = (ts.drop c).take (m + 1)) :
    zslFirstInRange zsl (slotRange hashslot) = some (ts[c]?.map Tower.addr) ∧
      zslLastInRange zsl (slotRange hashslot) = some (ts[c + m]?.map Tower.addr) := by
  have hle := hslot.le
  have hlength : ((ts.drop c).take (m + 1)).length = m + 1 := by
    rw [length_take, length_drop]
    omega
  rw [zslFirstInRange_eq h, zslLastInRange_eq h, hfilter, head?_take,
    if_neg (Nat.succ_ne_zero m), head?_drop, getLast?_eq_getElem?, hlength,
    Nat.add_sub_cancel, getElem?_take, if_pos (Nat.lt_succ_self m), getElem?_drop]
  exact ⟨rfl, rfl⟩

theorem SlotAt.empty (h : Inv zsl ts)
    (hfilter : (ts.filter fun t => (slotRange hashslot).contains t.score) = (ts.drop c).take 0) :
    zslFirstInRange zsl (slotRange hashslot) = some none := by
  rw [zslFirstInRange_eq h, hfilter, take_zero]
  rfl

theorem getKeysInSlot_eq (h : Inv zsl ts) (hashslot : Nat) (count : UInt32) :
    getKeysInSlot zsl hashslot count =
      some (UInt32.ofNat (((ts.filter fun t => t.score = hashslot).map Tower.obj).take count.toNat).length,
        ((ts.filter fun t => t.score = hashslot).map Tower.obj).take count.toNat) := by
  obtain ⟨c, m, hslot, hfilter⟩ := h.slotAt hashslot
  have hle := hslot.le
  have hkeys := hfilter
  simp only [slotRange_contains] at hkeys
  rw [getKeysInSlot, hkeys, ← map_take, take_take, Nat.min_comm]
  cases m with
  | zero =>
    rw [SlotAt.empty h hfilter, Nat.zero_min]
    rfl
  | succ m =>
    have hloop := getKeysInSlotLoop_eq count.toNat h hslot (Nat.le_refl c) rfl
      (show m + 1 < zsl.length + 1 by rw [h.length]; omega)
    rw [(hslot.ends h hfilter).1, some_bind, hloop]
    rfl

/-- Both ranks are found, and the difference is the number of keys. -/
theorem countKeysInSlot_eq (h : Inv zsl ts) (hashslot : Nat) :
    countKeysInSlot zsl hashslot =
      some (UInt32.ofNat (ts.filter fun t => t.score = hashslot).length) := by
  obtain ⟨c, m, hslot, hfilter⟩ := h.slotAt hashslot
  have hle := hslot.le
  have hkeys := hfilter
  simp only [slotRange_contains] at hkeys
  rw [countKeysInSlot, hkeys, length_take, length_drop, Nat.min_eq_left (by omega)]
  cases m with
  | zero =>
    rw [SlotAt.empty h hfilter]
    rfl
  | succ m =>
    obtain ⟨hfirst, hlast⟩ := hslot.ends h hfilter
    have ht := getElem?_eq_getElem (show c < ts.length by omega)
    have hu := getElem?_eq_getElem (show c + m < ts.length by omega)
    obtain ⟨nd, hnd, hobj, hscore⟩ := h.node_at ht
    obtain ⟨ndu, hndu, huobj, huscore⟩ := h.node_at hu
    have hrank := zslGetRank_eq h ht
    have hurank := zslGetRank_eq h hu
    rw [ht] at hfirst
    rw [hu] at hlast
    simp only [hfirst, hlast, some_bind, map_some, hnd, hndu,
      hobj, huobj, hscore, huscore, hrank, hurank]
    refine congrArg some ?_
    simp only [UInt32.ofNat_add, UInt32.reduceOfNat]
    grind

end Queries

/-! ## Deleting -/

section Delete

variable {env : Env} {s : ClusterServer V} {ts : List (Tower Nat)} {D : Dataset V}
  {hashslot c m k : Nat} {t : Tower Nat}

/-- A server in a cluster: the skiplist is sound, its nodes are the keys of the first database with
their slots, and `D` is what the databases hold. -/
structure Holds (env : Env) (s : ClusterServer V) (ts : List (Tower Nat)) (D : Dataset V) : Prop where
  enabled : env.clusterEnabled = true
  inv : Inv s.slotsToKeys ts
  represents : Represents env ⟨s.db, ts.map fun t => (t.score, t.obj)⟩ D

theorem Holds.slots (h : Holds env s ts D) : SlotsOk (ts.map fun t => (t.score, t.obj)) D :=
  h.represents.slots h.enabled

/-- The keys of the first database are those of the skiplist, under their slots. -/
theorem Holds.mem (h : Holds env s ts D) {slot : Nat} {key : Key} :
    (∃ t ∈ ts, t.score = slot ∧ t.obj = key) ↔ slot = keyHashSlot key ∧ (D 0 key).isSome := by
  rw [← h.slots.mem, List.mem_map]
  simp only [Prod.mk.injEq]

theorem Holds.key (h : Holds env s ts D) (ht : ts[k]? = some t) :
    t.score = keyHashSlot t.obj ∧ (D 0 t.obj).isSome :=
  h.mem.mp ⟨t, mem_of_getElem? ht, rfl, rfl⟩

theorem Holds.slots_eraseIdx (h : Holds env s ts D) (ht : ts[k]? = some t) :
    SlotsOk ((ts.eraseIdx k).map fun t => (t.score, t.obj)) (D.set 0 t.obj none) where
  sorted := h.slots.sorted.sublist
    (((eraseIdx_sublist ts k).map fun t => (t.score, t.obj)).map toLex)
  mem slot key := by
    rw [Dataset.set_apply, List.mem_map]
    by_cases hkey : key = t.obj
    · rw [if_pos ⟨rfl, hkey⟩, isSome_none]
      refine iff_of_false ?_ (by simp)
      rintro ⟨u, hu, heq⟩
      obtain ⟨q, hqk, hq⟩ := mem_eraseIdx_iff_getElem?.mp hu
      exact hqk (h.inv.position_eq hq ht ((Prod.mk.inj heq).2.trans hkey))
    · rw [if_neg fun heq => hkey heq.2, ← h.mem]
      constructor
      · rintro ⟨u, hu, heq⟩
        obtain ⟨hscore, hobj⟩ := Prod.mk.inj heq
        exact ⟨u, mem_of_mem_eraseIdx hu, hscore, hobj⟩
      · rintro ⟨u, hu, hscore, hobj⟩
        obtain ⟨q, hq⟩ := mem_iff_getElem?.mp hu
        have hqk : q ≠ k := by
          rintro rfl
          rw [← Option.some.inj (ht.symm.trans hq)] at hobj
          exact hkey hobj.symm
        exact ⟨u, mem_eraseIdx_iff_getElem?.mpr ⟨q, hqk, hq⟩, by rw [hscore, hobj]⟩
  others d hd key := by
    rw [Dataset.set_apply, if_neg fun heq => hd heq.1]
    exact h.slots.others d hd key

/-- `dbDelete` of a key takes it out of the tables and of the skiplist. -/
theorem dbDelete_spec (h : Holds env s ts D) (ht : ts[k]? = some t) :
    ∃ s', dbDelete s 0 t.obj = some (s', true) ∧
      Holds env s' (ts.eraseIdx k) (D.set 0 t.obj none) := by
  obtain ⟨hscore, hsome⟩ := h.key ht
  have hdict : ((s.db 0).dict.toFun t.obj).isSome := by
    rw [show (s.db 0).dict.toFun t.obj = (D 0 t.obj).map Prod.fst from h.represents.dict 0 t.obj]
    simpa using hsome
  obtain ⟨dict, hdelete, hfun⟩ := sdsDict_delete hdict
  obtain ⟨zsl, hzsl, hinv⟩ := zslDelete_spec h.inv ht
  rw [hscore] at hzsl
  refine ⟨_, by rw [dbDelete, hdelete, hzsl]; rfl, h.enabled, hinv, ?_⟩
  exact h.represents.update hfun (expires_delete (s.db 0).expires t.obj) fun _ =>
    h.slots_eraseIdx ht

/-- What is left without the keys of a slot. -/
def withoutSlot (D : Dataset V) (hashslot : Nat) : Dataset V := fun d key =>
  if keyHashSlot key = hashslot then none else D d key

/-- A slot without towers has no keys. -/
theorem Holds.withoutSlot_eq (h : Holds env s ts D) (hslot : SlotAt ts hashslot c 0) :
    withoutSlot D hashslot = D := by
  funext d key
  rw [withoutSlot]
  split
  next hkey =>
    rcases Nat.eq_zero_or_pos d with rfl | hd
    · cases hentry : D 0 key with
      | none => rfl
      | some x =>
        obtain ⟨t, ht, hscore, -⟩ := h.mem.mpr ⟨hkey.symm, by rw [hentry]; rfl⟩
        obtain ⟨q, hq⟩ := mem_iff_getElem?.mp ht
        have := (hslot.iff q t hq).mp hscore
        omega
    · exact (h.slots.others d (Nat.ne_of_gt hd) key).symm
  next => rfl

theorem withoutSlot_set (D : Dataset V) {key : Key} (hkey : keyHashSlot key = hashslot) (d : Nat) :
    withoutSlot (D.set d key none) hashslot = withoutSlot D hashslot := by
  funext d' key'
  rw [withoutSlot, withoutSlot, Dataset.set_apply]
  split
  next => rfl
  next hne => rw [if_neg]; rintro ⟨-, rfl⟩; exact hne hkey

/-- The loop deletes the keys of the slot that are left, one after the other. -/
theorem delKeysInSlotLoop_spec (h : Holds env s ts D) (hslot : SlotAt ts hashslot c m) {fuel : Nat}
    (hfuel : m < fuel) :
    ∃ s' ts', delKeysInSlotLoop hashslot fuel s (ts[c]?.map Tower.addr) = some (s', m) ∧
      Holds env s' ts' (withoutSlot D hashslot) := by
  induction m generalizing s ts D fuel with
  | zero =>
    obtain ⟨fuel, rfl⟩ : ∃ f, fuel = f + 1 := ⟨fuel - 1, by omega⟩
    refine ⟨s, ts, ?_, by rw [h.withoutSlot_eq hslot]; exact h⟩
    cases ht : ts[c]? with
    | none => rfl
    | some t =>
      obtain ⟨nd, hnd, -, hscore⟩ := h.inv.node_at ht
      have hout : nd.score ≠ hashslot := fun heq => by
        have := (hslot.iff c t ht).mp (hscore.symm.trans heq)
        omega
      rw [map_some, delKeysInSlotLoop, hnd, some_bind,
        if_neg hout]
      rfl
  | succ m ih =>
    obtain ⟨fuel, rfl⟩ : ∃ f, fuel = f + 1 := ⟨fuel - 1, by omega⟩
    have hle := hslot.le
    have ht := getElem?_eq_getElem (show c < ts.length by omega)
    obtain ⟨nd, hnd, hobj, hscore⟩ := h.inv.node_at ht
    have hin : nd.score = hashslot := hscore.trans ((hslot.iff c _ ht).mpr (by omega))
    have hnext := h.inv.zslNext_at (p := c + 1) (by omega)
    rw [addrAt_succ _ ht] at hnext
    obtain ⟨s', hdelete, h'⟩ := dbDelete_spec h ht
    obtain ⟨s'', ts'', hloop, h''⟩ := ih h' hslot.eraseIdx (show m < fuel by omega)
    rw [getElem?_eraseIdx, if_neg (Nat.lt_irrefl c)] at hloop
    have hkey : keyHashSlot ts[c].obj = hashslot := by
      rw [← (h.key ht).1, ← hscore]
      exact hin
    rw [withoutSlot_set D hkey 0] at h''
    refine ⟨s'', ts'', ?_, h''⟩
    rw [ht, map_some, delKeysInSlotLoop, hnd, some_bind,
      if_pos hin, hobj, some_bind, hnext, some_bind, hdelete, some_bind]
    dsimp only
    rw [hloop]
    rfl

theorem delKeysInSlot_spec (h : Holds env s ts D) (hashslot : Nat) :
    ∃ s' ts', delKeysInSlot s hashslot =
        some (s', UInt32.ofNat (ts.filter fun t => t.score = hashslot).length) ∧
      Holds env s' ts' (withoutSlot D hashslot) := by
  obtain ⟨c, m, hslot, hfilter⟩ := h.inv.slotAt hashslot
  have hle := hslot.le
  have hkeys := hfilter
  simp only [slotRange_contains] at hkeys
  rw [delKeysInSlot, hkeys, length_take, length_drop, Nat.min_eq_left (by omega)]
  cases m with
  | zero =>
    rw [SlotAt.empty h.inv hfilter]
    exact ⟨s, ts, rfl, by rw [h.withoutSlot_eq hslot]; exact h⟩
  | succ m =>
    obtain ⟨s', ts', hloop, h'⟩ := delKeysInSlotLoop_spec h hslot
      (show m + 1 < s.slotsToKeys.length + 1 by rw [h.inv.length]; omega)
    refine ⟨s', ts', ?_, h'⟩
    rw [(hslot.ends h.inv hfilter).1, some_bind, hloop]
    rfl

end Delete

/-! ## All queries -/

/-- The queries of every skiplist are exact: ranks and positions are the same thing, a range gives
its first and last node, and the functions on slots count, list and delete the keys of a slot. -/
theorem queries_exact :
    (∀ {S : Type} [LinearOrder S] {zsl : Zskiplist S} {ts : List (Tower S)}, Inv zsl ts →
      (∀ t ∈ ts, ∃ rank, zslGetRank zsl t.score t.obj = some rank ∧
        zslGetElementByRank zsl rank = some (some t.addr)) ∧
      (∀ rank, 1 ≤ rank → rank ≤ zsl.length → ∃ t ∈ ts,
        zslGetElementByRank zsl rank = some (some t.addr) ∧
          zslGetRank zsl t.score t.obj = some rank) ∧
      ∀ spec : Zrangespec S,
        zslFirstInRange zsl spec =
          some ((ts.filter fun t => spec.contains t.score).head?.map Tower.addr) ∧
        zslLastInRange zsl spec =
          some ((ts.filter fun t => spec.contains t.score).getLast?.map Tower.addr)) ∧
    ∀ {V : Type} {env : Env} {s : ClusterServer V} {ts : List (Tower Nat)} {D : Dataset V},
      Holds env s ts D → ∀ hashslot, ∃ keys : List Key, keys.Nodup ∧
        (∀ key, key ∈ keys ↔ keyHashSlot key = hashslot ∧ (D 0 key).isSome) ∧
        countKeysInSlot s.slotsToKeys hashslot = some (UInt32.ofNat keys.length) ∧
        (∀ count : UInt32, getKeysInSlot s.slotsToKeys hashslot count =
          some (UInt32.ofNat (keys.take count.toNat).length, keys.take count.toNat)) ∧
        ∃ s' ts', delKeysInSlot s hashslot = some (s', UInt32.ofNat keys.length) ∧
          Holds env s' ts' (withoutSlot D hashslot) := by
  refine ⟨fun {S} _ {zsl ts} h => ⟨fun t ht => ?_, fun rank hpos hle => ?_, fun spec => ?_⟩,
    fun {V env s ts D} h hashslot => ?_⟩
  · obtain ⟨q, hq⟩ := mem_iff_getElem?.mp ht
    exact ⟨q + 1, zslGetRank_eq h hq, zslGetElementByRank_eq h hq⟩
  · obtain ⟨q, rfl⟩ : ∃ q, rank = q + 1 := ⟨rank - 1, by omega⟩
    have hq := getElem?_eq_getElem (show q < ts.length by rw [← h.length]; omega)
    exact ⟨_, mem_of_getElem? hq, zslGetElementByRank_eq h hq, zslGetRank_eq h hq⟩
  · exact ⟨zslFirstInRange_eq h spec, zslLastInRange_eq h spec⟩
  · refine ⟨(ts.filter fun t => t.score = hashslot).map Tower.obj, ?_, fun key => ?_, ?_,
      getKeysInSlot_eq h.inv hashslot, ?_⟩
    · exact h.inv.distinct.sublist (filter_sublist.map Tower.obj)
    · rw [eq_comm, ← h.mem, List.mem_map]
      simp only [mem_filter, decide_eq_true_eq, and_assoc]
    · rw [length_map]
      exact countKeysInSlot_eq h.inv hashslot
    · rw [length_map]
      exact delKeysInSlot_spec h hashslot

/-- A skiplist with one node. -/
def oneNode (score : Nat) (obj : Key) : Zskiplist Nat where
  node y :=
    if y = 0 then some ⟨none, 0, none, ⟨some 1, 1⟩ :: replicate 31 ⟨none, 0⟩⟩
    else if y = 1 then some ⟨some obj, score, none, [⟨none, 0⟩]⟩
    else none
  header := 0
  tail := some 1
  length := 1
  level := 1

theorem oneNode_inv (score : Nat) (obj : Key) : Inv (oneNode score obj) [⟨1, score, obj, 1⟩] where
  addrs := nodup_cons.mpr ⟨by simp [oneNode], nodup_singleton 1⟩
  header := by
    refine ⟨_, rfl, rfl, rfl, fun i hi => ?_, fun i l hi hl => ?_⟩
    · obtain rfl : i = 0 := Nat.lt_one_iff.mp hi
      rfl
    · obtain ⟨j, rfl⟩ : ∃ j, i = j + 1 := ⟨i - 1, (Nat.sub_add_cancel hi).symm⟩
      rw [eq_of_mem_replicate (mem_of_getElem? hl)]
  node q t ht := by
    cases q with
    | zero =>
      obtain rfl := Option.some.inj ht
      refine ⟨_, rfl, rfl, rfl, rfl, fun i hi => ?_, rfl⟩
      obtain rfl : i = 0 := Nat.lt_one_iff.mp hi
      rfl
    | succ q => cases ht
  heights t ht := by
    obtain rfl := mem_singleton.mp ht
    exact ⟨Nat.one_pos, Nat.le_refl 1⟩
  level := ⟨Nat.one_pos, Nat.le_add_left 1 31⟩
  length := rfl
  tail := rfl
  sorted := pairwise_singleton _ _
  distinct := nodup_singleton _

/-- A server in a cluster with one key. -/
def oneKey (key : Key) : ClusterServer Unit where
  db d := if d = 0 then ⟨⟨[(key, ())], nodup_singleton _⟩, .empty⟩ else ⟨.empty, .empty⟩
  slotsToKeys := oneNode (keyHashSlot key) key

theorem oneKey_holds (key : Key) :
    Holds ⟨0, false, false, true, 16⟩ (oneKey key) [⟨1, keyHashSlot key, key, 1⟩]
      (Dataset.set (fun _ _ => none) 0 key (some ((), none))) where
  enabled := rfl
  inv := oneNode_inv (keyHashSlot key) key
  represents := by
    refine .of_tables (fun d key' => ?_) (fun d key' => ?_) fun _ => ?_
    · by_cases hd : d = 0
      · by_cases hkey : key' = key
        · simp [oneKey, Keyed.Table.toFun, Keyed.lookup_cons, hd, hkey]
        · simp [oneKey, Dataset.set_apply, Keyed.Table.toFun, Keyed.lookup_cons, hd, hkey,
            Ne.symm hkey]
      · simp [oneKey, Dataset.set_apply, hd]
    · rw [Dataset.set_apply]
      by_cases hd : d = 0 <;> by_cases hkey : key' = key <;> simp [oneKey, hd, hkey]
    · refine ⟨pairwise_singleton _ _, fun slot key' => ?_, fun d hd key' => ?_⟩
      · rw [Dataset.set_apply]
        by_cases hkey : key' = key <;> simp [hkey]
      · rw [Dataset.set_apply, if_neg fun heq => hd heq.1]

/-- One key, of which the rank is found and which is deleted with its slot. -/
theorem queries_exact_one :
    zslGetRank (oneNode 7 [97]) 7 [97] = some 1 ∧
      ∃ (keys : List Key) (s' : ClusterServer Unit), [97] ∈ keys ∧
        delKeysInSlot (oneKey [97]) (keyHashSlot [97]) = some (s', UInt32.ofNat keys.length) := by
  obtain ⟨-, hranks, -⟩ := queries_exact.1 (oneNode_inv 7 [97])
  obtain ⟨t, ht, -, hrank⟩ := hranks 1 (Nat.le_refl 1) (Nat.le_refl 1)
  obtain rfl := mem_singleton.mp ht
  obtain ⟨keys, -, hmem, -, -, s', ts', hdel, -⟩ :=
    queries_exact.2 (oneKey_holds [97]) (keyHashSlot [97])
  exact ⟨hrank, keys, s', (hmem [97]).mpr ⟨rfl, rfl⟩, hdel⟩

end Redis.Skiplist
