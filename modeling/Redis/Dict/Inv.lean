import Redis.Chains
import Redis.Dict

/-!
# Redis.Dict.Inv

The invariant that ties the two tables, the counters and `rehashidx`
together, and its preservation by every operation in every phase of a
rehash.

An operation is described by what it does to the entries of the dict as a
whole (`dictEntries`, up to order): a rehash step permutes them, an addition
puts one in front, a deletion takes one out.  The finite-map reading of
`Redis.Dict.Refine` and the scan guarantee of `Redis.Dict.Scan` only use
these descriptions.
-/

namespace Redis

open List

variable {K V : Type} {ty : DictType K}
variable {n size : Nat} {t : Dictht K V} {key : K} {d : Dict K V}

/-! ## The invariant -/

/-- An allocated table: its size is a power of two, every entry sits in the
bucket `hash & sizemask`, and `used` counts the entries. -/
structure HtInv (ty : DictType K) (t : Dictht K V) : Prop where
  size_pow : ∃ k, t.size = 2 ^ k ∧ k ≤ 63
  mask : t.sizemask = t.size - 1
  length : t.table.length = zcallocSlots t.size
  placed : ∀ (i : Nat) (c : List (DictEntry K V)), t.table[i]? = some c →
    ∀ e ∈ c, dictHashKey ty e.key &&& t.sizemask = i
  used : t.used = t.table.flatten.length

/-- All entries of a dict, those of `ht[0]` first. -/
def dictEntries (d : Dict K V) : List (DictEntry K V) :=
  d.ht0.table.flatten ++ d.ht1.table.flatten

/-- No two entries of the list have equal keys. -/
def DistinctKeys (ty : DictType K) (l : List (DictEntry K V)) : Prop :=
  l.Pairwise fun e f => ty.keyCompare e.key f.key = false

structure DictInv (ty : DictType K) (d : Dict K V) : Prop where
  ht0 : d.ht0 = dictReset ∨ HtInv ty d.ht0
  idle : d.rehashidx = -1 → d.ht1 = dictReset
  busy : d.rehashidx ≠ -1 → HtInv ty d.ht0 ∧ HtInv ty d.ht1
  nonneg : d.rehashidx ≠ -1 → 0 ≤ d.rehashidx
  /-- The buckets a rehash has passed are empty. -/
  passed : d.rehashidx ≠ -1 → ∀ i < d.rehashidx.toNat, ∀ c, d.ht0.table[i]? = some c → c = []
  distinct : DistinctKeys ty (dictEntries d)

/-- Both tables are small enough for their allocation not to overflow. -/
def DictFits (d : Dict K V) : Prop := d.ht0.size ≤ 2 ^ 60 ∧ d.ht1.size ≤ 2 ^ 60

/-- The table new entries go to. -/
def dictTarget (d : Dict K V) : Dictht K V := if dictIsRehashing d then d.ht1 else d.ht0

/-! ## Conversion to `int` -/

theorem toInt32_eq (h : n < 2 ^ 32) :
    toInt32 n = if n < 2 ^ 31 then (n : Int) else (n : Int) - 2 ^ 32 := by
  rw [toInt32, BitVec.toInt_eq_toNat_cond, BitVec.toNat_ofNat, Nat.mod_eq_of_lt h]
  split <;> split <;> omega

theorem toInt32_toNat (h : n < 2 ^ 32) (hn : ¬ toInt32 n < 0) : (toInt32 n).toNat = n := by
  rw [toInt32_eq h] at hn ⊢
  split at hn <;> split <;> omega

/-! ## Keys -/

theorem DictType.keyCompare_comm (ty : DictType K) (k l : K) :
    ty.keyCompare k l = ty.keyCompare l k := by
  cases h : ty.keyCompare k l with
  | true => exact (ty.keyCompare_symm k l h).symm
  | false =>
    cases h' : ty.keyCompare l k with
    | true => rw [ty.keyCompare_symm l k h'] at h; contradiction
    | false => rfl

theorem dictHashKey_congr {k l : K} (h : ty.keyCompare k l = true) :
    dictHashKey ty k = dictHashKey ty l := by
  rw [dictHashKey, dictHashKey, ty.hashFunction_congr k l h]

variable {c chain l : List (DictEntry K V)}

theorem DistinctKeys.perm {l' : List (DictEntry K V)} (h : DistinctKeys ty l) (hp : l.Perm l') :
    DistinctKeys ty l' :=
  (hp.pairwise_iff fun {e f} hef => by rw [ty.keyCompare_comm]; exact hef).mp h

/-- In a duplicate-free list equal keys belong to the same entry. -/
theorem DistinctKeys.eq_of_keyCompare (h : DistinctKeys ty l) {e f : DictEntry K V} (he : e ∈ l)
    (hf : f ∈ l) (hk : ty.keyCompare e.key f.key = true) : e = f := by
  by_contra hne
  have hsymm : Std.Symm fun e f : DictEntry K V => ty.keyCompare e.key f.key = false :=
    ⟨fun a b hab => by rw [ty.keyCompare_comm]; exact hab⟩
  have := Pairwise.forall h he hf hne
  rw [hk] at this
  contradiction

/-! ## One table -/

theorem HtInv.size_pos (h : HtInv ty t) : 0 < t.size := by
  obtain ⟨k, hk, -⟩ := h.size_pow
  rw [hk]
  exact Nat.two_pow_pos k

theorem HtInv.and_mask_lt (h : HtInv ty t) (n : Nat) : n &&& t.sizemask < t.size := by
  have hpos := h.size_pos
  have hle : n &&& t.sizemask ≤ t.sizemask := Nat.and_le_right
  rw [h.mask] at hle ⊢
  omega

theorem zcallocSlots_eq (h : n ≤ 2 ^ 60) : zcallocSlots n = n := by
  unfold zcallocSlots
  rw [Nat.mod_eq_of_lt (by omega)]
  omega

/-- Within the allocation bound every masked index is inside the table. -/
theorem HtInv.getElem?_and_mask (h : HtInv ty t) (hfit : t.size ≤ 2 ^ 60) (n : Nat) :
    ∃ c, t.table[n &&& t.sizemask]? = some c := by
  have hlt : n &&& t.sizemask < t.table.length := by
    rw [h.length, zcallocSlots_eq hfit]
    exact h.and_mask_lt n
  exact ⟨_, getElem?_eq_getElem hlt⟩

/-- Replacing one chain by entries of the same bucket keeps the table sound
as long as `used` follows. -/
theorem HtInv.replace (h : HtInv ty t) {i used' : Nat} {c' : List (DictEntry K V)}
    (hc : t.table[i]? = some c) (hplaced : ∀ e ∈ c', dictHashKey ty e.key &&& t.sizemask = i)
    (hused : used' + c.length = t.used + c'.length) :
    HtInv ty { t with table := t.table.set i c', used := used' } where
  size_pow := h.size_pow
  mask := h.mask
  length := by rw [length_set]; exact h.length
  placed := by
    intro j x hj e he
    by_cases hij : i = j
    · subst hij
      have hlt : i < t.table.length := (List.getElem?_eq_some_iff.mp hc).1
      rw [getElem?_set_self hlt, Option.some.injEq] at hj
      subst hj
      exact hplaced e he
    · rw [getElem?_set_ne hij] at hj
      exact h.placed j x hj e he
  used := by
    have hlen := (Chains.flatten_set_perm c' hc).length_eq
    rw [length_append, length_append, ← h.used] at hlen
    change used' = (t.table.set i c').flatten.length
    omega

/-- The search of one chain finds the entry whose key is equal, if there is one. -/
theorem dictFindInChain_some {pos : Nat} (h : dictFindInChain ty key chain = some pos) :
    ∃ e, chain[pos]? = some e ∧ ty.keyCompare key e.key = true := by
  rw [dictFindInChain, findIdx?_eq_some_iff_getElem] at h
  obtain ⟨hlt, hp, -⟩ := h
  exact ⟨chain[pos], getElem?_eq_getElem hlt, hp⟩

theorem dictFindInChain_none (h : dictFindInChain ty key chain = none) :
    ∀ e ∈ chain, ty.keyCompare key e.key = false := by
  intro e he
  rw [dictFindInChain, findIdx?_eq_none_iff] at h
  exact h e he

/-- If the chain of a key does not hold it, neither does the table. -/
theorem HtInv.not_mem_of_chain (h : HtInv ty t)
    (hc : t.table[dictHashKey ty key &&& t.sizemask]? = some c)
    (hnone : dictFindInChain ty key c = none) :
    ∀ e ∈ t.table.flatten, ty.keyCompare key e.key = false := by
  intro e he
  obtain ⟨i, x, hx, hex⟩ := Chains.exists_chain_of_mem_flatten he
  cases hk : ty.keyCompare key e.key with
  | false => rfl
  | true =>
    have hi := h.placed i x hx e hex
    rw [← dictHashKey_congr hk] at hi
    rw [hi, hx, Option.some.injEq] at hc
    subst hc
    rw [dictFindInChain_none hnone e hex] at hk
    contradiction

/-! ## `dictExpand` -/

theorem dictNextPowerLoop_spec (size fuel k : Nat) (h : size ≤ 2 ^ (k + fuel)) :
    ∃ j, dictNextPowerLoop size fuel (2 ^ k) = 2 ^ j ∧ k ≤ j ∧ size ≤ 2 ^ j ∧
      (j = k ∨ 2 ^ (j - 1) < size) := by
  induction fuel generalizing k with
  | zero => exact ⟨k, rfl, le_refl k, h, Or.inl rfl⟩
  | succ fuel ih =>
    rw [dictNextPowerLoop]
    split
    · next hge => exact ⟨k, rfl, le_refl k, hge, Or.inl rfl⟩
    · next hlt =>
        rw [← Nat.pow_succ]
        obtain ⟨j, hj, hkj, hle, hor⟩ := ih (k + 1) (by rw [Nat.add_right_comm]; exact h)
        refine ⟨j, hj, by omega, hle, Or.inr ?_⟩
        rcases hor with rfl | hor
        · rw [Nat.add_sub_cancel]; omega
        · exact hor

/-- `_dictNextPower` returns the least power of two that is at least `size`
(and at least the initial size). -/
theorem dictNextPower_spec (h : size < LONG_MAX) :
    ∃ k, dictNextPower size = 2 ^ k ∧ 2 ≤ k ∧ size ≤ 2 ^ k ∧ (k = 2 ∨ 2 ^ (k - 1) < size) := by
  rw [dictNextPower, if_neg (by omega)]
  have hsize : size ≤ 2 ^ (2 + 64) := by unfold LONG_MAX at h; omega
  exact dictNextPowerLoop_spec size 64 2 hsize

theorem dictNextPower_le (b : Nat) (hb : 2 ≤ b) (hb' : b ≤ 62) (h : size ≤ 2 ^ b) :
    dictNextPower size ≤ 2 ^ b := by
  have hmax : size < LONG_MAX := by
    have : 2 ^ b ≤ 2 ^ 62 := Nat.pow_le_pow_right (by decide) hb'
    unfold LONG_MAX; omega
  obtain ⟨k, hk, -, -, hor⟩ := dictNextPower_spec hmax
  rw [hk]
  apply Nat.pow_le_pow_right (by decide)
  rcases hor with rfl | hlt
  · exact hb
  · have hlt' : 2 ^ (k - 1) < 2 ^ b := Nat.lt_of_lt_of_le hlt h
    have := (Nat.pow_lt_pow_iff_right (by decide : 1 < 2)).mp hlt'
    omega

theorem htInv_alloc (h : size < LONG_MAX) :
    HtInv ty (⟨replicate (zcallocSlots (dictNextPower size)) [], dictNextPower size,
      dictNextPower size - 1, 0⟩ : Dictht K V) where
  size_pow := by
    obtain ⟨k, hk, h2, -, hor⟩ := dictNextPower_spec h
    refine ⟨k, hk, ?_⟩
    rcases hor with rfl | hlt
    · decide
    · have hlt' : 2 ^ (k - 1) < 2 ^ 63 := by unfold LONG_MAX at h; omega
      have := (Nat.pow_lt_pow_iff_right (by decide : 1 < 2)).mp hlt'
      omega
  mask := rfl
  length := by simp
  placed := by
    intro i c hc e he
    have hmem := mem_of_getElem? hc
    rw [mem_replicate] at hmem
    rw [hmem.2] at he
    contradiction
  used := by simp

/-- What an operation that only moves entries guarantees. -/
structure DictMoved (ty : DictType K) (d d' : Dict K V) : Prop where
  inv : DictInv ty d'
  perm : (dictEntries d').Perm (dictEntries d)
  iterators : d'.iterators = d.iterators

theorem DictMoved.refl (h : DictInv ty d) : DictMoved ty d d :=
  ⟨h, List.Perm.refl _, rfl⟩

theorem DictMoved.trans {d' d'' : Dict K V} (h : DictMoved ty d d') (h' : DictMoved ty d' d'') :
    DictMoved ty d d'' :=
  ⟨h'.inv, h'.perm.trans h.perm, h'.iterators.trans h.iterators⟩

theorem dictIsRehashing_eq_false : dictIsRehashing d = false ↔ d.rehashidx = -1 := by
  simp [dictIsRehashing]

theorem dictIsRehashing_eq_true : dictIsRehashing d = true ↔ d.rehashidx ≠ -1 := by
  simp [dictIsRehashing]

/-- The three things `dictExpand` can do. -/
theorem dictExpand_cases (d : Dict K V) (size : Nat) :
    (dictExpand d size = (d, false) ∧
      (d.rehashidx ≠ -1 ∨ size < d.ht0.used ∨ dictNextPower size = d.ht0.size)) ∨
    (d.rehashidx = -1 ∧ d.ht0.used ≤ size ∧ dictNextPower size ≠ d.ht0.size ∧
      ∃ n : Dictht K V, n = ⟨replicate (zcallocSlots (dictNextPower size)) [],
          dictNextPower size, dictNextPower size - 1, 0⟩ ∧
        ((d.ht0.size = 0 ∧ dictExpand d size = ({ d with ht0 := n }, true)) ∨
         (d.ht0.size ≠ 0 ∧ dictExpand d size = ({ d with ht1 := n, rehashidx := 0 }, true)))) := by
  unfold dictExpand
  by_cases hre : d.rehashidx = -1
  · by_cases hused : d.ht0.used > size
    · left; simp [hused]
    · by_cases hsize : dictNextPower size = d.ht0.size
      · left; simp [hsize]
      · right
        refine ⟨hre, by omega, hsize, _, rfl, ?_⟩
        have hr : dictIsRehashing d = false := dictIsRehashing_eq_false.mpr hre
        by_cases h0 : d.ht0.size = 0
        · left; refine ⟨h0, ?_⟩; simp [hr, hused, h0]; rw [h0] at hsize; simp [hsize]
        · right; refine ⟨h0, ?_⟩; simp [hr, hused, hsize, h0]
  · left; simp [dictIsRehashing_eq_true.mpr hre, hre]

theorem HtInv.ne_reset (h : HtInv ty t) : t.size ≠ 0 := by
  have := h.size_pos
  omega

theorem DictInv.ht0_reset_of_size (h : DictInv ty d) (h0 : d.ht0.size = 0) : d.ht0 = dictReset := by
  rcases h.ht0 with hr | hi
  · exact hr
  · exact absurd h0 hi.ne_reset

theorem DictInv.ht0_inv_of_size (h : DictInv ty d) (h0 : d.ht0.size ≠ 0) : HtInv ty d.ht0 := by
  rcases h.ht0 with hr | hi
  · rw [hr] at h0; exact absurd rfl h0
  · exact hi

theorem dictExpand_moved (h : DictInv ty d) (hs : size < LONG_MAX) :
    DictMoved ty d (dictExpand d size).1 := by
  rcases dictExpand_cases d size with ⟨he, -⟩ | ⟨hre, -, -, n, hn, ⟨h0, he⟩ | ⟨h0, he⟩⟩
  · rw [he]; exact DictMoved.refl h
  · have hreset := h.ht0_reset_of_size h0
    have hn' : HtInv ty n := by rw [hn]; exact htInv_alloc hs
    have hentries : dictEntries { d with ht0 := n } = dictEntries d := by
      rw [dictEntries, dictEntries, hreset, hn]; simp [dictReset]
    rw [he]
    exact {
      inv := {
        ht0 := Or.inr hn'
        idle := h.idle
        busy := fun hb => absurd hre hb
        nonneg := h.nonneg
        passed := fun hb => absurd hre hb
        distinct := by rw [hentries]; exact h.distinct }
      perm := by rw [hentries]
      iterators := rfl }
  · have hn' : HtInv ty n := by rw [hn]; exact htInv_alloc hs
    have hentries : dictEntries { d with ht1 := n, rehashidx := 0 } = dictEntries d := by
      rw [dictEntries, dictEntries, h.idle hre, hn]; simp [dictReset]
    rw [he]
    exact {
      inv := {
        ht0 := h.ht0
        idle := fun hi => by simp at hi
        busy := fun _ => ⟨h.ht0_inv_of_size h0, hn'⟩
        nonneg := fun _ => Int.le_refl 0
        passed := fun _ i hi => by simp at hi
        distinct := by rw [hentries]; exact h.distinct }
      perm := by rw [hentries]
      iterators := rfl }

end Redis
