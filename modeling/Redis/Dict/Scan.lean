import Redis.BitReverse
import Redis.Dict.Refine

/-!
# Redis.Dict.Scan

`dictScan`, the stateless cursor of the `SCAN` family, and its coverage
guarantee over runs in which the dict is modified between the calls.

A cursor stands for a point of the reversed bit order: what lies below it has
been visited.  With one table a call visits exactly one interval of that
order (`Redis.BitReverse`).  During a rehash the call walks the expansions of
the cursor in the larger table in plain numeric order, from the cursor
upwards: the walk is complete only if the cursor's bits between the two
masks are a run of low ones (`ScanAligned`).  A cursor handed out by a table
larger than the one being shrunk to need not be of that form, and then
expansions are skipped.
-/

namespace Redis

variable {K V : Type} {ty : DictType K}
variable {i a b : Nat} {e : DictEntry K V} {v v' : Cursor} {em : List (DictEntry K V)}
  {d : Dict K V}

/-! ## The model -/

/-- `unsigned long`, the type of a cursor. -/
abbrev Cursor := BitVec 64

/-- The loop of `rev`; the shift halves from 64 to 0 in seven rounds. -/
def revLoop : (fuel : Nat) → (s : Nat) → (mask v : Cursor) → Cursor
  | 0, _, _, v => v
  | fuel + 1, s, mask, v =>
    let s := s >>> 1
    if s > 0 then
      let mask := mask ^^^ (mask <<< s)
      revLoop fuel s mask (((v >>> s) &&& mask) ||| ((v <<< s) &&& ~~~mask))
    else v

/-- `rev`: reverse the bits. -/
def rev (v : Cursor) : Cursor := revLoop 7 64 (~~~0) v

def scanMask (t : Dictht K V) : Cursor := BitVec.ofNat 64 t.sizemask

/-- `de = t->table[v & m]` and the callbacks on its chain. -/
def scanEmit (t : Dictht K V) (v : Cursor) : Option (List (DictEntry K V)) :=
  t.table[(v &&& scanMask t).toNat]?

/-- `v = (((v | m0) + 1) & ~m0) | (v & m0)`. -/
def scanNextExpansion (m0 v : Cursor) : Cursor := (((v ||| m0) + 1) &&& ~~~m0) ||| (v &&& m0)

/-- The `do … while (v & (m0 ^ m1))` loop over the larger table. -/
def scanExpansions (t1 : Dictht K V) (m0 : Cursor) :
    (fuel : Nat) → Cursor → Option (List (DictEntry K V) × Cursor)
  | 0, _ => none
  | fuel + 1, v => do
    let de ← scanEmit t1 v
    let v := scanNextExpansion m0 v
    if v &&& (m0 ^^^ scanMask t1) ≠ 0 then
      let (rest, v) ← scanExpansions t1 m0 fuel v
      return (de ++ rest, v)
    else return (de, v)

/-- `v |= ~m0; v = rev(v); v++; v = rev(v);`. -/
def scanAdvance (m0 v : Cursor) : Cursor := rev (rev (v ||| ~~~m0) + 1)

/-- The two tables of a rehash, the smaller one first. -/
def scanTables (d : Dict K V) : Dictht K V × Dictht K V :=
  if d.ht0.size > d.ht1.size then (d.ht1, d.ht0) else (d.ht0, d.ht1)

/-- `dictScan`: the entries passed to the callback, in order, and the next
cursor.  The larger table has at most as many expansions as slots. -/
def dictScan (d : Dict K V) (v : Cursor) : Option (List (DictEntry K V) × Cursor) := do
  if dictSize d = 0 then return ([], 0)
  else if !dictIsRehashing d then
    let de ← scanEmit d.ht0 v
    return (de, scanAdvance (scanMask d.ht0) v)
  else
    let (t0, t1) := scanTables d
    let de ← scanEmit t0 v
    let (rest, v) ← scanExpansions t1 (scanMask t0) t1.size v
    return (de ++ rest, scanAdvance (scanMask t0) v)

/-! ## `rev` reverses the bits -/

/-- One round of `rev`, with its mask. -/
def revRound (s : Nat) (mask v : Cursor) : Cursor :=
  ((v >>> s) &&& mask) ||| ((v <<< s) &&& ~~~mask)

/-- The number of the bit that a round with shift `s` brings to place `i`. -/
def revSource (s i : Nat) : Nat := if i % (2 * s) < s then i + s else i - s

theorem rev_eq_rounds (v : Cursor) :
    rev v = revRound 1 0x5555555555555555 (revRound 2 0x3333333333333333
      (revRound 4 0x0f0f0f0f0f0f0f0f (revRound 8 0x00ff00ff00ff00ff
        (revRound 16 0x0000ffff0000ffff (revRound 32 0x00000000ffffffff v))))) := rfl

/-- A round exchanges the bits whose numbers differ in the bit `s`, when its
mask marks the lower ones. -/
theorem getLsbD_revRound {s : Nat} {mask : Cursor} (v : Cursor)
    (hm : ∀ i < 64, mask.getLsbD i = decide (i % (2 * s) < s)) (hi : i < 64) :
    (revRound s mask v).getLsbD i = v.getLsbD (revSource s i) := by
  have hs : ¬ i % (2 * s) < s → s ≤ i := by
    intro h
    have := Nat.mod_le i (2 * s)
    omega
  rw [revRound, revSource, BitVec.getLsbD_or, BitVec.getLsbD_and, BitVec.getLsbD_and,
    BitVec.getLsbD_not, hm i hi, BitVec.getLsbD_ushiftRight, BitVec.getLsbD_shiftLeft]
  by_cases h : i % (2 * s) < s
  · simp [h, hi, Nat.add_comm]
  · simp [h, hi, hs h]

/-- The six rounds together mirror the bit numbers. -/
theorem revSource_rounds : ∀ i < 64,
    revSource 32 (revSource 16 (revSource 8 (revSource 4 (revSource 2 (revSource 1 i))))) = 63 - i ∧
      revSource 1 i < 64 ∧ revSource 2 (revSource 1 i) < 64 ∧
      revSource 4 (revSource 2 (revSource 1 i)) < 64 ∧
      revSource 8 (revSource 4 (revSource 2 (revSource 1 i))) < 64 ∧
      revSource 16 (revSource 8 (revSource 4 (revSource 2 (revSource 1 i)))) < 64 := by
  decide

theorem rev_eq_reverse (v : Cursor) : rev v = v.reverse := by
  refine BitVec.eq_of_getLsbD_eq fun i hi => ?_
  obtain ⟨h, h1, h2, h3, h4, h5⟩ := revSource_rounds i hi
  rw [rev_eq_rounds, getLsbD_revRound _ (by decide) hi, getLsbD_revRound _ (by decide) h1,
    getLsbD_revRound _ (by decide) h2, getLsbD_revRound _ (by decide) h3,
    getLsbD_revRound _ (by decide) h4, getLsbD_revRound _ (by decide) h5, h,
    BitVec.getLsbD_reverse, BitVec.getMsbD_eq_getLsbD]
  simp [hi]

/-! ## Cursors and masks -/

variable {d' : Dict K V} {key : K} {t t1 : Dictht K V}

theorem HtInv.scanMask_eq (h : HtInv ty t) (ha : t.size = 2 ^ a) :
    scanMask t = BitVec.ofNat 64 (2 ^ a - 1) := by
  rw [scanMask, h.mask, ha]

theorem toNat_lowMask (ha : a ≤ 63) : (BitVec.ofNat 64 (2 ^ a - 1)).toNat = 2 ^ a - 1 := by
  have hle : 2 ^ a ≤ 2 ^ 63 := Nat.pow_le_pow_right (by decide) ha
  rw [BitVec.toNat_ofNat, Nat.mod_eq_of_lt (by omega)]

theorem toNat_and_lowMask (v : Cursor) (ha : a ≤ 63) :
    (v &&& BitVec.ofNat 64 (2 ^ a - 1)).toNat = v.toNat % 2 ^ a := by
  rw [BitVec.toNat_and, toNat_lowMask ha, Nat.and_two_pow_sub_one_eq_mod]

/-- The cursor of a key: the place of its hash in the reversed order. -/
def hashCursor (ty : DictType K) (key : K) : Cursor := BitVec.ofNat 64 (dictHashKey ty key)

theorem toNat_hashCursor (key : K) : (hashCursor ty key).toNat = dictHashKey ty key := by
  have : dictHashKey ty key < 2 ^ 32 := UInt32.toNat_lt _
  rw [hashCursor, BitVec.toNat_ofNat, Nat.mod_eq_of_lt (by omega)]

/-- The bucket of an entry, as a remainder. -/
theorem HtInv.bucket_eq (h : HtInv ty t) (ha : t.size = 2 ^ a) {c : List (DictEntry K V)}
    (hc : t.table[i]? = some c) (he : e ∈ c) : (hashCursor ty e.key).toNat % 2 ^ a = i := by
  rw [toNat_hashCursor, ← h.placed i c hc e he, h.mask, ha, Nat.and_two_pow_sub_one_eq_mod]

theorem or_lowMask (x a : Nat) : x ||| (2 ^ a - 1) = 2 ^ a * (x / 2 ^ a) + (2 ^ a - 1) := by
  have hpos := Nat.two_pow_pos a
  refine Nat.eq_of_testBit_eq fun i => ?_
  rw [Nat.testBit_or, Nat.testBit_two_pow_mul_add _ (by omega), Nat.testBit_two_pow_sub_one,
    Nat.testBit_div_two_pow]
  by_cases hi : i < a
  · simp [hi]
  · simp [hi, show i - a + a = i by omega]

/-- The next expansion is the cursor plus the size of the smaller table. -/
theorem toNat_scanNextExpansion (v : Cursor) (ha : a ≤ 63) :
    (scanNextExpansion (BitVec.ofNat 64 (2 ^ a - 1)) v).toNat = (v.toNat + 2 ^ a) % 2 ^ 64 := by
  have hpos := Nat.two_pow_pos a
  have h64 : (2 : Nat) ^ 64 = 2 ^ a * 2 ^ (64 - a) := by
    rw [← Nat.pow_add, show a + (64 - a) = 64 by omega]
  -- the sum before masking is a multiple of the smaller size
  have hsum : ((v ||| BitVec.ofNat 64 (2 ^ a - 1)) + 1).toNat =
      2 ^ a * ((v.toNat / 2 ^ a + 1) % 2 ^ (64 - a)) := by
    rw [BitVec.toNat_add, BitVec.toNat_or, toNat_lowMask ha, or_lowMask]
    rw [show (1 : Cursor).toNat = 1 from rfl, h64, ← Nat.mul_mod_mul_left]
    congr 1
    rw [Nat.mul_add]
    omega
  have hclear : ((v ||| BitVec.ofNat 64 (2 ^ a - 1)) + 1) &&& ~~~BitVec.ofNat 64 (2 ^ a - 1) =
      (v ||| BitVec.ofNat 64 (2 ^ a - 1)) + 1 := by
    refine BitVec.eq_of_getLsbD_eq fun i hi => ?_
    rw [BitVec.getLsbD_and, BitVec.getLsbD_not, BitReverse.testBit_lowMask (by omega)]
    by_cases hia : i < a
    · have hbit : ((v ||| BitVec.ofNat 64 (2 ^ a - 1)) + 1).getLsbD i = false := by
        rw [← BitVec.testBit_toNat, hsum, ← Nat.add_zero (2 ^ a * _),
          Nat.testBit_two_pow_mul_add _ hpos, if_pos hia]
        simp
      rw [hbit, Bool.false_and]
    · simp [hia, hi]
  rw [scanNextExpansion, hclear, BitVec.toNat_or, hsum, toNat_and_lowMask v ha,
    ← Nat.two_pow_add_eq_or_of_lt (Nat.mod_lt _ hpos), h64, Nat.mod_mul,
    Nat.add_mod_right, Nat.add_div_right _ hpos, Nat.add_comm]

/-- `v & (m0 ^ m1)` is zero when the cursor has no bits between the masks. -/
theorem and_xor_masks_eq_zero_iff (v : Cursor) (ha : a ≤ 63) (hb : b ≤ 63) :
    v &&& (BitVec.ofNat 64 (2 ^ a - 1) ^^^ BitVec.ofNat 64 (2 ^ b - 1)) = 0 ↔
      v.toNat % 2 ^ a = v.toNat % 2 ^ b := by
  have hdist : v &&& (BitVec.ofNat 64 (2 ^ a - 1) ^^^ BitVec.ofNat 64 (2 ^ b - 1)) =
      (v &&& BitVec.ofNat 64 (2 ^ a - 1)) ^^^ (v &&& BitVec.ofNat 64 (2 ^ b - 1)) := by
    refine BitVec.eq_of_getLsbD_eq fun i _ => ?_
    simp only [BitVec.getLsbD_and, BitVec.getLsbD_xor]
    cases v.getLsbD i <;> simp
  rw [hdist, BitVec.ofNat_eq_ofNat, BitVec.xor_eq_zero_iff, ← BitVec.toNat_inj,
    toNat_and_lowMask v ha, toNat_and_lowMask v hb]

/-- Stepping by `A` below a multiple `B` of `A` wraps to the first place of
the residue class. -/
theorem mod_eq_add_mod_iff {A B : Nat} (hA : 0 < A) (hdvd : A ∣ B) (hi : i < B) :
    i % A = (i + A) % B ↔ B ≤ i + A := by
  have hle : A ≤ B := Nat.le_of_dvd (by omega) hdvd
  constructor
  · intro heq
    by_contra hlt
    rw [Nat.mod_eq_of_lt (by omega : i + A < B)] at heq
    have := Nat.mod_lt i hA
    omega
  · intro hge
    have hlt : i + A - B < A := by omega
    have hback : i + A - B + B = i + A := by omega
    obtain ⟨q, hq⟩ := hdvd
    calc i % A = (i + A - B + B) % A := by rw [hback, Nat.add_mod_right]
      _ = (i + A - B) % A := by rw [hq, Nat.add_mul_mod_self_left]
      _ = i + A - B := Nat.mod_eq_of_lt hlt
      _ = (i + A) % B := by rw [Nat.mod_eq_sub_mod hge, Nat.mod_eq_of_lt (by omega)]

/-! ## One call -/

/-- The walk over the larger table visits every expansion of the cursor from
the cursor's own bucket on, and keeps the cursor's low bits. -/
theorem scanExpansions_spec (hab : a ≤ b) (hb : b ≤ 63)
    (hm : scanMask t1 = BitVec.ofNat 64 (2 ^ b - 1)) (fuel : Nat)
    (hs : scanExpansions t1 (BitVec.ofNat 64 (2 ^ a - 1)) fuel v = some (em, v')) :
    v'.toNat % 2 ^ a = v.toNat % 2 ^ a ∧
      ∀ (i : Nat) (c : List (DictEntry K V)), i < 2 ^ b → i % 2 ^ a = v.toNat % 2 ^ a →
        v.toNat % 2 ^ b ≤ i → t1.table[i]? = some c → ∀ e ∈ c, e ∈ em := by
  have ha : a ≤ 63 := Nat.le_trans hab hb
  have hdvd : 2 ^ a ∣ 2 ^ b := Nat.pow_dvd_pow 2 hab
  have hposa := Nat.two_pow_pos a
  induction fuel generalizing v em with
  | zero => contradiction
  | succ fuel ih =>
    rw [scanExpansions, bind_eq_some] at hs
    obtain ⟨de, hde, hs⟩ := hs
    rw [scanEmit, hm, toNat_and_lowMask v hb] at hde
    -- the next expansion, modulo the larger size and modulo the smaller one
    have hnext := toNat_scanNextExpansion v ha
    have hnb : (scanNextExpansion (BitVec.ofNat 64 (2 ^ a - 1)) v).toNat % 2 ^ b =
        (v.toNat % 2 ^ b + 2 ^ a) % 2 ^ b := by
      rw [hnext, Nat.mod_mod_of_dvd _ (Nat.pow_dvd_pow 2 (by omega : b ≤ 64)), Nat.mod_add_mod]
    have hna : (scanNextExpansion (BitVec.ofNat 64 (2 ^ a - 1)) v).toNat % 2 ^ a =
        v.toNat % 2 ^ a := by
      rw [hnext, Nat.mod_mod_of_dvd _ (Nat.pow_dvd_pow 2 (by omega : a ≤ 64)), Nat.add_mod_right]
    have hvb : v.toNat % 2 ^ b < 2 ^ b := Nat.mod_lt _ (Nat.two_pow_pos b)
    have hvab : v.toNat % 2 ^ b % 2 ^ a = v.toNat % 2 ^ a := Nat.mod_mod_of_dvd _ hdvd
    have hmask : scanNextExpansion (BitVec.ofNat 64 (2 ^ a - 1)) v &&&
        (BitVec.ofNat 64 (2 ^ a - 1) ^^^ scanMask t1) = 0 ↔
        2 ^ b ≤ v.toNat % 2 ^ b + 2 ^ a := by
      rw [hm, and_xor_masks_eq_zero_iff _ ha hb, hna, hnb, ← hvab]
      exact mod_eq_add_mod_iff hposa hdvd hvb
    -- a bucket that is an expansion of the cursor is this one or a later one
    have hlater : ∀ i, i % 2 ^ a = v.toNat % 2 ^ a → v.toNat % 2 ^ b ≤ i →
        i = v.toNat % 2 ^ b ∨ v.toNat % 2 ^ b + 2 ^ a ≤ i := by
      intro i hia hle
      by_cases heq : i = v.toNat % 2 ^ b
      · exact Or.inl heq
      · right
        by_contra hlt
        have hsub : (i - v.toNat % 2 ^ b) % 2 ^ a = 0 :=
          Nat.sub_mod_eq_zero_of_mod_eq (by rw [hia, hvab])
        rw [Nat.mod_eq_of_lt (by omega)] at hsub
        omega
    simp only at hs
    split at hs
    · next hcont =>
        have hlt := fun hge => hcont (hmask.mpr hge)
        rw [bind_eq_some] at hs
        obtain ⟨⟨rest, v2⟩, hrec, hs⟩ := hs
        obtain ⟨rfl, rfl⟩ := Prod.mk.inj (Option.some.inj hs)
        obtain ⟨hlow, hall⟩ := ih hrec
        rw [hna] at hlow hall
        refine ⟨hlow, ?_⟩
        intro i c hib hia hle hc e he
        rcases hlater i hia hle with rfl | hge
        · rw [hde, Option.some.injEq] at hc
          subst hc
          exact List.mem_append_left _ he
        · refine List.mem_append_right _ (hall i c hib hia ?_ hc e he)
          rw [hnb, Nat.mod_eq_of_lt (by omega)]
          exact hge
    · next hstop =>
        obtain ⟨rfl, rfl⟩ := Prod.mk.inj (Option.some.inj hs)
        have hge := hmask.mp (not_not.mp hstop)
        refine ⟨hna, ?_⟩
        intro i c hib hia hle hc e he
        rcases hlater i hia hle with rfl | hlt
        · rw [hde, Option.some.injEq] at hc
          subst hc
          exact he
        · omega

/-- The cursor has, between the masks of the two tables of a rehash, only a
run of low ones: `((v & m1) | m0) + 1` is a power of two.  A cursor that no
table larger than the smaller one has handed out has no bits there at all. -/
def ScanAligned (d : Dict K V) (v : Cursor) : Prop :=
  dictIsRehashing d = true →
    ∃ k, ((v &&& scanMask (scanTables d).2) ||| scanMask (scanTables d).1).toNat + 1 = 2 ^ k

/-- An aligned cursor is numerically below every hash that shares its low
bits and is not below it in the reversed order. -/
theorem mod_le_mod_of_aligned {h : Cursor} {k : Nat} (hab : a ≤ b) (hb : b ≤ 63)
    (hk : ((v &&& BitVec.ofNat 64 (2 ^ b - 1)) ||| BitVec.ofNat 64 (2 ^ a - 1)).toNat + 1 = 2 ^ k)
    (hlow : h.toNat % 2 ^ a = v.toNat % 2 ^ a) (hle : v.reverse.toNat ≤ h.reverse.toNat) :
    v.toNat % 2 ^ b ≤ h.toNat % 2 ^ b := by
  rw [BitVec.toNat_or, toNat_and_lowMask v hb, toNat_lowMask (Nat.le_trans hab hb)] at hk
  have hones : v.toNat % 2 ^ b ||| (2 ^ a - 1) = 2 ^ k - 1 := by omega
  have hbit : ∀ j, (j < b ∧ v.toNat.testBit j = true ∨ j < a) ↔ j < k := by
    intro j
    have := congrArg (fun n => n.testBit j) hones
    simp only [Nat.testBit_or, Nat.testBit_mod_two_pow, Nat.testBit_two_pow_sub_one] at this
    constructor
    · intro hj
      have : decide (j < k) = true := by
        rw [← this]
        rcases hj with ⟨hjb, hv⟩ | hja
        · simp [hjb, hv]
        · simp [hja]
      simpa using this
    · intro hj
      simp only [hj, decide_true, Bool.or_eq_true, Bool.and_eq_true, decide_eq_true_eq] at this
      exact this
  have hagree : ∀ j < a, h.toNat.testBit j = v.toNat.testBit j := by
    intro j hj
    have := congrArg (fun n => n.testBit j) hlow
    simpa [Nat.testBit_mod_two_pow, hj] using this
  have hkb : k ≤ b := by
    by_contra hlt
    have := (hbit b).mpr (by omega)
    omega
  have hv : ∀ j, a ≤ j → j < k → v.toNat.testBit j = true := by
    intro j haj hjk
    rcases (hbit j).mpr hjk with ⟨-, hv⟩ | hja
    · exact hv
    · omega
  have hh := BitReverse.ones_of_reverse_le (by omega) hle hagree hv
  -- so every bit of the cursor below `b` is a bit of the hash
  have hsub : v.toNat % 2 ^ b &&& h.toNat % 2 ^ b = v.toNat % 2 ^ b := by
    refine Nat.eq_of_testBit_eq fun j => ?_
    simp only [Nat.testBit_and, Nat.testBit_mod_two_pow]
    by_cases hjb : j < b
    · by_cases hja : j < a
      · simp [hjb, hagree j hja]
      · cases hvj : v.toNat.testBit j with
        | false => simp
        | true => simp [hjb, hh j (by omega) ((hbit j).mp (Or.inl ⟨hjb, hvj⟩))]
    · simp [hjb]
  rw [← hsub]
  exact Nat.and_le_right

theorem scanAdvance_eq (m0 v : Cursor) : scanAdvance m0 v = ((v ||| ~~~m0).reverse + 1).reverse := by
  rw [scanAdvance, rev_eq_reverse, rev_eq_reverse]

/-- The advanced cursor only depends on the bits under the mask. -/
theorem scanAdvance_congr (ha : a ≤ 63) (h : v'.toNat % 2 ^ a = v.toNat % 2 ^ a) :
    scanAdvance (BitVec.ofNat 64 (2 ^ a - 1)) v' = scanAdvance (BitVec.ofNat 64 (2 ^ a - 1)) v := by
  have hor : v' ||| ~~~BitVec.ofNat 64 (2 ^ a - 1) = v ||| ~~~BitVec.ofNat 64 (2 ^ a - 1) := by
    refine BitVec.eq_of_getLsbD_eq fun i hi => ?_
    simp only [BitVec.getLsbD_or, BitVec.getLsbD_not,
      BitReverse.testBit_lowMask (show a ≤ 64 by omega)]
    by_cases hia : i < a
    · have hbit := congrArg (fun n => n.testBit i) h
      simp only [Nat.testBit_mod_two_pow, hia, decide_true, Bool.true_and,
        BitVec.testBit_toNat] at hbit
      rw [hbit]
    · simp [hi, hia]
  rw [scanAdvance, scanAdvance, hor]

/-- The two tables of a rehash in order of size, with what the invariant says
about them. -/
theorem DictInv.scanTables (h : DictInv ty d) (hre : dictIsRehashing d = true) :
    HtInv ty (scanTables d).1 ∧ HtInv ty (scanTables d).2 ∧
      (scanTables d).1.size ≤ (scanTables d).2.size ∧
      ∀ e, e ∈ dictEntries d ↔
        e ∈ (scanTables d).1.table.flatten ∨ e ∈ (scanTables d).2.table.flatten := by
  obtain ⟨h0, h1⟩ := h.busy (dictIsRehashing_eq_true.mp hre)
  unfold Redis.scanTables dictEntries
  split
  · next hgt =>
      refine ⟨h1, h0, by simp only; omega, ?_⟩
      intro e
      rw [List.mem_append, or_comm]
  · next hgt =>
      refine ⟨h0, h1, by simp only; omega, ?_⟩
      intro e
      rw [List.mem_append]

/-- **One call.**  An entry whose hash is not below the cursor in the reversed
order is emitted, or is not below the returned cursor either (and that one is
not the final zero). -/
theorem dictScan_covers (h : DictInv ty d) (hs : dictScan d v = some (em, v'))
    (hal : ScanAligned d v) (he : e ∈ dictEntries d)
    (hle : v.reverse.toNat ≤ (hashCursor ty e.key).reverse.toNat) :
    e ∈ em ∨ (v' ≠ 0 ∧ v'.reverse.toNat ≤ (hashCursor ty e.key).reverse.toNat) := by
  rw [dictScan] at hs
  split at hs
  · next hz =>
      rw [dictSize_eq h] at hz
      rw [List.length_eq_zero_iff.mp hz] at he
      contradiction
  · cases hre : dictIsRehashing d with
    | false =>
      simp only [hre, Bool.not_false, if_true, bind_eq_some,
        Option.pure_def, Option.some.injEq, Prod.mk.injEq] at hs
      obtain ⟨de, hde, rfl, rfl⟩ := hs
      rw [dictEntries, h.idle (dictIsRehashing_eq_false.mp hre)] at he
      simp only [dictReset, List.flatten_nil, List.append_nil] at he
      have h0 : HtInv ty d.ht0 := by
        rcases h.ht0 with hr | hi
        · rw [hr] at he; simp [dictReset] at he
        · exact hi
      obtain ⟨a, ha, ha63⟩ := h0.size_pow
      obtain ⟨i, c, hc, hec⟩ := Chains.exists_chain_of_mem_flatten he
      have hbucket := h0.bucket_eq ha hc hec
      rw [h0.scanMask_eq ha] at *
      rw [scanEmit, h0.scanMask_eq ha, toNat_and_lowMask v ha63] at hde
      by_cases hsame : i = v.toNat % 2 ^ a
      · rw [← hsame, hc, Option.some.injEq] at hde
        subst hde
        exact Or.inl hec
      · right
        rw [scanAdvance_eq]
        exact BitReverse.reverse_succ_le (by omega) hle (by rw [hbucket]; exact hsame)
    | true =>
      obtain ⟨h0, h1, hsize, hmem⟩ := h.scanTables hre
      obtain ⟨k, hk⟩ := hal hre
      obtain ⟨a, ha, ha63⟩ := h0.size_pow
      obtain ⟨b, hb, hb63⟩ := h1.size_pow
      have hab : a ≤ b := by
        rw [ha, hb] at hsize
        exact (Nat.pow_le_pow_iff_right (by decide : 1 < 2)).mp hsize
      simp only [hre, Bool.not_true, Bool.false_eq_true, if_false, bind_eq_some, Option.pure_def, Option.some.injEq, Prod.mk.injEq] at hs
      obtain ⟨de, hde, ⟨rest, v2⟩, hexp, rfl, rfl⟩ := hs
      rw [scanEmit, h0.scanMask_eq ha, toNat_and_lowMask v ha63] at hde
      rw [h0.scanMask_eq ha] at hexp hk ⊢
      rw [h1.scanMask_eq hb] at hk
      obtain ⟨hlow, hall⟩ := scanExpansions_spec hab hb63 (h1.scanMask_eq hb) _ hexp
      rw [scanAdvance_congr ha63 hlow]
      by_cases hsame : (hashCursor ty e.key).toNat % 2 ^ a = v.toNat % 2 ^ a
      · left
        rcases (hmem e).mp he with he | he
        · obtain ⟨i, c, hc, hec⟩ := Chains.exists_chain_of_mem_flatten he
          rw [← hsame, h0.bucket_eq ha hc hec, hc, Option.some.injEq] at hde
          subst hde
          exact List.mem_append_left _ hec
        · obtain ⟨i, c, hc, hec⟩ := Chains.exists_chain_of_mem_flatten he
          have hbucket := h1.bucket_eq hb hc hec
          have hge := mod_le_mod_of_aligned hab hb63 hk hsame hle
          rw [hbucket] at hge
          refine List.mem_append_right _ (hall i c ?_ ?_ hge hc e hec)
          · rw [← hbucket]; exact Nat.mod_lt _ (Nat.two_pow_pos b)
          · rw [← hbucket, Nat.mod_mod_of_dvd _ (Nat.pow_dvd_pow 2 hab), hsame]
      · right
        rw [scanAdvance_eq]
        exact BitReverse.reverse_succ_le (by omega) hle hsame

/-- The walk over the larger table ends within its fuel and stays inside the
table. -/
theorem scanExpansions_isSome (h1 : HtInv ty t1) (hfit : t1.size ≤ 2 ^ 60) (hab : a ≤ b)
    (hb : t1.size = 2 ^ b) (hb63 : b ≤ 63) (fuel : Nat) (v : Cursor)
    (hfuel : 2 ^ b ≤ v.toNat % 2 ^ b + fuel * 2 ^ a) :
    ∃ res, scanExpansions t1 (BitVec.ofNat 64 (2 ^ a - 1)) fuel v = some res := by
  have hposb := Nat.two_pow_pos b
  induction fuel generalizing v with
  | zero =>
    have := Nat.mod_lt v.toNat hposb
    omega
  | succ fuel ih =>
    have hlt : v.toNat % 2 ^ b < t1.table.length := by
      rw [h1.length, zcallocSlots_eq hfit, hb]
      exact Nat.mod_lt _ hposb
    have hemit : scanEmit t1 v = some t1.table[v.toNat % 2 ^ b] := by
      rw [scanEmit, h1.scanMask_eq hb, toNat_and_lowMask v hb63, List.getElem?_eq_getElem hlt]
    rw [scanExpansions, Option.bind_eq_bind, hemit, Option.bind_some]
    simp only
    split
    · next hcont =>
        have hnext := toNat_scanNextExpansion v (Nat.le_trans hab hb63)
        have hnb : (scanNextExpansion (BitVec.ofNat 64 (2 ^ a - 1)) v).toNat % 2 ^ b =
            (v.toNat % 2 ^ b + 2 ^ a) % 2 ^ b := by
          rw [hnext, Nat.mod_mod_of_dvd _ (Nat.pow_dvd_pow 2 (by omega : b ≤ 64)), Nat.mod_add_mod]
        have hnw : v.toNat % 2 ^ b + 2 ^ a < 2 ^ b := by
          by_contra hge
          refine hcont ?_
          rw [h1.scanMask_eq hb, and_xor_masks_eq_zero_iff _ (Nat.le_trans hab hb63) hb63, hnb,
            hnext, Nat.mod_mod_of_dvd _ (Nat.pow_dvd_pow 2 (by omega : a ≤ 64)),
            Nat.add_mod_right, ← Nat.mod_mod_of_dvd v.toNat (Nat.pow_dvd_pow 2 hab)]
          exact (mod_eq_add_mod_iff (Nat.two_pow_pos a) (Nat.pow_dvd_pow 2 hab)
            (Nat.mod_lt _ hposb)).mpr (by omega)
        obtain ⟨res, hres⟩ := ih (scanNextExpansion (BitVec.ofNat 64 (2 ^ a - 1)) v) (by
          rw [hnb, Nat.mod_eq_of_lt hnw]
          rw [Nat.succ_mul] at hfuel
          omega)
        exact ⟨_, by rw [Option.bind_eq_bind, hres, Option.bind_some]; rfl⟩
    · exact ⟨_, rfl⟩

/-- Within the allocation bound a call returns. -/
theorem dictScan_isSome (v : Cursor) (h : DictInv ty d) (hf : DictFits d) :
    ∃ em v', dictScan d v = some (em, v') := by
  rw [dictScan]
  split
  · exact ⟨[], 0, rfl⟩
  · next hz =>
      have hemit : ∀ t : Dictht K V, HtInv ty t → t.size ≤ 2 ^ 60 → ∃ de, scanEmit t v = some de := by
        intro t ht hfit
        obtain ⟨a, ha, ha63⟩ := ht.size_pow
        have hlt : v.toNat % 2 ^ a < t.table.length := by
          rw [ht.length, zcallocSlots_eq hfit, ha]
          exact Nat.mod_lt _ (Nat.two_pow_pos a)
        exact ⟨_, by rw [scanEmit, ht.scanMask_eq ha, toNat_and_lowMask v ha63,
          List.getElem?_eq_getElem hlt]⟩
      cases hre : dictIsRehashing d with
      | false =>
        have h0 : HtInv ty d.ht0 := by
          rcases h.ht0 with hr | hi
          · rw [dictSize, h.idle (dictIsRehashing_eq_false.mp hre), hr] at hz
            exact absurd rfl hz
          · exact hi
        obtain ⟨de, hde⟩ := hemit d.ht0 h0 hf.1
        exact ⟨de, scanAdvance (scanMask d.ht0) v, by simp [hde]⟩
      | true =>
        obtain ⟨h0, h1, hsize, -⟩ := h.scanTables hre
        have hfits : (Redis.scanTables d).2.size ≤ 2 ^ 60 := by
          unfold Redis.scanTables
          split
          · exact hf.1
          · exact hf.2
        obtain ⟨a, ha, -⟩ := h0.size_pow
        obtain ⟨b, hb, hb63⟩ := h1.size_pow
        have hab : a ≤ b := by
          rw [ha, hb] at hsize
          exact (Nat.pow_le_pow_iff_right (by decide : 1 < 2)).mp hsize
        obtain ⟨de, hde⟩ := hemit _ h0 (Nat.le_trans hsize hfits)
        have hexp : ∃ res, scanExpansions (Redis.scanTables d).2 (scanMask (Redis.scanTables d).1)
            (Redis.scanTables d).2.size v = some res := by
          rw [h0.scanMask_eq ha]
          refine scanExpansions_isSome h1 hfits hab hb hb63 _ v ?_
          rw [hb]
          exact Nat.le_add_left_of_le (Nat.le_mul_of_pos_right _ (Nat.two_pow_pos a))
        obtain ⟨⟨rest, v2⟩, hexp⟩ := hexp
        exact ⟨de ++ rest, scanAdvance (scanMask (Redis.scanTables d).1) v2, by simp [hde, hexp]⟩

/-! ## Runs -/

/-- Sizes stay in the range in which tables have power-of-two sizes. -/
def StepBounded (canResize : Bool) (d : Dict K V) : DictOp K V → Prop
  | .add _ _ | .replace _ _ | .replaceRaw _ _ => GrowthBounded canResize d
  | .expand size => size < LONG_MAX
  | _ => True

def RunBounded (ty : DictType K) : Dict K V → List (Bool × DictOp K V) → Prop
  | _, [] => True
  | d, (canResize, op) :: ops =>
    StepBounded canResize d op ∧
      ∀ d' reply, dictStep ty canResize d op = some (d', reply) → RunBounded ty d' ops

/-- The operation is a deletion of the key. -/
def Deletes (ty : DictType K) (key : K) : DictOp K V → Bool
  | .delete k => ty.keyCompare key k
  | _ => false

theorem EntryMap.insert_ne_none {m : EntryMap K V} (h : m key ≠ none) :
    m.insert ty e key ≠ none := by
  rw [EntryMap.insert]
  split
  · exact Option.some_ne_none e
  · exact h

/-- A step that returns keeps the invariant, and keeps every key it does not
delete. -/
theorem dictStep_keeps {canResize : Bool} {op : DictOp K V} {reply : DictReply K V}
    (h : DictInv ty d) (hb : StepBounded canResize d op)
    (hs : dictStep ty canResize d op = some (d', reply)) :
    DictInv ty d' ∧ ∀ key, Deletes ty key op = false →
      dictMap ty d key ≠ none → dictMap ty d' key ≠ none := by
  cases op with
  | add key val =>
    simp only [dictStep, Option.map_eq_some_iff, Prod.mk.injEq] at hs
    obtain ⟨⟨d1, ok⟩, ha, rfl, rfl⟩ := hs
    obtain ⟨hinv, ⟨-, -, hmap⟩ | ⟨-, hmap⟩⟩ := dictAdd_spec h hb ha
    · exact ⟨hinv, fun l _ hl => by rw [hmap]; exact EntryMap.insert_ne_none hl⟩
    · exact ⟨hinv, fun l _ hl => by rw [hmap]; exact hl⟩
  | replace key val =>
    simp only [dictStep, Option.map_eq_some_iff, Prod.mk.injEq] at hs
    obtain ⟨⟨d1, ok⟩, ha, rfl, rfl⟩ := hs
    obtain ⟨hinv, ⟨-, -, hmap⟩ | ⟨-, e, -, hmap⟩⟩ := dictReplace_spec h hb ha
    · exact ⟨hinv, fun l _ hl => by rw [hmap]; exact EntryMap.insert_ne_none hl⟩
    · exact ⟨hinv, fun l _ hl => by rw [hmap]; exact EntryMap.insert_ne_none hl⟩
  | replaceRaw key junk =>
    simp only [dictStep, bind_eq_some, Option.pure_def, Option.some.injEq, Prod.mk.injEq] at hs
    obtain ⟨⟨d1, res⟩, ha, rep, -, rfl, rfl⟩ := hs
    obtain ⟨hinv, hres⟩ := dictReplaceRaw_spec h hb ha
    refine ⟨hinv, fun l _ hl => ?_⟩
    cases res with
    | none =>
      rw [ReplacesRaw] at hres
      rw [hres]
      exact hl
    | some r =>
      obtain ⟨e, -, ⟨-, hmap⟩ | ⟨-, -, hmap⟩⟩ := hres
      · rw [hmap]; exact hl
      · rw [hmap]; exact EntryMap.insert_ne_none hl
  | delete key =>
    simp only [dictStep, Option.map_eq_some_iff, Prod.mk.injEq] at hs
    obtain ⟨⟨d1, ok⟩, ha, rfl, rfl⟩ := hs
    obtain ⟨hinv, ⟨-, -, hmap⟩ | ⟨-, -, hmap⟩⟩ := dictDelete_spec h ha
    · refine ⟨hinv, fun l hdel hl => ?_⟩
      rw [Deletes] at hdel
      rw [hmap, EntryMap.erase, hdel]
      exact hl
    · exact ⟨hinv, fun l _ hl => by rw [hmap]; exact hl⟩
  | find key =>
    simp only [dictStep, bind_eq_some, Option.pure_def, Option.some.injEq, Prod.mk.injEq] at hs
    obtain ⟨⟨d1, res⟩, ha, rep, -, rfl, rfl⟩ := hs
    obtain ⟨hre, -⟩ := dictFind_spec h ha
    exact ⟨hre.inv, fun l _ hl => by rw [hre.map h]; exact hl⟩
  | fetchValue key =>
    simp only [dictStep, Option.map_eq_some_iff, Prod.mk.injEq] at hs
    obtain ⟨⟨d1, val⟩, ha, rfl, rfl⟩ := hs
    obtain ⟨hre, -⟩ := dictFetchValue_spec h ha
    exact ⟨hre.inv, fun l _ hl => by rw [hre.map h]; exact hl⟩
  | expand size =>
    simp only [dictStep, Option.some.injEq, Prod.mk.injEq] at hs
    obtain ⟨rfl, rfl⟩ := hs
    have hm := dictExpand_moved h hb
    exact ⟨hm.inv, fun l _ hl => by rw [hm.map h]; exact hl⟩
  | resize =>
    simp only [dictStep, Option.some.injEq, Prod.mk.injEq] at hs
    obtain ⟨rfl, rfl⟩ := hs
    have hm := dictResize_moved canResize h
    exact ⟨hm.inv, fun l _ hl => by rw [hm.map h]; exact hl⟩
  | rehash n =>
    simp only [dictStep, Option.map_eq_some_iff, Prod.mk.injEq] at hs
    obtain ⟨⟨d1, more⟩, ha, rfl, rfl⟩ := hs
    obtain ⟨hre, -⟩ := dictRehash_spec h ha
    exact ⟨hre.inv, fun l _ hl => by rw [hre.map h]; exact hl⟩
  | iterOpen =>
    simp only [dictStep, Option.some.injEq, Prod.mk.injEq] at hs
    obtain ⟨rfl, rfl⟩ := hs
    exact ⟨⟨h.ht0, h.idle, h.busy, h.nonneg, h.passed, h.distinct⟩, fun _ _ hl => hl⟩
  | iterClose =>
    simp only [dictStep, Option.some.injEq, Prod.mk.injEq] at hs
    obtain ⟨rfl, rfl⟩ := hs
    exact ⟨⟨h.ht0, h.idle, h.busy, h.nonneg, h.passed, h.distinct⟩, fun _ _ hl => hl⟩

theorem dictRun_keeps (ops : List (Bool × DictOp K V)) {replies : List (DictReply K V)}
    (h : DictInv ty d) (hb : RunBounded ty d ops) (hr : dictRun ty d ops = some (d', replies)) :
    DictInv ty d' ∧ ∀ key, (∀ op ∈ ops, Deletes ty key op.2 = false) →
      dictMap ty d key ≠ none → dictMap ty d' key ≠ none := by
  induction ops generalizing d replies with
  | nil =>
    simp only [dictRun, Option.some.injEq, Prod.mk.injEq] at hr
    obtain ⟨rfl, rfl⟩ := hr
    exact ⟨h, fun _ _ hl => hl⟩
  | cons op ops ih =>
    obtain ⟨canResize, op⟩ := op
    simp only [dictRun, bind_eq_some, Option.pure_def, Option.some.injEq, Prod.mk.injEq] at hr
    obtain ⟨⟨d1, reply⟩, hs, ⟨d2, rest⟩, hr, rfl, rfl⟩ := hr
    obtain ⟨hinv1, hkeep1⟩ := dictStep_keeps h hb.1 hs
    obtain ⟨hinv2, hkeep2⟩ := ih hinv1 (hb.2 d1 reply hs) hr
    refine ⟨hinv2, fun key hdel hl => ?_⟩
    exact hkeep2 key (fun o ho => hdel o (List.mem_cons_of_mem _ ho))
      (hkeep1 key (hdel _ List.mem_cons_self) hl)

/-- An iteration from the cursor `v` on: each returned cursor is passed to the
next call until a call returns 0, with any operations on the dict between two
calls.  `ops` are all these operations, `calls` the state and cursor of each
call, `em` everything passed to the callback. -/
inductive ScanFrom (ty : DictType K) : (d : Dict K V) → (v : Cursor) →
    (ops : List (Bool × DictOp K V)) → (calls : List (Dict K V × Cursor)) →
    (em : List (DictEntry K V)) → Prop where
  | last {d : Dict K V} {v : Cursor} {em : List (DictEntry K V)} :
      dictScan d v = some (em, 0) → ScanFrom ty d v [] [(d, v)] em
  | next {d d' : Dict K V} {v v' : Cursor} {em em' : List (DictEntry K V)}
      {ops ops' : List (Bool × DictOp K V)} {replies : List (DictReply K V)}
      {calls : List (Dict K V × Cursor)} :
      dictScan d v = some (em, v') → v' ≠ 0 →
      RunBounded ty d ops → dictRun ty d ops = some (d', replies) →
      ScanFrom ty d' v' ops' calls em' →
      ScanFrom ty d v (ops ++ ops') ((d, v) :: calls) (em ++ em')

theorem scanFrom_covers {ops : List (Bool × DictOp K V)} {calls : List (Dict K V × Cursor)}
    (hrun : ScanFrom ty d v ops calls em) (h : DictInv ty d)
    (hal : ∀ c ∈ calls, ScanAligned c.1 c.2) (hpresent : dictMap ty d key ≠ none)
    (hkept : ∀ op ∈ ops, Deletes ty key op.2 = false)
    (hle : v.reverse.toNat ≤ (hashCursor ty key).reverse.toNat) :
    ∃ e ∈ em, ty.keyCompare key e.key = true := by
  induction hrun with
  | @last d v em hs =>
    obtain ⟨e, hm⟩ := Option.ne_none_iff_exists'.mp hpresent
    obtain ⟨he, hk⟩ := dictMap_mem hm
    have hhash : hashCursor ty e.key = hashCursor ty key := by
      rw [hashCursor, hashCursor, dictHashKey_congr hk]
    rcases dictScan_covers h hs (hal (d, v) List.mem_cons_self) he (by rw [hhash]; exact hle)
      with hem | ⟨hne, -⟩
    · exact ⟨e, hem, hk⟩
    · exact absurd rfl hne
  | @next d d' v v' em em' ops ops' replies calls hs hne hb hr _ ih =>
    obtain ⟨e, hm⟩ := Option.ne_none_iff_exists'.mp hpresent
    obtain ⟨he, hk⟩ := dictMap_mem hm
    have hhash : hashCursor ty e.key = hashCursor ty key := by
      rw [hashCursor, hashCursor, dictHashKey_congr hk]
    rcases dictScan_covers h hs (hal (d, v) List.mem_cons_self) he (by rw [hhash]; exact hle)
      with hem | ⟨-, hle'⟩
    · exact ⟨e, List.mem_append_left _ hem, hk⟩
    · rw [hhash] at hle'
      obtain ⟨hinv, hkeep⟩ := dictRun_keeps ops h hb hr
      obtain ⟨e', he', hk'⟩ := ih hinv (fun c hc => hal c (List.mem_cons_of_mem _ hc))
        (hkeep key (fun o ho => hkept o (List.mem_append_left _ ho)) hpresent)
        (fun o ho => hkept o (List.mem_append_right _ ho)) hle'
      exact ⟨e', List.mem_append_right _ he', hk'⟩

/-- **Coverage.**  In every iteration from cursor 0 whose calls all get an
aligned cursor, a key that is present at the first call and is never deleted
is passed to the callback. -/
theorem dictScan_covers_run {d : Dict K V} {ops : List (Bool × DictOp K V)}
    {calls : List (Dict K V × Cursor)} {em : List (DictEntry K V)} (h : DictInv ty d)
    (hrun : ScanFrom ty d 0 ops calls em) (hal : ∀ c ∈ calls, ScanAligned c.1 c.2)
    (key : K) (hpresent : dictMap ty d key ≠ none)
    (hkept : ∀ op ∈ ops, Deletes ty key op.2 = false) :
    ∃ e ∈ em, ty.keyCompare key e.key = true := by
  refine scanFrom_covers hrun h hal hpresent hkept ?_
  have hzero : (0 : Cursor).reverse = 0 := BitVec.reverse_eq_zero_iff.mpr rfl
  rw [hzero]
  exact Nat.zero_le _

/-- A table of four buckets holding one key. -/
def oneKeyDict : Dict Nat Nat := ⟨⟨[[], [⟨1, 10⟩], [], []], 4, 3, 1⟩, dictReset, -1, 0⟩

/-- The same dict once a rehash to eight buckets has been prepared. -/
def growingDict : Dict Nat Nat :=
  ⟨⟨[[], [⟨1, 10⟩], [], []], 4, 3, 1⟩, ⟨List.replicate 8 [], 8, 7, 0⟩, 0, 0⟩

theorem dictInv_oneKeyDict : DictInv natDictType oneKeyDict := by
  have hb : RunBounded natDictType (dictCreate : Dict Nat Nat) [(true, .add 1 10)] :=
    ⟨fun _ => by decide, fun _ _ _ => trivial⟩
  exact (dictRun_keeps [(true, .add 1 10)] dictInv_dictCreate hb
    (show _ = some (oneKeyDict, [.status true]) by rfl)).1

/-- An iteration during which the table starts to grow: calls with the cursors
0, 2, 1 and 3. -/
theorem scanFrom_growing : ScanFrom natDictType oneKeyDict 0 [(true, .expand 8)]
    [(oneKeyDict, 0), (growingDict, 2), (growingDict, 1), (growingDict, 3)] [⟨1, 10⟩] := by
  have h0 : dictScan oneKeyDict 0 = some ([], 2) := by decide
  have h2 : dictScan growingDict 2 = some ([], 1) := by decide
  have h1 : dictScan growingDict 1 = some ([⟨1, 10⟩], 3) := by decide
  have h3 : dictScan growingDict 3 = some ([], 0) := by decide
  have hgrow : dictRun natDictType oneKeyDict [(true, .expand 8)] =
      some (growingDict, [.layout true]) := rfl
  have hb : RunBounded natDictType oneKeyDict [(true, .expand 8)] :=
    ⟨show 8 < LONG_MAX by decide, fun _ _ _ => trivial⟩
  have hstay : dictRun natDictType growingDict [] = some (growingDict, []) := rfl
  have hb' : RunBounded natDictType growingDict [] := trivial
  exact ScanFrom.next h0 (by decide) hb hgrow
    (ScanFrom.next h2 (by decide) hb' hstay
      (ScanFrom.next h1 (by decide) hb' hstay (ScanFrom.last h3)))

theorem dictScan_covers_run_growing :
    ∃ e ∈ ([⟨1, 10⟩] : List (DictEntry Nat Nat)), natDictType.keyCompare 1 e.key = true := by
  refine dictScan_covers_run dictInv_oneKeyDict scanFrom_growing ?_ 1 (by decide) (by decide)
  intro c hc
  simp only [List.mem_cons, List.not_mem_nil, or_false] at hc
  rcases hc with rfl | rfl | rfl | rfl
  · intro hre; exact absurd hre (by decide)
  · exact fun _ => ⟨2, by decide⟩
  · exact fun _ => ⟨2, by decide⟩
  · exact fun _ => ⟨2, by decide⟩

/-- An arbitrary cursor, in the table of four buckets. -/
theorem dictScan_isSome_oneKey : ∃ em v', dictScan oneKeyDict 77 = some (em, v') :=
  dictScan_isSome 77 dictInv_oneKeyDict ⟨by decide, by decide⟩

/-- Sixteen buckets, the only key in the bucket `0100`. -/
def sparseDict : Dict Nat Nat :=
  ⟨⟨(List.replicate 16 []).set 4 [⟨4, 40⟩], 16, 15, 1⟩, dictReset, -1, 0⟩

/-- The same dict once `dictResize` has prepared to shrink it to four buckets. -/
def shrinkingDict : Dict Nat Nat :=
  ⟨⟨(List.replicate 16 []).set 4 [⟨4, 40⟩], 16, 15, 1⟩, ⟨List.replicate 4 [], 4, 3, 0⟩, 0, 0⟩

/-- The table starts to shrink after the first call has handed out the cursor
`1000`: the second call visits the buckets `1000` and `1100` of the old table,
but `0100`, which comes between them in the reversed order, never. -/
theorem dictScan_misses_key :
    ∃ ops calls em, ScanFrom natDictType sparseDict 0 ops calls em ∧ DictInv natDictType sparseDict ∧
      dictMap natDictType sparseDict 4 ≠ none ∧
      (∀ op ∈ ops, Deletes natDictType 4 op.2 = false) ∧
      ¬ ∃ e ∈ em, natDictType.keyCompare 4 e.key = true := by
  refine ⟨[(true, .resize)], [(sparseDict, 0), (shrinkingDict, 8), (shrinkingDict, 2),
    (shrinkingDict, 1), (shrinkingDict, 3)], [], ?_, ?_, by decide, by decide, by decide⟩
  · have h0 : dictScan sparseDict 0 = some ([], 8) := by decide
    have h8 : dictScan shrinkingDict 8 = some ([], 2) := by decide
    have h2 : dictScan shrinkingDict 2 = some ([], 1) := by decide
    have h1 : dictScan shrinkingDict 1 = some ([], 3) := by decide
    have h3 : dictScan shrinkingDict 3 = some ([], 0) := by decide
    have hshrink : dictRun natDictType sparseDict [(true, .resize)] =
        some (shrinkingDict, [.layout true]) := rfl
    have hstay : dictRun natDictType shrinkingDict [] = some (shrinkingDict, []) := rfl
    have hb : RunBounded natDictType sparseDict [(true, .resize)] :=
      ⟨trivial, fun _ _ _ => trivial⟩
    have hb' : RunBounded natDictType shrinkingDict [] := trivial
    exact ScanFrom.next h0 (by decide) hb hshrink
      (ScanFrom.next h8 (by decide) hb' hstay
        (ScanFrom.next h2 (by decide) hb' hstay
          (ScanFrom.next h1 (by decide) hb' hstay (ScanFrom.last h3))))
  · have hb : RunBounded natDictType (dictCreate : Dict Nat Nat)
        [(true, .expand 16), (true, .add 4 40)] := by
      refine ⟨show 16 < LONG_MAX by decide, fun d' reply hs => ⟨?_, fun _ _ _ => trivial⟩⟩
      have hd : d' = ⟨⟨List.replicate 16 [], 16, 15, 0⟩, dictReset, -1, 0⟩ := by
        have hs' : dictStep natDictType true (dictCreate : Dict Nat Nat) (.expand 16) =
            some (⟨⟨List.replicate 16 [], 16, 15, 0⟩, dictReset, -1, 0⟩, .layout true) := by rfl
        rw [hs'] at hs
        exact (Prod.mk.inj (Option.some.inj hs)).1.symm
      intro _
      rw [hd]
      decide
    exact (dictRun_keeps [(true, .expand 16), (true, .add 4 40)] dictInv_dictCreate hb
      (show _ = some (sparseDict, [.layout true, .status true]) by rfl)).1

end Redis
