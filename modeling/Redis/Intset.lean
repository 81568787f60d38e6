import Mathlib.Data.List.GetD
import Mathlib.Data.List.Nodup
import Mathlib.Tactic.Common
import Mathlib.Tactic.NormNum

/-!
# Redis.Intset

The sorted sets of integers of `intset.c`, as the values that `contents` has at the current
encoding.
-/

namespace Redis

open List

/-- `_intsetValueEncoding`: the bytes that a value needs. -/
def intsetValueEncoding (v : Int) : Nat :=
  if v < -2 ^ 31 ∨ v > 2 ^ 31 - 1 then 8
  else if v < -2 ^ 15 ∨ v > 2 ^ 15 - 1 then 4
  else 2

/-- `_intsetGet`, of a position inside. -/
def intsetGet (contents : List Int) (pos : Int) : Int := contents.getD pos.toNat 0

/-- The loop of `intsetSearch`: `min`, `mid` and `cur` at its end. -/
def intsetSearchLoop (contents : List Int) (value : Int) :
    (fuel : Nat) → (min max mid cur : Int) → Int × Int × Int
  | 0, min, _, mid, cur => (min, mid, cur)
  | fuel + 1, min, max, mid, cur =>
    if max ≥ min then
      let mid := (min + max) / 2
      let cur := intsetGet contents mid
      if value > cur then intsetSearchLoop contents value fuel (mid + 1) max mid cur
      else if value < cur then intsetSearchLoop contents value fuel min (mid - 1) mid cur
      else (min, mid, cur)
    else (min, mid, cur)

/-- `intsetSearch`, with `pos`. -/
def intsetSearch (contents : List Int) (value : Int) : Bool × Nat :=
  let len : Int := contents.length
  if len = 0 then (false, 0)
  else if value > intsetGet contents (len - 1) then (false, contents.length)
  else if value < intsetGet contents 0 then (false, 0)
  else
    match intsetSearchLoop contents value contents.length 0 (len - 1) (-1) (-1) with
    | (min, mid, cur) => if value = cur then (true, mid.toNat) else (false, min.toNat)

/-! ## The search -/

section Search

variable {contents : List Int} {value : Int}

/-- What `intsetSearch` has found: the value, or the place where it belongs. -/
inductive Located (contents : List Int) (value : Int) : Bool × Nat → Prop
  | found {pos : Nat} (h : contents[pos]? = some value) : Located contents value (true, pos)
  | missing {pos : Nat} (hle : pos ≤ contents.length) (hlt : ∀ v ∈ contents.take pos, v < value)
      (hgt : ∀ v ∈ contents.drop pos, value < v) : Located contents value (false, pos)

theorem intsetGet_eq {pos : Nat} (h : pos < contents.length) :
    contents[pos]? = some (intsetGet contents pos) := by
  rw [intsetGet, Int.toNat_natCast, getD_eq_getElem _ _ h, getElem?_eq_getElem h]

theorem intsetGet_lt (hs : contents.Pairwise (· < ·)) {i j : Nat} (hij : i < j)
    (hj : j < contents.length) : intsetGet contents i < intsetGet contents j := by
  have h := pairwise_iff_getElem.mp hs i j (by omega) hj hij
  rw [intsetGet, intsetGet, Int.toNat_natCast, Int.toNat_natCast, getD_eq_getElem _ _ hj,
    getD_eq_getElem _ _ (by omega)]
  exact h

/-- All that is in front of a position is smaller, and all from it on is greater. -/
theorem Located.of_get {pos : Nat} (hle : pos ≤ contents.length)
    (hlt : ∀ i, i < pos → intsetGet contents (i : Nat) < value)
    (hgt : ∀ i, pos ≤ i → i < contents.length → value < intsetGet contents (i : Nat)) :
    Located contents value (false, pos) := by
  refine .missing hle (fun v hv => ?_) fun v hv => ?_
  · obtain ⟨i, hi, rfl⟩ := getElem_of_mem hv
    rw [length_take] at hi
    have h := hlt i (by omega)
    rw [intsetGet, Int.toNat_natCast, getD_eq_getElem _ _ (by omega)] at h
    simpa using h
  · obtain ⟨i, hi, rfl⟩ := getElem_of_mem hv
    rw [length_drop] at hi
    have h := hgt (pos + i) (Nat.le_add_right _ _) (by omega)
    rw [intsetGet, Int.toNat_natCast, getD_eq_getElem _ _ (by omega)] at h
    simpa using h

/-- What the loop of `intsetSearch` keeps: the value can only be from `min` to `max`. -/
structure Bounds (contents : List Int) (value : Int) (min max : Int) : Prop where
  min_nonneg : 0 ≤ min
  min_le : min ≤ max + 1
  max_lt : max < contents.length
  below : ∀ i : Nat, (i : Int) < min → intsetGet contents i < value
  above : ∀ i : Nat, max < i → i < contents.length → value < intsetGet contents i

/-- At the end of the loop `cur` is the value, or it belongs to `min`. -/
theorem intsetSearchLoop_spec (hs : contents.Pairwise (· < ·)) (fuel : Nat) {min max : Int}
    (mid cur : Int) (hb : Bounds contents value min max) (hfuel : max + 1 - min ≤ fuel)
    (hcur : max < min → value ≠ cur) :
    ∃ min' mid' cur', intsetSearchLoop contents value fuel min max mid cur = (min', mid', cur') ∧
      (value = cur' → contents[mid'.toNat]? = some value) ∧
      (value ≠ cur' → Located contents value (false, min'.toNat)) := by
  have hend (h : max < min) : Located contents value (false, min.toNat) := by
    obtain ⟨hmin, hle, hmax, hbelow, habove⟩ := hb
    exact .of_get (by omega) (fun i hi => hbelow i (by omega))
      fun i hi hlen => habove i (by omega) hlen
  induction fuel generalizing min max mid cur with
  | zero =>
    have hlt : max < min := by omega
    exact ⟨min, mid, cur, rfl, fun h => absurd h (hcur hlt), fun _ => hend hlt⟩
  | succ fuel ih =>
    rw [intsetSearchLoop]
    by_cases hle : max ≥ min
    · obtain ⟨hmin, _, hmax, hbelow, habove⟩ := hb
      obtain ⟨m, hm⟩ : ∃ m : Nat, (min + max) / 2 = m := ⟨((min + max) / 2).toNat, by omega⟩
      have hlen : m < contents.length := by omega
      rw [if_pos hle]
      simp only [hm]
      by_cases hgt : value > intsetGet contents m
      · rw [if_pos hgt]
        have hb' : Bounds contents value (m + 1) max := by
          refine ⟨by omega, by omega, hmax, fun i hi => ?_, habove⟩
          rcases Nat.lt_or_ge i m with hlt | hge
          · exact (intsetGet_lt hs hlt hlen).trans hgt
          · obtain rfl : i = m := by omega
            exact hgt
        refine ih _ _ hb' (by omega) (fun _ h => absurd h (ne_of_gt hgt)) fun hend' => ?_
        exact .of_get (by omega) (fun i hi => hb'.below i (by omega))
          fun i hi hlen => habove i (by omega) hlen
      rw [if_neg hgt]
      by_cases hlt : value < intsetGet contents m
      · rw [if_pos hlt]
        have hb' : Bounds contents value min (m - 1) := by
          refine ⟨hmin, by omega, by omega, hbelow, fun i hi hi' => ?_⟩
          rcases Nat.lt_or_ge m i with hgt | hle
          · exact hlt.trans (intsetGet_lt hs hgt hi')
          · obtain rfl : i = m := by omega
            exact hlt
        refine ih _ _ hb' (by omega) (fun _ h => absurd h (ne_of_lt hlt)) fun hend' => ?_
        exact .of_get (by omega) (fun i hi => hbelow i (by omega))
          fun i hi hlen => hb'.above i (by omega) hlen
      · rw [if_neg hlt]
        have heq : value = intsetGet contents m := by omega
        refine ⟨min, m, _, rfl, fun _ => ?_, fun hne => absurd heq hne⟩
        rw [Int.toNat_natCast, intsetGet_eq hlen, ← heq]
    · rw [if_neg hle]
      exact ⟨min, mid, cur, rfl, fun h => absurd h (hcur (by omega)), fun _ => hend (by omega)⟩

theorem intsetSearch_spec (hs : contents.Pairwise (· < ·)) (value : Int) :
    Located contents value (intsetSearch contents value) := by
  rw [intsetSearch]
  simp only [Nat.cast_eq_zero, length_eq_zero_iff]
  split
  next hnil =>
    subst hnil
    exact .missing le_rfl (by simp) (by simp)
  next hnil =>
    have hpos : 0 < contents.length := length_pos_iff.mpr hnil
    have hlast : ((contents.length : Int) - 1) = ((contents.length - 1 : Nat) : Int) := by omega
    rw [hlast]
    split
    next hgt =>
      refine .of_get le_rfl (fun i hi => ?_) fun i hi hlen => absurd hi (by omega)
      rcases Nat.lt_or_ge i (contents.length - 1) with hlt | hge
      · exact (intsetGet_lt hs hlt (by omega)).trans hgt
      · obtain rfl : i = contents.length - 1 := by omega
        exact hgt
    split
    next hlt =>
      refine .of_get (Nat.zero_le _) (fun i hi => absurd hi (by omega)) fun i _ hlen => ?_
      rcases Nat.eq_zero_or_pos i with rfl | hi
      · exact hlt
      · exact hlt.trans (intsetGet_lt hs hi hlen)
    next =>
      have hb : Bounds contents value 0 ((contents.length - 1 : Nat) : Int) :=
        ⟨le_rfl, by omega, by omega, fun i hi => absurd hi (by omega),
          fun i hi hlen => absurd hi (by omega)⟩
      obtain ⟨min, mid, cur, hloop, hfound, hmissing⟩ := intsetSearchLoop_spec hs contents.length
        (-1) (-1) hb (by omega) fun h => absurd h (by omega)
      rw [hloop]
      simp only
      split
      next heq => exact .found (hfound heq)
      next hne => exact hmissing hne

end Search

/-! ## Integer sets -/

/-- `intset`: `encoding` is the number of bytes of a value. -/
structure Intset where
  encoding : Nat
  contents : List Int
  sorted : contents.Pairwise (· < ·)
  fits : ∀ v ∈ contents, intsetValueEncoding v ≤ encoding
  range : ∀ v ∈ contents, -2 ^ 63 ≤ v ∧ v < 2 ^ 63

/-- A value with a larger encoding is smaller than all values of the set, or greater. -/
theorem lt_of_intsetValueEncoding_lt {v w : Int}
    (h : intsetValueEncoding v < intsetValueEncoding w) : if w < 0 then w < v else v < w := by
  simp only [intsetValueEncoding] at h
  split_ifs at h ⊢ <;> omega

namespace Intset

variable {s : Intset} {value : Int64} {w : Int}

def intsetNew : Intset := ⟨2, [], .nil, by simp, by simp⟩

def intsetUpgradeAndAdd (s : Intset) (value : Int64)
    (h : s.encoding < intsetValueEncoding value.toInt) : Intset where
  encoding := intsetValueEncoding value.toInt
  contents := if value.toInt < 0 then value.toInt :: s.contents else s.contents ++ [value.toInt]
  sorted := by
    have hlt (v : Int) (hv : v ∈ s.contents) :=
      lt_of_intsetValueEncoding_lt ((s.fits v hv).trans_lt h)
    split
    next hneg =>
      simp only [if_pos hneg] at hlt
      exact pairwise_cons.mpr ⟨hlt, s.sorted⟩
    next hneg =>
      simp only [if_neg hneg] at hlt
      exact pairwise_append.mpr ⟨s.sorted, pairwise_singleton _ _, by simpa using hlt⟩
  fits := by
    have hle (v : Int) (hv : v ∈ s.contents) := (s.fits v hv).trans h.le
    split <;> grind
  range := by
    have hvalue : -2 ^ 63 ≤ value.toInt ∧ value.toInt < 2 ^ 63 := ⟨value.le_toInt, value.toInt_lt⟩
    have hrange := s.range
    split <;> grind

/-- The value is put at `pos`, where it belongs. -/
def insertAt (s : Intset) (value : Int64) (pos : Nat)
    (henc : ¬s.encoding < intsetValueEncoding value.toInt)
    (h : Located s.contents value.toInt (false, pos)) : Intset where
  encoding := s.encoding
  contents := s.contents.take pos ++ value.toInt :: s.contents.drop pos
  sorted := by
    cases h with
    | missing _ hlt hgt =>
      rw [pairwise_append, pairwise_cons]
      refine ⟨s.sorted.take, ⟨hgt, s.sorted.drop⟩, fun a ha b hb => ?_⟩
      rcases mem_cons.mp hb with rfl | hb
      · exact hlt a ha
      · exact (hlt a ha).trans (hgt b hb)
  fits := by
    intro v hv
    rcases mem_append.mp hv with hv | hv
    · exact s.fits v (mem_of_mem_take hv)
    · rcases mem_cons.mp hv with rfl | hv
      · exact Nat.not_lt.mp henc
      · exact s.fits v (mem_of_mem_drop hv)
  range := by
    intro v hv
    rcases mem_append.mp hv with hv | hv
    · exact s.range v (mem_of_mem_take hv)
    · rcases mem_cons.mp hv with rfl | hv
      · exact ⟨value.le_toInt, value.toInt_lt⟩
      · exact s.range v (mem_of_mem_drop hv)

/-- `intsetAdd`, with `success`. -/
def intsetAdd (s : Intset) (value : Int64) : Intset × Bool :=
  if henc : s.encoding < intsetValueEncoding value.toInt then (s.intsetUpgradeAndAdd value henc, true)
  else
    match hsearch : intsetSearch s.contents value.toInt with
    | (true, _) => (s, false)
    | (false, pos) =>
      (s.insertAt value pos henc (hsearch ▸ intsetSearch_spec s.sorted value.toInt), true)

/-- `intsetRemove`, with `success`. -/
def intsetRemove (s : Intset) (value : Int64) : Intset × Bool :=
  if intsetValueEncoding value.toInt ≤ s.encoding then
    match intsetSearch s.contents value.toInt with
    | (true, pos) =>
      ({ s with
          contents := s.contents.eraseIdx pos
          sorted := s.sorted.sublist (eraseIdx_sublist _ _)
          fits := fun v hv => s.fits v (mem_of_mem_eraseIdx hv)
          range := fun v hv => s.range v (mem_of_mem_eraseIdx hv) }, true)
    | (false, _) => (s, false)
  else (s, false)

def intsetFind (s : Intset) (value : Int64) : Bool :=
  decide (intsetValueEncoding value.toInt ≤ s.encoding) && (intsetSearch s.contents value.toInt).1

def intsetLen (s : Intset) : Nat := s.contents.length

theorem nodup (s : Intset) : s.contents.Nodup := s.sorted.imp ne_of_lt

theorem search_iff (s : Intset) (value : Int64) :
    (intsetSearch s.contents value.toInt).1 = true ↔ value.toInt ∈ s.contents := by
  cases h : intsetSearch s.contents value.toInt with
  | mk b pos =>
    cases h ▸ intsetSearch_spec s.sorted value.toInt with
    | found hget => exact iff_of_true rfl (mem_of_getElem? hget)
    | missing _ hlt hgt =>
      refine iff_of_false Bool.false_ne_true fun hmem => ?_
      rw [← take_append_drop pos s.contents, mem_append] at hmem
      rcases hmem with hmem | hmem
      · exact (hlt _ hmem).false
      · exact (hgt _ hmem).false

theorem not_mem_of_encoding_lt (h : s.encoding < intsetValueEncoding w) : w ∉ s.contents :=
  fun hmem => absurd (s.fits w hmem) (Nat.not_le.mpr h)

@[simp]
theorem intsetFind_iff : s.intsetFind value = true ↔ value.toInt ∈ s.contents := by
  rw [intsetFind, Bool.and_eq_true, decide_eq_true_eq, search_iff]
  exact ⟨And.right, fun h => ⟨s.fits _ h, h⟩⟩

theorem mem_intsetAdd :
    w ∈ (s.intsetAdd value).1.contents ↔ w = value.toInt ∨ w ∈ s.contents := by
  rw [intsetAdd]
  split
  next =>
    rw [intsetUpgradeAndAdd]
    split <;> simp [or_comm]
  next =>
    split
    next hsearch =>
      have hmem := (s.search_iff value).mp (by rw [hsearch])
      exact ⟨.inr, fun h => h.elim (fun h => h ▸ hmem) id⟩
    next pos _ =>
      have hsplit : w ∈ s.contents ↔ w ∈ s.contents.take pos ∨ w ∈ s.contents.drop pos := by
        rw [← mem_append, take_append_drop]
      rw [insertAt, mem_append, mem_cons, hsplit]
      tauto

theorem intsetAdd_snd : (s.intsetAdd value).2 = decide (value.toInt ∉ s.contents) := by
  rw [intsetAdd]
  split
  next h => simp [not_mem_of_encoding_lt h]
  next =>
    have hiff := s.search_iff value
    split
    next hsearch =>
      rw [hsearch] at hiff
      simp [hiff.mp rfl]
    next hsearch =>
      rw [hsearch] at hiff
      simp [hiff.not.mp (by simp)]

theorem mem_intsetRemove :
    w ∈ (s.intsetRemove value).1.contents ↔ w ≠ value.toInt ∧ w ∈ s.contents := by
  have hmissing (h : value.toInt ∉ s.contents) : w ∈ s.contents ↔ w ≠ value.toInt ∧ w ∈ s.contents :=
    ⟨fun hw => ⟨fun heq => h (heq ▸ hw), hw⟩, And.right⟩
  rw [intsetRemove]
  split
  next =>
    split
    next pos hsearch =>
      cases hsearch ▸ intsetSearch_spec s.sorted value.toInt with
      | found hget =>
        obtain ⟨hlt, hval⟩ := List.getElem?_eq_some_iff.mp hget
        have herase : s.contents.eraseIdx pos = s.contents.erase value.toInt := by
          rw [← hval, Nodup.erase_getElem s.nodup]
        simp only [herase, s.nodup.mem_erase_iff]
    next hsearch =>
      exact hmissing fun hmem => absurd ((s.search_iff value).mpr hmem) (by rw [hsearch]; simp)
  next h => exact hmissing (not_mem_of_encoding_lt (Nat.not_le.mp h))

theorem intsetRemove_snd : (s.intsetRemove value).2 = decide (value.toInt ∈ s.contents) := by
  rw [intsetRemove]
  split
  next =>
    have hiff := s.search_iff value
    split
    next hsearch =>
      rw [hsearch] at hiff
      simp [hiff.mp rfl]
    next hsearch =>
      rw [hsearch] at hiff
      simp [hiff.not.mp (by simp)]
  next h => simp [not_mem_of_encoding_lt (Nat.not_le.mp h)]

end Intset

end Redis
