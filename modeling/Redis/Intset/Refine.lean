import Mathlib.Data.Finset.Sort
import Redis.Intset.Memory

/-!
# Redis.Intset.Refine

The buffer of an intset holds its values, in cells of the current encoding, and every function on
the buffer does what it does on the values.  A run of them is one of a finite set.
-/

namespace Redis

open Bytes List Option

/-! ## Encodings -/

def IntsetEncoding (k : Nat) : Prop := k = 2 ∨ k = 4 ∨ k = 8

section Encodings

variable {k : Nat} {v : Int}

theorem intsetEncoding_value (v : Int) : IntsetEncoding (intsetValueEncoding v) := by
  rw [intsetValueEncoding]
  split
  · exact .inr (.inr rfl)
  split
  · exact .inr (.inl rfl)
  · exact .inl rfl

theorem IntsetEncoding.width_eq (h : IntsetEncoding k) : IntsetMem.width k = k := by
  rcases h with rfl | rfl | rfl <;> rfl

theorem IntsetEncoding.le (h : IntsetEncoding k) : 0 < k ∧ k ≤ 8 := by
  rcases h with rfl | rfl | rfl <;> decide

/-- A value fits into the encodings from its own on. -/
theorem fits_iff (h : IntsetEncoding k) (hlo : -2 ^ 63 ≤ v) (hhi : v < 2 ^ 63) :
    Fits k v ↔ intsetValueEncoding v ≤ k := by
  rw [Fits, intsetValueEncoding]
  rcases h with rfl | rfl | rfl <;> split_ifs <;> norm_num <;> omega

end Encodings

/-! ## Reading -/

namespace IntsetMem

variable {m : IntsetMem} {s : Intset} {fill : Nat → UInt8} {k : Nat} {v : Int} {vs : List Int}
  {c : Bytes} {i : Nat}

/-- The buffer holds the values of a set. -/
structure Holds (m : IntsetMem) (s : Intset) : Prop where
  width : IntsetEncoding s.encoding
  encoding : m.encoding = s.encoding
  length : m.length = s.contents.length
  contents : m.contents = cells s.encoding s.contents

theorem Holds.eq (h : Holds m s) :
    m = ⟨s.encoding, s.contents.length, cells s.encoding s.contents⟩ := by
  obtain ⟨encoding, length, contents⟩ := m
  obtain ⟨-, rfl, rfl, rfl⟩ := h
  rfl

theorem Holds.fits (h : Holds m s) (hv : v ∈ s.contents) : Fits s.encoding v := by
  obtain ⟨hlo, hhi⟩ := s.range v hv
  exact (fits_iff h.width hlo hhi).mpr (s.fits v hv)

theorem intsetGetEncoded_eq (hk : IntsetEncoding k) (hm : m.contents = cells k vs ++ c)
    (hv : vs[i]? = some v) (hfits : Fits k v) : m.intsetGetEncoded i k = some v := by
  rw [intsetGetEncoded, hk.width_eq, hm, load_cells hv, map_some, bytesInt_intBytes hfits]

theorem Holds.intsetGet_eq (h : Holds m s) (hv : s.contents[i]? = some v) :
    m.intsetGet i = some v := by
  rw [intsetGet, h.encoding]
  exact intsetGetEncoded_eq (c := []) h.width (by rw [h.contents, append_nil]) hv
    (h.fits (mem_of_getElem? hv))

theorem Holds.intsetGet (h : Holds m s) (hi : i < s.contents.length) :
    m.intsetGet i = some (Redis.intsetGet s.contents i) :=
  h.intsetGet_eq (Redis.intsetGet_eq hi)

theorem Holds.intsetSearchLoop (h : Holds m s) (value : Int) (fuel : Nat) {min max : Int}
    (mid cur : Int) (hmin : 0 ≤ min) (hmax : max < s.contents.length) :
    m.intsetSearchLoop value fuel min max mid cur =
      some (Redis.intsetSearchLoop s.contents value fuel min max mid cur) := by
  induction fuel generalizing min max mid cur with
  | zero => rfl
  | succ fuel ih =>
    rw [IntsetMem.intsetSearchLoop, Redis.intsetSearchLoop]
    split
    next hle =>
      obtain ⟨i, hi⟩ : ∃ i : Nat, (min + max) / 2 = i := ⟨((min + max) / 2).toNat, by omega⟩
      simp only [hi, Int.toNat_natCast, h.intsetGet (show i < s.contents.length by omega),
        some_bind]
      split
      · exact ih _ _ (by omega) hmax
      split
      · exact ih _ _ hmin (by omega)
      · rfl
    · rfl

/-- The search in the buffer is the one among the values. -/
theorem Holds.intsetSearch (h : Holds m s) (value : Int) :
    m.intsetSearch value = some (Redis.intsetSearch s.contents value) := by
  rw [IntsetMem.intsetSearch, Redis.intsetSearch, h.length]
  by_cases hnil : s.contents.length = 0
  · simp [hnil]
  · have hlast : (s.contents.length : Int) - 1 = ((s.contents.length - 1 : Nat) : Int) := by omega
    have hloop := h.intsetSearchLoop value s.contents.length (-1) (-1) le_rfl
      (show (s.contents.length : Int) - 1 < s.contents.length by omega)
    have hget := h.intsetGet (show s.contents.length - 1 < s.contents.length by omega)
    have hget0 := h.intsetGet (show 0 < s.contents.length by omega)
    simp only [hnil, if_false, hget, hget0, hloop, some_bind,
      Nat.cast_eq_zero, Nat.cast_zero, ← hlast]
    split_ifs <;> rfl

/-! ## Resizing -/

variable (fill) in
theorem intsetResize_grow (len : Nat) (hsize : len * m.encoding < 2 ^ 32)
    (hle : m.contents.length ≤ len * m.encoding) :
    ∃ F, m.intsetResize fill len = { m with contents := m.contents ++ F } ∧
      m.contents.length + F.length = len * m.encoding := by
  refine ⟨(range (len * m.encoding - m.contents.length)).map fill, ?_, ?_⟩
  · rw [intsetResize, Nat.mod_eq_of_lt hsize, take_of_length_le hle]
  · rw [length_map, length_range]
    omega

theorem intsetResize_shrink (len : Nat) (hsize : len * m.encoding < 2 ^ 32)
    (hle : len * m.encoding ≤ m.contents.length) :
    m.intsetResize fill len = { m with contents := m.contents.take (len * m.encoding) } := by
  rw [intsetResize, Nat.mod_eq_of_lt hsize, Nat.sub_eq_zero_of_le hle]
  simp

/-! ## Upgrading -/

/-- The elements that are left are widened one after the other, from the last one on: what is
written is behind what is still to be read. -/
theorem intsetUpgradeLoop_spec {K p n : Nat} {us : List Int} {G T : Bytes}
    (hk : IntsetEncoding k) (hK : IntsetEncoding K) (hle : k ≤ K) (hfits : ∀ u ∈ us, Fits k u)
    (hG : us.length * k + G.length = (us.length + p) * K) :
    ∃ G', G'.length = p * K ∧
      intsetUpgradeLoop k p us.length ⟨K, n, cells k us ++ (G ++ T)⟩ =
        some ⟨K, n, G' ++ (cells K us ++ T)⟩ := by
  induction us using reverseRecOn generalizing G T with
  | nil => exact ⟨G, by simpa using hG, rfl⟩
  | append_singleton us u ih =>
    have hmul : us.length * k ≤ us.length * K := Nat.mul_le_mul_left _ hle
    rw [length_append, length_singleton] at hG ⊢
    have hlen : us.length * k + (k + G.length) = (us.length + p) * K + K := by
      rw [← Nat.succ_mul, Nat.succ_eq_add_one, Nat.add_right_comm, ← hG]
      ring
    obtain ⟨j, hj⟩ : ∃ j, (us.length + p) * K = us.length * k + j :=
      Nat.exists_eq_add_of_le (hmul.trans (Nat.mul_le_mul_right _ (Nat.le_add_right _ _)))
    have hget : intsetGetEncoded ⟨K, n, cells k (us ++ [u]) ++ (G ++ T)⟩ us.length k =
        some u :=
      intsetGetEncoded_eq hk rfl (by simp) (hfits u (by simp))
    have hset : intsetSet ⟨K, n, cells k (us ++ [u]) ++ (G ++ T)⟩ (us.length + p) u =
        some ⟨K, n, cells k us ++ ((intBytes k u ++ G).take j ++ (intBytes K u ++ T))⟩ := by
      have hstore := store_append_take (a := cells k us) (m := intBytes k u ++ G)
        (p := (us.length + p) * K) (k := j) (intBytes K u) T
        (by rw [length_cells, hj]) (by simp only [length_append, length_intBytes]; omega)
      rw [intsetSet, hK.width_eq, cells_append, cells_cons, cells_nil, append_nil,
        append_assoc, ← append_assoc (intBytes k u), hstore]
      rfl
    obtain ⟨G', hG', hloop⟩ := ih (G := (intBytes k u ++ G).take j) (T := intBytes K u ++ T)
      (fun w hw => hfits w (mem_append_left _ hw)) (by
        rw [length_take, length_append, length_intBytes]
        omega)
    refine ⟨G', hG', ?_⟩
    simp only [intsetUpgradeLoop, hget, hset, some_bind, hloop]
    rw [cells_append, cells_cons, cells_nil]
    simp

theorem intsetSet_eq {n : Nat} {a b c : Bytes} (hk : IntsetEncoding k)
    (ha : i * k = a.length) (hb : b.length = k) (v : Int) :
    intsetSet ⟨k, n, a ++ (b ++ c)⟩ i v = some ⟨k, n, a ++ (intBytes k v ++ c)⟩ := by
  rw [intsetSet, hk.width_eq, store_append (intBytes k v) c ha (by rw [length_intBytes, hb])]
  rfl

variable (fill) in
/-- An upgrade keeps all values, and the new one is put in front or at the end. -/
theorem Holds.intsetUpgradeAndAdd (h : Holds m s) (value : Int64)
    (henc : s.encoding < intsetValueEncoding value.toInt)
    (hlen : (s.contents.length + 1) * 8 < 2 ^ 32) :
    ∃ m', m.intsetUpgradeAndAdd fill value.toInt = some m' ∧
      Holds m' (s.intsetUpgradeAndAdd value henc) := by
  obtain ⟨K, hKval⟩ : ∃ K, intsetValueEncoding value.toInt = K := ⟨_, rfl⟩
  have hK : IntsetEncoding K := hKval ▸ intsetEncoding_value value.toInt
  have hle : s.encoding ≤ K := hKval ▸ henc.le
  have hmul : (s.contents.length + 1) * K ≤ (s.contents.length + 1) * 8 :=
    Nat.mul_le_mul_left _ hK.le.2
  have hgrow : s.contents.length * s.encoding ≤ s.contents.length * K :=
    Nat.mul_le_mul_left _ hle
  have hsucc : (s.contents.length + 1) * K = s.contents.length * K + K := Nat.succ_mul _ _
  obtain ⟨F, hresize, hF⟩ := intsetResize_grow fill
    (m := ⟨K, s.contents.length, cells s.encoding s.contents⟩) (s.contents.length + 1)
    (by simp only; omega) (by simp only [length_cells]; omega)
  simp only [length_cells] at hresize hF
  rw [h.eq, IntsetMem.intsetUpgradeAndAdd]
  simp only [hKval, hresize]
  by_cases hneg : value.toInt < 0
  · obtain ⟨G', hG', hloop⟩ := intsetUpgradeLoop_spec (n := s.contents.length) (p := 1)
      (G := F) (T := []) h.width hK hle (fun u hu => h.fits hu) (by omega)
    have hset := intsetSet_eq (n := s.contents.length) (i := 0) (a := []) (b := G')
      (c := cells K s.contents ++ []) hK (by simp) (by omega) value.toInt
    simp only [append_nil, nil_append] at hloop hset
    simp only [hneg, if_true, hloop, hset, some_bind]
    refine ⟨_, rfl, intsetEncoding_value _, hKval.symm, ?_, ?_⟩
    · simp [Intset.intsetUpgradeAndAdd, hneg]
    · simp [Intset.intsetUpgradeAndAdd, hneg, hKval, cells_cons]
  · obtain ⟨j, hj⟩ : ∃ j, s.contents.length * K = s.contents.length * s.encoding + j :=
      Nat.exists_eq_add_of_le hgrow
    obtain ⟨G', hG', hloop⟩ := intsetUpgradeLoop_spec (n := s.contents.length) (p := 0)
      (G := F.take j) (T := F.drop j) h.width hK hle (fun u hu => h.fits hu) (by
        rw [length_take, Nat.add_zero]
        omega)
    obtain rfl : G' = [] := by simpa using hG'
    have hset := intsetSet_eq (n := s.contents.length) (i := s.contents.length)
      (a := cells K s.contents) (b := F.drop j) (c := []) hK (length_cells _ _).symm
      (by rw [length_drop]; omega) value.toInt
    simp only [take_append_drop, append_nil, nil_append] at hloop hset
    simp only [hneg, if_false, hloop, hset, some_bind]
    refine ⟨_, rfl, intsetEncoding_value _, hKval.symm, ?_, ?_⟩
    · simp [Intset.intsetUpgradeAndAdd, hneg]
    · simp [Intset.intsetUpgradeAndAdd, hneg, hKval, cells_append, cells_cons]

/-! ## Adding and removing -/

variable (fill) in
/-- The tail is moved up, and the value is put into the gap. -/
theorem Holds.insertAt (h : Holds m s) (value : Int64) {pos : Nat}
    (henc : ¬s.encoding < intsetValueEncoding value.toInt)
    (hpos : Located s.contents value.toInt (false, pos))
    (hlen : (s.contents.length + 1) * 8 < 2 ^ 32) :
    ∃ m' m'', (if pos < s.contents.length then
        (m.intsetResize fill (s.contents.length + 1)).intsetMoveTail pos (pos + 1)
      else some (m.intsetResize fill (s.contents.length + 1))) = some m' ∧
      m'.intsetSet pos value.toInt = some m'' ∧
      Holds { m'' with length := m''.length + 1 } (s.insertAt value pos henc hpos) := by
  have hle : pos ≤ s.contents.length := by
    cases hpos with
    | missing hle _ _ => exact hle
  have hw := h.width.le
  have hmul : (s.contents.length + 1) * s.encoding ≤ (s.contents.length + 1) * 8 :=
    Nat.mul_le_mul_left _ hw.2
  have hsucc : (s.contents.length + 1) * s.encoding =
    s.contents.length * s.encoding + s.encoding := Nat.succ_mul _ _
  obtain ⟨F, hresize, hF⟩ := intsetResize_grow fill
    (m := ⟨s.encoding, s.contents.length, cells s.encoding s.contents⟩) (s.contents.length + 1)
    (by simp only; omega) (by simp only [length_cells]; omega)
  simp only [length_cells] at hresize hF
  rw [h.eq, hresize]
  -- the cells in front of `pos`, and a gap of one cell behind them
  have hgap : ∃ gap, gap.length = s.encoding ∧
      (if pos < s.contents.length then
        intsetMoveTail ⟨s.encoding, s.contents.length, cells s.encoding s.contents ++ F⟩ pos
          (pos + 1)
      else some ⟨s.encoding, s.contents.length, cells s.encoding s.contents ++ F⟩) =
      some ⟨s.encoding, s.contents.length, cells s.encoding (s.contents.take pos) ++
        (gap ++ cells s.encoding (s.contents.drop pos))⟩ := by
    split
    next hlt =>
      have hsplit : cells s.encoding s.contents ++ F = cells s.encoding (s.contents.take pos) ++
          (cells s.encoding (s.contents.drop pos) ++ F) := by
        rw [← append_assoc, ← cells_append, take_append_drop]
      have htake : (cells s.encoding (s.contents.take pos)).length = pos * s.encoding := by
        rw [length_cells, length_take, min_eq_left hle]
      have hdrop : (cells s.encoding (s.contents.drop pos)).length =
          (s.contents.length - pos) * s.encoding := by
        rw [length_cells, length_drop]
      have hbytes : (s.contents.length - pos) * s.encoding % 2 ^ 32 =
          (s.contents.length - pos) * s.encoding := by
        refine Nat.mod_eq_of_lt ?_
        have := Nat.mul_le_mul_right s.encoding (Nat.sub_le s.contents.length pos)
        omega
      have hload := load_append (p := pos * s.encoding)
        (n := (s.contents.length - pos) * s.encoding) F htake.symm hdrop.symm
      have hstore := store_append_take (a := cells s.encoding (s.contents.take pos))
        (m := cells s.encoding (s.contents.drop pos) ++ F) (k := s.encoding)
        (p := (pos + 1) * s.encoding) (cells s.encoding (s.contents.drop pos)) []
        (by rw [htake, Nat.succ_mul]) (by rw [length_append, hdrop]; omega)
      simp only [append_nil] at hstore
      refine ⟨(cells s.encoding (s.contents.drop pos) ++ F).take s.encoding, ?_, ?_⟩
      · rw [length_take, length_append, hdrop]
        omega
      · rw [intsetMoveTail]
        simp only [h.width.width_eq, hbytes]
        rw [hsplit, move_eq hload, hstore]
        rfl
    next hge =>
      obtain rfl : pos = s.contents.length := by omega
      refine ⟨F, by omega, ?_⟩
      rw [take_length, drop_length, cells_nil, append_nil]
  obtain ⟨gap, hgap, hmove⟩ := hgap
  have hset := intsetSet_eq (n := s.contents.length) (i := pos)
    (a := cells s.encoding (s.contents.take pos)) (b := gap)
    (c := cells s.encoding (s.contents.drop pos)) h.width
    (by rw [length_cells, length_take, min_eq_left hle]) hgap value.toInt
  refine ⟨_, _, hmove, hset, h.width, rfl, ?_, ?_⟩
  · rw [Intset.insertAt, length_append, length_cons, length_take, length_drop]
    simp only
    omega
  · rw [Intset.insertAt, cells_append, cells_cons]

end IntsetMem

section Add

variable {s : Intset} {value : Int64} {pos : Nat}

theorem Intset.intsetAdd_of_found (henc : ¬s.encoding < intsetValueEncoding value.toInt)
    (hsearch : intsetSearch s.contents value.toInt = (true, pos)) :
    s.intsetAdd value = (s, false) := by
  rw [Intset.intsetAdd, dif_neg henc]
  split
  next => rfl
  next hsearch' =>
    rw [hsearch] at hsearch'
    cases hsearch'

theorem Intset.intsetAdd_of_missing (henc : ¬s.encoding < intsetValueEncoding value.toInt)
    (hsearch : intsetSearch s.contents value.toInt = (false, pos)) :
    s.intsetAdd value =
      (s.insertAt value pos henc (hsearch ▸ intsetSearch_spec s.sorted value.toInt), true) := by
  rw [Intset.intsetAdd, dif_neg henc]
  split
  next hsearch' =>
    rw [hsearch] at hsearch'
    cases hsearch'
  next hsearch' =>
    rw [hsearch] at hsearch'
    cases hsearch'
    rfl

end Add

namespace IntsetMem

variable {m : IntsetMem} {s : Intset} {fill : Nat → UInt8}

variable (fill) in
theorem Holds.intsetAdd (h : Holds m s) (value : Int64)
    (hlen : (s.contents.length + 1) * 8 < 2 ^ 32) :
    ∃ m', m.intsetAdd fill value.toInt = some (m', (s.intsetAdd value).2) ∧
      Holds m' (s.intsetAdd value).1 := by
  rw [IntsetMem.intsetAdd, h.encoding]
  by_cases henc : s.encoding < intsetValueEncoding value.toInt
  · obtain ⟨m', hm', hholds⟩ := h.intsetUpgradeAndAdd fill value henc hlen
    rw [if_pos henc, Intset.intsetAdd, dif_pos henc, hm']
    exact ⟨m', rfl, hholds⟩
  · rw [if_neg henc]
    rcases hsearch : Redis.intsetSearch s.contents value.toInt with ⟨found, pos⟩
    simp only [h.intsetSearch, hsearch, bind_eq_bind, bind_some]
    cases found with
    | true =>
      rw [Intset.intsetAdd_of_found henc hsearch]
      exact ⟨m, rfl, h⟩
    | false =>
      obtain ⟨m', m'', hmove, hset, hholds⟩ := h.insertAt fill value henc
        (hsearch ▸ intsetSearch_spec s.sorted value.toInt) hlen
      have hresize : (m.intsetResize fill (s.contents.length + 1)).length = s.contents.length :=
        h.length
      rw [Intset.intsetAdd_of_missing henc hsearch]
      simp only [h.length, hresize, Bool.false_eq_true, if_false]
      by_cases hlt : pos < s.contents.length
      · rw [if_pos hlt] at hmove ⊢
        simp only [hmove, hset, bind_some]
        exact ⟨_, rfl, hholds⟩
      · rw [if_neg hlt, Option.some.injEq] at hmove
        rw [if_neg hlt, hmove]
        simp only [hset, bind_some]
        exact ⟨_, rfl, hholds⟩

variable (fill) in
/-- The tail is moved down over the value. -/
theorem Holds.eraseIdx (h : Holds m s) {pos : Nat} (hpos : pos < s.contents.length)
    (hlen : s.contents.length * 8 < 2 ^ 32) :
    ∃ m', (if pos < s.contents.length - 1 then m.intsetMoveTail (pos + 1) pos else some m) =
        some m' ∧
      m'.intsetResize fill (s.contents.length - 1) = ⟨s.encoding, s.contents.length,
        cells s.encoding (s.contents.eraseIdx pos)⟩ := by
  have hw := h.width.le
  obtain ⟨n, hn⟩ : ∃ n, s.contents.length = pos + 1 + n := Nat.exists_eq_add_of_lt hpos |>.imp
    fun n hn => by omega
  have hmul : s.contents.length * s.encoding ≤ s.contents.length * 8 :=
    Nat.mul_le_mul_left _ hw.2
  have htake : (cells s.encoding (s.contents.take pos)).length = pos * s.encoding := by
    rw [length_cells, length_take, min_eq_left hpos.le]
  have hdrop : (cells s.encoding (s.contents.drop (pos + 1))).length = n * s.encoding := by
    rw [length_cells, length_drop, hn, Nat.add_sub_cancel_left]
  have hsplit : cells s.encoding s.contents = cells s.encoding (s.contents.take pos) ++
      (intBytes s.encoding s.contents[pos] ++ cells s.encoding (s.contents.drop (pos + 1))) := by
    conv_lhs => rw [eq_take_cons_drop (getElem?_eq_getElem hpos)]
    rw [cells_append, cells_cons]
  have herase : cells s.encoding (s.contents.eraseIdx pos) =
      cells s.encoding (s.contents.take pos) ++ cells s.encoding (s.contents.drop (pos + 1)) := by
    rw [eraseIdx_eq_take_drop_succ, cells_append]
  have hkeep : (s.contents.length - 1) * s.encoding =
      (cells s.encoding (s.contents.eraseIdx pos)).length := by
    rw [length_cells, length_eraseIdx_of_lt hpos]
  have hpred : (s.contents.length - 1) * s.encoding ≤ s.contents.length * s.encoding :=
    Nat.mul_le_mul_right _ (Nat.sub_le _ _)
  -- what is behind the cells that stay is cut off
  have hcut (rest : Bytes) :
      intsetResize fill ⟨s.encoding, s.contents.length,
        cells s.encoding (s.contents.eraseIdx pos) ++ rest⟩ (s.contents.length - 1) =
      ⟨s.encoding, s.contents.length, cells s.encoding (s.contents.eraseIdx pos)⟩ := by
    rw [intsetResize_shrink _ (by simp only; omega) (by
      simp only
      rw [length_append, ← hkeep]
      exact Nat.le_add_right _ _)]
    simp only
    rw [hkeep, take_left]
  rw [h.eq]
  split
  next hlt =>
    have hbytes : (s.contents.length - (pos + 1)) * s.encoding % 2 ^ 32 = n * s.encoding := by
      rw [hn, Nat.add_sub_cancel_left]
      refine Nat.mod_eq_of_lt ?_
      have := Nat.mul_le_mul_right s.encoding (show n ≤ s.contents.length by omega)
      omega
    have hload : load (cells s.encoding s.contents) ((pos + 1) * s.encoding) (n * s.encoding) =
        some (cells s.encoding (s.contents.drop (pos + 1))) := by
      have h := load_append (a := cells s.encoding (s.contents.take pos) ++
        intBytes s.encoding s.contents[pos]) (p := (pos + 1) * s.encoding) (n := n * s.encoding)
        (b := cells s.encoding (s.contents.drop (pos + 1))) [] (by
          rw [length_append, htake, length_intBytes, Nat.succ_mul]) hdrop.symm
      rw [append_nil, append_assoc, ← hsplit] at h
      exact h
    have hstore (m : Bytes) (hm : n * s.encoding ≤ m.length) :
        store (cells s.encoding (s.contents.take pos) ++ m) (pos * s.encoding)
          (cells s.encoding (s.contents.drop (pos + 1))) =
        some (cells s.encoding (s.contents.eraseIdx pos) ++ m.drop (n * s.encoding)) := by
      have h := store_append (b := m.take (n * s.encoding))
        (cells s.encoding (s.contents.drop (pos + 1))) (m.drop (n * s.encoding)) htake.symm
        (by rw [hdrop, length_take, min_eq_left hm])
      rw [take_append_drop] at h
      rw [h, herase, append_assoc]
    refine ⟨_, ?_, hcut ((intBytes s.encoding s.contents[pos] ++
      cells s.encoding (s.contents.drop (pos + 1))).drop (n * s.encoding))⟩
    rw [intsetMoveTail]
    simp only [h.width.width_eq, hbytes]
    rw [move_eq hload, hsplit, hstore _ (by rw [length_append, hdrop]; omega)]
    rfl
  next hge =>
    obtain rfl : n = 0 := by omega
    have hnil : cells s.encoding (s.contents.drop (pos + 1)) = [] :=
      length_eq_zero_iff.mp (by rw [hdrop, Nat.zero_mul])
    have hlast : cells s.encoding s.contents =
        cells s.encoding (s.contents.eraseIdx pos) ++ intBytes s.encoding s.contents[pos] := by
      rw [hsplit, herase, hnil, append_nil, append_nil]
    refine ⟨_, rfl, ?_⟩
    rw [hlast]
    exact hcut _

variable (fill) in
theorem Holds.intsetRemove (h : Holds m s) (value : Int64)
    (hlen : s.contents.length * 8 < 2 ^ 32) :
    ∃ m', m.intsetRemove fill value.toInt = some (m', (s.intsetRemove value).2) ∧
      Holds m' (s.intsetRemove value).1 := by
  rw [IntsetMem.intsetRemove, Intset.intsetRemove, h.encoding]
  by_cases henc : intsetValueEncoding value.toInt ≤ s.encoding
  · rw [if_pos henc, if_pos henc]
    have hspec := intsetSearch_spec s.sorted value.toInt
    rcases hsearch : Redis.intsetSearch s.contents value.toInt with ⟨found, pos⟩
    rw [hsearch] at hspec
    simp only [h.intsetSearch, hsearch, bind_eq_bind, bind_some]
    cases hspec with
    | found hget =>
      obtain ⟨hpos, -⟩ := List.getElem?_eq_some_iff.mp hget
      obtain ⟨m', hmove, hresize⟩ := h.eraseIdx fill hpos hlen
      simp only [h.length, if_true]
      by_cases hlt : pos < s.contents.length - 1
      · rw [if_pos hlt] at hmove ⊢
        simp only [hmove, hresize, bind_some]
        exact ⟨_, rfl, h.width, rfl, (length_eraseIdx_of_lt hpos).symm, rfl⟩
      · rw [if_neg hlt, Option.some.injEq] at hmove
        rw [if_neg hlt, hmove]
        simp only [hresize]
        exact ⟨_, rfl, h.width, rfl, (length_eraseIdx_of_lt hpos).symm, rfl⟩
    | missing =>
      simp only [Bool.false_eq_true, if_false]
      exact ⟨m, rfl, h⟩
  · rw [if_neg henc, if_neg henc]
    exact ⟨m, rfl, h⟩

theorem Holds.intsetFind (h : Holds m s) (value : Int64) :
    m.intsetFind value.toInt = some (s.intsetFind value) := by
  rw [IntsetMem.intsetFind, Intset.intsetFind, h.encoding]
  split
  next henc => simp [h.intsetSearch, henc]
  next henc => simp [henc]

theorem Holds.intsetGetAt (h : Holds m s) (pos : Nat) :
    m.intsetGetAt pos = some s.contents[pos]? := by
  rw [IntsetMem.intsetGetAt, h.length]
  split
  next hlt => rw [h.intsetGet_eq (getElem?_eq_getElem hlt), getElem?_eq_getElem hlt]; rfl
  next hge => rw [getElem?_eq_none (Nat.not_lt.mp hge)]

end IntsetMem

end Redis
