import Redis.Hyperloglog.Commands
import Redis.Hyperloglog.Merge

/-!
# Redis.Hyperloglog.Cache

The cardinality in the header of a HyperLogLog, and what `PFADD`, `PFCOUNT` and `PFMERGE` do with
it: wherever it is marked valid, it is the one of the registers.
-/

namespace Redis

open Bytes List Option

variable {hdr ele : Bytes} {s s' o : Sds} {rss : List (List Nat)}

/-! ## The header -/

theorem hllHeader_iff {encoding : UInt8} :
    HllHeader hdr encoding ↔ hdr.length = hllHdrSize ∧ hdr.take 5 = hllMagic ++ [encoding] := by
  constructor
  · intro h
    refine ⟨h.length, ?_⟩
    obtain ⟨notused, card, rfl, _⟩ := h
    rfl
  · rintro ⟨hlen, htake⟩
    simp only [hllHdrSize] at hlen
    refine ⟨(hdr.drop 5).take 3, (hdr.drop 8), ?_, ?_, ?_⟩
    · have hdrop : (hdr.drop 5).drop 3 = hdr.drop 8 := by rw [drop_drop]
      rw [← hdrop, take_append_drop, ← take_append_drop 5 hdr, htake]
      simp [hllMagic]
    · rw [length_take, length_drop]
      omega
    · rw [length_drop]
      omega

theorem IsHll.hdr_le {regs : List Nat} (h : IsHll s regs) : hllHdrSize ≤ s.len := by
  rcases h with ⟨hdr, ops, hhdr, hlayout, _⟩ | ⟨hdr, hhdr, hregs⟩
  · rw [hlayout.len, hhdr.length]
    omega
  · rw [hregs.len, hllDenseSize]
    omega

/-- The bytes in front of the cardinality, and those behind it, make a HyperLogLog. -/
theorem IsHll.congr {regs : List Nat} (h : IsHll s regs) (hlen : s'.len = s.len)
    (hhead : s'.buf.take 5 = s.buf.take 5)
    (hbody : s'.buf.drop hllHdrSize = s.buf.drop hllHdrSize) : IsHll s' regs := by
  have hheader {encoding : UInt8} (h' : HllHeader (s.buf.take hllHdrSize) encoding) :
      HllHeader (s'.buf.take hllHdrSize) encoding := by
    rw [hllHeader_iff] at h' ⊢
    have hsize := s.size
    have hsize' := s'.size
    rw [length_take, take_take, show min 5 hllHdrSize = 5 from rfl] at h' ⊢
    have hle := h.hdr_le
    exact ⟨min_eq_left (by omega), by rw [hhead, h'.2]⟩
  rcases h with ⟨hdr, ops, hhdr, hlayout, hregs, hcover⟩ | ⟨hdr, hhdr, hregs⟩
  · obtain ⟨t, hbuf⟩ := hlayout.buf
    have htake : s.buf.take hllHdrSize = hdr := by rw [hbuf, take_left' hhdr.length]
    rw [hbuf, drop_left' hhdr.length] at hbody
    rw [← htake] at hhdr
    have hhdr' := hheader hhdr
    refine .inl ⟨_, ops, hhdr', ⟨⟨t, ?_⟩, ?_⟩, hregs, hcover⟩
    · rw [← hbody, take_append_drop]
    · rw [hlen, hlayout.len, hhdr'.length, ← htake, hhdr.length]
  · rw [← hregs.header] at hhdr
    refine .inr ⟨_, hheader hhdr, ?_⟩
    constructor
    · rw [hlen, hregs.len]
    · rfl
    · exact hregs.length
    · rw [hbody]
      exact hregs.get

theorem IsHll.store {regs : List Nat} (h : IsHll s regs) (off : Nat) (bs : Bytes)
    (hlow : hllCardStart ≤ off) (hhigh : off + bs.length ≤ hllHdrSize) :
    ∃ s', s.store off bs = some s' ∧ IsHll s' regs ∧
      s'.buf = s.buf.take off ++ (bs ++ s.buf.drop (off + bs.length)) := by
  have hsize := s.size
  have hle := h.hdr_le
  have hstore : Bytes.store s.buf off bs = _ := if_pos (by omega)
  obtain ⟨s', hs', hlen, hbuf⟩ := Sds.store_spec hstore
  have hcard : 5 ≤ hllCardStart := by decide
  have htake : (s.buf.take off).length = off := by
    rw [length_take]
    omega
  refine ⟨s', hs', h.congr hlen ?_ ?_, hbuf⟩
  · rw [hbuf, take_append_of_le_length (by omega), take_take, Nat.min_eq_left (by omega)]
  · rw [hbuf, drop_append, drop_eq_nil_of_le (by omega), nil_append,
      drop_append, drop_eq_nil_of_le (by omega), nil_append, drop_drop]
    congr 1
    omega

/-! ## The cached cardinality -/

/-- A HyperLogLog with the registers `regs` whose cardinality, if it is marked valid, is that of
the registers. -/
structure HllOk (card : List Nat → UInt64) (s : Sds) (regs : List Nat) : Prop where
  hll : IsHll s regs
  cached : hllValidCache s = some true → hllCachedCard s = some (card regs)

theorem hllValidCache_of_take (h : s'.buf.take hllHdrSize = s.buf.take hllHdrSize) :
    hllValidCache s' = hllValidCache s := by
  have hget : s'.buf[hllCardOffset]? = s.buf[hllCardOffset]? := by
    have := congrArg (·[hllCardOffset]?) h
    simpa [getElem?_take, hllHdrSize, hllCardOffset] using this
  rw [hllValidCache, hllValidCache, hget]

theorem load_of_take {a b : Bytes} {n off k : Nat} (ha : n ≤ a.length) (hb : n ≤ b.length)
    (hin : off + k ≤ n) (h : a.take n = b.take n) : load a off k = load b off k := by
  have hpart (x : Bytes) : (x.drop off).take k = ((x.take n).drop off).take k := by
    rw [drop_take, take_take, Nat.min_eq_left (by omega)]
  rw [load, load, if_pos (by omega), if_pos (by omega), hpart a, hpart b, h]

theorem HllOk.of_take {card : List Nat → UInt64} {regs : List Nat} (h : HllOk card s regs)
    (hll : IsHll s' regs) (htake : s'.buf.take hllHdrSize = s.buf.take hllHdrSize) :
    HllOk card s' regs := by
  have hsize := s.size
  have hsize' := s'.size
  have hle := h.hll.hdr_le
  have hle' := hll.hdr_le
  refine ⟨hll, fun hvalid => ?_⟩
  rw [hllValidCache_of_take htake] at hvalid
  rw [hllCachedCard, load_of_take (by omega) (by omega) (by decide) htake]
  exact h.cached hvalid

theorem hllInvalidateCache_spec {regs : List Nat} (h : IsHll s regs) :
    ∃ s', hllInvalidateCache s = some s' ∧ IsHll s' regs ∧ hllValidCache s' = some false := by
  have hsize := s.size
  have hle := h.hdr_le
  have hin : hllCardOffset < s.buf.length := lt_of_lt_of_le (by decide : hllCardOffset < hllHdrSize)
    (by omega)
  obtain ⟨s', hs', hll, hbuf⟩ := h.store hllCardOffset
    [s.buf[hllCardOffset] ||| 0x80] (by decide) le_rfl
  refine ⟨s', by simp [hllInvalidateCache, getElem?_eq_getElem hin, hs'], hll, ?_⟩
  have hget : s'.buf[hllCardOffset]? = some (s.buf[hllCardOffset] ||| 0x80) := by
    rw [hbuf]
    exact getElem?_append_length _ _ (by rw [length_take]; omega)
  have htop : ∀ b : UInt8, (b ||| 0x80) &&& 0x80 ≠ 0 := by
    intro b hb
    have hall : ∀ n : Fin 256, (UInt8.ofNat n ||| 0x80) &&& 0x80 ≠ 0 := by decide +kernel
    have := hall ⟨b.toNat, b.toNat_lt⟩
    simp only [UInt8.ofNat_toNat] at this
    exact this hb
  simp [hllValidCache, hget, htop]

theorem HllOk.of_invalid {card : List Nat → UInt64} {regs : List Nat} (h : IsHll s regs)
    (hinvalid : hllValidCache s = some false) : HllOk card s regs := by
  refine ⟨h, fun hvalid => ?_⟩
  rw [hinvalid] at hvalid
  cases hvalid

theorem hllStoreCard_spec (card : List Nat → UInt64) {regs : List Nat} (h : IsHll s regs) :
    ∃ s', s.store hllCardStart (leBytes 8 (card regs).toNat) = some s' ∧ HllOk card s' regs := by
  have hsize := s.size
  have hle := h.hdr_le
  have hcard : hllCardStart + 8 = hllHdrSize := rfl
  obtain ⟨s', hs', hll, hbuf⟩ := h.store hllCardStart
    (leBytes 8 (card regs).toNat) le_rfl (by rw [length_leBytes]; rfl)
  refine ⟨s', hs', hll, fun _ => ?_⟩
  have hload : load s'.buf hllCardStart 8 = some (leBytes 8 (card regs).toNat) := by
    rw [hbuf]
    exact load_append _ (by rw [length_take]; omega) (length_leBytes 8 _).symm
  rw [hllCachedCard, hload, some_bind, leNat_leBytes_of_lt (card regs).toNat_lt, UInt64.ofNat_toNat]
  rfl

/-! ## New and copied values -/

theorem createHLLObject_eq : createHLLObject = some emptyHll := by
  have hopcodes : createHLLOpcodes hllRegisters hllRegisters = (HllOp.xzero 16383).bytes := rfl
  rw [createHLLObject, hopcodes]
  rfl

theorem isHll_empty : IsHll emptyHll (replicate hllRegisters 0) := .inl emptyHll_sparse

theorem dbUnshareStringValue_spec (copied : Bool) {regs : List Nat} (h : IsHll s regs) :
    IsHll (dbUnshareStringValue copied s) regs ∧
      (dbUnshareStringValue copied s).buf.take hllHdrSize = s.buf.take hllHdrSize := by
  cases copied with
  | false => exact ⟨h, rfl⟩
  | true =>
    have hsize := s.size
    have hle := h.hdr_le
    have hlen : (s.buf.take s.len).length = s.len := by
      rw [length_take]
      omega
    have hbuf : (dbUnshareStringValue true s).buf = s.buf.take s.len ++ [0] := rfl
    have htake : (dbUnshareStringValue true s).buf.take hllHdrSize = s.buf.take hllHdrSize := by
      rw [hbuf, take_append_of_le_length (by omega), take_take, min_eq_left hle]
    refine ⟨?_, htake⟩
    rcases h with ⟨hdr, ops, hhdr, hlayout, hregs, hcover⟩ | ⟨hdr, hhdr, hregs⟩
    · obtain ⟨t, hbuf'⟩ := hlayout.buf
      refine .inl ⟨hdr, ops, hhdr, ⟨⟨[], ?_⟩, hlayout.len⟩, hregs, hcover⟩
      rw [hbuf, hbuf', ← append_assoc, take_left' (by
        rw [length_append, hlayout.len]), append_assoc]
    · refine .inr ⟨hdr, hhdr, hregs.len, ?_, hregs.length, fun i hi => ?_⟩
      · rw [htake, hregs.header]
      · have hregLen : i < regs.length := by rw [hregs.length]; exact hi
        have hget := hregs.get i hi
        rw [getElem?_eq_getElem hregLen] at hget ⊢
        have hdense := hregs.len
        refine PackedBits.get_of_take (n := hllDenseSize - hllHdrSize) (by decide) ?_ ?_ ?_ ?_ ?_
          hget
        · simp only [hllDenseSize, hllHdrSize, hllRegisters, hllBits] at *
          omega
        · rw [length_drop]
          omega
        · rw [hbuf, length_drop, length_append, hlen, length_singleton]
          omega
        · simp only [hllDenseSize, hllHdrSize, hllRegisters, hllBits] at *
          omega
        · rw [hbuf, drop_append_of_le_length (by omega),
            take_append_of_le_length (by rw [length_drop]; omega), drop_take,
            take_take, hdense, min_self]

/-! ## Adding -/

variable {r : Sds × Int}

theorem hllSparseUpdated_result {prev : Option Nat} {fin : Nat}
    (h : hllSparseUpdated s prev fin = some r) : r.2 = 1 := by
  simp only [hllSparseUpdated, bind_eq_some, Option.pure_def, Option.some.injEq] at h
  obtain ⟨_, _, _, _, _, _, rfl⟩ := h
  rfl

theorem hllSparsePromote_result (h : hllSparsePromote s ele = some r) : r.2 ≠ 0 := by
  simp only [hllSparsePromote, bind_eq_bind, bind_eq_some_iff] at h
  obtain ⟨dense, _, h⟩ := h
  cases dense with
  | none =>
    cases h
    exact (by decide : (-1 : Int) ≠ 0)
  | some dense =>
    simp only [bind_eq_some_iff] at h
    obtain ⟨r', _, h⟩ := h
    split at h
    next hone =>
      cases h
      rw [hone]
      decide
    · cases h

theorem hllSparseAddAt_zero {maxBytes index count : Nat} {pos : HllPos}
    (h : hllSparseAddAt maxBytes o ele index count pos = some (s', 0)) : s' = o := by
  simp only [hllSparseAddAt, bind_eq_bind, bind_eq_some_iff] at h
  obtain ⟨b, _, runlen, _, h⟩ := h
  split at h
  · cases h
    rfl
  split at h
  · simp only [bind_eq_some_iff] at h
    obtain ⟨_, _, h⟩ := h
    cases hllSparseUpdated_result h
  have hfinish {P : Prop} [Decidable P] {seq : Bytes} {oldlen : Nat}
      (h : (if P then hllSparsePromote o ele
        else (hllSparseSubstitute o pos.p oldlen seq).bind fun o =>
          hllSparseUpdated o pos.prev o.len) = some (s', 0)) : s' = o := by
    split at h
    · exact absurd rfl (hllSparsePromote_result h)
    · simp only [bind_eq_some_iff] at h
      obtain ⟨_, _, h⟩ := h
      cases hllSparseUpdated_result h
  exact hfinish h

theorem hllSparseAdd_zero {fill : Nat → UInt8} {maxBytes : Nat}
    (h : hllSparseAdd fill maxBytes s ele = some (s', 0)) : s' = sdsMakeRoomFor fill s 3 := by
  simp only [hllSparseAdd] at h
  split at h
  · exact absurd rfl (hllSparsePromote_result h)
  simp only [bind_eq_some] at h
  obtain ⟨pos, _, h⟩ := h
  split at h
  · cases h
  · exact hllSparseAddAt_zero h

/-- `res` is the result 1 with another HyperLogLog, or 0 with the same registers and header. -/
def HllAddResult (res : Option (Sds × Int)) (s : Sds) (regs : List Nat) : Prop :=
  ∃ s', (∃ regs', res = some (s', 1) ∧ IsHll s' regs') ∨
    (res = some (s', 0) ∧ IsHll s' regs ∧ s'.buf.take hllHdrSize = s.buf.take hllHdrSize)

theorem hllSparseAdd_result (fill : Nat → UInt8) (maxBytes : Nat) {regs : List Nat}
    (h : SparseHll s regs) (ele : Bytes) :
    HllAddResult (hllSparseAdd fill maxBytes s ele) s regs := by
  obtain ⟨old, hold, s', hs', hll⟩ := hllSparseAdd_spec fill maxBytes h ele
  generalize (hllPatLen ele).1 = index, (hllPatLen ele).2 = count at hold hs' hll
  refine ⟨s', ?_⟩
  by_cases hgrow : old < count
  · rw [if_pos hgrow] at hs'
    exact .inl ⟨_, hs', hll⟩
  · rw [if_neg hgrow] at hs'
    obtain ⟨hlt, hget⟩ := List.getElem?_eq_some_iff.mp hold
    rw [max_eq_left (not_lt.mp hgrow), ← hget, set_getElem_self] at hll
    refine .inr ⟨hs', hll, ?_⟩
    obtain ⟨_, _, t, hbuf⟩ := sdsMakeRoomFor_spec fill s 3
    have hsize := s.size
    have hle := IsHll.hdr_le (.inl h)
    rw [hllSparseAdd_zero hs', hbuf, take_append_of_le_length (by omega)]

theorem hllDenseAdd_result {regs : List Nat} (hhdr : HllHeader hdr hllDense)
    (h : HllDenseRegs s hdr regs) (ele : Bytes) : HllAddResult (hllDenseAdd s ele) s regs := by
  rcases hpat : hllPatLen ele with ⟨index, count⟩
  have hindex := (hllPatLen_spec ele).1
  rw [hpat, ← h.length] at hindex
  obtain ⟨s', hs', hregs'⟩ := hllDenseAdd_spec h hpat (getElem?_eq_getElem hindex)
  refine ⟨s', ?_⟩
  by_cases hgrow : regs[index] < count
  · rw [if_pos hgrow] at hs'
    exact .inl ⟨_, hs', .inr ⟨hdr, hhdr, hregs'⟩⟩
  · rw [if_neg hgrow] at hs'
    rw [max_eq_left (not_lt.mp hgrow), set_getElem_self] at hregs'
    exact .inr ⟨hs', .inr ⟨hdr, hhdr, hregs'⟩, by rw [hregs'.header, h.header]⟩

/-- Either representation has its own function. -/
theorem hllAdd_cases (env : HllEnv) {regs : List Nat} (h : IsHll s regs) (ele : Bytes) :
    (SparseHll s regs ∧ hllAdd env s ele = hllSparseAdd env.fill env.maxBytes s ele) ∨
      ∃ hdr, HllHeader hdr hllDense ∧ HllDenseRegs s hdr regs ∧
        hllAdd env s ele = hllDenseAdd s ele := by
  rcases h with hsparse | ⟨hdr, hhdr, hregs⟩
  · refine .inl ⟨hsparse, ?_⟩
    obtain ⟨hdr, ops, hhdr, hlayout, _⟩ := hsparse
    have hne : ¬hllSparse = hllDense := by decide
    rw [hllAdd, hlayout.text.encoding hhdr, some_bind, if_neg hne, if_pos rfl]
  · exact .inr ⟨hdr, hhdr, hregs, by rw [hllAdd, hregs.encoding hhdr, some_bind, if_pos rfl]⟩

theorem hllAdd_spec (env : HllEnv) {regs : List Nat} (h : IsHll s regs) (ele : Bytes) :
    HllAddResult (hllAdd env s ele) s regs := by
  rcases hllAdd_cases env h ele with ⟨hsparse, hadd⟩ | ⟨hdr, hhdr, hregs, hadd⟩
  · rw [hadd]
    exact hllSparseAdd_result env.fill env.maxBytes hsparse ele
  · rw [hadd]
    exact hllDenseAdd_result hhdr hregs ele

/-! ## Registers -/

/-- Registers that a HyperLogLog can hold. -/
structure HllRegs (regs : List Nat) : Prop where
  length : regs.length = hllRegisters
  lt : ∀ v ∈ regs, v < 64

theorem hllRegs_zero : HllRegs (replicate hllRegisters 0) :=
  ⟨length_replicate, fun v hv => by rw [eq_of_mem_replicate hv]; decide⟩

theorem HllRegs.max {a b : List Nat} (ha : HllRegs a) (hb : HllRegs b) :
    HllRegs (zipWith Nat.max a b) := by
  refine ⟨by rw [length_zipWith, ha.length, hb.length, min_self], fun v hv => ?_⟩
  obtain ⟨i, hi, rfl⟩ := mem_iff_getElem.mp hv
  rw [length_zipWith] at hi
  rw [getElem_zipWith]
  exact Nat.max_lt.mpr ⟨ha.lt _ (getElem_mem _), hb.lt _ (getElem_mem _)⟩

theorem IsHll.regs {regs : List Nat} (h : IsHll s regs) : HllRegs regs := by
  rcases h with ⟨hdr, ops, _, _, rfl, hcover⟩ | ⟨hdr, _, hregs⟩
  · refine ⟨hcover, fun v hv => ?_⟩
    obtain ⟨o, _, ho⟩ := mem_flatMap.mp hv
    rw [eq_of_mem_replicate ho]
    exact lt_of_le_of_lt o.value_le (by decide)
  · refine ⟨hregs.length, fun v hv => ?_⟩
    obtain ⟨i, hi, rfl⟩ := mem_iff_getElem.mp hv
    have hget := hregs.get i (by rw [← hregs.length]; exact hi)
    rw [getElem?_eq_getElem hi] at hget
    exact PackedBits.get_lt hget

theorem IsHll.unique {regs regs' : List Nat} (h : IsHll s regs) (h' : IsHll s regs') :
    regs = regs' := by
  have hzero {r : List Nat} (hr : r.length = hllRegisters) :
      zipWith Nat.max (replicate hllRegisters 0) r = r := by
    rw [zipWith_comm_of_comm Nat.max_comm, zipWith_max_zero hr]
  have hmerge := hllMerge_spec h (length_replicate (a := 0))
  rw [hllMerge_spec h' length_replicate, hzero h.regs.length, hzero h'.regs.length] at hmerge
  simpa using hmerge.symm

theorem IsHll.isHLLObject {regs : List Nat} (h : IsHll s regs) : isHLLObject s = true := by
  have hle := h.hdr_le
  have hhead (encoding : UInt8) (hdr : Bytes) (hhdr : HllHeader hdr encoding)
      (htake : s.buf.take hllHdrSize = hdr) : s.buf.take 4 = hllMagic := by
    obtain ⟨notused, card, rfl, _⟩ := hhdr
    rw [← show (s.buf.take hllHdrSize).take 4 = s.buf.take 4 by rw [take_take]; rfl, htake]
    rfl
  rcases h with ⟨hdr, ops, hhdr, hlayout, _⟩ | ⟨hdr, hhdr, hregs⟩
  · obtain ⟨t, hbuf⟩ := hlayout.buf
    have htake : s.buf.take hllHdrSize = hdr := by rw [hbuf, take_left' hhdr.length]
    simp [Redis.isHLLObject, hle, hhead _ _ hhdr htake, hlayout.text.encoding hhdr, hllSparse,
      hllDense]
  · have hsize : hllHdrSize ≤ hllDenseSize := Nat.le_add_right _ _
    simp [Redis.isHLLObject, hhead _ _ hhdr hregs.header, hregs.encoding hhdr, hregs.len, hsize,
      hllSparse, hllDense]

def hllUnion (rss : List (List Nat)) : List Nat :=
  (range hllRegisters).map fun i => (rss.map (·.getD i 0)).foldr max 0

theorem foldr_max_le {l : List Nat} {b : Nat} : l.foldr max 0 ≤ b ↔ ∀ x ∈ l, x ≤ b := by
  induction l with
  | nil => simp
  | cons x l ih => simp [ih]

theorem hllUnion_nil : hllUnion [] = replicate hllRegisters 0 := by
  refine eq_replicate_iff.mpr ⟨by rw [hllUnion, length_map, length_range], ?_⟩
  intro v hv
  obtain ⟨_, _, rfl⟩ := List.mem_map.mp hv
  rfl

/-- The maximum does not depend on the order, on repetitions and on empty registers. -/
theorem hllUnion_congr {a b : List (List Nat)}
    (hab : ∀ r ∈ a, r ∈ b ∨ r = replicate hllRegisters 0)
    (hba : ∀ r ∈ b, r ∈ a ∨ r = replicate hllRegisters 0) : hllUnion a = hllUnion b := by
  have hle {a b : List (List Nat)} (h : ∀ r ∈ a, r ∈ b ∨ r = replicate hllRegisters 0)
      (i : Nat) : (a.map (·.getD i 0)).foldr max 0 ≤ (b.map (·.getD i 0)).foldr max 0 := by
    refine foldr_max_le.mpr fun x hx => ?_
    obtain ⟨r, hr, rfl⟩ := List.mem_map.mp hx
    rcases h r hr with hin | rfl
    · exact foldr_max_le.mp le_rfl _ (List.mem_map.mpr ⟨r, hin, rfl⟩)
    · simp
  rw [hllUnion, hllUnion]
  exact map_congr_left fun i _ => le_antisymm (hle hab i) (hle hba i)

theorem hllUnion_snoc {regs : List Nat} (h : regs.length = hllRegisters) :
    zipWith Nat.max (hllUnion rss) regs = hllUnion (rss ++ [regs]) := by
  have hlen (rss : List (List Nat)) : (hllUnion rss).length = hllRegisters := by
    rw [hllUnion, length_map, length_range]
  have hfold (l : List Nat) (x : Nat) : (l ++ [x]).foldr max 0 = max (l.foldr max 0) x := by
    induction l with
    | nil => simp
    | cons y l ih => simp [ih, max_assoc]
  refine ext_getElem (by rw [length_zipWith, hlen, hlen, h, min_self]) fun i hi hi' => ?_
  rw [hlen] at hi'
  rw [getElem_zipWith]
  simp only [hllUnion, getElem_map, getElem_range, map_append, map_cons,
    map_nil, hfold, getD_eq_getElem _ _ (h.symm ▸ hi')]

theorem foldl_max_eq (pre : List (List Nat)) (h : ∀ r ∈ rss, r.length = hllRegisters) :
    rss.foldl (zipWith Nat.max) (hllUnion pre) = hllUnion (pre ++ rss) := by
  induction rss generalizing pre with
  | nil => simp
  | cons r rss ih =>
    rw [foldl_cons, hllUnion_snoc (h r (by simp)), ih _ fun r' hr' => h r' (by simp [hr'])]
    simp

/-! ## The loops of the commands -/

section Loops

variable {κ : Type}

/-- The loop over the elements: where `updated` stays, so do the registers and the header. -/
theorem pfaddLoop_spec (env : HllEnv) {regs : List Nat} (h : IsHll s regs) (updated : Nat)
    (eles : List Bytes) :
    ∃ s' n regs', pfaddLoop env s updated eles = some (s', some n) ∧ IsHll s' regs' ∧
      updated ≤ n ∧
      (n = updated → regs' = regs ∧ s'.buf.take hllHdrSize = s.buf.take hllHdrSize) := by
  induction eles generalizing s regs updated with
  | nil => exact ⟨s, updated, regs, rfl, h, le_rfl, fun _ => ⟨rfl, rfl⟩⟩
  | cons ele eles ih =>
    obtain ⟨s₁, ⟨regs₁, hadd, hll⟩ | ⟨hadd, hll, hhead⟩⟩ := hllAdd_spec env h ele
    · obtain ⟨s', n, regs', hloop, hll', hle, _⟩ := ih hll (updated + 1)
      refine ⟨s', n, regs', ?_, hll', by omega, fun heq => by omega⟩
      rw [pfaddLoop, hadd, some_bind, if_pos rfl, hloop]
    · obtain ⟨s', n, regs', hloop, hll', hle, hsame⟩ := ih hll updated
      refine ⟨s', n, regs', ?_, hll', hle, fun heq => ?_⟩
      · rw [pfaddLoop, hadd, some_bind,
          if_neg (by decide : (0 : Int) ≠ 1), if_neg (by decide : (0 : Int) ≠ -1), hloop]
      · obtain ⟨hregs, hhead'⟩ := hsame heq
        exact ⟨hregs, hhead'.trans hhead⟩

/-- The key holds a HyperLogLog with the registers `regs`, or nothing, which counts as an empty
one. -/
def HllHeld (db : HllDb κ) (key : κ) (regs : List Nat) : Prop :=
  (db key = none ∧ regs = replicate hllRegisters 0) ∨
    ∃ s, db key = some (.string s) ∧ IsHll s regs

variable {db : HllDb κ} {key : κ} {keys : List κ} {max : List Nat}

theorem HllHeld.regs {regs : List Nat} (h : HllHeld db key regs) : HllRegs regs := by
  rcases h with ⟨_, rfl⟩ | ⟨s, _, hll⟩
  · exact hllRegs_zero
  · exact hll.regs

theorem hllRegs_of_held (h : Forall₂ (HllHeld db) keys rss) : ∀ r ∈ rss, HllRegs r := by
  induction h with
  | nil => simp
  | cons hkey _ ih =>
    intro r hr
    rcases mem_cons.mp hr with rfl | hr
    · exact hkey.regs
    · exact ih r hr

theorem isHLLObjectOrReply_spec {regs : List Nat} (h : IsHll s regs) :
    isHLLObjectOrReply (.string s) = .ok s := by
  rw [isHLLObjectOrReply, if_pos h.isHLLObject]

theorem hllMergeKeys_cons {regs : List Nat} (h : HllHeld db key regs) (keys : List κ)
    (hmax : max.length = hllRegisters) :
    hllMergeKeys db max (key :: keys) = hllMergeKeys db (zipWith Nat.max max regs) keys := by
  rcases h with ⟨hnone, rfl⟩ | ⟨s, hs, hll⟩
  · rw [hllMergeKeys, hnone, zipWith_max_zero hmax]
  · simp only [hllMergeKeys, hs, isHLLObjectOrReply_spec hll, hllMerge_spec hll hmax, some_bind]

theorem length_zipWith_max {regs : List Nat} (h : HllHeld db key regs)
    (hmax : max.length = hllRegisters) : (zipWith Nat.max max regs).length = hllRegisters := by
  rw [length_zipWith, hmax, h.regs.length, min_self]

theorem hllMergeKeys_spec (h : Forall₂ (HllHeld db) keys rss)
    (hmax : max.length = hllRegisters) :
    hllMergeKeys db max keys = some (.ok (rss.foldl (zipWith Nat.max) max)) := by
  induction h generalizing max with
  | nil => rfl
  | cons hkey _ ih =>
    rw [hllMergeKeys_cons hkey _ hmax, foldl_cons]
    exact ih (length_zipWith_max hkey hmax)

theorem hllMergeKeys_union (h : Forall₂ (HllHeld db) keys rss) :
    hllMergeKeys db (replicate hllRegisters 0) keys = some (.ok (hllUnion rss)) := by
  rw [hllMergeKeys_spec h length_replicate, ← hllUnion_nil,
    foldl_max_eq _ fun r hr => (hllRegs_of_held h r hr).length, nil_append]

theorem hllSetRegisters_spec {a b c : List Nat} (h : HllDenseRegs s hdr (a ++ b))
    (hlen : b.length = c.length) (hlt : ∀ v ∈ c, v < 64) :
    ∃ s', hllSetRegisters s a.length c = some s' ∧ HllDenseRegs s' hdr (a ++ c) := by
  induction c generalizing s a b with
  | nil =>
    obtain rfl := length_eq_zero_iff.mp hlen
    exact ⟨s, rfl, h⟩
  | cons v c ih =>
    cases b with
    | nil => simp at hlen
    | cons x b =>
      have hin : a.length < hllRegisters := by
        rw [← h.length]
        simp
      obtain ⟨s₁, hs₁, h₁⟩ := setRegister_spec h hin (hlt v (by simp))
      have hset : (a ++ x :: b).set a.length v = (a ++ [v]) ++ b := by simp
      rw [hset] at h₁
      obtain ⟨s', hs', h'⟩ := ih h₁ (by simpa using hlen) fun w hw => hlt w (by simp [hw])
      rw [length_append, length_singleton] at hs'
      refine ⟨s', by rw [hllSetRegisters, hs₁, some_bind, hs'], ?_⟩
      simpa using h'

end Loops

/-! ## The commands -/

section Commands

variable {κ : Type} [DecidableEq κ] {card : List Nat → UInt64} {db : HllDb κ}

theorem pfaddValue_spec (card : List Nat → UInt64) (db : HllDb κ) (env : HllEnv) (key : κ)
    {regs : List Nat} (updated : Nat) (h : IsHll o regs) (hok : updated = 0 → HllOk card o regs)
    (eles : List Bytes) :
    ∃ s' regs' r, pfaddValue env db key o updated eles =
        some (Function.update db key (some (.string s')), r) ∧ HllOk card s' regs' := by
  obtain ⟨s₁, n, regs₁, hloop, hll, hle, hsame⟩ := pfaddLoop_spec env h updated eles
  by_cases hzero : n = 0
  · obtain rfl : updated = 0 := by omega
    obtain ⟨rfl, hhead⟩ := hsame hzero
    refine ⟨s₁, regs₁, .int 0, ?_, (hok rfl).of_take hll hhead⟩
    simp [pfaddValue, hloop, hzero]
  · obtain ⟨s₂, hinv, hll₂, hinvalid⟩ := hllInvalidateCache_spec hll
    refine ⟨s₂, regs₁, .int 1, ?_, .of_invalid hll₂ hinvalid⟩
    simp [pfaddValue, hloop, hzero, hinv]

variable {dest key : κ} {keys : List κ} {max : List Nat} (env : HllEnv)

/-- `pfmergeCommand`, once the destination is there: it holds the maximum, and no valid
cardinality. -/
theorem pfmergeInto_spec (card : List Nat → UInt64) (dest : κ) {regs : List Nat}
    (h : IsHll o regs) (hmax : HllRegs max) :
    ∃ s', pfmergeInto db dest o max =
        some (Function.update db dest (some (.string s')), .ok) ∧ HllOk card s' max := by
  obtain ⟨dense, hdr, hconv, hhdr, hregs⟩ : ∃ dense hdr,
      hllSparseToDense o = some (some dense) ∧ HllHeader hdr hllDense ∧
        HllDenseRegs dense hdr regs := by
    rcases h with ⟨hdr, ops, hhdr, hlayout, rfl, hcover⟩ | ⟨hdr, hhdr, hregs⟩
    · exact hllSparseToDense_spec hhdr hlayout hcover
    · exact ⟨o, hdr, by simp [hllSparseToDense, hregs.encoding hhdr], hhdr, hregs⟩
  obtain ⟨s₁, hs₁, h₁⟩ := hllSetRegisters_spec (a := []) (b := regs) (c := max) hregs
    (by rw [hregs.length, hmax.length]) hmax.lt
  obtain ⟨s₂, hs₂, hll, hinvalid⟩ := hllInvalidateCache_spec (.inr ⟨hdr, hhdr, h₁⟩)
  rw [length_nil] at hs₁
  refine ⟨s₂, ?_, .of_invalid hll hinvalid⟩
  simp [pfmergeInto, hconv, hs₁, hs₂]

/-- In every key that passes for a HyperLogLog there is one, with a cardinality that is right or
marked invalid. -/
def HllDbOk (card : List Nat → UInt64) (db : HllDb κ) : Prop :=
  ∀ key s, db key = some (.string s) → isHLLObject s = true → ∃ regs, HllOk card s regs

omit [DecidableEq κ] in
/-- A key is one the commands can use, or `isHLLObjectOrReply` refuses it. -/
theorem HllDbOk.held_or (h : HllDbOk card db) (key : κ) :
    (∃ regs, HllHeld db key regs) ∨
      ∃ value e, db key = some value ∧ isHLLObjectOrReply value = .error e := by
  cases hkey : db key with
  | none => exact .inl ⟨_, .inl ⟨hkey, rfl⟩⟩
  | some value =>
    cases value with
    | other => exact .inr ⟨_, _, rfl, rfl⟩
    | string s =>
      by_cases hobj : isHLLObject s = true
      · obtain ⟨regs, hok⟩ := h key s hkey hobj
        exact .inl ⟨regs, .inr ⟨s, hkey, hok.hll⟩⟩
      · exact .inr ⟨_, _, rfl, by rw [isHLLObjectOrReply, if_neg hobj]⟩

omit [DecidableEq κ] in
theorem HllDbOk.held_or_error (h : HllDbOk card db) (hmax : max.length = hllRegisters)
    (keys : List κ) :
    (∃ rss, Forall₂ (HllHeld db) keys rss) ∨
      ∃ e, hllMergeKeys db max keys = some (.error e) := by
  induction keys generalizing max with
  | nil => exact .inl ⟨[], .nil⟩
  | cons key keys ih =>
    rcases h.held_or key with ⟨regs, hheld⟩ | ⟨value, e, hkey, herr⟩
    · rw [hllMergeKeys_cons hheld keys hmax]
      rcases ih (length_zipWith_max hheld hmax) with ⟨rss, hrest⟩ | herr
      · exact .inl ⟨regs :: rss, .cons hheld hrest⟩
      · exact .inr herr
    · exact .inr ⟨e, by rw [hllMergeKeys, hkey]; simp only [herr]⟩

theorem HllDbOk.update (h : HllDbOk card db) (key : κ) {regs : List Nat} (hok : HllOk card s regs) :
    HllDbOk card (Function.update db key (some (.string s))) := by
  intro key' s' hs' hobj
  by_cases hkey : key' = key
  · subst hkey
    rw [Function.update_self] at hs'
    cases hs'
    exact ⟨regs, hok⟩
  · rw [Function.update_of_ne hkey] at hs'
    exact h key' s' hs' hobj

theorem HllDbOk.remove (h : HllDbOk card db) (key : κ) :
    HllDbOk card (Function.update db key none) := by
  intro key' s' hs' hobj
  by_cases hkey : key' = key
  · subst hkey
    rw [Function.update_self] at hs'
    cases hs'
  · rw [Function.update_of_ne hkey] at hs'
    exact h key' s' hs' hobj

omit [DecidableEq κ] in
/-- The value of a key that is no HyperLogLog is left alone, and one that is gets copied. -/
theorem HllDbOk.value (h : HllDbOk card db) {value : HllValue} (hkey : db key = some value) :
    (∃ e, isHLLObjectOrReply value = .error e) ∨
      ∃ s, value = .string s ∧ isHLLObjectOrReply value = .ok s ∧ ∀ copied, ∃ regs,
        HllOk card (dbUnshareStringValue copied s) regs := by
  rcases h.held_or key with ⟨regs, hheld⟩ | ⟨value', e, hkey', herr⟩
  · rcases hheld with ⟨hnone, _⟩ | ⟨s, hs, hll⟩
    · rw [hnone] at hkey
      cases hkey
    · rw [hs] at hkey
      cases hkey
      obtain ⟨regs', hok⟩ := h key s hs hll.isHLLObject
      refine .inr ⟨s, rfl, isHLLObjectOrReply_spec hll, fun copied => ⟨regs', ?_⟩⟩
      obtain ⟨hll', htake⟩ := dbUnshareStringValue_spec copied hok.hll
      exact hok.of_take hll' htake
  · rw [hkey'] at hkey
    cases hkey
    exact .inl ⟨e, herr⟩

theorem pfaddCommand_ok (h : HllDbOk card db) (key : κ) (eles : List Bytes) :
    ∃ db' r, pfaddCommand env db key eles = some (db', r) ∧ HllDbOk card db' := by
  cases hkey : db key with
  | none =>
    obtain ⟨s', regs', r, hadd, hok⟩ := pfaddValue_spec card db env key 1 isHll_empty
      (fun hzero => by cases hzero) eles
    refine ⟨_, r, ?_, h.update key hok⟩
    simp only [pfaddCommand, hkey, createHLLObject_eq, some_bind, hadd]
  | some value =>
    rcases h.value hkey with ⟨e, herr⟩ | ⟨s, rfl, hobj, hcopy⟩
    · exact ⟨db, e, by simp only [pfaddCommand, hkey, herr], h⟩
    · obtain ⟨regs, hok⟩ := hcopy env.shared
      obtain ⟨s', regs', r, hadd, hok'⟩ := pfaddValue_spec card db env key 0 hok.hll
        (fun _ => hok) eles
      exact ⟨_, r, by simp only [pfaddCommand, hkey, hobj, hadd], h.update key hok'⟩

/-- `PFCOUNT` of one key answers the cardinality of its registers, cached or not. -/
theorem pfcountKey_spec {regs : List Nat} (hkey : db key = some (.string s))
    (hok : HllOk card s regs) :
    ∃ s', pfcountKey card env db key =
        some (Function.update db key (some (.string s')), hllReplyCard (card regs)) ∧
      HllOk card s' regs := by
  obtain ⟨hll, htake⟩ := dbUnshareStringValue_spec env.shared hok.hll
  have hok' := hok.of_take hll htake
  have hvalid : ∃ valid, hllValidCache (dbUnshareStringValue env.shared s) = some valid := by
    have hsize := (dbUnshareStringValue env.shared s).size
    have hle := hll.hdr_le
    have hin : hllCardOffset < (dbUnshareStringValue env.shared s).buf.length :=
      lt_of_lt_of_le (by decide : hllCardOffset < hllHdrSize) (by omega)
    exact ⟨_, by rw [hllValidCache, getElem?_eq_getElem hin]; rfl⟩
  obtain ⟨valid, hvalid⟩ := hvalid
  cases valid with
  | true =>
    refine ⟨_, ?_, hok'⟩
    simp only [pfcountKey, hkey, isHLLObjectOrReply_spec hok.hll, hvalid, hok'.cached hvalid,
      if_true, some_bind, Option.pure_def]
  | false =>
    obtain ⟨s', hs', hok₁⟩ := hllStoreCard_spec card hll
    refine ⟨s', ?_, hok₁⟩
    simp only [pfcountKey, hkey, isHLLObjectOrReply_spec hok.hll, hvalid, hllCount_spec card hll,
      hs', Bool.false_eq_true, if_false, some_bind, Option.pure_def]

theorem pfcountCommand_eq (hne : ∀ key, keys ≠ [key]) :
    pfcountCommand card env db keys =
      (hllMergeKeys db (replicate hllRegisters 0) keys).bind fun r =>
        match r with
        | .error e => some (db, e)
        | .ok registers => some (db, hllReplyCard (hllCountRaw card registers)) := by
  match keys, hne with
  | [], _ => rfl
  | key :: key' :: keys, _ => rfl
  | [key], hne => exact absurd rfl (hne key)

/-- `PFCOUNT` of several keys answers the cardinality of their union. -/
theorem pfcountCommand_many (card : List Nat → UInt64) (env : HllEnv) (hne : ∀ key, keys ≠ [key])
    (h : Forall₂ (HllHeld db) keys rss) :
    pfcountCommand card env db keys = some (db, hllReplyCard (card (hllUnion rss))) := by
  have hunion : (hllUnion rss).length = hllRegisters := by
    rw [hllUnion, length_map, length_range]
  rw [pfcountCommand_eq env hne, hllMergeKeys_union h, bind_some]
  simp only [hllCountRaw_spec card hunion]

theorem pfcountCommand_ok (h : HllDbOk card db) (keys : List κ) :
    ∃ db' r, pfcountCommand card env db keys = some (db', r) ∧ HllDbOk card db' := by
  have hmany (hne : ∀ key, keys ≠ [key]) :
      ∃ db' r, pfcountCommand card env db keys = some (db', r) ∧ HllDbOk card db' := by
    rcases h.held_or_error length_replicate keys with ⟨rss, hheld⟩ | ⟨e, herr⟩
    · exact ⟨db, _, pfcountCommand_many card env hne hheld, h⟩
    · exact ⟨db, e, by rw [pfcountCommand_eq env hne, herr, bind_some], h⟩
  match keys, hmany with
  | [], hmany => exact hmany fun _ => by simp
  | key :: key' :: keys, hmany => exact hmany fun _ => by simp
  | [key], _ =>
    rw [pfcountCommand]
    cases hkey : db key with
    | none => exact ⟨db, .int 0, by simp only [pfcountKey, hkey], h⟩
    | some value =>
      rcases h.value hkey with ⟨e, herr⟩ | ⟨s, rfl, hobj, _⟩
      · exact ⟨db, e, by simp only [pfcountKey, hkey, herr], h⟩
      · have hHll : isHLLObject s = true := by
          rw [isHLLObjectOrReply] at hobj
          split at hobj
          next hHll => exact hHll
          next => cases hobj
        obtain ⟨regs, hok⟩ := h key s hkey hHll
        obtain ⟨s', hcount, hok'⟩ := pfcountKey_spec env hkey hok
        exact ⟨_, _, hcount, h.update key hok'⟩

theorem hllRegs_union (h : ∀ r ∈ rss, HllRegs r) : HllRegs (hllUnion rss) := by
  have hfold {max : List Nat} {rss : List (List Nat)} (hmax : HllRegs max)
      (hrss : ∀ r ∈ rss, HllRegs r) : HllRegs (rss.foldl (zipWith Nat.max) max) := by
    induction rss generalizing max with
    | nil => exact hmax
    | cons r rss ih => exact ih (hmax.max (hrss r (by simp))) fun r' hr' => hrss r' (by simp [hr'])
  have hunion := foldl_max_eq [] fun r hr => (h r hr).length
  rw [nil_append] at hunion
  rw [← hunion, hllUnion_nil]
  exact hfold hllRegs_zero h

variable {srcs : List κ}

theorem pfmergeCommand_ok_eq
    (h : hllMergeKeys db (replicate hllRegisters 0) (dest :: srcs) = some (.ok max)) :
    pfmergeCommand env db dest srcs =
      match db dest with
      | none => createHLLObject.bind fun o => pfmergeInto db dest o max
      | some (.string o) => pfmergeInto db dest (dbUnshareStringValue env.shared o) max
      | some .other => none := by
  rw [pfmergeCommand, h]
  rfl

theorem pfmergeCommand_spec (card : List Nat → UInt64) (env : HllEnv)
    (h : Forall₂ (HllHeld db) (dest :: srcs) rss) :
    ∃ s, pfmergeCommand env db dest srcs =
        some (Function.update db dest (some (.string s)), .ok) ∧ HllOk card s (hllUnion rss) := by
  have hmax := hllRegs_union (hllRegs_of_held h)
  rw [pfmergeCommand_ok_eq env (hllMergeKeys_union h)]
  cases h with
  | cons hdest _ =>
    rcases hdest with ⟨hnone, _⟩ | ⟨o, ho, hll⟩
    · obtain ⟨s, hs, hok⟩ := pfmergeInto_spec card dest isHll_empty hmax
      refine ⟨s, ?_, hok⟩
      rw [hnone, createHLLObject_eq, bind_some]
      exact hs
    · obtain ⟨s, hs, hok⟩ := pfmergeInto_spec card dest
        (dbUnshareStringValue_spec env.shared hll).1 hmax
      refine ⟨s, ?_, hok⟩
      rw [ho]
      exact hs

theorem pfmergeCommand_ok (h : HllDbOk card db) (dest : κ) (srcs : List κ) :
    ∃ db' r, pfmergeCommand env db dest srcs = some (db', r) ∧ HllDbOk card db' := by
  rcases h.held_or_error length_replicate (dest :: srcs) with ⟨rss, hheld⟩ | ⟨e, herr⟩
  · obtain ⟨s, hmerge, hok⟩ := pfmergeCommand_spec card env hheld
    exact ⟨_, _, hmerge, h.update dest hok⟩
  · exact ⟨db, e, by rw [pfmergeCommand, herr]; rfl, h⟩

theorem hllCall_ok (h : HllDbOk card db) (cmd : HllCommand κ) :
    ∃ db' r, hllCall card env db cmd = some (db', r) ∧ HllDbOk card db' := by
  cases cmd with
  | pfadd key eles => exact pfaddCommand_ok env h key eles
  | pfcount keys => exact pfcountCommand_ok env h keys
  | pfmerge dest srcs => exact pfmergeCommand_ok env h dest srcs
  | remove key => exact ⟨_, _, rfl, h.remove key⟩

/-- No command of a run fails, and the cardinalities stay right. -/
theorem hllCalls_ok (h : HllDbOk card db) (cmds : List (HllEnv × HllCommand κ)) :
    ∃ db', hllCalls card db cmds = some db' ∧ HllDbOk card db' := by
  induction cmds generalizing db with
  | nil => exact ⟨db, rfl, h⟩
  | cons call cmds ih =>
    obtain ⟨db₁, r, hcall, h₁⟩ := hllCall_ok call.1 h call.2
    obtain ⟨db', hcalls, h'⟩ := ih h₁
    exact ⟨db', by rw [hllCalls, hcall, some_bind, hcalls], h'⟩

/-- `PFCOUNT` of some keys is `PFCOUNT` of a key into which they are merged. -/
theorem pfcount_pfmerge (card : List Nat → UInt64) (env env₁ env₂ : HllEnv)
    (hne : ∀ key, keys ≠ [key]) (h : Forall₂ (HllHeld db) keys rss)
    (hdest : db dest = none ∨ dest ∈ keys) :
    ∃ db₁ db₂ r, pfmergeCommand env db dest keys = some (db₁, .ok) ∧
      pfcountCommand card env₁ db₁ [dest] = some (db₂, r) ∧
      pfcountCommand card env₂ db keys = some (db, r) := by
  obtain ⟨regs, hheld, hunion⟩ : ∃ regs, HllHeld db dest regs ∧
      hllUnion (regs :: rss) = hllUnion rss := by
    have hcongr {regs : List Nat} (hr : regs ∈ rss ∨ regs = replicate hllRegisters 0) :
        hllUnion (regs :: rss) = hllUnion rss :=
      hllUnion_congr (fun r hr' => (mem_cons.mp hr').elim (fun heq => heq ▸ hr) .inl)
        fun r hr' => .inl (mem_cons_of_mem _ hr')
    rcases hdest with hnone | hmem
    · exact ⟨_, .inl ⟨hnone, rfl⟩, hcongr (.inr rfl)⟩
    · obtain ⟨regs, hregs, hheld⟩ : ∃ regs ∈ rss, HllHeld db dest regs := by
        clear hne hcongr
        induction h with
        | nil => cases hmem
        | cons hkey _ ih =>
          rcases mem_cons.mp hmem with rfl | hmem
          · exact ⟨_, mem_cons_self, hkey⟩
          · obtain ⟨regs, hregs, hheld⟩ := ih hmem
            exact ⟨regs, mem_cons_of_mem _ hregs, hheld⟩
      exact ⟨regs, hheld, hcongr (.inl hregs)⟩
  obtain ⟨s, hmerge, hok⟩ := pfmergeCommand_spec card env (.cons hheld h)
  rw [hunion] at hok
  obtain ⟨s', hcount, _⟩ := pfcountKey_spec env₁ (Function.update_self dest _ db) hok
  exact ⟨_, _, _, hmerge, hcount, pfcountCommand_many card env₂ hne h⟩

/-- After any sequence of commands: a cardinality that is marked valid is the one `hllCount`
computes, `PFMERGE` stores the pointwise maximum of the destination and the sources, and `PFCOUNT`
of several keys is `PFCOUNT` of their merge, into a new key or one of them. -/
theorem hll_cache_and_merge (card : List Nat → UInt64) {db₀ : HllDb κ} (h₀ : HllDbOk card db₀)
    (cmds : List (HllEnv × HllCommand κ)) :
    ∃ db, hllCalls card db₀ cmds = some db ∧
      (∀ key s regs, db key = some (.string s) → IsHll s regs →
        hllCount card s = some (card regs, false) ∧
          (hllValidCache s = some true → hllCachedCard s = some (card regs))) ∧
      (∀ env dest srcs rss, Forall₂ (HllHeld db) (dest :: srcs) rss →
        ∃ s, pfmergeCommand env db dest srcs =
            some (Function.update db dest (some (.string s)), .ok) ∧
          IsHll s (hllUnion rss)) ∧
      (∀ env env₁ env₂ dest keys rss, (∀ key, keys ≠ [key]) →
        Forall₂ (HllHeld db) keys rss → db dest = none ∨ dest ∈ keys →
        ∃ db₁ db₂ r, pfmergeCommand env db dest keys = some (db₁, .ok) ∧
          pfcountCommand card env₁ db₁ [dest] = some (db₂, r) ∧
          pfcountCommand card env₂ db keys = some (db, r)) := by
  obtain ⟨db, hcalls, h⟩ := hllCalls_ok h₀ cmds
  refine ⟨db, hcalls, ?_, ?_, ?_⟩
  · intro key s regs hs hll
    obtain ⟨regs', hok⟩ := h key s hs hll.isHLLObject
    rw [hll.unique hok.hll]
    exact ⟨hllCount_spec card hok.hll, hok.cached⟩
  · intro env dest srcs rss hheld
    obtain ⟨s, hmerge, hok⟩ := pfmergeCommand_spec card env hheld
    exact ⟨s, hmerge, hok.hll⟩
  · intro env env₁ env₂ dest keys rss hne hheld hdest
    exact pfcount_pfmerge card env env₁ env₂ hne hheld hdest

end Commands

/-- From an empty keyspace, after two keys have been added to. -/
theorem hll_cache_and_merge_empty :
    ∃ db, hllCalls (fun regs => regs.foldl (fun n r => n + UInt64.ofNat r) 0) (fun _ : Bool => none)
        [(⟨fun _ => 0, 3000, false⟩, .pfadd true [[0x61]]),
          (⟨fun _ => 0, 3000, true⟩, .pfadd false [[0x62]])] = some db ∧
      ∀ key s regs, db key = some (.string s) → IsHll s regs → hllValidCache s = some true →
        hllCachedCard s = some (regs.foldl (fun n r => n + UInt64.ofNat r) 0) := by
  have hempty : HllDbOk (fun regs => regs.foldl (fun n r => n + UInt64.ofNat r) 0)
      fun _ : Bool => none := fun _ _ h => by cases h
  obtain ⟨db, hcalls, hcache, _⟩ := hll_cache_and_merge
    (fun regs => regs.foldl (fun n r => n + UInt64.ofNat r) 0) hempty
    [(⟨fun _ => 0, 3000, false⟩, .pfadd true [[0x61]]),
      (⟨fun _ => 0, 3000, true⟩, .pfadd false [[0x62]])]
  exact ⟨db, hcalls, fun key s regs hs hll => (hcache key s regs hs hll).2⟩

end Redis
