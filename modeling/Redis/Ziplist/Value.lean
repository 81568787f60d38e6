import Redis.Ziplist.Layout

/-!
# Redis.Ziplist.Value

Strings and the entries that hold them: what `__ziplistInsert` writes for a
string reads back as that string, and the bytes of an entry determine its
value.
-/

namespace Redis

open Bytes List Option

variable {s c : Bytes} {encoding b x : UInt8} {e e' : ZipEntry}

/-! ## Integers -/

variable {k : Nat} {l : ZipLength} {v : Int} {y : UInt8}

/-- What `zipTryEncoding` accepts: the canonical form of an integer, with an
encoding whose range holds it. -/
theorem zipTryEncoding_spec (h : zipTryEncoding s = some (v, encoding)) :
    s.length < 32 ∧ ll2string v = s ∧
      ((∃ n : Nat, n ≤ 12 ∧ v = n ∧ encoding = zipIntImmMin + UInt8.ofNat n) ∨
        ∃ k : Nat, 0 < k ∧ zipIsImm encoding = false ∧ zipIntSize encoding = k ∧
          ¬encoding < zipStrMask ∧ -(256 ^ k : Nat) ≤ 2 * v ∧ 2 * v < (256 ^ k : Nat)) := by
  rw [zipTryEncoding] at h
  split at h
  next => cases h
  next hlen =>
    cases hs : string2ll s with
    | none => simp [hs] at h
    | some w =>
      rw [hs] at h
      obtain ⟨rfl, henc⟩ := Prod.mk.inj (Option.some.inj h)
      obtain ⟨hstr, hlo, hhi⟩ := string2ll_spec hs
      refine ⟨by omega, hstr, ?_⟩
      split at henc
      next himm => exact .inl ⟨w.toNat, by omega, by omega, henc.symm⟩
      next =>
        refine .inr ?_
        split at henc
        next hr => exact henc ▸ ⟨1, by decide, rfl, rfl, by decide, by omega, by omega⟩
        next =>
          split at henc
          next hr => exact henc ▸ ⟨2, by decide, rfl, rfl, by decide, by omega, by omega⟩
          next =>
            split at henc
            next hr => exact henc ▸ ⟨3, by decide, rfl, rfl, by decide, by omega, by omega⟩
            next =>
              split at henc
              next hr => exact henc ▸ ⟨4, by decide, rfl, rfl, by decide, by omega, by omega⟩
              next => exact henc ▸ ⟨8, by decide, rfl, rfl, by decide, by omega, by omega⟩

/-- The bytes from `0xc0` on are encodings of integers: they stand for
themselves. -/
theorem zipEntryEncoding_int (h : ¬encoding < zipStrMask) :
    zipEntryEncoding encoding = encoding ∧ zipIsStr encoding = false := by
  have hand : ∀ m < 64, (192 + m) &&& 192 = 192 := by decide
  have hn : ¬encoding.toNat < 192 := by simpa [zipStrMask, UInt8.lt_iff_toNat_lt] using h
  have hlt := encoding.toNat_lt
  have hmask := hand (encoding.toNat - 192) (by omega)
  rw [Nat.add_sub_cancel' (by omega)] at hmask
  refine ⟨if_neg h, ?_⟩
  simp [zipIsStr, zipStrMask, UInt8.lt_iff_toNat_lt, hmask]

theorem zipDecodeLength_int (h : ¬encoding < zipStrMask) (bs : Bytes) :
    zipDecodeLength (encoding :: bs) 0 = some ⟨encoding, 1, zipIntSize encoding⟩ := by
  simp only [zipDecodeLength, getElem?_cons_zero, some_bind,
    (zipEntryEncoding_int h).1, if_neg h]

/-- The encoding `zipTryEncoding` chooses, as `zipSaveInteger` and
`zipLoadInteger` see it. -/
theorem zipTryEncoding_load (h : zipTryEncoding s = some (v, encoding)) :
    ¬encoding < zipStrMask ∧ zipIsInt encoding = true ∧
      zipLoadInteger (encoding ::
        leBytes (zipIntSize encoding) (v % (256 ^ zipIntSize encoding : Nat)).toNat) 1 encoding =
        some v := by
  obtain ⟨_, _, ⟨n, hn, rfl, rfl⟩ | ⟨k, hk, himm, rfl, hge, hlo, hhi⟩⟩ := zipTryEncoding_spec h
  · have himm : ∀ n ≤ 12, ¬zipIntImmMin + UInt8.ofNat n < zipStrMask ∧
        zipIsImm (zipIntImmMin + UInt8.ofNat n) = true ∧
        (zipIntImmMin + UInt8.ofNat n).toNat % 16 = n + 1 := by decide
    obtain ⟨hge, hisImm, hval⟩ := himm n hn
    refine ⟨hge, by simp [zipIsInt, hisImm], ?_⟩
    rw [zipLoadInteger, if_pos hisImm, hval]
    simp
  · refine ⟨hge, by simp [zipIsInt, hk], ?_⟩
    have hload : load (encoding ::
        leBytes (zipIntSize encoding) (v % (256 ^ zipIntSize encoding : Nat)).toNat) 1
        (zipIntSize encoding) =
        some (leBytes (zipIntSize encoding) (v % (256 ^ zipIntSize encoding : Nat)).toNat) := by
      have := load_append (a := [encoding]) (p := 1) (n := zipIntSize encoding) []
        (b := leBytes (zipIntSize encoding) (v % (256 ^ zipIntSize encoding : Nat)).toNat)
        rfl (by simp)
      simpa using this
    rw [zipLoadInteger, himm, if_neg (by simp), if_pos hk, hload]
    simp only [some_bind, Option.pure_def,
      bmod_leNat_leBytes hlo hhi]

/-! ## Strings -/

/-- The length of a string, as `ZIP_DECODE_LENGTH` reads what
`zipEncodeLength` wrote. -/
theorem zipDecodeLength_str {n : Nat} (hn : n < 2 ^ 32) (c : Bytes) :
    ∃ encoding, encoding < zipStrMask ∧ zipIsStr encoding = true ∧
      zipDecodeLength (zipEncodeLength 0 n ++ c) 0 =
        some ⟨encoding, (zipEncodeLength 0 n).length, n⟩ := by
  rw [zipEncodeLength, if_pos (by decide)]
  by_cases h06 : n ≤ 0x3f
  · have hb : ∀ n ≤ 0x3f, zipEntryEncoding (zipStr06b ||| UInt8.ofNat n) = zipStr06b ∧
        (zipStr06b ||| UInt8.ofNat n).toNat % 64 = n := by decide
    obtain ⟨henc, hval⟩ := hb n h06
    refine ⟨zipStr06b, by decide, by decide, ?_⟩
    rw [if_pos h06]
    simp only [zipDecodeLength, cons_append, getElem?_cons_zero, some_bind, henc, hval]
    rfl
  · rw [if_neg h06]
    by_cases h14 : n ≤ 0x3fff
    · have hb : ∀ m < 64, zipEntryEncoding (zipStr14b ||| UInt8.ofNat m) = zipStr14b ∧
          (zipStr14b ||| UInt8.ofNat m).toNat % 64 = m := by decide
      obtain ⟨henc, hval⟩ := hb (n / 256 % 64) (Nat.mod_lt _ (by decide))
      refine ⟨zipStr14b, by decide, by decide, ?_⟩
      have hlen : n / 256 % 64 * 256 + (UInt8.ofNat n).toNat = n := by
        rw [UInt8.toNat_ofNat']
        omega
      rw [if_pos h14]
      simp only [zipDecodeLength, cons_append, getElem?_cons_zero, some_bind, henc, hval, getElem?_cons_succ, Nat.zero_add, hlen]
      rfl
    · refine ⟨zipStr32b, by decide, by decide, ?_⟩
      have hload : load (zipStr32b :: (leBytes 4 n).reverse ++ c) 1 4 =
          some (leBytes 4 n).reverse := by
        have := load_append (a := [zipStr32b]) (b := (leBytes 4 n).reverse) (p := 1) (n := 4) c
          rfl (by simp)
        simpa using this
      have henc : zipEntryEncoding zipStr32b = zipStr32b := by decide
      rw [if_neg h14]
      simp only [zipDecodeLength, cons_append, getElem?_cons_zero, some_bind, henc, Nat.zero_add] at hload ⊢
      rw [hload]
      simp [reverse_reverse, leNat_leBytes_of_lt (by omega : n < 256 ^ 4), zipStr32b,
        zipStrMask, zipStr06b, zipStr14b]

/-- Every string has an entry: what `__ziplistInsert` writes for it. -/
theorem exists_entry (s : Bytes) (wide : Bool)
    (hs : s.length < 2 ^ 32 ∨ zipTryEncoding s ≠ none) :
    ∃ e : ZipEntry, e.wide = wide ∧ zipBody s = some e.body ∧ e.value = s := by
  cases henc : zipTryEncoding s with
  | some r =>
    obtain ⟨v, encoding⟩ := r
    obtain ⟨hge, hint, hload⟩ := zipTryEncoding_load henc
    obtain ⟨_, hstr, _⟩ := zipTryEncoding_spec henc
    have hisStr := (zipEntryEncoding_int hge).2
    refine ⟨⟨wide, encoding ::
      leBytes (zipIntSize encoding) (v % (256 ^ zipIntSize encoding : Nat)).toNat,
      ⟨encoding, 1, zipIntSize encoding⟩, zipDecodeLength_int hge _, by simp; omega,
      by simp [zipEncodingOk, hint]⟩, rfl, ?_, ?_⟩
    · simp [zipBody, henc, zipSaveInteger, hint, zipEncodeLength, hisStr]
    · simp only [ZipEntry.value, hisStr, hload, map_some, getD_some, hstr]
      simp
  | none =>
    have hlen : s.length < 2 ^ 32 := hs.resolve_right (by simp [henc])
    obtain ⟨encoding, hlt, hisStr, hdec⟩ := zipDecodeLength_str hlen s
    refine ⟨⟨wide, zipEncodeLength 0 s.length ++ s,
      ⟨encoding, (zipEncodeLength 0 s.length).length, s.length⟩, hdec, by simp,
      by simp [zipEncodingOk, hlt]⟩, rfl, by simp [zipBody, henc], ?_⟩
    simp [ZipEntry.value, hisStr]

theorem zipReqlen_eq (h : zipBody s = some e.body) (prev : Nat) :
    zipReqlen s prev = zipPrevEncodeLengthSize prev + e.body.length := by
  rw [zipBody] at h
  cases henc : zipTryEncoding s with
  | some r =>
    obtain ⟨v, encoding⟩ := r
    obtain ⟨hge, hint, _⟩ := zipTryEncoding_load henc
    have hisStr := (zipEntryEncoding_int hge).2
    simp only [henc, zipSaveInteger, hint, if_true, map_some, Option.some.injEq] at h
    simp only [zipReqlen, zipEncodingOf, henc, ← h, zipEncodeLength, hisStr]
    simp
    omega
  | none =>
    simp only [henc, Option.some.injEq] at h
    simp only [zipReqlen, zipEncodingOf, henc, ← h, length_append]
    omega

theorem encodable_of_zipReqlen {v : Nat} (h : zipReqlen s v < 2 ^ 32) :
    s.length < 2 ^ 32 ∨ zipTryEncoding s ≠ none := by
  cases henc : zipTryEncoding s with
  | some r => exact .inr (by simp)
  | none =>
    simp only [zipReqlen, henc] at h
    exact .inl (by omega)

/-! ## Reading -/

theorem zipIsStr_of_lt (h : encoding < zipStrMask) : zipIsStr encoding = true := by
  have hle : encoding.toNat &&& 192 ≤ encoding.toNat := Nat.and_le_left
  simp only [zipIsStr, zipStrMask, UInt8.lt_iff_toNat_lt, UInt8.toNat_and, decide_eq_true_eq,
    UInt8.reduceToNat] at h ⊢
  omega

/-- What `ZIP_DECODE_LENGTH` reads behind a byte below `0xc0`. -/
theorem zipDecodeLength_lt {bs : Bytes} (hb : b < zipStrMask)
    (h : zipDecodeLength (b :: bs) 0 = some l) :
    l.encoding = b &&& zipStrMask ∧ zipIsStr l.encoding = true ∧
      ((l.encoding = zipStr06b ∧ l.lensize = 1 ∧ l.len = b.toNat % 64) ∨
        (l.encoding = zipStr14b ∧ l.lensize = 2 ∧
          ∃ b₁, bs[0]? = some b₁ ∧ l.len = b.toNat % 64 * 256 + b₁.toNat) ∨
        (l.encoding = zipStr32b ∧ l.lensize = 5 ∧
          ∃ xs, load (b :: bs) 1 4 = some xs ∧ l.len = leNat xs.reverse)) := by
  have henc : zipEntryEncoding b = b &&& zipStrMask := if_pos hb
  have hlt : b &&& zipStrMask < zipStrMask := by simpa [zipIsStr] using zipIsStr_of_lt hb
  simp only [zipDecodeLength, getElem?_cons_zero, some_bind, henc,
    if_pos hlt, Nat.zero_add, getElem?_cons_succ] at h
  split at h
  next h06 =>
    cases h
    exact ⟨rfl, zipIsStr_of_lt hlt, .inl ⟨h06, rfl, rfl⟩⟩
  next =>
    split at h
    next h14 =>
      obtain ⟨b₁, hb₁, hl⟩ := bind_eq_some_iff.mp h
      cases hl
      exact ⟨rfl, zipIsStr_of_lt hlt, .inr (.inl ⟨h14, rfl, b₁, hb₁, rfl⟩)⟩
    next =>
      split at h
      next h32 =>
        obtain ⟨xs, hxs, hl⟩ := bind_eq_some_iff.mp h
        cases hl
        exact ⟨rfl, zipIsStr_of_lt hlt, .inr (.inr ⟨h32, rfl, xs, hxs, rfl⟩)⟩
      next => cases h

/-- An entry that is no string holds an integer behind one byte. -/
theorem ZipEntry.length_of_int (h : zipIsStr e.length.encoding = false) :
    e.length.lensize = 1 ∧ e.length.len = zipIntSize e.length.encoding ∧
      zipIsInt e.length.encoding = true ∧ e.body[0]? = some e.length.encoding := by
  have hge : ¬e.length.encoding < zipStrMask := fun hlt => by
    rw [zipIsStr_of_lt hlt] at h
    cases h
  have hint : zipIsInt e.length.encoding = true := by
    have hvalid := e.valid
    simpa [zipEncodingOk, hge] using hvalid
  have hdec := e.decode
  cases hbody : e.body with
  | nil => simp [hbody, zipDecodeLength] at hdec
  | cons b bs =>
    by_cases hb : b < zipStrMask
    · rw [hbody] at hdec
      rw [(zipDecodeLength_lt hb hdec).2.1] at h
      cases h
    · rw [hbody, zipDecodeLength_int hb, Option.some.injEq] at hdec
      rw [← hdec] at hint ⊢
      exact ⟨rfl, rfl, hint, rfl⟩

theorem ziplistGet_entry {a : Bytes} {p : Nat} {prev : Nat} (hp : p = a.length)
    (h : FieldFits e.wide prev) (c : Bytes) :
    ∃ v, ziplistGet (a ++ (e.bytes prev ++ c)) p = some v ∧ v.bytes = e.value := by
  have hbody : a ++ (e.bytes prev ++ c) = (a ++ prevField e.wide prev) ++ (e.body ++ c) := by
    simp [ZipEntry.bytes]
  have hoff : p + (e.zlentry prev).headersize =
      (a ++ prevField e.wide prev).length + e.length.lensize := by
    simp [ZipEntry.zlentry, hp]
    omega
  -- A read behind the header that stays in the body.
  have hload {bs : Bytes} (n : Nat) (hn : load e.body e.length.lensize n = some bs) :
      load (a ++ (e.bytes prev ++ c)) (p + (e.zlentry prev).headersize) n = some bs := by
    rw [hbody, hoff, load_append_right, load_append_left c hn]
  have hsize := e.size
  rw [ziplistGet, zipEntry_append hp h]
  simp only [some_bind]
  by_cases hstr : zipIsStr e.length.encoding = true
  · have hin : load e.body e.length.lensize e.length.len = some (e.body.drop e.length.lensize) := by
      rw [load, if_pos (by omega), take_of_length_le (by rw [length_drop]; omega)]
    refine ⟨.str (e.body.drop e.length.lensize), ?_, ?_⟩
    · rw [if_pos (by exact hstr)]
      have := hload _ hin
      simp only [ZipEntry.zlentry] at this ⊢
      rw [this]
      rfl
    · simp [ZipValue.bytes, ZipEntry.value, hstr]
  · obtain ⟨_, hlen, hint, _⟩ := ZipEntry.length_of_int (by simpa using hstr)
    have hread : ∃ v, zipLoadInteger e.body e.length.lensize e.length.encoding = some v ∧
        zipLoadInteger (a ++ (e.bytes prev ++ c)) (p + (e.zlentry prev).headersize)
          e.length.encoding = some v := by
      simp only [zipLoadInteger]
      by_cases himm : zipIsImm e.length.encoding = true
      · simp [himm]
      · have hpos : 0 < zipIntSize e.length.encoding := by
          simpa [zipIsInt, himm] using hint
        have hin : load e.body e.length.lensize (zipIntSize e.length.encoding) =
            some (e.body.drop e.length.lensize) := by
          rw [load, if_pos (by omega), take_of_length_le (by rw [length_drop]; omega)]
        simp [himm, hpos, hin, hload _ hin]
    obtain ⟨v, hval, hv⟩ := hread
    refine ⟨.int v, ?_, ?_⟩
    · rw [if_neg (by exact hstr)]
      simp only [ZipEntry.zlentry] at hv ⊢
      rw [hv]
      rfl
    · simp [ZipValue.bytes, ZipEntry.value, hstr, hval]

/-! ## The bytes determine the value -/

theorem zipIntSize_of_imm (h : zipIsImm encoding = true) : zipIntSize encoding = 0 := by
  have hne (x : UInt8) (hx : zipIsImm x = false) : encoding ≠ x := fun heq => by
    rw [heq, hx] at h
    cases h
  simp [zipIntSize, hne zipInt8b (by decide), hne zipInt16b (by decide), hne zipInt24b (by decide),
    hne zipInt32b (by decide), hne zipInt64b (by decide)]

theorem zipIntSize_le (encoding : UInt8) : zipIntSize encoding ≤ 8 := by
  rw [zipIntSize]
  split_ifs <;> omega

/-- The integer of `k` bytes determines them. -/
theorem bmod_leNat_injective {xs ys : Bytes} (hx : xs.length = k) (hy : ys.length = k)
    (h : Int.bmod (leNat xs) (256 ^ k) = Int.bmod (leNat ys) (256 ^ k)) : xs = ys := by
  have hmod := congrArg (fun v => v % ((256 ^ k : Nat) : Int)) h
  simp only [Int.bmod_emod] at hmod
  have hx' := leNat_lt xs
  have hy' := leNat_lt ys
  rw [hx] at hx'
  rw [hy] at hy'
  rw [Int.emod_eq_of_lt (by omega) (by exact_mod_cast hx'),
    Int.emod_eq_of_lt (by omega) (by exact_mod_cast hy')] at hmod
  exact leNat_injective (by rw [hx, hy]) (by exact_mod_cast hmod)

/-- The text of a value of at most eight bytes determines it. -/
theorem ll2string_bmod_injective {m n : Int} (hk : k ≤ 8)
    (h : ll2string (Int.bmod m (256 ^ k)) = ll2string (Int.bmod n (256 ^ k))) :
    Int.bmod m (256 ^ k) = Int.bmod n (256 ^ k) := by
  have hpos : 0 < 256 ^ k := Nat.pow_pos (by decide)
  have hle : 256 ^ k ≤ 256 ^ 8 := Nat.pow_le_pow_right (by decide) hk
  have hrange (v : Int) : -2 ^ 63 ≤ Int.bmod v (256 ^ k) ∧ Int.bmod v (256 ^ k) < 2 ^ 63 := by
    have h₁ := Int.le_bmod (x := v) hpos
    have h₂ := Int.bmod_lt (x := v) hpos
    omega
  exact ll2string_injective (hrange m) (hrange n) h

/-- Two entries of integers whose bodies start alike: the same value, the same
bytes. -/
theorem ZipEntry.body_eq_of_int {d : Bytes} (hb : ¬b < zipStrMask) (hbody : e.body = b :: c)
    (hbody' : e'.body = b :: d) (hvalue : e.value = e'.value) : c = d := by
  have hvalueOf (e : ZipEntry) (c : Bytes) (hbody : e.body = b :: c) :
      c.length = zipIntSize b ∧ e.value = ((zipLoadInteger (b :: c) 1 b).map ll2string).getD [] := by
    have hdec := e.decode
    have hsize := e.size
    rw [hbody, zipDecodeLength_int hb, Option.some.injEq] at hdec
    rw [← hdec, hbody, length_cons] at hsize
    simp only at hsize
    refine ⟨by omega, ?_⟩
    rw [value, ← hdec, hbody, (zipEntryEncoding_int hb).2, if_neg (by simp)]
  obtain ⟨hlen, hval⟩ := hvalueOf e c hbody
  obtain ⟨hlen', hval'⟩ := hvalueOf e' d hbody'
  rw [hval, hval'] at hvalue
  by_cases himm : zipIsImm b = true
  · rw [zipIntSize_of_imm himm] at hlen hlen'
    rw [length_eq_zero_iff.mp hlen, length_eq_zero_iff.mp hlen']
  · by_cases hpos : 0 < zipIntSize b
    · have hload (c : Bytes) (hlen : c.length = zipIntSize b) :
          load (b :: c) 1 (zipIntSize b) = some c := by
        have := load_append (a := [b]) (b := c) (p := 1) (n := zipIntSize b) [] rfl hlen.symm
        simpa using this
      simp only [zipLoadInteger, himm, if_pos hpos, hload c hlen, hload d hlen', some_bind, Option.pure_def, map_some, getD_some, Bool.false_eq_true,
        if_false] at hvalue
      exact bmod_leNat_injective hlen hlen'
        (ll2string_bmod_injective (zipIntSize_le b) hvalue)
    · rw [length_eq_zero_iff.mp (by omega : c.length = 0),
        length_eq_zero_iff.mp (by omega : d.length = 0)]

/-- Two entries of strings that differ at most in the last byte, not the
first: the same value, the same bytes. -/
theorem ZipEntry.last_eq_of_str (hb : b < zipStrMask) (hbody : e.body = b :: (c ++ [x]))
    (hbody' : e'.body = b :: (c ++ [y])) (hvalue : e.value = e'.value) : x = y := by
  have hdec := e.decode
  have hdec' := e'.decode
  have hsize := e.size
  have hsize' := e'.size
  rw [hbody] at hdec hsize
  rw [hbody'] at hdec' hsize'
  simp only [length_cons, length_append, length_nil] at hsize hsize'
  obtain ⟨henc, hstr, hcases⟩ := zipDecodeLength_lt hb hdec
  obtain ⟨henc', hstr', hcases'⟩ := zipDecodeLength_lt hb hdec'
  rw [value, value, if_pos hstr, if_pos hstr', hbody, hbody'] at hvalue
  rw [henc] at hcases
  rw [henc'] at hcases'
  -- A last byte behind the length field is a byte of the value.
  have hpayload (hk : e.length.lensize = e'.length.lensize) (hle : e.length.lensize ≤ c.length + 1) :
      x = y := by
    have hdrop (x : UInt8) : (b :: (c ++ [x])).drop e.length.lensize =
        (b :: c).drop e.length.lensize ++ [x] := by
      rw [← cons_append, drop_append_of_le_length (by simpa using hle)]
    rw [← hk, hdrop, hdrop] at hvalue
    simpa using hvalue
  obtain ⟨h06, hk, _⟩ | ⟨h14, hk, b₁, hb₁, hn⟩ | ⟨h32, hk, xs, hxs, hn⟩ := hcases
  · obtain ⟨_, hk', _⟩ | ⟨h14', _⟩ | ⟨h32', _⟩ := hcases'
    · exact hpayload (by rw [hk, hk']) (by omega)
    · rw [h06] at h14'
      cases h14'
    · rw [h06] at h32'
      cases h32'
  · obtain ⟨h06', _⟩ | ⟨_, hk', b₁', hb₁', hn'⟩ | ⟨h32', _⟩ := hcases'
    · rw [h14] at h06'
      cases h06'
    · cases c with
      | nil =>
        simp only [nil_append, getElem?_cons_zero, Option.some.injEq,
          length_nil] at hb₁ hb₁' hsize hsize'
        subst hb₁ hb₁'
        exact UInt8.toNat_inj.mp (by omega)
      | cons _ c => exact hpayload (by rw [hk, hk']) (by simp; omega)
    · rw [h14] at h32'
      cases h32'
  · obtain ⟨h06', _⟩ | ⟨h14', _⟩ | ⟨_, hk', xs', hxs', hn'⟩ := hcases'
    · rw [h32] at h06'
      cases h06'
    · rw [h32] at h14'
      cases h14'
    · by_cases hle : e.length.lensize ≤ c.length + 1
      · exact hpayload (by rw [hk, hk']) hle
      · have hlen : c.length = 3 := by omega
        have hload (x : UInt8) : load (b :: (c ++ [x])) 1 4 = some (c ++ [x]) := by
          have := load_append (a := [b]) (b := c ++ [x]) (p := 1) (n := 4) [] rfl
            (by simp [hlen])
          simpa using this
        rw [hload, Option.some.injEq] at hxs hxs'
        have hnat : leNat (c ++ [x]).reverse = leNat (c ++ [y]).reverse := by
          rw [hxs, hxs']
          omega
        simpa using leNat_injective (by simp) hnat

/-- With a last byte of `255` the length read from a body does not shrink. -/
theorem ZipEntry.le_decode_of_last {t : Bytes} (hbody : e.body = c ++ [x])
    (h : zipDecodeLength (c ++ zipEnd :: t) 0 = some l) : c.length + 1 ≤ l.lensize + l.len := by
  have hsize := e.size
  rw [hbody, length_append, length_singleton] at hsize
  cases c with
  | nil =>
    rw [nil_append, zipDecodeLength_int (by decide), Option.some.injEq] at h
    rw [← h]
    simp
  | cons b c =>
    have hdec := e.decode
    rw [hbody, cons_append] at hdec
    rw [cons_append] at h
    by_cases hb : b < zipStrMask
    · obtain ⟨henc, _, hcases⟩ := zipDecodeLength_lt hb hdec
      obtain ⟨henc', _, hcases'⟩ := zipDecodeLength_lt hb h
      rw [henc] at hcases
      rw [henc'] at hcases'
      obtain ⟨h06, hk, hn⟩ | ⟨h14, hk, b₁, hb₁, hn⟩ | ⟨h32, hk, xs, hxs, hn⟩ := hcases
      · obtain ⟨_, hk', hn'⟩ | ⟨h14', _⟩ | ⟨h32', _⟩ := hcases'
        · omega
        · rw [h06] at h14'
          cases h14'
        · rw [h06] at h32'
          cases h32'
      · obtain ⟨h06', _⟩ | ⟨_, hk', b₁', hb₁', hn'⟩ | ⟨h32', _⟩ := hcases'
        · rw [h14] at h06'
          cases h06'
        · have hle : b₁.toNat ≤ b₁'.toNat := by
            cases c with
            | nil =>
              simp only [nil_append, getElem?_cons_zero, Option.some.injEq] at hb₁'
              have := b₁.toNat_lt
              rw [← hb₁']
              simp only [zipEnd, UInt8.reduceToNat]
              omega
            | cons d c =>
              simp only [cons_append, getElem?_cons_zero, Option.some.injEq] at hb₁ hb₁'
              rw [← hb₁, ← hb₁']
          omega
        · rw [h14] at h32'
          cases h32'
      · obtain ⟨h06', _⟩ | ⟨h14', _⟩ | ⟨_, hk', xs', hxs', hn'⟩ := hcases'
        · rw [h32] at h06'
          cases h06'
        · rw [h32] at h14'
          cases h14'
        · have hread {u v : Bytes} (hv : load (b :: u) 1 4 = some v) : v = u.take 4 := by
            rw [load] at hv
            split at hv <;> simp_all
          rw [hread hxs] at hn
          rw [hread hxs'] at hn'
          rw [length_cons] at hsize ⊢
          have hle : leNat ((c ++ [x]).take 4).reverse ≤
              leNat ((c ++ zipEnd :: t).take 4).reverse := by
            by_cases hlong : 4 ≤ c.length
            · rw [take_append_of_le_length hlong, take_append_of_le_length hlong]
            · have hlen : c.length = 3 := by omega
              have hx := x.toNat_lt
              rw [take_append, take_append, hlen]
              simp [leNat, zipEnd]
              omega
          omega
    · rw [zipDecodeLength_int hb, Option.some.injEq] at h hdec
      rw [← hdec] at hsize
      rw [← h]
      exact hsize.ge

/-- Two entries that differ at most in the last byte of their bodies, not the
first: the same value, the same byte. -/
theorem ZipEntry.last_eq_of_value (hbody : e.body = c ++ [x]) (hbody' : e'.body = c ++ [y])
    (hc : c ≠ []) (hvalue : e.value = e'.value) : x = y := by
  cases c with
  | nil => exact absurd rfl hc
  | cons b c =>
    by_cases hb : b < zipStrMask
    · exact last_eq_of_str hb hbody hbody' hvalue
    · have := body_eq_of_int hb hbody hbody' hvalue
      simpa using this

end Redis
