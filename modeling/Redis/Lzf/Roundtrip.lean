import Redis.Lzf

/-!
# Redis.Lzf.Roundtrip

Whatever the hash table holds, `lzf_compress` stays inside its buffers, and what it returns is
turned into the input again.  `lzf_decompress` stays inside its buffers on any input.

The output in front of the open run is a list of units, each for a part of the input (`Emits`);
the induction over them follows the decompressor.
-/

namespace Redis.Lzf

open List Nat UInt8

variable {data d inp op : Bytes} {ref ip lit n k len off : Nat} {b : UInt8}

theorem write_eq {bs : Bytes} (h : op.length + bs.length ≤ n) : write n op bs = some (op ++ bs) :=
  if_pos h

theorem length_slice (h : n + k ≤ data.length) : ((data.drop n).take k).length = k := by
  rw [length_take, length_drop]
  omega

/-! ## What a match is -/

/-- The bytes at two positions agree up to a length. -/
def Agree (data : Bytes) (ref ip len : Nat) : Prop :=
  ∀ i < len, data[ref + i]? = data[ip + i]?

theorem Agree.succ (h : Agree data ref ip len) (hlen : data[ref + len]? = data[ip + len]?) :
    Agree data ref ip (len + 1) := by
  intro i hi
  obtain hi | rfl := Nat.lt_succ_iff_lt_or_eq.mp hi
  · exact h i hi
  · exact hlen

theorem same_eq (hlt : ref < ip) (hip : ip + len < data.length) :
    same data ref ip len = some (decide (data[ref + len]? = data[ip + len]?)) := by
  rw [same, getElem?_eq_getElem (by omega : ref + len < data.length),
    getElem?_eq_getElem hip]
  simp [some_bind, Bool.beq_eq_decide_eq]

/-- The test fails, or there is a match of three bytes in front of `ip`. -/
theorem isMatch_cases (data : Bytes) (ip : Nat) (slot : Int) :
    isMatch data ip slot = some false ∨ isMatch data ip slot = some true ∧
      ∃ ref off, slot = (ref : Nat) ∧ ip = ref + off + 1 ∧ off < 2 ^ 13 ∧ ip + 4 < data.length ∧
        Agree data ref ip 3 := by
  rw [isMatch]
  split
  next hcond =>
    have hlt : slot.toNat < ip := by omega
    rw [same_eq hlt (by omega), same_eq hlt (by omega), same_eq hlt (by omega)]
    simp only [some_bind, Option.pure_def, Option.some.injEq]
    cases hand : _ && _
    · exact .inl rfl
    · simp only [Bool.and_eq_true, decide_eq_true_eq] at hand
      refine .inr ⟨rfl, slot.toNat, ip - slot.toNat - 1, by omega, by omega, by omega, by omega, ?_⟩
      exact ((Agree.succ (fun i hi => absurd hi (Nat.not_lt_zero i)) hand.1.1).succ hand.1.2).succ
        hand.2
  next => exact .inl rfl

theorem unrolled_spec (n : Nat) (hlt : ref < ip) (hip : ip + len + n < data.length)
    (h : Agree data ref ip (len + 1)) :
    ∃ len' left, unrolled data ref ip n len = some (len', left) ∧ len' ≤ len + n ∧
      if left then len < len' ∧ Agree data ref ip len'
      else len' = len + n ∧ Agree data ref ip (len' + 1) := by
  induction n generalizing len with
  | zero => exact ⟨len, false, rfl, le_rfl, rfl, h⟩
  | succ n ih =>
    rw [unrolled, same_eq hlt (by omega), some_bind]
    by_cases hsame : data[ref + (len + 1)]? = data[ip + (len + 1)]?
    · obtain ⟨len', left, heq, hle, hleft⟩ := ih (by omega) (h.succ hsame)
      refine ⟨len', left, by rw [decide_eq_true hsame, if_pos rfl, heq], by omega, ?_⟩
      cases left with
      | true => exact ⟨lt_of_succ_lt hleft.1, hleft.2⟩
      | false => exact ⟨by have := hleft.1; omega, hleft.2⟩
    · exact ⟨len + 1, true, by simp [hsame], by omega, lt_succ_self len, h⟩

theorem scan_spec (maxlen fuel : Nat) (hlt : ref < ip) (hip : ip + maxlen ≤ data.length)
    (hfuel : maxlen ≤ len + fuel) (hpos : 0 < fuel) (h : Agree data ref ip (len + 1)) :
    ∃ len', scan data ref ip maxlen fuel len = some len' ∧ len < len' ∧
      len' ≤ max (len + 1) maxlen ∧ Agree data ref ip len' := by
  induction fuel generalizing len with
  | zero => omega
  | succ fuel ih =>
    rw [scan]
    by_cases hmax : len + 1 < maxlen
    · rw [if_pos hmax, same_eq hlt (by omega), some_bind]
      by_cases hsame : data[ref + (len + 1)]? = data[ip + (len + 1)]?
      · obtain ⟨len', heq, hlt', hle, hagree⟩ := ih (by omega) (by omega) (h.succ hsame)
        exact ⟨len', by rw [decide_eq_true hsame, if_pos rfl, heq], by omega, by omega, hagree⟩
      · exact ⟨len + 1, by simp [hsame], by omega, by omega, h⟩
    · exact ⟨len + 1, if_neg hmax, by omega, by omega, h⟩

theorem matchLen_spec (hlt : ref < ip) (hip : ip + 4 < data.length) (h : Agree data ref ip 3) :
    ∃ len, matchLen data ref ip = some len ∧ 2 < len ∧ len ≤ 264 ∧ ip + len ≤ data.length ∧
      Agree data ref ip len := by
  obtain ⟨maxlen, hmax⟩ : ∃ m, min (data.length - ip - 2) (2 ^ 8 + 2 ^ 3) = m := ⟨_, rfl⟩
  rw [matchLen, hmax]
  by_cases h16 : 16 < maxlen
  · obtain ⟨len, left, heq, hle, hleft⟩ := unrolled_spec 16 hlt (by omega) h
    rw [if_pos h16, heq]
    cases left with
    | true => exact ⟨len, rfl, hleft.1, by omega, by omega, hleft.2⟩
    | false =>
      obtain ⟨rfl, hagree⟩ := hleft
      obtain ⟨len', heq', hlt', hle', hagree'⟩ :=
        scan_spec maxlen maxlen hlt (by omega) (by omega) (by omega) hagree
      exact ⟨len', heq', by omega, by omega, by omega, hagree'⟩
  · obtain ⟨len', heq', hlt', hle', hagree'⟩ :=
      scan_spec maxlen maxlen hlt (by omega) (by omega) (by omega) h
    rw [if_neg h16]
    exact ⟨len', heq', hlt', by omega, by omega, hagree'⟩

/-! ## Copying and back references -/

theorem copyRef_take (hn : n + k ≤ data.length) (hlt : ref < n) (h : Agree data ref n k) :
    copyRef data.length k ref (data.take n) = some (data.take (n + k)) := by
  induction k generalizing n ref with
  | zero => rfl
  | succ k ih =>
    have hb : (data.take n)[ref]? = some data[n] := by
      rw [getElem?_take_of_lt hlt, ← getElem?_eq_getElem]
      exact h 0 (succ_pos k)
    have hagree : Agree data (ref + 1) (n + 1) k := fun i hi => by
      simpa only [Nat.add_assoc, Nat.add_comm 1] using h (i + 1) (by omega)
    rw [copyRef, hb, some_bind, write_eq (by simp; omega), some_bind,
      take_append_getElem, ih (by omega) (by omega) hagree, Nat.add_assoc, Nat.add_comm 1]

theorem ctrl_bits : ∀ high < 32, ∀ len < 8, (ofNat (high + (len <<< 5)) >>> 5).toNat = len ∧
    (ofNat (high + (len <<< 5)) &&& 0x1f).toNat = high ∧
    (0 < len → ¬ ofNat (high + (len <<< 5)) < 32) := by
  decide

theorem backRef_bytes (hoff : off < 2 ^ 13) (hpos : 0 < len) (hlen : len ≤ 262) :
    ∃ ctrl t, backRefBytes off len = ctrl :: t ∧ ¬ ctrl < 32 ∧
      ∀ inp, backRef ctrl (t ++ inp) = some (len, off, inp) := by
  have hhigh : off >>> 8 < 32 := by
    rw [shiftRight_eq_div_pow]
    omega
  have hback : (off >>> 8) <<< 8 + (ofNat off).toNat = off := by
    simp [shiftRight_eq_div_pow, shiftLeft_eq]
    omega
  rw [backRefBytes]
  split
  next hsmall =>
    obtain ⟨hl, hh, hge⟩ := ctrl_bits _ hhigh len (by omega)
    refine ⟨_, _, rfl, hge hpos, fun inp => ?_⟩
    rw [singleton_append, backRef.eq_def]
    simp only [hl, hh, hback]
    rw [if_neg (by omega)]
  next hlarge =>
    obtain ⟨hl, hh, hge⟩ := ctrl_bits _ hhigh 7 (by omega)
    refine ⟨_, _, rfl, hge (by decide), fun inp => ?_⟩
    have hext : 7 + (ofNat (len - 7)).toNat = len := by
      simp
      omega
    rw [cons_append, singleton_append, backRef.eq_def]
    simp only [hl, hh, hback, hext, if_true]

/-! ## Units -/

/-- The bytes `d` are units that stand for the first bytes of the input. -/
inductive Emits (data : Bytes) : Bytes → Nat → Prop
  | nil : Emits data [] 0
  | lit {d : Bytes} {n k : Nat} (h : Emits data d n) (hk : k < 32)
      (hn : n + (k + 1) ≤ data.length) :
      Emits data (d ++ ofNat k :: (data.drop n).take (k + 1)) (n + (k + 1))
  | ref {d : Bytes} {n ref off len : Nat} (h : Emits data d n) (hn : n = ref + off + 1)
      (hoff : off < 2 ^ 13) (hpos : 0 < len) (hlen : len ≤ 262)
      (hend : n + (len + 2) ≤ data.length) (hsame : Agree data ref n (len + 2)) :
      Emits data (d ++ backRefBytes off len) (n + (len + 2))

theorem Emits.le (h : Emits data d n) : n ≤ data.length := by
  cases h with
  | nil => exact Nat.zero_le _
  | lit _ _ hn => exact hn
  | ref _ _ _ _ _ hend => exact hend

/-- What the loop of `lzf_decompress` does behind a unit. -/
def more (outLen fuel : Nat) (inp op : Bytes) : Option Bytes :=
  if inp = [] then some op else decompressLoop outLen fuel inp op

variable {fuel outLen : Nat}

theorem decompressLoop_lit (hk : k < 32) (hn : n + (k + 1) ≤ data.length) :
    decompressLoop data.length (fuel + 1)
        (ofNat k :: ((data.drop n).take (k + 1) ++ inp)) (data.take n) =
      more data.length fuel inp (data.take (n + (k + 1))) := by
  have hctrl : ofNat k < 32 := by
    rw [lt_iff_toNat_lt]
    simp
    omega
  have hto : (ofNat k).toNat + 1 = k + 1 := by
    simp
    omega
  have hls := length_slice hn
  have hop : (data.take n).length = n := length_take_of_le (by omega)
  rw [decompressLoop, if_pos hctrl]
  simp only [hto]
  rw [if_neg (by simp [hop]; omega), take_left' hls, drop_left' hls,
    write_eq (by omega), some_bind, ← take_add, more]

theorem decompressLoop_ref (hn : n = ref + off + 1) (hoff : off < 2 ^ 13) (hpos : 0 < len)
    (hlen : len ≤ 262) (hend : n + (len + 2) ≤ data.length) (hsame : Agree data ref n (len + 2)) :
    decompressLoop data.length (fuel + 1) (backRefBytes off len ++ inp) (data.take n) =
      more data.length fuel inp (data.take (n + (len + 2))) := by
  obtain ⟨ctrl, t, hbytes, hctrl, hback⟩ := backRef_bytes hoff hpos hlen
  have hop : (data.take n).length = n := length_take_of_le (by omega)
  rw [hbytes, cons_append, decompressLoop, if_neg hctrl, hback]
  simp only [hop]
  rw [if_neg (by omega), show n - (off + 1) = ref by omega, copyRef_take hend (by omega) hsame,
    some_bind, more]

/-- Units are turned into what they stand for, in at most as many rounds as they have bytes. -/
theorem Emits.decompress (h : Emits data d n) : ∃ k ≤ d.length, ∀ fuel inp,
    more data.length (fuel + k) (d ++ inp) [] = more data.length fuel inp (data.take n) := by
  induction h with
  | nil => exact ⟨0, le_rfl, fun _ _ => rfl⟩
  | @lit d n k h hk hn ih =>
    obtain ⟨m, hm, ih⟩ := ih
    refine ⟨m + 1, by simp; omega, fun fuel inp => ?_⟩
    rw [append_assoc, Nat.add_comm m, ← Nat.add_assoc, ih, more, if_neg (by simp),
      cons_append, decompressLoop_lit hk hn]
  | @ref d n ref off len h hn hoff hpos hlen hend hsame ih =>
    obtain ⟨m, hm, ih⟩ := ih
    obtain ⟨ctrl, t, hbytes, -, -⟩ := backRef_bytes hoff hpos hlen
    refine ⟨m + 1, by simp [hbytes]; omega, fun fuel inp => ?_⟩
    rw [append_assoc, Nat.add_comm m, ← Nat.add_assoc, ih, more, if_neg (by simp [hbytes]),
      decompressLoop_ref hn hoff hpos hlen hend hsame]

/-! ## The open run -/

/-- The bytes in front of `op` where a run of `lit` literals is open: units, a byte reserved for
the length, and the literals. -/
structure Open (data op : Bytes) (lit ip : Nat) : Prop where
  lit_lt : lit < 32
  le : ip ≤ data.length
  run : ∃ d x n, Emits data d n ∧ ip = n + lit ∧ op = d ++ x :: (data.drop n).take lit

theorem Emits.open (h : Emits data d ip) : Open data (d ++ [0]) 0 ip :=
  ⟨by decide, h.le, d, 0, ip, h, rfl, by simp⟩

theorem stopRun_eq {x : UInt8} {ls : Bytes} (hls : ls.length = lit)
    (h : (d ++ x :: ls).length ≤ outLen + 1) :
    stopRun outLen (d ++ x :: ls) lit = some (d ++ (ofNat lit - 1) :: ls) := by
  have hidx : (d ++ x :: ls).length - lit - 1 = d.length := by
    simp
    omega
  rw [stopRun, hidx, if_pos (by simp at h; omega), set_append_right _ _ le_rfl, Nat.sub_self,
    set_cons_zero]

theorem ofNat_succ_sub_one (k : Nat) : ofNat (k + 1) - 1 = ofNat k := by
  simp [ofNat_add]

theorem Open.endRun (outLen : Nat) (h : Open data op lit ip) (hop : op.length ≤ outLen + 1) :
    ∃ d, endRun outLen op lit = some d ∧ d.length ≤ op.length ∧ Emits data d ip := by
  obtain ⟨d, x, n, hd, rfl, rfl⟩ := h.run
  have hle := h.le
  have hls : ((data.drop n).take lit).length = lit := length_slice hle
  rw [Lzf.endRun, stopRun_eq hls hop]
  cases lit with
  | zero => exact ⟨d, by simp, by simp, hd⟩
  | succ k =>
    exact ⟨_, rfl, by simp, by simpa [ofNat_succ_sub_one] using hd.lit (lt_of_succ_lt h.lit_lt) hle⟩

theorem Open.literal (outLen : Nat) (h : Open data op lit ip) (hb : data[ip]? = some b)
    (hop : op.length ≤ outLen) :
    ∃ op' lit', literal outLen op lit b = some (op', lit') ∧ Open data op' lit' (ip + 1) ∧
      (op'.length = op.length + 1 ∧ lit' = lit + 1 ∨
        op'.length = op.length + 2 ∧ lit = 31 ∧ lit' = 0) := by
  obtain ⟨d, x, n, hd, rfl, rfl⟩ := h.run
  obtain ⟨hlt, hget⟩ := List.getElem?_eq_some_iff.mp hb
  have htake : (data.drop n).take lit ++ [b] = (data.drop n).take (lit + 1) := by
    have hin : lit < (data.drop n).length := by
      rw [length_drop]
      omega
    rw [← take_append_getElem hin, getElem_drop, hget]
  have hls : ((data.drop n).take (lit + 1)).length = lit + 1 := length_slice (by omega)
  have hlen := congrArg length htake
  rw [Lzf.literal, write_eq (by simpa using hop), some_bind, append_assoc, cons_append,
    htake]
  simp only [length_append, length_cons, length_nil] at hlen hop
  by_cases h32 : lit + 1 = 32
  · have hemit := hd.lit (k := lit) h.lit_lt (by omega)
    rw [if_pos h32, stopRun_eq hls (by simp only [length_append, length_cons]; omega),
      some_bind, ofNat_succ_sub_one]
    refine ⟨_, _, rfl, by rw [Nat.add_assoc]; exact hemit.open, .inr ⟨?_, by omega, rfl⟩⟩
    simp only [length_append, length_cons, length_nil]
    omega
  · rw [if_neg h32]
    have := h.lit_lt
    refine ⟨_, _, rfl, ⟨by omega, hlt, d, x, n, hd, Nat.add_assoc n lit 1, rfl⟩, .inl ⟨?_, rfl⟩⟩
    simp only [length_append, length_cons]
    omega

/-- The literals behind the loop; there is room for the byte of one more run. -/
theorem Open.literals (outLen : Nat) (h : Open data op lit ip) (hend : ip + k = data.length)
    (hop : op.length + k + (if 32 ≤ lit + k then 1 else 0) ≤ outLen) (hk : k < 32) :
    ∃ op' lit', (data.drop ip).foldlM (fun st b => Lzf.literal outLen st.1 st.2 b) (op, lit) =
      some (op', lit') ∧ Open data op' lit' data.length ∧ op'.length ≤ outLen := by
  induction k generalizing op lit ip with
  | zero =>
    obtain rfl : ip = data.length := hend
    exact ⟨op, lit, by simp, h, by omega⟩
  | succ k ih =>
    have hlt : ip < data.length := by omega
    obtain ⟨op', lit', heq, hopen, hcases⟩ :=
      h.literal outLen (getElem?_eq_getElem hlt) (by omega)
    rw [drop_eq_getElem_cons hlt, foldlM_cons, heq, some_bind]
    exact ih hopen (by omega) (by split at hop <;> split <;> omega) (by omega)

/-- What the compressor returns: nothing, or units for the whole of the input. -/
def Compressed (data : Bytes) (outLen : Nat) (res : Option Bytes) : Prop :=
  ∃ c, res = some c ∧ c.length ≤ outLen ∧ (c = [] ∨ Emits data c data.length)

theorem Compressed.nil : Compressed data outLen (some []) := ⟨[], rfl, Nat.zero_le _, .inl rfl⟩

theorem Open.finish (h : Open data op lit ip) (hend : data.length ≤ ip + 2) :
    Compressed data outLen (finish data outLen ip op lit) := by
  have hle := h.le
  rw [Lzf.finish]
  split
  next => exact .nil
  next hroom =>
    obtain ⟨op', lit', heq, hopen, hop'⟩ := h.literals outLen
      (by omega : ip + (data.length - ip) = data.length) (by split <;> omega) (by omega)
    obtain ⟨c, hc, hlen, hemits⟩ := hopen.endRun outLen (by omega)
    rw [heq, some_bind]
    exact ⟨c, hc, by omega, .inr hemits⟩

/-! ## The loop -/

theorem next_eq (hval : UInt32) (h : ip + 2 < data.length) : ∃ v, next data hval ip = some v :=
  ⟨_, by rw [next, getElem?_eq_getElem h]; rfl⟩

theorem frst_eq (h : ip + 1 < data.length) : ∃ v, frst data ip = some v :=
  ⟨_, by rw [frst, getElem?_eq_getElem (by omega : ip < data.length),
    getElem?_eq_getElem h]; rfl⟩

theorem rehash_eq (data : Bytes) (hval : UInt32) (htab : Htab) (hip : 2 ≤ ip) :
    ∃ r, rehash data ip hval htab = some r := by
  rw [rehash]
  split
  next h =>
    obtain ⟨v, hv⟩ := frst_eq (by omega : ip - 2 + 1 < data.length)
    obtain ⟨v', hv'⟩ := next_eq v (by omega : ip - 2 + 2 < data.length)
    obtain ⟨v'', hv''⟩ := next_eq v' (by omega : ip - 1 + 2 < data.length)
    rw [hv, some_bind, hv', some_bind, hv'', some_bind]
    exact ⟨_, rfl⟩
  next => exact ⟨_, rfl⟩

/-- A match: the open run is stopped, and a unit stands for the bytes that agree. -/
theorem Emits.match (outLen : Nat) (h : Emits data d ip) (hd : d.length + 4 < outLen)
    (href : ip = ref + off + 1) (hoff : off < 2 ^ 13) (hip : ip + 4 < data.length) (hagree : Agree data ref ip 3) :
    ∃ len op, matchLen data ref ip = some len ∧ 2 < len ∧
      write (outLen + 1) d (backRefBytes (ip - ref - 1) (len - 2)) = some op ∧
      op.length ≤ outLen ∧ Emits data op (ip + len) := by
  obtain ⟨len, hlen, hlo, hhi, hend, hsame⟩ := matchLen_spec (by omega) hip hagree
  obtain ⟨l, rfl⟩ : ∃ l, len = l + 2 := ⟨len - 2, by omega⟩
  have hbytes : (backRefBytes off l).length ≤ 3 := by
    rw [backRefBytes]
    split <;> simp
  have hunit := h.ref href hoff (by omega) (by omega) hend hsame
  refine ⟨l + 2, d ++ backRefBytes off l, hlen, hlo, ?_, by simp; omega, hunit⟩
  rw [show ip - ref - 1 = off by omega, Nat.add_sub_cancel, write_eq (by omega)]

theorem Open.compressLoop (outLen fuel : Nat) {st : State} (h : Open data st.op st.lit st.ip)
    (hop : st.op.length ≤ outLen + 1) (hfuel : data.length < st.ip + fuel) :
    Compressed data outLen (compressLoop data outLen fuel st) := by
  induction fuel generalizing st with
  | zero =>
    have := h.le
    omega
  | succ fuel ih =>
    rw [Lzf.compressLoop]
    by_cases hmore : st.ip + 2 < data.length
    · obtain ⟨hval, hnext⟩ := next_eq st.hval hmore
      rw [if_pos hmore, hnext, some_bind]
      dsimp only
      obtain hmiss | ⟨hhit, ref, off, hslot, hip, hoff, hend, hagree⟩ :=
        isMatch_cases data st.ip (st.htab (idx hval))
      · rw [hmiss, some_bind, if_neg Bool.false_ne_true]
        split
        next => exact .nil
        next hroom =>
          have hb := getElem?_eq_getElem (by omega : st.ip < data.length)
          obtain ⟨op', lit', heq, hopen, hcases⟩ := h.literal outLen hb (by omega)
          rw [hb, some_bind, heq, some_bind]
          exact ih hopen (by simp only; omega) (by simp only; omega)
      · obtain ⟨d, hd, hdlen, hemits⟩ := h.endRun outLen hop
        rw [hhit, some_bind, if_pos rfl, hd, some_bind, hslot, Int.toNat_natCast]
        split
        next => exact .nil
        next hroom =>
          obtain ⟨len, op, hlen, hlo, hwrite, hoplen, hemits⟩ :=
            hemits.match outLen (by omega) hip hoff hend hagree
          obtain ⟨r, hr⟩ := rehash_eq data hval (Function.update st.htab (idx hval) st.ip)
            (by omega : 2 ≤ st.ip + len)
          rw [hlen, some_bind, hwrite, some_bind, hr, some_bind]
          exact ih hemits.open (by simpa using hoplen) (by simp only; omega)
    · rw [if_neg hmore]
      exact h.finish (by omega)

theorem lzfCompress_emits (outLen : Nat) (htab : Htab) (h : 2 ≤ data.length) :
    Compressed data outLen (lzfCompress data outLen htab) := by
  rw [lzfCompress]
  split
  next => exact .nil
  next hne =>
    obtain ⟨hval, hfrst⟩ := frst_eq (by omega : 0 + 1 < data.length)
    rw [hfrst, some_bind]
    exact Open.compressLoop outLen (data.length + 1)
      (show Open data (State.mk 0 [0] 0 hval htab).op _ _ from Emits.nil.open) (by simp)
      (by simp only; omega)

theorem Emits.lzfDecompress (h : Emits data d data.length) (hne : d ≠ []) :
    lzfDecompress d data.length = some data := by
  obtain ⟨k, hk, hdec⟩ := h.decompress
  have hall := hdec (d.length - k) []
  rwa [Nat.sub_add_cancel hk, append_nil, more, if_neg hne, more, if_pos rfl, take_length] at hall

/-- Whatever the hash table holds, an input of at least two bytes is compressed within the two
buffers, and what it is compressed to, if that fits, is decompressed to it. -/
theorem lzfCompress_roundtrip (data : Bytes) (outLen : Nat) (htab : Htab)
    (h : 2 ≤ data.length) :
    ∃ c, lzfCompress data outLen htab = some c ∧ c.length ≤ outLen ∧
      (c = [] ∨ lzfDecompress c data.length = some data) := by
  obtain ⟨c, hc, hlen, hcases⟩ := lzfCompress_emits outLen htab h
  refine ⟨c, hc, hlen, ?_⟩
  by_cases hnil : c = []
  · exact .inl hnil
  · exact .inr ((hcases.resolve_left hnil).lzfDecompress hnil)

theorem lzfCompress_roundtrip_run :
    ∃ c, lzfCompress (replicate 40 97) 36 (fun _ => 5) = some c ∧ c.length ≤ 36 ∧
      (c = [] ∨ lzfDecompress c 40 = some (replicate 40 97)) :=
  lzfCompress_roundtrip (replicate 40 97) 36 _ (by decide)

/-! ## Any input -/

theorem copyRef_isSome (hop : op.length + n ≤ outLen) (href : ref < op.length) :
    ∃ op', copyRef outLen n ref op = some op' ∧ op'.length = op.length + n := by
  induction n generalizing ref op with
  | zero => exact ⟨op, rfl, rfl⟩
  | succ n ih =>
    rw [copyRef, getElem?_eq_getElem href, some_bind, write_eq (by simp; omega), some_bind]
    obtain ⟨op', heq, hlen⟩ := ih (by simp; omega : (op ++ [op[ref]]).length + n ≤ outLen)
      (by simpa using href : ref + 1 < (op ++ [op[ref]]).length)
    exact ⟨op', heq, by simp at hlen; omega⟩

theorem backRef_lt {ctrl : UInt8} {inp' : Bytes} (h : backRef ctrl inp = some (len, off, inp')) :
    inp'.length < inp.length := by
  rw [backRef.eq_def] at h
  split at h
  next => cases h
  next =>
    dsimp only at h
    split at h
    · split at h
      · cases h
      · cases h
        simp only [length_cons]
        omega
    · cases h
      exact lt_succ_self _

theorem decompressLoop_inside (hne : inp ≠ []) (hfuel : inp.length ≤ fuel)
    (hop : op.length ≤ outLen) :
    ∃ out, decompressLoop outLen fuel inp op = some out ∧ out.length ≤ outLen := by
  induction fuel generalizing inp op with
  | zero => exact absurd (eq_nil_of_length_eq_zero (le_zero.mp hfuel)) hne
  | succ fuel ih =>
    obtain ⟨ctrl, inp, rfl⟩ := exists_cons_of_ne_nil hne
    have hmore {inp' op' : Bytes} (hlt : inp'.length ≤ inp.length) (hle : op'.length ≤ outLen) :
        ∃ out, (if inp' = [] then some op' else decompressLoop outLen fuel inp' op') = some out ∧
          out.length ≤ outLen := by
      split
      next => exact ⟨op', rfl, hle⟩
      next hne' => exact ih hne' (by simp at hfuel; omega) hle
    rw [decompressLoop]
    split
    · dsimp only
      split
      next => exact ⟨[], rfl, Nat.zero_le _⟩
      next hfit =>
        rw [not_or] at hfit
        rw [write_eq (by simp; omega), some_bind]
        exact hmore (by simp) (by simp; omega)
    · split
      next => exact ⟨[], rfl, Nat.zero_le _⟩
      next len off inp' hback =>
        split
        next => exact ⟨[], rfl, Nat.zero_le _⟩
        next hfit =>
          rw [not_or] at hfit
          obtain ⟨op', heq, hlen⟩ := copyRef_isSome (by omega : op.length + (len + 2) ≤ outLen)
            (by omega : op.length - (off + 1) < op.length)
          rw [heq, some_bind]
          exact hmore (backRef_lt hback).le (by omega)

/-- On any input of at least one byte `lzf_decompress` reads inside the input and the output so
far, and writes inside the output. -/
theorem lzfDecompress_inside (inp : Bytes) (outLen : Nat) (h : inp ≠ []) :
    ∃ out, lzfDecompress inp outLen = some out ∧ out.length ≤ outLen :=
  decompressLoop_inside h le_rfl (Nat.zero_le _)

/-- A back reference that ends behind its first byte. -/
theorem lzfDecompress_inside_cut :
    ∃ out, lzfDecompress [0, 97, 0xe0] 40 = some out ∧ out.length ≤ 40 :=
  lzfDecompress_inside _ 40 (by decide)

end Redis.Lzf
