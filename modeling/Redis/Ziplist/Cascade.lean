import Redis.Ziplist.Layout

/-!
# Redis.Ziplist.Cascade

`ziplistResize` and `__ziplistCascadeUpdate` on well-formed ziplists.  The
cascade finds one field that holds the size of another entry; it rewrites it,
and goes on as long as the rewritten field had to grow.
-/

namespace Redis

open Bytes List Option

variable {e cur : ZipEntry} {wide : Bool} {v prev u : Nat} {es : List ZipEntry} {a : Bytes}

/-! ## Widening fields -/

/-- The entries once the first of them has an entry of `prev` bytes before it:
a field that is too narrow grows, and the entry behind it sees a longer one. -/
@[grind =]
def widen : Nat → List ZipEntry → List ZipEntry
  | _, [] => []
  | prev, e :: es =>
    if zipBiglen ≤ prev ∧ e.wide = false then e.setWide true :: widen (e.setWide true).rawLen es
    else e :: es

theorem setWide_self (h : e.wide = wide) : e.setWide wide = e :=
  ZipEntry.ext h.symm rfl

theorem rawLen_setWide_true (h : e.wide = false) : (e.setWide true).rawLen = e.rawLen + 4 := by
  simp only [ZipEntry.rawLen, ZipEntry.setWide_wide, ZipEntry.setWide_body, h, fieldLen]
  simp
  omega

theorem map_value_widen (prev : Nat) (es : List ZipEntry) :
    (widen prev es).map ZipEntry.value = es.map ZipEntry.value := by
  induction es generalizing prev with
  | nil => rfl
  | cons e es ih =>
    rw [widen]
    split
    · simp [ih]
    · rfl

theorem entriesSize_le_widen (prev : Nat) (es : List ZipEntry) :
    entriesSize es ≤ entriesSize (widen prev es) := by
  induction es generalizing prev with
  | nil => simp [widen]
  | cons e es ih =>
    rw [widen]
    split
    next h =>
      have := ih (e.setWide true).rawLen
      rw [entriesSize_cons, entriesSize_cons, rawLen_setWide_true h.2]
      rw [rawLen_setWide_true h.2] at this
      omega
    next => exact le_refl _

/-- Entries whose fields fit already are left alone. -/
theorem widen_of_fieldsFit (h : FieldsFit v es) (hle : prev ≤ v) : widen prev es = es := by
  cases es with
  | nil => rfl
  | cons e es =>
    have hfit := h.1.2
    rw [widen, if_neg]
    intro hgrow
    rw [hgrow.2] at hfit
    simp at hfit
    omega

theorem fieldsFit_widen (h : FieldsFit v es) (hprev : prev < 2 ^ 32)
    (hsize : entriesSize (widen prev es) < 2 ^ 32) : FieldsFit prev (widen prev es) := by
  induction es generalizing v prev with
  | nil => trivial
  | cons e es ih =>
    rw [widen] at hsize ⊢
    split at hsize
    next hgrow =>
      rw [if_pos hgrow]
      rw [entriesSize_cons] at hsize
      exact ⟨⟨hprev, .inr rfl⟩, ih h.2 (by omega) (by omega)⟩
    next hstop =>
      rw [if_neg hstop]
      refine ⟨⟨hprev, ?_⟩, h.2⟩
      cases hw : e.wide with
      | true => exact .inr rfl
      | false =>
        rw [hw] at hstop
        simp at hstop
        exact .inl hstop

/-! ## Resizing -/

variable (fill : Nat → UInt8) (base bytes tail len : Nat)

theorem storeBytes_header (bytes' : Nat) (c : Bytes) :
    store (header bytes tail len ++ c) 0 (leBytes 4 bytes') =
      some (header bytes' tail len ++ c) := by
  rw [header, header, append_assoc, append_assoc]
  exact store_append (a := []) (b := leBytes 4 bytes) _ _ rfl (by simp)

/-- Growing: `k` bytes in front of the terminator, the first of them the old
one, the others of unknown content. -/
theorem ziplistResize_grow (k : Nat) (c : Bytes) (h : 11 + c.length + k < 2 ^ 32) :
    ∃ junk : Bytes, junk.length = k ∧ (junk ++ [zipEnd])[0]? = some zipEnd ∧
      ziplistResize fill (header bytes tail len ++ (c ++ [zipEnd])) (11 + c.length + k) =
        some (header (11 + c.length + k) tail len ++ (c ++ (junk ++ [zipEnd]))) := by
  have hlen : (header bytes tail len ++ (c ++ [zipEnd])).length = 11 + c.length := by
    simp
    omega
  have htake : (header bytes tail len ++ (c ++ [zipEnd])).take (11 + c.length + k) =
      header bytes tail len ++ (c ++ [zipEnd]) := take_of_length_le (by omega)
  have hnew : 11 + c.length + k - (header bytes tail len ++ (c ++ [zipEnd])).length = k := by omega
  rw [ziplistResize, Nat.mod_eq_of_lt h]
  simp only [htake, hnew, append_assoc, storeBytes_header, some_bind]
  rw [if_neg (by omega)]
  -- The last byte is the old terminator or a new one.
  have hlast := store_append_take (a := header (11 + c.length + k) tail len)
    (m := c ++ ([zipEnd] ++ (range k).map fill)) (p := 11 + c.length + k - 1)
    (k := c.length + k) [zipEnd] [] (by simp; omega) (by simp; omega)
  rw [append_nil] at hlast
  rw [hlast]
  refine ⟨([zipEnd] ++ (range k).map fill).take k, ?_, ?_, ?_⟩
  · simp
  · cases k <;> simp
  · rw [take_append, take_of_length_le (by omega), Nat.add_sub_cancel_left,
      append_assoc, append_nil]

/-- Shrinking: the bytes behind `c` go, and the terminator comes there. -/
theorem ziplistResize_shrink (c d : Bytes) (h : 11 + c.length < 2 ^ 32) (hd : d ≠ []) :
    ziplistResize fill (header bytes tail len ++ (c ++ d)) (11 + c.length) =
      some (header (11 + c.length) tail len ++ (c ++ [zipEnd])) := by
  cases d with
  | nil => exact absurd rfl hd
  | cons x d =>
    have htake : (header bytes tail len ++ (c ++ x :: d)).take (11 + c.length) =
        header bytes tail len ++ (c ++ [x]) := by
      have happ : header bytes tail len ++ (c ++ x :: d) =
          (header bytes tail len ++ (c ++ [x])) ++ d := by simp
      rw [happ, take_append_of_le_length (by simp; omega),
        take_of_length_le (by simp; omega)]
    have hnew : 11 + c.length - (header bytes tail len ++ (c ++ x :: d)).length = 0 := by
      simp
      omega
    rw [ziplistResize, Nat.mod_eq_of_lt h]
    simp only [htake, hnew, range_zero, map_nil, append_nil, storeBytes_header,
      some_bind]
    rw [if_neg (by omega), ← append_assoc]
    have hlast := store_append (a := header (11 + c.length) tail len ++ c) (b := [x])
      (p := 11 + c.length - 1) [zipEnd] [] (by simp) rfl
    rw [append_nil, append_nil] at hlast
    rw [hlast, append_assoc]

/-- The size is an `unsigned int`: a size just above its range leaves a block
that has no room for the header. -/
theorem ziplistResize_overflow (zl : Bytes) {len : Nat} (h₁ : 2 ^ 32 ≤ len)
    (h₂ : len < 2 ^ 32 + 4) : ziplistResize fill zl len = none := by
  have hmod : len % 2 ^ 32 = len - 2 ^ 32 := by
    rw [Nat.mod_eq_sub_mod h₁, Nat.mod_eq_of_lt (by omega)]
  have hstore : store (zl.take (len - 2 ^ 32) ++
      (range (len - 2 ^ 32 - zl.length)).map fill) 0 (leBytes 4 (len - 2 ^ 32)) = none := by
    rw [store, if_neg]
    simp
    omega
  rw [ziplistResize, hmod]
  simp only [hstore, bind_eq_bind, bind_none]

/-! ## The loop -/

/-- What the loop decides at an entry: the byte behind it. -/
theorem cascadeLoop_entry (hcur : FieldFits cur.wide u) (fuel curlen : Nat) (t : Bytes)
    {x : UInt8} (hx : t[0]? = some x) :
    ziplistCascadeLoop fill (fuel + 1) (a ++ (cur.bytes u ++ t)) curlen a.length =
      if x = zipEnd then some (a ++ (cur.bytes u ++ t))
      else (do
        let next ← zipEntry t 0
        if next.prevrawlen = cur.rawLen then some (a ++ (cur.bytes u ++ t))
        else if next.prevrawlensize < zipPrevEncodeLengthSize cur.rawLen then do
          let extra := zipPrevEncodeLengthSize cur.rawLen - next.prevrawlensize
          let zl ← ziplistGrowPrevlen fill (a ++ (cur.bytes u ++ t)) curlen
            (a.length + cur.rawLen) cur.rawLen next.prevrawlensize extra
          ziplistCascadeLoop fill fuel zl (curlen + extra) (a.length + cur.rawLen)
        else
          store (a ++ (cur.bytes u ++ t)) (a.length + cur.rawLen)
            (if next.prevrawlensize > zipPrevEncodeLengthSize cur.rawLen then
              zipPrevEncodeLengthForceLarge cur.rawLen
            else zipPrevEncodeLength cur.rawLen)) := by
  obtain ⟨b, hb, hne⟩ := getElem?_entry (a := a) rfl hcur t
  have hlen : (a ++ cur.bytes u).length = a.length + cur.rawLen := by simp
  have hnext : (a ++ (cur.bytes u ++ t))[a.length + cur.rawLen]? = some x := by
    have := getElem?_append_add (a ++ cur.bytes u) t 0
    rwa [Nat.add_zero, hlen, append_assoc, hx] at this
  have hentry : zipEntry (a ++ (cur.bytes u ++ t)) (a.length + cur.rawLen) = zipEntry t 0 := by
    have := zipEntry_append_right (a ++ cur.bytes u) t 0
    rwa [Nat.add_zero, hlen, append_assoc] at this
  rw [ziplistCascadeLoop]
  simp only [hb, hne, if_false, some_bind, zipEntry_append rfl hcur,
    ZipEntry.headersize_add_len, hnext, hentry]

theorem cascadeLoop_nil (hcur : FieldFits cur.wide u) (fuel curlen : Nat) :
    ziplistCascadeLoop fill (fuel + 1) (a ++ (cur.bytes u ++ [zipEnd])) curlen a.length =
      some (a ++ (cur.bytes u ++ [zipEnd])) := by
  rw [cascadeLoop_entry fill hcur fuel curlen [zipEnd] rfl, if_pos rfl]

/-- A field that need not grow is rewritten in its width, and the loop stops;
the length behind the field has to be readable. -/
theorem cascadeLoop_stop (hcur : FieldFits cur.wide u) (he : FieldFits wide v)
    (hstop : ¬(zipBiglen ≤ cur.rawLen ∧ wide = false)) (fuel curlen : Nat) (c : Bytes) :
    ziplistCascadeLoop fill (fuel + 1) (a ++ (cur.bytes u ++ (prevField wide v ++ c))) curlen
        a.length =
      (zipDecodeLength c 0).map fun _ => a ++ (cur.bytes u ++ (prevField wide cur.rawLen ++ c)) := by
  obtain ⟨b, hb, hne⟩ := head_prevField_ne he c
  have hlen := zipDecodeLength_append_right (prevField wide v) c 0
  rw [length_prevField, Nat.add_zero] at hlen
  rw [cascadeLoop_entry fill hcur fuel curlen _ hb, if_neg hne, zipEntry,
    zipDecodePrevlen_prevField he]
  simp only [bind_eq_bind, bind_some, Nat.zero_add, hlen, Option.pure_def]
  cases hdec : zipDecodeLength c 0 with
  | none => rfl
  | some l =>
    simp only [bind_some, map_some]
    by_cases hv : v = cur.rawLen
    · rw [if_pos hv, hv]
    · have hkeep : ¬(wide = false ∧ decide (zipBiglen ≤ cur.rawLen) = true) := fun h =>
        hstop ⟨of_decide_eq_true h.2, h.1⟩
      have hnlt : ¬fieldLen wide < fieldLen (decide (zipBiglen ≤ cur.rawLen)) := by
        rw [fieldLen_lt_iff]
        exact hkeep
      rw [if_neg hv, zipPrevEncodeLengthSize_eq, if_neg hnlt, zipPrevEncodeLength_eq,
        rewriteField cur.rawLen hkeep]
      have hstore := store_append (a := a ++ cur.bytes u) (b := prevField wide v)
        (p := a.length + cur.rawLen) (prevField wide cur.rawLen) c (by simp) (by simp)
      simpa only [append_assoc] using hstore

/-- Growing the one-byte field behind `q`. -/
theorem growPrevlen_eq {q r : Bytes} {tail : Nat} (hsize : 16 + q.length + r.length < 2 ^ 32)
    (htail : tail < 2 ^ 32) (hprev : zipBiglen ≤ prev) (bytes len : Nat) (x : UInt8) :
    ziplistGrowPrevlen fill (header bytes tail len ++ (q ++ ([x] ++ (r ++ [zipEnd]))))
        (12 + q.length + r.length) (10 + q.length) prev 1 4 =
      some (header (16 + q.length + r.length) (if tail ≠ 10 + q.length then tail + 4 else tail) len ++
        (q ++ (prevField true prev ++ (r ++ [zipEnd])))) := by
  obtain ⟨junk, hjunk, _, hresize⟩ := ziplistResize_grow fill bytes tail len 4 (q ++ ([x] ++ r))
    (by simp; omega)
  have hlen : 11 + (q ++ ([x] ++ r)).length = 12 + q.length + r.length := by
    simp
    omega
  have hsize' : 12 + q.length + r.length + 4 = 16 + q.length + r.length := by omega
  simp only [append_assoc, hlen, hsize'] at hresize
  have htailEq (b : Bytes) : (if tail ≠ 10 + q.length then
      setTailOffset (header (16 + q.length + r.length) tail len ++ b) (tail + 4)
      else some (header (16 + q.length + r.length) tail len ++ b)) =
      some (header (16 + q.length + r.length)
        (if tail ≠ 10 + q.length then tail + 4 else tail) len ++ b) := by
    split
    · rw [setTailOffset_header]
    · rfl
  have hfield : zipPrevEncodeLength prev = prevField true prev := by
    rw [zipPrevEncodeLength_eq, decide_eq_true hprev]
  have hfieldLen : zipPrevEncodeLengthSize prev = 5 := by
    rw [zipPrevEncodeLengthSize_eq, decide_eq_true hprev]
    rfl
  generalize htail' : (if tail ≠ 10 + q.length then tail + 4 else tail) = tail' at htailEq ⊢
  generalize hh : header (16 + q.length + r.length) tail' len = hd at htailEq ⊢
  have hhd : hd.length = 10 := by simp [← hh]
  have hload : load (hd ++ (q ++ ([x] ++ (r ++ (junk ++ [zipEnd]))))) (10 + q.length + 1)
      (12 + q.length + r.length - (10 + q.length) - 1 - 1) = some r := by
    have := load_append (a := hd ++ (q ++ [x])) (b := r) (p := 10 + q.length + 1)
      (n := 12 + q.length + r.length - (10 + q.length) - 1 - 1) (junk ++ [zipEnd])
      (by simp [hhd]; omega) (by omega)
    simpa only [append_assoc] using this
  have hmove := store_append_take (a := hd ++ q) (m := [x] ++ (r ++ junk)) (p := 10 + q.length + 5)
    (k := 5) r [zipEnd] (by simp [hhd]) (by simp [hjunk]; omega)
  simp only [append_assoc] at hmove
  have hput := store_append (a := hd ++ q) (b := ([x] ++ (r ++ junk)).take 5)
    (p := 10 + q.length) (prevField true prev) (r ++ [zipEnd]) (by simp [hhd])
    (by simp [hjunk, fieldLen])
  simp only [append_assoc] at hput
  rw [ziplistGrowPrevlen, hsize', hresize]
  simp only [some_bind, ziplistTailOffset_header htail, htailEq,
    hfieldLen, move_eq hload, hmove, hfield, hput]

/-- A field that is too narrow grows, and the loop goes on behind it. -/
theorem cascadeLoop_grow (pre : Bytes) {tail : Nat} {c : Bytes} (hcur : FieldFits cur.wide u)
    (he : FieldFits e.wide v) (hgrow : zipBiglen ≤ cur.rawLen ∧ e.wide = false)
    (htail : tail < 2 ^ 32) (hbytes : 11 + pre.length + cur.rawLen + e.rawLen + c.length < 2 ^ 32)
    (fuel len : Nat) :
    ziplistCascadeLoop fill (fuel + 1)
        (header (11 + pre.length + cur.rawLen + e.rawLen + c.length) tail len ++
          (pre ++ (cur.bytes u ++ (e.bytes v ++ (c ++ [zipEnd])))))
        (11 + pre.length + cur.rawLen + e.rawLen + c.length) (10 + pre.length) =
      if 15 + pre.length + cur.rawLen + e.rawLen + c.length < 2 ^ 32 then
        ziplistCascadeLoop fill fuel
          (header (11 + (pre ++ cur.bytes u).length + (e.setWide true).rawLen + c.length)
            (if tail ≠ 10 + (pre ++ cur.bytes u).length then tail + 4 else tail) len ++
              ((pre ++ cur.bytes u) ++ ((e.setWide true).bytes cur.rawLen ++ (c ++ [zipEnd]))))
          (11 + (pre ++ cur.bytes u).length + (e.setWide true).rawLen + c.length)
          (10 + (pre ++ cur.bytes u).length)
      else none := by
  have hraw : e.rawLen = 1 + e.body.length := by
    rw [ZipEntry.rawLen, hgrow.2]
    rfl
  have hwide : (e.setWide true).rawLen = e.rawLen + 4 := rawLen_setWide_true hgrow.2
  have hv : e.bytes v = [UInt8.ofNat v] ++ e.body := by
    rw [ZipEntry.bytes, hgrow.2]
    rfl
  have hne : v ≠ cur.rawLen := by
    intro heq
    have hfit := he.2
    rw [hgrow.2] at hfit
    simp at hfit
    omega
  obtain ⟨b, hb, hbne⟩ := head_prevField_ne he (e.body ++ (c ++ [zipEnd]))
  rw [← append_assoc, ← ZipEntry.bytes] at hb
  generalize hhd : header (11 + pre.length + cur.rawLen + e.rawLen + c.length) tail len = hd
  have hq : 10 + pre.length = (hd ++ pre).length := by simp [← hhd]
  have hloop := cascadeLoop_entry fill (a := hd ++ pre) hcur fuel
    (11 + pre.length + cur.rawLen + e.rawLen + c.length) (e.bytes v ++ (c ++ [zipEnd])) hb
  have hsize : zipPrevEncodeLengthSize cur.rawLen = 5 := by
    rw [zipPrevEncodeLengthSize_eq, decide_eq_true hgrow.1]
    rfl
  have hone : fieldLen e.wide = 1 := by
    rw [hgrow.2]
    rfl
  rw [← hq, append_assoc] at hloop
  rw [hloop, if_neg hbne, ZipEntry.zipEntry_bytes he]
  simp only [bind_eq_bind, bind_some, ZipEntry.zlentry, hne, if_false, hsize, hone,
    Nat.reduceLT, if_true, Nat.reduceSub]
  by_cases hlt : 15 + pre.length + cur.rawLen + e.rawLen + c.length < 2 ^ 32
  · rw [if_pos hlt]
    have hg := growPrevlen_eq fill (q := pre ++ cur.bytes u) (r := e.body ++ c)
      (by simp; omega) htail hgrow.1
      (11 + pre.length + cur.rawLen + e.rawLen + c.length) len (UInt8.ofNat v)
    have hold : 12 + (pre ++ cur.bytes u).length + (e.body ++ c).length =
        11 + pre.length + cur.rawLen + e.rawLen + c.length := by
      simp
      omega
    have hnew : 16 + (pre ++ cur.bytes u).length + (e.body ++ c).length =
        11 + (pre ++ cur.bytes u).length + (e.setWide true).rawLen + c.length := by
      rw [hwide, hraw]
      simp
      omega
    have hnp : 10 + pre.length + cur.rawLen = 10 + (pre ++ cur.bytes u).length := by
      simp
      omega
    have hcurlen : 11 + pre.length + cur.rawLen + e.rawLen + c.length + 4 =
        11 + (pre ++ cur.bytes u).length + (e.setWide true).rawLen + c.length := by
      rw [hwide]
      simp
      omega
    rw [hold, hnew, hhd] at hg
    simp only [append_assoc] at hg
    have hbytes' : (e.setWide true).bytes cur.rawLen = prevField true cur.rawLen ++ e.body := rfl
    simp only [hv, hbytes', append_assoc, hnp, hg, bind_some, hcurlen]
  · rw [if_neg hlt]
    have hover : ziplistResize fill (hd ++ (pre ++ (cur.bytes u ++ (e.bytes v ++ (c ++ [zipEnd])))))
        (11 + pre.length + cur.rawLen + e.rawLen + c.length + 4) = none :=
      ziplistResize_overflow fill _ (by omega) (by omega)
    rw [ziplistGrowPrevlen, hover]
    rfl

/-- The offset of the tail, as the loop keeps it. -/
theorem tailOffset_cons (e : ZipEntry) (es : List ZipEntry) (hes : es ≠ []) :
    tailOffset base (e :: es) = tailOffset (base + e.rawLen) es := by
  simp only [tailOffset, dropLast_cons_of_ne_nil hes, entriesSize_cons]
  omega

theorem tailOffset_append (l : List ZipEntry) {r : List ZipEntry} (hr : r ≠ []) :
    tailOffset base (l ++ r) = tailOffset (base + entriesSize l) r := by
  simp only [tailOffset, dropLast_append_of_ne_nil hr, entriesSize_append]
  omega

theorem tailOffset_lt (es : List ZipEntry) : tailOffset base es ≤ base + entriesSize es := by
  have : entriesSize es.dropLast ≤ entriesSize es := by
    cases es.eq_nil_or_concat with
    | inl h => simp [h]
    | inr h =>
      obtain ⟨init, last, rfl⟩ := h
      simp
  rw [tailOffset]
  omega

/-- The offset of the tail when the field of the entry at `base` has grown. -/
theorem tailOffset_grow (he : e.wide = false) (base : Nat) (es : List ZipEntry) :
    (if tailOffset base (e :: es) ≠ base then tailOffset base (e :: es) + 4
      else tailOffset base (e :: es)) = tailOffset base (e.setWide true :: es) := by
  cases es with
  | nil => simp [tailOffset]
  | cons e' es =>
    have hpos := e.rawLen_ge
    have hgrow := rawLen_setWide_true he
    have hne : tailOffset base (e :: e' :: es) ≠ base := by
      simp [tailOffset]
      omega
    rw [if_pos hne]
    simp only [tailOffset, dropLast_cons_cons, entriesSize_cons, hgrow]
    omega

/-- The cascade from an entry that is in place: every field behind it that has
become too narrow is widened, unless the size leaves the range of its type. -/
theorem cascadeLoop_spec :
    ∀ (pre : Bytes) (cur : ZipEntry) {u v n : Nat} (len : Nat), es.length < n →
      FieldFits cur.wide u → FieldsFit v es →
      11 + pre.length + cur.rawLen + entriesSize es < 2 ^ 32 →
      ziplistCascadeLoop fill n
          (header (11 + pre.length + cur.rawLen + entriesSize es)
            (tailOffset (10 + pre.length) (cur :: es)) len ++
              (pre ++ (cur.bytes u ++ (layout v es ++ [zipEnd]))))
          (11 + pre.length + cur.rawLen + entriesSize es) (10 + pre.length) =
        if 11 + pre.length + cur.rawLen + entriesSize (widen cur.rawLen es) < 2 ^ 32 then
          some (header (11 + pre.length + cur.rawLen + entriesSize (widen cur.rawLen es))
            (tailOffset (10 + pre.length) (cur :: widen cur.rawLen es)) len ++
              (pre ++ (cur.bytes u ++ (layout cur.rawLen (widen cur.rawLen es) ++ [zipEnd]))))
        else none := by
  induction es with
  | nil =>
    intro pre cur u v fuel len hfuel hcur _ hsize
    obtain ⟨fuel, rfl⟩ : ∃ k, fuel = k + 1 := ⟨fuel - 1, by simp at hfuel; omega⟩
    rw [widen, if_pos hsize]
    have hloop := cascadeLoop_nil fill (a := header (11 + pre.length + cur.rawLen + entriesSize [])
      (tailOffset (10 + pre.length) [cur]) len ++ pre) hcur fuel
      (11 + pre.length + cur.rawLen + entriesSize [])
    simpa only [length_append, length_header, append_assoc, layout, nil_append]
      using hloop
  | cons e es ih =>
    intro pre cur u v fuel len hfuel hcur hfits hsize
    obtain ⟨fuel, rfl⟩ : ∃ k, fuel = k + 1 := ⟨fuel - 1, by simp at hfuel; omega⟩
    by_cases hgrow : zipBiglen ≤ cur.rawLen ∧ e.wide = false
    · have hes : tailOffset (10 + pre.length) (cur :: e :: es) < 2 ^ 32 := by
        have := tailOffset_lt (10 + pre.length) (cur :: e :: es)
        simp only [entriesSize_cons] at this hsize
        omega
      have hstep := cascadeLoop_grow fill pre (c := layout e.rawLen es) hcur hfits.1 hgrow
        hes (by simp at hsize ⊢; omega) fuel len
      have hraw := rawLen_setWide_true hgrow.2
      have hwider := entriesSize_le_widen (e.setWide true).rawLen es
      have hbytes : 11 + pre.length + cur.rawLen + e.rawLen + (layout e.rawLen es).length =
          11 + pre.length + cur.rawLen + entriesSize (e :: es) := by
        simp
        omega
      have hbase : 10 + (pre ++ cur.bytes u).length = 10 + pre.length + cur.rawLen := by
        simp
        omega
      have htail := tailOffset_grow hgrow.2 (10 + pre.length + cur.rawLen) es
      rw [← tailOffset_cons _ cur (e :: es) (by simp)] at htail
      rw [hbytes, hbase, htail, length_layout] at hstep
      rw [layout, append_assoc, hstep, widen, if_pos hgrow]
      by_cases hlt : 15 + pre.length + cur.rawLen + e.rawLen + entriesSize es < 2 ^ 32
      · have hrec := ih (pre ++ cur.bytes u) (e.setWide true) (u := cur.rawLen)
          (v := e.rawLen) (n := fuel) len (by simp at hfuel; omega)
          ⟨by omega, .inr rfl⟩ hfits.2 (by simp [hraw]; omega)
        rw [hbase] at hrec
        rw [if_pos hlt, hrec]
        have hfinal : 11 + (pre ++ cur.bytes u).length + (e.setWide true).rawLen +
            entriesSize (widen (e.setWide true).rawLen es) =
            11 + pre.length + cur.rawLen +
              entriesSize (e.setWide true :: widen (e.setWide true).rawLen es) := by
          simp
          omega
        rw [hfinal, tailOffset_cons _ cur _ (by simp)]
        simp only [layout, append_assoc]
      · rw [if_neg hlt, if_neg]
        rw [entriesSize_cons, hraw]
        rw [hraw] at hwider
        omega
    · rw [widen, if_neg hgrow, if_pos hsize]
      have hstep := cascadeLoop_stop fill (a := header (11 + pre.length + cur.rawLen +
        entriesSize (e :: es)) (tailOffset (10 + pre.length) (cur :: e :: es)) len ++ pre)
        hcur hfits.1 hgrow fuel (11 + pre.length + cur.rawLen + entriesSize (e :: es))
        (e.body ++ (layout e.rawLen es ++ [zipEnd]))
      rw [zipDecodeLength_append_left e.decode, map_some] at hstep
      simpa only [length_append, length_header, append_assoc, layout, ZipEntry.bytes]
        using hstep

theorem fieldLen_injective {wide' : Bool} (h : fieldLen wide = fieldLen wide') : wide = wide' := by
  cases wide <;> cases wide' <;> simp_all [fieldLen]

/-- The cascade behind an entry `e` whose field got another width.  Where the
width is the old one the code leaves the cascade out: there is nothing to
update. -/
theorem cascade_of_setWide (pre : Bytes) (e : ZipEntry) (wide : Bool) (len : Nat)
    (hfit : FieldFits wide u) (hfits : FieldsFit e.rawLen es)
    (hsize : 11 + pre.length + (e.setWide wide).rawLen + entriesSize es < 2 ^ 32) {zl : Bytes}
    (hzl : zl = header (11 + pre.length + (e.setWide wide).rawLen + entriesSize es)
      (tailOffset (10 + pre.length) (e.setWide wide :: es)) len ++
        (pre ++ ((e.setWide wide).bytes u ++ (layout e.rawLen es ++ [zipEnd])))) :
    (if (fieldLen wide : Int) - fieldLen e.wide ≠ 0 then
        ziplistCascadeUpdate fill zl (10 + pre.length) else some zl) =
      if 11 + pre.length + entriesSize (e.setWide wide :: widen (e.setWide wide).rawLen es) <
          2 ^ 32 then
        some (header (11 + pre.length +
            entriesSize (e.setWide wide :: widen (e.setWide wide).rawLen es))
          (tailOffset (10 + pre.length) (e.setWide wide :: widen (e.setWide wide).rawLen es)) len ++
            (pre ++ (layout u (e.setWide wide :: widen (e.setWide wide).rawLen es) ++ [zipEnd])))
      else none := by
  have hassoc : 11 + pre.length + entriesSize (e.setWide wide :: widen (e.setWide wide).rawLen es) =
      11 + pre.length + (e.setWide wide).rawLen + entriesSize (widen (e.setWide wide).rawLen es) := by
    rw [entriesSize_cons]
    omega
  rw [hassoc, layout, append_assoc]
  by_cases hdiff : (fieldLen wide : Int) - fieldLen e.wide ≠ 0
  · have := length_le_entriesSize es
    rw [if_pos hdiff, hzl, ziplistCascadeUpdate, ziplistBytes_header hsize, some_bind,
      cascadeLoop_spec fill pre _ len (by simp; omega) hfit hfits hsize]
  · have hwide : e.wide = wide := fieldLen_injective (by omega)
    rw [if_neg hdiff, hzl]
    rw [setWide_self hwide] at hsize ⊢
    rw [widen_of_fieldsFit hfits (le_refl _), if_pos hsize]

end Redis
