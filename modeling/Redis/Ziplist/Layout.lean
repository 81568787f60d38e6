import Redis.Ziplist

/-!
# Redis.Ziplist.Layout

Well-formed ziplists, as lists of entries.  An entry is the width of its
`prevlen` field and its body, the encoded length with the payload; the value
of the field is the size of the entry before it, so that only the layout of
the whole list writes it.
-/

namespace Redis

open Bytes List Option

variable {wide : Bool} {prev p : Nat} {e : ZipEntry} {a : Bytes}

/-! ## Reading behind a part of the buffer -/

theorem getElem?_append_add (a b : Bytes) (q : Nat) : (a ++ b)[a.length + q]? = b[q]? := by
  simp [getElem?_append_right]

theorem zipDecodeLength_append_right (a b : Bytes) (q : Nat) :
    zipDecodeLength (a ++ b) (a.length + q) = zipDecodeLength b q := by
  simp only [zipDecodeLength, Nat.add_assoc, getElem?_append_add, load_append_right]

theorem zipDecodePrevlensize_append_right (a b : Bytes) (q : Nat) :
    zipDecodePrevlensize (a ++ b) (a.length + q) = zipDecodePrevlensize b q := by
  simp only [zipDecodePrevlensize, getElem?_append_add]

theorem zipDecodePrevlen_append_right (a b : Bytes) (q : Nat) :
    zipDecodePrevlen (a ++ b) (a.length + q) = zipDecodePrevlen b q := by
  simp only [zipDecodePrevlen, zipDecodePrevlensize_append_right, getElem?_append_add,
    Nat.add_assoc, load_append_right]

theorem zipRawEntryLength_append_right (a b : Bytes) (q : Nat) :
    zipRawEntryLength (a ++ b) (a.length + q) = zipRawEntryLength b q := by
  simp only [zipRawEntryLength, zipDecodePrevlensize_append_right, Nat.add_assoc,
    zipDecodeLength_append_right]

theorem zipEntry_append_right (a b : Bytes) (q : Nat) :
    zipEntry (a ++ b) (a.length + q) = zipEntry b q := by
  simp only [zipEntry, zipDecodePrevlen_append_right, Nat.add_assoc, zipDecodeLength_append_right]

/-- A length that can be read does not depend on what follows. -/
theorem zipDecodeLength_append_left {b : Bytes} {l : ZipLength}
    (h : zipDecodeLength b 0 = some l) (c : Bytes) : zipDecodeLength (b ++ c) 0 = some l := by
  cases b with
  | nil => simp [zipDecodeLength] at h
  | cons x xs =>
    simp only [zipDecodeLength, cons_append, getElem?_cons_zero, Nat.zero_add,
      bind_eq_bind, bind_some] at h ⊢
    split at h
    next hstr =>
      rw [if_pos hstr]
      split at h
      next h06 => rw [if_pos h06]; exact h
      next h06 =>
        rw [if_neg h06]
        split at h
        next h14 =>
          rw [if_pos h14]
          simp only [bind_eq_some_iff, getElem?_cons_succ] at h ⊢
          obtain ⟨y, hy, hl⟩ := h
          have hlt : 0 < xs.length := by
            cases xs with
            | nil => simp at hy
            | cons => simp
          exact ⟨y, by rw [getElem?_append_left hlt]; exact hy, hl⟩
        next h14 =>
          rw [if_neg h14]
          split at h
          next h32 =>
            rw [if_pos h32]
            simp only [bind_eq_some_iff] at h ⊢
            obtain ⟨bs, hbs, hl⟩ := h
            exact ⟨bs, load_append_left c hbs, hl⟩
          next => cases h
    next hint =>
      rw [if_neg hint]
      exact h

/-! ## The `prevlen` field -/

/-- The size of a `prevlen` field. -/
def fieldLen (wide : Bool) : Nat := if wide then 5 else 1

/-- A `prevlen` field of the given width. -/
def prevField (wide : Bool) (prev : Nat) : Bytes :=
  if wide then zipPrevEncodeLengthForceLarge prev else [UInt8.ofNat prev]

/-- The field is wide enough for the value. -/
def FieldFits (wide : Bool) (prev : Nat) : Prop := prev < 2 ^ 32 ∧ (prev < zipBiglen ∨ wide = true)

@[simp] theorem length_prevField (wide : Bool) (prev : Nat) :
    (prevField wide prev).length = fieldLen wide := by
  cases wide <;> simp [prevField, fieldLen, zipPrevEncodeLengthForceLarge]

theorem fieldLen_pos (wide : Bool) : 0 < fieldLen wide := by
  cases wide <;> simp [fieldLen]

theorem toNat_ofNat_zipBiglen : (UInt8.ofNat zipBiglen).toNat = 254 := rfl

theorem toNat_ofNat_of_lt {n : Nat} (h : n < zipBiglen) : (UInt8.ofNat n).toNat = n := by
  rw [UInt8.toNat_ofNat', Nat.mod_eq_of_lt]
  simp only [zipBiglen] at h
  omega

theorem zipDecodePrevlensize_prevField (h : FieldFits wide prev) (c : Bytes) :
    zipDecodePrevlensize (prevField wide prev ++ c) 0 = some (fieldLen wide) := by
  cases wide with
  | true => rfl
  | false =>
    have hlt : prev < zipBiglen := by simpa using h.2
    simp [zipDecodePrevlensize, prevField, fieldLen, toNat_ofNat_of_lt hlt, hlt]

theorem zipDecodePrevlen_prevField (h : FieldFits wide prev) (c : Bytes) :
    zipDecodePrevlen (prevField wide prev ++ c) 0 = some (fieldLen wide, prev) := by
  rw [zipDecodePrevlen, zipDecodePrevlensize_prevField h]
  cases wide with
  | true =>
    have hload : load (prevField true prev ++ c) (0 + 1) 4 = some (leBytes 4 prev) :=
      load_append (a := [UInt8.ofNat zipBiglen]) c rfl (length_leBytes 4 prev).symm
    have hval : leNat (leBytes 4 prev) = prev := leNat_leBytes_of_lt (by have := h.1; omega)
    simp only [some_bind, fieldLen, if_true, hload, hval,
      Option.pure_def]
    rfl
  | false =>
    have hlt : prev < zipBiglen := by simpa using h.2
    simp [prevField, fieldLen, toNat_ofNat_of_lt hlt]

theorem zipPrevEncodeLength_eq (prev : Nat) :
    zipPrevEncodeLength prev = prevField (decide (zipBiglen ≤ prev)) prev := by
  simp only [zipPrevEncodeLength, prevField, zipPrevEncodeLengthForceLarge]
  by_cases h : prev < zipBiglen
  · rw [if_pos h, if_neg (by simpa using h)]
  · rw [if_neg h, if_pos (by simpa using h)]

theorem zipPrevEncodeLengthSize_eq (prev : Nat) :
    zipPrevEncodeLengthSize prev = fieldLen (decide (zipBiglen ≤ prev)) := by
  simp only [zipPrevEncodeLengthSize, fieldLen]
  by_cases h : prev < zipBiglen
  · rw [if_pos h, if_neg (by simpa using h)]
  · rw [if_neg h, if_pos (by simpa using h)]

theorem fieldLen_lt_iff (wide wide' : Bool) :
    fieldLen wide < fieldLen wide' ↔ wide = false ∧ wide' = true := by
  cases wide <;> cases wide' <;> simp [fieldLen]

/-- A field rewritten in place keeps its width. -/
theorem rewriteField {wide' : Bool} (prev : Nat) (h : ¬(wide = false ∧ wide' = true)) :
    (if fieldLen wide > fieldLen wide' then zipPrevEncodeLengthForceLarge prev
      else prevField wide' prev) = prevField wide prev := by
  cases wide <;> cases wide' <;> simp_all [fieldLen, prevField]

/-- A `prevlen` field never starts like the terminator. -/
theorem head_prevField_ne (h : FieldFits wide prev) (c : Bytes) :
    ∃ b, (prevField wide prev ++ c)[0]? = some b ∧ b ≠ zipEnd := by
  cases wide with
  | true => exact ⟨UInt8.ofNat zipBiglen, rfl, by decide⟩
  | false =>
    have hlt : prev < zipBiglen := by simpa using h.2
    refine ⟨UInt8.ofNat prev, rfl, ?_⟩
    intro heq
    have := congrArg UInt8.toNat heq
    rw [toNat_ofNat_of_lt hlt] at this
    simp only [zipEnd, UInt8.reduceToNat, zipBiglen] at this hlt
    omega

/-! ## Entries -/

/-- The encodings an entry may have. -/
def zipEncodingOk (encoding : UInt8) : Bool := decide (encoding < zipStrMask) || zipIsInt encoding

/-- An entry: the width of its `prevlen` field, and its body with the length
that `ZIP_DECODE_LENGTH` reads from it. -/
structure ZipEntry where
  wide : Bool
  body : Bytes
  length : ZipLength
  decode : zipDecodeLength body 0 = some length
  size : length.lensize + length.len = body.length
  valid : zipEncodingOk length.encoding = true

namespace ZipEntry

/-- The number of bytes of the entry. -/
def rawLen (e : ZipEntry) : Nat := fieldLen e.wide + e.body.length

/-- The bytes of the entry behind an entry of `prev` bytes. -/
def bytes (e : ZipEntry) (prev : Nat) : Bytes := prevField e.wide prev ++ e.body

/-- The entry with a `prevlen` field of another width. -/
def setWide (e : ZipEntry) (wide : Bool) : ZipEntry := { e with wide }

@[simp] theorem length_bytes (e : ZipEntry) (prev : Nat) : (e.bytes prev).length = e.rawLen := by
  simp [bytes, rawLen]

@[simp] theorem setWide_body (e : ZipEntry) (wide : Bool) : (e.setWide wide).body = e.body := rfl

@[simp] theorem setWide_wide (e : ZipEntry) (wide : Bool) : (e.setWide wide).wide = wide := rfl

theorem body_length_pos (e : ZipEntry) : 0 < e.body.length := by
  cases hb : e.body with
  | nil =>
    have := e.decode
    simp [hb, zipDecodeLength] at this
  | cons => simp

theorem rawLen_ge (e : ZipEntry) : 2 ≤ e.rawLen := by
  have h₁ := fieldLen_pos e.wide
  have h₂ := e.body_length_pos
  rw [rawLen]
  omega

theorem ext {e' : ZipEntry} (hwide : e.wide = e'.wide) (hbody : e.body = e'.body) : e = e' := by
  cases e with
  | mk wide body length decode size valid =>
    cases e' with
    | mk wide' body' length' decode' size' valid' =>
      simp only at hwide hbody
      subst hwide hbody
      have : length = length' := Option.some.inj (decode.symm.trans decode')
      subst this
      rfl

/-- What `zipEntry` reads from the bytes of an entry. -/
def zlentry (e : ZipEntry) (prev : Nat) : Zlentry where
  prevrawlensize := fieldLen e.wide
  prevrawlen := prev
  lensize := e.length.lensize
  len := e.length.len
  headersize := fieldLen e.wide + e.length.lensize
  encoding := e.length.encoding

theorem zipEntry_bytes (h : FieldFits e.wide prev) (c : Bytes) :
    zipEntry (e.bytes prev ++ c) 0 = some (e.zlentry prev) := by
  rw [bytes, append_assoc, zipEntry, zipDecodePrevlen_prevField h]
  have hlen := zipDecodeLength_append_right (prevField e.wide prev) (e.body ++ c) 0
  rw [length_prevField, Nat.add_zero, zipDecodeLength_append_left e.decode] at hlen
  simp only [some_bind, Nat.zero_add, hlen, Option.pure_def]
  rfl

theorem zipRawEntryLength_bytes (h : FieldFits e.wide prev) (c : Bytes) :
    zipRawEntryLength (e.bytes prev ++ c) 0 = some e.rawLen := by
  rw [bytes, append_assoc, zipRawEntryLength, zipDecodePrevlensize_prevField h]
  have hlen := zipDecodeLength_append_right (prevField e.wide prev) (e.body ++ c) 0
  rw [length_prevField, Nat.add_zero, zipDecodeLength_append_left e.decode] at hlen
  simp only [some_bind, Nat.zero_add, hlen, Option.pure_def,
    Option.some.injEq, rawLen, ← e.size]
  omega

theorem headersize_add_len (e : ZipEntry) (prev : Nat) :
    (e.zlentry prev).headersize + (e.zlentry prev).len = e.rawLen := by
  simp only [zlentry, rawLen, ← e.size]
  omega

/-- The value of the entry, read as `ziplistGet` reads it. -/
def value (e : ZipEntry) : Bytes :=
  if zipIsStr e.length.encoding then e.body.drop e.length.lensize
  else ((zipLoadInteger e.body e.length.lensize e.length.encoding).map ll2string).getD []

@[simp] theorem setWide_value (e : ZipEntry) (wide : Bool) : (e.setWide wide).value = e.value := rfl

end ZipEntry

/-- Reading an entry: its field, and the length behind it. -/
theorem zipEntry_field (hp : p = a.length) (h : FieldFits wide prev) (c : Bytes) :
    zipEntry (a ++ (prevField wide prev ++ c)) p = (zipDecodeLength c 0).map fun l =>
      ⟨fieldLen wide, prev, l.lensize, l.len, fieldLen wide + l.lensize, l.encoding⟩ := by
  have hr := zipEntry_append_right a (prevField wide prev ++ c) 0
  have hlen := zipDecodeLength_append_right (prevField wide prev) c 0
  rw [Nat.add_zero] at hr hlen
  rw [length_prevField] at hlen
  rw [hp, hr, zipEntry, zipDecodePrevlen_prevField h]
  simp only [some_bind, Nat.zero_add, hlen, Option.pure_def]
  cases zipDecodeLength c 0 <;> rfl

theorem zipEntry_append (hp : p = a.length) (h : FieldFits e.wide prev) (c : Bytes) :
    zipEntry (a ++ (e.bytes prev ++ c)) p = some (e.zlentry prev) := by
  have hr := zipEntry_append_right a (e.bytes prev ++ c) 0
  rw [Nat.add_zero] at hr
  rw [hp, hr, ZipEntry.zipEntry_bytes h]

theorem zipDecodePrevlen_append (hp : p = a.length) (h : FieldFits e.wide prev) (c : Bytes) :
    zipDecodePrevlen (a ++ (e.bytes prev ++ c)) p = some (fieldLen e.wide, prev) := by
  have hr := zipDecodePrevlen_append_right a (e.bytes prev ++ c) 0
  rw [Nat.add_zero] at hr
  rw [hp, hr, ZipEntry.bytes, append_assoc, zipDecodePrevlen_prevField h]

theorem zipDecodePrevlensize_append (hp : p = a.length) (h : FieldFits e.wide prev)
    (c : Bytes) :
    zipDecodePrevlensize (a ++ (e.bytes prev ++ c)) p = some (fieldLen e.wide) := by
  have hr := zipDecodePrevlensize_append_right a (e.bytes prev ++ c) 0
  rw [Nat.add_zero] at hr
  rw [hp, hr, ZipEntry.bytes, append_assoc, zipDecodePrevlensize_prevField h]

theorem zipRawEntryLength_append (hp : p = a.length) (h : FieldFits e.wide prev) (c : Bytes) :
    zipRawEntryLength (a ++ (e.bytes prev ++ c)) p = some e.rawLen := by
  have hr := zipRawEntryLength_append_right a (e.bytes prev ++ c) 0
  rw [Nat.add_zero] at hr
  rw [hp, hr, ZipEntry.zipRawEntryLength_bytes h]

theorem getElem?_entry (hp : p = a.length) (h : FieldFits e.wide prev) (c : Bytes) :
    ∃ b, (a ++ (e.bytes prev ++ c))[p]? = some b ∧ b ≠ zipEnd := by
  have hr := getElem?_append_add a (e.bytes prev ++ c) 0
  rw [Nat.add_zero] at hr
  rw [hp, hr, ZipEntry.bytes, append_assoc]
  exact head_prevField_ne h _

/-! ## Layout -/

/-- The bytes of the entries behind an entry of `prev` bytes. -/
def layout : Nat → List ZipEntry → Bytes
  | _, [] => []
  | prev, e :: es => e.bytes prev ++ layout e.rawLen es

/-- Every field is wide enough for the size of the entry before it. -/
def FieldsFit : Nat → List ZipEntry → Prop
  | _, [] => True
  | prev, e :: es => FieldFits e.wide prev ∧ FieldsFit e.rawLen es

/-- The number of bytes of the entries. -/
def entriesSize (es : List ZipEntry) : Nat := (es.map ZipEntry.rawLen).sum

/-- The size of the last entry, or of the entry before an empty list. -/
def lastLen (prev : Nat) (es : List ZipEntry) : Nat := (es.getLast?.map ZipEntry.rawLen).getD prev

@[simp] theorem entriesSize_nil : entriesSize [] = 0 := rfl

@[simp] theorem entriesSize_cons (e : ZipEntry) (es : List ZipEntry) :
    entriesSize (e :: es) = e.rawLen + entriesSize es := by simp [entriesSize]

@[simp] theorem entriesSize_append (es es' : List ZipEntry) :
    entriesSize (es ++ es') = entriesSize es + entriesSize es' := by simp [entriesSize]

@[simp] theorem length_layout (prev : Nat) (es : List ZipEntry) :
    (layout prev es).length = entriesSize es := by
  induction es generalizing prev with
  | nil => rfl
  | cons e es ih => simp [layout, ih]

@[simp] theorem lastLen_nil (prev : Nat) : lastLen prev [] = prev := rfl

@[simp] theorem lastLen_cons (prev : Nat) (e : ZipEntry) (es : List ZipEntry) :
    lastLen prev (e :: es) = lastLen e.rawLen es := by
  cases es with
  | nil => rfl
  | cons e' es => simp [lastLen, getLast?_eq_some_getLast]

theorem layout_append (prev : Nat) (es es' : List ZipEntry) :
    layout prev (es ++ es') = layout prev es ++ layout (lastLen prev es) es' := by
  induction es generalizing prev with
  | nil => rfl
  | cons e es ih => simp [layout, ih]

theorem fieldsFit_append {es es' : List ZipEntry} :
    FieldsFit prev (es ++ es') ↔ FieldsFit prev es ∧ FieldsFit (lastLen prev es) es' := by
  induction es generalizing prev with
  | nil => simp [FieldsFit]
  | cons e es ih => simp [FieldsFit, ih, and_assoc]

theorem lastLen_append (prev : Nat) (es es' : List ZipEntry) :
    lastLen prev (es ++ es') = lastLen (lastLen prev es) es' := by
  induction es generalizing prev with
  | nil => rfl
  | cons e es ih => simp [ih]

/-- The offset of the last entry behind `base`, or `base` if there is none. -/
def tailOffset (base : Nat) (es : List ZipEntry) : Nat := base + entriesSize es.dropLast

theorem length_le_entriesSize (es : List ZipEntry) : 2 * es.length ≤ entriesSize es := by
  induction es with
  | nil => simp
  | cons e es ih =>
    have := e.rawLen_ge
    simp only [length_cons, entriesSize_cons]
    omega

/-! ## Well-formed ziplists -/

/-- The header: the size in bytes, the offset of the tail, the number of
entries. -/
def header (bytes tail len : Nat) : Bytes := leBytes 4 bytes ++ (leBytes 4 tail ++ leBytes 2 len)

@[simp] theorem length_header (bytes tail len : Nat) : (header bytes tail len).length = 10 := by
  simp [header]

theorem ziplistBytes_header {bytes : Nat} (h : bytes < 2 ^ 32) (tail len : Nat) (c : Bytes) :
    ziplistBytes (header bytes tail len ++ c) = some bytes := by
  have hload : load (header bytes tail len ++ c) 0 4 = some (leBytes 4 bytes) := by
    rw [header, append_assoc]
    exact load_append (a := []) _ rfl (length_leBytes 4 bytes).symm
  rw [ziplistBytes, hload, map_some, leNat_leBytes_of_lt (by omega)]

theorem ziplistTailOffset_header_mod (bytes tail len : Nat) (c : Bytes) :
    ziplistTailOffset (header bytes tail len ++ c) = some (tail % 2 ^ 32) := by
  have hload : load (header bytes tail len ++ c) 4 4 = some (leBytes 4 tail) := by
    rw [header, append_assoc, append_assoc]
    exact load_append _ (length_leBytes 4 bytes).symm (length_leBytes 4 tail).symm
  rw [ziplistTailOffset, hload, map_some, leNat_leBytes]
  rfl

theorem ziplistTailOffset_header {tail : Nat} (h : tail < 2 ^ 32) (bytes len : Nat)
    (c : Bytes) : ziplistTailOffset (header bytes tail len ++ c) = some tail := by
  rw [ziplistTailOffset_header_mod, Nat.mod_eq_of_lt h]

theorem ziplistLength_header {len : Nat} (h : len < 2 ^ 16) (bytes tail : Nat) (c : Bytes) :
    ziplistLength (header bytes tail len ++ c) = some len := by
  have hload : load (header bytes tail len ++ c) 8 2 = some (leBytes 2 len) := by
    rw [header, ← append_assoc (leBytes 4 bytes), append_assoc]
    exact load_append _ (by simp) (length_leBytes 2 len).symm
  rw [ziplistLength, hload, map_some, leNat_leBytes_of_lt (by omega)]

theorem setTailOffset_header (bytes tail len tail' : Nat) (c : Bytes) :
    setTailOffset (header bytes tail len ++ c) tail' = some (header bytes tail' len ++ c) := by
  rw [setTailOffset, header, header, append_assoc, append_assoc, append_assoc,
    append_assoc]
  exact store_append _ _ (length_leBytes 4 bytes).symm (by simp)

theorem storeLength_header (bytes tail len len' : Nat) (c : Bytes) :
    store (header bytes tail len ++ c) 8 (leBytes 2 len') = some (header bytes tail len' ++ c) := by
  have happ (n : Nat) : header bytes tail n ++ c =
      (leBytes 4 bytes ++ leBytes 4 tail) ++ (leBytes 2 n ++ c) := by simp [header]
  rw [happ, happ]
  exact store_append _ _ (by simp) (by simp)

/-- The counter of `n` entries: their number, or `UINT16_MAX`. -/
def CountFits (len n : Nat) : Prop := (len = n ∨ len = UINT16_MAX) ∧ len ≤ UINT16_MAX

theorem ziplistIncrLength_header {len n m : Nat} (incr : Int) (h : CountFits len n)
    (hm : (m : Int) = n + incr) (hle : m ≤ n + 1) (bytes tail : Nat) (c : Bytes) :
    ∃ len', CountFits len' m ∧
      ziplistIncrLength (header bytes tail len ++ c) incr = some (header bytes tail len' ++ c) := by
  have hmax : UINT16_MAX = 65535 := rfl
  obtain ⟨hlen, hlt⟩ := h
  rw [ziplistIncrLength, ziplistLength_header (by omega)]
  simp only [some_bind]
  by_cases hfull : len < UINT16_MAX
  · have hcount : ((len + incr) % 2 ^ 16 : Int).toNat = m := by omega
    refine ⟨m, ⟨.inl rfl, by omega⟩, ?_⟩
    rw [if_pos hfull, hcount, storeLength_header]
  · exact ⟨len, ⟨.inr (by omega), by omega⟩, if_neg hfull⟩

/-- The bytes of a ziplist with the entries `es`. -/
def ziplistOf (len : Nat) (es : List ZipEntry) : Bytes :=
  header (11 + entriesSize es) (tailOffset 10 es) len ++ (layout 0 es ++ [zipEnd])

/-- `zl` is a well-formed ziplist with the entries `es`. -/
structure WellFormed (zl : Bytes) (es : List ZipEntry) : Prop where
  fits : FieldsFit 0 es
  size : 11 + entriesSize es < 2 ^ 32
  layout : ∃ len, CountFits len es.length ∧ zl = ziplistOf len es

/-- The ziplist `zl` is well-formed and decodes to the byte strings `l`. -/
def Decodes (zl : Bytes) (l : List Bytes) : Prop :=
  ∃ es, WellFormed zl es ∧ es.map ZipEntry.value = l

end Redis
