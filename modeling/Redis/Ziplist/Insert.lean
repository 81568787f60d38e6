import Redis.Ziplist.Cascade
import Redis.Ziplist.Value

/-!
# Redis.Ziplist.Insert

`__ziplistInsert` and `ziplistPush` on well-formed ziplists.  Insertion is
right except where the field of the next entry shrinks by more bytes than
the new entry takes: the block is then shrunk before the entries behind the
position have been moved.
-/

namespace Redis

open Bytes List Option

variable {prev curlen bytes tail : Nat} {es : List ZipEntry} {q zl hole y Q zl' : Bytes}
  {x : UInt8} {nextdiff : Int}

/-! ## The abstract insertion -/

/-- The entries behind an entry of `prev` bytes when the first of them gets a
field of the narrowest width. -/
def refit (prev : Nat) : List ZipEntry → List ZipEntry
  | [] => []
  | e :: es =>
    e.setWide (decide (zipBiglen ≤ prev)) :: widen (e.setWide (decide (zipBiglen ≤ prev))).rawLen es

/-- The offset of the entry at an index. -/
def entryOffset (es : List ZipEntry) (i : Nat) : Nat := 10 + entriesSize (es.take i)

/-- The size of the entry for `s` at the index `i`. -/
def insertReqlen (es : List ZipEntry) (i : Nat) (s : Bytes) : Nat :=
  zipReqlen s (lastLen 0 (es.take i))

/-- The size of the ziplist with `s` inserted at the index `i`. -/
def insertSize (es : List ZipEntry) (i : Nat) (s : Bytes) : Nat :=
  11 + entriesSize (es.take i) + insertReqlen es i s +
    entriesSize (refit (insertReqlen es i s) (es.drop i))

theorem map_value_refit (prev : Nat) (es : List ZipEntry) :
    (refit prev es).map ZipEntry.value = es.map ZipEntry.value := by
  cases es with
  | nil => rfl
  | cons e es => simp [refit, map_value_widen]

theorem fieldFits_narrow (h : prev < 2 ^ 32) : FieldFits (decide (zipBiglen ≤ prev)) prev := by
  refine ⟨h, ?_⟩
  by_cases hbig : zipBiglen ≤ prev
  · exact .inr (decide_eq_true hbig)
  · exact .inl (by omega)

theorem fieldsFit_refit {v : Nat} (h : FieldsFit v es)
    (hsize : prev + entriesSize (refit prev es) < 2 ^ 32) : FieldsFit prev (refit prev es) := by
  cases es with
  | nil => trivial
  | cons e es =>
    simp only [refit, entriesSize_cons] at hsize
    exact ⟨fieldFits_narrow (by omega), fieldsFit_widen h.2 (by omega) (by omega)⟩

theorem lastLen_le (l : List ZipEntry) : lastLen 0 l ≤ entriesSize l := by
  cases l.eq_nil_or_concat' with
  | inl h => simp [h]
  | inr h =>
    obtain ⟨init, last, rfl⟩ := h
    simp [lastLen_append]

theorem fieldsFit_insert {l r : List ZipEntry} {new : ZipEntry} (hfits : FieldsFit 0 (l ++ r))
    (hwide : new.wide = decide (zipBiglen ≤ lastLen 0 l))
    (hnew : 11 + entriesSize (l ++ new :: refit new.rawLen r) < 2 ^ 32) :
    FieldsFit 0 (l ++ new :: refit new.rawLen r) := by
  have hle := lastLen_le l
  simp only [entriesSize_append, entriesSize_cons] at hnew
  rw [fieldsFit_append] at hfits ⊢
  refine ⟨hfits.1, ?_, fieldsFit_refit hfits.2 (by omega)⟩
  rw [hwide]
  exact fieldFits_narrow (by omega)

theorem insertIdx_length_append {α : Type} (l r : List α) (a : α) :
    (l ++ r).insertIdx l.length a = l ++ a :: r := by
  induction l with
  | nil => simp
  | cons b l ih => simp [ih]

/-! ## Reading the position -/

theorem ziplistPrevlen_eq {l r : List ZipEntry} (hfits : FieldsFit 0 (l ++ r))
    (hsize : 11 + entriesSize (l ++ r) < 2 ^ 32) (bytes len : Nat) :
    ziplistPrevlen (header bytes (tailOffset 10 (l ++ r)) len ++ (layout 0 (l ++ r) ++ [zipEnd]))
      (10 + entriesSize l) = some (lastLen 0 l) := by
  generalize hhd : header bytes (tailOffset 10 (l ++ r)) len = hd
  have hlen : hd.length = 10 := by simp [← hhd]
  have hp : 10 + entriesSize l = (hd ++ layout 0 l).length := by simp [hlen]
  rw [fieldsFit_append] at hfits
  cases r with
  | cons e r =>
    have hbuf : hd ++ (layout 0 (l ++ e :: r) ++ [zipEnd]) =
        (hd ++ layout 0 l) ++ (e.bytes (lastLen 0 l) ++ (layout e.rawLen r ++ [zipEnd])) := by
      simp [layout_append, layout]
    obtain ⟨b, hb, hne⟩ := getElem?_entry hp hfits.2.1 (layout e.rawLen r ++ [zipEnd])
    rw [ziplistPrevlen, hbuf, hb]
    simp only [some_bind, ne_eq, hne, not_false_eq_true, if_true,
      zipDecodePrevlen_append hp hfits.2.1, Option.pure_def]
  | nil =>
    rw [append_nil] at hhd hsize ⊢
    have hend : (hd ++ (layout 0 l ++ [zipEnd]))[10 + entriesSize l]? = some zipEnd := by
      rw [← append_assoc]
      exact getElem?_append_length zipEnd [] hp
    have htail : ziplistTailOffset (hd ++ (layout 0 l ++ [zipEnd])) = some (tailOffset 10 l) := by
      have := tailOffset_lt 10 l
      rw [← hhd]
      exact ziplistTailOffset_header (by omega) _ _ _
    rw [ziplistPrevlen, hend]
    simp only [bind_eq_bind, bind_some, ne_eq, not_true_eq_false, if_false, htail]
    cases l.eq_nil_or_concat with
    | inl hl =>
      subst hl
      rw [tailOffset, List.dropLast_nil, entriesSize_nil, layout, nil_append,
        getElem?_append_length zipEnd [] hlen.symm]
      simp
    | inr hl =>
      obtain ⟨init, last, rfl⟩ := hl
      rw [concat_eq_append, fieldsFit_append] at hfits
      have htailp : tailOffset 10 (init ++ [last]) = (hd ++ layout 0 init).length := by
        simp [tailOffset, hlen]
      have hbuf : hd ++ (layout 0 (init ++ [last]) ++ [zipEnd]) =
          (hd ++ layout 0 init) ++ (last.bytes (lastLen 0 init) ++ [zipEnd]) := by
        simp [layout_append, layout]
      obtain ⟨b, hb, hne⟩ := getElem?_entry htailp hfits.1.2.1 [zipEnd]
      rw [concat_eq_append, hbuf, hb]
      simp only [bind_some, hne, not_false_eq_true, if_true,
        zipRawEntryLength_append htailp hfits.1.2.1, lastLen_append, lastLen_cons, lastLen_nil]

/-! ## Making room and writing -/

theorem insert_write (q hole c : Bytes) (prev : Nat) {new : ZipEntry} {len n : Nat}
    (hwide : new.wide = decide (zipBiglen ≤ prev))
    (hhole : hole.length = new.rawLen) (hlen : CountFits len n) (bytes tail : Nat) :
    ∃ len', CountFits len' (n + 1) ∧
      (store (header bytes tail len ++ (q ++ (hole ++ c))) (10 + q.length)
        (zipPrevEncodeLength prev ++ new.body)).bind (ziplistIncrLength · 1) =
        some (header bytes tail len' ++ (q ++ (new.bytes prev ++ c))) := by
  obtain ⟨len', hlen', hincr⟩ := ziplistIncrLength_header (m := n + 1) 1 hlen
    (by omega) (by omega) bytes tail (q ++ (new.bytes prev ++ c))
  have hnew : zipPrevEncodeLength prev ++ new.body = new.bytes prev := by
    rw [zipPrevEncodeLength_eq, ZipEntry.bytes, hwide]
  have hstore := store_append (a := header bytes tail len ++ q) (b := hole)
    (p := 10 + q.length) (new.bytes prev) c (by simp) (by simp [hhole])
  simp only [append_assoc] at hstore
  exact ⟨len', hlen', by rw [hnew, hstore, bind_some, hincr]⟩

/-- The offset of the tail when the entry behind `base` has changed by
`nextdiff` bytes. -/
theorem tailOffset_setWide (e : ZipEntry) {r : List ZipEntry} (wide : Bool) (base : Nat)
    (hr : r ≠ []) : (tailOffset base (e.setWide wide :: r) : Int) =
      tailOffset base (e :: r) + ((fieldLen wide : Int) - fieldLen e.wide) := by
  rw [tailOffset_cons base _ r hr, tailOffset_cons base _ r hr]
  simp only [tailOffset, ZipEntry.rawLen, ZipEntry.setWide_wide, ZipEntry.setWide_body]
  omega

variable {Y hd t : Bytes} {e' : ZipEntry} {reqlen : Nat}

/-- The offset of the tail is corrected by `nextdiff` unless the entry at `p`
is the last one. -/
theorem adjustTail {e : ZipEntry} (bytes tail len : Nat) (nextdiff : Int) {u p : Nat}
    (hp : p = 10 + q.length) (hfit : FieldFits e.wide u) (hx : t[0]? = some x)
    (hzl : zl = header bytes tail len ++ (q ++ (e.bytes u ++ t))) :
    ((zipEntry zl p).bind fun tail => (zl[p + tail.headersize + tail.len]?).bind fun b =>
      if b ≠ zipEnd then (ziplistTailOffset zl).bind fun tailoff =>
        setTailOffset zl ((tailoff + nextdiff) % 2 ^ 32).toNat else some zl) =
      some (header bytes (if x = zipEnd then tail
          else (((tail % 2 ^ 32 : Nat) + nextdiff) % 2 ^ 32).toNat) len ++ (q ++ (e.bytes u ++ t))) := by
  have hentry := zipEntry_append (a := header bytes tail len ++ q) (p := p) (by simp [hp]) hfit t
  have hbyte := getElem?_append_add (header bytes tail len ++ (q ++ e.bytes u)) t 0
  have hnext : (header bytes tail len ++ (q ++ e.bytes u)).length + 0 = p + e.rawLen := by
    simp [hp]
    omega
  rw [hnext, hx] at hbyte
  simp only [append_assoc, ← hzl] at hentry hbyte
  simp only [hentry, bind_some, Nat.add_assoc p, ZipEntry.headersize_add_len, hbyte]
  by_cases hend : x = zipEnd
  · rw [if_neg (by simpa using hend), if_pos hend, hzl]
  · rw [if_pos hend, if_neg hend, hzl, ziplistTailOffset_header_mod, bind_some,
      setTailOffset_header]

/-- The correction gives the offset of the tail for an entry with a field of
another width. -/
theorem tailOffset_adjust {e : ZipEntry} {r : List ZipEntry} (wide : Bool) (base : Nat)
    (hfits : FieldsFit e.rawLen r) (hsize : base + entriesSize (e.setWide wide :: r) < 2 ^ 32) :
    ∃ x, (layout e.rawLen r ++ [zipEnd])[0]? = some x ∧
      (if x = zipEnd then tailOffset base (e :: r)
        else ((((tailOffset base (e :: r)) % 2 ^ 32 : Nat) +
          ((fieldLen wide : Int) - fieldLen e.wide)) % 2 ^ 32).toNat) =
        tailOffset base (e.setWide wide :: r) := by
  cases r with
  | nil => exact ⟨zipEnd, rfl, by simp [tailOffset]⟩
  | cons f r =>
    obtain ⟨b, hb, hne⟩ := head_prevField_ne hfits.1 (f.body ++ (layout f.rawLen r ++ [zipEnd]))
    refine ⟨b, by simpa [layout, ZipEntry.bytes] using hb, ?_⟩
    have hnew := tailOffset_setWide e wide base (cons_ne_nil f r)
    have hlt := tailOffset_lt base (e.setWide wide :: f :: r)
    rw [if_neg hne]
    omega

/-- What follows the move: the field of the entry moved, and the offset of the
tail. -/
theorem makeRoom_bytes {e : ZipEntry} {len : Nat} {wide : Bool}
    (hwide : wide = decide (zipBiglen ≤ reqlen)) (hreq : reqlen < 2 ^ 32) (htail : tail < 2 ^ 32)
    (hmove : move zl (10 + q.length + reqlen) ((10 + q.length : Nat) - nextdiff).toNat
      ((curlen : Int) - (10 + q.length : Nat) - 1 + nextdiff).toNat =
        some (header bytes tail len ++ (q ++ (hole ++ (y ++ (e.body ++ t))))))
    (hhole : hole.length = reqlen) (hy : y.length = fieldLen wide) (hx : t[0]? = some x) :
    ziplistMakeRoom zl curlen (10 + q.length) reqlen nextdiff =
      some (header bytes (if x = zipEnd then tail + reqlen
          else ((((tail + reqlen) % 2 ^ 32 : Nat) + nextdiff) % 2 ^ 32).toNat) len ++
        (q ++ (hole ++ ((e.setWide wide).bytes reqlen ++ t)))) := by
  have hfit : FieldFits (e.setWide wide).wide reqlen := by
    rw [ZipEntry.setWide_wide, hwide]
    exact fieldFits_narrow hreq
  have hfield : zipPrevEncodeLength reqlen = prevField wide reqlen := by
    rw [zipPrevEncodeLength_eq, hwide]
  -- The field written, the entry reads as the one with the new width.
  have hstore := store_append (a := header bytes tail len ++ (q ++ hole)) (b := y)
    (p := 10 + q.length + reqlen) (prevField wide reqlen) (e.body ++ t)
    (by simp [hhole]; omega) (by simp [hy])
  have hbytes : prevField wide reqlen ++ (e.body ++ t) = (e.setWide wide).bytes reqlen ++ t := by
    simp [ZipEntry.bytes]
  rw [hbytes] at hstore
  have hadjust := adjustTail (q := q ++ hole) bytes (tail + reqlen) len nextdiff
    (p := 10 + q.length + reqlen) (by simp [hhole]; omega) hfit hx rfl
  simp only [append_assoc] at hstore hadjust
  rw [ziplistMakeRoom, hmove]
  simp only [bind_eq_bind, bind_some, hfield, hstore,
    ziplistTailOffset_header htail, setTailOffset_header, Option.pure_def]
  exact hadjust

/-- `makeRoom_bytes` where the entries behind the position are in place. -/
theorem makeRoom_of_move {e : ZipEntry} {r : List ZipEntry} (curlen : Nat) {len : Nat}
    {wide : Bool} (hwide : wide = decide (zipBiglen ≤ reqlen))
    (hmove : move zl (10 + q.length + reqlen)
      ((10 + q.length : Nat) - ((fieldLen wide : Int) - fieldLen e.wide)).toNat
      ((curlen : Int) - (10 + q.length : Nat) - 1 +
        ((fieldLen wide : Int) - fieldLen e.wide)).toNat =
        some (header bytes (tailOffset (10 + q.length) (e :: r)) len ++
          (q ++ (hole ++ (y ++ (e.body ++ (layout e.rawLen r ++ [zipEnd])))))))
    (hhole : hole.length = reqlen) (hy : y.length = fieldLen wide) (hfits : FieldsFit e.rawLen r)
    (htail : tailOffset (10 + q.length) (e :: r) < 2 ^ 32)
    (hsize : 11 + q.length + reqlen + entriesSize (e.setWide wide :: r) < 2 ^ 32) :
    ziplistMakeRoom zl curlen (10 + q.length) reqlen ((fieldLen wide : Int) - fieldLen e.wide) =
      some (header bytes (tailOffset (10 + q.length + reqlen) (e.setWide wide :: r)) len ++
        (q ++ (hole ++ ((e.setWide wide).bytes reqlen ++ (layout e.rawLen r ++ [zipEnd]))))) := by
  have hbase : tailOffset (10 + q.length + reqlen) (e :: r) =
      tailOffset (10 + q.length) (e :: r) + reqlen := by
    simp only [tailOffset]
    omega
  obtain ⟨x, hx, hoff⟩ := tailOffset_adjust wide (10 + q.length + reqlen) hfits
    (by omega)
  rw [hbase] at hoff
  rw [makeRoom_bytes hwide (by omega) htail hmove hhole hy hx, hoff]

/-- What the move reads: the body of the next entry and what follows, behind
as many bytes as its new field takes. -/
theorem load_room (hhd : hd.length = 10) (e : ZipEntry) (wide : Bool) (prev : Nat) (c t : Bytes) :
    ∃ y : Bytes, y.length = fieldLen wide ∧
      load (hd ++ (q ++ (prevField e.wide prev ++ (e.body ++ (c ++ t)))))
        ((10 + q.length : Nat) - ((fieldLen wide : Int) - fieldLen e.wide)).toNat
        (((11 + q.length + e.rawLen + c.length : Nat) : Int) - (10 + q.length : Nat) - 1 +
          ((fieldLen wide : Int) - fieldLen e.wide)).toNat = some (y ++ (e.body ++ c)) := by
  generalize ha : hd ++ (q ++ prevField e.wide prev) = a
  have hlen : a.length = 10 + q.length + fieldLen e.wide := by
    simp [← ha, hhd]
    omega
  have hle : fieldLen wide ≤ a.length := by
    have : fieldLen wide ≤ 5 := by cases wide <;> simp [fieldLen]
    omega
  have hy : (a.drop (a.length - fieldLen wide)).length = fieldLen wide := by
    rw [length_drop]
    omega
  refine ⟨a.drop (a.length - fieldLen wide), hy, ?_⟩
  have hbuf : hd ++ (q ++ (prevField e.wide prev ++ (e.body ++ (c ++ t)))) =
      a.take (a.length - fieldLen wide) ++
        ((a.drop (a.length - fieldLen wide) ++ (e.body ++ c)) ++ t) := by
    simp only [append_assoc]
    rw [← append_assoc (a.take _), take_append_drop, ← ha]
    simp
  rw [hbuf]
  refine load_append t ?_ ?_
  · rw [length_take]
    omega
  · simp only [length_append, hy, ZipEntry.rawLen]
    omega

/-- The move that makes room for `reqlen` bytes: the block holds as many bytes
as the list needs with them. -/
theorem move_room (hhd : hd.length = 10) (q : Bytes) (e : ZipEntry) (wide : Bool)
    (prev reqlen : Nat) (c : Bytes) {junk : Bytes}
    (hjunk : (junk.length : Int) = reqlen + ((fieldLen wide : Int) - fieldLen e.wide)) :
    ∃ hole y : Bytes, hole.length = reqlen ∧ y.length = fieldLen wide ∧
      move (hd ++ (q ++ (prevField e.wide prev ++ (e.body ++ (c ++ (junk ++ [zipEnd]))))))
        (10 + q.length + reqlen)
        ((10 + q.length : Nat) - ((fieldLen wide : Int) - fieldLen e.wide)).toNat
        (((11 + q.length + e.rawLen + c.length : Nat) : Int) - (10 + q.length : Nat) - 1 +
          ((fieldLen wide : Int) - fieldLen e.wide)).toNat =
        some (hd ++ (q ++ (hole ++ (y ++ (e.body ++ (c ++ [zipEnd])))))) := by
  obtain ⟨y, hy, hload⟩ := load_room (q := q) hhd e wide prev c (junk ++ [zipEnd])
  generalize hm : prevField e.wide prev ++ (e.body ++ (c ++ junk)) = m
  have hlen : m.length = reqlen + (y ++ (e.body ++ c)).length := by
    simp only [← hm, length_append, length_prevField, hy]
    omega
  have hstore := store_append_take (a := hd ++ q) (m := m) (p := 10 + q.length + reqlen)
    (k := reqlen) (y ++ (e.body ++ c)) [zipEnd] (by simp [hhd]) hlen
  have hbuf : hd ++ (q ++ (prevField e.wide prev ++ (e.body ++ (c ++ (junk ++ [zipEnd]))))) =
      (hd ++ q) ++ (m ++ [zipEnd]) := by simp [← hm]
  refine ⟨m.take reqlen, y, by rw [length_take]; omega, hy, ?_⟩
  rw [move_eq hload, hbuf, hstore]
  simp

/-! ## Correctness -/

theorem ziplistInsert_nil (fill : Nat → UInt8) {l : List ZipEntry} {new : ZipEntry}
    {s : Bytes} {len : Nat} (hfits : FieldsFit 0 l) (hlen : CountFits len l.length)
    (hbody : zipBody s = some new.body) (hwide : new.wide = decide (zipBiglen ≤ lastLen 0 l))
    (hsize : 11 + entriesSize (l ++ [new]) < 2 ^ 32) :
    ∃ len', CountFits len' (l.length + 1) ∧
      ziplistInsert fill (ziplistOf len l) (10 + entriesSize l) s =
        some (ziplistOf len' (l ++ [new])) := by
  have hreq : zipReqlen s (lastLen 0 l) = new.rawLen := by
    rw [zipReqlen_eq hbody, zipPrevEncodeLengthSize_eq, ZipEntry.rawLen, hwide]
  simp only [entriesSize_append, entriesSize_cons, entriesSize_nil, Nat.add_zero] at hsize
  obtain ⟨junk, hjunk, hend, hresize⟩ := ziplistResize_grow fill (11 + entriesSize l)
    (tailOffset 10 l) len new.rawLen (layout 0 l) (by simp; omega)
  obtain ⟨len', hlen', hwrite⟩ := insert_write (layout 0 l) junk [zipEnd]
    (lastLen 0 l) hwide hjunk hlen (11 + entriesSize l + new.rawLen) (10 + entriesSize l)
  have hprev := ziplistPrevlen_eq (l := l) (r := []) (by simpa using hfits) (by simp; omega)
    (11 + entriesSize l) len
  rw [append_nil] at hprev
  rw [length_layout] at hresize hwrite
  have hp (bytes tail : Nat) : 10 + entriesSize l = (header bytes tail len ++ layout 0 l).length := by
    simp
  have hbyte := getElem?_append_length zipEnd [] (hp (11 + entriesSize l) (tailOffset 10 l))
  have hbyte' := getElem?_append_add (header (11 + entriesSize l + new.rawLen) (tailOffset 10 l) len
    ++ layout 0 l) (junk ++ [zipEnd]) 0
  rw [Nat.add_zero, ← hp, hend] at hbyte'
  simp only [append_assoc] at hbyte hbyte'
  have hnewlen : ((11 + entriesSize l : Nat) + new.rawLen + 0 : Int).toNat =
      11 + entriesSize l + new.rawLen := by omega
  refine ⟨len', hlen', ?_⟩
  rw [ziplistInsert, ziplistOf, ziplistBytes_header (by omega)]
  simp only [bind_eq_bind, bind_some, hprev, hreq, hbyte, ne_eq, not_true_eq_false,
    if_false, hnewlen, hresize, hbyte', setTailOffset_header, hbody, hwrite]
  simp only [ziplistOf, tailOffset, layout_append, layout, entriesSize_append, entriesSize_cons,
    entriesSize_nil, dropLast_concat, append_assoc, Nat.add_assoc, append_nil,
    Nat.add_zero]

section InFront

variable (fill : Nat → UInt8) (len : Nat) {l r : List ZipEntry} {e new : ZipEntry} {s : Bytes}
  {wide : Bool}

theorem layout_insert (l : List ZipEntry) (e : ZipEntry) (r : List ZipEntry) :
    layout 0 (l ++ e :: r) =
      layout 0 l ++ (prevField e.wide (lastLen 0 l) ++ (e.body ++ layout e.rawLen r)) := by
  simp [layout_append, layout, ZipEntry.bytes]

/-! ## A block shrunk too early

With a five-byte field behind the position and a new entry of two or three
bytes, the block is smaller than before, and its last bytes are cut off
before they have been moved. -/

/-- The bytes from the position on, without the last `k`: they still start
with the five-byte field. -/
theorem short_resize {k : Nat} {rest d : Bytes} (he : e.wide = true)
    (hsize : 11 + entriesSize (l ++ e :: r) < 2 ^ 32)
    (hrest : e.bytes (lastLen 0 l) ++ layout e.rawLen r = rest ++ d) (hd : d.length = k)
    (hk : 0 < k) (hk' : k ≤ 2) :
    ziplistResize fill (ziplistOf len (l ++ e :: r)) (11 + entriesSize (l ++ e :: r) - k) =
        some (header (11 + entriesSize (l ++ e :: r) - k) (tailOffset 10 (l ++ e :: r)) len ++
          (layout 0 l ++ (rest ++ [zipEnd]))) ∧
      ∃ rest', rest = UInt8.ofNat zipBiglen :: rest' := by
  have hlayout : layout 0 (l ++ e :: r) = (layout 0 l ++ rest) ++ d := by
    rw [layout_append, layout, hrest, append_assoc]
  have hlength := congrArg List.length hlayout
  simp only [length_layout, length_append] at hlength
  have hresize := ziplistResize_shrink fill (11 + entriesSize (l ++ e :: r))
    (tailOffset 10 (l ++ e :: r)) len (layout 0 l ++ rest) (d ++ [zipEnd])
    (by simp only [length_append, length_layout]; omega) (by simp)
  have hlen : 11 + (layout 0 l ++ rest).length = 11 + entriesSize (l ++ e :: r) - k := by
    simp only [length_append, length_layout]
    omega
  have hzl : ziplistOf len (l ++ e :: r) = header (11 + entriesSize (l ++ e :: r))
      (tailOffset 10 (l ++ e :: r)) len ++ (layout 0 l ++ rest ++ (d ++ [zipEnd])) := by
    rw [ziplistOf, hlayout, append_assoc (layout 0 l ++ rest)]
  rw [hlen, ← hzl, append_assoc] at hresize
  refine ⟨hresize, ?_⟩
  have hlong := congrArg List.length hrest
  have hpos := e.body_length_pos
  simp only [length_append, ZipEntry.length_bytes, ZipEntry.rawLen, he, fieldLen,
    if_true] at hlong
  cases rest with
  | nil =>
    simp at hlong
    omega
  | cons b rest =>
    have hhead := congrArg head? hrest
    simp only [ZipEntry.bytes, prevField, he, if_true, zipPrevEncodeLengthForceLarge,
      cons_append, head?_cons, Option.some.injEq] at hhead
    exact ⟨rest, by rw [hhead]⟩

/-- A new entry of three bytes: the terminator of the shrunk block is moved
as if it were the last byte of the entries. -/
theorem short_move (he : e.wide = true) (hsize : 11 + entriesSize (l ++ e :: r) < 2 ^ 32)
    (hnew : new.rawLen = 3) (hlast : e.body ++ layout e.rawLen r = Q ++ [x]) :
    ∃ (zl hole y : Bytes) (b : UInt8),
      ziplistResize fill (ziplistOf len (l ++ e :: r)) ((11 + entriesSize (l ++ e :: r) : Nat) +
        new.rawLen + ((fieldLen false : Int) - fieldLen e.wide)).toNat = some zl ∧
      zl[10 + entriesSize l]? = some b ∧ b ≠ zipEnd ∧ hole.length = new.rawLen ∧
      y.length = fieldLen false ∧
      move zl (10 + entriesSize l + new.rawLen)
        ((10 + entriesSize l : Nat) - ((fieldLen false : Int) - fieldLen e.wide)).toNat
        (((11 + entriesSize (l ++ e :: r) : Nat) : Int) - (10 + entriesSize l : Nat) - 1 +
          ((fieldLen false : Int) - fieldLen e.wide)).toNat =
        some (header (11 + entriesSize l + new.rawLen + (e.setWide false).rawLen + entriesSize r)
          (tailOffset 10 (l ++ e :: r)) len ++
            (layout 0 l ++ (hole ++ (y ++ (Q ++ ([zipEnd] ++ [zipEnd])))))) := by
  have hrest : e.bytes (lastLen 0 l) ++ layout e.rawLen r =
      (prevField true (lastLen 0 l) ++ Q) ++ [x] := by
    rw [ZipEntry.bytes, he, append_assoc, hlast, append_assoc]
  have hQ := congrArg List.length hlast
  have hpos := e.body_length_pos
  simp only [length_append, length_layout, length_singleton] at hQ
  obtain ⟨hresize, rest', hrest'⟩ := short_resize fill len (k := 1) he hsize hrest rfl
    (by omega) (by omega)
  have hdiff : (fieldLen false : Int) - fieldLen e.wide = -4 := by simp [he, fieldLen]
  have hraw : e.rawLen = 5 + e.body.length := by simp [ZipEntry.rawLen, he, fieldLen]
  have hraw' : (e.setWide false).rawLen = 1 + e.body.length := by simp [ZipEntry.rawLen, fieldLen]
  have hbytes : 11 + entriesSize (l ++ e :: r) - 1 =
      11 + entriesSize l + new.rawLen + (e.setWide false).rawLen + entriesSize r := by
    rw [entriesSize_append, entriesSize_cons, hnew, hraw, hraw']
    omega
  have harg : ((11 + entriesSize (l ++ e :: r) : Nat) + new.rawLen + (-4) : Int).toNat =
      11 + entriesSize (l ++ e :: r) - 1 := by
    rw [hnew]
    omega
  have hbyte := getElem?_append_length (a := header (11 + entriesSize (l ++ e :: r) - 1)
    (tailOffset 10 (l ++ e :: r)) len ++ layout 0 l) (p := 10 + entriesSize l)
    (UInt8.ofNat zipBiglen) (rest' ++ [zipEnd]) (by simp)
  rw [append_assoc, ← cons_append, ← hrest'] at hbyte
  rw [hdiff, harg, hresize]
  refine ⟨_, (prevField true (lastLen 0 l) ++ Q).take 3, (prevField true (lastLen 0 l)).drop 4, _,
    rfl, hbyte, by decide, ?_, ?_, ?_⟩
  · simp [hnew, fieldLen]
    omega
  · simp [fieldLen]
  · have hhd := length_header (11 + entriesSize (l ++ e :: r) - 1) (tailOffset 10 (l ++ e :: r)) len
    rw [← hbytes]
    generalize header (11 + entriesSize (l ++ e :: r) - 1) (tailOffset 10 (l ++ e :: r)) len = hd
      at hhd ⊢
    have hF := length_prevField true (lastLen 0 l)
    generalize prevField true (lastLen 0 l) = F at hF ⊢
    have hcount : (((11 + entriesSize (l ++ e :: r) : Nat) : Int) - (10 + entriesSize l : Nat) - 1 +
        (-4)).toNat = (F.drop 4 ++ (Q ++ [zipEnd])).length := by
      simp only [entriesSize_append, entriesSize_cons, hraw, length_append, length_drop,
        hF, fieldLen, length_singleton, if_true]
      omega
    have hsrc : ((10 + entriesSize l : Nat) - (-4) : Int).toNat =
        (hd ++ (layout 0 l ++ F.take 4)).length := by
      simp [hhd, hF, fieldLen]
      omega
    have hload := load_append (b := F.drop 4 ++ (Q ++ [zipEnd])) [] hsrc hcount
    have hbuf : hd ++ (layout 0 l ++ F.take 4) ++ (F.drop 4 ++ (Q ++ [zipEnd]) ++ []) =
        hd ++ (layout 0 l ++ (F ++ Q ++ [zipEnd])) := by
      simp only [append_assoc, append_nil]
      rw [← append_assoc (F.take 4), take_append_drop]
    have hstore := store_append_take (a := hd ++ layout 0 l) (m := F ++ Q)
      (p := 10 + entriesSize l + new.rawLen) (k := 3) (F.drop 4 ++ (Q ++ [zipEnd])) [zipEnd]
      (by simp [hhd, hnew]) (by simp [hF, fieldLen]; omega)
    rw [hbuf] at hload
    rw [move_eq hload]
    simpa only [append_assoc] using hstore

/-- What follows the move, where the entry behind the position is the last one:
if it returns, the last byte of the entries is lost. -/
theorem short_last (hbytes : bytes < 2 ^ 32) (htail : tail < 2 ^ 32) (hbody : e.body = Q ++ [x])
    (hhole : hole.length = 3) (hy : y.length = 1)
    (hmove : move zl (10 + q.length + 3) ((10 + q.length : Nat) - nextdiff).toNat
      ((curlen : Int) - (10 + q.length : Nat) - 1 + nextdiff).toNat =
        some (header bytes tail len ++ (q ++ (hole ++ (y ++ (Q ++ ([zipEnd] ++ [zipEnd])))))))
    (h : (ziplistMakeRoom zl curlen (10 + q.length) 3 nextdiff).bind
      (fun zl => ziplistCascadeUpdate fill zl (10 + q.length + 3)) = some zl') :
    ∃ tail', zl' = header bytes tail' len ++
      (q ++ (hole ++ (prevField false 3 ++ (Q ++ ([zipEnd] ++ [zipEnd]))))) := by
  have hp (tail : Nat) : 10 + q.length + 3 = (header bytes tail len ++ (q ++ hole)).length := by
    simp [hhole]
    omega
  have hfit : FieldFits false 3 := ⟨by omega, .inl (by decide)⟩
  have hfield : zipPrevEncodeLength 3 = prevField false 3 := rfl
  have hstore := store_append (a := header bytes tail len ++ (q ++ hole)) (b := y)
    (p := 10 + q.length + 3) (prevField false 3) (Q ++ ([zipEnd] ++ [zipEnd])) (hp _)
    (by simp [hy, fieldLen])
  have hentry := zipEntry_field (hp (tail + 3)) hfit (Q ++ ([zipEnd] ++ [zipEnd]))
  obtain ⟨b, hb, hne⟩ := head_prevField_ne hfit (Q ++ ([zipEnd] ++ [zipEnd]))
  have hbyte := getElem?_append_add (header bytes (tail + 3) len ++ (q ++ hole))
    (prevField false 3 ++ (Q ++ ([zipEnd] ++ [zipEnd]))) 0
  rw [← hp, hb] at hbyte
  simp only [append_assoc, Nat.add_zero] at hstore hentry hbyte
  rw [ziplistMakeRoom, hmove] at h
  simp only [bind_eq_bind, bind_some, hfield, hstore, ziplistTailOffset_header htail,
    setTailOffset_header, hentry] at h
  cases hdec : zipDecodeLength (Q ++ ([zipEnd] ++ [zipEnd])) 0 with
  | none => simp only [hdec, map_none, bind_none, reduceCtorEq] at h
  | some lenf =>
    have hle := e.le_decode_of_last hbody hdec
    have hnext : (header bytes (tail + 3) len ++ (q ++ (hole ++ (prevField false 3 ++
        (Q ++ ([zipEnd] ++ [zipEnd]))))))[10 + q.length + 3 + (fieldLen false + lenf.lensize) +
          lenf.len]? = if lenf.lensize + lenf.len = Q.length + 1 then some zipEnd else none := by
      split
      next heq =>
        have := getElem?_append_length (a := header bytes (tail + 3) len ++ (q ++ (hole ++
          (prevField false 3 ++ (Q ++ [zipEnd]))))) (p := 10 + q.length + 3 +
            (fieldLen false + lenf.lensize) + lenf.len) zipEnd [] (by simp [hhole]; omega)
        simpa only [append_assoc] using this
      next hgt =>
        rw [getElem?_eq_none]
        simp [hhole]
        omega
    simp only [hdec, map_some, bind_some, hnext] at h
    split at h
    next heq =>
      rw [if_pos heq] at hnext
      simp only [bind_some, ne_eq, not_true_eq_false, if_false, Option.pure_def,
        ziplistCascadeUpdate, bind_eq_bind, ziplistBytes_header hbytes,
        ziplistCascadeLoop, hbyte, hne, hentry, hdec, map_some, ← Nat.add_assoc] at h hnext
      rw [hnext] at h
      exact ⟨tail + 3, (Option.some.inj h).symm⟩
    next => simp at h

/-- The same where more entries follow: the cascade rewrites the field of the
next one and stops. -/
theorem short_more {R : Bytes} {f : ZipEntry} (hbytes : bytes < 2 ^ 32)
    (htail : tail < 2 ^ 32) (he : e.wide = true) (hf : FieldFits f.wide e.rawLen)
    (hhole : hole.length = 3) (hy : y.length = 1)
    (hmove : move zl (10 + q.length + 3) ((10 + q.length : Nat) - nextdiff).toNat
      ((curlen : Int) - (10 + q.length : Nat) - 1 + nextdiff).toNat =
        some (header bytes tail len ++ (q ++ (hole ++ (y ++ (e.body ++
          (prevField f.wide e.rawLen ++ (R ++ ([zipEnd] ++ [zipEnd])))))))))
    (h : (ziplistMakeRoom zl curlen (10 + q.length) 3 nextdiff).bind
      (fun zl => ziplistCascadeUpdate fill zl (10 + q.length + 3)) = some zl') :
    ∃ tail', zl' = header bytes tail' len ++ (q ++ (hole ++ ((e.setWide false).bytes 3 ++
      (prevField f.wide (e.setWide false).rawLen ++ (R ++ ([zipEnd] ++ [zipEnd])))))) := by
  obtain ⟨b, hb, hne⟩ := head_prevField_ne hf (R ++ ([zipEnd] ++ [zipEnd]))
  have hraw : e.rawLen = (e.setWide false).rawLen + 4 := by
    simp only [ZipEntry.rawLen, ZipEntry.setWide_wide, ZipEntry.setWide_body, he, fieldLen]
    simp
    omega
  have hfit : FieldFits (e.setWide false).wide 3 := ⟨by omega, .inl (by decide)⟩
  have hstop : ¬(zipBiglen ≤ (e.setWide false).rawLen ∧ f.wide = false) := by
    intro hgrow
    have hfit := hf.2
    rw [hgrow.2] at hfit
    simp at hfit
    omega
  rw [makeRoom_bytes (show false = decide (zipBiglen ≤ 3) by decide) (by omega) htail hmove hhole hy hb, if_neg hne,
    bind_some] at h
  generalize (((tail + 3) % 2 ^ 32 : Nat) + nextdiff : Int) % 2 ^ 32 = off at h
  have hloop := cascadeLoop_stop fill (a := header bytes off.toNat len ++ (q ++ hole))
    (u := 3) (v := e.rawLen) hfit hf hstop
    (header bytes off.toNat len ++ (q ++ (hole ++ ((e.setWide false).bytes 3 ++
      (prevField f.wide e.rawLen ++ (R ++ ([zipEnd] ++ [zipEnd]))))))).length bytes
    (R ++ ([zipEnd] ++ [zipEnd]))
  have hp : (header bytes off.toNat len ++ (q ++ hole)).length = 10 + q.length + 3 := by
    simp [hhole]
    omega
  rw [hp] at hloop
  simp only [append_assoc] at hloop
  rw [ziplistCascadeUpdate, ziplistBytes_header hbytes, some_bind,
    hloop, map_eq_some_iff] at h
  obtain ⟨_, _, rfl⟩ := h
  exact ⟨off.toNat, rfl⟩

/-! ## In front of an entry -/

section Placed

variable (hfits : FieldsFit 0 (l ++ e :: r))
  (hsize : 11 + entriesSize (l ++ e :: r) < 2 ^ 32) (hlen : CountFits len (l ++ e :: r).length)
  (hbody : zipBody s = some new.body) (hwide : new.wide = decide (zipBiglen ≤ lastLen 0 l))

include hfits hsize hbody hwide

theorem ziplistInsert_entry (hw : wide = decide (zipBiglen ≤ new.rawLen)) :
    ziplistInsert fill (ziplistOf len (l ++ e :: r)) (10 + entriesSize l) s =
      (ziplistResize fill (ziplistOf len (l ++ e :: r))
        ((11 + entriesSize (l ++ e :: r) : Nat) + new.rawLen +
          ((fieldLen wide : Int) - fieldLen e.wide)).toNat).bind fun zl =>
      (zl[10 + entriesSize l]?).bind fun b =>
      (if b ≠ zipEnd then ziplistMakeRoom zl (11 + entriesSize (l ++ e :: r)) (10 + entriesSize l)
          new.rawLen ((fieldLen wide : Int) - fieldLen e.wide)
        else setTailOffset zl (10 + entriesSize l)).bind fun zl =>
      (if (fieldLen wide : Int) - fieldLen e.wide ≠ 0 then
          ziplistCascadeUpdate fill zl (10 + entriesSize l + new.rawLen) else some zl).bind fun zl =>
      (store zl (10 + entriesSize l) (zipPrevEncodeLength (lastLen 0 l) ++ new.body)).bind
        (ziplistIncrLength · 1) := by
  have hreq : zipReqlen s (lastLen 0 l) = new.rawLen := by
    rw [zipReqlen_eq hbody, zipPrevEncodeLengthSize_eq, ZipEntry.rawLen, hwide]
  have hprev := ziplistPrevlen_eq hfits hsize (11 + entriesSize (l ++ e :: r)) len
  have hfits' := (fieldsFit_append.mp hfits).2
  have hp : 10 + entriesSize l = (header (11 + entriesSize (l ++ e :: r))
      (tailOffset 10 (l ++ e :: r)) len ++ layout 0 l).length := by simp
  have hbuf : ziplistOf len (l ++ e :: r) = (header (11 + entriesSize (l ++ e :: r))
      (tailOffset 10 (l ++ e :: r)) len ++ layout 0 l) ++
        (e.bytes (lastLen 0 l) ++ (layout e.rawLen r ++ [zipEnd])) := by
    simp [ziplistOf, layout_append, layout]
  obtain ⟨b, hb, hne⟩ := getElem?_entry hp hfits'.1 (layout e.rawLen r ++ [zipEnd])
  have hdiff : zipPrevLenByteDiff (ziplistOf len (l ++ e :: r)) (10 + entriesSize l) new.rawLen =
      some ((fieldLen wide : Int) - fieldLen e.wide) := by
    rw [zipPrevLenByteDiff, hbuf, zipDecodePrevlensize_append hp hfits'.1,
      zipPrevEncodeLengthSize_eq, ← hw]
    rfl
  have hcurlen : ziplistBytes (ziplistOf len (l ++ e :: r)) =
      some (11 + entriesSize (l ++ e :: r)) := ziplistBytes_header hsize _ _ _
  rw [← hbuf] at hb
  rw [← ziplistOf] at hprev
  rw [ziplistInsert]
  simp only [bind_eq_bind, hcurlen, bind_some, hprev, hreq, hb, ne_eq, hne,
    not_false_eq_true, if_true, hdiff, hbody]

/-- A new entry of two bytes: the move reads behind the block. -/
theorem ziplistInsert_two (he : e.wide = true) (hnew : new.rawLen = 2) :
    ziplistInsert fill (ziplistOf len (l ++ e :: r)) (10 + entriesSize l) s = none := by
  have hpos := e.body_length_pos
  generalize hX : e.bytes (lastLen 0 l) ++ layout e.rawLen r = X
  have hXlen : X.length = 5 + e.body.length + entriesSize r := by
    simp [← hX, ZipEntry.rawLen, he, fieldLen]
  obtain ⟨hresize, rest', hrest'⟩ := short_resize fill len (k := 2) he hsize
    (hX.trans (take_append_drop (X.length - 2) X).symm) (by rw [length_drop]; omega) (by omega) (by omega)
  have hdiff : (fieldLen false : Int) - fieldLen e.wide = -4 := by simp [he, fieldLen]
  have harg : ((11 + entriesSize (l ++ e :: r) : Nat) + (2 : Nat) + (-4) : Int).toNat =
      11 + entriesSize (l ++ e :: r) - 2 := by omega
  have hbyte := getElem?_append_length (a := header (11 + entriesSize (l ++ e :: r) - 2)
    (tailOffset 10 (l ++ e :: r)) len ++ layout 0 l) (p := 10 + entriesSize l)
    (UInt8.ofNat zipBiglen) (rest' ++ [zipEnd]) (by simp)
  simp only [append_assoc] at hbyte
  rw [ziplistInsert_entry fill len hfits hsize hbody hwide
    (show false = decide (zipBiglen ≤ new.rawLen) by rw [hnew]; decide), hdiff,
    hnew, harg, hresize, bind_some, hrest', cons_append, hbyte, bind_some,
    if_pos (by decide), ziplistMakeRoom, move, load, if_neg]
  · rfl
  · have hlen := congrArg List.length hrest'
    simp only [length_take, length_cons] at hlen
    simp only [length_append, length_header, length_layout, length_cons, length_nil,
      entriesSize_append, entriesSize_cons, ZipEntry.rawLen, he, fieldLen, if_true]
    omega

include hlen

/-- Insertion in front of an entry, when the move has brought the entries
behind the position to their places. -/
theorem ziplistInsert_of_move {b : UInt8} (hw : wide = decide (zipBiglen ≤ new.rawLen))
    (hnew : 11 + entriesSize (l ++ new :: refit new.rawLen (e :: r)) < 2 ^ 32)
    (hresize : ziplistResize fill (ziplistOf len (l ++ e :: r))
      ((11 + entriesSize (l ++ e :: r) : Nat) + new.rawLen +
        ((fieldLen wide : Int) - fieldLen e.wide)).toNat = some zl)
    (hb : zl[10 + entriesSize l]? = some b) (hne : b ≠ zipEnd) (hhole : hole.length = new.rawLen)
    (hy : y.length = fieldLen wide) (hmove : move zl (10 + entriesSize l + new.rawLen)
      ((10 + entriesSize l : Nat) - ((fieldLen wide : Int) - fieldLen e.wide)).toNat
      (((11 + entriesSize (l ++ e :: r) : Nat) : Int) - (10 + entriesSize l : Nat) - 1 +
        ((fieldLen wide : Int) - fieldLen e.wide)).toNat =
        some (header (11 + entriesSize l + new.rawLen + (e.setWide wide).rawLen + entriesSize r)
          (tailOffset 10 (l ++ e :: r)) len ++
            (layout 0 l ++ (hole ++ (y ++ (e.body ++ (layout e.rawLen r ++ [zipEnd]))))))) :
    ∃ len', CountFits len' ((l ++ e :: r).length + 1) ∧
      ziplistInsert fill (ziplistOf len (l ++ e :: r)) (10 + entriesSize l) s =
        some (ziplistOf len' (l ++ new :: refit new.rawLen (e :: r))) := by
  have hfits' := (fieldsFit_append.mp hfits).2
  have hinsert := ziplistInsert_entry fill len hfits hsize hbody hwide hw
  simp only [refit, ← hw, entriesSize_append, entriesSize_cons] at hsize hnew ⊢
  have hwider := entriesSize_le_widen (e.setWide wide).rawLen r
  have htail : tailOffset 10 (l ++ e :: r) = tailOffset (10 + entriesSize l) (e :: r) :=
    tailOffset_append 10 l (cons_ne_nil e r)
  have htaillt := tailOffset_lt (10 + entriesSize l) (e :: r)
  simp only [entriesSize_cons] at htaillt
  have hl : (layout 0 l).length = entriesSize l := length_layout 0 l
  rw [htail] at hmove
  have hmake := makeRoom_of_move (q := layout 0 l) (11 + entriesSize (l ++ e :: r)) hw
    (by rw [hl]; exact hmove) hhole hy hfits'.2 (by rw [hl]; omega)
    (by rw [hl, entriesSize_cons]; omega)
  have hpre : 10 + (layout 0 l ++ hole).length = 10 + entriesSize l + new.rawLen := by
    simp [hhole]
    omega
  have hpre' : 11 + (layout 0 l ++ hole).length = 11 + entriesSize l + new.rawLen := by omega
  have hcascade := cascade_of_setWide fill (layout 0 l ++ hole) e wide (u := new.rawLen) len (hw ▸ fieldFits_narrow (by omega)) hfits'.2
    (by omega) rfl
  have hfinal : 11 + entriesSize l + new.rawLen +
      entriesSize (e.setWide wide :: widen (e.setWide wide).rawLen r) < 2 ^ 32 := by
    rw [entriesSize_cons]
    omega
  rw [hpre, hpre', if_pos hfinal] at hcascade
  simp only [append_assoc] at hcascade
  obtain ⟨len', hlen', hwrite⟩ := insert_write (layout 0 l) hole
    (layout new.rawLen (e.setWide wide :: widen (e.setWide wide).rawLen r) ++ [zipEnd])
    (lastLen 0 l) hwide hhole hlen
    (11 + entriesSize l + new.rawLen +
      entriesSize (e.setWide wide :: widen (e.setWide wide).rawLen r))
    (tailOffset (10 + entriesSize l + new.rawLen)
      (e.setWide wide :: widen (e.setWide wide).rawLen r))
  refine ⟨len', hlen', ?_⟩
  rw [hl] at hmake hwrite
  rw [hinsert, hresize, bind_some, hb, bind_some, if_pos hne, hmake, bind_some,
    hcascade, bind_some, hwrite]
  simp only [ziplistOf, layout_append, layout, entriesSize_append, entriesSize_cons,
    append_assoc, Nat.add_assoc, tailOffset_append 10 l (cons_ne_nil _ _),
    tailOffset_cons _ new _ (cons_ne_nil _ _)]

/-- Insertion in front of an entry, where the block is not shrunk. -/
theorem ziplistInsert_cons (hnew : 11 + entriesSize (l ++ new :: refit new.rawLen (e :: r)) < 2 ^ 32)
    (hroom : 4 ≤ new.rawLen ∨ e.wide = false) :
    ∃ len', CountFits len' ((l ++ e :: r).length + 1) ∧
      ziplistInsert fill (ziplistOf len (l ++ e :: r)) (10 + entriesSize l) s =
        some (ziplistOf len' (l ++ new :: refit new.rawLen (e :: r))) := by
  have hfits' := (fieldsFit_append.mp hfits).2
  obtain ⟨wide, hw⟩ : ∃ wide, wide = decide (zipBiglen ≤ new.rawLen) := ⟨_, rfl⟩
  have hnewsize := hnew
  simp only [refit, ← hw, entriesSize_append, entriesSize_cons] at hnewsize
  have hwider := entriesSize_le_widen (e.setWide wide).rawLen r
  have hraw : e.rawLen = fieldLen e.wide + e.body.length := rfl
  have hraw' : (e.setWide wide).rawLen = fieldLen wide + e.body.length := rfl
  -- The size asked for is the size of the list with the new entry.
  obtain ⟨k, hk⟩ : ∃ k : Nat, (k : Int) = new.rawLen + ((fieldLen wide : Int) - fieldLen e.wide) := by
    refine ⟨(new.rawLen + ((fieldLen wide : Int) - fieldLen e.wide)).toNat, ?_⟩
    rw [Int.toNat_of_nonneg]
    have h₁ := fieldLen_pos wide
    cases hew : e.wide <;> simp_all [fieldLen] <;> omega
  have hbytes : 11 + (layout 0 (l ++ e :: r)).length + k =
      11 + entriesSize l + new.rawLen + (e.setWide wide).rawLen + entriesSize r := by
    simp
    omega
  have harg : ((11 + entriesSize (l ++ e :: r) : Nat) + new.rawLen +
      ((fieldLen wide : Int) - fieldLen e.wide)).toNat =
      11 + entriesSize l + new.rawLen + (e.setWide wide).rawLen + entriesSize r := by
    simp
    omega
  obtain ⟨junk, hjunk, _, hresize⟩ := ziplistResize_grow fill (11 + entriesSize (l ++ e :: r))
    (tailOffset 10 (l ++ e :: r)) len k (layout 0 (l ++ e :: r)) (by omega)
  rw [hbytes, ← harg, ← ziplistOf, harg, layout_insert] at hresize
  simp only [append_assoc] at hresize
  obtain ⟨hole, y, hhole, hy, hmove⟩ := move_room (length_header (11 + entriesSize l +
    new.rawLen + (e.setWide wide).rawLen + entriesSize r) (tailOffset 10 (l ++ e :: r)) len)
    (layout 0 l) e wide (lastLen 0 l) new.rawLen (layout e.rawLen r) (hjunk ▸ hk)
  obtain ⟨b, hb, hne⟩ := getElem?_entry (a := header (11 + entriesSize l + new.rawLen +
    (e.setWide wide).rawLen + entriesSize r) (tailOffset 10 (l ++ e :: r)) len ++ layout 0 l)
    (p := 10 + entriesSize l) (by simp) hfits'.1 (layout e.rawLen r ++ (junk ++ [zipEnd]))
  simp only [ZipEntry.bytes, append_assoc] at hb
  have hcurlen : 11 + (layout 0 l).length + e.rawLen + (layout e.rawLen r).length =
      11 + entriesSize (l ++ e :: r) := by
    simp
    omega
  rw [hcurlen, length_layout] at hmove
  exact ziplistInsert_of_move fill len hfits hsize hlen hbody hwide hw hnew (harg ▸ hresize) hb hne
    hhole hy hmove

/-- A new entry of three bytes, where the last byte happens to be the
terminator's. -/
theorem ziplistInsert_three (hnew : 11 + entriesSize (l ++ new :: refit new.rawLen (e :: r)) < 2 ^ 32)
    (he : e.wide = true) (hreq : new.rawLen = 3)
    (hlast : e.body ++ layout e.rawLen r = Q ++ [zipEnd]) :
    ∃ len', CountFits len' ((l ++ e :: r).length + 1) ∧
      ziplistInsert fill (ziplistOf len (l ++ e :: r)) (10 + entriesSize l) s =
        some (ziplistOf len' (l ++ new :: refit new.rawLen (e :: r))) := by
  obtain ⟨zl, hole, y, b, hresize, hb, hne, hhole, hy, hmove⟩ := short_move fill len he
    hsize hreq hlast
  rw [← append_assoc Q, ← hlast, append_assoc] at hmove
  exact ziplistInsert_of_move fill len hfits hsize hlen hbody hwide (by rw [hreq]; decide) hnew hresize
    hb hne hhole hy hmove

/-- A new entry of three bytes: if insertion returns, the last byte of the
entries is a terminator. -/
theorem ziplistInsert_three_bytes (he : e.wide = true) (hreq : new.rawLen = 3) (hlast : e.body ++ layout e.rawLen r = Q ++ [x])
    (h : ziplistInsert fill (ziplistOf len (l ++ e :: r)) (10 + entriesSize l) s = some zl') :
    ∃ (bytes tail len' : Nat) (Y : Bytes),
      layout 0 (l ++ new :: refit new.rawLen (e :: r)) = Y ++ [x] ∧
      zl' = header bytes tail len' ++ ((Y ++ [zipEnd]) ++ [zipEnd]) := by
  obtain ⟨zl, hole, y, b, hresize, hb, hne, hhole, hy, hmove⟩ := short_move fill len he
    hsize hreq hlast
  have hfits' := (fieldsFit_append.mp hfits).2
  have hl : (layout 0 l).length = entriesSize l := length_layout 0 l
  have hdiff : (fieldLen false : Int) - fieldLen e.wide ≠ 0 := by simp [he, fieldLen]
  rw [ziplistInsert_entry fill len hfits hsize hbody hwide
    (show false = decide (zipBiglen ≤ new.rawLen) by rw [hreq]; decide),
    hresize, bind_some, hb, bind_some, if_pos hne] at h
  simp only [if_pos hdiff, ← bind_assoc, ← hl, hreq] at h
  obtain ⟨zl₂, hzl₂, hstore⟩ := bind_eq_some_iff.mp (bind_assoc .. ▸ h)
  have htail := tailOffset_lt 10 (l ++ e :: r)
  have hraw : e.rawLen = (e.setWide false).rawLen + 4 := by
    simp only [ZipEntry.rawLen, ZipEntry.setWide_wide, ZipEntry.setWide_body, he, fieldLen]
    simp
    omega
  have hbytes : 11 + entriesSize l + new.rawLen + (e.setWide false).rawLen + entriesSize r <
      2 ^ 32 := by
    rw [entriesSize_append, entriesSize_cons] at hsize
    omega
  rw [hreq] at hhole
  rw [← hl, hreq] at hmove hbytes
  have hnarrow : decide (zipBiglen ≤ 3) = false := by decide
  have hcur : ∃ (tail' : Nat) (Y : Bytes), layout 3 (refit 3 (e :: r)) = Y ++ [x] ∧
      zl₂ = header (11 + (layout 0 l).length + 3 + (e.setWide false).rawLen + entriesSize r) tail' len ++
        (layout 0 l ++ (hole ++ (Y ++ ([zipEnd] ++ [zipEnd])))) := by
    cases r with
    | nil =>
      rw [layout, append_nil] at hlast
      obtain ⟨tail', hzl⟩ := short_last fill len hbytes (by omega) hlast hhole hy hmove hzl₂
      refine ⟨tail', prevField false 3 ++ Q, ?_, by rw [hzl]; simp⟩
      simp [refit, widen, layout, ZipEntry.bytes, hnarrow, hlast]
    | cons f r =>
      obtain ⟨R, x', hR⟩ : ∃ R x', f.body ++ layout f.rawLen r = R ++ [x'] := by
        have hne : f.body ++ layout f.rawLen r ≠ [] := by
          have := f.body_length_pos
          intro hnil
          simp at hnil
          simp [hnil.1] at this
        exact (List.eq_nil_or_concat' _).resolve_left hne
      have hQ : e.body ++ (prevField f.wide e.rawLen ++ R) ++ [x'] = Q ++ [x] := by
        rw [← hlast, layout, ZipEntry.bytes, append_assoc (prevField _ _), hR]
        simp
      obtain ⟨hQ, hx⟩ := append_inj' hQ rfl
      rw [List.singleton_inj] at hx
      subst hQ hx
      simp only [append_assoc] at hmove
      obtain ⟨tail', hzl⟩ := short_more fill len hbytes (by omega) he hfits'.2.1 hhole hy hmove hzl₂
      refine ⟨tail', (e.setWide false).bytes 3 ++
        (prevField f.wide (e.setWide false).rawLen ++ R), ?_, by rw [hzl]; simp⟩
      rw [refit, hnarrow, widen_of_fieldsFit hfits'.2 (by omega)]
      simp [layout, ZipEntry.bytes, hR]
  obtain ⟨tail', Y, hY, rfl⟩ := hcur
  obtain ⟨len', _, hwrite⟩ := insert_write (layout 0 l) hole
    (Y ++ ([zipEnd] ++ [zipEnd])) (lastLen 0 l) hwide (by rw [hhole, hreq]) hlen
    (11 + (layout 0 l).length + 3 + (e.setWide false).rawLen + entriesSize r) tail'
  rw [hwrite, Option.some.injEq] at hstore
  refine ⟨11 + (layout 0 l).length + 3 + (e.setWide false).rawLen + entriesSize r, tail', len',
    layout 0 l ++ (new.bytes (lastLen 0 l) ++ Y), ?_, hstore.symm.trans ?_⟩
  · rw [layout_append, layout, hreq, hY]
    simp
  · simp

end Placed

end InFront

/-! ## The bytes determine the entries -/

theorem entry_eq_of_bytes {e : ZipEntry} {c c' : Bytes} (h : FieldFits e.wide prev)
    (h' : FieldFits e'.wide prev) (hbytes : e.bytes prev ++ c = e'.bytes prev ++ c') : e = e' := by
  have hread := ZipEntry.zipEntry_bytes h c
  rw [hbytes, ZipEntry.zipEntry_bytes h', Option.some.injEq] at hread
  have hfield : fieldLen e'.wide = fieldLen e.wide := congrArg Zlentry.prevrawlensize hread
  have hwide : e.wide = e'.wide := (fieldLen_injective hfield).symm
  have hlen : e.rawLen = e'.rawLen := by
    rw [← e.headersize_add_len prev, ← e'.headersize_add_len prev, hread]
  have hsame : e.bytes prev = e'.bytes prev := (List.append_inj hbytes (by simp [hlen])).1
  rw [ZipEntry.bytes, ZipEntry.bytes, hwide] at hsame
  exact ZipEntry.ext hwide (append_cancel_left hsame)

/-- The body of an entry ends in some byte. -/
theorem ZipEntry.body_concat (e : ZipEntry) : ∃ c x, e.body = c ++ [x] := by
  refine (List.eq_nil_or_concat' e.body).resolve_left fun hnil => ?_
  have := e.body_length_pos
  simp [hnil] at this

theorem layout_concat (prev : Nat) (e : ZipEntry) (es : List ZipEntry) :
    ∃ c x, layout prev (e :: es) = c ++ [x] := by
  refine (List.eq_nil_or_concat' _).resolve_left fun hnil => ?_
  have hlen := congrArg List.length hnil
  have := e.rawLen_ge
  simp at hlen
  omega

/-- `last_eq_zipEnd` for one entry. -/
theorem ZipEntry.last_eq_zipEnd {e : ZipEntry} (h : FieldFits e.wide prev)
    (h' : FieldFits e'.wide prev) (hY : e.bytes prev = Y ++ [x])
    (hY' : e'.bytes prev = Y ++ [zipEnd]) (hvalue : e'.value = e.value) : x = zipEnd := by
  have hYne : 0 < Y.length := by
    have hlen := congrArg List.length hY
    have := e.rawLen_ge
    simp at hlen
    omega
  have hwide : e.wide = e'.wide := by
    have hsize := zipDecodePrevlensize_prevField h e.body
    have hsize' := zipDecodePrevlensize_prevField h' e'.body
    rw [← bytes, hY, zipDecodePrevlensize, getElem?_append_left hYne] at hsize
    rw [← bytes, hY', zipDecodePrevlensize, getElem?_append_left hYne, hsize,
      Option.some.injEq] at hsize'
    exact fieldLen_injective hsize'
  obtain ⟨c, y, hc⟩ := e.body_concat
  obtain ⟨c', y', hc'⟩ := e'.body_concat
  rw [bytes, hc, ← append_assoc] at hY
  rw [bytes, hc', ← append_assoc, ← hwide] at hY'
  obtain ⟨hYc, hyx⟩ := append_inj' hY rfl
  obtain ⟨hYc', hyx'⟩ := append_inj' hY' rfl
  rw [List.singleton_inj] at hyx hyx'
  have hcc : c' = c := append_cancel_left (hYc'.trans hYc.symm)
  rw [hyx] at hc
  rw [hyx', hcc] at hc'
  cases c with
  | cons b c => exact last_eq_of_value hc hc' (cons_ne_nil b c) hvalue.symm
  | nil =>
    -- `255` is no encoding.
    have hdec := e'.decode
    have hvalid := e'.valid
    rw [hc', nil_append, zipDecodeLength_int (by decide), Option.some.injEq] at hdec
    rw [← hdec] at hvalid
    exact absurd hvalid (by decide)

/-- A layout whose last byte is replaced by a terminator decodes to the same
values only if the byte was a terminator. -/
theorem last_eq_zipEnd {es' : List ZipEntry} (hfits : FieldsFit prev es)
    (hfits' : FieldsFit prev es') (hY : layout prev es = Y ++ [x])
    (hY' : layout prev es' = Y ++ [zipEnd])
    (hvalue : es'.map ZipEntry.value = es.map ZipEntry.value) : x = zipEnd := by
  induction es generalizing prev es' Y with
  | nil => simp [layout] at hY
  | cons e es ih =>
    cases es' with
    | nil => simp at hvalue
    | cons e' es' =>
      simp only [map_cons, List.cons.injEq] at hvalue
      cases es with
      | nil =>
        obtain rfl : es' = [] := by simpa using hvalue.2
        simp only [layout, append_nil] at hY hY'
        exact ZipEntry.last_eq_zipEnd hfits.1 hfits'.1 hY hY' hvalue.1
      | cons f es =>
        cases es' with
        | nil => simp at hvalue
        | cons f' es' =>
          obtain ⟨c, y, hc⟩ := layout_concat e.rawLen f es
          obtain ⟨c', y', hc'⟩ := layout_concat e'.rawLen f' es'
          rw [layout, hc, ← append_assoc] at hY
          rw [layout, hc', ← append_assoc] at hY'
          obtain ⟨hYc, hyx⟩ := append_inj' hY rfl
          obtain ⟨hYc', hyx'⟩ := append_inj' hY' rfl
          obtain rfl := entry_eq_of_bytes hfits.1 hfits'.1 (hYc.trans hYc'.symm)
          rw [append_cancel_left (hYc'.trans hYc.symm)] at hc'
          rw [hyx] at hc
          rw [hyx'] at hc'
          exact ih hfits.2 hfits'.2 hc hc' hvalue.2

/-! ## Insertion -/

/-- There is room for the new entry: the entry at the index has no field of
five bytes in front of which an entry of two or three bytes is inserted,
except for one of three bytes where the byte that is cut off equals the
terminator. -/
def InsertRoom (es : List ZipEntry) (i : Nat) (s : Bytes) : Prop :=
  ∀ e ∈ es[i]?, e.wide = true → 4 ≤ insertReqlen es i s ∨
    (insertReqlen es i s = 3 ∧ (layout 0 es).getLast? = some zipEnd)

/-- Insertion between `l` and `r`: it returns the ziplist with the new entry
exactly if there is room. -/
theorem ziplistInsert_append (fill : Nat → UInt8) {l r : List ZipEntry} {new : ZipEntry}
    {s : Bytes} (len : Nat) (hfits : FieldsFit 0 (l ++ r))
    (hsize : 11 + entriesSize (l ++ r) < 2 ^ 32) (hlen : CountFits len (l ++ r).length)
    (hbody : zipBody s = some new.body) (hwide : new.wide = decide (zipBiglen ≤ lastLen 0 l))
    (hnew : 11 + entriesSize (l ++ new :: refit new.rawLen r) < 2 ^ 32) :
    ((∀ e ∈ r.head?, e.wide = true → 4 ≤ new.rawLen ∨
        (new.rawLen = 3 ∧ (layout 0 (l ++ r)).getLast? = some zipEnd)) ∧
      ∃ len', CountFits len' ((l ++ r).length + 1) ∧
        ziplistInsert fill (ziplistOf len (l ++ r)) (10 + entriesSize l) s =
          some (ziplistOf len' (l ++ new :: refit new.rawLen r))) ∨
    (¬(∀ e ∈ r.head?, e.wide = true → 4 ≤ new.rawLen ∨
        (new.rawLen = 3 ∧ (layout 0 (l ++ r)).getLast? = some zipEnd)) ∧
      ∀ zl', ziplistInsert fill (ziplistOf len (l ++ r)) (10 + entriesSize l) s = some zl' →
        ∃ (bytes tail len' : Nat) (Y : Bytes) (x : UInt8), x ≠ zipEnd ∧
          layout 0 (l ++ new :: refit new.rawLen r) = Y ++ [x] ∧
          zl' = header bytes tail len' ++ ((Y ++ [zipEnd]) ++ [zipEnd])) := by
  cases r with
  | nil =>
    rw [append_nil] at hfits hlen ⊢
    refine .inl ⟨by simp, ?_⟩
    exact ziplistInsert_nil fill hfits hlen hbody hwide (by simpa [refit] using hnew)
  | cons e r =>
    have hge := new.rawLen_ge
    simp only [head?_cons, mem_def, Option.some.injEq, forall_eq']
    by_cases hroom : 4 ≤ new.rawLen ∨ e.wide = false
    · refine .inl ⟨fun he => .inl (hroom.resolve_right (by simp [he])), ?_⟩
      exact ziplistInsert_cons fill len hfits hsize hlen hbody hwide hnew hroom
    · obtain ⟨hlt, he⟩ := not_or.mp hroom
      rw [Bool.not_eq_false] at he
      by_cases htwo : new.rawLen = 2
      · refine .inr ⟨fun h => by have := h he; omega, fun zl' hzl' => ?_⟩
        rw [ziplistInsert_two fill len hfits hsize hbody hwide he htwo] at hzl'
        cases hzl'
      · have hthree : new.rawLen = 3 := by omega
        obtain ⟨Q, x, hlast⟩ : ∃ Q x, e.body ++ layout e.rawLen r = Q ++ [x] := by
          refine (List.eq_nil_or_concat' _).resolve_left fun hnil => ?_
          have := e.body_length_pos
          simp at hnil
          simp [hnil.1] at this
        have hgetLast : (layout 0 (l ++ e :: r)).getLast? = some x := by
          rw [layout_insert, hlast, ← append_assoc, ← append_assoc, getLast?_concat]
        by_cases hx : x = zipEnd
        · subst hx
          refine .inl ⟨fun _ => .inr ⟨hthree, hgetLast⟩, ?_⟩
          exact ziplistInsert_three fill len hfits hsize hlen hbody hwide hnew he hthree hlast
        · refine .inr ⟨fun h => ?_, fun zl' hzl' => ?_⟩
          · have := h he
            rw [hgetLast] at this
            simp [hx, hthree] at this
          · obtain ⟨bytes, tail, len', Y, hY, hzl⟩ := ziplistInsert_three_bytes fill len hfits hsize
              hlen hbody hwide he hthree hlast hzl'
            exact ⟨bytes, tail, len', Y, x, hx, hY, hzl⟩

/-- `__ziplistInsert` at every position of a well-formed ziplist: it returns a
well-formed ziplist with the string inserted if and only if there is room. -/
theorem ziplistInsert_iff (fill : Nat → UInt8) (hwf : WellFormed zl es) {i : Nat}
    (hi : i ≤ es.length) {s : Bytes} (hsize : insertSize es i s < 2 ^ 32) :
    (∃ zl', ziplistInsert fill zl (entryOffset es i) s = some zl' ∧
      Decodes zl' ((es.map ZipEntry.value).insertIdx i s)) ↔ InsertRoom es i s := by
  obtain ⟨len, hlen, rfl⟩ := hwf.layout
  obtain ⟨new, hwide, hbody, hvalue⟩ := exists_entry s (decide (zipBiglen ≤ lastLen 0 (es.take i)))
    (encodable_of_zipReqlen (v := lastLen 0 (es.take i)) (by
      simp only [insertSize, insertReqlen] at hsize
      omega))
  have hraw : insertReqlen es i s = new.rawLen := by
    rw [insertReqlen, zipReqlen_eq hbody, zipPrevEncodeLengthSize_eq, ZipEntry.rawLen, hwide]
  rw [insertSize, hraw] at hsize
  rw [InsertRoom, hraw, entryOffset]
  have hes : es = es.take i ++ es.drop i := (take_append_drop i es).symm
  have hget : es[i]? = (es.drop i).head? := by rw [head?_drop]
  have hlist : (es.map ZipEntry.value).insertIdx i s =
      (es.take i ++ new :: refit new.rawLen (es.drop i)).map ZipEntry.value := by
    have hidx := insertIdx_length_append ((es.take i).map ZipEntry.value)
      ((es.drop i).map ZipEntry.value) s
    rw [← map_append, ← hes, length_map, length_take, min_eq_left hi] at hidx
    rw [hidx, map_append, map_cons, map_value_refit, hvalue]
  rw [hlist, hget]
  have hfits := hwf.fits
  have hcases := ziplistInsert_append fill (l := es.take i) (r := es.drop i) (s := s) len
    (by rw [← hes]; exact hfits) (by rw [← hes]; exact hwf.size) (by rw [← hes]; exact hlen) hbody
    hwide (by simp; omega)
  have hfits' := fieldsFit_insert (l := es.take i) (r := es.drop i)
    (by rw [← hes]; exact hfits) hwide (by simp; omega)
  rw [← hes] at hcases
  obtain ⟨hroom, len', hlen', hinsert⟩ | ⟨hroom, hbad⟩ := hcases
  · refine ⟨fun _ => hroom, fun _ => ⟨_, hinsert, _, ⟨hfits', by simp; omega, len', ?_, rfl⟩, rfl⟩⟩
    have hcount := congrArg List.length hlist
    rw [length_insertIdx_of_le_length (by simpa using hi)] at hcount
    simp only [length_map] at hcount
    rwa [← hcount]
  · refine ⟨fun h => ?_, fun h => absurd h hroom⟩
    obtain ⟨zl', hinsert, es', hwf', hmap⟩ := h
    obtain ⟨bytes, tail, len', Y, x, hx, hY, hzl⟩ := hbad zl' hinsert
    obtain ⟨len'', _, hzl'⟩ := hwf'.layout
    rw [hzl', ziplistOf] at hzl
    have hlayout := (List.append_inj hzl (by simp)).2
    exact absurd (last_eq_zipEnd hfits' hwf'.fits hY (List.append_cancel_right hlayout) hmap) hx

/-- The index at which `ziplistPush` inserts. -/
def ZiplistEnd.index (place : ZiplistEnd) (es : List ZipEntry) : Nat :=
  match place with
  | .head => 0
  | .tail => es.length

theorem ziplistPush_eq (fill : Nat → UInt8) (hwf : WellFormed zl es) (s : Bytes)
    (place : ZiplistEnd) :
    ziplistPush fill zl s place = ziplistInsert fill zl (entryOffset es (place.index es)) s := by
  cases place with
  | head => rfl
  | tail =>
    obtain ⟨len, _, rfl⟩ := hwf.layout
    rw [ziplistPush, ziplistOf, ziplistBytes_header hwf.size]
    simp only [some_bind, entryOffset, ZiplistEnd.index, take_length]
    rw [show 11 + entriesSize es - 1 = 10 + entriesSize es by omega]

/-- Insertion into a well-formed ziplist, with `__ziplistInsert` at every
position and with `ziplistPush` at both ends: it returns a well-formed ziplist
with the string inserted if and only if there is room. -/
theorem ziplistInsert_refines (fill : Nat → UInt8) {zl : Bytes} {es : List ZipEntry}
    (hwf : WellFormed zl es) (s : Bytes) :
    (∀ i ≤ es.length, insertSize es i s < 2 ^ 32 →
      ((∃ zl', ziplistInsert fill zl (entryOffset es i) s = some zl' ∧
        Decodes zl' ((es.map ZipEntry.value).insertIdx i s)) ↔ InsertRoom es i s)) ∧
    (∀ place : ZiplistEnd, insertSize es (place.index es) s < 2 ^ 32 →
      ((∃ zl', ziplistPush fill zl s place = some zl' ∧
        Decodes zl' ((es.map ZipEntry.value).insertIdx (place.index es) s)) ↔
          InsertRoom es (place.index es) s)) := by
  refine ⟨fun i hi hsize => ziplistInsert_iff fill hwf hi hsize, fun place hsize => ?_⟩
  have hi : place.index es ≤ es.length := by cases place <;> simp [ZiplistEnd.index]
  rw [ziplistPush_eq fill hwf]
  exact ziplistInsert_iff fill hwf hi hsize

/-- The strings `a` and `b`, the second with a field of five bytes, as
`zipPrevEncodeLengthForceLarge` leaves it. -/
def forcedEntries : List ZipEntry :=
  [⟨false, [1, 97], ⟨zipStr06b, 1, 1⟩, by decide, by decide, by decide⟩,
   ⟨true, [1, 98], ⟨zipStr06b, 1, 1⟩, by decide, by decide, by decide⟩]

/-- The string `a`, whose field has one byte or five. -/
def letterEntry (wide : Bool) : ZipEntry :=
  ⟨wide, [1, 97], ⟨zipStr06b, 1, 1⟩, by decide, by decide, by decide⟩

/-- The ziplist with these entries. -/
def forcedZiplist : Bytes :=
  [21, 0, 0, 0, 13, 0, 0, 0, 2, 0, 0, 1, 97, 254, 3, 0, 0, 0, 1, 98, 255]

theorem forcedZiplist_wellFormed : WellFormed forcedZiplist forcedEntries where
  fits := ⟨⟨by decide, .inl (by decide)⟩, ⟨by decide, .inr rfl⟩, trivial⟩
  size := by decide
  layout := ⟨2, ⟨.inl rfl, by decide⟩, by decide⟩

/-- A string of two bytes fits in front of `b`. -/
theorem ziplistInsert_refines_forced :
    WellFormed forcedZiplist forcedEntries ∧
      ∃ zl', ziplistInsert (fun _ => 0) forcedZiplist (entryOffset forcedEntries 1) [120, 121] =
        some zl' ∧ Decodes zl' [[97], [120, 121], [98]] := by
  refine ⟨forcedZiplist_wellFormed, ?_⟩
  have hroom : InsertRoom forcedEntries 1 [120, 121] := fun _ _ _ => .inl (by decide)
  exact ((ziplistInsert_refines (fun _ => 0) forcedZiplist_wellFormed [120, 121]).1 1 (by decide)
    (by decide)).mpr hroom

/-- A string of one byte does not: whatever the new memory holds, insertion
returns no ziplist with the string inserted. -/
theorem ziplistInsert_forced_fails :
    Decodes forcedZiplist [[97], [98]] ∧ insertSize forcedEntries 1 [120] < 2 ^ 32 ∧
      ∀ fill, ¬∃ zl', ziplistInsert fill forcedZiplist (entryOffset forcedEntries 1) [120] =
        some zl' ∧ Decodes zl' [[97], [120], [98]] := by
  refine ⟨⟨forcedEntries, forcedZiplist_wellFormed, by decide⟩, by decide, fun fill h => ?_⟩
  have hroom := (ziplistInsert_iff fill forcedZiplist_wellFormed (i := 1) (by decide) (s := [120])
    (by decide)).mp h
  have hcut := hroom _ rfl rfl
  revert hcut
  decide

end Redis
