import Mathlib
import Redis.Ziplist.Insert

/-!
# Redis.Ziplist.Delete

`ziplistDelete` and `ziplistDeleteRange` on well-formed ziplists.  Deletion is
right as long as the size of the ziplist, which the cascade can make larger
than it was, stays in the range of its type.
-/

namespace Redis

open Bytes List Option

variable {es : List ZipEntry} {num i : Nat} {zl : Bytes}

/-! ## Walking over entries -/

theorem ziplistSkip_layout :
    ∀ {a : Bytes} {prev : Nat} (num deleted : Nat), FieldsFit prev es →
      ziplistSkip (a ++ (layout prev es ++ [zipEnd])) num a.length deleted =
        some (a.length + entriesSize (es.take num), deleted + (es.take num).length) := by
  induction es with
  | nil =>
    intro a prev num deleted _
    cases num with
    | zero => rfl
    | succ num =>
      simp [ziplistSkip, layout]
  | cons e es ih =>
    intro a prev num deleted hfits
    cases num with
    | zero => rfl
    | succ num =>
      have hbuf : a ++ (layout prev (e :: es) ++ [zipEnd]) =
          (a ++ e.bytes prev) ++ (layout e.rawLen es ++ [zipEnd]) := by simp [layout]
      have hentry := zipRawEntryLength_append (a := a) rfl hfits.1 (layout e.rawLen es ++ [zipEnd])
      obtain ⟨b, hb, hne⟩ := getElem?_entry (a := a) rfl hfits.1 (layout e.rawLen es ++ [zipEnd])
      rw [← append_assoc, ← hbuf] at hentry hb
      have hrec := ih (a := a ++ e.bytes prev) num (deleted + 1) hfits.2
      rw [← hbuf, length_append, ZipEntry.length_bytes] at hrec
      rw [ziplistSkip]
      simp only [bind_eq_bind, hb, bind_some, hne, if_false, hentry, hrec,
        take_succ_cons, entriesSize_cons, length_cons]
      congr 2 <;> omega

theorem ziplistIndexLoop_layout :
    ∀ {a : Bytes} {prev : Nat} (index : Nat), FieldsFit prev es → index ≤ es.length →
      ziplistIndexLoop (a ++ (layout prev es ++ [zipEnd])) index a.length =
        some (a.length + entriesSize (es.take index), 0) := by
  induction es with
  | nil =>
    intro a prev index _ hindex
    obtain rfl : index = 0 := by simpa using hindex
    rfl
  | cons e es ih =>
    intro a prev index hfits hindex
    cases index with
    | zero => rfl
    | succ index =>
      have hbuf : a ++ (layout prev (e :: es) ++ [zipEnd]) =
          (a ++ e.bytes prev) ++ (layout e.rawLen es ++ [zipEnd]) := by simp [layout]
      have hentry := zipRawEntryLength_append (a := a) rfl hfits.1 (layout e.rawLen es ++ [zipEnd])
      obtain ⟨b, hb, hne⟩ := getElem?_entry (a := a) rfl hfits.1 (layout e.rawLen es ++ [zipEnd])
      rw [← append_assoc, ← hbuf] at hentry hb
      have hrec := ih (a := a ++ e.bytes prev) index hfits.2 (by simpa using hindex)
      rw [← hbuf, length_append, ZipEntry.length_bytes] at hrec
      rw [ziplistIndexLoop]
      simp only [bind_eq_bind, hb, bind_some, hne, if_false, hentry, hrec,
        take_succ_cons, entriesSize_cons]
      congr 2
      omega

/-! ## Deleting -/

/-- The entries without the `num` from the index `i` on. -/
def deleteEntries (es : List ZipEntry) (i num : Nat) : List ZipEntry :=
  es.take i ++ refit (lastLen 0 (es.take i)) (es.drop (i + num))

/-- The size of the ziplist with these entries. -/
def deleteSize (es : List ZipEntry) (i num : Nat) : Nat := 11 + entriesSize (deleteEntries es i num)

section Hole

variable (len : Nat) {l m r : List ZipEntry} {e : ZipEntry} {wide : Bool}

/-- The field of the entry behind the hole reaches into the hole when it
grows: the hole has room for it. -/
theorem hole_room (hm : m ≠ []) (hfits : FieldsFit 0 (l ++ (m ++ e :: r)))
    (hw : wide = decide (zipBiglen ≤ lastLen 0 l)) :
    fieldLen wide ≤ entriesSize m := by
  cases m with
  | nil => exact absurd rfl hm
  | cons f m =>
    have hfit := (fieldsFit_append.mp hfits).2.1.2
    have hpos := f.body_length_pos
    have hle : fieldLen wide ≤ fieldLen f.wide := by
      subst hw
      by_cases hbig : zipBiglen ≤ lastLen 0 l
      · have hf : f.wide = true := by
          cases hfit with
          | inl h => omega
          | inr h => exact h
        rw [hf, decide_eq_true hbig]
      · rw [decide_eq_false hbig]
        cases f.wide <;> simp [fieldLen]
    rw [entriesSize_cons, ZipEntry.rawLen]
    omega

/-- Closing the hole `m` between `l` and `e :: r`: what is left behind the
moved entries is cut off later. -/
theorem ziplistCloseHole_eq (hm : m ≠ []) (hfits : FieldsFit 0 (l ++ (m ++ e :: r)))
    (hsize : 11 + entriesSize (l ++ (m ++ e :: r)) < 2 ^ 32)
    (hw : wide = decide (zipBiglen ≤ lastLen 0 l)) {first : Zlentry}
    (hfirst : first.prevrawlen = lastLen 0 l) :
    ∃ d : Bytes, d ≠ [] ∧
      ziplistCloseHole (ziplistOf len (l ++ (m ++ e :: r))) first (10 + entriesSize l)
          (10 + entriesSize l + entriesSize m) ((fieldLen wide : Int) - fieldLen e.wide) =
        some (header (11 + entriesSize (l ++ (m ++ e :: r)))
          (tailOffset (10 + entriesSize l) (e.setWide wide :: r)) len ++
            ((layout 0 l ++ ((e.setWide wide).bytes (lastLen 0 l) ++ layout e.rawLen r)) ++ d)) := by
  have hroom := hole_room hm hfits hw
  have hprev : lastLen 0 l < 2 ^ 32 := by
    have := lastLen_le l
    rw [entriesSize_append] at hsize
    omega
  have hfit : FieldFits (e.setWide wide).wide (lastLen 0 l) := by
    rw [ZipEntry.setWide_wide, hw]
    exact fieldFits_narrow hprev
  have hfits' : FieldsFit e.rawLen r :=
    (fieldsFit_append.mp (fieldsFit_append.mp hfits).2).2.2
  have hraw : e.rawLen = fieldLen e.wide + e.body.length := rfl
  have hraw' : (e.setWide wide).rawLen = fieldLen wide + e.body.length := rfl
  simp only [entriesSize_append, entriesSize_cons] at hsize
  have hbytes : 11 + entriesSize (l ++ (m ++ e :: r)) =
      11 + entriesSize l + entriesSize m + e.rawLen + entriesSize r := by
    simp only [entriesSize_append, entriesSize_cons]
    omega
  rw [ziplistOf, hbytes]
  have htail : tailOffset 10 (l ++ (m ++ e :: r)) =
      tailOffset (10 + entriesSize l) (e :: r) + entriesSize m := by
    rw [tailOffset_append 10 l (by simp), tailOffset_append _ m (by simp)]
    simp only [tailOffset]
    omega
  have htaillt := tailOffset_lt (10 + entriesSize l) (e :: r)
  rw [entriesSize_cons] at htaillt
  generalize hB : 11 + entriesSize l + entriesSize m + e.rawLen + entriesSize r = B
  -- The part `G` of the hole in front of the rewritten field.
  obtain ⟨k, hk⟩ : ∃ k, k + fieldLen wide = entriesSize m + fieldLen e.wide :=
    ⟨entriesSize m + fieldLen e.wide - fieldLen wide, by omega⟩
  have hpos : 0 < k := by
    have := fieldLen_pos e.wide
    omega
  generalize hM : layout (lastLen 0 l) m ++ prevField e.wide (lastLen (lastLen 0 l) m) = M
  have hMlen : M.length = k + (prevField wide (lastLen 0 l)).length := by
    simp [← hM]
    omega
  have hlayout : layout 0 (l ++ (m ++ e :: r)) ++ [zipEnd] =
      layout 0 l ++ (M ++ (e.body ++ (layout e.rawLen r ++ [zipEnd]))) := by
    simp [layout_append, layout, ZipEntry.bytes, ← hM]
  have hp : ((10 + entriesSize l + entriesSize m : Nat) -
      ((fieldLen wide : Int) - fieldLen e.wide)).toNat = 10 + entriesSize l + k := by omega
  have hstore (tail : Nat) := store_append_take (a := header B tail len ++ layout 0 l) (m := M)
    (p := 10 + entriesSize l + k) (k := k) (prevField wide (lastLen 0 l))
    (e.body ++ (layout e.rawLen r ++ [zipEnd])) (by simp) hMlen
  have hG : (M.take k).length = k := by
    rw [length_take]
    omega
  generalize M.take k = G at hstore hG
  have hfield : zipPrevEncodeLength first.prevrawlen = prevField wide (lastLen 0 l) := by
    rw [hfirst, zipPrevEncodeLength_eq, hw]
  have hbody : prevField wide (lastLen 0 l) ++ (e.body ++ (layout e.rawLen r ++ [zipEnd])) =
      (e.setWide wide).bytes (lastLen 0 l) ++ (layout e.rawLen r ++ [zipEnd]) := by
    simp [ZipEntry.bytes]
  obtain ⟨x, hx, hoff⟩ := tailOffset_adjust wide (10 + entriesSize l) hfits'
    (by rw [entriesSize_cons]; omega)
  have hadjust := adjustTail (q := layout 0 l ++ G) B (tailOffset (10 + entriesSize l) (e :: r)) len
    ((fieldLen wide : Int) - fieldLen e.wide) (p := 10 + entriesSize l + k) (by simp [hG]; omega) hfit hx rfl
  have hsub : (((tailOffset (10 + entriesSize l) (e :: r) + entriesSize m : Nat) : Int) -
      ((10 + entriesSize l + entriesSize m - (10 + entriesSize l) : Nat) : Int)) % 2 ^ 32 =
      tailOffset (10 + entriesSize l) (e :: r) := by omega
  rw [hoff] at hadjust
  simp only [hbody, append_assoc] at hstore hadjust
  -- The move of the entries to the front of the hole.
  have hload (tail : Nat) := load_append (a := header B tail len ++ (layout 0 l ++ G))
    (b := (e.setWide wide).bytes (lastLen 0 l) ++ layout e.rawLen r)
    (p := 10 + entriesSize l + k) (n := B - (10 + entriesSize l + k) - 1) [zipEnd]
    (by simp [hG]; omega) (by simp; omega)
  generalize hX : (e.setWide wide).bytes (lastLen 0 l) ++ layout e.rawLen r = X at hload ⊢
  have hXapp : (e.setWide wide).bytes (lastLen 0 l) ++ (layout e.rawLen r ++ [zipEnd]) =
      X ++ [zipEnd] := by rw [← hX, append_assoc]
  have hput (tail : Nat) := store_append (a := header B tail len ++ layout 0 l)
    (b := (G ++ (X ++ [zipEnd])).take X.length) (p := 10 + entriesSize l) X
    ((G ++ (X ++ [zipEnd])).drop X.length) (by simp) (by simp; omega)
  simp only [take_append_drop, hXapp, append_assoc] at hload hput hstore hadjust
  refine ⟨(G ++ (X ++ [zipEnd])).drop X.length, ?_, ?_⟩
  · intro hnil
    have := congrArg length hnil
    simp [hG] at this
    omega
  · rw [ziplistCloseHole, hp, hfield, htail, hlayout]
    simp only [bind_eq_bind, bind_some, hstore]
    rw [ziplistTailOffset_header (by omega), bind_some, hsub, Int.toNat_natCast,
      setTailOffset_header, bind_some]
    have hrest := congrArg (fun o => o.bind fun zl => (ziplistBytes zl).bind fun bytes =>
      move zl (10 + entriesSize l) (10 + entriesSize l + k) (bytes - (10 + entriesSize l + k) - 1))
      hadjust
    simp only [bind_assoc, bind_some] at hrest
    refine hrest.trans ?_
    rw [ziplistBytes_header (by omega), bind_some, move_eq (hload _), hput,
      append_assoc]

variable (fill : Nat → UInt8)

theorem ziplistDeleteEntries_read (hm : m ≠ []) (hfits : FieldsFit 0 (l ++ (m ++ r)))
    (hnum : (m ++ r).take num = m) :
    ∃ first : Zlentry, first.prevrawlen = lastLen 0 l ∧
      ziplistDeleteEntries fill (ziplistOf len (l ++ (m ++ r))) (10 + entriesSize l) num =
        ((ziplistOf len (l ++ (m ++ r)))[10 + entriesSize l + entriesSize m]?).bind fun b =>
        (if b ≠ zipEnd then zipPrevLenByteDiff (ziplistOf len (l ++ (m ++ r)))
            (10 + entriesSize l + entriesSize m) (lastLen 0 l) else some 0).bind fun nextdiff =>
        (if b ≠ zipEnd then ziplistCloseHole (ziplistOf len (l ++ (m ++ r))) first
            (10 + entriesSize l) (10 + entriesSize l + entriesSize m) nextdiff
          else setTailOffset (ziplistOf len (l ++ (m ++ r)))
            (10 + entriesSize l - lastLen 0 l)).bind fun zl =>
        (ziplistBytes zl).bind fun bytes =>
        (ziplistResize fill zl ((bytes : Int) - entriesSize m + nextdiff).toNat).bind fun zl =>
        (ziplistIncrLength zl (-(m.length : Int))).bind fun zl =>
        if nextdiff ≠ 0 then ziplistCascadeUpdate fill zl (10 + entriesSize l) else some zl := by
  cases m with
  | nil => exact absurd rfl hm
  | cons f m =>
    have hfits' := (fieldsFit_append.mp hfits).2
    generalize hhd : header (11 + entriesSize (l ++ (f :: m ++ r)))
      (tailOffset 10 (l ++ (f :: m ++ r))) len = hd
    have hhdlen : hd.length = 10 := by simp [← hhd]
    have hzl : ziplistOf len (l ++ (f :: m ++ r)) =
        (hd ++ layout 0 l) ++ (layout (lastLen 0 l) (f :: m ++ r) ++ [zipEnd]) := by
      rw [ziplistOf, hhd, layout_append]
      simp
    have hp : (hd ++ layout 0 l).length = 10 + entriesSize l := by simp [hhdlen]
    have hskip := ziplistSkip_layout (a := hd ++ layout 0 l) num 0 hfits'
    have hentry := zipEntry_append (a := hd ++ layout 0 l) rfl hfits'.1
      (layout f.rawLen (m ++ r) ++ [zipEnd])
    have hlayout : f.bytes (lastLen 0 l) ++ (layout f.rawLen (m ++ r) ++ [zipEnd]) =
        layout (lastLen 0 l) (f :: m ++ r) ++ [zipEnd] := by simp [layout]
    rw [hlayout, ← hzl, hp] at hentry
    rw [← hzl, hp, hnum] at hskip
    have hpos : entriesSize (f :: m) > 0 := by
      have := f.rawLen_ge
      rw [entriesSize_cons]
      omega
    refine ⟨f.zlentry (lastLen 0 l), rfl, ?_⟩
    rw [ziplistDeleteEntries, hentry]
    simp only [some_bind, hskip, Nat.add_sub_cancel_left, if_pos hpos,
      Nat.zero_add]
    rfl

theorem ziplistDeleteEntries_nil (hm : m ≠ []) (hfits : FieldsFit 0 (l ++ m))
    (hsize : 11 + entriesSize (l ++ m) < 2 ^ 32) (hlen : CountFits len (l ++ m).length)
    (hnum : m.take num = m) :
    ∃ len', CountFits len' l.length ∧
      ziplistDeleteEntries fill (ziplistOf len (l ++ m)) (10 + entriesSize l) num =
        some (ziplistOf len' l) := by
  obtain ⟨first, hfirst, hread⟩ := ziplistDeleteEntries_read len fill (r := []) hm
    (by simpa using hfits) (by simpa using hnum)
  rw [append_nil] at hread
  have hend : (ziplistOf len (l ++ m))[10 + entriesSize l + entriesSize m]? = some zipEnd := by
    rw [ziplistOf, ← append_assoc]
    exact getElem?_append_length zipEnd [] (by simp; omega)
  have htail : 10 + entriesSize l - lastLen 0 l = tailOffset 10 l := by
    cases l.eq_nil_or_concat' with
    | inl h => simp [h, tailOffset]
    | inr h =>
      obtain ⟨init, last, rfl⟩ := h
      simp only [tailOffset, entriesSize_append, entriesSize_cons, entriesSize_nil,
        lastLen_append, lastLen_cons, lastLen_nil, dropLast_concat]
      omega
  obtain ⟨len', hlen', hincr⟩ := ziplistIncrLength_header (m := l.length) (-(m.length : Int))
    hlen (by simp) (by simp; omega) (11 + entriesSize l) (tailOffset 10 l) (layout 0 l ++ [zipEnd])
  rw [entriesSize_append] at hsize
  have hne : layout (lastLen 0 l) m ++ [zipEnd] ≠ [] := by simp
  have hresize := ziplistResize_shrink fill (11 + entriesSize (l ++ m)) (tailOffset 10 l) len
    (layout 0 l) (layout (lastLen 0 l) m ++ [zipEnd]) (by rw [length_layout]; omega) hne
  have harg : ((11 + entriesSize (l ++ m) : Nat) - (entriesSize m : Int) + 0).toNat =
      11 + (layout 0 l).length := by
    simp
    omega
  refine ⟨len', hlen', ?_⟩
  rw [hread, hend]
  simp only [bind_some, ne_eq, not_true_eq_false, if_false, ziplistOf, setTailOffset_header,
    htail, layout_append, append_assoc]
  rw [ziplistBytes_header (by simp; omega), bind_some, harg, hresize, bind_some,
    length_layout, hincr, bind_some]

/-- Deletion in front of an entry: the hole is closed and the cascade follows,
unless it makes the ziplist too large. -/
theorem ziplistDeleteEntries_cons (hm : m ≠ []) (hfits : FieldsFit 0 (l ++ (m ++ e :: r)))
    (hsize : 11 + entriesSize (l ++ (m ++ e :: r)) < 2 ^ 32)
    (hlen : CountFits len (l ++ (m ++ e :: r)).length) (hnum : (m ++ e :: r).take num = m) :
    ∃ len', CountFits len' (l ++ e :: r).length ∧
      ziplistDeleteEntries fill (ziplistOf len (l ++ (m ++ e :: r))) (10 + entriesSize l) num =
        if 11 + entriesSize (l ++ refit (lastLen 0 l) (e :: r)) < 2 ^ 32 then
          some (ziplistOf len' (l ++ refit (lastLen 0 l) (e :: r))) else none := by
  obtain ⟨wide, hw⟩ : ∃ wide, wide = decide (zipBiglen ≤ lastLen 0 l) := ⟨_, rfl⟩
  obtain ⟨first, hfirst, hread⟩ := ziplistDeleteEntries_read len fill hm hfits hnum
  obtain ⟨d, hd, hclose⟩ := ziplistCloseHole_eq len hm hfits hsize hw hfirst
  have hroom := hole_room hm hfits hw
  have hfits' := (fieldsFit_append.mp (fieldsFit_append.mp hfits).2).2
  have hp : 10 + entriesSize l + entriesSize m = (header (11 + entriesSize (l ++ (m ++ e :: r)))
      (tailOffset 10 (l ++ (m ++ e :: r))) len ++ (layout 0 l ++ layout (lastLen 0 l) m)).length := by
    simp
    omega
  have hzl : ziplistOf len (l ++ (m ++ e :: r)) = (header (11 + entriesSize (l ++ (m ++ e :: r)))
      (tailOffset 10 (l ++ (m ++ e :: r))) len ++ (layout 0 l ++ layout (lastLen 0 l) m)) ++
        (e.bytes (lastLen (lastLen 0 l) m) ++ (layout e.rawLen r ++ [zipEnd])) := by
    rw [ziplistOf, layout_append, layout_append, layout]
    simp
  obtain ⟨b, hb, hne⟩ := getElem?_entry hp hfits'.1 (layout e.rawLen r ++ [zipEnd])
  have hdiff : zipPrevLenByteDiff (ziplistOf len (l ++ (m ++ e :: r)))
      (10 + entriesSize l + entriesSize m) (lastLen 0 l) =
      some ((fieldLen wide : Int) - fieldLen e.wide) := by
    rw [zipPrevLenByteDiff, hzl, zipDecodePrevlensize_append hp hfits'.1,
      zipPrevEncodeLengthSize_eq, ← hw]
    rfl
  rw [← hzl] at hb
  have hprev : lastLen 0 l < 2 ^ 32 := by
    have := lastLen_le l
    rw [entriesSize_append] at hsize
    omega
  have hraw : e.rawLen = fieldLen e.wide + e.body.length := rfl
  have hraw' : (e.setWide wide).rawLen = fieldLen wide + e.body.length := rfl
  have hbytes := hsize
  simp only [entriesSize_append, entriesSize_cons] at hsize
  have hnew : 11 + (layout 0 l ++ ((e.setWide wide).bytes (lastLen 0 l) ++ layout e.rawLen r)).length =
      11 + entriesSize l + (e.setWide wide).rawLen + entriesSize r := by
    simp
    omega
  have hresize := ziplistResize_shrink fill (11 + entriesSize (l ++ (m ++ e :: r)))
    (tailOffset (10 + entriesSize l) (e.setWide wide :: r)) len
    (layout 0 l ++ ((e.setWide wide).bytes (lastLen 0 l) ++ layout e.rawLen r)) d (by omega) hd
  rw [hnew] at hresize
  have harg : ((11 + entriesSize (l ++ (m ++ e :: r)) : Nat) - (entriesSize m : Int) +
      ((fieldLen wide : Int) - fieldLen e.wide)).toNat =
      11 + entriesSize l + (e.setWide wide).rawLen + entriesSize r := by
    simp only [entriesSize_append, entriesSize_cons]
    omega
  obtain ⟨len', hlen', hincr⟩ := ziplistIncrLength_header (m := (l ++ e :: r).length)
    (-(m.length : Int)) hlen (by simp; omega) (by simp; omega)
    (11 + entriesSize l + (e.setWide wide).rawLen + entriesSize r)
    (tailOffset (10 + entriesSize l) (e.setWide wide :: r))
    (layout 0 l ++ ((e.setWide wide).bytes (lastLen 0 l) ++ layout e.rawLen r) ++ [zipEnd])
  have hcascade := cascade_of_setWide fill (layout 0 l) e wide (u := lastLen 0 l) len' (hw ▸ fieldFits_narrow hprev) hfits'.2
    (by rw [length_layout]; omega) rfl
  rw [length_layout] at hcascade
  simp only [append_assoc] at hincr
  refine ⟨len', hlen', ?_⟩
  rw [hread, hb, bind_some, if_pos hne, hdiff, bind_some, if_pos hne, hclose,
    bind_some, ziplistBytes_header hbytes, bind_some, harg, hresize, bind_some]
  simp only [append_assoc]
  rw [hincr, bind_some, hcascade]
  simp only [refit, ← hw, ziplistOf, layout_append, entriesSize_append, Nat.add_assoc,
    append_assoc, tailOffset_append 10 l (cons_ne_nil _ _)]

end Hole

/-! ## The results -/

theorem map_value_deleteEntries (es : List ZipEntry) (i num : Nat) :
    (deleteEntries es i num).map ZipEntry.value =
      (es.map ZipEntry.value).take i ++ (es.map ZipEntry.value).drop (i + num) := by
  rw [deleteEntries, map_append, map_value_refit, map_take, map_drop]

theorem ziplistDeleteEntries_append (fill : Nat → UInt8) (len : Nat) {l m r : List ZipEntry}
    (hm : m ≠ []) (hfits : FieldsFit 0 (l ++ (m ++ r)))
    (hsize : 11 + entriesSize (l ++ (m ++ r)) < 2 ^ 32)
    (hlen : CountFits len (l ++ (m ++ r)).length) (hnum : (m ++ r).take num = m) :
    (11 + entriesSize (l ++ refit (lastLen 0 l) r) < 2 ^ 32 ∧ ∃ zl',
      ziplistDeleteEntries fill (ziplistOf len (l ++ (m ++ r))) (10 + entriesSize l) num = some zl' ∧
        WellFormed zl' (l ++ refit (lastLen 0 l) r)) ∨
    (¬11 + entriesSize (l ++ refit (lastLen 0 l) r) < 2 ^ 32 ∧
      ziplistDeleteEntries fill (ziplistOf len (l ++ (m ++ r))) (10 + entriesSize l) num = none) := by
  have hfits' := fieldsFit_append.mp hfits
  cases r with
  | nil =>
    rw [append_nil] at hsize hlen hnum ⊢
    obtain ⟨len', hlen', hdel⟩ := ziplistDeleteEntries_nil len fill hm (by simpa using hfits) hsize hlen
      hnum
    rw [entriesSize_append] at hsize
    simp only [refit, append_nil]
    exact .inl ⟨by omega, _, hdel, hfits'.1, by omega, len', hlen', rfl⟩
  | cons e r =>
    obtain ⟨len', hlen', hdel⟩ := ziplistDeleteEntries_cons len fill hm hfits hsize hlen hnum
    by_cases hlt : 11 + entriesSize (l ++ refit (lastLen 0 l) (e :: r)) < 2 ^ 32
    · rw [if_pos hlt] at hdel
      refine .inl ⟨hlt, _, hdel, fieldsFit_append.mpr ⟨hfits'.1, ?_⟩, hlt, len', ?_, rfl⟩
      · have := lastLen_le l
        rw [entriesSize_append] at hlt
        exact fieldsFit_refit (fieldsFit_append.mp hfits'.2).2 (by omega)
      · have hcount := congrArg length (map_value_refit (lastLen 0 l) (e :: r))
        rw [length_map, length_map] at hcount
        rwa [length_append, hcount, ← length_append]
    · rw [if_neg hlt] at hdel
      exact .inr ⟨hlt, hdel⟩

/-- `__ziplistDelete` from the entry at an index on: it returns the ziplist
without the entries if its size is in range, and accesses memory outside the
block if not. -/
theorem ziplistDeleteEntries_spec (fill : Nat → UInt8) (hwf : WellFormed zl es)
    (hi : i < es.length) (hnum : 1 ≤ num) :
    (deleteSize es i num < 2 ^ 32 ∧ ∃ zl',
      ziplistDeleteEntries fill zl (entryOffset es i) num = some zl' ∧
        WellFormed zl' (deleteEntries es i num)) ∨
    (¬deleteSize es i num < 2 ^ 32 ∧
      ziplistDeleteEntries fill zl (entryOffset es i) num = none) := by
  obtain ⟨len, hlen, rfl⟩ := hwf.layout
  have hes : es.take i ++ ((es.drop i).take num ++ es.drop (i + num)) = es := by
    rw [← drop_drop, take_append_drop, take_append_drop]
  have hm : (es.drop i).take num ≠ [] := by
    intro hnil
    have := congrArg length hnil
    simp at this
    omega
  have hnum' : ((es.drop i).take num ++ es.drop (i + num)).take num = (es.drop i).take num := by
    rw [← drop_drop, take_append_drop]
  have hdel := ziplistDeleteEntries_append fill len hm (by rw [hes]; exact hwf.fits)
    (by rw [hes]; exact hwf.size) (by rw [hes]; exact hlen) hnum'
  rwa [hes] at hdel

/-- The bytes of the entry at an index stand at its offset, behind those of the entry before. -/
theorem WellFormed.entry_behind (hwf : WellFormed zl es) {e : ZipEntry} (he : es[i]? = some e) :
    ∃ a c : Bytes, entryOffset es i = a.length ∧ FieldFits e.wide (lastLen 0 (es.take i)) ∧
      zl = a ++ (e.bytes (lastLen 0 (es.take i)) ++ c) := by
  obtain ⟨len, _, rfl⟩ := hwf.layout
  have hes : es.take i ++ e :: es.drop (i + 1) = es := by
    rw [← (List.getElem?_eq_some_iff.mp he).2, cons_getElem_drop_succ, take_append_drop]
  have hfits := hwf.fits
  have hlayout := layout_append 0 (es.take i) (e :: es.drop (i + 1))
  rw [← hes, fieldsFit_append] at hfits
  rw [hes, Redis.layout] at hlayout
  refine ⟨header (11 + entriesSize es) (tailOffset 10 es) len ++ Redis.layout 0 (es.take i),
    Redis.layout e.rawLen (es.drop (i + 1)) ++ [zipEnd], by simp [entryOffset], hfits.2.1, ?_⟩
  rw [ziplistOf, hlayout]
  simp

theorem WellFormed.entry_at (hwf : WellFormed zl es) {e : ZipEntry} (he : es[i]? = some e) :
    ∃ (a c : Bytes) (prev : Nat), entryOffset es i = a.length ∧ FieldFits e.wide prev ∧
      zl = a ++ (e.bytes prev ++ c) :=
  let ⟨a, c, h⟩ := hwf.entry_behind he
  ⟨a, c, _, h⟩

theorem ziplistGet_entryOffset (hwf : WellFormed zl es) {e : ZipEntry} (he : es[i]? = some e) :
    ∃ v, ziplistGet zl (entryOffset es i) = some v ∧ v.bytes = e.value := by
  obtain ⟨a, c, prev, hp, hfit, rfl⟩ := hwf.entry_at he
  exact ziplistGet_entry hp hfit c

/-- Behind the last entry stands the terminator. -/
theorem getElem?_entryOffset_length (hwf : WellFormed zl es) :
    zl[entryOffset es es.length]? = some zipEnd := by
  obtain ⟨len, _, rfl⟩ := hwf.layout
  rw [ziplistOf, ← append_assoc]
  exact getElem?_append_length zipEnd [] (by simp [entryOffset])

theorem ziplistTailOffset_of_wellFormed (hwf : WellFormed zl es) :
    ziplistTailOffset zl =
      some (if es = [] then ziplistHeaderSize else entryOffset es (es.length - 1)) := by
  obtain ⟨len, _, rfl⟩ := hwf.layout
  have hlt := tailOffset_lt 10 es
  have hsize := hwf.size
  rw [ziplistOf, ziplistTailOffset_header (by omega), tailOffset, entryOffset,
    dropLast_eq_take]
  cases es with
  | nil => rfl
  | cons e es => simp

theorem ziplistIndex_of_wellFormed (hwf : WellFormed zl es) (hi : i < es.length) :
    ziplistIndex zl i = some (some (entryOffset es i)) := by
  obtain ⟨b, hb, hne⟩ : ∃ b, zl[entryOffset es i]? = some b ∧ b ≠ zipEnd := by
    obtain ⟨a, c, prev, hp, hfit, rfl⟩ := hwf.entry_at (getElem?_eq_getElem hi)
    exact getElem?_entry hp hfit c
  have hloop : ziplistIndexLoop zl i ziplistHeaderSize = some (entryOffset es i, 0) := by
    obtain ⟨len, _, rfl⟩ := hwf.layout
    have := ziplistIndexLoop_layout (a := header (11 + entriesSize es) (tailOffset 10 es) len)
      i hwf.fits (le_of_lt hi)
    rwa [length_header, ← ziplistOf, ← entryOffset] at this
  have hnonneg : ¬(i : Int) < 0 := by omega
  rw [ziplistIndex, if_neg hnonneg, Int.toNat_natCast, hloop]
  simp [hb, hne]

/-- `zl` is well-formed, decodes to `l`, and its tail offset is that of the
last entry, or the size of the header. -/
def DecodesWithTail (zl : Bytes) (l : List Bytes) : Prop :=
  ∃ es, WellFormed zl es ∧ es.map ZipEntry.value = l ∧
    ziplistTailOffset zl =
      some (if es = [] then ziplistHeaderSize else entryOffset es (es.length - 1))

/-- The pointer `p` is at an entry with the value `s`, or at the terminator if
there is none. -/
def PointsAt (zl : Bytes) (p : Nat) : Option Bytes → Prop
  | some s => ∃ v, ziplistGet zl p = some v ∧ v.bytes = s
  | none => zl[p]? = some zipEnd

theorem WellFormed.decodesWithTail (hwf : WellFormed zl es) :
    DecodesWithTail zl (es.map ZipEntry.value) :=
  ⟨es, hwf, rfl, ziplistTailOffset_of_wellFormed hwf⟩

theorem WellFormed.pointsAt (hwf : WellFormed zl es) (hi : i ≤ es.length) :
    PointsAt zl (entryOffset es i) (es.map ZipEntry.value)[i]? := by
  rw [getElem?_map]
  cases he : es[i]? with
  | some e => exact ziplistGet_entryOffset hwf he
  | none =>
    obtain rfl : i = es.length := by
      have := List.getElem?_eq_none_iff.mp he
      omega
    exact getElem?_entryOffset_length hwf

/-- Deletion from a well-formed ziplist, of the entry at every index and of
every range from it on: it returns the well-formed ziplist without the
entries, and the pointer to what followed them, if and only if the size stays
in the range of its type. -/
theorem ziplistDelete_refines (fill : Nat → UInt8) {zl : Bytes} {es : List ZipEntry}
    (hwf : WellFormed zl es) {i : Nat} (hi : i < es.length) :
    ((∃ zl' p, ziplistDelete fill zl (entryOffset es i) = some (zl', p) ∧
        DecodesWithTail zl' ((es.map ZipEntry.value).eraseIdx i) ∧
        PointsAt zl' p (es.map ZipEntry.value)[i + 1]?) ↔ deleteSize es i 1 < 2 ^ 32) ∧
    ∀ num ≥ 1, ((∃ zl', ziplistDeleteRange fill zl i num = some zl' ∧
        DecodesWithTail zl' ((es.map ZipEntry.value).take i ++
          (es.map ZipEntry.value).drop (i + num))) ↔ deleteSize es i num < 2 ^ 32) := by
  constructor
  · have hvalues := map_value_deleteEntries es i 1
    rw [← eraseIdx_eq_take_drop_succ] at hvalues
    obtain ⟨hlt, zl', hdel, hwf'⟩ | ⟨hge, hdel⟩ :=
      ziplistDeleteEntries_spec fill hwf hi (le_refl 1)
    · refine ⟨fun _ => hlt, fun _ => ⟨zl', entryOffset es i, ?_, ?_, ?_⟩⟩
      · rw [ziplistDelete, hdel]
        rfl
      · rw [← hvalues]
        exact hwf'.decodesWithTail
      · have htake : (deleteEntries es i 1).take i = es.take i := by
          rw [deleteEntries, take_append_of_le_length (by simp; omega), take_take,
            min_self]
        have hlen : i ≤ (deleteEntries es i 1).length := by
          rw [deleteEntries, length_append, length_take]
          omega
        have hpoints := hwf'.pointsAt hlen
        rw [hvalues, getElem?_eraseIdx_of_ge (le_refl i), entryOffset, htake] at hpoints
        exact hpoints
    · refine ⟨?_, fun h => absurd h hge⟩
      rintro ⟨zl', p, h, -⟩
      rw [ziplistDelete, hdel] at h
      cases h
  · intro num hnum
    have hindex : Int.bmod i (2 ^ 32) = i := by
      have := length_le_entriesSize es
      have := hwf.size
      exact Int.bmod_eq_of_le_mul_two (by omega) (by omega)
    have hrange : ziplistDeleteRange fill zl i num =
        ziplistDeleteEntries fill zl (entryOffset es i) num := by
      rw [ziplistDeleteRange, hindex, ziplistIndex_of_wellFormed hwf hi]
      rfl
    rw [hrange]
    obtain ⟨hlt, zl', hdel, hwf'⟩ | ⟨hge, hdel⟩ := ziplistDeleteEntries_spec fill hwf hi hnum
    · refine ⟨fun _ => hlt, fun _ => ⟨zl', hdel, ?_⟩⟩
      rw [← map_value_deleteEntries]
      exact hwf'.decodesWithTail
    · refine ⟨?_, fun h => absurd h hge⟩
      rintro ⟨zl', h, -⟩
      rw [hdel] at h
      cases h

/-- Deleting the first of the two strings of `forcedZiplist`: the pointer is at
the second. -/
theorem ziplistDelete_refines_forced :
    WellFormed forcedZiplist forcedEntries ∧
      ∃ zl' p, ziplistDelete (fun _ => 0) forcedZiplist (entryOffset forcedEntries 0) =
        some (zl', p) ∧ DecodesWithTail zl' [[98]] ∧ PointsAt zl' p (some [98]) :=
  ⟨forcedZiplist_wellFormed,
    (ziplistDelete_refines (fun _ => 0) forcedZiplist_wellFormed (i := 0) (by decide)).1.mpr
      (by decide)⟩

/-! ## A cascade that leaves the range of the size -/

theorem fieldsFit_replicate {e : ZipEntry} {prev : Nat} (h : FieldFits e.wide prev)
    (h' : FieldFits e.wide e.rawLen) (n : Nat) : FieldsFit prev (replicate n e) := by
  induction n generalizing prev with
  | zero => trivial
  | succ n ih => exact ⟨h, ih h'⟩

/-- Entries of 250 to 253 bytes are widened one after the other. -/
theorem widen_replicate {e : ZipEntry} (he : e.wide = false) {prev : Nat} (hprev : zipBiglen ≤ prev)
    (hraw : zipBiglen ≤ (e.setWide true).rawLen) (n : Nat) :
    widen prev (replicate n e) = replicate n (e.setWide true) := by
  induction n generalizing prev with
  | zero => rfl
  | succ n ih => rw [replicate_succ, widen, if_pos ⟨hprev, he⟩, ih hraw, replicate_succ]

theorem entriesSize_replicate (n : Nat) (e : ZipEntry) :
    entriesSize (replicate n e) = n * e.rawLen := by simp [entriesSize]

/-- An entry of 300 bytes: a string of 297. -/
def longEntry : ZipEntry :=
  ⟨false, 0x41 :: 0x29 :: replicate 297 97, ⟨zipStr14b, 2, 297⟩, rfl,
    by simp only [length_cons, length_replicate], by decide⟩

/-- An entry of seven bytes behind it. -/
def behindLong : ZipEntry := letterEntry true

/-- An entry of 253 bytes: a string of 250. -/
def nearlyLong : ZipEntry :=
  ⟨false, 0x40 :: 0xfa :: replicate 250 97, ⟨zipStr14b, 2, 250⟩, rfl,
    by simp only [length_cons, length_replicate], by decide⟩

theorem rawLen_longEntry : longEntry.rawLen = 300 := by
  rw [ZipEntry.rawLen, ← longEntry.size]
  rfl

theorem rawLen_nearlyLong : nearlyLong.rawLen = 253 := by
  rw [ZipEntry.rawLen, ← nearlyLong.size]
  rfl

/-- The two, and `n` entries of 253 bytes. -/
def hugeEntries (n : Nat) : List ZipEntry :=
  longEntry :: behindLong :: replicate n nearlyLong

theorem hugeEntries_wellFormed {n : Nat} (hn : 318 + n * 253 < 2 ^ 32) :
    WellFormed (ziplistOf UINT16_MAX (hugeEntries n)) (hugeEntries n) where
  fits := by
    refine ⟨⟨by decide, .inl (by decide)⟩, ⟨by rw [rawLen_longEntry]; decide, .inr rfl⟩, ?_⟩
    refine fieldsFit_replicate ⟨by decide, .inl (by decide)⟩ ?_ n
    rw [rawLen_nearlyLong]
    exact ⟨by decide, .inl (by decide)⟩
  size := by
    have hbehind : behindLong.rawLen = 7 := rfl
    rw [hugeEntries, entriesSize_cons, entriesSize_cons, entriesSize_replicate, rawLen_longEntry,
      rawLen_nearlyLong, hbehind]
    omega
  layout := ⟨UINT16_MAX, ⟨.inr rfl, le_refl _⟩, rfl⟩

/-- The size without the second entry. -/
theorem deleteSize_hugeEntries (n : Nat) : deleteSize (hugeEntries n) 1 1 = 311 + n * 257 := by
  have hwide : (nearlyLong.setWide true).rawLen = 257 := by
    rw [rawLen_setWide_true rfl, rawLen_nearlyLong]
  have hrefit : refit 300 (replicate n nearlyLong) =
      replicate n (nearlyLong.setWide true) := by
    cases n with
    | zero => rfl
    | succ n =>
      have hnarrow : decide (zipBiglen ≤ 300) = true := by decide
      rw [replicate_succ, refit, hnarrow, hwide,
        widen_replicate rfl (by decide) (by rw [hwide]; decide), replicate_succ]
  have hentries : deleteEntries (hugeEntries n) 1 1 =
      longEntry :: refit longEntry.rawLen (replicate n nearlyLong) := rfl
  rw [deleteSize, hentries, rawLen_longEntry, hrefit, entriesSize_cons, entriesSize_replicate,
    rawLen_longEntry, hwide]
  omega

/-- Deleting the second entry of a ziplist just below four gigabytes: all the
entries behind it grow by four bytes, and the size of the ziplist overflows. -/
theorem ziplistDelete_hugeEntries_fails :
    Decodes (ziplistOf UINT16_MAX (hugeEntries 16976154))
        ((hugeEntries 16976154).map ZipEntry.value) ∧
      1 < (hugeEntries 16976154).length ∧
      ∀ fill, ¬∃ zl' p, ziplistDelete fill (ziplistOf UINT16_MAX (hugeEntries 16976154))
          (entryOffset (hugeEntries 16976154) 1) = some (zl', p) ∧
        DecodesWithTail zl' (((hugeEntries 16976154).map ZipEntry.value).eraseIdx 1) ∧
        PointsAt zl' p ((hugeEntries 16976154).map ZipEntry.value)[1 + 1]? := by
  generalize hn : 16976154 = n
  have hwf := hugeEntries_wellFormed (n := n) (by omega)
  have hlen : 1 < (hugeEntries n).length := by
    rw [hugeEntries, length_cons, length_cons]
    omega
  refine ⟨⟨hugeEntries n, hwf, rfl⟩, hlen, fun fill ⟨zl', p, h, _⟩ => ?_⟩
  obtain ⟨hlt, _⟩ | ⟨_, hdel⟩ := ziplistDeleteEntries_spec fill hwf hlen (le_refl 1)
  · rw [deleteSize_hugeEntries] at hlt
    omega
  · rw [ziplistDelete, hdel] at h
    cases h

end Redis
