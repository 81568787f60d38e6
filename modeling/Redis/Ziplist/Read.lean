import Redis.Util.Buffers
import Redis.Ziplist.Delete

/-!
# Redis.Ziplist.Read

Walking, comparing and searching in a ziplist: `ziplistNext`, `ziplistPrev`,
`ziplistCompare`, `ziplistFind` and `ziplistLen`.  On a well-formed ziplist all
of them agree with the list it decodes to.
-/

namespace Redis

open Bytes Option

/-- `ziplistNext`; the inner `none` is the null pointer. -/
def ziplistNext (zl : Bytes) (p : Nat) : Option (Option Nat) := do
  let b ← zl[p]?
  if b = zipEnd then return none
  else
    let n ← zipRawEntryLength zl p
    let b ← zl[p + n]?
    return if b = zipEnd then none else some (p + n)

def ziplistPrev (zl : Bytes) (p : Nat) : Option (Option Nat) := do
  let b ← zl[p]?
  if b = zipEnd then
    let tail ← ziplistTailOffset zl
    let b ← zl[tail]?
    return if b = zipEnd then none else some tail
  else if p = ziplistHeaderSize then return none
  else
    let prev ← zipDecodePrevlen zl p
    -- assert(prevlen > 0)
    if prev.2 = 0 then none else return some (p - prev.2)

def ziplistCompare (zl : Bytes) (p : Nat) (sstr : Bytes) : Option Bool := do
  let b ← zl[p]?
  if b = zipEnd then return false
  else
    let entry ← zipEntry zl p
    if zipIsStr entry.encoding then
      if entry.len = sstr.length then
        let s ← load zl (p + entry.headersize) sstr.length
        return s == sstr
      else return false
    else
      match zipTryEncoding sstr with
      | some (sval, _) =>
        let zval ← zipLoadInteger zl (p + entry.headersize) entry.encoding
        return zval == sval
      | none => return false

def ucharMax : UInt8 := 255

/-- What `ziplistFind` remembers of the string it searches: `vencoding` and `vll`. -/
structure ZipProbe where
  vencoding : UInt8
  vll : Int
deriving DecidableEq, Repr

/-- The string is encoded when the first integer is met. -/
def zipProbe (vstr : Bytes) (probe : ZipProbe) : Option ZipProbe :=
  if probe.vencoding = 0 then
    let probe := match zipTryEncoding vstr with
      | some (vll, vencoding) => ⟨vencoding, vll⟩
      | none => { probe with vencoding := ucharMax }
    -- assert(vencoding)
    if probe.vencoding = 0 then none else some probe
  else some probe

/-- The comparison of `ziplistFind` with the entry whose payload is at `q`. -/
def ziplistFindMatch (zl vstr : Bytes) (q : Nat) (l : ZipLength) (probe : ZipProbe) :
    Option (Bool × ZipProbe) := do
  if zipIsStr l.encoding then
    if l.len = vstr.length then
      let s ← load zl q vstr.length
      return (s == vstr, probe)
    else return (false, probe)
  else
    let probe ← zipProbe vstr probe
    if probe.vencoding ≠ ucharMax then
      let ll ← zipLoadInteger zl q l.encoding
      return (ll == probe.vll, probe)
    else return (false, probe)

/-- The loop of `ziplistFind`.  `skipcnt` is an `int` that is given an `unsigned int`; either way
it takes `skip` steps down to zero. -/
def ziplistFindLoop (zl vstr : Bytes) (skip : Nat) :
    (fuel : Nat) → (p skipcnt : Nat) → ZipProbe → Option (Option Nat)
  | 0, _, _, _ => none
  | fuel + 1, p, skipcnt, probe => do
    let b ← zl[p]?
    if b = zipEnd then return none
    else
      let prevlensize ← zipDecodePrevlensize zl p
      let l ← zipDecodeLength zl (p + prevlensize)
      let q := p + prevlensize + l.lensize
      if skipcnt = 0 then
        let (found, probe) ← ziplistFindMatch zl vstr q l probe
        if found then return some p
        else ziplistFindLoop zl vstr skip fuel (q + l.len) skip probe
      else ziplistFindLoop zl vstr skip fuel (q + l.len) (skipcnt - 1) probe

def ziplistFind (zl : Bytes) (p : Nat) (vstr : Bytes) (skip : Nat) : Option (Option Nat) :=
  ziplistFindLoop zl vstr skip zl.length p 0 ⟨0, 0⟩

/-- The loop of `ziplistLen`. -/
def ziplistLenLoop (zl : Bytes) : (fuel : Nat) → (p len : Nat) → Option Nat
  | 0, _, _ => none
  | fuel + 1, p, len => do
    let b ← zl[p]?
    if b = zipEnd then return len
    else
      let n ← zipRawEntryLength zl p
      ziplistLenLoop zl fuel (p + n) (len + 1)

/-- `ziplistLen`: the ziplist, whose header it may repair, and the length. -/
def ziplistLen (zl : Bytes) : Option (Bytes × Nat) := do
  let n ← ziplistLength zl
  if n < UINT16_MAX then return (zl, n)
  else
    let len ← ziplistLenLoop zl zl.length ziplistHeaderSize 0
    let zl ← (if len < UINT16_MAX then store zl 8 (leBytes 2 len) else some zl)
    return (zl, len)

/-! ## Places -/

theorem entryOffset_zero (es : List ZipEntry) : entryOffset es 0 = ziplistHeaderSize := by
  simp [entryOffset, ziplistHeaderSize]

theorem entryOffset_succ {es : List ZipEntry} {i : Nat} {e : ZipEntry} (he : es[i]? = some e) :
    entryOffset es (i + 1) = entryOffset es i + e.rawLen := by
  rw [entryOffset, entryOffset, List.take_add_one, he, toList_some, entriesSize_append]
  simp [Nat.add_assoc]

theorem entryOffset_of_le {es : List ZipEntry} {i : Nat} (h : es.length ≤ i) :
    entryOffset es i = entryOffset es es.length := by
  rw [entryOffset, entryOffset, List.take_of_length_le h, List.take_of_length_le (le_refl _)]

theorem lastLen_take_succ {es : List ZipEntry} {i : Nat} {e : ZipEntry} (he : es[i]? = some e) :
    lastLen 0 (es.take (i + 1)) = e.rawLen := by
  rw [List.take_add_one, he, toList_some, lastLen_append]
  rfl

namespace WellFormed

variable {zl : Bytes} {es : List ZipEntry} {i : Nat} {e : ZipEntry}

theorem byte_at (hwf : WellFormed zl es) (he : es[i]? = some e) :
    ∃ b, zl[entryOffset es i]? = some b ∧ b ≠ zipEnd := by
  obtain ⟨a, c, hp, hfit, rfl⟩ := hwf.entry_behind he
  exact getElem?_entry hp hfit c

theorem rawLen_at (hwf : WellFormed zl es) (he : es[i]? = some e) :
    zipRawEntryLength zl (entryOffset es i) = some e.rawLen := by
  obtain ⟨a, c, hp, hfit, rfl⟩ := hwf.entry_behind he
  exact zipRawEntryLength_append hp hfit c

theorem prevlen_at (hwf : WellFormed zl es) (he : es[i]? = some e) :
    zipDecodePrevlen zl (entryOffset es i) = some (fieldLen e.wide, lastLen 0 (es.take i)) := by
  obtain ⟨a, c, hp, hfit, rfl⟩ := hwf.entry_behind he
  exact zipDecodePrevlen_append hp hfit c

theorem zipEntry_at (hwf : WellFormed zl es) (he : es[i]? = some e) :
    zipEntry zl (entryOffset es i) = some (e.zlentry (lastLen 0 (es.take i))) := by
  obtain ⟨a, c, hp, hfit, rfl⟩ := hwf.entry_behind he
  exact zipEntry_append hp hfit c

/-- The bytes `ziplistFind` reads of an entry, one field after the other. -/
theorem length_at (hwf : WellFormed zl es) (he : es[i]? = some e) :
    zipDecodePrevlensize zl (entryOffset es i) = some (fieldLen e.wide) ∧
      zipDecodeLength zl (entryOffset es i + fieldLen e.wide) = some e.length := by
  have hentry := hwf.zipEntry_at he
  have hprev := hwf.prevlen_at he
  constructor
  · rw [zipDecodePrevlen, bind_eq_some] at hprev
    obtain ⟨size, hsize, hprev⟩ := hprev
    rw [hsize]
    split at hprev
    all_goals
      rw [bind_eq_some] at hprev
      obtain ⟨x, -, hx⟩ := hprev
      rw [(Prod.mk.inj (some.inj hx)).1]
  · rw [zipEntry, hprev] at hentry
    simp only [bind_eq_bind, bind_some, bind_eq_some_iff] at hentry
    obtain ⟨l, hl, heq⟩ := hentry
    have hzl := some.inj heq
    simp only [ZipEntry.zlentry, Zlentry.mk.injEq] at hzl
    obtain ⟨-, -, hlensize, hlen, -, hencoding⟩ := hzl
    rw [hl]
    cases l
    simp_all

/-! ## Walking -/

theorem ziplistNext_at (hwf : WellFormed zl es) (he : es[i]? = some e) :
    ziplistNext zl (entryOffset es i) =
      some (if i + 1 < es.length then some (entryOffset es (i + 1)) else none) := by
  obtain ⟨b, hb, hne⟩ := hwf.byte_at he
  have hlt := (List.getElem?_eq_some_iff.mp he).1
  simp only [ziplistNext, hb, hne, if_false, hwf.rawLen_at he, ← entryOffset_succ he, some_bind]
  by_cases hi : i + 1 < es.length
  · obtain ⟨b', hb', hne'⟩ := hwf.byte_at (List.getElem?_eq_getElem hi)
    simp [hb', hne', hi]
  · obtain hlast : i + 1 = es.length := by omega
    simp [hlast, getElem?_entryOffset_length hwf]

theorem ziplistPrev_succ (hwf : WellFormed zl es) (hi : i + 1 < es.length) :
    ziplistPrev zl (entryOffset es (i + 1)) = some (some (entryOffset es i)) := by
  have he := List.getElem?_eq_getElem (show i < es.length by omega)
  have hnext := List.getElem?_eq_getElem hi
  obtain ⟨b, hb, hne⟩ := hwf.byte_at hnext
  have hpos := es[i].rawLen_ge
  have hsucc := entryOffset_succ he
  have hhead : entryOffset es (i + 1) ≠ ziplistHeaderSize := by
    rw [hsucc, entryOffset, ziplistHeaderSize]
    omega
  have hzero : es[i].rawLen ≠ 0 := by omega
  simp only [ziplistPrev, hb, hne, hhead, if_false, hwf.prevlen_at hnext, lastLen_take_succ he,
    hzero, some_bind, pure_def]
  rw [hsucc, Nat.add_sub_cancel]

theorem ziplistPrev_zero (hwf : WellFormed zl es) (he : es[0]? = some e) :
    ziplistPrev zl (entryOffset es 0) = some none := by
  obtain ⟨b, hb, hne⟩ := hwf.byte_at he
  rw [entryOffset_zero] at hb ⊢
  simp [ziplistPrev, hb, hne]

theorem ziplistPrev_end (hwf : WellFormed zl es) :
    ziplistPrev zl (entryOffset es es.length) =
      some (if es = [] then none else some (entryOffset es (es.length - 1))) := by
  have hend := getElem?_entryOffset_length hwf
  simp only [ziplistPrev, hend, if_true, ziplistTailOffset_of_wellFormed hwf, some_bind]
  by_cases hnil : es = []
  · subst hnil
    rw [List.length_nil, entryOffset_zero] at hend
    simp [hend]
  · have hpos := List.length_pos_of_ne_nil hnil
    obtain ⟨b, hb, hne⟩ :=
      hwf.byte_at (List.getElem?_eq_getElem (show es.length - 1 < es.length by omega))
    simp [hnil, hb, hne]

theorem ziplistIndexLoop_at (hwf : WellFormed zl es) (k : Nat) {j : Nat} (hj : j ≤ es.length) :
    ziplistIndexLoop zl k (entryOffset es j) =
      some (entryOffset es (j + k), j + k - es.length) := by
  induction k generalizing j with
  | zero =>
    rw [ziplistIndexLoop, Nat.add_zero, Nat.sub_eq_zero_of_le hj]
  | succ k ih =>
    rw [ziplistIndexLoop]
    by_cases hlt : j < es.length
    · have he := List.getElem?_eq_getElem hlt
      obtain ⟨b, hb, hne⟩ := hwf.byte_at he
      simp only [hb, hne, if_false, hwf.rawLen_at he, ← entryOffset_succ he, some_bind]
      rw [ih hlt, show j + 1 + k = j + (k + 1) by omega]
    · obtain rfl : j = es.length := by omega
      simp only [getElem?_entryOffset_length hwf, if_true, some_bind]
      rw [entryOffset_of_le (Nat.le_add_right es.length (k + 1)), Nat.add_sub_cancel_left]

theorem ziplistIndexBackLoop_at (hwf : WellFormed zl es) (k : Nat) {j : Nat}
    (hj : j < es.length) :
    ziplistIndexBackLoop zl k (entryOffset es j) (lastLen 0 (es.take j)) =
      some (entryOffset es (j - k), k - j) := by
  induction k generalizing j with
  | zero =>
    rw [Nat.sub_zero, Nat.zero_sub]
    cases lastLen 0 (es.take j) <;> rfl
  | succ k ih =>
    cases j with
    | zero => simp [ziplistIndexBackLoop]
    | succ j =>
      have hj' : j < es.length := by omega
      have he := List.getElem?_eq_getElem hj'
      obtain ⟨m, hm⟩ : ∃ m, es[j].rawLen = m + 1 :=
        ⟨es[j].rawLen - 1, by have := es[j].rawLen_ge; omega⟩
      have hback : entryOffset es (j + 1) - (m + 1) = entryOffset es j := by
        rw [entryOffset_succ he, hm, Nat.add_sub_cancel]
      rw [lastLen_take_succ he, hm, ziplistIndexBackLoop, hback, hwf.prevlen_at he]
      simp only [some_bind]
      rw [ih hj', Nat.add_sub_add_right, Nat.add_sub_add_right]

end WellFormed

/-- The place an index stands for in a list of `n` elements; the negative ones count from the end. -/
def indexPlace (n : Nat) (index : Int) : Option Nat :=
  if 0 ≤ index then if index < n then some index.toNat else none
  else if -(n : Int) ≤ index then some (n + index).toNat else none

namespace WellFormed

variable {zl : Bytes} {es : List ZipEntry} {i : Nat} {e : ZipEntry}

theorem ziplistIndex_eq (hwf : WellFormed zl es) (index : Int) :
    ziplistIndex zl index = some ((indexPlace es.length index).map (entryOffset es)) := by
  have hend := getElem?_entryOffset_length hwf
  by_cases hneg : index < 0
  · obtain ⟨k, hk⟩ : ∃ k : Nat, -index - 1 = k := ⟨(-index - 1).toNat, by omega⟩
    rw [ziplistIndex, if_pos hneg, hk, Int.toNat_natCast, indexPlace,
      if_neg (Int.not_le.mpr hneg), ziplistTailOffset_of_wellFormed hwf]
    by_cases hnil : es = []
    · subst hnil
      rw [List.length_nil, entryOffset_zero] at hend
      simp [hend, ziplistIndexBackLoop, hneg]
    · have hlt : es.length - 1 < es.length := by
        have := List.length_pos_of_ne_nil hnil
        omega
      have he := List.getElem?_eq_getElem hlt
      obtain ⟨b, hb, hne⟩ := hwf.byte_at he
      obtain ⟨b', hb', hne'⟩ := hwf.byte_at
        (List.getElem?_eq_getElem (show es.length - 1 - k < es.length by omega))
      simp only [if_neg hnil, hb, ne_eq, hne, not_false_eq_true, if_true, hwf.prevlen_at he,
        map_some, hwf.ziplistIndexBackLoop_at k hlt, hb', some_bind]
      by_cases hin : -(es.length : Int) ≤ index
      · have hplace : (es.length + index).toNat = es.length - 1 - k := by omega
        rw [if_pos hin, hplace, if_neg (by simp only [hne', false_or]; omega)]
        rfl
      · rw [if_neg hin, if_pos (by omega)]
        rfl
  · obtain ⟨k, rfl⟩ : ∃ k : Nat, index = k := ⟨index.toNat, by omega⟩
    have hloop := hwf.ziplistIndexLoop_at k (Nat.zero_le _)
    rw [entryOffset_zero, Nat.zero_add] at hloop
    rw [ziplistIndex, if_neg hneg, Int.toNat_natCast, hloop, indexPlace, if_pos (by omega)]
    simp only [bind_eq_bind, bind_some]
    by_cases hlt : k < es.length
    · obtain ⟨b, hb, hne⟩ := hwf.byte_at (List.getElem?_eq_getElem hlt)
      rw [hb, if_pos (by omega), Int.toNat_natCast, bind_some,
        if_neg (by simp only [hne, false_or]; omega)]
      rfl
    · rw [entryOffset_of_le (by omega), hend, if_neg (by omega), bind_some,
        if_pos (.inl rfl)]
      rfl

theorem ziplistLenLoop_at (hwf : WellFormed zl es) {fuel j : Nat} (hj : j ≤ es.length)
    (hfuel : es.length < fuel + j) (len : Nat) :
    ziplistLenLoop zl fuel (entryOffset es j) len = some (len + (es.length - j)) := by
  induction fuel generalizing j len with
  | zero => omega
  | succ fuel ih =>
    rw [ziplistLenLoop]
    by_cases hlt : j < es.length
    · have he := List.getElem?_eq_getElem hlt
      obtain ⟨b, hb, hne⟩ := hwf.byte_at he
      simp only [hb, hne, if_false, hwf.rawLen_at he, ← entryOffset_succ he, some_bind]
      rw [ih hlt (by omega)]
      congr 1
      omega
    · obtain rfl : j = es.length := by omega
      simp [getElem?_entryOffset_length hwf]

theorem length_lt (hwf : WellFormed zl es) : es.length < zl.length := by
  obtain ⟨len, -, rfl⟩ := hwf.layout
  have := length_le_entriesSize es
  simp [ziplistOf]
  omega

/-- The counter is right, or the entries are counted; the header stays a good one. -/
theorem ziplistLen_eq (hwf : WellFormed zl es) :
    ∃ zl', ziplistLen zl = some (zl', es.length) ∧ WellFormed zl' es := by
  have hloop := hwf.ziplistLenLoop_at (Nat.zero_le _) (hwf.length_lt.trans_le (Nat.le_refl _)) 0
  rw [entryOffset_zero, Nat.zero_add, Nat.sub_zero] at hloop
  obtain ⟨len, hcount, hzl⟩ := hwf.layout
  have hmax : UINT16_MAX = 65535 := rfl
  have hlen : ziplistLength zl = some len := by
    rw [hzl, ziplistOf, ziplistLength_header (by have := hcount.2; omega)]
  rw [ziplistLen, hlen]
  simp only [bind_eq_bind, bind_some]
  split
  · obtain rfl : len = es.length := hcount.1.resolve_right (by omega)
    exact ⟨zl, rfl, hwf⟩
  · rw [hloop]
    simp only [bind_some]
    split
    · refine ⟨ziplistOf es.length es, ?_, hwf.fits, hwf.size, es.length, ⟨.inl rfl, by omega⟩, rfl⟩
      rw [hzl, ziplistOf, storeLength_header]
      rfl
    · exact ⟨zl, rfl, hwf⟩

end WellFormed

/-! ## Comparing -/

variable {encoding : UInt8} {v : Int}

theorem zipLoadInteger_range {zl : Bytes} {p : Nat} (h : zipLoadInteger zl p encoding = some v) :
    -2 ^ 63 ≤ v ∧ v < 2 ^ 63 := by
  rw [zipLoadInteger] at h
  split at h
  · obtain rfl := some.inj h
    omega
  · split at h
    · rw [bind_eq_some] at h
      obtain ⟨bs, -, hv⟩ := h
      obtain rfl := some.inj hv
      have hpos : 0 < 256 ^ zipIntSize encoding := Nat.pow_pos (by decide)
      have hle : 256 ^ zipIntSize encoding ≤ 256 ^ 8 :=
        Nat.pow_le_pow_right (by decide) (zipIntSize_le encoding)
      have h₁ := Int.le_bmod (x := leNat bs) hpos
      have h₂ := Int.bmod_lt (x := leNat bs) hpos
      omega
    · contradiction

theorem length_ll2string (hlo : -2 ^ 63 ≤ v) (hhi : v < 2 ^ 63) :
    0 < (ll2string v).length ∧ (ll2string v).length ≤ 20 := by
  have hint : (Int64.ofInt v).toInt = v := Int64.toInt_ofInt_of_le (by omega) (by omega)
  have heq := ll2string_eq_canonical (Int64.ofInt v)
  have hle := length_canonical_le (Int64.ofInt v)
  rw [hint] at heq hle
  refine ⟨?_, heq ▸ hle⟩
  rw [ll2string_eq hlo hhi]
  have := List.length_pos_of_ne_nil (decimal_ne_nil v.natAbs)
  split
  · simp
  · exact this

/-- Comparing with the integer a string encodes is comparing the string. -/
theorem zipTryEncoding_eq_iff {s : Bytes} (hlo : -2 ^ 63 ≤ v) (hhi : v < 2 ^ 63) :
    (∃ encoding, zipTryEncoding s = some (v, encoding)) ↔ ll2string v = s := by
  constructor
  · rintro ⟨encoding, h⟩
    exact (zipTryEncoding_spec h).2.1
  · rintro rfl
    have hlen := length_ll2string hlo hhi
    rw [zipTryEncoding, if_neg (by omega), string2ll_ll2string hlo hhi]
    exact ⟨_, rfl⟩

/-- The encoding of a string is neither of the marks of `ziplistFind`. -/
theorem zipTryEncoding_ne {s : Bytes} (h : zipTryEncoding s = some (v, encoding)) :
    encoding ≠ 0 ∧ encoding ≠ ucharMax := by
  obtain ⟨hge, hint, -⟩ := zipTryEncoding_load h
  constructor
  · rintro rfl
    exact hge (by decide)
  · rintro rfl
    exact absurd hint (by decide)

namespace WellFormed

variable {zl : Bytes} {es : List ZipEntry} {i : Nat} {e : ZipEntry} {s : Bytes}

theorem str_at (hwf : WellFormed zl es) (he : es[i]? = some e)
    (hstr : zipIsStr e.length.encoding = true) :
    load zl (entryOffset es i + fieldLen e.wide + e.length.lensize) e.length.len =
      some e.value := by
  obtain ⟨v, hget, hv⟩ := ziplistGet_entryOffset hwf he
  rw [ziplistGet, hwf.zipEntry_at he] at hget
  simp only [ZipEntry.zlentry, hstr, if_true, ← Nat.add_assoc, bind_eq_bind,
    bind_some, bind_eq_some_iff] at hget
  obtain ⟨bs, hload, heq⟩ := hget
  obtain rfl := some.inj heq
  rw [hload, ← hv]
  rfl

theorem int_at (hwf : WellFormed zl es) (he : es[i]? = some e)
    (hstr : zipIsStr e.length.encoding = false) :
    ∃ v, zipLoadInteger zl (entryOffset es i + fieldLen e.wide + e.length.lensize)
      e.length.encoding = some v ∧ ll2string v = e.value := by
  obtain ⟨v, hget, hv⟩ := ziplistGet_entryOffset hwf he
  rw [ziplistGet, hwf.zipEntry_at he] at hget
  simp only [ZipEntry.zlentry, hstr, Bool.false_eq_true, if_false, ← Nat.add_assoc,
    bind_eq_bind, bind_some, bind_eq_some_iff] at hget
  obtain ⟨n, hload, heq⟩ := hget
  obtain rfl := some.inj heq
  exact ⟨n, hload, hv⟩

theorem length_value (hwf : WellFormed zl es) (he : es[i]? = some e)
    (hstr : zipIsStr e.length.encoding = true) : e.value.length = e.length.len := by
  have hload := hwf.str_at he hstr
  rw [load] at hload
  split at hload
  · rw [← some.inj hload, List.length_take, List.length_drop]
    omega
  · contradiction

theorem ziplistCompare_eq (hwf : WellFormed zl es) (he : es[i]? = some e) (s : Bytes) :
    ziplistCompare zl (entryOffset es i) s = some (decide (e.value = s)) := by
  obtain ⟨b, hb, hne⟩ := hwf.byte_at he
  simp only [ziplistCompare, hb, hne, if_false, hwf.zipEntry_at he, ZipEntry.zlentry,
    ← Nat.add_assoc, bind_eq_bind, bind_some]
  cases hstr : zipIsStr e.length.encoding with
  | true =>
    have hlen := hwf.length_value he hstr
    rw [if_pos rfl]
    split
    next heq =>
      rw [← heq, hwf.str_at he hstr]
      simp [beq_eq_decide]
    next hdiff =>
      have hvalue : e.value ≠ s := by
        rintro rfl
        exact hdiff hlen.symm
      simp [hvalue]
  | false =>
    obtain ⟨v, hload, hv⟩ := hwf.int_at he hstr
    obtain ⟨hlo, hhi⟩ := zipLoadInteger_range hload
    have hiff := zipTryEncoding_eq_iff (s := s) hlo hhi
    rw [if_neg (by decide), ← hv]
    cases htry : zipTryEncoding s with
    | none =>
      have hvalue : ll2string v ≠ s := fun heq => by
        obtain ⟨encoding, hsome⟩ := hiff.mpr heq
        rw [htry] at hsome
        contradiction
      simp [hvalue]
    | some r =>
      obtain ⟨sval, encoding⟩ := r
      have hsame : v = sval ↔ ll2string v = s := by
        rw [← hiff, htry]
        simp [eq_comm]
      simp only [hload, bind_some, pure_def, some.injEq]
      rw [beq_eq_decide]
      exact decide_eq_decide.mpr hsame

end WellFormed

/-! ## Searching -/

/-- The first of the strings that is `s`, looking at the one at `c` and then at each that comes
`skip + 1` later. -/
def findEvery (s : Bytes) (skip c : Nat) (values : List Bytes) : Option Nat :=
  (List.range values.length).find? fun r =>
    decide (c ≤ r ∧ (skip + 1) ∣ (r - c)) && decide (values[r]? = some s)

section FindEvery

variable {s x : Bytes} {skip c : Nat} {values : List Bytes}

theorem findEvery_nil : findEvery s skip c [] = none := rfl

theorem findEvery_cons_self : findEvery s skip 0 (s :: values) = some 0 := by
  simp [findEvery, List.range_succ_eq_map]

theorem findEvery_cons_zero (h : x ≠ s) :
    findEvery s skip 0 (x :: values) = (findEvery s skip skip values).map (· + 1) := by
  have hdvd (r : Nat) : (skip + 1) ∣ (r + 1) ↔ skip ≤ r ∧ (skip + 1) ∣ (r - skip) := by
    constructor
    · intro hr
      have hle := Nat.le_of_dvd (Nat.succ_pos r) hr
      have hsub := Nat.dvd_sub hr (Nat.dvd_refl (skip + 1))
      rw [Nat.add_sub_add_right] at hsub
      exact ⟨by omega, hsub⟩
    · rintro ⟨hle, hr⟩
      have hadd := Nat.dvd_add hr (Nat.dvd_refl (skip + 1))
      rwa [← Nat.add_assoc, Nat.sub_add_cancel hle] at hadd
  rw [findEvery, List.length_cons, List.range_succ_eq_map, List.find?_cons_of_neg (by simp [h]),
    List.find?_map, findEvery]
  congr 2
  funext r
  simp [hdvd]

theorem findEvery_cons_succ :
    findEvery s skip (c + 1) (x :: values) = (findEvery s skip c values).map (· + 1) := by
  rw [findEvery, List.length_cons, List.range_succ_eq_map, List.find?_cons_of_neg (by simp),
    List.find?_map, findEvery]
  congr 2
  funext r
  simp

end FindEvery

/-- What `ziplistFind` remembers is nothing yet, or what `zipTryEncoding` says of the string. -/
inductive ZipProbe.Of (s : Bytes) : ZipProbe → Prop where
  | unknown (vll : Int) : ZipProbe.Of s ⟨0, vll⟩
  | str {vll : Int} (htry : zipTryEncoding s = none) : ZipProbe.Of s ⟨ucharMax, vll⟩
  | int {vll : Int} {vencoding : UInt8} (htry : zipTryEncoding s = some (vll, vencoding)) :
      ZipProbe.Of s ⟨vencoding, vll⟩

theorem zipProbe_of {s : Bytes} {probe : ZipProbe} (h : probe.Of s) :
    ∃ probe', zipProbe s probe = some probe' ∧ probe'.Of s ∧
      ((probe'.vencoding = ucharMax ∧ zipTryEncoding s = none) ∨
        (probe'.vencoding ≠ ucharMax ∧
          zipTryEncoding s = some (probe'.vll, probe'.vencoding))) := by
  cases h with
  | unknown vll =>
    cases htry : zipTryEncoding s with
    | none => exact ⟨⟨ucharMax, vll⟩, by simp [zipProbe, htry, ucharMax], .str htry, .inl ⟨rfl, rfl⟩⟩
    | some r =>
      obtain ⟨v, encoding⟩ := r
      obtain ⟨hzero, hmax⟩ := zipTryEncoding_ne htry
      exact ⟨⟨encoding, v⟩, by simp [zipProbe, htry, hzero], .int htry, .inr ⟨hmax, rfl⟩⟩
  | @str vll htry =>
    exact ⟨⟨ucharMax, vll⟩, by simp [zipProbe, ucharMax], .str htry, .inl ⟨rfl, htry⟩⟩
  | @int vll vencoding htry =>
    obtain ⟨hzero, hmax⟩ := zipTryEncoding_ne htry
    exact ⟨⟨vencoding, vll⟩, by simp [zipProbe, hzero], .int htry, .inr ⟨hmax, htry⟩⟩

namespace WellFormed

variable {zl : Bytes} {es : List ZipEntry} {i : Nat} {e : ZipEntry} {s : Bytes}

theorem ziplistFindMatch_eq (hwf : WellFormed zl es) (he : es[i]? = some e) {probe : ZipProbe}
    (hprobe : probe.Of s) :
    ∃ probe', ziplistFindMatch zl s (entryOffset es i + fieldLen e.wide + e.length.lensize)
      e.length probe = some (decide (e.value = s), probe') ∧ probe'.Of s := by
  rw [ziplistFindMatch]
  cases hstr : zipIsStr e.length.encoding with
  | true =>
    have hlen := hwf.length_value he hstr
    rw [if_pos rfl]
    split
    next heq =>
      rw [← heq, hwf.str_at he hstr]
      exact ⟨probe, by simp [beq_eq_decide], hprobe⟩
    next hdiff =>
      have hvalue : e.value ≠ s := by
        rintro rfl
        exact hdiff hlen.symm
      exact ⟨probe, by simp [hvalue], hprobe⟩
  | false =>
    obtain ⟨v, hload, hv⟩ := hwf.int_at he hstr
    obtain ⟨hlo, hhi⟩ := zipLoadInteger_range hload
    have hiff := zipTryEncoding_eq_iff (s := s) hlo hhi
    obtain ⟨probe', hp, hof, hcase⟩ := zipProbe_of hprobe
    refine ⟨probe', ?_, hof⟩
    rw [if_neg (by decide), hp, ← hv]
    simp only [bind_eq_bind, bind_some]
    rcases hcase with ⟨hmax, htry⟩ | ⟨hmax, htry⟩
    · have hvalue : ll2string v ≠ s := fun heq => by
        obtain ⟨encoding, hsome⟩ := hiff.mpr heq
        rw [htry] at hsome
        contradiction
      simp [hmax, hvalue]
    · have hsame : v = probe'.vll ↔ ll2string v = s := by
        rw [← hiff, htry]
        simp [eq_comm]
      simp only [ne_eq, hmax, not_false_eq_true, if_true, hload, bind_some,
        pure_def, some.injEq, Prod.mk.injEq, and_true]
      rw [beq_eq_decide]
      exact decide_eq_decide.mpr hsame

theorem ziplistFindLoop_eq (hwf : WellFormed zl es) {fuel j : Nat} (hj : j ≤ es.length)
    (hfuel : es.length < fuel + j) (skip c : Nat) {probe : ZipProbe} (hprobe : probe.Of s) :
    ziplistFindLoop zl s skip fuel (entryOffset es j) c probe =
      some ((findEvery s skip c ((es.map ZipEntry.value).drop j)).map
        fun r => entryOffset es (j + r)) := by
  induction fuel generalizing j c probe with
  | zero => omega
  | succ fuel ih =>
    rw [ziplistFindLoop]
    by_cases hlt : j < es.length
    · have he := List.getElem?_eq_getElem hlt
      obtain ⟨b, hb, hne⟩ := hwf.byte_at he
      obtain ⟨hsize, hlen⟩ := hwf.length_at he
      have hnext : entryOffset es j + fieldLen es[j].wide + es[j].length.lensize +
          es[j].length.len = entryOffset es (j + 1) := by
        rw [entryOffset_succ he, ZipEntry.rawLen, ← es[j].size]
        omega
      have hdrop : (es.map ZipEntry.value).drop j =
          es[j].value :: (es.map ZipEntry.value).drop (j + 1) := by
        rw [List.drop_eq_getElem_cons (by simpa using hlt), List.getElem_map]
      have hshift (r : Option Nat) : (r.map (· + 1)).map (fun r => entryOffset es (j + r)) =
          r.map fun r => entryOffset es (j + 1 + r) := by
        rw [map_map]
        congr 1
        funext r
        rw [Function.comp_apply, show j + (r + 1) = j + 1 + r by omega]
      simp only [hb, hne, if_false, hsize, hlen, hnext, bind_eq_bind, bind_some]
      rw [hdrop]
      cases c with
      | zero =>
        obtain ⟨probe', hmatch, hprobe'⟩ := hwf.ziplistFindMatch_eq he hprobe
        rw [if_pos rfl, hmatch, bind_some]
        by_cases hvalue : es[j].value = s
        · simp only [hvalue, decide_true, if_true, findEvery_cons_self]
          rfl
        · simp only [hvalue, decide_false, Bool.false_eq_true, if_false]
          rw [ih hlt (by omega) skip hprobe', findEvery_cons_zero hvalue, hshift]
      | succ c =>
        rw [if_neg (Nat.succ_ne_zero c), Nat.add_sub_cancel, ih hlt (by omega) c hprobe,
          findEvery_cons_succ, hshift]
    · obtain rfl : j = es.length := by omega
      rw [List.drop_of_length_le (by simp)]
      simp [getElem?_entryOffset_length hwf, findEvery_nil]

theorem ziplistFind_eq (hwf : WellFormed zl es) (hi : i ≤ es.length) (s : Bytes)
    (skip : Nat) :
    ziplistFind zl (entryOffset es i) s skip =
      some ((findEvery s skip 0 ((es.map ZipEntry.value).drop i)).map
        fun r => entryOffset es (i + r)) :=
  hwf.ziplistFindLoop_eq hi (by have := hwf.length_lt; omega) skip 0 (.unknown 0)

end WellFormed

/-- Reading a well-formed ziplist agrees with the list of its values: indexing from either end,
the value at an entry, the steps forward and backward, the length, comparing and searching. -/
theorem ziplist_reads {zl : Bytes} {es : List ZipEntry} (hwf : WellFormed zl es) :
    (∀ index, ziplistIndex zl index = some ((indexPlace es.length index).map (entryOffset es))) ∧
    (∀ i e, es[i]? = some e →
      (∃ v, ziplistGet zl (entryOffset es i) = some v ∧ v.bytes = e.value) ∧
      ziplistNext zl (entryOffset es i) =
        some (if i + 1 < es.length then some (entryOffset es (i + 1)) else none) ∧
      ziplistPrev zl (entryOffset es i) =
        some (if i = 0 then none else some (entryOffset es (i - 1))) ∧
      ∀ s, ziplistCompare zl (entryOffset es i) s = some (decide (e.value = s))) ∧
    (ziplistPrev zl (entryOffset es es.length) =
      some (if es = [] then none else some (entryOffset es (es.length - 1)))) ∧
    (∃ zl', ziplistLen zl = some (zl', es.length) ∧ WellFormed zl' es) ∧
    ∀ i ≤ es.length, ∀ s skip, ziplistFind zl (entryOffset es i) s skip =
      some ((findEvery s skip 0 ((es.map ZipEntry.value).drop i)).map
        fun r => entryOffset es (i + r)) := by
  refine ⟨hwf.ziplistIndex_eq, fun i e he => ?_, hwf.ziplistPrev_end, hwf.ziplistLen_eq,
    fun i hi => hwf.ziplistFind_eq hi⟩
  refine ⟨ziplistGet_entryOffset hwf he, hwf.ziplistNext_at he, ?_, hwf.ziplistCompare_eq he⟩
  cases i with
  | zero => exact hwf.ziplistPrev_zero he
  | succ i =>
    have hlt := (List.getElem?_eq_some_iff.mp he).1
    exact hwf.ziplistPrev_succ hlt

/-- A string, a small integer and one of two bytes, under a counter that is full. -/
def mixedEntries : List ZipEntry :=
  [letterEntry false,
   ⟨false, [0xfd], ⟨0xfd, 1, 0⟩, by decide, by decide, by decide⟩,
   ⟨true, [0xc0, 44, 1], ⟨zipInt16b, 1, 2⟩, by decide, by decide, by decide⟩]

def mixedZiplist : Bytes := ziplistOf UINT16_MAX mixedEntries

theorem mixedZiplist_wellFormed : WellFormed mixedZiplist mixedEntries where
  fits := ⟨⟨by decide, .inl (by decide)⟩, ⟨by decide, .inl (by decide)⟩, ⟨by decide, .inr rfl⟩,
    trivial⟩
  size := by decide
  layout := ⟨UINT16_MAX, ⟨.inr rfl, by decide⟩, rfl⟩

theorem ziplist_reads_mixed :
    ziplistIndex mixedZiplist (-1) = some (some 15) ∧
      (∃ v, ziplistGet mixedZiplist 15 = some v ∧ v.bytes = [51, 48, 48]) ∧
      ziplistPrev mixedZiplist 15 = some (some 13) ∧
      ziplistNext mixedZiplist 13 = some (some 15) ∧
      ziplistCompare mixedZiplist 15 [51, 48, 48] = some true ∧
      ziplistFind mixedZiplist 10 [51, 48, 48] 1 = some (some 15) ∧
      ∃ zl', ziplistLen mixedZiplist = some (zl', 3) ∧ WellFormed zl' mixedEntries := by
  obtain ⟨hindex, hentry, -, hlen, hfind⟩ := ziplist_reads mixedZiplist_wellFormed
  obtain ⟨hget, -, hprev, hcompare⟩ := hentry 2 _ rfl
  obtain ⟨-, hnext, -⟩ := hentry 1 _ rfl
  exact ⟨(hindex (-1)).trans (by decide), hget, hprev, hnext, (hcompare _).trans (by decide),
    (hfind 0 (by decide) _ 1).trans (by decide), hlen⟩

end Redis
