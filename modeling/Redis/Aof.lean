import Redis.Replication.Replay
import Redis.Sentinel.Config

/-!
# Redis.Aof

The append only file: how a command is written to it, and how the loader reads a command
back with `fgets` and `fread`.

A file that was cut anywhere is `w` in `w ++ future`, where the whole is a file of complete
commands.
-/

namespace Redis.Aof

open List

open Redis.Config (cstr)
open Redis.Sds (isspace)
open Redis.Sentinel (atoi digitsValue readSign digitsValue_append readSign_digit)
open Redis.Replication (Robj crlf numLine)

variable {n : Nat} {p rest w future tail : Bytes} {c : UInt8}

/-! ## Writing -/

def catAppendOnlyGenericCommand (dst : Bytes) (argv : List Robj) : Bytes :=
  argv.foldl
    (fun dst o => dst ++ (36 :: (ll2string o.bytes.length ++ crlf)) ++ o.bytes ++ crlf)
    (dst ++ (42 :: (ll2string argv.length ++ crlf)))

/-- The limits of `int` and of the length of an sds. -/
structure WellFormed (argv : List Bytes) : Prop where
  ne_nil : argv ≠ []
  argc_lt : argv.length < 2 ^ 31
  length_lt : ∀ a ∈ argv, a.length < 2 ^ 32

/-- The bytes of the arguments of a command. -/
def argBytes (argv : List Bytes) : Bytes :=
  argv.flatMap fun a => numLine 36 a.length ++ (crlf ++ (a ++ crlf))

def commandBytes (argv : List Bytes) : Bytes :=
  numLine 42 argv.length ++ (crlf ++ argBytes argv)

/-! ## Reading -/

/-- `fgets` of at most `size` bytes: the line with its newline, what follows it, and whether
the end of the file was met. -/
def fgets : Nat → Bytes → Bytes × Bytes × Bool
  | 0, file => ([], file, false)
  | _ + 1, [] => ([], [], true)
  | size + 1, b :: file =>
    if b = 10 then ([b], file, false)
    else
      let (line, rest, eof) := fgets size file
      (b :: line, rest, eof)

/-- `strtol` to the base 10. -/
def strtol (w : Bytes) : Int :=
  let (negative, ds) := readSign (w.dropWhile isspace)
  let v : Int := digitsValue ds
  if negative then max (-2 ^ 63) (-v) else min (2 ^ 63 - 1) v

/-- The labels that `loadAppendOnlyFile` jumps to while it reads; `feof` is the test that
follows `readerr`. -/
inductive ReadError where
  | readerr (feof : Bool)
  | fmterr
  deriving DecidableEq

/-- The loop of `loadAppendOnlyFile` that reads the arguments. -/
def readArgs : Nat → Bytes → Except ReadError (List Bytes × Bytes)
  | 0, file => .ok ([], file)
  | n + 1, file =>
    if file = [] then .error (.readerr true)
    else
      let (buf, rest, _) := fgets 127 file
      if buf.head? ≠ some 36 then .error .fmterr
      else
        let len := (strtol (cstr buf.tail) % 2 ^ 64).toNat
        if rest.length < len then .error (.readerr true)
        else if (rest.drop len).length < 2 then .error (.readerr true)
        else
          match readArgs n (rest.drop (len + 2)) with
          | .ok (argv, file) => .ok (rest.take len :: argv, file)
          | .error e => .error e

/-- `loadAppendOnlyFile` reads a command, when it is not at the end of the file. -/
def readCommand (file : Bytes) : Except ReadError (List Bytes × Bytes) :=
  let (buf, rest, eof) := fgets 127 file
  if buf.head? ≠ some 42 then .error .fmterr
  else if cstr buf.tail = [] then .error (.readerr eof)
  else
    let argc := atoi (cstr buf.tail)
    if argc < 1 then .error .fmterr
    else readArgs argc.toNat rest

/-! ## Numbers that were cut -/

theorem le_foldl_digits (v : Nat) (bs : Bytes) :
    v ≤ bs.foldl (fun v b => v * 10 + (b.toNat - 48)) v := by
  induction bs generalizing v with
  | nil => exact le_rfl
  | cons b bs ih => exact le_trans (by omega) (ih (v * 10 + (b.toNat - 48)))

theorem head_decimal (hn : 0 < n) : ∃ b bs, decimal n = b :: bs ∧ 49 ≤ b.toNat := by
  induction n using Nat.strong_induction_on with
  | h n ih =>
    by_cases hlt : n < 10
    · rw [decimal_of_lt hlt]
      exact ⟨_, _, rfl, by rw [digitChar_toNat hlt]; omega⟩
    · have hsplit : n = n / 10 * 10 + n % 10 := by omega
      obtain ⟨b, bs, heq, hb⟩ := ih (n / 10) (by omega) (by omega)
      refine ⟨b, bs ++ [digitChar (n % 10)], ?_, hb⟩
      conv_lhs => rw [hsplit]
      rw [decimal_append (by omega) (by omega), heq, cons_append]

/-- The digits of a number that was cut are a number that is not larger, and not zero. -/
theorem foldl_prefix_decimal (hn : 0 < n) (h : p <+: decimal n) (hp : p ≠ []) :
    1 ≤ p.foldl (fun v b => v * 10 + (b.toNat - 48)) 0 ∧
      p.foldl (fun v b => v * 10 + (b.toNat - 48)) 0 ≤ n := by
  obtain ⟨rest, hrest⟩ := h
  constructor
  · obtain ⟨b, bs, heq, hb⟩ := head_decimal hn
    cases p with
    | nil => exact absurd rfl hp
    | cons a p =>
      obtain rfl : a = b := by
        rw [heq] at hrest
        exact (List.cons.inj hrest).1
      rw [foldl_cons]
      exact le_trans (by omega) (le_foldl_digits _ p)
  · rw [← foldl_decimal n, ← hrest, foldl_append]
    exact le_foldl_digits _ rest

theorem digit_of_mem_decimal {b : UInt8} (h : b ∈ decimal n) : 48 ≤ b ∧ b ≤ 57 := by
  have := mem_decimal h
  simpa only [UInt8.le_iff_toNat_le, UInt8.reduceToNat] using this

/-- The sign and the digits that `strtol` and `atoi` read in a line that may be cut. -/
theorem readNumber (hp : p <+: decimal n) (hne : p ≠ []) (hrest : ∀ b ∈ rest.head?, b = 13) :
    readSign ((p ++ rest).dropWhile isspace) = (false, p ++ rest) ∧
      digitsValue (p ++ rest) = p.foldl (fun v b => v * 10 + (b.toNat - 48)) 0 := by
  have hall : ∀ b ∈ p, 48 ≤ b ∧ b ≤ 57 := fun b hb => digit_of_mem_decimal (hp.subset hb)
  refine ⟨?_, digitsValue_append hall fun b hb => ?_⟩
  · cases p with
    | nil => exact absurd rfl hne
    | cons b p => exact readSign_digit (hall b mem_cons_self)
  · rw [hrest b hb]
    decide

theorem atoi_prefix_decimal (hp : p <+: decimal n) (hne : p ≠ [])
    (hrest : ∀ b ∈ rest.head?, b = 13) (hn : 0 < n) (hint : n < 2 ^ 31) :
    atoi (p ++ rest) = (p.foldl (fun v b => v * 10 + (b.toNat - 48)) 0 : Nat) := by
  obtain ⟨hsign, hvalue⟩ := readNumber hp hne hrest
  have hle := (foldl_prefix_decimal hn hp hne).2
  rw [atoi, hsign]
  simp only [hvalue, Bool.false_eq_true, if_false]
  rw [min_eq_right (by omega), Int.bmod_eq_of_le (by omega) (by omega)]

theorem strtol_decimal (hrest : ∀ b ∈ rest.head?, b = 13) (hlong : n < 2 ^ 63) :
    strtol (decimal n ++ rest) = n := by
  obtain ⟨hsign, hvalue⟩ := readNumber (prefix_refl _) (decimal_ne_nil n) hrest
  rw [strtol, hsign]
  simp only [hvalue, foldl_decimal, Bool.false_eq_true, if_false]
  rw [min_eq_right (by omega)]

/-! ## Lines that were cut -/

variable {argv : List Bytes} {size : Nat}

theorem fgets_line {line : Bytes} (h : 10 ∉ line) (hsize : line.length < size) :
    fgets size (line ++ 10 :: rest) = (line ++ [10], rest, false) := by
  induction line generalizing size with
  | nil =>
    obtain ⟨size, rfl⟩ := Nat.exists_eq_add_one.mpr hsize
    simp [fgets]
  | cons b line ih =>
    obtain ⟨size, rfl⟩ := Nat.exists_eq_add_one.mpr (Nat.zero_lt_of_lt hsize)
    rw [mem_cons, not_or] at h
    rw [cons_append, fgets, if_neg (Ne.symm h.1), ih h.2 (by simpa using hsize)]
    simp

theorem fgets_short (h : 10 ∉ w) (hsize : w.length < size) : fgets size w = (w, [], true) := by
  induction w generalizing size with
  | nil =>
    obtain ⟨size, rfl⟩ := Nat.exists_eq_add_one.mpr hsize
    rfl
  | cons b w ih =>
    obtain ⟨size, rfl⟩ := Nat.exists_eq_add_one.mpr (Nat.zero_lt_of_lt hsize)
    rw [mem_cons, not_or] at h
    rw [fgets, if_neg (Ne.symm h.1), ih h.2 (by simpa using hsize)]

/-- A line with a number is there as a whole, or what is there has no newline. -/
theorem header_cases (h : w ++ future = numLine c n ++ (crlf ++ tail)) (hw : w ≠ []) :
    (∃ w', w = numLine c n ++ (crlf ++ w') ∧ w' ++ future = tail) ∨
      ∃ p, w = c :: p ∧ p <+: decimal n ++ [13] := by
  have heq : w ++ future = (c :: (decimal n ++ [13])) ++ 10 :: tail := by
    simpa [numLine, crlf] using h
  have hcut (hpre : w <+: c :: (decimal n ++ [13])) :
      ∃ p, w = c :: p ∧ p <+: decimal n ++ [13] := by
    cases w with
    | nil => exact absurd rfl hw
    | cons b p =>
      obtain ⟨rfl, hp⟩ := cons_prefix_cons.mp hpre
      exact ⟨p, rfl, hp⟩
  rcases append_eq_append_iff.mp heq with ⟨rest, hline, -⟩ | ⟨rest, hline, hrest⟩
  · exact .inr (hcut ⟨rest, hline.symm⟩)
  · cases rest with
    | nil => exact .inr (hcut ⟨[], by simp [hline]⟩)
    | cons b w' =>
      rw [cons_append] at hrest
      obtain ⟨rfl, htail⟩ := List.cons.inj hrest
      exact .inl ⟨w', by simp [hline, numLine, crlf], htail.symm⟩

/-! ## Commands that were cut -/

theorem not_mem_header (hc : c ≠ 10) (hp : p <+: decimal n ++ [13]) : 10 ∉ c :: p := by
  intro hmem
  rcases mem_cons.mp hmem with h | h
  · exact hc h.symm
  · rcases mem_append.mp (hp.subset h) with h | h
    · exact absurd (digit_of_mem_decimal h).1 (by decide)
    · exact absurd (mem_singleton.mp h) (by decide)

theorem length_header_lt (hp : p <+: decimal n ++ [13]) (hlong : n < 2 ^ 63) :
    (c :: p).length < 127 := by
  have hlen := hp.length_le
  have hdec := Replication.length_decimal_le (n := n) (k := 18) (by omega)
  simp only [length_append, length_cons, length_nil] at hlen ⊢
  omega

theorem fgets_header (hc : c ≠ 10) (hlong : n < 2 ^ 63) :
    fgets 127 (numLine c n ++ (crlf ++ w)) = (c :: (decimal n ++ [13, 10]), w, false) := by
  have h : fgets 127 (c :: (decimal n ++ [13]) ++ 10 :: w) = _ :=
    fgets_line (not_mem_header hc (prefix_refl _))
      (length_header_lt (prefix_refl _) hlong)
  simpa [numLine, crlf] using h

theorem fgets_header_short (hc : c ≠ 10) (hp : p <+: decimal n ++ [13]) (hlong : n < 2 ^ 63) :
    fgets 127 (c :: p) = (c :: p, [], true) :=
  fgets_short (not_mem_header hc hp) (length_header_lt hp hlong)

theorem cstr_header (hp : p <+: decimal n ++ [13, 10]) : cstr p = p := by
  rw [cstr, takeWhile_eq_self_iff]
  intro b hb
  rw [decide_eq_true_iff]
  rintro rfl
  rcases mem_append.mp (hp.subset hb) with h | h
  · exact absurd (digit_of_mem_decimal h).1 (by decide)
  · exact absurd h (by decide)

theorem readArgs_header {a : Bytes} (ha : a.length < 2 ^ 32) :
    readArgs (n + 1) (numLine 36 a.length ++ (crlf ++ w)) =
      if w.length < a.length + 2 then .error (.readerr true)
      else
        match readArgs n (w.drop (a.length + 2)) with
        | .ok (argv, file) => .ok (w.take a.length :: argv, file)
        | .error e => .error e := by
  have hcstr : cstr (decimal a.length ++ [13, 10]) = decimal a.length ++ [13, 10] :=
    cstr_header (prefix_refl _)
  have hlong : strtol (decimal a.length ++ [13, 10]) = a.length :=
    strtol_decimal (by simp) (by omega)
  rw [readArgs, if_neg (by simp [numLine]), fgets_header (by decide) (by omega)]
  simp only [head?_cons, ne_eq, not_true, if_false, tail_cons, hcstr, hlong]
  have hlen : ((a.length : Int) % 2 ^ 64).toNat = a.length := by omega
  rw [hlen, length_drop]
  by_cases hshort : w.length < a.length + 2
  · rw [if_pos hshort]
    by_cases hlt : w.length < a.length
    · rw [if_pos hlt]
    · rw [if_neg hlt, if_pos (by omega)]
  · rw [if_neg hshort, if_neg (by omega), if_neg (by omega)]

theorem readArgs_header_short {m : Nat} (hp : p <+: decimal n ++ [13]) (hlong : n < 2 ^ 63) :
    readArgs (m + 1) (36 :: p) = .error (.readerr true) := by
  rw [readArgs, if_neg (by simp), fgets_header_short (by decide) hp hlong]
  simp

theorem readArgs_cut {todo : List Bytes} (hlen : ∀ a ∈ todo, a.length < 2 ^ 32)
    (h : w ++ future = argBytes todo ++ tail) :
    (∃ w', w = argBytes todo ++ w' ∧ readArgs todo.length w = .ok (todo, w')) ∨
      (w.length < (argBytes todo).length ∧
        readArgs todo.length w = .error (.readerr true)) := by
  induction todo generalizing w with
  | nil => exact .inl ⟨w, rfl, rfl⟩
  | cons a todo ih =>
    have ha : a.length < 2 ^ 32 := hlen a mem_cons_self
    have hbytes : argBytes (a :: todo) =
        numLine 36 a.length ++ (crlf ++ (a ++ (crlf ++ argBytes todo))) := by
      simp [argBytes]
    rw [hbytes] at h ⊢
    by_cases hw : w = []
    · subst hw
      exact .inr ⟨by simp [numLine], by rw [length_cons, readArgs, if_pos rfl]⟩
    have h' : w ++ future = numLine 36 a.length ++
        (crlf ++ ((a ++ crlf) ++ (argBytes todo ++ tail))) := by simpa using h
    rcases header_cases h' hw with ⟨w', rfl, hw'⟩ | ⟨p, rfl, hp⟩
    · rw [length_cons, readArgs_header ha]
      by_cases hshort : w'.length < a.length + 2
      · rw [if_pos hshort]
        refine .inr ⟨?_, rfl⟩
        simp only [length_append, crlf, length_cons, length_nil]
        omega
      · have hcut : a ++ crlf <+: w' :=
          prefix_of_prefix_length_le ⟨argBytes todo ++ tail, hw'.symm⟩ ⟨future, rfl⟩
            (by simpa [crlf] using hshort)
        obtain ⟨w'', rfl⟩ := hcut
        have hrest : w'' ++ future = argBytes todo ++ tail := by simpa using hw'
        have htake : (a ++ crlf ++ w'').take a.length = a := by simp
        have hdrop : (a ++ crlf ++ w'').drop (a.length + 2) = w'' := by
          rw [drop_append_of_le_length (by simp [crlf])]
          simp [crlf]
        rw [if_neg hshort, htake, hdrop]
        rcases ih (fun b hb => hlen b (mem_cons_of_mem a hb)) hrest with
          ⟨rest, rfl, hread⟩ | ⟨hlt, hread⟩
        · rw [hread]
          exact .inl ⟨rest, by simp, rfl⟩
        · rw [hread]
          refine .inr ⟨?_, rfl⟩
          simp only [length_append]
          omega
    · rw [length_cons, readArgs_header_short hp (by omega)]
      refine .inr ⟨?_, rfl⟩
      have hle := hp.length_le
      simp only [numLine, crlf, length_append, length_cons, length_nil] at hle ⊢
      omega

/-- The bytes of a command as `catAppendOnlyGenericCommand` writes them. -/
theorem catAppendOnlyGenericCommand_eq (h : WellFormed argv) (dst : Bytes) :
    catAppendOnlyGenericCommand dst (argv.map .raw) = dst ++ commandBytes argv := by
  have hfold : ∀ (todo : List Bytes), (∀ a ∈ todo, a.length < 2 ^ 32) →
      ∀ dst : Bytes, (todo.map Robj.raw).foldl
        (fun dst o => dst ++ (36 :: (ll2string o.bytes.length ++ crlf)) ++ o.bytes ++ crlf) dst =
        dst ++ argBytes todo := by
    intro todo
    induction todo with
    | nil => simp [argBytes]
    | cons a todo ih =>
      intro hlen dst
      have ha := hlen a mem_cons_self
      have hdec : ll2string a.length = decimal a.length :=
        Replication.ll2string_natCast (by omega)
      rw [map_cons, foldl_cons, ih fun b hb => hlen b (mem_cons_of_mem a hb)]
      simp [argBytes, Robj.bytes, numLine, hdec]
  have hargc := h.argc_lt
  rw [catAppendOnlyGenericCommand, hfold argv h.length_lt, length_map,
    Replication.ll2string_natCast (by omega)]
  simp [commandBytes, numLine]

/-- A count that was cut is the count of some command. -/
theorem readCommand_header_short (hp : p <+: decimal n ++ [13]) (hn : 0 < n) (hint : n < 2 ^ 31) :
    readCommand (42 :: p) = .error (.readerr true) := by
  have hcrlf : decimal n ++ [13] <+: decimal n ++ [13, 10] :=
    (prefix_append_right_inj _).mpr ⟨[10], rfl⟩
  have hcstr : cstr p = p := cstr_header (hp.trans hcrlf)
  rw [readCommand, fgets_header_short (by decide) hp (by omega)]
  simp only [head?_cons, ne_eq, not_true, if_false, tail_cons, hcstr]
  by_cases hnil : p = []
  · rw [if_pos hnil]
  rw [if_neg hnil]
  obtain ⟨q, rest, rfl, hq, hne, hrest⟩ : ∃ q rest, p = q ++ rest ∧ q <+: decimal n ∧ q ≠ [] ∧
      ∀ b ∈ rest.head?, b = 13 := by
    rcases prefix_concat_iff.mp hp with rfl | h
    · exact ⟨decimal n, [13], rfl, prefix_refl _, decimal_ne_nil n, by simp⟩
    · exact ⟨p, [], by simp, h, hnil, by simp⟩
  rw [atoi_prefix_decimal hq hne hrest hn hint]
  obtain ⟨hpos, -⟩ := foldl_prefix_decimal hn hq hne
  rw [if_neg (by omega), Int.toNat_natCast]
  obtain ⟨m, hm⟩ := Nat.exists_eq_add_of_le' hpos
  rw [hm, readArgs, if_pos rfl]

theorem readCommand_cut (hwf : WellFormed argv) (h : w ++ future = commandBytes argv ++ tail)
    (hw : w ≠ []) :
    (∃ w', w = commandBytes argv ++ w' ∧ readCommand w = .ok (argv, w')) ∨
      (w.length < (commandBytes argv).length ∧ readCommand w = .error (.readerr true)) := by
  have hpos : 0 < argv.length := length_pos_iff.mpr hwf.ne_nil
  have hargc := hwf.argc_lt
  have h' : w ++ future = numLine 42 argv.length ++ (crlf ++ (argBytes argv ++ tail)) := by
    simpa [commandBytes] using h
  rcases header_cases h' hw with ⟨w', rfl, hw'⟩ | ⟨p, rfl, hp⟩
  · have hcstr : cstr (decimal argv.length ++ [13, 10]) = decimal argv.length ++ [13, 10] :=
      cstr_header (prefix_refl _)
    have hatoi : atoi (decimal argv.length ++ [13, 10]) = argv.length := by
      rw [atoi_prefix_decimal (prefix_refl _) (decimal_ne_nil _) (by simp) hpos hargc,
        foldl_decimal]
    have hread : readCommand (numLine 42 argv.length ++ (crlf ++ w')) =
        readArgs argv.length w' := by
      rw [readCommand, fgets_header (by decide) (by omega)]
      simp only [head?_cons, ne_eq, not_true, if_false, tail_cons, hcstr, hatoi]
      rw [if_neg (by simp), if_neg (by omega), Int.toNat_natCast]
    rw [hread]
    rcases readArgs_cut hwf.length_lt hw' with ⟨rest, rfl, hargs⟩ | ⟨hlt, hargs⟩
    · exact .inl ⟨rest, by simp [commandBytes], hargs⟩
    · refine .inr ⟨?_, hargs⟩
      simp only [commandBytes, length_append]
      omega
  · refine .inr ⟨?_, readCommand_header_short hp hpos hargc⟩
    have hle := hp.length_le
    simp only [commandBytes, numLine, crlf, length_append, length_cons,
      length_nil] at hle ⊢
    omega

end Redis.Aof
