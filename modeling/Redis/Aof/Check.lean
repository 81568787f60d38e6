import Redis.Aof.Load

/-!
# Redis.Aof.Check

`redis-check-aof`: how `process` finds the position up to which an append only file is good,
and what `--fix` leaves of a file that was cut.

The texts of the errors are only printed, and are left out.
-/

namespace Redis.Aof.Check

open List

open Redis.Config (str cstr)
open Redis.Bus (strcaseEq)
open Redis.Sds (isspace)
open Redis.Sentinel (readSign)
open Redis.Replication (crlf numLine)

variable {n fuel : Nat} {c : UInt8} {w future tail : Bytes} {multi : Int}
  {argv : List Bytes} {items : List Item} {cmds : List (List Bytes)}

/-! ## Reading -/

/-- `consumeNewline`, that is `strncmp(buf,"\r\n",2) == 0`. -/
def consumeNewline (buf : Bytes) : Bool := buf.take 2 == crlf

/-- What the `eptr` of `strtol` points to. -/
def strtolEptr (w : Bytes) : Bytes :=
  let (_, ds) := readSign (w.dropWhile isspace)
  let rest := ds.dropWhile fun b => 48 ≤ b && b ≤ 57
  if rest.length = ds.length then w else rest

/-- `readLong`: the number, and the bytes that follow its line. -/
def readLong (c : UInt8) (file : Bytes) : Option (Int × Bytes) :=
  let (buf, rest, _) := fgets 127 file
  if buf.head? ≠ some c then none
  else if consumeNewline (strtolEptr (cstr buf.tail)) then some (strtol (cstr buf.tail), rest)
  else none

/-- `readBytes`; a length below zero is one that no file has. -/
def readBytes (file : Bytes) (length : Int) : Option (Bytes × Bytes) :=
  if 0 ≤ length ∧ length ≤ file.length then
    some (file.take length.toNat, file.drop length.toNat)
  else none

/-- `readString`; with a length below two there is nothing in front of `target+len-2`. -/
def readString (file : Bytes) : Option (Bytes × Bytes) :=
  match readLong 36 file with
  | none => none
  | some (len, file) =>
    let len := len + 2
    match readBytes file len with
    | none => none
    | some (target, file) =>
      if len < 2 then none
      else if consumeNewline (target.drop (target.length - 2)) then
        some (target.take (target.length - 2), file)
      else none

def readArgc (file : Bytes) : Option (Int × Bytes) := readLong 42 file

/-! ## The position -/

/-- What the first argument of a command does to `multi`. -/
def countMulti (multi : Int) (arg : Bytes) : Option Int :=
  if strcaseEq (cstr arg) (str "multi") then
    if multi ≠ 0 then none else some (multi + 1)
  else if strcaseEq (cstr arg) (str "exec") then
    if multi - 1 ≠ 0 then none else some (multi - 1)
  else some multi

/-- The loop of `process` over the arguments from `i` on, of which there are still some. -/
def argsLoop : Nat → Nat → Int → Bytes → Option (Int × Bytes)
  | 0, _, multi, file => some (multi, file)
  | left + 1, i, multi, file =>
    match readString file with
    | none => none
    | some (arg, file) =>
      if i = 0 then
        match countMulti multi arg with
        | none => none
        | some multi => argsLoop left (i + 1) multi file
      else argsLoop left (i + 1) multi file

/-- A turn of `process` after `pos` is set; nothing if it is the last one. -/
def processCommand (multi : Int) (file : Bytes) : Option (Int × Bytes) :=
  match readArgc file with
  | none => none
  | some (argc, file) => argsLoop argc.toNat 0 multi file

/-- The loop of `process`, with the bytes from `ftello(fp)` on. -/
def processLoop (size : Nat) : Nat → Nat → Int → Bytes → Option Nat
  | 0, _, _, _ => none
  | fuel + 1, pos, multi, file =>
    let pos := if multi = 0 then size - file.length else pos
    match processCommand multi file with
    | none => some pos
    | some (multi, file) => processLoop size fuel pos multi file

def process (file : Bytes) : Option Nat :=
  processLoop file.length (file.length + 1) 0 0 file

/-- The file after `main` with `--fix`, to which the user says yes. -/
def fix (file : Bytes) : Option Bytes :=
  if file = [] then some file
  else (process file).map fun pos => if pos < file.length then file.take pos else file

/-! ## Lines -/

variable {exec p : Bytes} {item : Item} {multi' : Int}

theorem strtolEptr_decimal {rest : Bytes} (hp : p <+: decimal n) (hne : p ≠ [])
    (hrest : ∀ b ∈ rest.head?, b = 13) : strtolEptr (p ++ rest) = rest := by
  have hdigits : ∀ b ∈ p, (48 ≤ b && b ≤ 57) = true := fun b hb => by
    simpa using digit_of_mem_decimal (hp.subset hb)
  have hstop : rest.dropWhile (fun b : UInt8 => 48 ≤ b && b ≤ 57) = rest := by
    cases rest with
    | nil => rfl
    | cons b rest =>
      obtain rfl := hrest b rfl
      exact dropWhile_cons_of_neg (by decide)
  have hdrop : (p ++ rest).dropWhile (fun b : UInt8 => 48 ≤ b && b ≤ 57) = rest := by
    rw [dropWhile_append_of_pos hdigits, hstop]
  have hlen : ¬ rest.length = (p ++ rest).length := by
    have := length_pos_iff.mpr hne
    rw [length_append]
    omega
  rw [strtolEptr, (readNumber hp hne hrest).1]
  dsimp only
  rw [hdrop, if_neg hlen]

theorem readLong_header (w : Bytes) (hc : c ≠ 10) (hlong : n < 2 ^ 63) :
    readLong c (numLine c n ++ (crlf ++ w)) = some ((n : Int), w) := by
  have hcstr : cstr (decimal n ++ [13, 10]) = decimal n ++ [13, 10] :=
    cstr_header (prefix_refl _)
  have heptr : strtolEptr (decimal n ++ [13, 10]) = crlf :=
    strtolEptr_decimal (prefix_refl _) (decimal_ne_nil n) (by simp)
  have hvalue : strtol (decimal n ++ [13, 10]) = n := strtol_decimal (by simp) hlong
  rw [readLong, fgets_header hc hlong]
  simp only [head?_cons, ne_eq, not_true, if_false, tail_cons, hcstr, heptr, hvalue]
  rfl

/-- A line that was cut has no newline for `eptr`. -/
theorem readLong_header_short (hc : c ≠ 10) (hp : p <+: decimal n ++ [13]) (hlong : n < 2 ^ 63) :
    readLong c (c :: p) = none := by
  have hcrlf : decimal n ++ [13] <+: decimal n ++ [13, 10] :=
    (prefix_append_right_inj _).mpr ⟨[10], rfl⟩
  have hcstr : cstr p = p := cstr_header (hp.trans hcrlf)
  have heptr : consumeNewline (strtolEptr p) = false := by
    by_cases hnil : p = []
    · subst hnil
      decide
    rcases prefix_concat_iff.mp hp with rfl | h
    · rw [strtolEptr_decimal (prefix_refl _) (decimal_ne_nil n) (by simp)]
      decide
    · have hdigits : strtolEptr (p ++ []) = [] := strtolEptr_decimal h hnil (by simp)
      rw [append_nil] at hdigits
      rw [hdigits]
      decide
  rw [readLong, fgets_header_short hc hp hlong]
  simp [hcstr, heptr]

theorem readLong_nil (c : UInt8) : readLong c [] = none := by simp [readLong, fgets]

/-- A line with a number is read, or the file ends in it. -/
theorem readLong_cut (hc : c ≠ 10) (hlong : n < 2 ^ 63)
    (h : w ++ future = numLine c n ++ (crlf ++ tail)) :
    (∃ w', w = numLine c n ++ (crlf ++ w') ∧ w' ++ future = tail ∧
        readLong c w = some ((n : Int), w')) ∨
      (w.length < (numLine c n ++ crlf).length ∧ readLong c w = none) := by
  by_cases hw : w = []
  · subst hw
    exact .inr ⟨by simp [numLine], readLong_nil c⟩
  rcases header_cases h hw with ⟨w', rfl, hw'⟩ | ⟨p, rfl, hp⟩
  · exact .inl ⟨w', rfl, hw', readLong_header w' hc hlong⟩
  · refine .inr ⟨?_, readLong_header_short hc hp hlong⟩
    have hle := hp.length_le
    simp only [numLine, crlf, length_append, length_cons, length_nil] at hle ⊢
    omega

/-! ## Commands -/

theorem argBytes_cons (a : Bytes) (todo : List Bytes) :
    argBytes (a :: todo) = numLine 36 a.length ++ (crlf ++ (a ++ (crlf ++ argBytes todo))) := by
  simp [argBytes]

/-- An argument is read, also if there are newlines in it, or the file ends in it. -/
theorem readString_cut {a : Bytes} (ha : a.length < 2 ^ 32)
    (h : w ++ future = numLine 36 a.length ++ (crlf ++ (a ++ (crlf ++ tail)))) :
    (∃ w', w = numLine 36 a.length ++ (crlf ++ (a ++ (crlf ++ w'))) ∧ w' ++ future = tail ∧
        readString w = some (a, w')) ∨
      (w.length < (numLine 36 a.length ++ (crlf ++ (a ++ crlf))).length ∧ readString w = none) := by
  rcases readLong_cut (by decide) (by omega) h with ⟨w', rfl, hw', hread⟩ | ⟨hlt, hread⟩
  · have hint : ((a.length : Int) + 2).toNat = a.length + 2 := by omega
    rw [readString, hread]
    dsimp only
    by_cases hshort : w'.length < a.length + 2
    · have hbytes : readBytes w' ((a.length : Int) + 2) = none := by
        rw [readBytes, if_neg (by omega)]
      refine .inr ⟨?_, by rw [hbytes]⟩
      simp only [length_append, crlf, length_cons, length_nil]
      omega
    · have hcut : a ++ crlf <+: w' :=
        prefix_of_prefix_length_le ⟨tail, by simp [hw']⟩ ⟨future, rfl⟩
          (by simpa [crlf] using hshort)
      obtain ⟨w'', rfl⟩ := hcut
      have hrest : w'' ++ future = tail := by simpa using hw'
      have hlen : (a ++ crlf).length = a.length + 2 := by simp [crlf]
      have hbytes : readBytes (a ++ crlf ++ w'') ((a.length : Int) + 2) =
          some (a ++ crlf, w'') := by
        rw [readBytes, if_pos (by rw [length_append, hlen]; omega), hint, ← hlen,
          take_left, drop_left]
      refine .inl ⟨w'', by simp, hrest, ?_⟩
      rw [hbytes]
      dsimp only
      rw [if_neg (by omega), hlen, Nat.add_sub_cancel, drop_left, take_left]
      rfl
  · refine .inr ⟨?_, by rw [readString, hread]⟩
    simp only [length_append] at hlt ⊢
    omega

/-- The arguments behind the first one do not count. -/
theorem argsLoop_cut {todo : List Bytes} {i : Nat} (hlen : ∀ a ∈ todo, a.length < 2 ^ 32)
    (hi : 0 < i) (h : w ++ future = argBytes todo ++ tail) :
    (∃ w', w = argBytes todo ++ w' ∧ w' ++ future = tail ∧
        argsLoop todo.length i multi w = some (multi, w')) ∨
      (w.length < (argBytes todo).length ∧ argsLoop todo.length i multi w = none) := by
  induction todo generalizing i w with
  | nil => exact .inl ⟨w, rfl, h, rfl⟩
  | cons a todo ih =>
    have ha : a.length < 2 ^ 32 := hlen a mem_cons_self
    rw [argBytes_cons] at h ⊢
    rw [length_cons, argsLoop]
    have h' : w ++ future = numLine 36 a.length ++
        (crlf ++ (a ++ (crlf ++ (argBytes todo ++ tail)))) := by simpa using h
    rcases readString_cut ha h' with ⟨w', rfl, hw', hread⟩ | ⟨hlt, hread⟩
    · rw [hread]
      dsimp only
      rw [if_neg (by omega)]
      rcases ih (fun b hb => hlen b (mem_cons_of_mem a hb)) (Nat.succ_pos i) hw' with
        ⟨w'', rfl, hw'', hloop⟩ | ⟨hlt, hloop⟩
      · exact .inl ⟨w'', by simp, hw'', hloop⟩
      · refine .inr ⟨?_, hloop⟩
        simp only [length_append] at hlt ⊢
        omega
    · refine .inr ⟨?_, by rw [hread]⟩
      simp only [length_append] at hlt ⊢
      omega

theorem processCommand_cut (hwf : WellFormed argv)
    (hmulti : countMulti multi (argv.headD []) = some multi')
    (h : w ++ future = commandBytes argv ++ tail) :
    (∃ w', w = commandBytes argv ++ w' ∧ w' ++ future = tail ∧
        processCommand multi w = some (multi', w')) ∨
      (w.length < commandSize argv ∧ processCommand multi w = none) := by
  have hargc := hwf.argc_lt
  have h' : w ++ future = numLine 42 argv.length ++ (crlf ++ (argBytes argv ++ tail)) := by
    simpa [commandBytes] using h
  rw [processCommand, readArgc]
  rcases readLong_cut (by decide) (by omega) h' with ⟨w', rfl, hw', hread⟩ | ⟨hlt, hread⟩
  · rw [hread]
    dsimp only
    rw [Int.toNat_natCast, commandSize, commandBytes]
    obtain ⟨a, todo, rfl⟩ := exists_cons_of_ne_nil hwf.ne_nil
    have ha : a.length < 2 ^ 32 := hwf.length_lt a mem_cons_self
    rw [argBytes_cons] at hw' ⊢
    rw [length_cons, argsLoop]
    have hw'' : w' ++ future = numLine 36 a.length ++
        (crlf ++ (a ++ (crlf ++ (argBytes todo ++ tail)))) := by simpa using hw'
    rw [headD_cons] at hmulti
    rcases readString_cut ha hw'' with ⟨w₁, rfl, hw₁, hstring⟩ | ⟨hlt, hstring⟩
    · rw [hstring]
      dsimp only
      rw [if_pos rfl, hmulti]
      dsimp only
      rcases argsLoop_cut (fun b hb => hwf.length_lt b (mem_cons_of_mem a hb))
        Nat.zero_lt_one hw₁ with ⟨w₂, rfl, hw₂, hloop⟩ | ⟨hlt, hloop⟩
      · exact .inl ⟨w₂, by simp, hw₂, hloop⟩
      · refine .inr ⟨?_, hloop⟩
        simp only [length_append] at hlt ⊢
        omega
    · refine .inr ⟨?_, by rw [hstring]⟩
      simp only [length_append] at hlt ⊢
      omega
  · refine .inr ⟨?_, by rw [hread]⟩
    simp only [commandSize, commandBytes, length_append] at hlt ⊢
    omega

/-! ## What was written -/

/-- A command that is neither `MULTI` nor `EXEC`. -/
structure Inner (argv : List Bytes) : Prop where
  wellFormed : WellFormed argv
  not_multi : strcaseEq (cstr (argv.headD [])) (str "multi") = false
  not_exec : strcaseEq (cstr (argv.headD [])) (str "exec") = false

/-- `MULTI` and `EXEC` are only around a transaction. -/
inductive Balanced : Item → Prop
  | command {argv : List Bytes} : Inner argv → Balanced (.command argv)
  | transaction {cmds : List (List Bytes)} {exec : Bytes} :
      (∀ argv ∈ cmds, Inner argv) → exec.length < 2 ^ 32 →
      strcaseEq (cstr exec) (str "exec") = true → Balanced (.transaction cmds exec)

/-- The longest sequence of items from the first one on that is complete in a file. -/
structure SafePoint (items : List Item) (file : Bytes) (complete : List Item) : Prop where
  front : complete <+: items
  whole : itemsBytes complete <+: file
  longest : ∀ other, other <+: items → itemsBytes other <+: file → other <+: complete

/-- `process` finds the end of the complete items, `--fix` leaves just these, and the loader
takes all of them with either value of `aof-load-truncated`.  Of an empty file it says
`REDIS_ERR`: there is nothing to load. -/
structure Repaired (items : List Item) (file : Bytes) (complete : List Item) : Prop where
  process : process file = some (itemsBytes complete).length
  fix : fix file = some (itemsBytes complete)
  load : ∀ (δ : Type) (known : Bytes → Bool) (exec : Bool → List Bytes → δ → δ)
    (truncated : Bool) (data : δ), (∀ item ∈ items, item.Ok known) →
    loadAppendOnlyFile truncated known exec (itemsBytes complete) data =
      if complete = [] then .err
      else .ok (complete.foldl (Item.run exec) data) (itemsBytes complete)

theorem Inner.countMulti (h : Inner argv) (multi : Int) :
    countMulti multi (argv.headD []) = some multi := by
  rw [Check.countMulti, h.not_multi, h.not_exec]
  rfl

theorem wellFormed_multi : WellFormed [str "MULTI"] := ⟨by decide, by decide, by decide⟩

theorem countMulti_multi : countMulti 0 (str "MULTI") = some 1 := by decide

theorem countMulti_exec (h : strcaseEq (cstr exec) (str "exec") = true) :
    countMulti 1 exec = some 0 := by
  have hmulti : strcaseEq (cstr exec) (str "multi") = false := by
    rw [strcaseEq, beq_iff_eq] at h
    rw [strcaseEq, h]
    decide
  rw [countMulti, hmulti, h]
  rfl

theorem Balanced.wellFormed (h : Balanced item) : ∀ argv ∈ item.commands, WellFormed argv := by
  intro argv hmem
  cases h with
  | command h =>
    rw [mem_singleton.mp hmem]
    exact h.wellFormed
  | transaction hcmds hlen hexec =>
    rcases mem_cons.mp hmem with rfl | hmem
    · exact wellFormed_multi
    rcases mem_append.mp hmem with hmem | hmem
    · exact (hcmds argv hmem).wellFormed
    · rw [mem_singleton.mp hmem]
      exact ⟨by simp, by simp, by simpa using hlen⟩

theorem itemsBytes_balanced (h : ∀ item ∈ items, Balanced item) :
    itemsBytes items = commandsBytes (items.flatMap Item.commands) := by
  refine foldl_catAppendOnlyGenericCommand ?_ []
  intro argv hmem
  obtain ⟨item, hitem, hmem⟩ := mem_flatMap.mp hmem
  exact (h item hitem).wellFormed argv hmem

theorem length_itemsBytes (h : ∀ item ∈ items, Balanced item) :
    (itemsBytes items).length = (items.map Item.size).sum := by
  rw [itemsBytes_balanced h, length_commandsBytes]
  clear h
  induction items with
  | nil => rfl
  | cons item items ih =>
    rw [flatMap_cons, map_append, sum_append, ih, map_cons, sum_cons]
    rfl

/-! ## The position that is found -/

/-- A turn of `process` goes behind a command, or is the last one. -/
theorem processLoop_command (size fuel pos : Nat) (hwf : WellFormed argv)
    (hmulti : countMulti multi (argv.headD []) = some multi')
    (h : w ++ future = commandBytes argv ++ tail) :
    let safe := if multi = 0 then size - w.length else pos
    (∃ w', w = commandBytes argv ++ w' ∧ w' ++ future = tail ∧
        processLoop size (fuel + 1) pos multi w = processLoop size fuel safe multi' w') ∨
      (w.length < commandSize argv ∧ processLoop size (fuel + 1) pos multi w = some safe) := by
  intro safe
  rw [processLoop]
  rcases processCommand_cut hwf hmulti h with ⟨w', hw, hw', hturn⟩ | ⟨hlt, hturn⟩
  · exact .inl ⟨w', hw, hw', by rw [hturn]⟩
  · exact .inr ⟨hlt, by rw [hturn]⟩

variable (size pos : Nat)

/-- Between the commands of a transaction the position stays in front of its `MULTI`. -/
theorem processLoop_inner (hcmds : ∀ argv ∈ cmds, Inner argv) (hfuel : w.length < fuel)
    (h : w ++ future = commandsBytes cmds ++ tail) :
    (∃ w' fuel', w = commandsBytes cmds ++ w' ∧ w' ++ future = tail ∧ w'.length < fuel' ∧
        processLoop size fuel pos 1 w = processLoop size fuel' pos 1 w') ∨
      (w.length < (commandsBytes cmds).length ∧ processLoop size fuel pos 1 w = some pos) := by
  induction cmds generalizing w fuel with
  | nil => exact .inl ⟨w, fuel, rfl, h, hfuel, rfl⟩
  | cons argv cmds ih =>
    obtain ⟨fuel, rfl⟩ := Nat.exists_eq_add_one.mpr (Nat.zero_lt_of_lt hfuel)
    have hinner : Inner argv := hcmds argv mem_cons_self
    have hbytes : commandsBytes (argv :: cmds) = commandBytes argv ++ commandsBytes cmds := rfl
    rw [hbytes, append_assoc] at h
    rw [hbytes, length_append]
    have hpos := commandSize_pos argv
    rw [commandSize] at hpos
    rcases processLoop_command size fuel pos hinner.wellFormed (hinner.countMulti 1) h with
      ⟨w', rfl, hw', hturn⟩ | ⟨hlt, hturn⟩
    · rw [hturn, if_neg one_ne_zero]
      rw [length_append] at hfuel
      have hfuel' : w'.length < fuel := by omega
      rcases ih (fun b hb => hcmds b (mem_cons_of_mem argv hb)) hfuel' hw' with
        ⟨w'', fuel', rfl, hw'', hfuel', hloop⟩ | ⟨hlt, hloop⟩
      · exact .inl ⟨w'', fuel', by simp, hw'', hfuel', hloop⟩
      · exact .inr ⟨by rw [length_append]; omega, hloop⟩
    · rw [hturn, if_neg one_ne_zero]
      rw [commandSize] at hlt
      exact .inr ⟨by omega, rfl⟩

/-- The position goes behind a command, or stays in front of it. -/
theorem processLoop_outer (hinner : Inner argv) (hfuel : w.length < fuel + 1)
    (h : w ++ future = commandBytes argv ++ tail) :
    (∃ w' fuel' pos', w = commandBytes argv ++ w' ∧ w' ++ future = tail ∧ w'.length < fuel' ∧
        processLoop size (fuel + 1) pos 0 w = processLoop size fuel' pos' 0 w') ∨
      (w.length < (commandBytes argv).length ∧
        processLoop size (fuel + 1) pos 0 w = some (size - w.length)) := by
  have hpos := commandSize_pos argv
  rw [commandSize] at hpos
  rcases processLoop_command size fuel pos hinner.wellFormed (hinner.countMulti 0) h with
    ⟨w', rfl, hw', hturn⟩ | ⟨hlt, hturn⟩
  · rw [length_append] at hfuel
    exact .inl ⟨w', fuel, _, rfl, hw', by omega, hturn⟩
  · exact .inr ⟨hlt, hturn⟩

/-- The position goes behind a transaction when its `EXEC` was read. -/
theorem processLoop_transaction (hcmds : ∀ argv ∈ cmds, Inner argv) (hlen : exec.length < 2 ^ 32)
    (hexec : strcaseEq (cstr exec) (str "exec") = true) (hfuel : w.length < fuel + 1)
    (h : w ++ future =
      commandBytes [str "MULTI"] ++ (commandsBytes cmds ++ (commandBytes [exec] ++ tail))) :
    (∃ w' fuel' pos',
        w = commandBytes [str "MULTI"] ++ (commandsBytes cmds ++ (commandBytes [exec] ++ w')) ∧
        w' ++ future = tail ∧ w'.length < fuel' ∧
        processLoop size (fuel + 1) pos 0 w = processLoop size fuel' pos' 0 w') ∨
      (w.length < (commandBytes [str "MULTI"] ++ (commandsBytes cmds ++ commandBytes [exec])).length ∧
        processLoop size (fuel + 1) pos 0 w = some (size - w.length)) := by
  have hwf : WellFormed [exec] := ⟨by simp, by simp, by simpa using hlen⟩
  have hmulti := commandSize_pos [str "MULTI"]
  have hexecPos := commandSize_pos [exec]
  rw [commandSize] at hmulti hexecPos
  obtain ⟨safe, hsafe⟩ : ∃ safe, safe = size - w.length := ⟨_, rfl⟩
  rw [length_append, length_append, ← hsafe]
  rcases processLoop_command size fuel pos wellFormed_multi countMulti_multi h with
    ⟨w₁, rfl, hw₁, hturn⟩ | ⟨hlt, hturn⟩
  · rw [hturn, if_pos rfl, ← hsafe]
    rw [length_append] at hfuel
    have hfuel₁ : w₁.length < fuel := by omega
    rcases processLoop_inner size safe hcmds hfuel₁ hw₁ with
      ⟨w₂, fuel₂, rfl, hw₂, hfuel₂, hloop⟩ | ⟨hlt, hloop⟩
    · obtain ⟨fuel₂, rfl⟩ := Nat.exists_eq_add_one.mpr (Nat.zero_lt_of_lt hfuel₂)
      rw [hloop]
      rcases processLoop_command size fuel₂ _ hwf (countMulti_exec hexec) hw₂ with
        ⟨w₃, rfl, hw₃, hlast⟩ | ⟨hlt, hlast⟩
      · rw [length_append] at hfuel₂
        exact .inl ⟨w₃, fuel₂, _, rfl, hw₃, by omega, hlast⟩
      · rw [commandSize] at hlt
        refine .inr ⟨?_, by rw [hlast, if_neg one_ne_zero]⟩
        simp only [length_append]
        omega
    · refine .inr ⟨?_, hloop⟩
      rw [length_append]
      omega
  · rw [commandSize] at hlt
    exact .inr ⟨by omega, by rw [hturn, if_pos rfl, hsafe]⟩

/-- The position goes behind an item, or stays in front of it. -/
theorem processLoop_item (hitem : Balanced item) (hfuel : w.length < fuel)
    (h : w ++ future = commandsBytes item.commands ++ tail) :
    (∃ w' fuel' pos', w = commandsBytes item.commands ++ w' ∧ w' ++ future = tail ∧
        w'.length < fuel' ∧ processLoop size fuel pos 0 w = processLoop size fuel' pos' 0 w') ∨
      (w.length < (commandsBytes item.commands).length ∧
        processLoop size fuel pos 0 w = some (size - w.length)) := by
  obtain ⟨fuel, rfl⟩ := Nat.exists_eq_add_one.mpr (Nat.zero_lt_of_lt hfuel)
  cases hitem with
  | @command argv hinner =>
    have hbytes : commandsBytes (Item.command argv).commands = commandBytes argv := by
      simp [Item.commands, commandsBytes]
    rw [hbytes] at h ⊢
    exact processLoop_outer size pos hinner hfuel h
  | @transaction cmds exec hcmds hlen hexec =>
    have hbytes : commandsBytes (Item.transaction cmds exec).commands =
        commandBytes [str "MULTI"] ++ (commandsBytes cmds ++ commandBytes [exec]) := by
      simp [Item.commands, commandsBytes]
    rw [hbytes, append_assoc, append_assoc] at h
    rw [hbytes]
    simpa only [append_assoc] using
      processLoop_transaction size pos hcmds hlen hexec hfuel h

theorem processLoop_items (read pos : Nat) (hitems : ∀ item ∈ items, Balanced item)
    (hfuel : w.length < fuel) (h : w ++ future = commandsBytes (items.flatMap Item.commands)) :
    processLoop (read + w.length) fuel pos 0 w =
      some (read + ((fitting Item.size w.length items).map Item.size).sum) := by
  induction items generalizing w fuel read pos with
  | nil =>
    obtain ⟨fuel, rfl⟩ := Nat.exists_eq_add_one.mpr (Nat.zero_lt_of_lt hfuel)
    obtain ⟨rfl, -⟩ := append_eq_nil_iff.mp h
    have hturn : processCommand 0 [] = none := by rw [processCommand, readArgc, readLong_nil]
    rw [processLoop, hturn]
    rfl
  | cons item items ih =>
    have hbytes : commandsBytes ((item :: items).flatMap Item.commands) =
        commandsBytes item.commands ++ commandsBytes (items.flatMap Item.commands) := by
      simp [commandsBytes]
    have hsize : (commandsBytes item.commands).length = item.size := length_commandsBytes _
    rw [hbytes] at h
    rcases processLoop_item (read + w.length) pos (hitems item mem_cons_self) hfuel h with
      ⟨w', fuel', pos', rfl, hw', hfuel', hloop⟩ | ⟨hlt, hloop⟩
    · rw [hloop, length_append, hsize, fitting, if_pos (Nat.le_add_right _ _),
        Nat.add_sub_cancel_left, ← Nat.add_assoc,
        ih _ _ (fun b hb => hitems b (mem_cons_of_mem item hb)) hfuel' hw', map_cons,
        sum_cons, Nat.add_assoc]
    · rw [hloop, fitting, if_neg (by omega), Nat.add_sub_cancel]
      rfl

/-! ## The repaired file -/

theorem prefix_itemsBytes {front : List Item} (h : ∀ item ∈ items, Balanced item)
    (hfront : front <+: items) : itemsBytes front <+: itemsBytes items := by
  obtain ⟨rest, rfl⟩ := hfront
  have hbytes : itemsBytes front = commandsBytes (front.flatMap Item.commands) :=
    itemsBytes_balanced fun item hitem => h item (mem_append_left rest hitem)
  rw [hbytes, itemsBytes_balanced h, flatMap_append, commandsBytes, commandsBytes,
    flatMap_append]
  exact prefix_append _ _

theorem safePoint_fitting (h : ∀ item ∈ items, Balanced item) (n : Nat) :
    SafePoint items ((itemsBytes items).take n) (fitting Item.size n items) := by
  have hlength {front : List Item} (hfront : front <+: items) :
      (itemsBytes front).length = (front.map Item.size).sum :=
    length_itemsBytes fun item hitem => h item (hfront.subset hitem)
  refine ⟨prefix_fitting n items, ?_, ?_⟩
  · rw [prefix_take_iff]
    refine ⟨prefix_itemsBytes h (prefix_fitting n items), ?_⟩
    rw [hlength (prefix_fitting n items)]
    exact sum_fitting_le n items
  · intro other hother hwhole
    have hle := (prefix_take_iff.mp hwhole).2
    rw [hlength hother] at hle
    exact fitting_longest hother hle

theorem process_take (h : ∀ item ∈ items, Balanced item) (n : Nat) :
    process ((itemsBytes items).take n) = some (itemsBytes (fitting Item.size n items)).length := by
  have hcut : (itemsBytes items).take n ++ (itemsBytes items).drop n =
      commandsBytes (items.flatMap Item.commands) := by
    rw [take_append_drop, itemsBytes_balanced h]
  have hfit : fitting Item.size ((itemsBytes items).take n).length items =
      fitting Item.size n items := by
    rw [length_take, length_itemsBytes h, fitting_min]
  have hloop := processLoop_items 0 0 h (Nat.lt_succ_self _) hcut
  rw [Nat.zero_add, Nat.zero_add, hfit] at hloop
  rw [process, hloop, length_itemsBytes fun item hitem =>
    h item ((prefix_fitting n items).subset hitem)]

/-- A position in the file is one up to which it is kept. -/
theorem fix_of_process {file front : Bytes} (hfront : front <+: file)
    (hprocess : process file = some front.length) : fix file = some front := by
  rw [fix, hprocess, Option.map_some]
  by_cases hnil : file = []
  · subst hnil
    rw [if_pos rfl, prefix_nil.mp hfront]
  rw [if_neg hnil]
  by_cases hlt : front.length < file.length
  · rw [if_pos hlt, ← prefix_iff_eq_take.mp hfront]
  · rw [if_neg hlt, hfront.eq_of_length_le (Nat.le_of_not_lt hlt)]

section Loading

variable {δ : Type} {known : Bytes → Bool}

/-- Commands that are all there are loaded, also without `aof-load-truncated`. -/
theorem loadLoop_whole {c : FakeClient δ} (truncated : Bool)
    (exec : Bool → List Bytes → δ → δ) (file : Bytes) (validUpTo : Nat)
    (hcmds : ∀ argv ∈ cmds, WellFormed argv ∧ lookupCommand known (argv.headD []))
    (hmulti : (cmds.foldl (FakeClient.proc exec) c).multi = false)
    (hfuel : (commandsBytes cmds).length < fuel) :
    loadLoop truncated known exec file fuel c validUpTo (commandsBytes cmds) =
      .ok (cmds.foldl (FakeClient.proc exec) c).data file := by
  induction cmds generalizing fuel validUpTo c with
  | nil =>
    obtain ⟨fuel, rfl⟩ := Nat.exists_eq_add_one.mpr (Nat.zero_lt_of_lt hfuel)
    rw [foldl_nil] at hmulti
    have hnil : commandsBytes [] = [] := rfl
    rw [loadLoop, if_pos hnil, hmulti]
    rfl
  | cons argv cmds ih =>
    obtain ⟨fuel, rfl⟩ := Nat.exists_eq_add_one.mpr (Nat.zero_lt_of_lt hfuel)
    obtain ⟨hwf, hknown⟩ := hcmds argv mem_cons_self
    have hbytes : commandsBytes (argv :: cmds) = commandBytes argv ++ commandsBytes cmds := rfl
    have hpos := commandSize_pos argv
    rw [commandSize] at hpos
    have hne : commandsBytes (argv :: cmds) ≠ [] := by
      rw [hbytes]
      exact append_ne_nil_of_left_ne_nil (length_pos_iff.mp hpos) _
    have hall : commandsBytes (argv :: cmds) ++ [] = commandBytes argv ++ commandsBytes cmds := by
      rw [append_nil, hbytes]
    have hread : readCommand (commandsBytes (argv :: cmds)) = .ok (argv, commandsBytes cmds) := by
      rcases readCommand_cut hwf hall hne with
        ⟨w', hw', hread⟩ | ⟨hlt, -⟩
      · rw [hbytes, append_cancel_left_eq] at hw'
        rw [hread, ← hw']
      · rw [hbytes, length_append] at hlt
        omega
    have hfuel' : (commandsBytes cmds).length < fuel := by
      rw [hbytes, length_append] at hfuel
      omega
    rw [loadLoop, if_neg hne, hread]
    simp only [hknown, not_true, if_false]
    rw [ih _ (fun b hb => hcmds b (mem_cons_of_mem argv hb)) hmulti hfuel']
    rfl

/-- Whole items are run one after another, and the file stays as it is. -/
theorem load_whole (h : ∀ item ∈ items, item.Ok known) (truncated : Bool)
    (exec : Bool → List Bytes → δ → δ) (data : δ) :
    loadAppendOnlyFile truncated known exec (itemsBytes items) data =
      if items = [] then .err
      else .ok (items.foldl (Item.run exec) data) (itemsBytes items) := by
  rw [loadAppendOnlyFile]
  cases items with
  | nil => rfl
  | cons item items =>
    have hcmds : ∀ argv ∈ (item :: items).flatMap Item.commands,
        WellFormed argv ∧ lookupCommand known (argv.headD []) := by
      intro argv hmem
      obtain ⟨b, hb, hmem⟩ := mem_flatMap.mp hmem
      exact (h b hb).commands argv hmem
    have hne : itemsBytes (item :: items) ≠ [] := by
      rw [itemsBytes_eq h, ← length_pos_iff, length_commandsBytes]
      cases item <;> simp [Item.commands, commandSize_pos]
    have hfold : ((item :: items).flatMap Item.commands).foldl (FakeClient.proc exec)
        (createFakeClient data) = _ := foldl_proc_items h data
    rw [if_neg hne, if_neg (cons_ne_nil item items)]
    have hmulti : (((item :: items).flatMap Item.commands).foldl (FakeClient.proc exec)
        (createFakeClient data)).multi = false := by rw [hfold]; rfl
    have hloop := loadLoop_whole truncated exec (itemsBytes (item :: items)) 0 hcmds hmulti
      (Nat.lt_succ_self _)
    rw [← itemsBytes_eq h, hfold] at hloop
    exact hloop

/-- `--fix` and `aof-load-truncated` are two ways to recover a file that was cut.  They leave the
same dataset and the same bytes just if the cut is not in a transaction. -/
theorem fix_agrees_iff {known : Bytes → Bool}
    (h : ∀ item ∈ items, Balanced item ∧ item.Ok known) (exec : Bool → List Bytes → δ → δ)
    (n : Nat) (data : δ) :
    let file := (itemsBytes items).take n
    let load truncated file :=
      (loadAppendOnlyFile truncated known exec file data).state data file
    (∃ repaired, fix file = some repaired ∧ load false repaired = load true file) ↔
      ¬ cutInTransaction n items := by
  intro file load
  have hbal : ∀ item ∈ items, Balanced item := fun item hmem => (h item hmem).1
  have hok : ∀ item ∈ items, item.Ok known := fun item hmem => (h item hmem).2
  have hsafe := safePoint_fitting hbal n
  have hfix : fix file = some (itemsBytes (fitting Item.size n items)) :=
    fix_of_process hsafe.whole (process_take hbal n)
  have hfixed : load false (itemsBytes (fitting Item.size n items)) =
      some ((fitting Item.size n items).foldl (Item.run exec) data,
        itemsBytes (fitting Item.size n items)) := by
    simp only [load]
    rw [load_whole (fun item hmem => hok item (hsafe.front.subset hmem))]
    by_cases hnil : fitting Item.size n items = []
    · rw [if_pos hnil, hnil]
      rfl
    · rw [if_neg hnil]
      rfl
  constructor
  · rintro ⟨repaired, hrepaired, hload⟩ hcut
    obtain rfl := Option.some_inj.mp (hfix.symm.trans hrepaired)
    exact not_recovers_of_cutInTransaction hok hcut data (hload.symm.trans hfixed)
  · intro hcut
    obtain ⟨cut, hnil, hstate⟩ := load_items exec hok n data
    obtain rfl := hnil.mpr hcut
    refine ⟨_, hfix, hfixed.trans (hstate.trans ?_).symm⟩
    simp [commandsBytes, createFakeClient]

/-- The cut is in the second `SET`, which is in no transaction. -/
theorem fix_agrees_command :
    let file := (itemsBytes [.command setCmd, .command setCmd]).take 30
    let load truncated file := (loadAppendOnlyFile truncated (fun _ => true)
      (fun _ argv log => log ++ [argv]) file []).state [] file
    ∃ repaired, fix file = some repaired ∧ load false repaired = load true file := by
  have hset : Inner setCmd := ⟨plain_setCmd.wellFormed, by decide, by decide⟩
  refine (fix_agrees_iff ?_ _ 30 []).mpr (by simp [cutInTransaction, Item.Opened])
  simpa using ⟨Balanced.command hset, Item.Ok.command plain_setCmd⟩

end Loading

/-- A file that was cut anywhere is repaired up to its last safe point. -/
theorem safe_point {items : List Item} (h : ∀ item ∈ items, Balanced item) (n : Nat) :
    ∃ complete, SafePoint items ((itemsBytes items).take n) complete ∧
      Repaired items ((itemsBytes items).take n) complete := by
  have hsafe := safePoint_fitting h n
  have hprocess := process_take h n
  refine ⟨fitting Item.size n items, hsafe, hprocess, fix_of_process hsafe.whole hprocess, ?_⟩
  intro δ known exec truncated data hok
  exact load_whole (fun item hitem => hok item (hsafe.front.subset hitem)) truncated exec data

/-- The cut is in the `EXEC` of the transaction. -/
theorem safe_point_transaction :
    let items := [.command setCmd, .transaction [setCmd] (str "EXEC")]
    ∃ complete, SafePoint items ((itemsBytes items).take 75) complete ∧
      Repaired items ((itemsBytes items).take 75) complete := by
  have hset : Inner setCmd := ⟨plain_setCmd.wellFormed, by decide, by decide⟩
  refine safe_point ?_ 75
  intro item hmem
  rcases mem_pair.mp hmem with rfl | rfl
  · exact .command hset
  · exact .transaction (by simpa using hset) (by decide) (by decide)

end Redis.Aof.Check
