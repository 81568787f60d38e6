import Redis.Aof.Expire

/-!
# Redis.Aof.Absolute

When the loader sets the expire times that the keys had: `SET` with `EX` or `PX` and
`RESTORE` with a time to live are written as they are, with a relative time.
-/

namespace Redis.Aof

open List
open Function (update)

open Redis.Config (str cstr)
open Redis.Sds (isspace)
open Redis.Bus (strcaseEq strcaseEq_congr)
open Redis.Sentinel (readSign digitsValue digitsValue_append readSign_digit)
open Redis.Replication (getLongLongFromObject selectName selectCmd numLine crlf
  selectCommand_ll2string getLongLongFromObject_decimal)

variable {ν : Type}

/-! ## Numbers -/

theorem digitsValue_digits {digits : Bytes} (h : ∀ b ∈ digits, 48 ≤ b ∧ b ≤ 57) :
    digitsValue digits = digits.foldl (fun v b => v * 10 + (b.toNat - 48)) 0 := by
  have hstop : ∀ b ∈ ([] : Bytes).head?, ¬ (48 ≤ b ∧ b ≤ 57) := by simp
  have heq := digitsValue_append h hstop
  rwa [append_nil] at heq

theorem strtol_of_getLongLong {s : Bytes} {v : Int}
    (h : getLongLongFromObject s = some v) : strtol (cstr s) = v := by
  rw [getLongLongFromObject] at h
  rw [cstr]
  generalize s.takeWhile (· ≠ 0) = t at h
  rcases t with _ | ⟨b, t⟩
  · obtain rfl : 0 = v := by simpa using h
    decide
  by_cases hminus : b = 45
  · subst hminus
    simp at h
    obtain ⟨⟨-, hdigits⟩, hrange, rfl⟩ := h
    have hdigits : ∀ b ∈ t, 48 ≤ b ∧ b ≤ 57 := by simpa using hdigits
    have hsign : readSign ((45 :: t).dropWhile isspace) = (true, t) := rfl
    rw [strtol, hsign]
    simp only [digitsValue_digits hdigits, if_true]
    rw [max_eq_right (by omega)]
  by_cases hplus : b = 43
  · subst hplus
    simp at h
    obtain ⟨⟨-, hdigits⟩, hrange, rfl⟩ := h
    have hdigits : ∀ b ∈ t, 48 ≤ b ∧ b ≤ 57 := by simpa using hdigits
    have hsign : readSign ((43 :: t).dropWhile isspace) = (false, t) := rfl
    rw [strtol, hsign]
    simp only [digitsValue_digits hdigits, Bool.false_eq_true, if_false]
    rw [min_eq_right (by omega)]
  · simp [hminus, hplus] at h
    obtain ⟨hdigits, hrange, rfl⟩ := h
    have hall : ∀ x ∈ b :: t, 48 ≤ x ∧ x ≤ 57 := by simpa [and_assoc] using hdigits
    rw [strtol, readSign_digit (hall b mem_cons_self)]
    simp only [digitsValue_digits hall, Bool.false_eq_true, if_false, foldl_cons,
      Nat.zero_mul, Nat.zero_add]
    rw [min_eq_right (by omega)]

variable {cmd : Proc} (w : Int64) (dictid : Int)

theorem getLongLongFromObject_ll2string :
    getLongLongFromObject (ll2string w.toInt) = some w.toInt := by
  have hlo := w.le_toInt
  have hhi := w.toInt_lt
  by_cases hneg : w.toInt < 0
  · obtain ⟨n, hn⟩ : ∃ n : Nat, w.toInt = -(n : Int) := ⟨w.toInt.natAbs, by omega⟩
    rw [ll2string_eq hlo hhi, if_pos hneg, hn]
    have hmem : ∀ b ∈ decimal n, 48 ≤ b ∧ b ≤ 57 := fun b hb => digit_of_mem_decimal hb
    have htake : (45 :: decimal n).takeWhile (· ≠ 0) = 45 :: decimal n := by
      rw [takeWhile_eq_self_iff]
      intro b hb
      rw [decide_eq_true_iff]
      rintro rfl
      rcases mem_cons.mp hb with hb | hb
      · cases hb
      · exact absurd (hmem 0 hb).1 (by decide)
    have hall : (decimal n).all (fun b => 48 ≤ b && b ≤ 57) = true := by
      rw [all_eq_true]
      intro b hb
      simpa using hmem b hb
    rw [Int.natAbs_neg, Int.natAbs_natCast]
    simp only [getLongLongFromObject, htake]
    rw [if_neg (cons_ne_nil _ _), if_neg (by simp [decimal_ne_nil, hall]), foldl_decimal]
    simp only [if_true]
    rw [if_pos (by omega)]
  · obtain ⟨n, hn⟩ := Int.eq_ofNat_of_zero_le (Int.not_lt.mp hneg)
    rw [hn, Replication.ll2string_natCast (by omega), getLongLongFromObject_decimal (by omega)]

/-! ## What is written -/

/-- The `PEXPIREAT` that `catAppendOnlyExpireAtCommand` writes. -/
def expireAtArgv (now : Int64) (cmd : Proc) (key seconds : Bytes) : List Bytes :=
  let time := Int64.ofInt (strtol (cstr seconds))
  let time :=
    if cmd = .expire ∨ cmd = .setex ∨ cmd = .expireat then time * 1000 else time
  let time :=
    if cmd = .expire ∨ cmd = .pexpire ∨ cmd = .setex ∨ cmd = .psetex then time + now else time
  [str "PEXPIREAT", key, ll2string time.toInt]

/-- The commands that `feedAppendOnlyFile` writes for a command. -/
def translated (now : Int64) (cmd : Proc) (argv : List Bytes) : List (List Bytes) :=
  let key := argv.getD 1 []
  if cmd = .expire ∨ cmd = .pexpire ∨ cmd = .expireat then
    [expireAtArgv now cmd key (argv.getD 2 [])]
  else if cmd = .setex ∨ cmd = .psetex then
    [[str "SET", key, argv.getD 3 []], expireAtArgv now cmd key (argv.getD 2 [])]
  else [argv]

/-- They follow a `SELECT`, when another database was selected. -/
def fed (now : Int64) (cmd : Proc) (dictid : Int) (argv : List Bytes) (selected : Int) :
    List (List Bytes) :=
  (if dictid ≠ selected then [[selectName, ll2string dictid]] else []) ++ translated now cmd argv

/-- A database of the server. -/
structure ValidDb (dbnum : Nat) (db : Int) : Prop where
  nonneg : 0 ≤ db
  lt : db < dbnum
  int : db < 2 ^ 31

theorem selectCmd_eq : selectCmd dictid = commandBytes [selectName, ll2string dictid] := by
  have htwo : decimal 2 = [50] := decimal_of_lt (by decide)
  have hsix : decimal 6 = [54] := decimal_of_lt (by decide)
  simp [selectCmd, commandBytes, argBytes, numLine, crlf, selectName, htwo, hsix]

/-- Lengths of what is written for a number. -/
theorem length_ll2string_lt : (ll2string w.toInt).length < 2 ^ 32 := by
  have hlo := w.le_toInt
  have hhi := w.toInt_lt
  have hlen : (decimal w.toInt.natAbs).length ≤ 19 + 1 :=
    Replication.length_decimal_le (by omega)
  rw [ll2string_eq hlo hhi]
  split
  · rw [length_cons]
    omega
  · omega

/-- An argument of a command is not too long. -/
theorem WellFormed.length_getD {argv : List Bytes} (h : WellFormed argv) (i : Nat) :
    (argv.getD i []).length < 2 ^ 32 := by
  rw [getD_eq_getElem?_getD]
  cases hi : argv[i]? with
  | none => simp
  | some a => exact h.length_lt a (mem_of_getElem? hi)

theorem wellFormed_translated {now : Int64} {argv : List Bytes} (h : WellFormed argv) :
    ∀ a ∈ translated now cmd argv, WellFormed a := by
  have hexpire : WellFormed (expireAtArgv now cmd (argv.getD 1 []) (argv.getD 2 [])) := by
    refine ⟨cons_ne_nil _ _, by simp [expireAtArgv], ?_⟩
    simp only [expireAtArgv, forall_mem_cons]
    exact ⟨by decide, h.length_getD 1, length_ll2string_lt _, by simp⟩
  rw [translated]
  split
  · simpa using hexpire
  split
  · have hset : WellFormed [str "SET", argv.getD 1 [], argv.getD 3 []] := by
      refine ⟨cons_ne_nil _ _, by simp, ?_⟩
      simp only [forall_mem_cons]
      exact ⟨by decide, h.length_getD 1, h.length_getD 3, by simp⟩
    simp only [forall_mem_cons]
    exact ⟨hset, hexpire, by simp⟩
  · simpa using h

theorem feedAppendOnlyFile_foldl (now : Int64) (cmd : Proc) (dictid : Int)
    (argv : List Bytes) (aof : AofState) : feedAppendOnlyFile now cmd dictid argv aof =
      ⟨dictid, aof.buf ++ (translated now cmd argv).foldl
        (fun dst argv => catAppendOnlyGenericCommand dst (argv.map .raw))
        (if dictid ≠ aof.selectedDb then selectCmd dictid else [])⟩ := by
  rw [feedAppendOnlyFile, translated]
  by_cases hexpire : cmd = .expire ∨ cmd = .pexpire ∨ cmd = .expireat
  · rw [if_pos hexpire, if_pos hexpire]
    simp only [foldl_cons, foldl_nil, catAppendOnlyExpireAtCommand, expireAtArgv]
  rw [if_neg hexpire, if_neg hexpire]
  by_cases hsetex : cmd = .setex ∨ cmd = .psetex
  · rw [if_pos hsetex, if_pos hsetex]
    simp only [foldl_cons, foldl_nil, catAppendOnlyExpireAtCommand, expireAtArgv]
  · rw [if_neg hsetex, if_neg hsetex]
    simp only [foldl_cons, foldl_nil]

theorem feedAppendOnlyFile_eq {now : Int64} {dictid : Int} {argv : List Bytes}
    (h : WellFormed argv) (aof : AofState) :
    feedAppendOnlyFile now cmd dictid argv aof =
      ⟨dictid, aof.buf ++ commandsBytes (fed now cmd dictid argv aof.selectedDb)⟩ := by
  have hselect : (if dictid ≠ aof.selectedDb then selectCmd dictid else []) = commandsBytes
      (if dictid ≠ aof.selectedDb then [[selectName, ll2string dictid]] else []) := by
    rw [selectCmd_eq]
    split <;> simp [commandsBytes]
  rw [feedAppendOnlyFile_foldl, foldl_catAppendOnlyGenericCommand (wellFormed_translated h),
    hselect, fed, commandsBytes, commandsBytes, commandsBytes, flatMap_append]

/-! ## What is read -/

/-- A name of the table is neither that of `SELECT` nor that of a command about transactions. -/
theorem names_of_lookupProc {name : Bytes} (h : (lookupProc name).isSome) :
    strcaseEq name selectName = false ∧ strcaseEq name (str "multi") = false ∧
      strcaseEq name (str "exec") = false ∧ strcaseEq name (str "discard") = false := by
  rw [lookupProc, Option.isSome_map, find?_isSome] at h
  obtain ⟨entry, hentry, heq⟩ := h
  have hall : ∀ entry ∈ procTable, strcaseEq entry.1 selectName = false ∧
      strcaseEq entry.1 (str "multi") = false ∧ strcaseEq entry.1 (str "exec") = false ∧
        strcaseEq entry.1 (str "discard") = false := by decide
  rw [strcaseEq_congr heq, strcaseEq_congr heq, strcaseEq_congr heq, strcaseEq_congr heq]
  exact hall entry hentry

theorem plain_of_lookupProc {argv : List Bytes} (hwf : WellFormed argv)
    (h : (lookupProc (argv.headD [])).isSome) : Plain knownCommand argv := by
  obtain ⟨-, hmulti, hexec, hdiscard⟩ := names_of_lookupProc h
  exact ⟨hwf, by rw [knownCommand, h, Bool.true_or], hmulti, hexec, hdiscard⟩

theorem plain_select (hint : dictid < 2 ^ 31) (h₀ : 0 ≤ dictid) :
    Plain knownCommand [selectName, ll2string dictid] := by
  have hlen := Replication.length_ll2string_le h₀ hint
  refine ⟨⟨cons_ne_nil _ _, by simp, ?_⟩, ?_, ?_, ?_, ?_⟩
  · simp only [forall_mem_cons]
    exact ⟨by decide, by omega, by simp⟩
  · show knownCommand selectName = true
    decide
  · show strcaseEq selectName (str "multi") = false
    decide
  · show strcaseEq selectName (str "exec") = false
    decide
  · show strcaseEq selectName (str "discard") = false
    decide

/-- The procedures that write the command as something else are found under any of the names
of the commands that are written for it. -/
theorem lookup_translated {now : Int64} {argv : List Bytes}
    (h : (lookupProc (argv.headD [])).isSome) :
    ∀ a ∈ translated now cmd argv, (lookupProc (a.headD [])).isSome := by
  have hset : (lookupProc (str "SET")).isSome := by decide
  have hexpire : (lookupProc (str "PEXPIREAT")).isSome := by decide
  rw [translated]
  split
  · simpa [expireAtArgv] using hexpire
  split
  · simpa [expireAtArgv] using ⟨hset, hexpire⟩
  · simpa using h

section Replay

variable {string : Bytes → ν} {load : Bytes → Option ν} {masterhost : Bool}
  {dbnum : Nat} {now : Int64} {db : Int} {d : Dataset ν}

/-- The commands are executed by the loader. -/
def replay (string : Bytes → ν) (load : Bytes → Option ν) (masterhost : Bool)
    (dbnum : Nat) (now : Int64) (cmds : List (List Bytes)) (c : Int × Dataset ν) :
    Int × Dataset ν :=
  cmds.foldl (fun c argv => replayCommand string load masterhost dbnum now false argv c) c

variable {multi : Bool} {r : Dataset ν}

theorem replayCommand_call {argv : List Bytes} (h : (lookupProc (argv.headD [])).isSome) :
    replayCommand string load masterhost dbnum now multi argv (db, d) =
      (db, ((call string load ⟨true, masterhost, now⟩ db argv d).map Called.data).getD d) := by
  unfold replayCommand
  rw [if_neg (by rw [(names_of_lookupProc h).1]; exact Bool.false_ne_true)]
  cases call string load ⟨true, masterhost, now⟩ db argv d <;> rfl

theorem replayCommand_select {dictid : Int} (hdb : ValidDb dbnum dictid) :
    replayCommand string load masterhost dbnum now multi [selectName, ll2string dictid] (db, d) =
      (dictid, d) := by
  have hname : strcaseEq selectName selectName = true := by decide
  simp only [replayCommand, headD_cons, hname, if_true]
  rw [selectCommand_ll2string hdb.nonneg hdb.lt hdb.int]

/-- The loader is in the database of the command, after the `SELECT` if there is one. -/
theorem replay_fed {now' : Int64} {cmd : Proc} {dictid : Int} {argv : List Bytes}
    {selected : Int}
    (hdb : ValidDb dbnum dictid) (hsel : selected = -1 ∨ selected = db) :
    replay string load masterhost dbnum now (fed now' cmd dictid argv selected) (db, d) =
      replay string load masterhost dbnum now (translated now' cmd argv) (dictid, d) := by
  rw [fed, replay, foldl_append]
  split
  · rw [foldl_cons, foldl_nil, replayCommand_select hdb]
    rfl
  · rename_i heq
    have heq : dictid = selected := not_ne_iff.mp heq
    have hnonneg := hdb.nonneg
    obtain rfl : selected = db := hsel.resolve_left (by omega)
    rw [heq]
    rfl

theorem expireIfNeeded_loading (key : Key) :
    expireIfNeeded ⟨true, masterhost, now⟩ key d = (false, d) := by
  rw [expireIfNeeded]
  split
  · rfl
  · rw [if_pos (by simp)]

/-! ## Calls -/

section Call

variable {ctx : Ctx} {name key : Bytes}

theorem call_none {argv : List Bytes} (h : lookupProc (argv.headD []) = none) :
    call string load ctx db argv d = none := by
  unfold call
  rw [h]

variable {options : List Bytes}

theorem call_set {val : Bytes} {o : SetOptions} (h : lookupProc name = some .set)
    (ho : setOptions ⟨false, false, none⟩ options = some o) :
    call string load ctx db (name :: key :: val :: options) d =
      setGenericCommand ctx (db, key) .set (name :: key :: val :: options) d o.nx o.xx
        (string val) o.expire := by
  unfold call
  rw [headD_cons, h]
  dsimp only
  rw [ho]

theorem call_pexpireat {param : Bytes} (h : lookupProc name = some .pexpireat) :
    call string load ctx db [name, key, param] d =
      expireGenericCommand ctx (db, key) .pexpireat [name, key, param] d 0 false param := by
  unfold call
  rw [headD_cons, h]

theorem call_restore {ttl payload : Bytes} (h : lookupProc name = some .restore) :
    call string load ctx db (name :: key :: ttl :: payload :: options) d =
      restoreCommand ctx (db, key) .restore (name :: key :: ttl :: payload :: options) d load
        ttl payload options := by
  unfold call
  rw [headD_cons, h]

theorem call_del {keys : List Bytes} (h : lookupProc name = some .del) :
    call string load ctx db (name :: key :: keys) d =
      delCommand ctx .del (name :: key :: keys) d db (key :: keys) := by
  unfold call
  rw [headD_cons, h]

end Call

/-- The dataset after `expireIfNeeded`. -/
def afterExpire (gone : Bool) (key : Key) (d : Dataset ν) : Dataset ν :=
  if gone then dbDelete key d else d

theorem expireIfNeeded_eq (ctx : Ctx) (key : Key) :
    ∃ gone : Bool, expireIfNeeded ctx key d = (gone, afterExpire gone key d) := by
  rw [expireIfNeeded]
  split
  · exact ⟨false, rfl⟩
  split
  · exact ⟨false, rfl⟩
  · exact ⟨true, rfl⟩

theorem replayCommand_del {key : Key} :
    replayCommand string load masterhost dbnum now multi [str "DEL", key.2] (key.1, d) =
      (key.1, dbDelete key d) := by
  have hname : lookupProc (str "DEL") = some .del := by decide
  rw [replayCommand_call (by rw [headD_cons, hname]; rfl)]
  rw [call_del hname]
  simp only [delCommand, delLoop, expireIfNeeded_loading]
  cases hk : d key with
  | none =>
    have hsame : dbDelete key d = d := by
      rw [dbDelete, ← hk, Function.update_eq_self]
    simp [hsame]
  | some e => simp

/-! ## Commands and their replay -/

/-- The same keys with the same values. -/
def Agree (r d : Dataset ν) : Prop := ∀ k, (r k).map Entry.value = (d k).map Entry.value

theorem Agree.isSome (h : Agree r d) (key : Key) : (r key).isSome = (d key).isSome := by
  rw [← Option.isSome_map (f := Entry.value), h key, Option.isSome_map]

theorem Agree.update (h : Agree r d) (key : Key) {x y : Option (Entry ν)}
    (hxy : y.map Entry.value = x.map Entry.value) :
    Agree (update r key y) (update d key x) := by
  intro k
  by_cases hk : k = key
  · subst hk
    simpa using hxy
  · simpa [hk] using h k

/-- A key that is deleted if it was expired, and then changed. -/
theorem update_gone (gone : Bool) (key : Key) (x : Option (Entry ν)) :
    update (afterExpire gone key d) key x = update d key x := by
  cases gone <;> simp [afterExpire, dbDelete]

theorem Agree.gone (h : Agree r d) (gone : Bool) (key : Key) :
    Agree (afterExpire gone key r) (afterExpire gone key d) := by
  cases gone with
  | false => exact h
  | true => exact h.update key rfl

/-- `NX` or `XX` keep `SET` from being performed. -/
def Aborts (nx xx : Bool) (e : Option (Entry ν)) : Prop :=
  (nx ∧ e.isSome) ∨ (xx ∧ e.isNone)

section Commands

variable {key : Key} {proc : Proc} {argv : List Bytes} {c : Called ν}

variable {basetime : Int64} {ctx : Ctx} {expire : Option (Bytes × Bool)} {gone seconds : Bool}
  {ms : Option Int64} {options : List Bytes} {param : Bytes} {v : Int} {val : ν}

theorem setGenericCommand_performed {nx xx : Bool} (hms : setMilliseconds expire = some ms)
    (hgone : expireIfNeeded ctx key d = (gone, afterExpire gone key d))
    (habort : ¬ Aborts nx xx (afterExpire gone key d key)) :
    setGenericCommand ctx key proc argv d nx xx val expire =
      some ⟨update d key (some ⟨val, ms.map (ctx.now + ·)⟩),
        if gone then [key.2] else [], proc, argv⟩ := by
  rw [setGenericCommand, hms, hgone]
  dsimp only
  rw [Aborts] at habort
  rw [if_neg habort]
  cases ms with
  | none => simp [setKey, update_gone]
  | some ms => simp [setKey, setExpire, update_gone]

theorem setGenericCommand_cases {nx xx : Bool}
    (h : setGenericCommand ctx key proc argv d nx xx val expire = some c) :
    ∃ (ms : Option Int64) (gone : Bool), setMilliseconds expire = some ms ∧
      ¬ Aborts nx xx (afterExpire gone key d key) ∧
      c = ⟨update d key (some ⟨val, ms.map (ctx.now + ·)⟩),
        if gone then [key.2] else [], proc, argv⟩ := by
  obtain ⟨gone, hgone⟩ := expireIfNeeded_eq (d := d) ctx key
  rcases hms : setMilliseconds expire with _ | ms
  · rw [setGenericCommand, hms] at h
    cases h
  · by_cases habort : Aborts nx xx (afterExpire gone key d key)
    · rw [setGenericCommand, hms, hgone] at h
      dsimp only at h
      rw [Aborts] at habort
      rw [if_pos habort] at h
      cases h
    · rw [setGenericCommand_performed hms hgone habort] at h
      exact ⟨ms, gone, rfl, habort, (Option.some.inj h).symm⟩

/-- `SET` that was performed is performed by the loader. -/
theorem setGenericCommand_loading {nx xx : Bool} {r : Dataset ν}
    (hms : setMilliseconds expire = some ms)
    (habort : ¬ Aborts nx xx (afterExpire gone key d key)) (hr : Agree r d) :
    setGenericCommand ⟨true, masterhost, now⟩ key proc argv
        (afterExpire gone key r) nx xx val expire =
      some ⟨update r key (some ⟨val, ms.map (now + ·)⟩), [], proc, argv⟩ := by
  have hsome := (hr.gone gone key).isSome key
  have habort' : ¬ Aborts nx xx (afterExpire gone key r key) := by
    rw [Aborts, ← Option.not_isSome] at habort ⊢
    rwa [hsome]
  have hgone : expireIfNeeded ⟨true, masterhost, now⟩ key (afterExpire gone key r) =
      (false, afterExpire false key (afterExpire gone key r)) := expireIfNeeded_loading key
  rw [setGenericCommand_performed hms hgone habort', update_gone]
  rfl

theorem expireGenericCommand_performed {e : Entry ν} (hv : getLongLongFromObject param = some v)
    (he : d key = some e) :
    expireGenericCommand ⟨true, masterhost, now⟩ key proc argv d basetime seconds param =
      some ⟨update d key
        (some { e with expire := some (toMilliseconds seconds v + basetime) }), [], proc,
        argv⟩ := by
  rw [expireGenericCommand, hv, expireIfNeeded_loading]
  simp [he, setExpire]

theorem expireGenericCommand_cases
    (h : expireGenericCommand ctx key proc argv d basetime seconds param = some c) :
    ∃ v e, getLongLongFromObject param = some v ∧ d key = some e ∧
      (c = ⟨update d key none, [], .del, [str "DEL", key.2]⟩ ∨
        c = ⟨update d key
          (some { e with expire := some (toMilliseconds seconds v + basetime) }), [], proc,
          argv⟩) := by
  rcases hv : getLongLongFromObject param with _ | v
  · rw [expireGenericCommand, hv] at h
    cases h
  obtain ⟨gone, hgone⟩ := expireIfNeeded_eq (d := d) ctx key
  rw [expireGenericCommand, hv, hgone] at h
  dsimp only at h
  cases gone with
  | true => simp [afterExpire, dbDelete] at h
  | false =>
    rw [afterExpire, if_neg Bool.false_ne_true] at h
    rcases he : d key with _ | e
    · simp [he] at h
    · rw [if_neg Bool.false_ne_true, if_neg (by simp [he])] at h
      split at h
      · exact ⟨v, e, rfl, rfl, .inl (Option.some.inj h).symm⟩
      · refine ⟨v, e, rfl, rfl, .inr ?_⟩
        rw [← Option.some.inj h, setExpire, he]
        rfl

theorem restoreCommand_performed {ttl payload : Bytes} {obj : ν}
    (hoptions : options.all (fun a => strcaseEq (cstr a) (str "replace")))
    (hgone : (if options.isEmpty then expireIfNeeded ctx key d else (false, d)) =
      (gone, afterExpire gone key d)) (hkey : options.isEmpty → afterExpire gone key d key = none)
    (hv : getLongLongFromObject ttl = some v) (hnonneg : ¬ v < 0) (hobj : load payload = some obj) :
    restoreCommand ctx key proc argv d load ttl payload options =
      some ⟨update d key
        (some ⟨obj, if v ≠ 0 then some (ctx.now + Int64.ofInt v) else none⟩),
        if gone then [key.2] else [], proc, argv⟩ := by
  rw [restoreCommand, if_neg (by simp [hoptions]), hv]
  cases hempty : options.isEmpty with
  | true =>
    rw [hempty, if_pos rfl] at hgone
    simp only [Bool.not_true, Bool.false_eq_true, if_false, hgone, hkey hempty, hobj]
    rw [if_neg (by simp), if_neg hnonneg]
    by_cases hzero : v = 0 <;> simp [hzero, dbAdd, setExpire, update_gone]
  | false =>
    rw [hempty, if_neg Bool.false_ne_true] at hgone
    obtain ⟨rfl, -⟩ := Prod.mk.inj hgone
    simp only [Bool.not_false, if_true, hobj]
    rw [if_neg (by simp), if_neg hnonneg]
    by_cases hzero : v = 0 <;> simp [hzero, dbAdd, setExpire, dbDelete]

theorem restoreCommand_cases {ttl payload : Bytes}
    (h : restoreCommand ctx key proc argv d load ttl payload options = some c) :
    ∃ (v : Int) (obj : ν) (gone : Bool), options.all (fun a => strcaseEq (cstr a) (str "replace")) ∧
      (options.isEmpty = false → gone = false) ∧
      (options.isEmpty → afterExpire gone key d key = none) ∧
      getLongLongFromObject ttl = some v ∧ ¬ v < 0 ∧ load payload = some obj ∧
      c = ⟨update d key
        (some ⟨obj, if v ≠ 0 then some (ctx.now + Int64.ofInt v) else none⟩),
        if gone then [key.2] else [], proc, argv⟩ := by
  by_cases hoptions : options.all (fun a => strcaseEq (cstr a) (str "replace")) = true
  · obtain ⟨gone, hgone⟩ : ∃ gone : Bool, (if options.isEmpty then expireIfNeeded ctx key d
        else (false, d)) = (gone, afterExpire gone key d) := by
      cases options.isEmpty with
      | true => exact expireIfNeeded_eq ctx key
      | false => exact ⟨false, rfl⟩
    have hkey : options.isEmpty → afterExpire gone key d key = none := by
      intro hempty
      by_contra hsome
      rw [hempty, if_pos rfl] at hgone
      rw [restoreCommand, if_neg (by simp [hoptions])] at h
      simp only [hempty, Bool.not_true, Bool.false_eq_true, if_false, hgone] at h
      rw [if_pos ⟨by simp, Option.isSome_iff_ne_none.mpr hsome⟩] at h
      cases h
    have hrest : ∃ v obj, getLongLongFromObject ttl = some v ∧ ¬ v < 0 ∧
        load payload = some obj := by
      rcases hv : getLongLongFromObject ttl with _ | v
      · simp [restoreCommand, hv] at h
      by_cases hneg : v < 0
      · simp [restoreCommand, hv, hneg] at h
      rcases hobj : load payload with _ | obj
      · simp [restoreCommand, hv, hneg, hobj] at h
      · exact ⟨v, obj, rfl, hneg, rfl⟩
    obtain ⟨v, obj, hv, hnonneg, hobj⟩ := hrest
    rw [restoreCommand_performed hoptions hgone hkey hv hnonneg hobj] at h
    refine ⟨v, obj, gone, hoptions, fun hempty => ?_, hkey, hv, hnonneg, hobj,
      (Option.some.inj h).symm⟩
    rw [hempty, if_neg Bool.false_ne_true] at hgone
    exact (Prod.mk.inj hgone).1.symm
  · rw [restoreCommand, if_pos hoptions] at h
    cases h

end Commands

/-- The command is written with a time that is relative: `SET` with `EX` or `PX`, and `RESTORE`
with a time to live. -/
def relative (argv : List Bytes) : Bool :=
  match lookupProc (argv.headD []), argv with
  | some .set, _ :: _ :: _ :: options =>
    (setOptions ⟨false, false, none⟩ options).any fun o => o.expire.isSome
  | some .restore, _ :: _ :: ttl :: _ => getLongLongFromObject ttl != some 0
  | _, _ => false

theorem lookupProc_headD {name : Bytes} {argv : List Bytes} {proc : Proc}
    (h : lookupProc name = some proc) : (lookupProc ((name :: argv).headD [])).isSome :=
  h ▸ rfl

theorem replay_single {argv : List Bytes} {c : Called ν}
    (h : (lookupProc (argv.headD [])).isSome)
    (hcall : call string load ⟨true, masterhost, now⟩ db argv d = some c) :
    replay string load masterhost dbnum now [argv] (db, d) = (db, c.data) := by
  rw [replay, foldl_cons, foldl_nil, replayCommand_call h, hcall]
  rfl

theorem replay_pexpireat {key : Key} {e : Entry ν} {w : Int64} (he : d key = some e) :
    replay string load masterhost dbnum now
        [[str "PEXPIREAT", key.2, ll2string w.toInt]] (key.1, d) =
      (key.1, update d key (some { e with expire := some w })) := by
  have hname : lookupProc (str "PEXPIREAT") = some .pexpireat := by decide
  have htime : toMilliseconds false w.toInt + 0 = w := by
    rw [toMilliseconds, if_neg Bool.false_ne_true, Int64.ofInt_toInt, Int64.add_zero]
  have hcall : call string load ⟨true, masterhost, now⟩ key.1
      [str "PEXPIREAT", key.2, ll2string w.toInt] d =
      some ⟨update d key (some { e with expire := some w }), [], .pexpireat,
        [str "PEXPIREAT", key.2, ll2string w.toInt]⟩ := by
    rw [call_pexpireat hname,
      expireGenericCommand_performed (getLongLongFromObject_ll2string w) he, htime]
  rw [replay_single (lookupProc_headD hname) hcall]

/-- What the loader sets for the key, `y`, compared with what the command has set, `x`: the
expire times differ when the command was written with a relative time. -/
def Replays (string : Bytes → ν) (load : Bytes → Option ν) (masterhost : Bool)
    (dbnum : Nat) (now t : Int64) (key : Key) (argv : List Bytes) (c : Called ν)
    (gone : Bool) (d : Dataset ν) (x : Option (Entry ν)) : Prop :=
  ∀ r, Agree r d → ∃ y,
    replay string load masterhost dbnum t (translated now c.proc c.argv)
        (key.1, afterExpire gone key r) = (key.1, update r key y) ∧
      y.map Entry.value = x.map Entry.value ∧
        (y.bind Entry.expire = x.bind Entry.expire ↔ (relative argv → now = t))

section Replays

variable {key : Key} {proc : Proc} {argv : List Bytes} {c : Called ν} {t : Int64}

variable {basetime : Int64} {expire param : Bytes} {gone seconds : Bool} {ms : Option Int64}
  {v : Int}

theorem replays_verbatim {value : ν} {expire : Int64 → Option Int64}
    (hname : (lookupProc (argv.headD [])).isSome) (hargv : c.argv = argv)
    (htranslated : translated now c.proc argv = [argv])
    (hload : ∀ r, Agree r d → ∃ c', call string load ⟨true, masterhost, t⟩ key.1 argv
      (afterExpire gone key r) = some c' ∧ c'.data = update r key (some ⟨value, expire t⟩))
    (hexpire : expire t = expire now ↔ (relative argv → now = t)) :
    Replays string load masterhost dbnum now t key argv c gone d
      (some ⟨value, expire now⟩) := by
  intro r hr
  obtain ⟨c', hcall, hdata⟩ := hload r hr
  refine ⟨some ⟨value, expire t⟩, ?_, rfl, hexpire⟩
  rw [hargv, htranslated, replay_single hname hcall, hdata]

/-- Only the sum with the time tells relative times apart. -/
theorem add_now_iff : ms.map (t + ·) = ms.map (now + ·) ↔ (ms.isSome → now = t) := by
  cases ms with
  | none => simp
  | some ms =>
    rw [Option.map_some, Option.map_some, Option.some_inj, Int64.add_left_inj]
    simp [eq_comm]

theorem isSome_of_setMilliseconds {expire : Option (Bytes × Bool)}
    (h : setMilliseconds expire = some ms) : ms.isSome = expire.isSome := by
  cases expire with
  | none =>
    obtain rfl := Option.some.inj h
    rfl
  | some e =>
    obtain ⟨expire, seconds⟩ := e
    rw [setMilliseconds] at h
    split at h
    · cases h
    split at h
    · cases h
    · obtain rfl := Option.some.inj h
      rfl

variable {name : Bytes}

/-- `SETEX` and `PSETEX`: a `SET`, and a `PEXPIREAT` of the time that was set. -/
theorem replays_setex {val : Bytes} {w : Int64} (hc : c.argv = [name, key.2, expire, val])
    (htranslated : translated now c.proc [name, key.2, expire, val] =
      [[str "SET", key.2, val], [str "PEXPIREAT", key.2, ll2string w.toInt]])
    (hrelative : relative [name, key.2, expire, val] = false) :
    Replays string load masterhost dbnum now t key [name, key.2, expire, val] c gone d
      (some ⟨string val, some w⟩) := by
  intro r hr
  refine ⟨some ⟨string val, some w⟩, ?_, rfl, by simp [hrelative]⟩
  have hset : lookupProc (str "SET") = some .set := by decide
  have hplain : call string load ⟨true, masterhost, t⟩ key.1 [str "SET", key.2, val]
      (afterExpire gone key r) =
      some ⟨update r key (some ⟨string val, none⟩), [], .set,
        [str "SET", key.2, val]⟩ := by
    have habort : ¬ Aborts false false (afterExpire gone key d key) := by simp [Aborts]
    have hnone : setMilliseconds none = some none := rfl
    rw [call_set hset rfl]
    exact setGenericCommand_loading hnone habort hr
  have hself : (update r key (some ⟨string val, none⟩)) key =
      some ⟨string val, none⟩ := Function.update_self ..
  have hfirst : replay string load masterhost dbnum t [[str "SET", key.2, val]]
      (key.1, afterExpire gone key r) =
      (key.1, update r key (some ⟨string val, none⟩)) := 
    replay_single (lookupProc_headD hset) hplain
  rw [hc, htranslated]
  show replay string load masterhost dbnum t
    [[str "PEXPIREAT", key.2, ll2string w.toInt]]
    (replay string load masterhost dbnum t [[str "SET", key.2, val]]
      (key.1, afterExpire gone key r)) = _
  rw [hfirst, replay_pexpireat hself, Function.update_idem]

/-- `EXPIRE`, `PEXPIRE`, `EXPIREAT` and `PEXPIREAT`: the key existed, and was deleted or has
got an expire time. -/
theorem replays_expire
    (hcall : expireGenericCommand ⟨false, masterhost, now⟩ key proc [name, key.2, param] d
      basetime seconds param = some c) (htranslated : ∀ v, getLongLongFromObject param = some v →
      ∀ e : Entry ν, ∀ r : Dataset ν, r key = some e →
        replay string load masterhost dbnum t (translated now proc [name, key.2, param])
          (key.1, r) = (key.1, update r key
            (some { e with expire := some (toMilliseconds seconds v + basetime) })))
    (hrelative : relative [name, key.2, param] = false) :
    ∃ (gone : Bool) (x : Option (Entry ν)), c.expired = (if gone then [key.2] else []) ∧
      c.data = update d key x ∧
      (c.argv = [name, key.2, param] ∨ c.argv = [str "DEL", key.2]) ∧
      Replays string load masterhost dbnum now t key [name, key.2, param] c gone d x := by
  obtain ⟨v, e, hv, he, rfl | rfl⟩ := expireGenericCommand_cases hcall
  · refine ⟨false, none, rfl, rfl, .inr rfl, fun r hr => ⟨none, ?_, rfl, by simp [hrelative]⟩⟩
    have hsame : translated now .del [str "DEL", key.2] = [[str "DEL", key.2]] := by
      simp [translated]
    rw [hsame, replay, foldl_cons, foldl_nil, replayCommand_del]
    rfl
  · refine ⟨false, _, rfl, rfl, .inl rfl, fun r hr => ?_⟩
    obtain ⟨e', he'⟩ : ∃ e', r key = some e' := by
      rw [← Option.isSome_iff_exists, hr.isSome, he]
      rfl
    have hvalue := hr key
    rw [he, he'] at hvalue
    refine ⟨_, htranslated v hv e' r he', ?_, by simp [hrelative]⟩
    simpa using hvalue

/-- The `PEXPIREAT` with the time that was read. -/
theorem expireAtArgv_eq {cmd : Proc} {seconds : Bytes}
    (hv : getLongLongFromObject seconds = some v) : expireAtArgv now cmd name seconds =
      [str "PEXPIREAT", name, ll2string
        ((toMilliseconds (cmd = .expire ∨ cmd = .setex ∨ cmd = .expireat) v) +
          if cmd = .expire ∨ cmd = .pexpire ∨ cmd = .setex ∨ cmd = .psetex then now
          else 0).toInt] := by
  rw [expireAtArgv, strtol_of_getLongLong hv]
  by_cases hseconds : cmd = .expire ∨ cmd = .setex ∨ cmd = .expireat <;>
    by_cases hrelative : cmd = .expire ∨ cmd = .pexpire ∨ cmd = .setex ∨ cmd = .psetex <;>
      simp [hseconds, hrelative, toMilliseconds]

/-- The expire time that `SETEX` and `PSETEX` set. -/
theorem setMilliseconds_some (h : setMilliseconds (some (expire, seconds)) = some ms) :
    ∃ v, getLongLongFromObject expire = some v ∧ ms = some (toMilliseconds seconds v) := by
  rw [setMilliseconds] at h
  split at h
  · cases h
  split at h
  · cases h
  · rename_i v hv _
    exact ⟨v, hv, (Option.some.inj h).symm⟩

/-- `EXPIRE` and the commands like it, when the time that is written is the one that is set. -/
theorem replay_expireAt {cmd : Proc} (hcmd : cmd = .expire ∨ cmd = .pexpire ∨ cmd = .expireat)
    (hseconds : seconds = decide (cmd = .expire ∨ cmd = .setex ∨ cmd = .expireat))
    (hbase : basetime =
      if cmd = .expire ∨ cmd = .pexpire ∨ cmd = .setex ∨ cmd = .psetex then now else 0)
    (hv : getLongLongFromObject param = some v) {e : Entry ν} (he : d key = some e) :
    replay string load masterhost dbnum t (translated now cmd [name, key.2, param])
        (key.1, d) = (key.1, update d key
          (some { e with expire := some (toMilliseconds seconds v + basetime) })) := by
  have hone : translated now cmd [name, key.2, param] =
      [[str "PEXPIREAT", key.2, ll2string (toMilliseconds seconds v + basetime).toInt]] := by
    rw [translated, if_pos hcmd]
    show [expireAtArgv now cmd key.2 param] = _
    rw [expireAtArgv_eq hv, hseconds, hbase]
  rw [hone, replay_pexpireat he]

theorem expire_spec {name' : Bytes} (hcmd : proc = .expire ∨ proc = .pexpire ∨ proc = .expireat)
    (hseconds : seconds = decide (proc = .expire ∨ proc = .setex ∨ proc = .expireat))
    (hbase : basetime =
      if proc = .expire ∨ proc = .pexpire ∨ proc = .setex ∨ proc = .psetex then now else 0)
    (hcall : expireGenericCommand ⟨false, masterhost, now⟩ (db, name') proc
      [name, name', param] d basetime seconds param = some c)
    (hrelative : relative [name, name', param] = false) :
    ∃ (gone : Bool) (x : Option (Entry ν)),
      c.expired = (if gone then [name'] else []) ∧
      c.data = update d (db, name') x ∧
      (c.argv = [name, name', param] ∨ c.argv = [str "DEL", name']) ∧
      Replays string load masterhost dbnum now t (db, name') [name, name', param] c gone d
        x := by
  exact replays_expire hcall (fun v hv e r he => replay_expireAt hcmd hseconds hbase hv he) hrelative

theorem call_spec (hcall : call string load ⟨false, masterhost, now⟩ db argv d = some c)
    (hdel : lookupProc (argv.headD []) ≠ some .del) (t : Int64) :
    ∃ (gone : Bool) (x : Option (Entry ν)),
      c.expired = (if gone then [argv.getD 1 []] else []) ∧
      c.data = update d (db, argv.getD 1 []) x ∧
      (c.argv = argv ∨ c.argv = [str "DEL", argv.getD 1 []]) ∧
      Replays string load masterhost dbnum now t (db, argv.getD 1 []) argv c gone d x := by
  unfold call at hcall
  split at hcall
  · rename_i name key val options hname
    have hname : lookupProc name = some .set := hname
    split at hcall
    · cases hcall
    rename_i o ho
    obtain ⟨ms, gone, hms, habort, rfl⟩ := setGenericCommand_cases hcall
    refine ⟨gone, _, rfl, rfl, .inl rfl, ?_⟩
    have hexpire : ms.map (t + ·) = ms.map (now + ·) ↔
        (relative (name :: key :: val :: options) → now = t) := by
      rw [add_now_iff, isSome_of_setMilliseconds hms]
      simp [relative, hname, ho]
    have hload : ∀ r, Agree r d → ∃ c', call string load ⟨true, masterhost, t⟩ db
        (name :: key :: val :: options) (afterExpire gone (db, key) r) = some c' ∧
          c'.data = update r (db, key) (some ⟨string val, ms.map (t + ·)⟩) := by
      intro r hr
      rw [call_set hname ho]
      exact ⟨_, setGenericCommand_loading hms habort hr, rfl⟩
    exact @replays_verbatim _ _ _ _ _ _ _ (db, key) _ _ _ _ _ (fun time => ms.map (time + ·))
      (lookupProc_headD hname) rfl (by simp [translated]) hload hexpire
  · rename_i name key expire val hname
    have hname : lookupProc name = some .setex := hname
    obtain ⟨ms, gone, hms, habort, rfl⟩ := setGenericCommand_cases hcall
    obtain ⟨v, hv, rfl⟩ := setMilliseconds_some hms
    refine ⟨gone, _, rfl, rfl, .inl rfl, ?_⟩
    refine replays_setex rfl ?_ (by simp [relative, hname])
    simp [translated, expireAtArgv_eq hv, Int64.add_comm now]
  · rename_i name key expire val hname
    have hname : lookupProc name = some .psetex := hname
    obtain ⟨ms, gone, hms, habort, rfl⟩ := setGenericCommand_cases hcall
    obtain ⟨v, hv, rfl⟩ := setMilliseconds_some hms
    refine ⟨gone, _, rfl, rfl, .inl rfl, ?_⟩
    refine replays_setex rfl ?_ (by simp [relative, hname])
    simp [translated, expireAtArgv_eq hv, Int64.add_comm now]
  · rename_i name key param hname
    have hname : lookupProc name = some .expire := hname
    exact expire_spec (.inl rfl) rfl (by simp) hcall (by simp [relative, hname])
  · rename_i name key param hname
    have hname : lookupProc name = some .pexpire := hname
    exact expire_spec (.inr (.inl rfl)) (by simp) (by simp) hcall (by simp [relative, hname])
  · rename_i name key param hname
    have hname : lookupProc name = some .expireat := hname
    exact expire_spec (.inr (.inr rfl)) rfl (by simp) hcall (by simp [relative, hname])
  · rename_i name key param hname
    have hname : lookupProc name = some .pexpireat := hname
    have hload : ∀ v, getLongLongFromObject param = some v → ∀ (e : Entry ν) (r : Dataset ν),
        r (db, key) = some e →
          replay string load masterhost dbnum t (translated now .pexpireat [name, key, param])
            (db, r) = (db, update r (db, key)
              (some { e with expire := some (toMilliseconds false v + 0) })) := by
      intro v hv e r he
      have hone : translated now .pexpireat [name, key, param] = [[name, key, param]] := by
        simp [translated]
      have hagain : call string load ⟨true, masterhost, t⟩ db [name, key, param] r =
          some ⟨update r (db, key)
            (some { e with expire := some (toMilliseconds false v + 0) }), [], .pexpireat,
            [name, key, param]⟩ := by
        rw [call_pexpireat hname]
        exact expireGenericCommand_performed hv he
      rw [hone, replay_single (lookupProc_headD hname) hagain]
    exact replays_expire hcall hload (by simp [relative, hname])
  · rename_i name key ttl payload options hname
    have hname : lookupProc name = some .restore := hname
    obtain ⟨v, obj, gone, hoptions, hreplace, hkey, hv, hnonneg, hobj, rfl⟩ :=
      restoreCommand_cases hcall
    refine ⟨gone, _, rfl, rfl, .inl rfl, ?_⟩
    have hexpire : (if v ≠ 0 then some (t + Int64.ofInt v) else none) =
        (if v ≠ 0 then some (now + Int64.ofInt v) else none) ↔
          (relative (name :: key :: ttl :: payload :: options) → now = t) := by
      have hrelative : relative (name :: key :: ttl :: payload :: options) = (v != 0) := by
        simp only [relative, headD_cons, hname, hv]
        rfl
      rw [hrelative]
      by_cases hzero : v = 0
      · simp [hzero]
      · rw [if_pos hzero, if_pos hzero, Option.some_inj, Int64.add_left_inj, eq_comm]
        simp [hzero]
    have hload : ∀ r, Agree r d → ∃ c', call string load ⟨true, masterhost, t⟩ db
        (name :: key :: ttl :: payload :: options) (afterExpire gone (db, key) r) = some c' ∧
          c'.data = update r (db, key)
            (some ⟨obj, if v ≠ 0 then some (t + Int64.ofInt v) else none⟩) := by
      intro r hr
      rw [call_restore hname]
      have hloading : (if options.isEmpty then
          expireIfNeeded ⟨true, masterhost, t⟩ (db, key) (afterExpire gone (db, key) r)
            else (false, afterExpire gone (db, key) r)) =
          (false, afterExpire false (db, key) (afterExpire gone (db, key) r)) := by
        rw [expireIfNeeded_loading, ite_self]
        rfl
      have habsent : options.isEmpty →
          afterExpire false (db, key) (afterExpire gone (db, key) r) (db, key) = none := by
        intro hempty
        rw [← Option.not_isSome_iff_eq_none]
        show ¬ (afterExpire gone (db, key) r (db, key)).isSome
        rw [(hr.gone gone (db, key)).isSome, hkey hempty]
        simp
      refine ⟨_, restoreCommand_performed hoptions hloading habsent hv hnonneg hobj, ?_⟩
      exact update_gone gone (db, key) _
    exact @replays_verbatim _ _ _ _ _ _ _ (db, key) _ _ _ _ _
      (fun time => if v ≠ 0 then some (time + Int64.ofInt v) else none)
      (lookupProc_headD hname) rfl (by simp [translated]) hload hexpire
  · rename_i name key keys hname
    exact absurd hname hdel
  · cases hcall

end Replays

/-! ## Runs -/

def Event.time : Event → Int64
  | .command now _ _ => now
  | .expired now _ => now

def Event.key : Event → Key
  | .command _ db argv => (db, argv.getD 1 [])
  | .expired _ key => key

/-- The event is a command that is written with a relative time. -/
def Event.relative : Event → Bool
  | .command _ _ argv => Aof.relative argv
  | .expired _ _ => false

/-- A command that a client can send, other than `DEL`, or a key of the server. -/
def Event.Ok (dbnum : Nat) : Event → Prop
  | .command _ db argv =>
    WellFormed argv ∧ ValidDb dbnum db ∧ lookupProc (argv.headD []) ≠ some .del
  | .expired _ key => key.2.length < 2 ^ 32 ∧ ValidDb dbnum key.1

theorem replay_append (cmds cmds' : List (List Bytes)) (c : Int × Dataset ν) :
    replay string load masterhost dbnum now (cmds ++ cmds') c =
      replay string load masterhost dbnum now cmds'
        (replay string load masterhost dbnum now cmds c) := foldl_append

theorem lookup_del : lookupProc (str "DEL") = some .del := by decide

theorem wellFormed_del {name : Bytes} (h : name.length < 2 ^ 32) :
    WellFormed [str "DEL", name] := by
  refine ⟨cons_ne_nil _ _, by simp, ?_⟩
  simp only [forall_mem_cons]
  exact ⟨by decide, h, by simp⟩

theorem plain_fed {t : Int64} {cmd : Proc} {argv : List Bytes} {selected : Int}
    (hdb : ValidDb dbnum db) (hwf : WellFormed argv)
    (h : (lookupProc (argv.headD [])).isSome) :
    ∀ a ∈ fed t cmd db argv selected, Plain knownCommand a := by
  intro a ha
  rw [fed, mem_append] at ha
  rcases ha with ha | ha
  · split at ha
    · rw [mem_singleton.mp ha]
      exact plain_select db hdb.int hdb.nonneg
    · cases ha
  · exact plain_of_lookupProc (wellFormed_translated hwf a ha) (lookup_translated h a ha)

theorem replay_fed_del {t : Int64} {key : Key} {selected : Int} (hdb : ValidDb dbnum key.1)
    (hsel : selected = -1 ∨ selected = db) :
    replay string load masterhost dbnum now (fed t .del key.1 [str "DEL", key.2] selected)
      (db, d) = (key.1, dbDelete key d) := by
  have hsame : translated t .del [str "DEL", key.2] = [[str "DEL", key.2]] := by
    simp [translated]
  rw [replay_fed hdb hsel, hsame, replay, foldl_cons, foldl_nil, replayCommand_del]

/-- What a step writes, and what it makes of its key, compared with the loader. -/
structure Steps (string : Bytes → ν) (load : Bytes → Option ν) (masterhost : Bool)
    (dbnum : Nat) (t : Int64) (ev : Event) (s s' : Server ν)
    (cmds : List (List Bytes)) : Prop where
  buf : s'.aof.buf = s.aof.buf ++ commandsBytes cmds
  plain : ∀ a ∈ cmds, Plain knownCommand a
  replay : ∀ r cur, s.aof.selectedDb = -1 ∨ s.aof.selectedDb = cur → Agree r s.data → ∃ x y,
    s'.data = update s.data ev.key x ∧
      Aof.replay string load masterhost dbnum t cmds (cur, r) =
        (s'.aof.selectedDb, update r ev.key y) ∧
      y.map Entry.value = x.map Entry.value ∧
        (y.bind Entry.expire = x.bind Entry.expire ↔ (ev.relative → ev.time = t))

variable {evs : List Event} {s' : Server ν}

theorem step_command {t : Int64} {s : Server ν} {argv : List Bytes}
    (h : step string load masterhost s (.command now db argv) = some s') (hwf : WellFormed argv)
    (hdb : ValidDb dbnum db) (hdel : lookupProc (argv.headD []) ≠ some .del) :
    ∃ cmds, Steps string load masterhost dbnum t (.command now db argv) s s' cmds := by
  obtain ⟨c, hcall, rfl⟩ := Option.map_eq_some_iff.mp h
  obtain ⟨gone, x, hexpired, hdata, hargv, hreplays⟩ :=
    @call_spec _ _ _ _ dbnum _ _ _ _ _ hcall hdel t
  have hname : (lookupProc (argv.headD [])).isSome := by
    by_contra hnone
    rw [Option.not_isSome_iff_eq_none] at hnone
    rw [call_none hnone] at hcall
    cases hcall
  have hwf' : WellFormed c.argv := by
    rcases hargv with hargv | hargv <;> rw [hargv]
    exacts [hwf, wellFormed_del (hwf.length_getD 1)]
  have hname' : (lookupProc (c.argv.headD [])).isSome := by
    rcases hargv with hargv | hargv <;> rw [hargv]
    · exact hname
    · exact lookupProc_headD lookup_del
  have hwfd := wellFormed_del (hwf.length_getD 1)
  cases gone with
  | false =>
    refine ⟨fed now c.proc db c.argv s.aof.selectedDb, ?_, plain_fed hdb hwf' hname', ?_⟩
    · rw [hexpired, if_neg Bool.false_ne_true]
      show (feedAppendOnlyFile now c.proc db c.argv s.aof).buf = _
      rw [feedAppendOnlyFile_eq hwf']
    · intro r cur hsel hr
      obtain ⟨y, hy, hvalue, hexpire⟩ := hreplays r hr
      refine ⟨x, y, hdata, ?_, hvalue, hexpire⟩
      rw [replay_fed hdb hsel]
      exact hy
  | true =>
    refine ⟨fed now .del db [str "DEL", argv.getD 1 []] s.aof.selectedDb ++
      fed now c.proc db c.argv db, ?_, ?_, ?_⟩
    · rw [hexpired, if_pos rfl]
      show (feedAppendOnlyFile now c.proc db c.argv
        (feedAppendOnlyFile now .del db [str "DEL", argv.getD 1 []] s.aof)).buf = _
      rw [feedAppendOnlyFile_eq hwfd, feedAppendOnlyFile_eq hwf', append_assoc]
      simp [commandsBytes]
    · intro a ha
      rcases mem_append.mp ha with ha | ha
      exacts [plain_fed hdb hwfd (lookupProc_headD lookup_del) a ha, plain_fed hdb hwf' hname' a ha]
    · intro r cur hsel hr
      obtain ⟨y, hy, hvalue, hexpire⟩ := hreplays r hr
      refine ⟨x, y, hdata, ?_, hvalue, hexpire⟩
      have hgone : Aof.replay string load masterhost dbnum t
          (fed now .del db [str "DEL", argv.getD 1 []] s.aof.selectedDb) (cur, r) =
          (db, dbDelete (db, argv.getD 1 []) r) :=
        @replay_fed_del _ _ _ _ _ _ _ _ _ (db, argv.getD 1 []) _ hdb hsel
      rw [replay_append, hgone, replay_fed hdb (.inr rfl)]
      exact hy

theorem step_expired {t : Int64} {s : Server ν} {key : Key}
    (h : step string load masterhost s (.expired now key) = some s')
    (hlen : key.2.length < 2 ^ 32) (hdb : ValidDb dbnum key.1) :
    ∃ cmds, Steps string load masterhost dbnum t (.expired now key) s s' cmds := by
  have hwf := wellFormed_del hlen
  rw [step] at h
  split at h
  · cases h
  split at h
  · cases h
  obtain rfl := Option.some.inj h
  refine ⟨fed now .del key.1 [str "DEL", key.2] s.aof.selectedDb, ?_,
    plain_fed hdb hwf (lookupProc_headD lookup_del), ?_⟩
  · rw [propagateExpire, feedAppendOnlyFile_eq hwf]
  · intro r cur hsel hr
    refine ⟨none, none, rfl, ?_, rfl, by simp [Event.relative]⟩
    rw [replay_fed_del hdb hsel]
    rfl

/-- The last event on a key. -/
def lastOn (key : Key) (evs : List Event) : Option Event :=
  (evs.filter fun ev => ev.key = key).getLast?

/-- The expire time of a key is set as it was, unless the last command on the key was written
with a relative time. -/
def Absolute (t : Int64) (evs : List Event) (key : Key) : Prop :=
  ∀ ev, lastOn key evs = some ev → ev.relative → ev.time = t

theorem step_spec {t : Int64} {s : Server ν} {ev : Event}
    (h : step string load masterhost s ev = some s') (hok : ev.Ok dbnum) :
    ∃ cmds, Steps string load masterhost dbnum t ev s s' cmds := by
  cases ev with
  | command now db argv => exact step_command h hok.1 hok.2.1 hok.2.2
  | expired now key => exact step_expired h hok.1 hok.2

theorem lastOn_cons (key : Key) (ev : Event) (evs : List Event) :
    lastOn key (ev :: evs) = (lastOn key evs).or (if ev.key = key then some ev else none) := by
  rw [lastOn, lastOn, filter_cons]
  by_cases hkey : ev.key = key
  · rw [if_pos hkey, if_pos (by simpa using hkey), getLast?_cons]
    cases (evs.filter fun ev => ev.key = key).getLast? <;> rfl
  · rw [if_neg hkey, if_neg (by simpa using hkey), Option.or_none]

/-- What a run writes, and the expire times that the loader sets. -/
theorem run_spec {t : Int64} {s : Server ν} (h : run string load masterhost evs s = some s')
    (hok : ∀ ev ∈ evs, ev.Ok dbnum) :
    ∃ cmds, s'.aof.buf = s.aof.buf ++ commandsBytes cmds ∧
      (∀ a ∈ cmds, Plain knownCommand a) ∧
      ∀ r cur, s.aof.selectedDb = -1 ∨ s.aof.selectedDb = cur → Agree r s.data → ∃ c,
        replay string load masterhost dbnum t cmds (cur, r) = c ∧ Agree c.2 s'.data ∧
          ∀ key, getExpire key c.2 = getExpire key s'.data ↔ Absolute t evs key ∧
            (lastOn key evs = none → getExpire key r = getExpire key s.data) := by
  induction evs generalizing s with
  | nil =>
    obtain rfl := Option.some.inj h
    refine ⟨[], by simp [commandsBytes], by simp, fun r cur _ hr => ⟨(cur, r), rfl, hr, ?_⟩⟩
    intro key
    simp [Absolute, lastOn]
  | cons ev evs ih =>
    rw [run, foldlM_cons] at h
    obtain ⟨s₁, hstep, hrun⟩ := Option.bind_eq_some_iff.mp h
    obtain ⟨cmds, hfirst⟩ := step_spec (t := t) hstep (hok ev mem_cons_self)
    obtain ⟨cmds', hbuf, hplain, hreplay⟩ :=
      ih hrun fun ev hev => hok ev (mem_cons_of_mem _ hev)
    refine ⟨cmds ++ cmds', ?_, ?_, ?_⟩
    · rw [hbuf, hfirst.buf, append_assoc]
      simp [commandsBytes]
    · intro a ha
      rcases mem_append.mp ha with ha | ha
      exacts [hfirst.plain a ha, hplain a ha]
    · intro r cur hsel hr
      obtain ⟨x, y, hdata, heq, hvalue, hexpire⟩ := hfirst.replay r cur hsel hr
      have hr₁ : Agree (update r ev.key y) s₁.data := by
        rw [hdata]
        exact hr.update ev.key hvalue
      obtain ⟨c, hc, hagree, hkeys⟩ := hreplay _ s₁.aof.selectedDb (.inr rfl) hr₁
      refine ⟨c, by rw [replay_append, heq, hc], hagree, fun key => ?_⟩
      rw [hkeys, Absolute, Absolute, lastOn_cons, hdata]
      cases hlast : lastOn key evs with
      | some last => simp
      | none =>
        by_cases hkey : ev.key = key
        · subst hkey
          simpa [getExpire] using hexpire
        · simp [getExpire, hkey, Ne.symm hkey]

/-- The loader reads the whole file, and the keys get the expire times that they had. -/
def ExpiresKept (string : Bytes → ν) (load : Bytes → Option ν) (masterhost : Bool)
    (dbnum : Nat) (t : Int64) (c₀ : Int × Dataset ν) (s : Server ν) : Prop :=
  ∃ c, (loadAppendOnlyFile true knownCommand (replayCommand string load masterhost dbnum t)
      s.aof.buf c₀).state c₀ s.aof.buf = some (c, s.aof.buf) ∧
    ∀ key, getExpire key c.2 = getExpire key s.data

theorem load_commands {t : Int64} {cmds : List (List Bytes)} (c₀ : Int × Dataset ν)
    (hplain : ∀ a ∈ cmds, Plain knownCommand a) :
    (loadAppendOnlyFile true knownCommand (replayCommand string load masterhost dbnum t)
      (commandsBytes cmds) c₀).state c₀ (commandsBytes cmds) =
        some (replay string load masterhost dbnum t cmds c₀, commandsBytes cmds) := by
  have hcmds : ∀ argv ∈ cmds, WellFormed argv ∧ lookupCommand knownCommand (argv.headD []) :=
    fun argv hargv => ⟨(hplain argv hargv).wellFormed, by
      rw [lookupCommand, (hplain argv hargv).known, Bool.or_true]⟩
  have hall : fitting commandSize (commandsBytes cmds).length cmds = cmds :=
    fitting_of_sum_le (by rw [length_commandsBytes])
  rw [load_cut c₀ hcmds (append_nil _), hall, foldl_proc_plain hplain]
  rfl

/-- A last command that was written with a relative time is executed at another time. -/
theorem not_kept {cur : Int} {s : Server ν} {t : Int64} {key : Key}
    (hok : ∀ ev ∈ evs, ev.Ok dbnum) (hempty : s.aof.buf = [])
    (hsel : s.aof.selectedDb = -1 ∨ s.aof.selectedDb = cur)
    (h : run string load masterhost evs s = some s') (habsolute : ¬ Absolute t evs key) :
    ¬ ExpiresKept string load masterhost dbnum t (cur, s.data) s' := by
  obtain ⟨cmds, hbuf, hplain, hreplay⟩ := run_spec (t := t) h hok
  obtain ⟨c, hc, -, hkeys⟩ := hreplay s.data cur hsel fun _ => rfl
  rw [hempty, nil_append] at hbuf
  rw [ExpiresKept, hbuf, load_commands (cur, s.data) hplain, hc]
  rintro ⟨c', hc', hall⟩
  obtain ⟨rfl, -⟩ := Prod.mk.inj (Option.some.inj hc')
  exact habsolute ((hkeys key).mp (hall key)).1

/-- For every run: the file keeps the expire times if and only if no key was last changed by
a command that was written with a relative time, unless the time of that command is the one
at which the file is loaded. -/
theorem expires_kept_iff {cur : Int} {s s' : Server ν} {evs : List Event}
    (hok : ∀ ev ∈ evs, ev.Ok dbnum) (hempty : s.aof.buf = [])
    (hsel : s.aof.selectedDb = -1 ∨ s.aof.selectedDb = cur)
    (h : run string load masterhost evs s = some s') (t : Int64) :
    ExpiresKept string load masterhost dbnum t (cur, s.data) s' ↔ ∀ key, Absolute t evs key := by
  constructor
  · intro hkept key
    by_contra habsolute
    exact not_kept hok hempty hsel h habsolute hkept
  · intro hall
    obtain ⟨cmds, hbuf, hplain, hreplay⟩ := run_spec (t := t) h hok
    obtain ⟨c, hc, -, hkeys⟩ := hreplay s.data cur hsel fun _ => rfl
    rw [hempty, nil_append] at hbuf
    refine ⟨c, ?_, fun key => (hkeys key).mpr ⟨hall key, fun _ => rfl⟩⟩
    rw [hbuf, load_commands (cur, s.data) hplain, hc]

/-- The server starts without keys. -/
def noKeys : Server Bytes := ⟨fun _ => none, ⟨-1, []⟩⟩

/-- `SETEX k 10 v`, at the time 1000. -/
def setexEvent : Event := .command 1000 0 [str "SETEX", str "k", str "10", str "v"]

/-- `SET k v EX 10`, at the time 1000. -/
def setEvent : Event := .command 1000 0 [str "SET", str "k", str "v", str "EX", str "10"]

theorem validDb_zero : ValidDb 16 0 := ⟨by decide, by decide, by decide⟩

theorem setexEvent_ok : ∀ ev ∈ [setexEvent], ev.Ok 16 := by
  simp only [forall_mem_singleton]
  exact ⟨⟨by decide, by decide, by decide⟩, validDb_zero, by decide⟩

theorem setEvent_ok : ∀ ev ∈ [setEvent], ev.Ok 16 := by
  simp only [forall_mem_singleton]
  exact ⟨⟨by decide, by decide, by decide⟩, validDb_zero, by decide⟩

/-- `SETEX`, and the file loaded at the time 5000. -/
theorem expires_kept_setex : ∃ s', run id (fun _ => none) false [setexEvent] noKeys = some s' ∧
    ExpiresKept id (fun _ => none) false 16 5000 (0, noKeys.data) s' := by
  have hsome : (run id (fun _ => none) false [setexEvent] noKeys).isSome := by decide
  obtain ⟨s', h⟩ := Option.isSome_iff_exists.mp hsome
  refine ⟨s', h, (expires_kept_iff setexEvent_ok rfl (.inl rfl) h 5000).mpr ?_⟩
  intro key ev hlast hrelative
  have hev : ev = setexEvent := by
    have hmem := mem_of_getLast? hlast
    simpa using (mem_filter.mp hmem).1
  rw [hev] at hrelative
  exact absurd hrelative (by decide)

/-- `SET` with `EX`, and the file loaded at the time 2000. -/
theorem expire_moved : ∃ s', run id (fun _ => none) false [setEvent] noKeys = some s' ∧
    ¬ ExpiresKept id (fun _ => none) false 16 2000 (0, noKeys.data) s' := by
  have hsome : (run id (fun _ => none) false [setEvent] noKeys).isSome := by decide
  obtain ⟨s', h⟩ := Option.isSome_iff_exists.mp hsome
  have hlast : lastOn (0, str "k") [setEvent] = some setEvent := by
    have hkey : setEvent.key = (0, str "k") := rfl
    rw [lastOn_cons, if_pos hkey]
    rfl
  have hrelative : setEvent.relative = true := by decide
  have hnot : ¬ Absolute 2000 [setEvent] (0, str "k") :=
    fun hall => absurd (hall setEvent hlast hrelative) (by decide)
  exact ⟨s', h, not_kept setEvent_ok rfl (.inl rfl) h hnot⟩

end Replay

end Redis.Aof
