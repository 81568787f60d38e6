import Redis.Aof
import Redis.Fitting

/-!
# Redis.Aof.Load

`loadAppendOnlyFile` of a file that was cut.  The loader calls the procedure of each command
as soon as it has read it, also after a `MULTI`, and remembers the offset behind it.

`known` says which names the command table has, and `exec` what a command that is not about
transactions does to the dataset, with the flag `REDIS_MULTI` of the client.
-/

namespace Redis.Aof

open List

open Redis.Config (str)
open Redis.Bus (strcaseEq)

variable {δ : Type}
variable {cmds : List (List Bytes)} {items : List Item}

/-! ## The loader -/

/-- The fake client, and the dataset. -/
structure FakeClient (δ : Type) where
  multi : Bool
  mstate : List (List Bytes)
  data : δ

def createFakeClient (data : δ) : FakeClient δ := ⟨false, [], data⟩

def lookupCommand (known : Bytes → Bool) (name : Bytes) : Bool :=
  strcaseEq name (str "multi") || strcaseEq name (str "exec") || strcaseEq name (str "discard") ||
    known name

def multiCommand (c : FakeClient δ) : FakeClient δ :=
  if c.multi then c else { c with multi := true }

/-- `execCommand`; nothing is propagated while the file is loaded. -/
def execCommand (exec : Bool → List Bytes → δ → δ) (c : FakeClient δ) : FakeClient δ :=
  if ¬ c.multi then c
  else ⟨false, [], c.mstate.foldl (fun data argv => exec true argv data) c.data⟩

def discardCommand (c : FakeClient δ) : FakeClient δ :=
  if ¬ c.multi then c else ⟨false, [], c.data⟩

/-- `cmd->proc(fakeClient)`. -/
def FakeClient.proc (exec : Bool → List Bytes → δ → δ) (c : FakeClient δ)
    (argv : List Bytes) : FakeClient δ :=
  let name := argv.headD []
  if strcaseEq name (str "multi") then multiCommand c
  else if strcaseEq name (str "exec") then execCommand exec c
  else if strcaseEq name (str "discard") then discardCommand c
  else { c with data := exec c.multi argv c.data }

/-- How `loadAppendOnlyFile` ends: `REDIS_OK` with the dataset and the file, `REDIS_ERR`, or
`exit(1)`. -/
inductive Loaded (δ : Type) where
  | ok (data : δ) (file : Bytes)
  | err
  | exit

section Loader

variable (truncated : Bool) (known : Bytes → Bool)
  (exec : Bool → List Bytes → δ → δ) (file : Bytes)

def uxeof (c : FakeClient δ) (validUpTo : Nat) : Loaded δ :=
  if truncated then .ok c.data (file.take validUpTo) else .exit

/-- The loop of `loadAppendOnlyFile`, with the bytes from `ftello(fp)` on. -/
def loadLoop : Nat → FakeClient δ → Nat → Bytes → Loaded δ
  | 0, _, _, _ => .exit
  | fuel + 1, c, validUpTo, rest =>
    if rest = [] then
      if c.multi then uxeof truncated file c validUpTo else .ok c.data file
    else
      match readCommand rest with
      | .error .fmterr => .exit
      | .error (.readerr feof) => if feof then uxeof truncated file c validUpTo else .exit
      | .ok (argv, rest) =>
        if ¬ lookupCommand known (argv.headD []) then .exit
        else
          let validUpTo := if truncated then file.length - rest.length else validUpTo
          loadLoop fuel (c.proc exec argv) validUpTo rest

/-- `loadAppendOnlyFile`; `truncated` is `aof-load-truncated`. -/
def loadAppendOnlyFile (data : δ) : Loaded δ :=
  if file = [] then .err
  else loadLoop truncated known exec file (file.length + 1) (createFakeClient data) 0 file

end Loader

/-- The dataset and the file after the call, if the server goes on. -/
def Loaded.state (data : δ) (file : Bytes) : Loaded δ → Option (δ × Bytes)
  | .ok data file => some (data, file)
  | .err => some (data, file)
  | .exit => none

/-! ## What was written -/

/-- A command, or a transaction with the name that the client has sent for `EXEC`. -/
inductive Item where
  | command (argv : List Bytes)
  | transaction (cmds : List (List Bytes)) (exec : Bytes)

/-- The commands that are written. -/
def Item.commands : Item → List (List Bytes)
  | .command argv => [argv]
  | .transaction cmds exec => [str "MULTI"] :: (cmds ++ [[exec]])

/-- The bytes of items, as they are appended. -/
def itemsBytes (items : List Item) : Bytes :=
  (items.flatMap Item.commands).foldl
    (fun dst argv => catAppendOnlyGenericCommand dst (argv.map .raw)) []

/-- The dataset after an item. -/
def Item.run (exec : Bool → List Bytes → δ → δ) (data : δ) : Item → δ
  | .command argv => exec false argv data
  | .transaction cmds _ => cmds.foldl (fun data argv => exec true argv data) data

/-- A command of the table that is not about transactions. -/
structure Plain (known : Bytes → Bool) (argv : List Bytes) : Prop where
  wellFormed : WellFormed argv
  known : known (argv.headD [])
  not_multi : strcaseEq (argv.headD []) (str "multi") = false
  not_exec : strcaseEq (argv.headD []) (str "exec") = false
  not_discard : strcaseEq (argv.headD []) (str "discard") = false

/-- An item that the server can have written. -/
inductive Item.Ok (known : Bytes → Bool) : Item → Prop
  | command {argv : List Bytes} : Plain known argv → Item.Ok known (.command argv)
  | transaction {cmds : List (List Bytes)} {exec : Bytes} :
      (∀ argv ∈ cmds, Plain known argv) → strcaseEq exec (str "exec") = true →
      Item.Ok known (.transaction cmds exec)

/-- The number of bytes of a command. -/
def commandSize (argv : List Bytes) : Nat := (commandBytes argv).length

/-- The number of bytes of an item. -/
def Item.size (item : Item) : Nat := (item.commands.map commandSize).sum

/-- A transaction of which `n` bytes are left has its `MULTI`. -/
def Item.Opened (n : Nat) : Item → Prop
  | .command _ => False
  | .transaction _ _ => commandSize [str "MULTI"] ≤ n

/-- The cut is behind the `MULTI` of a transaction, and in front of the end of its `EXEC`. -/
def cutInTransaction : Nat → List Item → Prop
  | _, [] => False
  | n, item :: items =>
    if item.size ≤ n then cutInTransaction (n - item.size) items else item.Opened n

/-- With `aof-load-truncated` the loader recovers the items that were complete: their dataset,
and their bytes in the file. -/
def Recovers (known : Bytes → Bool) (exec : Bool → List Bytes → δ → δ)
    (items : List Item) (n : Nat) (data : δ) : Prop :=
  let file := (itemsBytes items).take n
  let complete := fitting Item.size n items
  (loadAppendOnlyFile true known exec file data).state data file =
    some (complete.foldl (Item.run exec) data, itemsBytes complete)

/-! ## The commands that are loaded -/

def commandsBytes (cmds : List (List Bytes)) : Bytes := cmds.flatMap commandBytes

theorem foldl_catAppendOnlyGenericCommand (h : ∀ argv ∈ cmds, WellFormed argv) (dst : Bytes) :
    cmds.foldl (fun dst argv => catAppendOnlyGenericCommand dst (argv.map .raw)) dst =
      dst ++ commandsBytes cmds := by
  induction cmds generalizing dst with
  | nil => simp [commandsBytes]
  | cons argv cmds ih =>
    rw [foldl_cons, catAppendOnlyGenericCommand_eq (h argv mem_cons_self),
      ih fun b hb => h b (mem_cons_of_mem argv hb)]
    simp [commandsBytes]

theorem commandSize_pos (argv : List Bytes) : 0 < commandSize argv := by
  simp [commandSize, commandBytes, Replication.numLine]

theorem length_commandsBytes (cmds : List (List Bytes)) :
    (commandsBytes cmds).length = (cmds.map commandSize).sum := by
  rw [commandsBytes, length_flatMap]
  rfl

variable {argv : List Bytes} {future w : Bytes} {item : Item} {n : Nat}

/-- Nothing is complete in less than the bytes of the first command. -/
theorem fitting_of_lt (h : n < commandSize argv) : fitting commandSize n (argv :: cmds) = [] := by
  rw [fitting, if_neg (by omega)]

/-- The loader executes the commands that are complete, and keeps their bytes. -/
theorem loadLoop_cut {known : Bytes → Bool} {exec : Bool → List Bytes → δ → δ} {fuel : Nat}
    {c : FakeClient δ} {pre : Bytes}
    (hcmds : ∀ argv ∈ cmds, WellFormed argv ∧ lookupCommand known (argv.headD []))
    (h : w ++ future = commandsBytes cmds) (hfuel : w.length < fuel) :
    loadLoop true known exec (pre ++ w) fuel c pre.length w =
      .ok ((fitting commandSize w.length cmds).foldl (FakeClient.proc exec) c).data
        (pre ++ commandsBytes (fitting commandSize w.length cmds)) := by
  induction cmds generalizing fuel c pre w with
  | nil =>
    obtain ⟨fuel, rfl⟩ := Nat.exists_eq_add_one.mpr (Nat.zero_lt_of_lt hfuel)
    obtain ⟨rfl, -⟩ := append_eq_nil_iff.mp h
    rw [loadLoop, if_pos rfl]
    split <;> simp [uxeof, fitting, commandsBytes]
  | cons argv cmds ih =>
    obtain ⟨fuel, rfl⟩ := Nat.exists_eq_add_one.mpr (Nat.zero_lt_of_lt hfuel)
    obtain ⟨hwf, hknown⟩ := hcmds argv mem_cons_self
    have hbytes : w ++ future = commandBytes argv ++ commandsBytes cmds := h
    rw [loadLoop]
    by_cases hw : w = []
    · subst hw
      rw [if_pos rfl, length_nil, fitting_of_lt (commandSize_pos argv)]
      split <;> simp [uxeof, commandsBytes]
    rw [if_neg hw]
    rcases readCommand_cut hwf hbytes hw with ⟨w', rfl, hread⟩ | ⟨hlt, hread⟩
    · have hrest : w' ++ future = commandsBytes cmds := by simpa using hbytes
      have hpos : (pre ++ (commandBytes argv ++ w')).length - w'.length =
          (pre ++ commandBytes argv).length := by
        simp only [length_append]
        omega
      have hsize : (commandBytes argv ++ w').length - commandSize argv = w'.length := by
        simp [commandSize]
      have hfuel' : w'.length < fuel := by
        have := commandSize_pos argv
        rw [commandSize] at this
        rw [length_append] at hfuel
        omega
      rw [hread, fitting, if_pos (by simp [commandSize]), hsize]
      simp only [hknown, not_true, if_false, if_true, hpos]
      rw [← append_assoc, ih (fun b hb => hcmds b (mem_cons_of_mem argv hb)) hrest
        hfuel', foldl_cons]
      simp [commandsBytes]
    · rw [hread, fitting_of_lt hlt]
      simp [uxeof, commandsBytes]

theorem load_cut {known : Bytes → Bool} {exec : Bool → List Bytes → δ → δ} (data : δ)
    (hcmds : ∀ argv ∈ cmds, WellFormed argv ∧ lookupCommand known (argv.headD []))
    (h : w ++ future = commandsBytes cmds) :
    (loadAppendOnlyFile true known exec w data).state data w =
      some (((fitting commandSize w.length cmds).foldl (FakeClient.proc exec)
          (createFakeClient data)).data,
        commandsBytes (fitting commandSize w.length cmds)) := by
  rw [loadAppendOnlyFile]
  by_cases hw : w = []
  · subst hw
    have hnil : fitting commandSize 0 cmds = [] := by
      cases cmds with
      | nil => rfl
      | cons argv cmds => exact fitting_of_lt (commandSize_pos argv)
    rw [if_pos rfl, length_nil, hnil]
    rfl
  · rw [if_neg hw]
    have hloop : loadLoop true known exec ([] ++ w) (w.length + 1) (createFakeClient data)
        ([] : Bytes).length w = _ := loadLoop_cut hcmds h (Nat.lt_succ_self _)
    rw [nil_append, length_nil] at hloop
    rw [hloop, Loaded.state, nil_append]

/-- What the loader leaves of a file that was cut anywhere, also in a transaction, is loaded again
to the same dataset, and stays as it is. -/
theorem recovery_idempotent {known : Bytes → Bool} (exec : Bool → List Bytes → δ → δ)
    (cmds : List (List Bytes)) {file : Bytes}
    (hcmds : ∀ argv ∈ cmds, WellFormed argv ∧ lookupCommand known (argv.headD []))
    (h : file <+: cmds.foldl
      (fun dst argv => catAppendOnlyGenericCommand dst (argv.map .raw)) []) (data : δ) :
    let load file := (loadAppendOnlyFile true known exec file data).state data file
    ∃ data' file', file' <+: file ∧ load file = some (data', file') ∧
      load file' = some (data', file') := by
  rw [foldl_catAppendOnlyGenericCommand (fun argv hmem => (hcmds argv hmem).1), nil_append] at h
  obtain ⟨future, hfuture⟩ := h
  obtain ⟨complete, hcomplete⟩ : ∃ l, fitting commandSize file.length cmds = l := ⟨_, rfl⟩
  have hpre : complete <+: cmds := hcomplete ▸ prefix_fitting _ _
  have hlen : (commandsBytes complete).length ≤ file.length := by
    rw [length_commandsBytes, ← hcomplete]
    exact sum_fitting_le _ _
  have hfile : commandsBytes complete <+: file := by
    obtain ⟨rest, rfl⟩ := hpre
    refine prefix_of_prefix_length_le ⟨commandsBytes rest, ?_⟩ ⟨future, hfuture⟩ hlen
    rw [commandsBytes, commandsBytes, commandsBytes, flatMap_append]
  have hfirst : (loadAppendOnlyFile true known exec file data).state data file = _ :=
    load_cut data hcmds hfuture
  have hagain : (loadAppendOnlyFile true known exec (commandsBytes complete) data).state data _ =
      _ := load_cut data (fun argv hmem => hcmds argv (hpre.subset hmem)) (append_nil _)
  rw [hcomplete] at hfirst
  rw [length_commandsBytes, fitting_of_sum_le le_rfl] at hagain
  exact ⟨_, _, hfile, hfirst, hagain⟩

/-! ## Transactions -/

theorem proc_plain {known : Bytes → Bool} {exec : Bool → List Bytes → δ → δ}
    (h : Plain known argv) (c : FakeClient δ) :
    c.proc exec argv = { c with data := exec c.multi argv c.data } := by
  rw [FakeClient.proc]
  simp only [h.not_multi, h.not_exec, h.not_discard, Bool.false_eq_true, if_false]

theorem foldl_proc_plain {known : Bytes → Bool} {exec : Bool → List Bytes → δ → δ}
    (h : ∀ argv ∈ cmds, Plain known argv) (c : FakeClient δ) :
    cmds.foldl (FakeClient.proc exec) c =
      { c with data := cmds.foldl (fun data argv => exec c.multi argv data) c.data } := by
  induction cmds generalizing c with
  | nil => rfl
  | cons argv cmds ih =>
    rw [foldl_cons, proc_plain (h argv mem_cons_self),
      ih fun b hb => h b (mem_cons_of_mem argv hb)]
    rfl

/-- `EXEC` of the fake client, for which nothing was queued. -/
theorem proc_exec {exec : Bool → List Bytes → δ → δ} {name : Bytes}
    (h : strcaseEq name (str "exec") = true) (data : δ) :
    FakeClient.proc exec ⟨true, [], data⟩ [name] = createFakeClient data := by
  have hmulti : strcaseEq name (str "multi") = false := by
    rw [strcaseEq, beq_iff_eq] at h
    rw [strcaseEq, h]
    decide
  rw [FakeClient.proc]
  simp only [headD_cons, hmulti, h, Bool.false_eq_true, if_false, if_true]
  rfl

theorem foldl_proc_item {known : Bytes → Bool} {exec : Bool → List Bytes → δ → δ}
    (h : item.Ok known) (data : δ) :
    item.commands.foldl (FakeClient.proc exec) (createFakeClient data) =
      createFakeClient (item.run exec data) := by
  cases h with
  | command h => simp [Item.commands, proc_plain h, createFakeClient, Item.run]
  | transaction hcmds hexec =>
    have hmulti : strcaseEq (str "MULTI") (str "multi") = true := by decide
    have hfirst : FakeClient.proc exec (createFakeClient data) [str "MULTI"] =
        ⟨true, [], data⟩ := by
      rw [FakeClient.proc]
      simp only [headD_cons, hmulti, if_true]
      rfl
    rw [Item.commands, foldl_cons, hfirst, foldl_append, foldl_proc_plain hcmds,
      foldl_cons, foldl_nil, proc_exec hexec, Item.run]

theorem foldl_proc_items {known : Bytes → Bool} {exec : Bool → List Bytes → δ → δ}
    (h : ∀ item ∈ items, item.Ok known) (data : δ) :
    (items.flatMap Item.commands).foldl (FakeClient.proc exec) (createFakeClient data) =
      createFakeClient (items.foldl (Item.run exec) data) := by
  induction items generalizing data with
  | nil => rfl
  | cons item items ih =>
    rw [flatMap_cons, foldl_append, foldl_proc_item (h item mem_cons_self),
      ih fun b hb => h b (mem_cons_of_mem item hb), foldl_cons]

theorem Item.Ok.commands {known : Bytes → Bool} (h : item.Ok known) :
    ∀ argv ∈ item.commands, WellFormed argv ∧ lookupCommand known (argv.headD []) := by
  have hplain {argv : List Bytes} (h : Plain known argv) :
      WellFormed argv ∧ lookupCommand known (argv.headD []) :=
    ⟨h.wellFormed, by rw [lookupCommand, h.known, Bool.or_true]⟩
  intro argv hmem
  cases h with
  | command h =>
    rw [mem_singleton.mp hmem]
    exact hplain h
  | @transaction cmds exec hcmds hexec =>
    rcases mem_cons.mp hmem with rfl | hmem
    · exact ⟨⟨by decide, by decide, by decide⟩, by
        rw [lookupCommand, show strcaseEq ([str "MULTI"].headD []) (str "multi") = true by decide]
        rfl⟩
    · rcases mem_append.mp hmem with hmem | hmem
      · exact hplain (hcmds argv hmem)
      · rw [mem_singleton.mp hmem]
        have hlen : exec.length = 4 := by
          rw [strcaseEq, beq_iff_eq] at hexec
          have hname : (str "exec").length = 4 := by decide
          simpa [hname] using congrArg length hexec
        refine ⟨⟨by simp, by simp, by simp [hlen]⟩, ?_⟩
        rw [lookupCommand, headD_cons, hexec, Bool.or_true, Bool.true_or, Bool.true_or]

theorem itemsBytes_eq {known : Bytes → Bool} (h : ∀ item ∈ items, item.Ok known) :
    itemsBytes items = commandsBytes (items.flatMap Item.commands) := by
  refine foldl_catAppendOnlyGenericCommand ?_ []
  intro argv hmem
  obtain ⟨item, hitem, hmem⟩ := mem_flatMap.mp hmem
  exact ((h item hitem).commands argv hmem).1

/-- The commands that are complete are those of the complete items, and of a transaction that
was cut. -/
theorem fitting_commands (n : Nat) (items : List Item) :
    ∃ cut, fitting commandSize n (items.flatMap Item.commands) =
        (fitting Item.size n items).flatMap Item.commands ++ cut ∧
      (cut = [] ↔ ¬ cutInTransaction n items) := by
  induction items generalizing n with
  | nil => exact ⟨[], rfl, by simp [cutInTransaction]⟩
  | cons item items ih =>
    rw [flatMap_cons, fitting, cutInTransaction]
    by_cases hsize : item.size ≤ n
    · obtain ⟨cut, heq, hcut⟩ := ih (n - item.size)
      refine ⟨cut, ?_, by rw [if_pos hsize, hcut]⟩
      rw [fitting_append hsize, if_pos hsize, flatMap_cons, append_assoc, ← heq]
      rfl
    · refine ⟨fitting commandSize n item.commands, ?_, ?_⟩
      · rw [fitting_append_of_lt (Nat.lt_of_not_le hsize), if_neg hsize]
        rfl
      · rw [if_neg hsize]
        cases item with
        | command argv =>
          rw [Item.size, Item.commands, map_singleton, sum_singleton] at hsize
          simp [Item.commands, Item.Opened, fitting_of_lt (Nat.lt_of_not_le hsize)]
        | transaction cmds exec =>
          rw [Item.commands, Item.Opened, fitting]
          split <;> simp [*]

/-- What the loader leaves: the complete items, and the commands of a transaction that was
cut. -/
theorem load_items {known : Bytes → Bool} (exec : Bool → List Bytes → δ → δ)
    (h : ∀ item ∈ items, item.Ok known) (n : Nat) (data : δ) :
    ∃ cut, (cut = [] ↔ ¬ cutInTransaction n items) ∧
      (loadAppendOnlyFile true known exec ((itemsBytes items).take n) data).state data
          ((itemsBytes items).take n) =
        some ((cut.foldl (FakeClient.proc exec)
            (createFakeClient ((fitting Item.size n items).foldl (Item.run exec) data))).data,
          itemsBytes (fitting Item.size n items) ++ commandsBytes cut) := by
  obtain ⟨cut, heq, hcut⟩ := fitting_commands n items
  refine ⟨cut, hcut, ?_⟩
  have hcmds : ∀ argv ∈ items.flatMap Item.commands,
      WellFormed argv ∧ lookupCommand known (argv.headD []) := by
    intro argv hmem
    obtain ⟨item, hitem, hmem⟩ := mem_flatMap.mp hmem
    exact (h item hitem).commands argv hmem
  have hfit : fitting commandSize ((itemsBytes items).take n).length
      (items.flatMap Item.commands) = fitting commandSize n (items.flatMap Item.commands) := by
    rw [length_take, itemsBytes_eq h, length_commandsBytes, fitting_min]
  have hok : ∀ item ∈ fitting Item.size n items, item.Ok known :=
    fun item hitem => h item ((prefix_fitting n items).subset hitem)
  have hsplit : (itemsBytes items).take n ++ (itemsBytes items).drop n =
      commandsBytes (items.flatMap Item.commands) := by
    rw [take_append_drop, itemsBytes_eq h]
  rw [load_cut data hcmds hsplit, hfit, heq, foldl_append, foldl_proc_items hok,
    itemsBytes_eq hok]
  simp [commandsBytes]

theorem not_recovers_of_cutInTransaction {known : Bytes → Bool} {exec : Bool → List Bytes → δ → δ}
    (h : ∀ item ∈ items, item.Ok known) (hcut : cutInTransaction n items) (data : δ) :
    ¬ Recovers known exec items n data := by
  obtain ⟨cut, hnil, hstate⟩ := load_items exec h n data
  rw [Recovers, hstate, Option.some_inj, Prod.mk.injEq]
  rintro ⟨-, hfile⟩
  cases cut with
  | nil => exact hnil.mp rfl hcut
  | cons argv cut =>
    have hpos := commandSize_pos argv
    have hlen := congrArg length hfile
    rw [length_append, length_commandsBytes (argv :: cut), map_cons,
      sum_cons] at hlen
    omega

/-- The recovery is atomic unless the cut is in a transaction. -/
theorem recovers_iff {known : Bytes → Bool} {exec : Bool → List Bytes → δ → δ}
    {items : List Item} (h : ∀ item ∈ items, item.Ok known) (n : Nat) (data : δ) :
    Recovers known exec items n data ↔ ¬ cutInTransaction n items := by
  constructor
  · intro hrec hcut
    exact not_recovers_of_cutInTransaction h hcut data hrec
  · intro hcut
    obtain ⟨cut, hnil, hstate⟩ := load_items exec h n data
    obtain rfl := hnil.mpr hcut
    rw [Recovers, hstate]
    simp [commandsBytes, createFakeClient]

/-- `SET k v`. -/
def setCmd : List Bytes := [str "SET", str "k", str "v"]

theorem plain_setCmd : Plain (fun _ => true) setCmd :=
  ⟨⟨by decide, by decide, by decide⟩, rfl, by decide, by decide, by decide⟩

/-- A transaction that was cut behind its only `SET`. -/
theorem recovery_idempotent_open :
    let file := commandsBytes [[str "MULTI"], setCmd]
    let load file := (loadAppendOnlyFile true (fun _ => true) (fun _ argv log => log ++ [argv])
      file []).state [] file
    ∃ data' file', file' <+: file ∧ load file = some (data', file') ∧
      load file' = some (data', file') := by
  have hitem : (Item.transaction [setCmd] (str "EXEC")).Ok fun _ => true :=
    .transaction (by simpa using plain_setCmd) (by decide)
  refine recovery_idempotent _ _ hitem.commands ?_ []
  rw [foldl_catAppendOnlyGenericCommand fun argv hmem => (hitem.commands argv hmem).1]
  exact ⟨commandBytes [str "EXEC"], by simp [Item.commands, commandsBytes]⟩

theorem recovers_command : Recovers (fun _ => true) (fun _ argv log => log ++ [argv])
    [.command setCmd, .command setCmd] 30 [] :=
  (recovers_iff (by simpa using Item.Ok.command plain_setCmd) 30 []).mpr (by
    simp [cutInTransaction, Item.Opened])

/-- A transaction that was cut behind its only `SET`. -/
theorem not_recovers : ¬ Recovers (fun _ => true) (fun _ argv log => log ++ [argv])
    [.transaction [setCmd] (str "EXEC")] (commandSize [str "MULTI"] + commandSize setCmd) [] := by
  refine not_recovers_of_cutInTransaction ?_ ?_ []
  · have hcmds : ∀ argv ∈ [setCmd], Plain (fun _ => true) argv := by
      simpa using plain_setCmd
    simpa using Item.Ok.transaction hcmds (by decide)
  · have hpos := commandSize_pos [str "EXEC"]
    rw [cutInTransaction, if_neg]
    · exact Nat.le_add_right _ _
    · simp only [Item.size, Item.commands, map_cons, map_nil, sum_cons,
        sum_nil, cons_append, nil_append]
      omega

end Redis.Aof
