import Redis.Replication.Replay
import Redis.Sentinel.Config

/-!
# Redis.Commands.Keys

Which arguments of a command are keys.  `redisCommandTable` says it with three numbers or a
procedure, and `getKeysFromCommand` reads the table; the commands themselves have loops of
their own over their arguments.
-/

namespace Redis.Commands

open List

open Redis.Config (str cstr)
open Redis.Replication (getLongLongFromObject)
open Redis.Sentinel (atoi digitsValue readSign digitsValue_append readSign_digit)
open Redis.Sds (isspace)
open Redis.Bus (strcaseEq)

variable {first bound step j : Nat} {turn : Option Obj → Turn} {js : List Nat} {rest : Run}
  {arity : Int}

/-! ## The table -/

/-- The commands with more than one key, or with keys behind a number. -/
inductive Command where
  | del
  | mget
  | mset
  | msetnx
  | rename
  | rpoplpush
  | blpop
  | brpop
  | brpoplpush
  | smove
  | sinter
  | sinterstore
  | sunion
  | sunionstore
  | sdiff
  | sdiffstore
  | zunionstore
  | zinterstore
  | pfadd
  | pfcount
  | pfmerge
  | bitop
  | watch
  deriving DecidableEq

/-- The fields of `redisCommand` about the arguments. -/
structure RedisCommand where
  arity : Int
  getkeysProc : Option (List Bytes → Option (List Nat))
  firstkey : Nat
  lastkey : Int
  keystep : Nat

/-- The values of `j` in `for (j = first; j < bound; j += step)`. -/
def indices (first bound step : Nat) : List Nat :=
  range' first ((bound - first + step - 1) / step) step

/-- `zunionInterGetKeys`; with a negative number it writes before its array. -/
def zunionInterGetKeys (argv : List Bytes) : Option (List Nat) :=
  let num := atoi (argv.getD 2 [])
  if num > argv.length - 3 then some []
  else if num < 0 then none
  else some ((range num.toNat).map (3 + ·) ++ [1])

def redisCommandTable : Command → RedisCommand
  | .del => ⟨-2, none, 1, -1, 1⟩
  | .mget => ⟨-2, none, 1, -1, 1⟩
  | .mset => ⟨-3, none, 1, -1, 2⟩
  | .msetnx => ⟨-3, none, 1, -1, 2⟩
  | .rename => ⟨3, none, 1, 2, 1⟩
  | .rpoplpush => ⟨3, none, 1, 2, 1⟩
  | .blpop => ⟨-3, none, 1, -2, 1⟩
  | .brpop => ⟨-3, none, 1, 1, 1⟩
  | .brpoplpush => ⟨4, none, 1, 2, 1⟩
  | .smove => ⟨4, none, 1, 2, 1⟩
  | .sinter => ⟨-2, none, 1, -1, 1⟩
  | .sinterstore => ⟨-3, none, 1, -1, 1⟩
  | .sunion => ⟨-2, none, 1, -1, 1⟩
  | .sunionstore => ⟨-3, none, 1, -1, 1⟩
  | .sdiff => ⟨-2, none, 1, -1, 1⟩
  | .sdiffstore => ⟨-3, none, 1, -1, 1⟩
  | .zunionstore => ⟨-4, some zunionInterGetKeys, 0, 0, 0⟩
  | .zinterstore => ⟨-4, some zunionInterGetKeys, 0, 0, 0⟩
  | .pfadd => ⟨-2, none, 1, 1, 1⟩
  | .pfcount => ⟨-2, none, 1, 1, 1⟩
  | .pfmerge => ⟨-2, none, 1, -1, 1⟩
  | .bitop => ⟨-4, none, 2, -1, 1⟩
  | .watch => ⟨-2, none, 1, -1, 1⟩

/-- `getKeysUsingCommandTable`, with its assertion. -/
def getKeysUsingCommandTable (cmd : RedisCommand) (argv : List Bytes) : Option (List Nat) :=
  if cmd.firstkey = 0 then some []
  else
    let last := if cmd.lastkey < 0 then argv.length + cmd.lastkey else cmd.lastkey
    let keys := indices cmd.firstkey (last + 1).toNat cmd.keystep
    if keys.all (· < argv.length) then some keys else none

def getKeysFromCommand (cmd : Command) (argv : List Bytes) : Option (List Nat) :=
  match (redisCommandTable cmd).getkeysProc with
  | some getkeysProc => getkeysProc argv
  | none => getKeysUsingCommandTable (redisCommandTable cmd) argv

/-- The check of the arity in `processCommand`. -/
def arityOk (cmd : Command) (argv : List Bytes) : Bool :=
  let arity := (redisCommandTable cmd).arity
  !((decide (arity > 0) && arity != argv.length) || decide ((argv.length : Int) < -arity))

/-! ## The keyspace -/

/-- What the commands ask of a HyperLogLog: whether `hllMerge`, the calls of `hllAdd` and
`hllCount` succeed, and whether its cached cardinality is valid. -/
structure Hll where
  merges : Bool
  adds : List Bytes → Bool
  counts : Bool
  cached : Bool

/-- A value, with what the commands ask of it before they reply. -/
inductive Obj where
  | string (hll : Option Hll)
  | list (length : Nat)
  | set
  | zset
  | hash

abbrev Keyspace := Bytes → Option Obj

/-- A run of a command: whether it replies without an error, and the arguments that it looks
up or modifies in the keyspace. -/
structure Run where
  accepted : Bool
  touched : List Nat

/-- What a loop does after it has looked up a key. -/
inductive Turn where
  | next
  | stop
  | reject

/-- A loop that looks up the arguments at the positions, in order, until one ends it. -/
@[grind =]
def lookupKeys (db : Keyspace) (argv : List Bytes) (turn : Option Obj → Turn) :
    List Nat → Turn × List Nat
  | [] => (.next, [])
  | j :: js =>
    match turn (db (argv.getD j [])) with
    | .next => ((lookupKeys db argv turn js).1, j :: (lookupKeys db argv turn js).2)
    | .stop => (.stop, [j])
    | .reject => (.reject, [j])

/-- A command that is one such loop, and then `rest`. -/
def Run.after (loop : Turn × List Nat) (rest : Run) : Run :=
  match loop.1 with
  | .next => ⟨rest.accepted, loop.2 ++ rest.touched⟩
  | .stop => ⟨true, loop.2⟩
  | .reject => ⟨false, loop.2⟩

/-- `checkType` of a set that exists. -/
def checkSet : Obj → Turn
  | .set => .next
  | _ => .reject

/-- The types that `zunionInterGenericCommand` reads. -/
def checkSource : Obj → Turn
  | .zset => .next
  | .set => .next
  | _ => .reject

/-- `checkType` of a string that exists. -/
def checkString : Obj → Turn
  | .string _ => .next
  | _ => .reject

/-- `isHLLObjectOrReply`, and then `hllMerge`. -/
def checkHll : Obj → Turn
  | .string (some hll) => if hll.merges then .next else .reject
  | _ => .reject

/-! ## The commands -/

section Commands

variable (argv : List Bytes) (db : Keyspace) (multi : Bool)

def delCommand : Run :=
  Run.after (lookupKeys db argv (fun _ => .next) (indices 1 argv.length 1)) ⟨true, []⟩

def mgetCommand : Run :=
  Run.after (lookupKeys db argv (fun _ => .next) (indices 1 argv.length 1)) ⟨true, []⟩

def msetGenericCommand (nx : Bool) : Run :=
  if argv.length % 2 = 0 then ⟨false, []⟩
  else
    let keys := indices 1 argv.length 2
    let looked := if nx then keys else []
    let busykeys := (looked.filter fun j => (db (argv.getD j [])).isSome).length
    if busykeys ≠ 0 then ⟨true, looked⟩ else ⟨true, looked ++ keys⟩

def msetCommand : Run := msetGenericCommand argv db false

def msetnxCommand : Run := msetGenericCommand argv db true

def renameGenericCommand (nx : Bool) : Run :=
  if argv.getD 1 [] = argv.getD 2 [] then ⟨false, []⟩
  else
    match db (argv.getD 1 []) with
    | none => ⟨false, [1]⟩
    | some _ =>
      if (db (argv.getD 2 [])).isSome ∧ nx then ⟨true, [1, 2]⟩
      else ⟨true, [1, 2, 2, 1]⟩

def renameCommand : Run := renameGenericCommand argv db false

def rpoplpushCommand : Run :=
  match db (argv.getD 1 []) with
  | none => ⟨true, [1]⟩
  | some (.list length) =>
    if length = 0 then ⟨true, [1]⟩
    else
      match db (argv.getD 2 []) with
      | none => ⟨true, [1, 2, 2, 1]⟩
      | some (.list _) => ⟨true, [1, 2, 2, 1]⟩
      | some _ => ⟨false, [1, 2]⟩
  | some _ => ⟨false, [1]⟩

/-- `getTimeoutFromObjectOrReply`. -/
def timeoutOk (arg : Bytes) : Bool :=
  match getLongLongFromObject arg with
  | none => false
  | some tval => 0 ≤ tval

/-- `blockingPopGenericCommand`.  In a transaction it replies as after a timeout, else
`blockForKeys` takes the keys. -/
def blockingPopGenericCommand : Run :=
  if ¬ timeoutOk (argv.getD (argv.length - 1) []) then ⟨false, []⟩
  else
    let keys := indices 1 (argv.length - 1) 1
    Run.after
      (lookupKeys db argv
        (fun
          | none => .next
          | some (.list length) => if length ≠ 0 then .stop else .next
          | some _ => .reject)
        keys)
      (if multi then ⟨true, []⟩ else ⟨true, keys⟩)

def blpopCommand : Run := blockingPopGenericCommand argv db multi

def brpopCommand : Run := blockingPopGenericCommand argv db multi

def brpoplpushCommand : Run :=
  if ¬ timeoutOk (argv.getD 3 []) then ⟨false, []⟩
  else
    match db (argv.getD 1 []) with
    | none => if multi then ⟨true, [1]⟩ else ⟨true, [1, 1]⟩
    | some (.list _) =>
      let rest := rpoplpushCommand argv db
      ⟨rest.accepted, 1 :: rest.touched⟩
    | some _ => ⟨false, [1]⟩

def smoveCommand : Run :=
  match db (argv.getD 1 []), db (argv.getD 2 []) with
  | none, _ => ⟨true, [1, 2]⟩
  | some .set, none => ⟨true, [1, 2]⟩
  | some .set, some .set => ⟨true, [1, 2]⟩
  | _, _ => ⟨false, [1, 2]⟩

/-- `sinterGenericCommand` of the sets from `first` on. -/
def sinterGenericCommand (first : Nat) (dstkey : Option Nat) : Run :=
  let loop := lookupKeys db argv (fun o => o.elim .stop checkSet) (indices first argv.length 1)
  match loop.1 with
  | .reject => ⟨false, loop.2⟩
  | _ => ⟨true, loop.2 ++ dstkey.toList⟩

def sinterCommand : Run := sinterGenericCommand argv db 1 none

def sinterstoreCommand : Run := sinterGenericCommand argv db 2 (some 1)

/-- `sunionDiffGenericCommand` of the sets from `first` on. -/
def sunionDiffGenericCommand (first : Nat) (dstkey : Option Nat) : Run :=
  Run.after
    (lookupKeys db argv (fun o => o.elim .next checkSet) (indices first argv.length 1))
    ⟨true, dstkey.toList⟩

def sunionCommand : Run := sunionDiffGenericCommand argv db 1 none

def sunionstoreCommand : Run := sunionDiffGenericCommand argv db 2 (some 1)

def sdiffCommand : Run := sunionDiffGenericCommand argv db 1 none

def sdiffstoreCommand : Run := sunionDiffGenericCommand argv db 2 (some 1)

/-- The options of `ZUNIONSTORE` and `ZINTERSTORE`; `isDouble` is what `getDoubleFromObject`
accepts. -/
def zunionInterOptions (isDouble : Bytes → Bool) (setnum : Nat) : List Bytes → Bool
  | [] => true
  | arg :: rest =>
    if rest.length + 1 ≥ setnum + 1 ∧ strcaseEq (cstr arg) (str "weights") then
      (rest.take setnum).all isDouble && zunionInterOptions isDouble setnum (rest.drop setnum)
    else if rest.length + 1 ≥ 2 ∧ strcaseEq (cstr arg) (str "aggregate") then
      ["sum", "min", "max"].any (fun aggr => strcaseEq (cstr (rest.getD 0 [])) (str aggr)) &&
        zunionInterOptions isDouble setnum (rest.drop 1)
    else false
termination_by args => args.length
decreasing_by all_goals simp only [length_drop, length_cons]; omega

def zunionInterGenericCommand (isDouble : Bytes → Bool) : Run :=
  match getLongLongFromObject (argv.getD 2 []) with
  | none => ⟨false, []⟩
  | some setnum =>
    if setnum < 1 then ⟨false, []⟩
    else if setnum > argv.length - 3 then ⟨false, []⟩
    else
      let j := 3 + setnum.toNat
      Run.after
        (lookupKeys db argv (fun o => o.elim .next checkSource) (indices 3 j 1))
        (if zunionInterOptions isDouble setnum.toNat (argv.drop j) then ⟨true, [1]⟩
          else ⟨false, []⟩)

def zunionstoreCommand (isDouble : Bytes → Bool) : Run :=
  zunionInterGenericCommand argv db isDouble

def zinterstoreCommand (isDouble : Bytes → Bool) : Run :=
  zunionInterGenericCommand argv db isDouble

def pfaddCommand : Run :=
  match db (argv.getD 1 []) with
  | none => ⟨true, [1, 1]⟩
  | some (.string (some hll)) => ⟨hll.adds (argv.drop 2), [1, 1]⟩
  | some _ => ⟨false, [1]⟩

def pfcountCommand : Run :=
  if argv.length > 2 then
    Run.after
      (lookupKeys db argv (fun o => o.elim .next checkHll) (indices 1 argv.length 1))
      ⟨true, []⟩
  else
    match db (argv.getD 1 []) with
    | none => ⟨true, [1]⟩
    | some (.string (some hll)) => ⟨hll.cached || hll.counts, [1, 1]⟩
    | some _ => ⟨false, [1]⟩

/-- `pfmergeCommand`; the conversion of the target cannot fail after `hllMerge`. -/
def pfmergeCommand : Run :=
  Run.after
    (lookupKeys db argv (fun o => o.elim .next checkHll) (indices 1 argv.length 1))
    ⟨true, [1]⟩

def bitopCommand : Run :=
  let opname := cstr (argv.getD 1 [])
  if ¬ ["and", "or", "xor", "not"].any (fun op => strcaseEq opname (str op)) then ⟨false, []⟩
  else if strcaseEq opname (str "not") ∧ argv.length ≠ 4 then ⟨false, []⟩
  else
    Run.after
      (lookupKeys db argv (fun o => o.elim .next checkString) (indices 3 argv.length 1))
      ⟨true, [2]⟩

def watchCommand : Run :=
  if multi then ⟨false, []⟩ else ⟨true, indices 1 argv.length 1⟩

/-- `call` of the command. -/
def execute (isDouble : Bytes → Bool) : Command → Run
  | .del => delCommand argv db
  | .mget => mgetCommand argv db
  | .mset => msetCommand argv db
  | .msetnx => msetnxCommand argv db
  | .rename => renameCommand argv db
  | .rpoplpush => rpoplpushCommand argv db
  | .blpop => blpopCommand argv db multi
  | .brpop => brpopCommand argv db multi
  | .brpoplpush => brpoplpushCommand argv db multi
  | .smove => smoveCommand argv db
  | .sinter => sinterCommand argv db
  | .sinterstore => sinterstoreCommand argv db
  | .sunion => sunionCommand argv db
  | .sunionstore => sunionstoreCommand argv db
  | .sdiff => sdiffCommand argv db
  | .sdiffstore => sdiffstoreCommand argv db
  | .zunionstore => zunionstoreCommand argv db isDouble
  | .zinterstore => zinterstoreCommand argv db isDouble
  | .pfadd => pfaddCommand argv db
  | .pfcount => pfcountCommand argv db
  | .pfmerge => pfmergeCommand argv db
  | .bitop => bitopCommand argv db
  | .watch => watchCommand argv multi

end Commands

/-- Some run of the command does not fail. -/
def Accepts (isDouble : Bytes → Bool) (cmd : Command) (argv : List Bytes) : Prop :=
  ∃ db multi, (execute argv db multi isDouble cmd).accepted

/-- Some run that does not fail looks the argument up, or modifies it. -/
def Touches (isDouble : Bytes → Bool) (cmd : Command) (argv : List Bytes) (j : Nat) : Prop :=
  ∃ db multi, (execute argv db multi isDouble cmd).accepted ∧
    j ∈ (execute argv db multi isDouble cmd).touched

/-- `getKeysFromCommand` returns the arguments that the command uses as keys. -/
def KeysComplete (isDouble : Bytes → Bool) (cmd : Command) (argv : List Bytes) : Prop :=
  ∃ keys, getKeysFromCommand cmd argv = some keys ∧ ∀ j, j ∈ keys ↔ Touches isDouble cmd argv j

/-! ## The loops -/

theorem mem_indices (hstep : 0 < step) :
    j ∈ indices first bound step ↔ first ≤ j ∧ j < bound ∧ step ∣ j - first := by
  rw [indices, mem_range']
  constructor
  · rintro ⟨i, hi, rfl⟩
    have hmul : step * (i + 1) ≤ bound - first + step - 1 :=
      (Nat.mul_comm _ _).le.trans ((Nat.le_div_iff_mul_le hstep).mp hi)
    rw [Nat.mul_add_one] at hmul
    exact ⟨Nat.le_add_right _ _, by omega, by simp⟩
  · rintro ⟨hfirst, hbound, i, hi⟩
    refine ⟨i, ?_, by omega⟩
    rw [Nat.lt_iff_add_one_le, Nat.le_div_iff_mul_le hstep, Nat.mul_comm, Nat.mul_add_one]
    omega

@[simp] theorem mem_indices_one : j ∈ indices first bound 1 ↔ first ≤ j ∧ j < bound := by
  simp [mem_indices]

/-- A loop touches arguments at its own positions only. -/
theorem lookupKeys_subset {db : Keyspace} {argv : List Bytes}
    (h : j ∈ (lookupKeys db argv turn js).2) : j ∈ js := by
  induction js with
  | nil => simp [lookupKeys] at h
  | cons i js ih =>
    rw [lookupKeys] at h
    split at h
    · exact (mem_cons.mp h).elim (fun h => h ▸ mem_cons_self)
        (fun h => mem_cons_of_mem _ (ih h))
    · exact mem_singleton.mp h ▸ mem_cons_self
    · exact mem_singleton.mp h ▸ mem_cons_self

theorem lookupKeys_all {db : Keyspace} {argv : List Bytes}
    (h : ∀ j ∈ js, turn (db (argv.getD j [])) = .next) :
    lookupKeys db argv turn js = (.next, js) := by
  induction js with
  | nil => rfl
  | cons i js ih =>
    rw [lookupKeys, h i mem_cons_self]
    simp only
    rw [ih fun j hj => h j (mem_cons_of_mem _ hj)]

/-- A loop in which no key leads to a stop. -/
theorem lookupKeys_ne_stop {db : Keyspace} {argv : List Bytes} (h : ∀ o, turn o ≠ .stop) :
    (lookupKeys db argv turn js).1 ≠ .stop := by
  induction js with
  | nil => simp [lookupKeys]
  | cons i js ih =>
    rw [lookupKeys]
    split
    · exact ih
    · rename_i hstop
      exact absurd hstop (h _)
    · simp

theorem Run.after_subset {loop : Turn × List Nat} (h : j ∈ (Run.after loop rest).touched) :
    j ∈ loop.2 ∨ j ∈ rest.touched := by
  rw [Run.after] at h
  split at h
  · exact mem_append.mp h
  · exact .inl h
  · exact .inl h

/-- A loop before `rest` accepts only what `rest` accepts, unless the loop ends early. -/
theorem Run.after_lookupKeys {db : Keyspace} {argv : List Bytes}
    (h : j ∈ (Run.after (lookupKeys db argv turn js) rest).touched) : j ∈ js ∨ j ∈ rest.touched :=
  (Run.after_subset h).imp_left lookupKeys_subset

theorem Run.after_all {db : Keyspace} {argv : List Bytes}
    (h : ∀ j ∈ js, turn (db (argv.getD j [])) = .next) :
    Run.after (lookupKeys db argv turn js) rest = ⟨rest.accepted, js ++ rest.touched⟩ := by
  rw [lookupKeys_all h, Run.after]

/-! ## What each command touches -/

section Touches

variable {isDouble : Bytes → Bool} {cmd : Command} {argv : List Bytes}

/-- The keys of a command are those that every run stays within, and that some run reaches. -/
theorem touches_iff {keys : List Nat}
    (hsub : ∀ db multi j, (execute argv db multi isDouble cmd).accepted →
      j ∈ (execute argv db multi isDouble cmd).touched → j ∈ keys)
    (hfull : ∃ db multi, (execute argv db multi isDouble cmd).accepted ∧
      ∀ j ∈ keys, j ∈ (execute argv db multi isDouble cmd).touched) (j : Nat) :
    Touches isDouble cmd argv j ↔ j ∈ keys := by
  obtain ⟨db, multi, hacc, hall⟩ := hfull
  exact ⟨fun ⟨db, multi, hacc, hj⟩ => hsub db multi j hacc hj,
    fun hj => ⟨db, multi, hacc, hall j hj⟩⟩

/-- A command that is one loop and then touches `tail`. -/
theorem touches_loop (turn : Option Obj → Turn) {tail : List Nat}
    (hexec : ∀ db multi, execute argv db multi isDouble cmd =
      Run.after (lookupKeys db argv turn js) ⟨true, tail⟩) (hnone : turn none = .next) (j : Nat) :
    Touches isDouble cmd argv j ↔ j ∈ js ++ tail := by
  refine touches_iff ?_ ?_ j
  · intro db multi j _ hj
    rw [hexec] at hj
    exact mem_append.mpr (Run.after_lookupKeys hj)
  · refine ⟨fun _ => none, false, ?_⟩
    rw [hexec, Run.after_all fun _ _ => hnone]
    exact ⟨rfl, fun _ h => h⟩

theorem touches_mset {nx : Bool} (h : Accepts isDouble cmd argv)
    (hexec : ∀ db multi, execute argv db multi isDouble cmd = msetGenericCommand argv db nx)
    (j : Nat) : Touches isDouble cmd argv j ↔ j ∈ indices 1 argv.length 2 := by
  have hodd : ¬ argv.length % 2 = 0 := by
    obtain ⟨db, multi, hacc⟩ := h
    rw [hexec, msetGenericCommand] at hacc
    intro heven
    simp [heven] at hacc
  refine touches_iff ?_ ?_ j
  · intro db multi j _ hj
    rw [hexec, msetGenericCommand, if_neg hodd] at hj
    cases nx
    · exact hj
    · simp only [if_true] at hj
      split at hj
      · exact hj
      · exact (mem_append.mp hj).elim id id
  · refine ⟨fun _ => none, false, ?_⟩
    rw [hexec, msetGenericCommand, if_neg hodd]
    simp only [Option.isSome_none, filter_false, length_nil, ne_eq, not_true,
      if_false, true_and]
    exact fun _ h => mem_append_right _ h

theorem touches_rename (h : Accepts isDouble .rename argv) (j : Nat) :
    Touches isDouble .rename argv j ↔ j ∈ [1, 2] := by
  have hne : ¬ argv.getD 1 [] = argv.getD 2 [] := by
    obtain ⟨db, multi, hacc⟩ := h
    intro heq
    rw [execute, renameCommand, renameGenericCommand, if_pos heq] at hacc
    cases hacc
  refine touches_iff ?_ ?_ j
  · intro db multi j _ hj
    rw [execute, renameCommand, renameGenericCommand, if_neg hne] at hj
    split at hj
    · exact mem_singleton.mp hj ▸ mem_cons_self
    · simp at hj
      simp
      omega
  · refine ⟨fun _ => some .set, false, ?_⟩
    rw [execute, renameCommand, renameGenericCommand, if_neg hne]
    simp

theorem rpoplpush_subset {db : Keyspace} (hj : j ∈ (rpoplpushCommand argv db).touched) :
    j ∈ [1, 2] := by
  rw [rpoplpushCommand] at hj
  split at hj <;> try split at hj
  all_goals try split at hj
  all_goals grind

theorem rpoplpush_lists : rpoplpushCommand argv (fun _ => some (.list 1)) =
    ⟨true, [1, 2, 2, 1]⟩ := by
  simp [rpoplpushCommand]

theorem touches_rpoplpush (j : Nat) : Touches isDouble .rpoplpush argv j ↔ j ∈ [1, 2] := by
  refine touches_iff ?_ ?_ j
  · intro db multi j _ hj
    exact rpoplpush_subset hj
  · refine ⟨fun _ => some (.list 1), false, ?_⟩
    rw [execute, rpoplpush_lists]
    simp

theorem touches_brpoplpush (h : Accepts isDouble .brpoplpush argv) (j : Nat) :
    Touches isDouble .brpoplpush argv j ↔ j ∈ [1, 2] := by
  have htimeout : timeoutOk (argv.getD 3 []) := by
    obtain ⟨db, multi, hacc⟩ := h
    by_contra hbad
    rw [execute, brpoplpushCommand, if_pos hbad] at hacc
    cases hacc
  refine touches_iff ?_ ?_ j
  · intro db multi j _ hj
    rw [execute, brpoplpushCommand, if_neg (not_not_intro htimeout)] at hj
    split at hj
    · cases multi <;> simp at hj <;> simp [hj]
    · exact (mem_cons.mp hj).elim (fun h => h ▸ mem_cons_self) rpoplpush_subset
    · exact mem_singleton.mp hj ▸ mem_cons_self
  · refine ⟨fun _ => some (.list 1), false, ?_⟩
    rw [execute, brpoplpushCommand, if_neg (not_not_intro htimeout)]
    simp [rpoplpush_lists]

theorem touches_blockingPop (h : Accepts isDouble cmd argv)
    (hexec : ∀ db multi, execute argv db multi isDouble cmd =
      blockingPopGenericCommand argv db multi) (j : Nat) :
    Touches isDouble cmd argv j ↔ j ∈ indices 1 (argv.length - 1) 1 := by
  have htimeout : timeoutOk (argv.getD (argv.length - 1) []) := by
    obtain ⟨db, multi, hacc⟩ := h
    by_contra hbad
    rw [hexec, blockingPopGenericCommand, if_pos hbad] at hacc
    cases hacc
  refine touches_iff ?_ ?_ j
  · intro db multi j _ hj
    rw [hexec, blockingPopGenericCommand, if_neg (not_not_intro htimeout)] at hj
    refine (Run.after_lookupKeys hj).elim id fun hj => ?_
    cases multi
    · exact hj
    · cases hj
  · refine ⟨fun _ => none, true, ?_⟩
    rw [hexec, blockingPopGenericCommand, if_neg (not_not_intro htimeout)]
    dsimp only
    rw [Run.after_all fun _ _ => rfl]
    exact ⟨rfl, fun _ hj => mem_append_left _ hj⟩

theorem touches_smove (j : Nat) : Touches isDouble .smove argv j ↔ j ∈ [1, 2] := by
  refine touches_iff ?_ ?_ j
  · intro db multi j _ hj
    rw [execute, smoveCommand] at hj
    split at hj <;> simpa using hj
  · refine ⟨fun _ => none, false, ?_⟩
    simp [execute, smoveCommand]

theorem touches_sinter {dstkey : Option Nat}
    (hexec : ∀ db multi, execute argv db multi isDouble cmd =
      sinterGenericCommand argv db first dstkey) (j : Nat) :
    Touches isDouble cmd argv j ↔ j ∈ indices first argv.length 1 ++ dstkey.toList := by
  refine touches_iff ?_ ?_ j
  · intro db multi j _ hj
    rw [hexec, sinterGenericCommand] at hj
    rw [mem_append]
    split at hj
    · exact .inl (lookupKeys_subset hj)
    · exact (mem_append.mp hj).imp_left lookupKeys_subset
  · refine ⟨fun _ => some .set, false, ?_⟩
    rw [hexec, sinterGenericCommand, lookupKeys_all fun _ _ => rfl]
    exact ⟨rfl, fun _ h => h⟩

theorem touches_zunionInter (h : Accepts isDouble cmd argv)
    (hexec : ∀ db multi, execute argv db multi isDouble cmd =
      zunionInterGenericCommand argv db isDouble) :
    ∃ setnum : Int, getLongLongFromObject (argv.getD 2 []) = some setnum ∧ 1 ≤ setnum ∧
      setnum ≤ argv.length - 3 ∧
      ∀ j, Touches isDouble cmd argv j ↔ j ∈ indices 3 (3 + setnum.toNat) 1 ++ [1] := by
  obtain ⟨db, multi, hacc⟩ := h
  rw [hexec, zunionInterGenericCommand] at hacc
  split at hacc
  · cases hacc
  · rename_i setnum hsetnum
    by_cases hpos : setnum < 1
    · rw [if_pos hpos] at hacc
      cases hacc
    by_cases hmany : setnum > argv.length - 3
    · rw [if_neg hpos, if_pos hmany] at hacc
      cases hacc
    rw [if_neg hpos, if_neg hmany] at hacc
    dsimp only at hacc
    by_cases hoptions : zunionInterOptions isDouble setnum.toNat (argv.drop (3 + setnum.toNat))
    · refine ⟨setnum, hsetnum, by omega, by omega,
        touches_loop (fun o => o.elim .next checkSource) ?_ rfl⟩
      intro db multi
      rw [hexec, zunionInterGenericCommand, hsetnum]
      simp only [if_neg hpos, if_neg hmany, if_pos hoptions]
    · rw [if_neg hoptions, Run.after] at hacc
      split at hacc
      · cases hacc
      · rename_i hstop
        exact absurd hstop (lookupKeys_ne_stop fun o => by
          rcases o with _ | _ | _ | _ | _ | _ <;> simp [checkSource])
      · cases hacc

theorem touches_pfadd (j : Nat) : Touches isDouble .pfadd argv j ↔ j ∈ [1] := by
  refine touches_iff ?_ ?_ j
  · intro db multi j _ hj
    rw [execute, pfaddCommand] at hj
    split at hj <;> simpa using hj
  · refine ⟨fun _ => none, false, ?_⟩
    simp [execute, pfaddCommand]

theorem touches_pfcount (harity : 2 ≤ argv.length) (j : Nat) :
    Touches isDouble .pfcount argv j ↔ j ∈ indices 1 argv.length 1 := by
  by_cases hmany : argv.length > 2
  · have hexec : ∀ db multi, execute argv db multi isDouble .pfcount =
        Run.after (lookupKeys db argv (fun o => o.elim .next checkHll)
          (indices 1 argv.length 1)) ⟨true, []⟩ := by
      intro db multi
      rw [execute, pfcountCommand, if_pos hmany]
    rw [touches_loop _ hexec rfl, append_nil]
  · have hlength : argv.length = 2 := by omega
    rw [hlength]
    refine touches_iff ?_ ?_ j
    · intro db multi j _ hj
      rw [execute, pfcountCommand, if_neg hmany] at hj
      split at hj <;> simp at hj <;> simp <;> omega
    · refine ⟨fun _ => none, false, ?_⟩
      rw [execute, pfcountCommand, if_neg hmany]
      simp
      omega

theorem touches_bitop (h : Accepts isDouble .bitop argv) (j : Nat) :
    Touches isDouble .bitop argv j ↔ j ∈ indices 3 argv.length 1 ++ [2] := by
  obtain ⟨db, multi, hacc⟩ := h
  rw [execute, bitopCommand] at hacc
  split at hacc
  · cases hacc
  · rename_i hop
    split at hacc
    · cases hacc
    · rename_i hnot
      refine touches_loop (fun o => o.elim .next checkString) ?_ rfl j
      intro db multi
      rw [execute, bitopCommand]
      simp only [if_neg hop, if_neg hnot]

theorem touches_watch (j : Nat) : Touches isDouble .watch argv j ↔ j ∈ indices 1 argv.length 1 := by
  refine touches_iff ?_ ?_ j
  · intro db multi j _ hj
    rw [execute, watchCommand] at hj
    split at hj
    · cases hj
    · exact hj
  · exact ⟨fun _ => none, false, rfl, fun _ h => h⟩

end Touches

/-! ## The number of keys -/

/-- `atoi` of digits after a sign that `strtoll` reads, if any. -/
theorem atoi_digits {w digits rest : Bytes} {v : Int}
    (hsign : readSign (w.dropWhile isspace) = (false, digits ++ rest))
    (hdigits : ∀ b ∈ digits, 48 ≤ b ∧ b ≤ 57)
    (hrest : ∀ b ∈ rest.head?, ¬ (48 ≤ b ∧ b ≤ 57))
    (hint : v < 2 ^ 31)
    (hv : v = (digits.foldl (fun v b => v * 10 + (b.toNat - 48)) 0 : Nat)) : atoi w = v := by
  rw [atoi, hsign]
  simp only [digitsValue_append hdigits hrest, ← hv, Bool.false_eq_true, if_false]
  rw [min_eq_right (by omega), Int.bmod_eq_of_le (by omega) (by omega)]

/-- An sds is its C string, and then nothing or a null byte, which is no digit. -/
theorem exists_cstr_append (s : Bytes) :
    ∃ rest, (∀ b ∈ rest.head?, ¬ (48 ≤ b ∧ b ≤ 57)) ∧ s = s.takeWhile (· ≠ 0) ++ rest := by
  refine ⟨s.dropWhile (· ≠ 0), ?_, takeWhile_append_dropWhile.symm⟩
  intro b hb
  have hhead := head?_dropWhile_not (· ≠ (0 : UInt8)) s
  rw [Option.mem_def.mp hb] at hhead
  have hzero : b = 0 := by simpa using hhead
  simp [hzero]

/-- What `getLongLongFromObject` reads as a positive `int`, `atoi` reads too. -/
theorem atoi_of_getLongLong {s : Bytes} {v : Int} (h : getLongLongFromObject s = some v)
    (hpos : 1 ≤ v) (hint : v < 2 ^ 31) : atoi s = v := by
  obtain ⟨rest, hrest, hs⟩ := exists_cstr_append s
  rw [getLongLongFromObject] at h
  generalize s.takeWhile (· ≠ 0) = t at h hs
  subst hs
  rcases t with _ | ⟨b, t⟩
  · simp at h
    omega
  by_cases hminus : b = 45
  · subst hminus
    simp at h
    omega
  by_cases hplus : b = 43
  · subst hplus
    simp at h
    obtain ⟨⟨-, hdigits⟩, -, hv⟩ := h
    exact atoi_digits rfl hdigits hrest hint hv.symm
  · simp [hminus, hplus] at h
    obtain ⟨hdigits, -, hv⟩ := h
    have hall : ∀ x ∈ b :: t, 48 ≤ x ∧ x ≤ 57 := by simpa [and_assoc] using hdigits
    have hsign : readSign ((b :: t ++ rest).dropWhile isspace) = (false, b :: t ++ rest) :=
      readSign_digit (hall b mem_cons_self)
    exact atoi_digits hsign hall hrest hint (by simpa using hv.symm)

/-! ## The table and the commands -/

section Complete

variable {isDouble : Bytes → Bool} {cmd : Command} {argv : List Bytes}

theorem length_of_arityOk {last : Int} {proc : Option (List Bytes → Option (List Nat))}
    (h : arityOk cmd argv) (table : redisCommandTable cmd = ⟨arity, proc, first, last, step⟩) :
    (0 < arity → argv.length = arity) ∧ -arity ≤ argv.length := by
  simp [arityOk, table] at h
  omega

theorem getKeysFromCommand_table {last : Int}
    (table : redisCommandTable cmd = ⟨arity, none, first, last, step⟩) (hfirst : first ≠ 0)
    (hstep : 0 < step) (hlast : (if last < 0 then argv.length + last else last) + 1 = bound)
    (hbound : bound ≤ argv.length) :
    getKeysFromCommand cmd argv = some (indices first bound step) := by
  simp only [getKeysFromCommand, table]
  rw [getKeysUsingCommandTable, if_neg hfirst]
  dsimp only
  rw [hlast, Int.toNat_natCast, if_pos]
  rw [all_eq_true]
  intro j hj
  rw [mem_indices hstep] at hj
  exact decide_eq_true (by omega)

/-- All the arguments from the first key on are keys. -/
theorem getKeysFromCommand_toEnd (table : redisCommandTable cmd = ⟨arity, none, first, -1, step⟩)
    (hfirst : first ≠ 0) (hstep : 0 < step) :
    getKeysFromCommand cmd argv = some (indices first argv.length step) := by
  refine getKeysFromCommand_table table hfirst hstep ?_ le_rfl
  rw [if_pos (by decide)]
  omega

theorem getKeysFromCommand_two (harity : arityOk cmd argv)
    (table : redisCommandTable cmd = ⟨arity, none, 1, 2, 1⟩) (hpos : 3 ≤ arity) :
    getKeysFromCommand cmd argv = some [1, 2] := by
  have hlength := (length_of_arityOk harity table).1 (by omega)
  have hbound : 3 ≤ argv.length := by omega
  exact getKeysFromCommand_table table (by decide) (by decide) rfl hbound

theorem getKeysFromCommand_one (harity : arityOk cmd argv)
    (table : redisCommandTable cmd = ⟨arity, none, 1, 1, 1⟩) (hneg : arity ≤ -2) :
    getKeysFromCommand cmd argv = some [1] := by
  have hlength := (length_of_arityOk harity table).2
  have hbound : 2 ≤ argv.length := by omega
  exact getKeysFromCommand_table table (by decide) (by decide) rfl hbound

theorem KeysComplete.of {keys used : List Nat}
    (hkeys : getKeysFromCommand cmd argv = some keys)
    (hused : ∀ j, Touches isDouble cmd argv j ↔ j ∈ used)
    (h : ∀ j, j ∈ keys ↔ j ∈ used) :
    KeysComplete isDouble cmd argv :=
  ⟨keys, hkeys, fun j => (h j).trans (hused j).symm⟩

/-- The table names the first key only, and the command uses all the arguments before
`bound`. -/
theorem keysComplete_iff_of_first (hbound : 1 < bound)
    (hkeys : getKeysFromCommand cmd argv = some [1])
    (hused : ∀ j, Touches isDouble cmd argv j ↔ j ∈ indices 1 bound 1) :
    KeysComplete isDouble cmd argv ↔ bound = 2 := by
  constructor
  · rintro ⟨keys, hkeys', h⟩
    rw [hkeys, Option.some_inj] at hkeys'
    subst hkeys'
    by_contra hne
    have htwo : 2 ∈ [1] := by
      rw [h, hused, mem_indices_one]
      omega
    simp at htwo
  · rintro rfl
    exact .of hkeys hused fun _ => Iff.rfl

/-- `ZUNIONSTORE` and `ZINTERSTORE`. -/
theorem keysComplete_zunionInter (hargc : argv.length < 2 ^ 31) (h : Accepts isDouble cmd argv)
    (hexec : ∀ db multi, execute argv db multi isDouble cmd =
      zunionInterGenericCommand argv db isDouble)
    (hproc : (redisCommandTable cmd).getkeysProc = some zunionInterGetKeys) :
    KeysComplete isDouble cmd argv := by
  obtain ⟨setnum, hsetnum, hpos, hmany, hused⟩ := touches_zunionInter h hexec
  have hatoi := atoi_of_getLongLong hsetnum hpos (by omega)
  refine .of ?_ hused fun _ => Iff.rfl
  simp only [getKeysFromCommand, hproc, zunionInterGetKeys, hatoi]
  rw [if_neg (by omega), if_neg (by omega), range_eq_range', map_add_range']
  simp [indices]

theorem keysComplete_of_ne (harity : arityOk cmd argv) (hargc : argv.length < 2 ^ 31)
    (h : Accepts isDouble cmd argv) (hpfcount : cmd ≠ .pfcount) (hbrpop : cmd ≠ .brpop) :
    KeysComplete isDouble cmd argv := by
  have toEnd {arity : Int} {first step : Nat} {used : List Nat}
      (table : redisCommandTable cmd = ⟨arity, none, first, -1, step⟩)
      (hfirst : first ≠ 0) (hstep : 0 < step)
      (hused : ∀ j, Touches isDouble cmd argv j ↔ j ∈ used)
      (hmem : ∀ j, j ∈ indices first argv.length step ↔ j ∈ used) :
      KeysComplete isDouble cmd argv :=
    .of (getKeysFromCommand_toEnd table hfirst hstep) hused hmem
  have two {arity : Int} (table : redisCommandTable cmd = ⟨arity, none, 1, 2, 1⟩)
      (hpos : 3 ≤ arity) (hused : ∀ j, Touches isDouble cmd argv j ↔ j ∈ [1, 2]) :
      KeysComplete isDouble cmd argv :=
    .of (getKeysFromCommand_two harity table hpos) hused fun _ => Iff.rfl
  cases cmd with
  | del => exact toEnd rfl (by decide) (by decide) (touches_loop _ (fun _ _ => rfl) rfl) (by simp)
  | mget => exact toEnd rfl (by decide) (by decide) (touches_loop _ (fun _ _ => rfl) rfl) (by simp)
  | mset => exact toEnd rfl (by decide) (by decide) (touches_mset h fun _ _ => rfl) (by simp)
  | msetnx => exact toEnd rfl (by decide) (by decide) (touches_mset h fun _ _ => rfl) (by simp)
  | rename => exact two rfl (by decide) (touches_rename h)
  | rpoplpush => exact two rfl (by decide) touches_rpoplpush
  | blpop =>
    have hlength := (length_of_arityOk harity rfl).2
    refine .of (getKeysFromCommand_table rfl (by decide) (by decide) ?_ (Nat.sub_le _ 1))
      (touches_blockingPop h fun _ _ => rfl) fun _ => Iff.rfl
    rw [if_pos (by decide)]
    omega
  | brpop => exact absurd rfl hbrpop
  | brpoplpush => exact two rfl (by decide) (touches_brpoplpush h)
  | smove => exact two rfl (by decide) touches_smove
  | sinter => exact toEnd rfl (by decide) (by decide) (touches_sinter fun _ _ => rfl) (by simp)
  | sinterstore =>
    refine toEnd rfl (by decide) (by decide) (touches_sinter fun _ _ => rfl) fun j => ?_
    have hlength := (length_of_arityOk harity rfl).2
    simp
    omega
  | sunion =>
    exact toEnd rfl (by decide) (by decide) (touches_loop _ (fun _ _ => rfl) rfl) (by simp)
  | sunionstore =>
    refine toEnd rfl (by decide) (by decide) (touches_loop _ (fun _ _ => rfl) rfl) fun j => ?_
    have hlength := (length_of_arityOk harity rfl).2
    simp
    omega
  | sdiff => exact toEnd rfl (by decide) (by decide) (touches_loop _ (fun _ _ => rfl) rfl) (by simp)
  | sdiffstore =>
    refine toEnd rfl (by decide) (by decide) (touches_loop _ (fun _ _ => rfl) rfl) fun j => ?_
    have hlength := (length_of_arityOk harity rfl).2
    simp
    omega
  | zunionstore => exact keysComplete_zunionInter hargc h (fun _ _ => rfl) rfl
  | zinterstore => exact keysComplete_zunionInter hargc h (fun _ _ => rfl) rfl
  | pfadd =>
    exact .of (getKeysFromCommand_one harity rfl (by decide)) touches_pfadd fun _ => Iff.rfl
  | pfcount => exact absurd rfl hpfcount
  | pfmerge =>
    refine toEnd rfl (by decide) (by decide) (touches_loop _ (fun _ _ => rfl) rfl) fun j => ?_
    have hlength := (length_of_arityOk harity rfl).2
    simp
    omega
  | bitop =>
    refine toEnd rfl (by decide) (by decide) (touches_bitop h) fun j => ?_
    have hlength := (length_of_arityOk harity rfl).2
    simp
    omega
  | watch => exact toEnd rfl (by decide) (by decide) touches_watch fun _ => Iff.rfl

/-- `getKeysFromCommand` returns the keys of a command that passes the check of its arity, but
for `PFCOUNT` and `BRPOP` with more than one key; `argc` is an `int`. -/
theorem keysComplete_iff (harity : arityOk cmd argv) (hargc : argv.length < 2 ^ 31)
    (h : Accepts isDouble cmd argv) : KeysComplete isDouble cmd argv ↔
      (cmd = .pfcount → argv.length = 2) ∧ (cmd = .brpop → argv.length = 3) := by
  by_cases hpfcount : cmd = .pfcount
  · subst hpfcount
    have hlength := (length_of_arityOk harity rfl).2
    rw [keysComplete_iff_of_first (by omega) (getKeysFromCommand_one harity rfl (by decide))
      (touches_pfcount (by omega))]
    simp
  by_cases hbrpop : cmd = .brpop
  · subst hbrpop
    have hlength := (length_of_arityOk harity rfl).2
    rw [keysComplete_iff_of_first (by omega) (getKeysFromCommand_one harity rfl (by decide))
      (touches_blockingPop h fun _ _ => rfl)]
    simp
  · simp [keysComplete_of_ne harity hargc h hpfcount hbrpop, hpfcount, hbrpop]

end Complete

theorem keysComplete_blpop : KeysComplete (fun _ => false) .blpop
    [str "blpop", str "a", str "b", str "0"] :=
  (keysComplete_iff (by decide) (by decide) ⟨fun _ => none, false, by decide⟩).mpr
    ⟨by decide, by decide⟩

/-- `PFCOUNT a b` and `BRPOP a b 0` look up `b`, which is not in the table. -/
theorem keys_incomplete :
    (arityOk .pfcount [str "pfcount", str "a", str "b"] ∧
      Accepts (fun _ => false) .pfcount [str "pfcount", str "a", str "b"] ∧
      ¬ KeysComplete (fun _ => false) .pfcount [str "pfcount", str "a", str "b"]) ∧
    (arityOk .brpop [str "brpop", str "a", str "b", str "0"] ∧
      Accepts (fun _ => false) .brpop [str "brpop", str "a", str "b", str "0"] ∧
      ¬ KeysComplete (fun _ => false) .brpop [str "brpop", str "a", str "b", str "0"]) := by
  have hbrpop : Accepts (fun _ => false) .brpop [str "brpop", str "a", str "b", str "0"] :=
    ⟨fun _ => none, false, by decide⟩
  refine ⟨⟨by decide, ⟨fun _ => none, false, by decide⟩, ?_⟩, by decide, hbrpop, ?_⟩
  · rw [keysComplete_iff_of_first (by decide) rfl (touches_pfcount (by decide))]
    decide
  · rw [keysComplete_iff_of_first (by decide) rfl (touches_blockingPop hbrpop fun _ _ => rfl)]
    decide

end Redis.Commands
