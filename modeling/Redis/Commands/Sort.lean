import Redis.Commands.Table
import Redis.Expire

/-!
# Redis.Commands.Sort

The options of `SORT` are read twice: by `sortCommand`, and before it by `sortGetKeys`, which
looks only for the key to check.  The two agree as long as no destination of a `STORE` is itself
the name of an option that `sortGetKeys` acts on.
-/

namespace Redis.Commands

open List

open Redis.Config (str cstr)
open Redis.Bus (strcaseEq strcaseEq_congr)
open Redis.Strings (addReplyError getLongFromObjectOrReply)

/-! ## The parser -/

/-- What `sortCommand` reads from its options; the destination is the position of its argument,
and the operations are the patterns behind `GET`. -/
structure SortOptions where
  desc : Bool := false
  alpha : Bool := false
  limitStart : Int64 := 0
  limitCount : Int64 := -1
  storekey : Option Nat := none
  sortby : Option Bytes := none
  dontsort : Bool := false
  operations : List Bytes := []

/-- The loop of `sortCommand` over the options from position `j` on. -/
@[grind =]
def sortOptions (clusterEnabled : Bool) (j : Nat) (o : SortOptions) :
    List Bytes → Except Keyspace.Reply SortOptions
  | [] => .ok o
  | arg :: args =>
    if strcaseEq (cstr arg) (str "asc") then
      sortOptions clusterEnabled (j + 1) { o with desc := false } args
    else if strcaseEq (cstr arg) (str "desc") then
      sortOptions clusterEnabled (j + 1) { o with desc := true } args
    else if strcaseEq (cstr arg) (str "alpha") then
      sortOptions clusterEnabled (j + 1) { o with alpha := true } args
    else if strcaseEq (cstr arg) (str "limit") then
      match args with
      | start :: count :: args =>
        match getLongFromObjectOrReply (some (.raw start)) none,
            getLongFromObjectOrReply (some (.raw count)) none with
        | .ok start, .ok count =>
          sortOptions clusterEnabled (j + 3)
            { o with limitStart := start, limitCount := count } args
        | .error e, _ => .error e
        | _, .error e => .error e
      | _ => .error Expire.syntaxerr
    else if strcaseEq (cstr arg) (str "store") then
      match args with
      | _ :: args => sortOptions clusterEnabled (j + 2) { o with storekey := some (j + 1) } args
      | [] => .error Expire.syntaxerr
    else if strcaseEq (cstr arg) (str "by") then
      match args with
      | pattern :: args =>
        -- a constant pattern needs no lookup, so it is allowed in a cluster as well
        if 42 ∉ cstr pattern then
          sortOptions clusterEnabled (j + 2)
            { o with sortby := some pattern, dontsort := true } args
        else if clusterEnabled then
          .error (addReplyError "BY option of SORT denied in Cluster mode.")
        else sortOptions clusterEnabled (j + 2) { o with sortby := some pattern } args
      | [] => .error Expire.syntaxerr
    else if strcaseEq (cstr arg) (str "get") then
      match args with
      | pattern :: args =>
        if clusterEnabled then
          .error (addReplyError "GET option of SORT denied in Cluster mode.")
        else
          sortOptions clusterEnabled (j + 2)
            { o with operations := o.operations ++ [pattern] } args
      | [] => .error Expire.syntaxerr
    else .error Expire.syntaxerr

def parseSort (clusterEnabled : Bool) (argv : List Bytes) :
    Except Keyspace.Reply SortOptions :=
  sortOptions clusterEnabled 2 {} (argv.drop 2)

/-! ## The destinations -/

/-- The number of arguments that `sortCommand` takes behind an option. -/
def optionArgs (arg : Bytes) : Nat :=
  if strcaseEq (cstr arg) (str "limit") then 2
  else if strcaseEq (cstr arg) (str "store") ∨ strcaseEq (cstr arg) (str "by") ∨
    strcaseEq (cstr arg) (str "get") then 1
  else 0

/-- The destinations of the `STORE` options, with what is behind each one; the first `skip`
arguments belong to the option before them. -/
@[grind =]
def destinations : (skip : Nat) → List Bytes → List (Bytes × List Bytes)
  | _, [] => []
  | skip + 1, _ :: args => destinations skip args
  | 0, arg :: args =>
    let behind := destinations (optionArgs arg) args
    match strcaseEq (cstr arg) (str "store"), args with
    | true, dst :: args => (dst, args) :: behind
    | _, _ => behind

/-- The names that `sortGetKeys` acts on. -/
def Scanned (arg : Bytes) : Prop :=
  ∃ name ∈ [str "limit", str "get", str "by", str "store"], strcaseEq (cstr arg) name

instance (arg : Bytes) : Decidable (Scanned arg) := by
  unfold Scanned
  infer_instance

/-- A destination that is one of these names is the last argument. -/
def NoScannedDestination (argv : List Bytes) : Prop :=
  ∀ d ∈ destinations 0 (argv.drop 2), Scanned d.1 → d.2 = []

instance (argv : List Bytes) : Decidable (NoScannedDestination argv) := by
  unfold NoScannedDestination
  infer_instance

section Steps

variable {i : Nat} {arg : Bytes} {args : List Bytes} {store : Option Nat}

theorem spells_ne {a b : Bytes} (h : strcaseEq (cstr arg) a = true)
    (hne : strcaseEq a b = false) : strcaseEq (cstr arg) b = false := by
  rw [strcaseEq_congr h, hne]

/-- The options without arguments are not in the list of `sortGetKeys`. -/
theorem not_scanned {name : Bytes} (hname : name ∈ [str "asc", str "desc", str "alpha"])
    (h : strcaseEq (cstr arg) name = true) : ¬ Scanned arg := by
  rintro ⟨other, hother, hspells⟩
  have hother_ne : ∀ a ∈ [str "asc", str "desc", str "alpha"],
      ∀ b ∈ [str "limit", str "get", str "by", str "store"], strcaseEq a b = false := by
    decide
  rw [spells_ne h (hother_ne name hname other hother)] at hspells
  cases hspells

/-! ### The scan -/

/-- The scan takes what it does not know for an option without arguments. -/
theorem scan_plain (h : ¬ Scanned arg) :
    sortGetKeysLoop i 0 (arg :: args) store = sortGetKeysLoop (i + 1) 0 args store := by
  simp only [Scanned, mem_cons, not_mem_nil, or_false, exists_eq_or_imp, exists_eq_left,
    not_or, Bool.not_eq_true] at h
  obtain ⟨hlimit, hget, hby, hstore⟩ := h
  simp [sortGetKeysLoop, skiplist, hlimit, hget, hby, hstore]

theorem scan_limit (h : strcaseEq (cstr arg) (str "limit") = true) :
    sortGetKeysLoop i 0 (arg :: args) store = sortGetKeysLoop (i + 1) 2 args store := by
  simp +decide [sortGetKeysLoop, skiplist, strcaseEq_congr h]

theorem scan_by (h : strcaseEq (cstr arg) (str "by") = true) :
    sortGetKeysLoop i 0 (arg :: args) store = sortGetKeysLoop (i + 1) 1 args store := by
  simp +decide [sortGetKeysLoop, skiplist, strcaseEq_congr h]

theorem scan_get (h : strcaseEq (cstr arg) (str "get") = true) :
    sortGetKeysLoop i 0 (arg :: args) store = sortGetKeysLoop (i + 1) 1 args store := by
  simp +decide [sortGetKeysLoop, skiplist, strcaseEq_congr h]

theorem scan_store (h : strcaseEq (cstr arg) (str "store") = true) :
    sortGetKeysLoop i 0 (arg :: args) store =
      sortGetKeysLoop (i + 1) 0 args (if args = [] then store else some (i + 1)) := by
  by_cases hargs : args = []
  · simp +decide [sortGetKeysLoop, skiplist, strcaseEq_congr h, hargs]
  · simp +decide [sortGetKeysLoop, skiplist, strcaseEq_congr h, hargs]

/-- A name at the end of the arguments has no effect on the scan. -/
theorem scan_last (h : Scanned arg → args = []) :
    sortGetKeysLoop i 0 (arg :: args) store = sortGetKeysLoop (i + 1) 0 args store := by
  by_cases hscan : Scanned arg
  · obtain rfl := h hscan
    obtain ⟨name, hmem, hname⟩ := hscan
    simp only [mem_cons, not_mem_nil, or_false] at hmem
    obtain rfl | rfl | rfl | rfl := hmem
    · rw [scan_limit hname, sortGetKeysLoop, sortGetKeysLoop]
    · rw [scan_get hname, sortGetKeysLoop, sortGetKeysLoop]
    · rw [scan_by hname, sortGetKeysLoop, sortGetKeysLoop]
    · rw [scan_store hname, if_pos rfl]
  · exact scan_plain hscan

/-! ### The destinations -/

theorem destinations_plain (h : ¬ Scanned arg) :
    destinations 0 (arg :: args) = destinations 0 args := by
  simp only [Scanned, mem_cons, not_mem_nil, or_false, exists_eq_or_imp, exists_eq_left,
    not_or, Bool.not_eq_true] at h
  obtain ⟨hlimit, hget, hby, hstore⟩ := h
  simp [destinations, optionArgs, hlimit, hget, hby, hstore]

theorem destinations_limit {start count : Bytes}
    (h : strcaseEq (cstr arg) (str "limit") = true) :
    destinations 0 (arg :: start :: count :: args) = destinations 0 args := by
  simp +decide [destinations, optionArgs, strcaseEq_congr h]

theorem destinations_store {dst : Bytes} (h : strcaseEq (cstr arg) (str "store") = true) :
    destinations 0 (arg :: dst :: args) = (dst, args) :: destinations 0 args := by
  have hlimit : strcaseEq (cstr arg) (str "limit") = false := spells_ne h (by decide)
  simp [destinations, optionArgs, h, hlimit]

theorem destinations_by {pattern : Bytes} (h : strcaseEq (cstr arg) (str "by") = true) :
    destinations 0 (arg :: pattern :: args) = destinations 0 args := by
  simp +decide [destinations, optionArgs, strcaseEq_congr h]

theorem destinations_get {pattern : Bytes} (h : strcaseEq (cstr arg) (str "get") = true) :
    destinations 0 (arg :: pattern :: args) = destinations 0 args := by
  simp +decide [destinations, optionArgs, strcaseEq_congr h]

end Steps

/-! ## The two readers -/

/-- What the parser reads and what the scan finds go together, option by option. -/
theorem sortOptions_scan {clusterEnabled : Bool} {j : Nat} {o parsed : SortOptions}
    {args : List Bytes} (h : sortOptions clusterEnabled j o args = .ok parsed)
    (hdst : ∀ d ∈ destinations 0 args, Scanned d.1 → d.2 = []) :
    sortGetKeysLoop j 0 args o.storekey = parsed.storekey := by
  fun_induction sortOptions clusterEnabled j o args with
  | case1 j o =>
    cases h
    rfl
  | case2 j o arg args hasc ih =>
    have hplain := not_scanned (by decide) hasc
    rw [destinations_plain hplain] at hdst
    rw [scan_plain hplain]
    exact ih h hdst
  | case3 j o arg args hasc hdesc ih =>
    have hplain := not_scanned (by decide) hdesc
    rw [destinations_plain hplain] at hdst
    rw [scan_plain hplain]
    exact ih h hdst
  | case4 j o arg args hasc hdesc halpha ih =>
    have hplain := not_scanned (by decide) halpha
    rw [destinations_plain hplain] at hdst
    rw [scan_plain hplain]
    exact ih h hdst
  | case5 j o arg _ _ _ hlimit start count args _ _ _ _ ih =>
    rw [destinations_limit hlimit] at hdst
    rw [scan_limit hlimit]
    exact ih h hdst
  | case9 j o arg _ _ _ _ hstore dst args ih =>
    rw [destinations_store hstore, forall_mem_cons] at hdst
    rw [scan_store hstore, if_neg (cons_ne_nil _ _), scan_last hdst.1]
    exact ih h hdst.2
  | case11 j o arg _ _ _ _ _ hby pattern args _ ih =>
    rw [destinations_by hby] at hdst
    rw [scan_by hby]
    exact ih h hdst
  | case13 j o arg _ _ _ _ _ hby pattern args _ _ ih =>
    rw [destinations_by hby] at hdst
    rw [scan_by hby]
    exact ih h hdst
  | case16 j o arg _ _ _ _ _ _ hget pattern args _ ih =>
    rw [destinations_get hget] at hdst
    rw [scan_get hget]
    exact ih h hdst
  | _ => cases h

/-- The keys of a `SORT` without a syntax error are the key it sorts and its destination, unless
a destination is the name of an option of the scan and has something behind it. -/
theorem sortGetKeys_eq {clusterEnabled : Bool} {argv : List Bytes} {o : SortOptions}
    (h : parseSort clusterEnabled argv = .ok o) (hdst : NoScannedDestination argv) :
    sortGetKeys argv = some (1 :: o.storekey.toList) := by
  rw [sortGetKeys]
  exact congrArg (fun store => some (1 :: Option.toList store)) (sortOptions_scan h hdst)

/-- `SORT k LIMIT 0 5 STORE d GET store DESC`: an argument of another option may spell a name. -/
theorem sortGetKeys_spelled :
    sortGetKeys [str "sort", str "k", str "LIMIT", str "0", str "5", str "STORE", str "d",
      str "GET", str "store", str "DESC"] = some [1, 6] := by
  have hparse : parseSort false [str "sort", str "k", str "LIMIT", str "0", str "5", str "STORE",
      str "d", str "GET", str "store", str "DESC"] =
      .ok { desc := true, limitStart := 0, limitCount := 5, storekey := some 6,
            operations := [str "store"] } := rfl
  exact sortGetKeys_eq hparse (by decide)

/-- `SORT k STORE store ASC` stores to the key `store`, and `ASC` is the key that is checked. -/
theorem sortGetKeys_store_store :
    ∃ o, parseSort false [str "sort", str "k", str "STORE", str "store", str "ASC"] = .ok o ∧
      o.storekey = some 3 ∧
      sortGetKeys [str "sort", str "k", str "STORE", str "store", str "ASC"] = some [1, 4] :=
  ⟨_, rfl, rfl, by decide⟩

end Redis.Commands
