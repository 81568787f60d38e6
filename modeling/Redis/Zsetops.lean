import Redis.Config
import Redis.Strings
import Redis.Zsets

/-!
# Redis.Zsetops

`ZUNIONSTORE` and `ZINTERSTORE` of `t_zset.c`.

Two keys never have the same object, so a subject is compared by its key.  What an iterator
returns until its end is a list.
-/

namespace Redis.Zsetops

open Keyspace
open Replication (Robj)
open Strings (getLongFromObjectOrReply addReplyError)
open Redis.Config (str cstr)
open Redis.Bus (strcaseEq)

/-! ## Sources -/

/-- A subject: a set or a sorted set. -/
inductive Subject (α : Type) where
  | set (o : SetObj)
  | zset (o : ZsetObj α)

/-- `zsetopsrc`, without its iterator. -/
structure Zsetopsrc (α : Type) where
  subject : Option (Key × Subject α)
  weight : Score α

/-- The element of a `zsetopval`: `ell`, `ele` or `estr`. -/
inductive Zsetopele where
  | ell (v : Int64)
  | ele (o : Robj)
  | estr (s : List UInt8)

/-- What `ziplistGet` leaves in a `zsetopval`. -/
def ziplistEle : ZipValue → Zsetopele
  | .str s => .estr s
  | .int v => .ell (Int64.ofInt v)

/-- What the commands depend on besides the keyspace: in which order an iterator returns the
entries of a dictionary, `qsort`, which leaves open how it orders what the comparison does not, the
value of `strtod` where it reads all of a string, and the limits of a ziplist. -/
structure ZsetEnv (α : Type) where
  dictEntries : ∀ {β : Type}, EncDict β → List (Robj × β)
  dictEntries_perm : ∀ {β : Type} (d : EncDict β), (dictEntries d).Perm d.entries
  qsort : ∀ {β : Type}, (β → β → Int) → List β → List β
  qsort_perm : ∀ {β : Type} (cmp : β → β → Int) (l : List β), (qsort cmp l).Perm l
  strtod : List UInt8 → Option (Score α)
  zsetMaxZiplistEntries : Nat
  zsetMaxZiplistValue : Nat

section Sources

variable {α : Type} [Ring α] (env : ZsetEnv α)

def zuiLength (op : Zsetopsrc α) : Nat :=
  match op.subject with
  | none => 0
  | some (_, .set o) => setTypeSize o
  | some (_, .zset (.ziplist zl)) => zl.pairs.length
  | some (_, .zset (.skiplist zs)) => zs.zsl.length

/-- What `zuiNext` returns until the end of an iteration: an element and its score. -/
def zuiNext : Subject α → List (Zsetopele × Score α)
  | .set (.intset is) => is.contents.map fun v => (.ell (Int64.ofInt v), 1)
  | .set (.ht d) => (env.dictEntries d).map fun e => (.ele e.1, 1)
  | .zset (.ziplist zl) => zl.pairs.map fun e => (ziplistEle e.1, e.2)
  | .zset (.skiplist zs) => zs.zsl.map fun nd => (.ele nd.1, nd.2)

/-- `zuiLongLongFromValue`, with the number. -/
def zuiLongLongFromValue : Zsetopele → Option Int
  | .ell v => some v.toInt
  | .ele o => isObjectRepresentableAsLongLong o
  | .estr s => string2ll s

def zuiObjectFromValue : Zsetopele → Robj
  | .ell v => createStringObjectFromLongLong v.toInt
  | .ele o => o
  | .estr s => .raw s

/-- `zuiFind`, with the score. -/
def zuiFind (op : Zsetopsrc α) (val : Zsetopele) : Option (Score α) :=
  match op.subject with
  | none => none
  | some (_, .set (.intset is)) =>
    match zuiLongLongFromValue val with
    | some ell => if is.intsetFind (Int64.ofInt ell) then some 1 else none
    | none => none
  | some (_, .set (.ht d)) => if (d.find (zuiObjectFromValue val)).isSome then some 1 else none
  | some (_, .zset (.ziplist zl)) => zl.zzlFind (zuiObjectFromValue val)
  | some (_, .zset (.skiplist zs)) => zs.dict.find (zuiObjectFromValue val)

def zuiCompareByCardinality (s1 s2 : Zsetopsrc α) : Int := (zuiLength s1 : Int) - zuiLength s2

end Sources

/-! ## Aggregation -/

/-- `REDIS_AGGR_SUM`, `REDIS_AGGR_MIN` and `REDIS_AGGR_MAX`. -/
inductive Aggregate where
  | sum
  | min
  | max
deriving DecidableEq

section Aggregation

variable {α : Type} [Ring α] [LinearOrder α]

def zunionInterAggregate (target val : Score α) : Aggregate → Score α
  | .sum => (target + val).orZero
  | .min => if val.lt target then val else target
  | .max => if target.lt val then val else target

/-- The loop of `ZINTERSTORE` over the sources but the first: the score, if an element is in all of
them. -/
def zinterScore (src0 : Zsetopsrc α) (zval : Zsetopele × Score α) (aggregate : Aggregate) :
    Score α → List (Zsetopsrc α) → Option (Score α)
  | score, [] => some score
  | score, src :: srcs =>
    if src.subject.map Prod.fst = src0.subject.map Prod.fst then
      let value := zval.2 * src.weight
      zinterScore src0 zval aggregate (zunionInterAggregate score value aggregate) srcs
    else
      match zuiFind src zval.1 with
      | some value =>
        let value := value * src.weight
        zinterScore src0 zval aggregate (zunionInterAggregate score value aggregate) srcs
      | none => none

/-- The longest element so far; an object with an integer has no `sds`. -/
def maxelelen (tmp : Robj) (len : Nat) : Nat :=
  match tmp with
  | .raw s => if s.length > len then s.length else len
  | .int _ => len

variable (env : ZsetEnv α)

/-- `ZINTERSTORE`, one element of the first source after the other. -/
def zinterElements (src0 : Zsetopsrc α) (srcs : List (Zsetopsrc α)) (aggregate : Aggregate) :
    Zset α × Nat → List (Zsetopele × Score α) → Option (Zset α × Nat)
  | acc, [] => some acc
  | (dstzset, len), zval :: zvals => do
    let score := (src0.weight * zval.2).orZero
    match zinterScore src0 zval aggregate score srcs with
    | some score =>
      let tmp := zuiObjectFromValue zval.1
      let dstzset ← dstzset.insert score tmp
      zinterElements src0 srcs aggregate (dstzset, maxelelen tmp len) zvals
    | none => zinterElements src0 srcs aggregate (dstzset, len) zvals

/-- The sorted set of `ZINTERSTORE`, and its longest element. -/
def zinter (aggregate : Aggregate) : List (Zsetopsrc α) → Option (Zset α × Nat)
  | [] => some (.empty, 0)
  | src0 :: srcs =>
    match src0.subject with
    | some (_, subject) =>
      if zuiLength src0 > 0 then
        zinterElements src0 srcs aggregate (.empty, 0) (zuiNext env subject)
      else some (.empty, 0)
    | none => some (.empty, 0)

/-- `ZUNIONSTORE`, one element of a source. -/
def zunionElement (aggregate : Aggregate) (weight : Score α) (acc : EncDict (Score α) × Nat)
    (zval : Zsetopele × Score α) : EncDict (Score α) × Nat :=
  let score := (weight * zval.2).orZero
  let tmp := zuiObjectFromValue zval.1
  match acc.1.find tmp with
  | none => ((acc.1.put tmp score).1, maxelelen tmp acc.2)
  | some target => ((acc.1.put tmp (zunionInterAggregate target score aggregate)).1, acc.2)

/-- The dictionary that `ZUNIONSTORE` accumulates, and its longest element. -/
def zunionAccumulate (aggregate : Aggregate) (acc : EncDict (Score α) × Nat) :
    List (Zsetopsrc α) → EncDict (Score α) × Nat
  | [] => acc
  | src :: srcs =>
    match src.subject with
    | some (_, subject) =>
      if zuiLength src = 0 then zunionAccumulate aggregate acc srcs
      else
        zunionAccumulate aggregate
          ((zuiNext env subject).foldl (zunionElement aggregate src.weight) acc) srcs
    | none => zunionAccumulate aggregate acc srcs

/-- The sorted set of `ZUNIONSTORE`, and its longest element. -/
def zunion (aggregate : Aggregate) (srcs : List (Zsetopsrc α)) : Option (Zset α × Nat) := do
  let (accumulator, len) := zunionAccumulate env aggregate (.empty, 0) srcs
  let dstzset ← (env.dictEntries accumulator).foldlM (fun zs e => zs.insert e.2 e.1) Zset.empty
  return (dstzset, len)

end Aggregation

/-! ## The commands -/

/-- `REDIS_OP_UNION` and `REDIS_OP_INTER`. -/
inductive SetOp where
  | union
  | inter
deriving DecidableEq

/-- Sets and sorted sets among the values. -/
structure Types (V α : Type) where
  set : ObjType V SetObj
  zset : ObjType V (ZsetObj α)

section Commands

variable {V α : Type} [Ring α] (env : Env) (zenv : ZsetEnv α) (types : Types V α) (d : Nat)

def getDoubleFromObject : Robj → Option (Score α)
  | .raw s =>
    match zenv.strtod s with
    | some value => if value.isnan then none else some value
    | none => none
  | .int n => some (.fin n.toInt)

def getDoubleFromObjectOrReply (o : Robj) (msg : String) : Except Keyspace.Reply (Score α) :=
  match getDoubleFromObject zenv o with
  | some value => .ok value
  | none => .error (addReplyError msg)

/-- The subject of a value: its contents, if it is a set or a sorted set. -/
def Types.subject (v : V) : Option (Subject α) :=
  match types.zset.checkType v, types.set.checkType v with
  | some o, _ => some (.zset o)
  | none, some o => some (.set o)
  | none, none => none

/-- The loop of `zunionInterGenericCommand` that reads the keys. -/
def lookupSources : List Key → List (Zsetopsrc α) → Cmd V (Except Keyspace.Reply (List (Zsetopsrc α)))
  | [], src => return .ok src
  | key :: keys, src => do
    match ← Keyspace.lookupKeyWrite env d key with
    | none => lookupSources keys (src ++ [⟨none, 1⟩])
    | some v =>
      match types.subject v with
      | none => return .error wrongtypeerr
      | some subject => lookupSources keys (src ++ [⟨some (key, subject), 1⟩])

/-- The weights of `WEIGHTS`. -/
def parseWeights : List (Zsetopsrc α) → List Robj → Except Keyspace.Reply (List (Zsetopsrc α))
  | src :: srcs, arg :: args =>
    match getDoubleFromObjectOrReply zenv arg "weight value is not a float" with
    | .error reply => .error reply
    | .ok weight =>
      match parseWeights srcs args with
      | .error reply => .error reply
      | .ok srcs => .ok ({ src with weight := weight } :: srcs)
  | srcs, _ => .ok srcs

/-- The argument of `AGGREGATE`. -/
def parseAggregate (arg : Robj) : Option Aggregate :=
  if strcaseEq (cstr arg.bytes) (str "sum") then some .sum
  else if strcaseEq (cstr arg.bytes) (str "min") then some .min
  else if strcaseEq (cstr arg.bytes) (str "max") then some .max
  else none

def syntaxerr : Keyspace.Reply := .error "ERR syntax error"

/-- The loop over the optional arguments. -/
def parseOptions (src : List (Zsetopsrc α)) (aggregate : Aggregate) (args : List Robj) :
    Except Keyspace.Reply (List (Zsetopsrc α) × Aggregate) :=
  match args with
  | [] => .ok (src, aggregate)
  | arg :: args =>
    if args.length ≥ src.length ∧ strcaseEq (cstr arg.bytes) (str "weights") then
      match parseWeights zenv src args with
      | .error reply => .error reply
      | .ok src' => parseOptions src' aggregate (args.drop src.length)
    else
      match args with
      | value :: args =>
        if strcaseEq (cstr arg.bytes) (str "aggregate") then
          match parseAggregate value with
          | some aggregate => parseOptions src aggregate args
          | none => .error syntaxerr
        else .error syntaxerr
      | [] => .error syntaxerr
termination_by args.length
decreasing_by
  · rw [List.length_drop, List.length_cons]
    omega
  · simp only [List.length_cons]
    omega

variable [LinearOrder α]

/-- The object that is stored: a ziplist, if it is in the limits. -/
def storedZset (zs : Zset α) (len : Nat) : ZsetObj α :=
  if zs.zsl.length ≤ zenv.zsetMaxZiplistEntries ∧ len ≤ zenv.zsetMaxZiplistValue then
    .ziplist zs.zsetConvert
  else .skiplist zs

/-- The sorted set of either command, and its longest element. -/
def zsetopsResult (op : SetOp) (src : List (Zsetopsrc α)) (aggregate : Aggregate) :
    Option (Zset α × Nat) :=
  match op with
  | .inter => zinter zenv aggregate src
  | .union => zunion zenv aggregate src

/-- What `zunionInterGenericCommand` does with the arguments it has read. -/
def zunionInterStore (op : SetOp) (dstkey : Key) (src : List (Zsetopsrc α)) (aggregate : Aggregate) :
    Cmd V Keyspace.Reply := do
  let src := zenv.qsort zuiCompareByCardinality src
  let some (dstzset, len) := zsetopsResult zenv op src aggregate | failure
  let _ ← Keyspace.dbDelete env d dstkey
  if dstzset.zsl.length ≠ 0 then
    Keyspace.dbAdd env d dstkey (types.zset.create (storedZset zenv dstzset len))
    return .integer dstzset.zsl.length
  else return .integer 0

/-- `zunionInterGenericCommand`, for the arguments behind the destination. -/
def zunionInterGenericCommand (op : SetOp) (dstkey : Key) (numArg : Robj) (args : List Robj) :
    Cmd V Keyspace.Reply := do
  match getLongFromObjectOrReply (some numArg) none with
  | .error reply => return reply
  | .ok setnum =>
    if setnum < 1 then
      return addReplyError "at least 1 input key is needed for ZUNIONSTORE/ZINTERSTORE"
    else if (args.length : Int) < setnum.toInt then return syntaxerr
    else
      let keys := (args.take setnum.toInt.toNat).map Robj.bytes
      match ← lookupSources env types d keys [] with
      | .error reply => return reply
      | .ok src =>
        match parseOptions zenv src .sum (args.drop setnum.toInt.toNat) with
        | .error reply => return reply
        | .ok (src, aggregate) => zunionInterStore env zenv types d op dstkey src aggregate

end Commands

end Redis.Zsetops
