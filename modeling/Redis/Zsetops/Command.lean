import Mathlib.Algebra.Order.Ring.Rat
import Mathlib.Data.List.Sort
import Redis.Zsetops.Store

/-!
# Redis.Zsetops.Command

`ZUNIONSTORE` and `ZINTERSTORE`, from the keys and the options to the stored sorted set.
-/

namespace Redis.Zsetops

open Keyspace List Option
open Replication (Robj)
open Keyed (Uniq lookup)
open Strings (getLongFromObjectOrReply)
open Redis.Config (str cstr)
open Redis.Bus (strcaseEq)

/-! ## What is to be stored -/

/-- The elements of the union and of the intersection. -/
def SetOp.Has {α : Type} [Ring α] (op : SetOp) (srcs : List (Zsetopsrc α)) (m : Bytes) : Prop :=
  match op with
  | union => ∃ src ∈ srcs, (src.score m).isSome
  | inter => ∀ src ∈ srcs, (src.score m).isSome

theorem SetOp.has_perm {α : Type} [Ring α] {op : SetOp} {srcs srcs' : List (Zsetopsrc α)}
    {m : Bytes} (hperm : srcs.Perm srcs') : op.Has srcs m ↔ op.Has srcs' m := by
  cases op with
  | union => simp only [Has, hperm.mem_iff]
  | inter => simp only [Has, hperm.mem_iff]

section Results

variable {α : Type} [CommRing α] [LinearOrder α] {op : SetOp} {aggregate : Aggregate}
  {srcs : List (Zsetopsrc α)} {m : Bytes}

/-- The score of an element is the aggregate of its weighted scores. -/
structure Stored (op : SetOp) (aggregate : Aggregate) (srcs : List (Zsetopsrc α)) (m : Bytes)
    (x : Option (Score α)) : Prop where
  some_of_has : op.Has srcs m → ∃ r, x = some r ∧ Aggregated aggregate (weighted srcs m) r
  none_of_not_has : ¬op.Has srcs m → x = none

/-- No weighted score that is a `NaN` in the loop of `ZINTERSTORE` does harm. -/
def Unharmed (op : SetOp) (aggregate : Aggregate) (srcs : List (Zsetopsrc α)) (m : Bytes) :
    Prop :=
  match op, srcs with
  | .inter, src0 :: srcs => ∀ s, src0.score m = some s → (∀ src ∈ srcs, (src.score m).isSome) →
      Harmless aggregate (src0.weight * s).orZero (products srcs m)
  | _, _ => True

theorem weighted_eq (srcs : List (Zsetopsrc α)) (m : Bytes) :
    weighted srcs m = (products srcs m).map Score.orZero := by
  rw [weighted, products, map_filterMap]
  refine filterMap_congr fun src _ => ?_
  cases src.score m with
  | none => rfl
  | some s => exact congrArg (fun v : Score α => some v.orZero) (Score.mul_comm src.weight s)

theorem weighted_eq_nil : weighted srcs m = [] ↔ ¬SetOp.Has .union srcs m := by
  rw [weighted, filterMap_eq_nil_iff, SetOp.Has]
  push Not
  refine forall₂_congr fun src _ => ?_
  cases src.score m with
  | none => exact iff_of_true rfl Bool.false_ne_true
  | some s => exact iff_of_false (Option.some_ne_none _) fun h => h rfl

theorem foldl_combine (values : List (Score α)) (score : Score α) :
    values.foldl (combine aggregate) (some score) = some (aggregateAll aggregate score values) := by
  induction values generalizing score with
  | nil => rfl
  | cons v values ih => exact ih _

theorem union_stored (aggregate : Aggregate) (srcs : List (Zsetopsrc α)) (m : Bytes) :
    Stored .union aggregate srcs m ((weighted srcs m).foldl (combine aggregate) none) := by
  refine ⟨fun hhas => ?_, fun hnot => ?_⟩
  · cases hweighted : weighted srcs m with
    | nil => exact absurd hhas (weighted_eq_nil.mp hweighted)
    | cons v values =>
      have hv : v ≠ .nan := ne_of_mem_weighted (hweighted ▸ mem_cons_self)
      exact ⟨_, foldl_combine values v, (Aggregated.single aggregate hv).foldl values⟩
  · rw [weighted_eq_nil.mpr hnot]
    rfl

theorem inter_stored (aggregate : Aggregate) (src0 : Zsetopsrc α) (srcs : List (Zsetopsrc α))
    (m : Bytes) :
    Stored .inter aggregate (src0 :: srcs) m
        ((src0.score m).bind fun s => interScore aggregate srcs m (src0.weight * s).orZero) ↔
      Unharmed .inter aggregate (src0 :: srcs) m := by
  have hhas : SetOp.Has .inter (src0 :: srcs) m ↔
      (src0.score m).isSome ∧ ∀ src ∈ srcs, (src.score m).isSome := forall_mem_cons
  rw [Unharmed]
  cases hscore : src0.score m with
  | none =>
    rw [hscore] at hhas
    have hnot : ¬SetOp.Has .inter (src0 :: srcs) m := fun h => Bool.false_ne_true (hhas.mp h).1
    refine iff_of_true ⟨fun h => absurd h hnot, fun _ => rfl⟩ ?_
    rintro s heq
    cases heq
  | some s =>
    rw [hscore] at hhas
    dsimp only [bind_some]
    rw [interScore]
    split
    next hall =>
      have hvalues : weighted (src0 :: srcs) m =
          (src0.weight * s).orZero :: (products srcs m).map Score.orZero := by
        rw [weighted_cons, hscore, weighted_eq srcs]
      have hiff := aggregated_iff_harmless aggregate (Score.orZero_ne (src0.weight * s))
        (products srcs m)
      rw [← hvalues] at hiff
      refine ⟨fun h s' heq _ => ?_, fun h => ⟨fun _ => ?_, fun hnot => ?_⟩⟩
      · obtain rfl := Option.some.inj heq
        obtain ⟨r, hr, haggregated⟩ := h.some_of_has (hhas.mpr ⟨rfl, hall⟩)
        obtain rfl := Option.some.inj hr
        exact hiff.mp haggregated
      · exact ⟨_, rfl, hiff.mpr (h s rfl hall)⟩
      · exact absurd (hhas.mpr ⟨rfl, hall⟩) hnot
    next hmissing =>
      refine iff_of_true ⟨fun h => absurd (hhas.mp h).2 hmissing, fun _ => rfl⟩ ?_
      exact fun s' _ hall => absurd hall hmissing

theorem zsetopsResult_spec (env : ZsetEnv α) (op : SetOp) (aggregate : Aggregate) (hne : srcs ≠ [])
    (h : Consistent srcs) :
    ∃ zs len, zsetopsResult env op srcs aggregate = some (zs, len) ∧
      ∀ m, zs.dict.toFun m ≠ some .nan ∧
        (Stored op aggregate srcs m (zs.dict.toFun m) ↔ Unharmed op aggregate srcs m) := by
  cases op with
  | union =>
    obtain ⟨zs, len, hzs, hfun⟩ := zunion_spec env aggregate srcs
    refine ⟨zs, len, hzs, fun m => ?_⟩
    rw [hfun]
    refine ⟨fun hnan => ?_, iff_of_true (union_stored aggregate srcs m) trivial⟩
    cases hweighted : weighted srcs m with
    | nil =>
      rw [hweighted] at hnan
      cases hnan
    | cons v values =>
      have hv : v ≠ .nan := ne_of_mem_weighted (hweighted ▸ mem_cons_self)
      rw [hweighted] at hnan
      have hall : some (aggregateAll aggregate v values) = some .nan :=
        (foldl_combine values v).symm.trans hnan
      exact aggregateAll_ne aggregate hv values (Option.some.inj hall)
  | inter =>
    obtain ⟨src0, srcs, rfl⟩ := exists_cons_of_ne_nil hne
    obtain ⟨zs, len, hzs, hfun⟩ := zinter_spec env aggregate h
    refine ⟨zs, len, hzs, fun m => ?_⟩
    rw [hfun]
    refine ⟨fun hnan => ?_, inter_stored aggregate src0 srcs m⟩
    obtain ⟨s, -, hnan⟩ := bind_eq_some_iff.mp hnan
    rw [interScore] at hnan
    split at hnan
    · exact aggregateAll_ne aggregate (Score.orZero_ne _) _ (Option.some.inj hnan)
    · cases hnan

end Results

/-! ## Sources -/

section Sources

variable {V α : Type} [CommRing α] {env : Env} {zenv : ZsetEnv α} {types : Types V α} {d : Nat}

/-- The source of a key that is missing, or of a set or a sorted set, with the weight 1. -/
def sourceAt (types : Types V α) (E : Dataset V) (d : Nat) (key : Key) : Option (Zsetopsrc α) :=
  match E d key with
  | none => some ⟨none, 1⟩
  | some (v, _) => (types.subject v).map fun subject => ⟨some (key, subject), 1⟩

variable {E : Dataset V} {args : List Robj} {keys : List Key} {srcs srcs' : List (Zsetopsrc α)}

theorem lookupSources_shows (env : Env)
    (hkeys : Forall₂ (fun key src => sourceAt types E d key = some src) keys srcs)
    (w : View V) (hw : w.entries = E) (before : List (Zsetopsrc α)) :
    ∃ w', Runs (Shows env) (lookupSources env types d keys before) w (.ok (before ++ srcs)) w' ∧
      w'.entries = E := by
  induction hkeys generalizing before w with
  | nil => exact ⟨w, by rw [append_nil]; exact Runs.pure _ _, hw⟩
  | @cons key src keys srcs hkey _ ih =>
    have hlookup : Runs (Shows env) (Keyspace.lookupKeyWrite env d key) w ((E d key).map Prod.fst)
        (w.touch d key) := hw ▸ lookupKeyWrite_shows
    rw [lookupSources]
    rw [sourceAt] at hkey
    obtain ⟨w', hruns, hentries⟩ := ih (w.touch d key) hw (before ++ [src])
    rw [← append_cons] at hruns
    refine ⟨w', hlookup.bind ?_, hentries⟩
    cases hentry : E d key with
    | none =>
      rw [hentry] at hkey
      obtain rfl : ⟨none, 1⟩ = src := Option.some.inj hkey
      exact hruns
    | some v =>
      rw [hentry] at hkey
      obtain ⟨subject, hsubject, rfl⟩ := map_eq_some_iff.mp hkey
      dsimp only [map_some]
      rw [hsubject]
      exact hruns

theorem consistent_of_sourceAt
    (hkeys : Forall₂ (fun key src => sourceAt types E d key = some src) keys srcs) :
    Consistent srcs := by
  have hsubject : ∀ s ∈ srcs.map Zsetopsrc.subject, ∀ key subject, s = some (key, subject) →
      ∃ v, (E d key).map Prod.fst = some v ∧ types.subject v = some subject := by
    rintro s hs key subject rfl
    induction hkeys with
    | nil => exact absurd hs not_mem_nil
    | @cons key' src keys srcs hkey _ ih =>
      rcases mem_cons.mp hs with heq | hs
      · rw [sourceAt] at hkey
        cases hentry : E d key' with
        | none =>
          rw [hentry] at hkey
          obtain rfl := Option.some.inj hkey
          cases heq
        | some v =>
          rw [hentry] at hkey
          obtain ⟨subject', hsubject, rfl⟩ := map_eq_some_iff.mp hkey
          obtain ⟨rfl, rfl⟩ := Prod.mk.inj (Option.some.inj heq)
          exact ⟨v.1, by rw [hentry]; rfl, hsubject⟩
      · exact ih hs
  intro s hs s' hs' hkeys
  match s, s' with
  | none, none => rfl
  | none, some _ => cases hkeys
  | some _, none => cases hkeys
  | some (key, subject), some (key', subject') =>
    obtain rfl : key = key' := Option.some.inj hkeys
    obtain ⟨v, hv, hsubject₁⟩ := hsubject _ hs key subject rfl
    obtain ⟨v', hv', hsubject₂⟩ := hsubject _ hs' key subject' rfl
    rw [hv] at hv'
    obtain rfl := Option.some.inj hv'
    rw [hsubject₁] at hsubject₂
    rw [Option.some.inj hsubject₂]

/-! ## Options -/

theorem parseWeights_subject (h : parseWeights zenv srcs args = .ok srcs') :
    srcs'.map Zsetopsrc.subject = srcs.map Zsetopsrc.subject := by
  induction srcs generalizing srcs' args with
  | nil =>
    rw [parseWeights] at h
    · rw [Except.ok.inj h]
    · exact nofun
  | cons src srcs ih =>
    cases args with
    | nil =>
      rw [parseWeights] at h
      · rw [Except.ok.inj h]
      · exact nofun
    | cons arg args =>
      rw [parseWeights] at h
      split at h
      · cases h
      split at h
      · cases h
      next srcs₁ hsrcs =>
        rw [← Except.ok.inj h, map_cons, map_cons, ih hsrcs]

/-- The options change weights and the aggregate only. -/
theorem parseOptions_subject {aggregate aggregate' : Aggregate}
    (h : parseOptions zenv srcs aggregate args = .ok (srcs', aggregate')) :
    srcs'.map Zsetopsrc.subject = srcs.map Zsetopsrc.subject := by
  fun_induction parseOptions zenv srcs aggregate args with
  | case1 => rw [(Prod.mk.inj (Except.ok.inj h)).1]
  | case2 => cases h
  | case3 _ _ _ _ _ _ hweights ih => rw [ih h, parseWeights_subject hweights]
  | case4 _ _ _ _ _ _ _ _ _ ih => exact ih h
  | case5 => cases h
  | case6 => cases h
  | case7 => cases h

end Sources

/-! ## The commands -/

section Command

variable {V α : Type} {env : Env} {zenv : ZsetEnv α} {types : Types V α} {d : Nat}

/-- The score of an element in an entry of the keyspace. -/
def scoreAt (types : Types V α) (x : Option (V × Option Int)) (m : Bytes) : Option (Score α) :=
  (x.bind fun v => types.zset.checkType v.1).bind fun o => o.toFun m

theorem scoreAt_stored (zs : Zset α) (len : Nat) (m : Bytes) :
    scoreAt types (if zs.zsl.length ≠ 0 then
      some (types.zset.create (storedZset zenv zs len), none) else none) m = zs.dict.toFun m := by
  split
  next =>
    rw [scoreAt, bind_some, types.zset.checkType_create, bind_some, storedZset]
    split
    · exact congrFun zs.zsetConvert_toFun m
    · rfl
  next hempty =>
    have hnil : zs.zsl = [] := eq_nil_of_length_eq_zero (not_not.mp hempty)
    rw [← zs.lookup_zsl, hnil]
    rfl

variable [CommRing α] [LinearOrder α]

variable {aggregate : Aggregate} {srcs : List (Zsetopsrc α)}

theorem zunionInterStore_shows (zenv : ZsetEnv α) (types : Types V α)
    (hd : env.clusterEnabled = true → d = 0) (op : SetOp) (dstkey : Key) (aggregate : Aggregate)
    (hne : srcs ≠ []) (hsrcs : Consistent srcs) (w : View V) :
    ∃ n x w', Runs (Shows env) (zunionInterStore env zenv types d op dstkey srcs aggregate) w
        (.integer n) w' ∧ w'.entries = w.entries.set d dstkey x ∧
      ∀ m, scoreAt types x m ≠ some .nan ∧
        (Stored op aggregate (zenv.qsort zuiCompareByCardinality srcs) m (scoreAt types x m) ↔
          Unharmed op aggregate (zenv.qsort zuiCompareByCardinality srcs) m) := by
  have hperm := zenv.qsort_perm zuiCompareByCardinality srcs
  have hne' : zenv.qsort zuiCompareByCardinality srcs ≠ [] := fun h =>
    hne (perm_nil.mp (h ▸ hperm.symm))
  have hsrcs' : Consistent (zenv.qsort zuiCompareByCardinality srcs) := fun s hs s' hs' =>
    hsrcs s ((hperm.map _).mem_iff.mp hs) s' ((hperm.map _).mem_iff.mp hs')
  obtain ⟨zs, len, hzs, hspec⟩ := zsetopsResult_spec zenv op aggregate hne' hsrcs'
  refine ⟨zs.zsl.length, if zs.zsl.length ≠ 0 then
    some (types.zset.create (storedZset zenv zs len), none) else none, ?_⟩
  simp only [scoreAt_stored]
  rw [zunionInterStore, hzs]
  by_cases hempty : zs.zsl.length ≠ 0
  · have hsettled : (d, dstkey) ∈ (w.set d dstkey none).settled := (View.mem_set ..).mpr (.inl rfl)
    have hadd : Runs (Shows env) (Keyspace.dbAdd env d dstkey (types.zset.create (storedZset zenv zs len)))
        (w.set d dstkey none) () _ := dbAdd_shows hsettled (Dataset.set_same ..) hd
    refine ⟨(w.set d dstkey none).set d dstkey
      (some (types.zset.create (storedZset zenv zs len), none)), dbDelete_any ?_, ?_, hspec⟩
    · rw [if_pos hempty]
      exact hadd.bind (Runs.pure _ _)
    · rw [View.entries_set, View.entries_set, Dataset.set_set, if_pos hempty]
  · refine ⟨w.set d dstkey none, dbDelete_any ?_, ?_, hspec⟩
    · rw [if_neg hempty, not_not.mp hempty]
      exact Runs.pure _ _
    · rw [View.entries_set, if_neg hempty]

/-- Arguments that name sets and sorted sets, and the sources and the aggregate that are read from
them. -/
def Accepted (zenv : ZsetEnv α) (types : Types V α) (E : Dataset V) (d : Nat) (numArg : Robj)
    (args : List Robj) (srcs : List (Zsetopsrc α)) (aggregate : Aggregate) : Prop :=
  ∃ setnum sources, getLongFromObjectOrReply (some numArg) none = .ok setnum ∧
    1 ≤ setnum.toInt ∧ setnum.toInt ≤ args.length ∧
    Forall₂ (fun key src => sourceAt types E d key = some src)
      ((args.take setnum.toInt.toNat).map Robj.bytes) sources ∧
    parseOptions zenv sources .sum (args.drop setnum.toInt.toNat) = .ok (srcs, aggregate)

theorem zunionInterGenericCommand_runs (hd : env.clusterEnabled = true → d = 0) (op : SetOp)
    (dstkey : Key) {E : Dataset V} {numArg : Robj} {args : List Robj}
    (h : Accepted zenv types E d numArg args srcs aggregate) :
    ∃ n x, Runs (Sees env) (zunionInterGenericCommand env zenv types d op dstkey numArg args) E
        (.integer n) (E.set d dstkey x) ∧
      ∀ m, scoreAt types x m ≠ some .nan ∧
        (Stored op aggregate (zenv.qsort zuiCompareByCardinality srcs) m (scoreAt types x m) ↔
          Unharmed op aggregate (zenv.qsort zuiCompareByCardinality srcs) m) := by
  obtain ⟨setnum, sources, hnum, hpos, hle, hkeys, hoptions⟩ := h
  have hsubjects := parseOptions_subject hoptions
  have hsources : sources ≠ [] := by
    rintro rfl
    have hlength := hkeys.length_eq
    rw [length_map, length_take, length_nil] at hlength
    omega
  have hne : srcs ≠ [] := by
    rintro rfl
    exact hsources (map_eq_nil_iff.mp hsubjects.symm)
  have hsrcs : Consistent srcs := by
    rw [Consistent, hsubjects]
    exact consistent_of_sourceAt hkeys
  obtain ⟨w, hlookup, hw⟩ := lookupSources_shows env hkeys ⟨E, ∅⟩ rfl []
  obtain ⟨n, x, w', hstore, hentries, hspec⟩ :=
    zunionInterStore_shows zenv types hd op dstkey aggregate hne hsrcs w
  refine ⟨n, x, runs_sees_to w' ?_ (by rw [hentries, hw]), hspec⟩
  have hlow : ¬setnum < 1 := by
    rw [Int64.lt_iff_toInt_lt]
    exact not_lt.mpr hpos
  rw [zunionInterGenericCommand, hnum]
  dsimp only
  rw [if_neg hlow, if_neg (not_lt.mpr hle)]
  refine hlookup.bind ?_
  dsimp only [nil_append]
  rw [hoptions]
  exact hstore

/-- What is to be stored for `MIN` and `MAX` does not depend on the order of the sources. -/
theorem Stored.perm {op : SetOp} {srcs' : List (Zsetopsrc α)} {m : Bytes} {x : Option (Score α)}
    (hne : aggregate ≠ .sum) (hperm : srcs.Perm srcs') (h : Stored op aggregate srcs m x) :
    Stored op aggregate srcs' m x where
  some_of_has hhas := by
    obtain ⟨r, hx, haggregated⟩ := h.some_of_has ((SetOp.has_perm hperm).mpr hhas)
    exact ⟨r, hx, haggregated.perm hne (hperm.filterMap _)⟩
  none_of_not_has hnot := h.none_of_not_has fun hhas => hnot ((SetOp.has_perm hperm).mp hhas)

/-- The scores that are stored are the aggregates of the weighted scores, for `MIN` and `MAX` with
the sources in any order and for `SUM` in the order of their cardinality, exactly if no `NaN` does
harm.  A stored score is never a `NaN`. -/
theorem zunionInter_stores (hd : env.clusterEnabled = true → d = 0) (op : SetOp) (dstkey : Key)
    {E : Dataset V} {numArg : Robj} {args : List Robj} {srcs : List (Zsetopsrc α)}
    {aggregate : Aggregate} (h : Accepted zenv types E d numArg args srcs aggregate) :
    ∃ n x, Runs (Sees env) (zunionInterGenericCommand env zenv types d op dstkey numArg args) E
        (.integer n) (E.set d dstkey x) ∧
      (∀ m, scoreAt types x m ≠ some .nan) ∧
      ((∀ m srcs', srcs'.Perm srcs →
          (aggregate = .sum → srcs' = zenv.qsort zuiCompareByCardinality srcs) →
            Stored op aggregate srcs' m (scoreAt types x m)) ↔
        ∀ m, Unharmed op aggregate (zenv.qsort zuiCompareByCardinality srcs) m) := by
  obtain ⟨n, x, hruns, hspec⟩ := zunionInterGenericCommand_runs hd op dstkey h
  have hperm := zenv.qsort_perm zuiCompareByCardinality srcs
  refine ⟨n, x, hruns, fun m => (hspec m).1, fun hstored m => ?_, fun hunharmed m srcs' hp hsum => ?_⟩
  · exact (hspec m).2.mp (hstored m _ hperm fun _ => rfl)
  · have hstored := (hspec m).2.mpr (hunharmed m)
    by_cases hsum' : aggregate = .sum
    · rw [hsum hsum']
      exact hstored
    · exact hstored.perm hsum' (hperm.trans hp.symm)

end Command

/-! ## A server with a sorted set -/

/-- Values of the two types that the commands know. -/
inductive Value where
  | set (o : SetObj)
  | zset (o : ZsetObj ℚ)

def valueTypes : Types Value ℚ where
  set :=
    { create := .set
      checkType := fun v => match v with
        | .set o => some o
        | .zset _ => none
      checkType_create := fun _ => rfl
      create_checkType := fun {v o} h => by
        cases v with
        | set o' => exact congrArg Value.set (Option.some.inj h).symm
        | zset o' => cases h }
  zset :=
    { create := .zset
      checkType := fun v => match v with
        | .set _ => none
        | .zset o => some o
      checkType_create := fun _ => rfl
      create_checkType := fun {v o} h => by
        cases v with
        | set o' => cases h
        | zset o' => exact congrArg Value.zset (Option.some.inj h).symm }

/-- Scores that are integers, and the limits of the default configuration. -/
def plainZsetEnv : ZsetEnv ℚ where
  dictEntries d := d.entries
  dictEntries_perm _ := .refl _
  qsort cmp l := l.insertionSort fun x y => cmp x y ≤ 0
  qsort_perm _ l := perm_insertionSort _ l
  strtod s := (string2ll s).map fun n => .fin n
  zsetMaxZiplistEntries := 128
  zsetMaxZiplistValue := 64

/-- A sorted set with the element `m`. -/
def oneElement (score : Score ℚ) : ZsetObj ℚ :=
  .ziplist
    { pairs := [(.str [109], score)]
      valid := by
        intro e he
        rw [mem_singleton.mp he]
        trivial
      uniq := nodup_singleton _ }

/-- A dataset with the sorted set of one element at the key `a`. -/
def oneKey (score : Score ℚ) : Dataset Value :=
  Dataset.set (fun _ _ => none) 0 [97] (some (.zset (oneElement score), none))

/-- The arguments `a a WEIGHTS 1 0`. -/
def twiceArgs : List Robj :=
  [.raw [97], .raw [97], .raw [119, 101, 105, 103, 104, 116, 115], .raw [49], .raw [48]]

/-- The sources of these arguments. -/
def twice (score : Score ℚ) : List (Zsetopsrc ℚ) :=
  [⟨some ([97], .zset (oneElement score)), 1⟩, ⟨some ([97], .zset (oneElement score)), 0⟩]

theorem accepted_twice (score : Score ℚ) :
    Accepted plainZsetEnv valueTypes (oneKey score) 0 (.raw [50]) twiceArgs (twice score) .sum := by
  have hsource : sourceAt valueTypes (oneKey score) 0 [97] =
      some ⟨some ([97], .zset (oneElement score)), 1⟩ := by
    rw [sourceAt, oneKey, Dataset.set_same]
    rfl
  have hone : getDoubleFromObject plainZsetEnv (.raw [49]) = some 1 := by decide
  have hzero : getDoubleFromObject plainZsetEnv (.raw [48]) = some 0 := by decide
  have hweights : strcaseEq (cstr (Robj.raw [119, 101, 105, 103, 104, 116, 115]).bytes)
      (str "weights") = true := by decide
  refine ⟨2, _, by decide, by decide, by decide, .cons hsource (.cons hsource .nil), ?_⟩
  change parseOptions plainZsetEnv _ .sum
    [.raw [119, 101, 105, 103, 104, 116, 115], .raw [49], .raw [48]] = _
  rw [parseOptions, if_pos ⟨Nat.le_refl 2, hweights⟩, parseWeights, getDoubleFromObjectOrReply, hone]
  dsimp only
  rw [parseWeights, getDoubleFromObjectOrReply, hzero]
  dsimp only [parseWeights, length_cons, length_nil, drop]
  rw [parseOptions]
  rfl

/-- `ZINTERSTORE t 2 a a WEIGHTS 1 0` of an infinite score: the sum of the infinity and 0, which the
second product counts as, is not stored. -/
theorem zinterstore_loses_inf :
    ∃ n x, Runs (Sees Strings.plainEnv) (zunionInterGenericCommand Strings.plainEnv plainZsetEnv
        valueTypes 0 .inter [116] (.raw [50]) twiceArgs)
        (oneKey .posInf) (.integer n) ((oneKey .posInf).set 0 [116] x) ∧
      ¬Stored .inter .sum (twice .posInf) [109] (scoreAt valueTypes x [109]) := by
  obtain ⟨n, x, hruns, hspec⟩ :=
    zunionInterGenericCommand_runs (fun _ => rfl) .inter [116] (accepted_twice .posInf)
  refine ⟨n, x, hruns, fun hstored => ?_⟩
  have hunharmed := (hspec [109]).2.mp hstored
  have hharmless := hunharmed .posInf rfl (forall_mem_singleton.mpr rfl)
  have hsum : (0 : Score ℚ) = .posInf := hharmless [] [] rfl not_mem_nil
  cases hsum

/-- `ZINTERSTORE t 2 a a WEIGHTS 1 0` of a score that is a number. -/
theorem zunionInter_stores_twice :
    ∃ n x, Runs (Sees Strings.plainEnv) (zunionInterGenericCommand Strings.plainEnv plainZsetEnv
        valueTypes 0 .inter [116] (.raw [50]) twiceArgs)
        (oneKey (.fin 2)) (.integer n) ((oneKey (.fin 2)).set 0 [116] x) ∧
      (∀ m, scoreAt valueTypes x m ≠ some .nan) ∧
      ((∀ m srcs', srcs'.Perm (twice (.fin 2)) →
          (Aggregate.sum = .sum →
            srcs' = plainZsetEnv.qsort zuiCompareByCardinality (twice (.fin 2))) →
            Stored .inter .sum srcs' m (scoreAt valueTypes x m)) ↔
        ∀ m, Unharmed .inter .sum (plainZsetEnv.qsort zuiCompareByCardinality (twice (.fin 2))) m) :=
  zunionInter_stores (fun _ => rfl) .inter [116] (accepted_twice (.fin 2))

end Redis.Zsetops
