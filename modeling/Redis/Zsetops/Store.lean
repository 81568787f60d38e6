import Redis.Zsetops.Aggregate

/-!
# Redis.Zsetops.Store

What `ZUNIONSTORE` and `ZINTERSTORE` store.  The loop of `ZINTERSTORE` does not look for a `NaN`
among the weighted scores of the sources but the first.
-/

namespace Redis.Zsetops

open Keyspace
open Replication (Robj)
open Keyed (Uniq lookup uniq_cons lookup_cons)
open Strings (getLongFromObjectOrReply)

section Results

variable {α : Type} [CommRing α] [LinearOrder α] {env : ZsetEnv α} {aggregate : Aggregate}
  {m : Bytes}

/-- The weighted scores of an element in the sources that have it, 0 for a `NaN`. -/
def weighted (srcs : List (Zsetopsrc α)) (m : Bytes) : List (Score α) :=
  srcs.filterMap fun src => (src.score m).map fun s => (src.weight * s).orZero

variable {l : List (Zsetopele × Score α)} {src0 : Zsetopsrc α} (src : Zsetopsrc α)
  (weight : Score α) (srcs : List (Zsetopsrc α)) (acc : EncDict (Score α) × Nat)

theorem weighted_cons :
    weighted (src :: srcs) m =
      match src.score m with
      | none => weighted srcs m
      | some s => (src.weight * s).orZero :: weighted srcs m := by
  rw [weighted, List.filterMap_cons]
  cases src.score m <;> rfl

theorem ne_of_mem_weighted {srcs : List (Zsetopsrc α)} {v : Score α} (h : v ∈ weighted srcs m) :
    v ≠ .nan := by
  obtain ⟨src, -, heq⟩ := List.mem_filterMap.mp h
  obtain ⟨s, -, rfl⟩ := Option.map_eq_some_iff.mp heq
  exact Score.orZero_ne _

/-! ## Union -/

theorem zunionElement_spec (zval : Zsetopele × Score α) :
    (zunionElement aggregate weight acc zval).1.toFun =
      Function.update acc.1.toFun zval.1.bytes
        (combine aggregate (acc.1.toFun zval.1.bytes) (weight * zval.2).orZero) := by
  rw [zunionElement, encDict_find, bytes_zuiObjectFromValue]
  cases acc.1.toFun zval.1.bytes with
  | none =>
    rw [← bytes_zuiObjectFromValue zval.1]
    exact (encDict_put _ _ _).1
  | some target =>
    rw [← bytes_zuiObjectFromValue zval.1]
    exact (encDict_put _ _ _).1

theorem foldl_zunionElement (huniq : Uniq Zsetopele.bytes l) (acc : EncDict (Score α) × Nat) :
    (l.foldl (zunionElement aggregate weight) acc).1.toFun m =
      match lookup Zsetopele.bytes l m with
      | none => acc.1.toFun m
      | some s => combine aggregate (acc.1.toFun m) (weight * s).orZero := by
  induction l generalizing acc with
  | nil => rfl
  | cons zval l ih =>
    obtain ⟨hnone, huniq⟩ := uniq_cons.mp huniq
    rw [List.foldl_cons, ih huniq, lookup_cons, zunionElement_spec]
    by_cases hm : zval.1.bytes = m
    · subst hm
      rw [hnone, if_pos rfl, Function.update_self]
    · rw [if_neg hm, Function.update_of_ne (Ne.symm hm)]

theorem zunionAccumulate_spec :
    (zunionAccumulate env aggregate acc srcs).1.toFun m =
      (weighted srcs m).foldl (combine aggregate) (acc.1.toFun m) := by
  induction srcs generalizing acc with
  | nil => rfl
  | cons src srcs ih =>
    obtain ⟨subject, weight⟩ := src
    rw [zunionAccumulate, weighted_cons, Zsetopsrc.score]
    cases subject with
    | none => exact ih acc
    | some subject =>
      obtain ⟨key, s⟩ := subject
      obtain ⟨huniq, hlookup⟩ := zuiNext_spec env s
      dsimp only [Option.bind_some]
      rw [zuiLength_eq env, ← hlookup]
      split
      next hempty =>
        rw [List.eq_nil_of_length_eq_zero hempty]
        exact ih acc
      next =>
        rw [ih, foldl_zunionElement weight huniq]
        cases lookup Zsetopele.bytes (zuiNext env s) m <;> rfl

omit [CommRing α] in
/-- New elements are added one after the other. -/
theorem foldlM_insert {l : List (Robj × Score α)} (huniq : Uniq Robj.bytes l) (zs : Zset α)
    (hnew : ∀ e ∈ l, zs.dict.toFun e.1.bytes = none) :
    ∃ zs', l.foldlM (fun zs e => zs.insert e.2 e.1) zs = some zs' ∧
      ∀ m, zs'.dict.toFun m = (lookup Robj.bytes l m).or (zs.dict.toFun m) := by
  induction l generalizing zs with
  | nil => exact ⟨zs, rfl, fun m => rfl⟩
  | cons e l ih =>
    obtain ⟨hnone, huniq⟩ := uniq_cons.mp huniq
    obtain ⟨zs₁, hinsert, hfun⟩ := zs.insert_spec e.2 (hnew e List.mem_cons_self)
    obtain ⟨zs', hrest, hfun'⟩ := ih huniq zs₁ fun e' he' => by
      have hne := Keyed.lookup_eq_none_iff.mp hnone e' he'
      rw [hfun, Function.update_of_ne hne]
      exact hnew e' (List.mem_cons_of_mem e he')
    refine ⟨zs', by rw [List.foldlM_cons, hinsert]; exact hrest, fun m => ?_⟩
    rw [hfun', hfun, lookup_cons]
    by_cases hm : e.1.bytes = m
    · subst hm
      rw [hnone, if_pos rfl, Function.update_self]
      rfl
    · rw [if_neg hm, Function.update_of_ne (Ne.symm hm)]

theorem zunion_spec (env : ZsetEnv α) (aggregate : Aggregate) (srcs : List (Zsetopsrc α)) :
    ∃ zs len, zunion env aggregate srcs = some (zs, len) ∧
      ∀ m, zs.dict.toFun m = (weighted srcs m).foldl (combine aggregate) none := by
  have haccumulate : ∀ m, (zunionAccumulate env aggregate (.empty, 0) srcs).1.toFun m =
      (weighted srcs m).foldl (combine aggregate) none := fun m => zunionAccumulate_spec srcs _
  rw [zunion]
  generalize zunionAccumulate env aggregate (.empty, 0) srcs = accumulator at haccumulate
  obtain ⟨accumulator, len⟩ := accumulator
  have hperm := env.dictEntries_perm accumulator
  obtain ⟨zs, hinsert, hfun⟩ := foldlM_insert (accumulator.uniq.perm hperm.symm) .empty
    fun e he => rfl
  refine ⟨zs, len, by dsimp only; rw [hinsert]; rfl, fun m => ?_⟩
  have hentries := congrFun (Keyed.lookup_perm accumulator.uniq hperm.symm) m
  rw [hfun, ← haccumulate]
  exact (congrArg (Option.or · none) hentries).trans Option.or_none

/-! ## Intersection -/

/-- The weighted scores as the loop of `ZINTERSTORE` computes them. -/
def products (srcs : List (Zsetopsrc α)) (m : Bytes) : List (Score α) :=
  srcs.filterMap fun src => (src.score m).map fun s => s * src.weight

/-- The score of an element with a score of the first source, if the other sources have it, too. -/
def interScore (aggregate : Aggregate) (srcs : List (Zsetopsrc α)) (m : Bytes)
    (score : Score α) : Option (Score α) :=
  if ∀ src ∈ srcs, (src.score m).isSome then
    some (aggregateAll aggregate score (products srcs m))
  else none

theorem interScore_cons (score : Score α) :
    interScore aggregate (src :: srcs) m score =
      match src.score m with
      | some value =>
        interScore aggregate srcs m (zunionInterAggregate score (value * src.weight) aggregate)
      | none => none := by
  rw [interScore]
  simp only [List.forall_mem_cons]
  cases hscore : src.score m with
  | none => exact if_neg fun h => Bool.false_ne_true h.1
  | some value =>
    rw [products, List.filterMap_cons, hscore]
    simp only [Option.isSome_some, true_and]
    rfl

/-- The loop over the sources but the first, of which some may be the same. -/
theorem zinterScore_eq {zval : Zsetopele × Score α} {srcs : List (Zsetopsrc α)}
    (hsame : ∀ src ∈ srcs, src.subject.map Prod.fst = src0.subject.map Prod.fst →
      src.score zval.1.bytes = some zval.2) (score : Score α) :
    zinterScore src0 zval aggregate score srcs = interScore aggregate srcs zval.1.bytes score := by
  induction srcs generalizing score with
  | nil => rfl
  | cons src srcs ih =>
    have hrest := ih fun src' hsrc' => hsame src' (List.mem_cons_of_mem src hsrc')
    rw [zinterScore, zuiFind_eq, interScore_cons]
    split
    next heq =>
      rw [hsame src List.mem_cons_self heq]
      exact hrest _
    next =>
      cases src.score zval.1.bytes with
      | none => rfl
      | some value => exact hrest _

theorem zinterElements_spec (aggregate : Aggregate) {srcs : List (Zsetopsrc α)}
    (huniq : Uniq Zsetopele.bytes l)
    (hsame : ∀ zval ∈ l, ∀ src ∈ srcs, src.subject.map Prod.fst = src0.subject.map Prod.fst →
      src.score zval.1.bytes = some zval.2) (zs : Zset α) (len : Nat)
    (hnew : ∀ zval ∈ l, zs.dict.toFun zval.1.bytes = none) :
    ∃ zs' len', zinterElements src0 srcs aggregate (zs, len) l = some (zs', len') ∧
      ∀ m, zs'.dict.toFun m =
        match lookup Zsetopele.bytes l m with
        | some s => interScore aggregate srcs m (src0.weight * s).orZero
        | none => zs.dict.toFun m := by
  induction l generalizing zs len with
  | nil => exact ⟨zs, len, rfl, fun m => rfl⟩
  | cons zval l ih =>
    obtain ⟨hnone, huniq⟩ := uniq_cons.mp huniq
    have hscore : zinterScore src0 zval aggregate (src0.weight * zval.2).orZero srcs =
        interScore aggregate srcs zval.1.bytes (src0.weight * zval.2).orZero :=
      zinterScore_eq (hsame zval List.mem_cons_self) _
    have hsame' : ∀ zval' ∈ l, ∀ src ∈ srcs,
        src.subject.map Prod.fst = src0.subject.map Prod.fst →
          src.score zval'.1.bytes = some zval'.2 :=
      fun zval' hmem => hsame zval' (List.mem_cons_of_mem zval hmem)
    rw [zinterElements, hscore]
    cases hinter : interScore aggregate srcs zval.1.bytes (src0.weight * zval.2).orZero with
    | none =>
      obtain ⟨zs', len', hrest, hfun⟩ := ih huniq hsame' zs len fun zval' hmem =>
        hnew zval' (List.mem_cons_of_mem zval hmem)
      refine ⟨zs', len', hrest, fun m => ?_⟩
      rw [hfun, lookup_cons]
      by_cases hm : zval.1.bytes = m
      · subst hm
        rw [hnone, if_pos rfl]
        dsimp only
        rw [hinter, hnew zval List.mem_cons_self]
      · rw [if_neg hm]
    | some score =>
      have habsent : zs.dict.toFun (zuiObjectFromValue zval.1).bytes = none := by
        rw [bytes_zuiObjectFromValue]
        exact hnew zval List.mem_cons_self
      obtain ⟨zs₁, hinsert, hfun₁⟩ := zs.insert_spec score habsent
      rw [bytes_zuiObjectFromValue] at hfun₁
      obtain ⟨zs', len', hrest, hfun⟩ := ih huniq hsame' zs₁
        (maxelelen (zuiObjectFromValue zval.1) len) fun zval' hmem => by
          have hne := Keyed.lookup_eq_none_iff.mp hnone zval' hmem
          rw [hfun₁, Function.update_of_ne hne]
          exact hnew zval' (List.mem_cons_of_mem zval hmem)
      refine ⟨zs', len', ?_, fun m => ?_⟩
      · dsimp only
        rw [hinsert]
        exact hrest
      · rw [hfun, lookup_cons, hfun₁]
        by_cases hm : zval.1.bytes = m
        · subst hm
          rw [hnone, if_pos rfl, Function.update_self]
          exact hinter.symm
        · rw [if_neg hm, Function.update_of_ne (Ne.symm hm)]

/-- Two sources with the same key have the same subject. -/
def Consistent (srcs : List (Zsetopsrc α)) : Prop :=
  ∀ s ∈ srcs.map Zsetopsrc.subject, ∀ s' ∈ srcs.map Zsetopsrc.subject,
    s.map Prod.fst = s'.map Prod.fst → s = s'

theorem zinter_spec (env : ZsetEnv α) (aggregate : Aggregate) {srcs : List (Zsetopsrc α)}
    (h : Consistent (src0 :: srcs)) :
    ∃ zs len, zinter env aggregate (src0 :: srcs) = some (zs, len) ∧
      ∀ m, zs.dict.toFun m =
        (src0.score m).bind fun s => interScore aggregate srcs m (src0.weight * s).orZero := by
  obtain ⟨subject, weight⟩ := src0
  rw [zinter]
  cases subject with
  | none => exact ⟨_, _, rfl, fun m => rfl⟩
  | some subject =>
    obtain ⟨key, s⟩ := subject
    obtain ⟨huniq, hlookup⟩ := zuiNext_spec env s
    dsimp only
    rw [zuiLength_eq env]
    split
    next =>
      have hsame : ∀ zval ∈ zuiNext env s, ∀ src ∈ srcs,
          src.subject.map Prod.fst = (⟨some (key, s), weight⟩ : Zsetopsrc α).subject.map Prod.fst →
            src.score zval.1.bytes = some zval.2 := by
        intro zval hmem src hsrc heq
        have hsubject : src.subject = some (key, s) :=
          h _ (List.mem_map_of_mem (List.mem_cons_of_mem _ hsrc)) _
            (List.mem_map_of_mem List.mem_cons_self) heq
        rw [Zsetopsrc.score, hsubject, Option.bind_some, ← hlookup, Keyed.lookup_eq_some_iff huniq]
        exact ⟨zval.1, hmem, rfl⟩
      obtain ⟨zs, len, hzs, hfun⟩ :=
        zinterElements_spec aggregate huniq hsame .empty 0 fun zval hmem => rfl
      refine ⟨zs, len, hzs, fun m => ?_⟩
      rw [hfun, Zsetopsrc.score, Option.bind_some, ← hlookup]
      cases lookup Zsetopele.bytes (zuiNext env s) m <;> rfl
    next hempty =>
      refine ⟨_, _, rfl, fun m => ?_⟩
      rw [Zsetopsrc.score, Option.bind_some, ← hlookup,
        List.eq_nil_of_length_eq_zero (Nat.eq_zero_of_not_pos hempty)]
      rfl

end Results

end Redis.Zsetops
