import Redis.Zsetops

/-!
# Redis.Zsetops.Aggregate

What the sources have of an element, and what is made of the scores.
-/

namespace Redis.Zsetops

open List

open Replication (Robj)
open Keyed (Uniq lookup uniq_cons lookup_cons lookup_eq_some_iff)

/-! ## Elements and scores -/

/-- The bytes of an element. -/
def Zsetopele.bytes : Zsetopele → Bytes
  | ell v => ll2string v.toInt
  | ele o => o.bytes
  | estr s => s

theorem bytes_zuiObjectFromValue (val : Zsetopele) : (zuiObjectFromValue val).bytes = val.bytes := by
  cases val with
  | ell v =>
    obtain ⟨hlo, hhi⟩ := range_toInt v
    exact bytes_createStringObjectFromLongLong hlo hhi
  | ele o => rfl
  | estr s => rfl

theorem zuiLongLongFromValue_eq (val : Zsetopele) :
    zuiLongLongFromValue val = isObjectRepresentableAsLongLong (zuiObjectFromValue val) := by
  cases val with
  | ell v => exact congrArg (fun n : Int64 => some n.toInt) (Int64.ofInt_toInt v).symm
  | ele o => rfl
  | estr s => rfl

section Sources

variable {α : Type} [Ring α]

/-- The score of an element in a subject. -/
def Subject.score : Subject α → Bytes → Option (Score α)
  | .set o, m => if m ∈ o.members then some 1 else none
  | .zset o, m => o.toFun m

/-- The score of an element in a source. -/
def Zsetopsrc.score (op : Zsetopsrc α) (m : Bytes) : Option (Score α) :=
  op.subject.bind fun s => s.2.score m

theorem zuiFind_eq (op : Zsetopsrc α) (val : Zsetopele) : zuiFind op val = op.score val.bytes := by
  have hmember (o : SetObj) : setTypeIsMember o (zuiObjectFromValue val) = true ↔
      val.bytes ∈ o.members := by
    rw [setTypeIsMember_iff, bytes_zuiObjectFromValue]
  rw [zuiFind, Zsetopsrc.score]
  match hop : op.subject with
  | none => rfl
  | some (key, .set (.intset is)) =>
    have hfind := hmember (.intset is)
    rw [setTypeIsMember, ← zuiLongLongFromValue_eq] at hfind
    dsimp only [Option.bind_some, Subject.score]
    simp only [← hfind]
    cases zuiLongLongFromValue val with
    | none => rfl
    | some ell => rfl
  | some (key, .set (.ht dict)) =>
    have hfind := hmember (.ht dict)
    rw [setTypeIsMember] at hfind
    dsimp only [Option.bind_some, Subject.score]
    simp only [← hfind]
  | some (key, .zset (.ziplist zl)) =>
    dsimp only [Option.bind_some, Subject.score, ZsetObj.toFun]
    rw [Zzl.zzlFind_eq, bytes_zuiObjectFromValue]
  | some (key, .zset (.skiplist zs)) =>
    dsimp only [Option.bind_some, Subject.score, ZsetObj.toFun]
    rw [encDict_find, bytes_zuiObjectFromValue]

/-- An iteration returns every element once, with its score. -/
theorem zuiNext_spec (env : ZsetEnv α) (s : Subject α) :
    Uniq Zsetopele.bytes (zuiNext env s) ∧ lookup Zsetopele.bytes (zuiNext env s) = s.score := by
  match s with
  | .set (.intset is) =>
    have hbytes : ((zuiNext env (.set (.intset is))).map fun e => e.1.bytes) =
        is.contents.map ll2string := by
      rw [zuiNext, List.map_map]
      refine map_congr_left fun v hv => ?_
      obtain ⟨hlo, hhi⟩ := is.range v hv
      rw [Function.comp_apply, Zsetopele.bytes, toInt_ofInt_of_range hlo hhi]
    have huniq : Uniq Zsetopele.bytes (zuiNext env (.set (.intset is))) := by
      rw [Uniq, hbytes]
      exact is.nodup.map_on fun v hv w hw heq => ll2string_injective (is.range v hv) (is.range w hw) heq
    refine ⟨huniq, ?_⟩
    funext m
    rw [Subject.score]
    split
    next hmem =>
      rw [SetObj.members, List.mem_toFinset, ← hbytes, mem_map] at hmem
      obtain ⟨e, he, rfl⟩ := hmem
      obtain ⟨v, -, rfl⟩ := mem_map.mp he
      exact (lookup_eq_some_iff huniq).mpr ⟨_, he, rfl⟩
    next hmem =>
      rw [Keyed.lookup_eq_none_iff]
      rintro e he rfl
      exact hmem (by rw [SetObj.members, List.mem_toFinset, ← hbytes]; exact mem_map_of_mem he)
  | .set (.ht d) =>
    have huniq : Uniq Robj.bytes (env.dictEntries d) := d.uniq.perm (env.dictEntries_perm d).symm
    refine ⟨huniq.map fun e _ => rfl, ?_⟩
    funext m
    have hentries : lookup Robj.bytes (env.dictEntries d) m = d.toFun m :=
      congrFun (Keyed.lookup_perm d.uniq (env.dictEntries_perm d).symm) m
    have hmap : lookup Zsetopele.bytes (zuiNext env (.set (.ht d))) m =
        (lookup Robj.bytes (env.dictEntries d) m).map fun _ => 1 :=
      Keyed.lookup_map (fun _ _ => rfl) fun _ _ => rfl
    rw [hmap, hentries, Subject.score]
    simp only [mem_members_ht]
    cases d.toFun m <;> rfl
  | .zset (.ziplist zl) =>
    have hbytes : ∀ e ∈ zl.pairs, (ziplistEle e.1).bytes = e.1.bytes := by
      rintro ⟨v, score⟩ he
      have hvalid := zl.valid _ he
      cases v with
      | str s => rfl
      | int v => exact congrArg ll2string (toInt_ofInt_of_range hvalid.1 hvalid.2)
    refine ⟨zl.uniq.map hbytes, ?_⟩
    funext m
    have hmap : lookup Zsetopele.bytes (zuiNext env (.zset (.ziplist zl))) m =
        (lookup ZipValue.bytes zl.pairs m).map id := Keyed.lookup_map hbytes fun _ _ => rfl
    rw [hmap, Option.map_id_fun]
    rfl
  | .zset (.skiplist zs) =>
    have huniq : Uniq Robj.bytes zs.zsl := zs.dict.uniq.perm zs.perm.symm
    refine ⟨huniq.map fun e _ => rfl, ?_⟩
    funext m
    have hnodes : lookup Robj.bytes zs.zsl m = zs.dict.toFun m := congrFun zs.lookup_zsl m
    have hmap : lookup Zsetopele.bytes (zuiNext env (.zset (.skiplist zs))) m =
        (lookup Robj.bytes zs.zsl m).map id :=
      Keyed.lookup_map (fun _ _ => rfl) fun _ _ => rfl
    rw [hmap, hnodes, Option.map_id_fun]
    rfl

theorem zuiLength_eq (env : ZsetEnv α) (key : Bytes) (s : Subject α) (weight : Score α) :
    zuiLength ⟨some (key, s), weight⟩ = (zuiNext env s).length := by
  match s with
  | .set (.intset is) => exact (length_map _).symm
  | .set (.ht d) => exact (env.dictEntries_perm d).length_eq.symm.trans (length_map _).symm
  | .zset (.ziplist zl) => exact (length_map _).symm
  | .zset (.skiplist zs) => exact (length_map _).symm

end Sources

/-! ## Better scores -/

section Takes

variable {α : Type} [LinearOrder α] {aggregate : Aggregate} {x y z : Score α}

/-- Whether `MIN` or `MAX` takes a score in place of another. -/
def Aggregate.takes (aggregate : Aggregate) (val target : Score α) : Bool :=
  match aggregate with
  | sum => false
  | min => val.lt target
  | max => target.lt val

theorem takes_irrefl (x : Score α) : aggregate.takes x x = false := by
  cases aggregate with
  | sum => rfl
  | min => exact Score.lt_irrefl x
  | max => exact Score.lt_irrefl x

theorem takes_trans (hxy : aggregate.takes x y = true) (hyz : aggregate.takes y z = true) :
    aggregate.takes x z = true := by
  cases aggregate with
  | sum => exact hxy
  | min => exact Score.lt_trans hxy hyz
  | max => exact Score.lt_trans hyz hxy

theorem takes_nan (x : Score α) : aggregate.takes .nan x = false := by
  cases aggregate with
  | sum => rfl
  | min => exact Score.nan_lt x
  | max => exact Score.lt_nan x

/-- What is taken in place of a score is taken in place of every one that is not better. -/
theorem takes_of_takes_of_not_takes (hy : y ≠ .nan) (hz : z ≠ .nan)
    (hxy : aggregate.takes x y = true) (hzy : aggregate.takes z y = false) :
    aggregate.takes x z = true := by
  cases aggregate with
  | sum => exact hxy
  | min => exact Score.lt_of_lt_of_not_lt hy hz hxy hzy
  | max => exact Score.lt_of_not_lt_of_lt hz hy hzy hxy

end Takes

/-! ## Sums -/

/-- The last of some scores that is no number. -/
theorem exists_last_nan {α : Type} {values : List (Score α)} (h : .nan ∈ values) :
    ∃ before after, values = before ++ .nan :: after ∧ .nan ∉ after := by
  obtain ⟨after, before, heq, hnot⟩ := eq_append_cons_of_mem (mem_reverse.mpr h)
  refine ⟨before.reverse, after.reverse, ?_, fun hmem => hnot (mem_reverse.mp hmem)⟩
  rw [← reverse_reverse values, heq, reverse_append, reverse_cons]
  exact append_assoc ..

section Sums

variable {α : Type} [Ring α]

/-- The sum of scores and one more, 0 for a `NaN`. -/
def total (score : Score α) (values : List (Score α)) : Score α :=
  values.foldl (fun t v => (t + v).orZero) score

variable (score : Score α) (before after : List (Score α))

theorem total_append :
    total score (before ++ after) = total (total score before) after := foldl_append

theorem map_orZero {values : List (Score α)} (h : .nan ∉ values) :
    values.map Score.orZero = values := by
  refine (map_congr_left fun v hv => ?_).trans (map_id _)
  refine Score.orZero_of_ne ?_
  rintro rfl
  exact h hv

theorem total_nan : total score (before ++ .nan :: after) = total 0 after := by
  rw [total_append, total, foldl_cons, Score.add_nan]
  rfl

end Sums

/-! ## Aggregation -/

section Aggregation

variable {α : Type} [CommRing α] [LinearOrder α]

/-- The score of one more source, if there is one already or not. -/
def combine (aggregate : Aggregate) (target : Option (Score α)) (val : Score α) : Option (Score α) :=
  match target with
  | none => some val
  | some target => some (zunionInterAggregate target val aggregate)

/-- What is stored for the scores of an element. -/
def Aggregated (aggregate : Aggregate) (values : List (Score α)) (r : Score α) : Prop :=
  match aggregate with
  | .sum => r = total 0 values
  | .min => r ∈ values ∧ ∀ v ∈ values, v.lt r = false
  | .max => r ∈ values ∧ ∀ v ∈ values, r.lt v = false

/-- One score after the other. -/
def aggregateAll (aggregate : Aggregate) (score : Score α) (values : List (Score α)) : Score α :=
  values.foldl (fun target val => zunionInterAggregate target val aggregate) score

variable {aggregate : Aggregate} {values : List (Score α)} {score target r : Score α}

theorem zunionInterAggregate_eq (hne : aggregate ≠ .sum) (target val : Score α) :
    zunionInterAggregate target val aggregate =
      if aggregate.takes val target then val else target := by
  cases aggregate with
  | sum => exact absurd rfl hne
  | min => rfl
  | max => rfl

theorem aggregated_iff_takes (hne : aggregate ≠ .sum) :
    Aggregated aggregate values r ↔ r ∈ values ∧ ∀ v ∈ values, aggregate.takes v r = false := by
  cases aggregate with
  | sum => exact absurd rfl hne
  | min => rfl
  | max => rfl

theorem zunionInterAggregate_ne (h : target ≠ .nan) (val : Score α) :
    zunionInterAggregate target val aggregate ≠ .nan := by
  by_cases hsum : aggregate = .sum
  · subst hsum
    exact Score.orZero_ne _
  · rw [zunionInterAggregate_eq hsum]
    split
    next htakes =>
      rintro rfl
      rw [takes_nan] at htakes
      cases htakes
    next => exact h

theorem aggregateAll_ne (aggregate : Aggregate) (h : score ≠ .nan) (values : List (Score α)) :
    aggregateAll aggregate score values ≠ .nan := by
  induction values generalizing score with
  | nil => exact h
  | cons v values ih => exact ih (zunionInterAggregate_ne h v)

theorem Aggregated.step (val : Score α) (h : Aggregated aggregate values target) :
    Aggregated aggregate (values ++ [val]) (zunionInterAggregate target val aggregate) := by
  by_cases hsum : aggregate = .sum
  · subst hsum
    rw [Aggregated, total] at h ⊢
    rw [foldl_append, ← h]
    rfl
  · rw [aggregated_iff_takes hsum] at h ⊢
    obtain ⟨hmem, hbest⟩ := h
    rw [zunionInterAggregate_eq hsum]
    split
    next htakes =>
      refine ⟨mem_append_right _ (mem_singleton_self val), fun v hv => ?_⟩
      rcases mem_append.mp hv with hv | hv
      · refine Bool.eq_false_iff.mpr fun hbetter => ?_
        have hv' := hbest v hv
        rw [takes_trans hbetter htakes] at hv'
        cases hv'
      · rw [mem_singleton.mp hv]
        exact takes_irrefl val
    next htakes =>
      refine ⟨mem_append_left _ hmem, fun v hv => ?_⟩
      rcases mem_append.mp hv with hv | hv
      · exact hbest v hv
      · rw [mem_singleton.mp hv]
        exact Bool.eq_false_iff.mpr htakes

theorem Aggregated.foldl (rest : List (Score α)) (h : Aggregated aggregate values target) :
    Aggregated aggregate (values ++ rest) (aggregateAll aggregate target rest) := by
  induction rest generalizing values target with
  | nil =>
    rw [append_nil]
    exact h
  | cons v rest ih =>
    rw [append_cons]
    exact ih (h.step v)

theorem Aggregated.single (aggregate : Aggregate) {v : Score α} (hv : v ≠ .nan) :
    Aggregated aggregate [v] v := by
  by_cases hsum : aggregate = .sum
  · subst hsum
    rw [Aggregated, total, foldl_cons, foldl_nil, Score.zero_add, Score.orZero_of_ne hv]
  · rw [aggregated_iff_takes hsum]
    refine ⟨mem_singleton_self v, fun w hw => ?_⟩
    rw [mem_singleton.mp hw]
    exact takes_irrefl v

theorem Aggregated.perm {values' : List (Score α)} (hne : aggregate ≠ .sum)
    (hperm : values.Perm values') (h : Aggregated aggregate values r) :
    Aggregated aggregate values' r := by
  rw [aggregated_iff_takes hne] at h ⊢
  exact ⟨hperm.mem_iff.mp h.1, fun v hv => h.2 v (hperm.mem_iff.mpr hv)⟩

/-! ## Scores that are not numbers -/

/-- Scores behind the first of which each `NaN` may count as 0: a sum that starts again behind the
last one is the same, and another score is on the side of 0 that `MIN` or `MAX` prefers. -/
def Harmless (aggregate : Aggregate) (score : Score α) (values : List (Score α)) : Prop :=
  match aggregate with
  | .sum => ∀ before after, values = before ++ .nan :: after → .nan ∉ after →
      total 0 after = total (total score (before.map Score.orZero)) after
  | .min => .nan ∈ values → ∃ v ∈ score :: values, v ≠ .nan ∧ (0 : Score α).lt v = false
  | .max => .nan ∈ values → ∃ v ∈ score :: values, v ≠ .nan ∧ v.lt 0 = false

theorem harmless_iff_takes (hne : aggregate ≠ .sum) :
    Harmless aggregate score values ↔
      (.nan ∈ values → ∃ v ∈ score :: values, v ≠ .nan ∧ aggregate.takes 0 v = false) := by
  cases aggregate with
  | sum => exact absurd rfl hne
  | min => rfl
  | max => rfl

theorem total_map_orZero (hscore : score ≠ .nan) (before : List (Score α)) {after : List (Score α)}
    (hafter : .nan ∉ after) :
    total score ((before ++ .nan :: after).map Score.orZero) =
      total (total score (before.map Score.orZero)) after := by
  have hbefore : total score (before.map Score.orZero) ≠ .nan :=
    aggregateAll_ne .sum hscore _
  rw [map_append, total_append, map_cons, map_orZero hafter, Score.orZero_nan]
  generalize total score (before.map Score.orZero) = t at hbefore
  rw [total, foldl_cons, Score.add_zero, Score.orZero_of_ne hbefore]
  rfl

theorem aggregated_sum_iff (hscore : score ≠ .nan) :
    Aggregated .sum (score :: values.map Score.orZero) (total score values) ↔
      total score values = total score (values.map Score.orZero) := by
  rw [Aggregated, total.eq_def 0, foldl_cons, Score.zero_add, Score.orZero_of_ne hscore]
  rfl

/-- `MIN` and `MAX` pass over each `NaN`. -/
theorem aggregateAll_filter (hne : aggregate ≠ .sum) (score : Score α) (values : List (Score α)) :
    aggregateAll aggregate score values =
      aggregateAll aggregate score (values.filter fun v => !v.isnan) := by
  induction values generalizing score with
  | nil => rfl
  | cons v values ih =>
    by_cases hv : v = .nan
    · subst hv
      have hpass : zunionInterAggregate score .nan aggregate = score := by
        rw [zunionInterAggregate_eq hne, takes_nan, if_neg Bool.false_ne_true]
      have hskip := ih score
      rw [aggregateAll, foldl_cons, hpass]
      exact hskip
    · have hnum : v.isnan = false := Bool.eq_false_iff.mpr (mt Score.isnan_iff.mp hv)
      have hfilter : (v :: values).filter (fun v => !v.isnan) =
          v :: values.filter fun v => !v.isnan := by
        rw [filter_cons, hnum]
        rfl
      rw [hfilter]
      exact ih _

/-- The scores one after the other are what is stored if each `NaN` counts as 0, exactly if none of
them does harm. -/
theorem aggregated_iff_harmless (aggregate : Aggregate) (hscore : score ≠ .nan)
    (values : List (Score α)) :
    Aggregated aggregate (score :: values.map Score.orZero) (aggregateAll aggregate score values) ↔
      Harmless aggregate score values := by
  by_cases hsum : aggregate = .sum
  · subst hsum
    refine (aggregated_sum_iff hscore).trans ⟨?_, fun h => ?_⟩
    · rintro heq before after rfl hafter
      rwa [total_nan, total_map_orZero hscore before hafter] at heq
    · by_cases hnan : .nan ∈ values
      · obtain ⟨before, after, rfl, hafter⟩ := exists_last_nan hnan
        rw [total_nan, total_map_orZero hscore before hafter]
        exact h before after rfl hafter
      · rw [map_orZero hnan]
  · have hbest := (Aggregated.single aggregate hscore).foldl
      (values.filter fun v => !v.isnan)
    rw [← aggregateAll_filter hsum, aggregated_iff_takes hsum] at hbest
    have hne : aggregateAll aggregate score values ≠ .nan := aggregateAll_ne aggregate hscore values
    generalize aggregateAll aggregate score values = r at hbest hne
    obtain ⟨hmem, hbest⟩ := hbest
    have hnum {v : Score α} : v ∈ [score] ++ values.filter (fun v => !v.isnan) ↔
        v ∈ score :: values ∧ v ≠ .nan := by
      rw [singleton_append, mem_cons, mem_cons, mem_filter, Bool.not_eq_true',
        Bool.eq_false_iff, Ne, Score.isnan_iff]
      refine ⟨?_, ?_⟩
      · rintro (rfl | hv)
        · exact ⟨.inl rfl, hscore⟩
        · exact ⟨.inr hv.1, hv.2⟩
      · rintro ⟨rfl | hv, hv'⟩
        · exact .inl rfl
        · exact .inr ⟨hv, hv'⟩
    rw [aggregated_iff_takes hsum, harmless_iff_takes hsum]
    refine ⟨fun h hnan => ?_, fun h => ⟨?_, fun v hv => ?_⟩⟩
    · have hzero : (0 : Score α) ∈ score :: values.map Score.orZero :=
        mem_cons_of_mem _ (mem_map.mpr ⟨_, hnan, Score.orZero_nan⟩)
      exact ⟨r, (hnum.mp hmem).1, hne, h.2 0 hzero⟩
    · rcases mem_cons.mp (hnum.mp hmem).1 with rfl | hr
      · exact mem_cons_self
      · exact mem_cons_of_mem _ (mem_map.mpr ⟨r, hr, Score.orZero_of_ne hne⟩)
    · rcases mem_cons.mp hv with rfl | hv
      · exact hbest v (hnum.mpr ⟨mem_cons_self, hscore⟩)
      · obtain ⟨v', hv', rfl⟩ := mem_map.mp hv
        by_cases hnan : v' = .nan
        · subst hnan
          obtain ⟨w, hw, hwne, hzero⟩ := h hv'
          refine Bool.eq_false_iff.mpr fun hbetter => ?_
          rw [Score.orZero_nan] at hbetter
          have hfirst := takes_of_takes_of_not_takes hne hwne hbetter (hbest w (hnum.mpr ⟨hw, hwne⟩))
          rw [hfirst] at hzero
          cases hzero
        · rw [Score.orZero_of_ne hnan]
          exact hbest v' (hnum.mpr ⟨mem_cons_of_mem _ hv', hnan⟩)

end Aggregation

end Redis.Zsetops
