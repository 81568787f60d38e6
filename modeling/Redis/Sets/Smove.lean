import Redis.Sets
import Redis.Strings

/-!
# Redis.Sets.Smove

`SMOVE` of `t_set.c`, which takes a member out of one set and adds it to another.
-/

namespace Redis.Sets

open Keyspace Option
open Replication (Robj)
open Strings (checkType)

/-! ## The command -/

section Smove

variable {V : Type} (env : Env) (senv : SetEnv) (set : ObjType V SetObj) (d : Nat)

/-- The source without the member; an empty set is removed from the database. -/
def storeRemoved (source : Key) (srcset : SetObj) : Cmd V Unit :=
  if setTypeSize srcset = 0 then do
    let _ ← Keyspace.dbDelete env d source
    return ()
  else updateValue d source (set.create srcset)

/-- The destination, which is created when it does not exist. -/
def dstsetOrCreate (destination : Key) (ele : Robj) : Option SetObj → Cmd V SetObj
  | some dstset => return dstset
  | none => do
    let dstset := setTypeCreate ele
    Keyspace.dbAdd env d destination (set.create dstset)
    return dstset

/-- The end of `smoveCommand`: the member was in the source, and is added to the destination. -/
def smoveAdd (destination : Key) (ele : Robj) (dstset : Option SetObj) :
    Cmd V Keyspace.Reply := do
  let dstset ← dstsetOrCreate env set d destination ele dstset
  match setTypeAdd senv dstset ele with
  | none => failure
  | some (dstset, _) =>
    updateValue d destination (set.create dstset)
    return .integer 1

/-- `smoveCommand`.  Two keys have the same object only when they are the same key. -/
def smoveCommand (source destination : Key) (member : Robj) : Cmd V Keyspace.Reply := do
  let srcset ← Keyspace.lookupKeyWrite env d source
  let dstset ← Keyspace.lookupKeyWrite env d destination
  let ele := tryObjectEncoding senv.refcount member
  match srcset with
  | none => return .integer 0
  | some v =>
    match set.checkType v, checkType set dstset with
    | none, _ => return wrongtypeerr
    | _, .error reply => return reply
    | some srcset, .ok dstset =>
      if source = destination then return .integer 1
      else
        let r := setTypeRemove srcset ele
        if r.2 then do
          storeRemoved env set d source r.1
          smoveAdd env senv set d destination ele dstset
        else return .integer 0

end Smove

/-! ## What is moved -/

/-- A key is missing, or a set. -/
def IsSet {V : Type} (set : ObjType V SetObj) (x : Option (V × Option Int)) : Prop :=
  ∀ v e, x = some (v, e) → (set.checkType v).isSome

def membersOf {V : Type} (set : ObjType V SetObj) (x : Option (V × Option Int)) :
    Finset (List UInt8) :=
  ((x.bind fun y => set.checkType y.1).map SetObj.members).getD ∅

section Members

variable {V : Type} {set : ObjType V SetObj} {v : V} {e : Option Int} {o : SetObj}
  {x : Option (V × Option Int)}

@[simp]
theorem membersOf_none : membersOf set none = ∅ := rfl

theorem membersOf_some (h : set.checkType v = some o) :
    membersOf set (some (v, e)) = o.members := by
  simp [membersOf, h]

@[simp]
theorem membersOf_create (o : SetObj) (e : Option Int) :
    membersOf set (some (set.create o, e)) = o.members :=
  membersOf_some (set.checkType_create o)

@[simp]
theorem members_setTypeCreate (value : Robj) : (setTypeCreate value).members = ∅ := by
  rw [setTypeCreate]
  split
  · rfl
  · rfl

end Members

/-! ## The steps of the command -/

section Steps

variable {V : Type} {env : Env} {set : ObjType V SetObj} {d : Nat} {key : Key} {w : View V}
  {v : V} {e : Option Int} {o : SetObj} {x : Option (V × Option Int)}

theorem storeRemoved_shows (set : ObjType V SetObj) (hS : (d, key) ∈ w.settled)
    (hsome : w.entries d key = some (v, e)) (o : SetObj) :
    ∃ x, Runs (Shows env) (storeRemoved env set d key o) w () (w.set d key x) ∧
      membersOf set x = o.members := by
  rw [storeRemoved]
  by_cases hsize : setTypeSize o = 0
  · rw [if_pos hsize]
    refine ⟨none, (dbDelete_shows hS).bind (Runs.pure () _), ?_⟩
    rw [setTypeSize_eq, Finset.card_eq_zero] at hsize
    rw [membersOf_none, hsize]
  · rw [if_neg hsize]
    exact ⟨some (set.create o, e), updateValue_shows hS hsome, membersOf_create o e⟩

/-- The object of a key that is missing or a set. -/
theorem checkType_of_isSet (hset : IsSet set x) :
    ∃ o, checkType set (x.map Prod.fst) = .ok o ∧
      membersOf set x = (o.map SetObj.members).getD ∅ ∧ (o = none ↔ x = none) := by
  cases x with
  | none => exact ⟨none, rfl, rfl, iff_of_true rfl rfl⟩
  | some y =>
    obtain ⟨o, hcheck⟩ := isSome_iff_exists.mp (hset y.1 y.2 rfl)
    refine ⟨some o, ?_, membersOf_some hcheck, iff_of_false nofun nofun⟩
    rw [map_some, checkType, hcheck]

theorem dstsetOrCreate_shows (hd : env.clusterEnabled = true → d = 0) (ele : Robj)
    {dstset : Option SetObj} (hS : (d, key) ∈ w.settled)
    (hnone : dstset = none ↔ w.entries d key = none) :
    ∃ v e o, ∃ w' : View V, Runs (Shows env) (dstsetOrCreate env set d key ele dstset) w o w' ∧
      o.members = (dstset.map SetObj.members).getD ∅ ∧ (d, key) ∈ w'.settled ∧
      w'.entries = w.entries.set d key (some (v, e)) := by
  cases dstset with
  | none =>
    have hentry := hnone.mp rfl
    exact ⟨_, _, _, _, (dbAdd_shows hS hentry hd).bind (Runs.pure _ _), members_setTypeCreate ele,
      .inl rfl, rfl⟩
  | some o =>
    obtain ⟨⟨v, e⟩, hentry⟩ := ne_none_iff_exists'.mp fun h => nomatch hnone.mpr h
    refine ⟨v, e, o, w, Runs.pure _ _, rfl, hS, ?_⟩
    rw [← hentry, Dataset.set_self]

theorem smoveAdd_shows (senv : SetEnv) (set : ObjType V SetObj)
    (hd : env.clusterEnabled = true → d = 0) (ele : Robj) {dstset : Option SetObj}
    (hS : (d, key) ∈ w.settled) (hnone : dstset = none ↔ w.entries d key = none) :
    ∃ x, ∃ w' : View V,
      Runs (Shows env) (smoveAdd env senv set d key ele dstset) w (.integer 1) w' ∧
      w'.entries = w.entries.set d key x ∧
      membersOf set x = insert ele.bytes ((dstset.map SetObj.members).getD ∅) := by
  obtain ⟨v, e, o, w₁, hcreate, hmembers, hS₁, hentries⟩ :=
    dstsetOrCreate_shows hd ele hS hnone
  obtain ⟨o', hadd, hinsert⟩ := setTypeAdd_spec senv o ele
  have hsome : w₁.entries d key = some (v, e) := by rw [hentries, Dataset.set_same]
  refine ⟨some (set.create o', e), w₁.set d key (some (set.create o', e)), hcreate.bind ?_, ?_, ?_⟩
  · rw [hadd]
    exact (updateValue_shows hS₁ hsome).bind (Runs.pure _ _)
  · rw [View.entries_set, hentries, Dataset.set_set]
  · rw [membersOf_create, hinsert, hmembers]

end Steps

/-! ## Moving one member -/

section Moving

variable {V : Type} {env : Env} {senv : SetEnv} {set : ObjType V SetObj} {d : Nat}
  {E E' : Dataset V} {source destination : Key} {member : Robj} {reply : Keyspace.Reply}

/-- The source has lost the member, and the destination has it; nothing else has changed. -/
structure MovedFrom (set : ObjType V SetObj) (d : Nat) (E : Dataset V) (source destination : Key)
    (b : List UInt8) (E' : Dataset V) : Prop where
  erased : membersOf set (E' d source) = (membersOf set (E d source)).erase b
  added : membersOf set (E' d destination) = insert b (membersOf set (E d destination))
  frame : ∀ d' key, ¬(d' = d ∧ (key = source ∨ key = destination)) → E' d' key = E d' key

/-- How the command ends. -/
inductive Smoved (set : ObjType V SetObj) (d : Nat) (E : Dataset V) (source destination : Key)
    (b : List UInt8) : Keyspace.Reply → Dataset V → Prop where
  | missing (h : E d source = none) : Smoved set d E source destination b (.integer 0) E
  | same (h : E d source ≠ none) (heq : source = destination) :
      Smoved set d E source destination b (.integer 1) E
  | refused (hne : source ≠ destination) (hmem : b ∉ membersOf set (E d source)) :
      Smoved set d E source destination b (.integer 0) E
  | moved (hne : source ≠ destination) (hmem : b ∈ membersOf set (E d source)) {E' : Dataset V}
      (h : MovedFrom set d E source destination b E') :
      Smoved set d E source destination b (.integer 1) E'

theorem smoveCommand_runs (senv : SetEnv) (hd : env.clusterEnabled = true → d = 0)
    (member : Robj) (hsrc : IsSet set (E d source)) (hdst : IsSet set (E d destination)) :
    ∃ reply E', Runs (Sees env) (smoveCommand env senv set d source destination member) E reply E' ∧
      Smoved set d E source destination member.bytes reply E' := by
  have hlookup : Runs (Shows env) (Keyspace.lookupKeyWrite env d source) ⟨E, ∅⟩
      ((E d source).map Prod.fst) (View.touch ⟨E, ∅⟩ d source) := lookupKeyWrite_shows
  have hlookup' : Runs (Shows env) (Keyspace.lookupKeyWrite env d destination)
      (View.touch ⟨E, ∅⟩ d source) ((E d destination).map Prod.fst)
      ((View.touch ⟨E, ∅⟩ d source).touch d destination) := lookupKeyWrite_shows
  generalize hw : (View.touch ⟨E, ∅⟩ d source).touch d destination = w at hlookup'
  have hentries : w.entries = E := by rw [← hw]; rfl
  have hS : (d, source) ∈ w.settled := by rw [← hw]; exact .inr (.inl rfl)
  have hS' : (d, destination) ∈ w.settled := by rw [← hw]; exact .inl rfl
  cases hentry : E d source with
  | none =>
    refine ⟨.integer 0, E, runs_sees_to w (hlookup.bind (hlookup'.bind ?_)) hentries,
      .missing hentry⟩
    rw [hentry]
    exact Runs.pure _ _
  | some x =>
    obtain ⟨v, e⟩ := x
    obtain ⟨src, hcheck⟩ := isSome_iff_exists.mp (hsrc v e hentry)
    obtain ⟨dst, hcheck', hmembers', hnone⟩ := checkType_of_isSet hdst
    have hmembers : membersOf set (E d source) = src.members := by
      rw [hentry, membersOf_some hcheck]
    by_cases hkey : source = destination
    · refine ⟨.integer 1, E, runs_sees_to w (hlookup.bind (hlookup'.bind ?_)) hentries,
        .same (by rw [hentry]; nofun) hkey⟩
      simp only [hentry, map_some, hcheck, hcheck', if_pos hkey]
      exact Runs.pure _ _
    obtain ⟨hremoved, hfound⟩ := setTypeRemove_spec src (tryObjectEncoding senv.refcount member)
    rw [bytes_tryObjectEncoding, ← hmembers] at hremoved hfound
    by_cases hmem : member.bytes ∈ membersOf set (E d source)
    · -- the destination is looked at as it was before the source has lost the member
      rw [decide_eq_true hmem] at hfound
      obtain ⟨x, hstore, hx⟩ := storeRemoved_shows set hS (hentries ▸ hentry)
        (setTypeRemove src (tryObjectEncoding senv.refcount member)).1
      have hne : ¬(d = d ∧ destination = source) := fun h => hkey h.2.symm
      have hnone' : dst = none ↔ (w.set d source x).entries d destination = none := by
        rw [View.entries_set, Dataset.set_of_ne _ _ _ _ _ _ hne, hentries, hnone]
      have hS'' : (d, destination) ∈ (w.set d source x).settled := .inr hS'
      obtain ⟨y, w', hadd, hentries', hy⟩ := smoveAdd_shows senv set hd
        (tryObjectEncoding senv.refcount member) hS'' hnone'
      rw [View.entries_set, hentries] at hentries'
      refine ⟨.integer 1, w'.entries, runs_sees_to w' (hlookup.bind (hlookup'.bind ?_)) rfl,
        .moved hkey hmem ⟨?_, ?_, ?_⟩⟩
      · simp only [hentry, map_some, hcheck, hcheck', if_neg hkey, hfound, if_true]
        exact hstore.bind hadd
      · rw [hentries', Dataset.set_of_ne _ _ _ _ _ _ fun h => hkey h.2, Dataset.set_same, hx,
          hremoved]
      · rw [hentries', Dataset.set_same, hy, hmembers', bytes_tryObjectEncoding]
      · intro d' key hother
        rw [hentries', Dataset.set_of_ne _ _ _ _ _ _ fun h => hother ⟨h.1, .inr h.2⟩,
          Dataset.set_of_ne _ _ _ _ _ _ fun h => hother ⟨h.1, .inl h.2⟩]
    · rw [decide_eq_false hmem] at hfound
      refine ⟨.integer 0, E, runs_sees_to w (hlookup.bind (hlookup'.bind ?_)) hentries,
        .refused hkey hmem⟩
      simp only [hentry, map_some, hcheck, hcheck', if_neg hkey, hfound]
      exact Runs.pure _ _

/-- The command replies 1 exactly when the member was in the source; then it is in the destination,
and not in the source unless that is the same key.  Otherwise nothing changes, and no other member
and no other key does. -/
structure MovesOne (set : ObjType V SetObj) (d : Nat) (E : Dataset V) (source destination : Key)
    (b : List UInt8) (reply : Keyspace.Reply) (E' : Dataset V) : Prop where
  reply : reply = .integer (if b ∈ membersOf set (E d source) then 1 else 0)
  added : b ∈ membersOf set (E d source) → b ∈ membersOf set (E' d destination)
  erased : b ∈ membersOf set (E d source) → source ≠ destination →
    b ∉ membersOf set (E' d source)
  refused : b ∉ membersOf set (E d source) → E' = E
  others : ∀ key, key = source ∨ key = destination → ∀ b', b' ≠ b →
    (b' ∈ membersOf set (E' d key) ↔ b' ∈ membersOf set (E d key))
  frame : ∀ d' key, ¬(d' = d ∧ (key = source ∨ key = destination)) → E' d' key = E d' key

theorem MovesOne.of_eq {b : List UInt8}
    (hreply : reply = .integer (if b ∈ membersOf set (E d source) then 1 else 0))
    (hkeys : b ∈ membersOf set (E d source) → source = destination) :
    MovesOne set d E source destination b reply E where
  reply := hreply
  added hmem := hkeys hmem ▸ hmem
  erased hmem hne := absurd (hkeys hmem) hne
  refused _ := rfl
  others _ _ _ _ := Iff.rfl
  frame _ _ _ := rfl

theorem MovedFrom.movesOne {b : List UInt8} (h : MovedFrom set d E source destination b E')
    (hne : source ≠ destination) (hmem : b ∈ membersOf set (E d source)) :
    MovesOne set d E source destination b (.integer 1) E' where
  reply := by rw [if_pos hmem]
  added _ := by rw [h.added]; exact Finset.mem_insert_self b _
  erased _ _ := by rw [h.erased]; exact Finset.notMem_erase b _
  refused hnot := absurd hmem hnot
  others key hkey b' hb' := by
    obtain rfl | rfl := hkey
    · rw [h.erased, Finset.mem_erase, and_iff_right hb']
    · rw [h.added, Finset.mem_insert, or_iff_right hb']
  frame := h.frame

/-- `SMOVE` moves exactly one member, but for a set and itself it replies 1 for every member. -/
theorem smove_moves_one_iff (senv : SetEnv) (hd : env.clusterEnabled = true → d = 0)
    (member : Robj) (hsrc : IsSet set (E d source)) (hdst : IsSet set (E d destination)) :
    ∃ reply E', Runs (Sees env) (smoveCommand env senv set d source destination member) E reply E' ∧
      (MovesOne set d E source destination member.bytes reply E' ↔
        (source = destination → E d source ≠ none →
          member.bytes ∈ membersOf set (E d source))) := by
  obtain ⟨reply, E', hruns, hends⟩ := smoveCommand_runs senv hd member hsrc hdst
  refine ⟨reply, E', hruns, ?_⟩
  cases hends with
  | missing h =>
    have hempty : member.bytes ∉ membersOf set (E d source) := by simp [h]
    exact iff_of_true (.of_eq (by rw [if_neg hempty]) fun hmem => absurd hmem hempty)
      fun _ hthere => absurd h hthere
  | same h heq =>
    constructor
    · intro hmoves _ _
      by_contra hnot
      have hreply := hmoves.reply
      rw [if_neg hnot] at hreply
      cases hreply
    · intro hmem
      exact .of_eq (by rw [if_pos (hmem heq h)]) fun _ => heq
  | refused hne hmem =>
    exact iff_of_true (.of_eq (by rw [if_neg hmem]) fun h => absurd h hmem)
      fun heq => absurd heq hne
  | moved hne hmem h => exact iff_of_true (h.movesOne hne hmem) fun _ _ => hmem

end Moving

/-! ## A set and itself -/

/-- Sets of at most 512 integers are intsets, and nothing else uses an argument. -/
def plainSetEnv : SetEnv where
  setMaxIntsetEntries := 512
  refcount _ := 1
  dictKeys d := d.entries.map Prod.fst
  dictKeys_perm _ := .refl _
  qsort _ l := l
  qsort_perm _ l := .refl l

/-- Every value is a set. -/
def onlySets : ObjType SetObj SetObj := ⟨id, some, fun _ => rfl, fun h => (Option.some.inj h).symm⟩

/-- The key `s` is an intset of 1. -/
def oneSet : Dataset SetObj :=
  Dataset.set (fun _ _ => none) 0 [115] (some (.intset (Intset.intsetNew.intsetAdd 1).1, none))

theorem isSet_onlySets (x : Option (SetObj × Option Int)) : IsSet onlySets x := fun _ _ _ => rfl

theorem notMem_oneSet : [120] ∉ membersOf onlySets (oneSet 0 [115]) := by decide

theorem oneSet_sees : ∃ s, Sees Strings.plainEnv s oneSet := by
  have hset : Runs (Shows Strings.plainEnv)
      (Keyspace.setKey Strings.plainEnv 0 [115] (SetObj.intset (Intset.intsetNew.intsetAdd 1).1))
      ⟨fun _ _ => none, ∅⟩ () _ := setKey_shows (fun _ => rfl)
  obtain ⟨s, -, hsees⟩ := runs_sees hset Strings.emptyServer Strings.emptyServer_sees
  exact ⟨s, hsees⟩

/-- `SMOVE s s x` replies 1, and `x` is not in the set. -/
theorem smove_same_key :
    ∃ s s' reply, Sees Strings.plainEnv s oneSet ∧
      (smoveCommand Strings.plainEnv plainSetEnv onlySets 0 [115] [115] (.raw [120])).run s =
        some (reply, s') ∧
      ∀ E', ¬MovesOne onlySets 0 oneSet [115] [115] [120] reply E' := by
  obtain ⟨s, hsees⟩ := oneSet_sees
  obtain ⟨reply, E', hruns, hends⟩ := smoveCommand_runs plainSetEnv (fun _ => rfl) (.raw [120])
    (isSet_onlySets (oneSet 0 [115])) (isSet_onlySets (oneSet 0 [115]))
  obtain ⟨s', hrun, -⟩ := hruns s hsees
  refine ⟨s, s', reply, hsees, hrun, fun E' hmoves => ?_⟩
  have hreply := hmoves.reply
  rw [if_neg notMem_oneSet] at hreply
  cases hends with
  | missing h =>
    rw [oneSet, Dataset.set_same] at h
    cases h
  | same _ _ => cases hreply
  | refused hne _ => exact hne rfl
  | moved hne _ _ => exact hne rfl

/-- `SMOVE s t x` replies 0 and changes nothing. -/
theorem smove_moves_one_iff_oneSet :
    ∃ reply E', Runs (Sees Strings.plainEnv)
        (smoveCommand Strings.plainEnv plainSetEnv onlySets 0 [115] [116] (.raw [120])) oneSet
        reply E' ∧
      MovesOne onlySets 0 oneSet [115] [116] [120] reply E' := by
  obtain ⟨reply, E', hruns, hiff⟩ := smove_moves_one_iff plainSetEnv (fun _ => rfl) (.raw [120])
    (isSet_onlySets (oneSet 0 [115])) (isSet_onlySets (oneSet 0 [116]))
  exact ⟨reply, E', hruns, hiff.mpr fun heq => absurd heq (by decide)⟩

end Redis.Sets
