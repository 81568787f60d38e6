import Redis.Intset
import Redis.Objects

/-!
# Redis.Sets

Set objects in their two encodings, with the functions of `t_set.c` that hide the encoding.  Each
of them is a function of the members, the bytes of the elements.
-/

namespace Redis

open List

open Replication (Robj)

/-! ## The functions -/

/-- A set object: an intset, or the keys of a dictionary. -/
inductive SetObj where
  | intset (is : Intset)
  | ht (d : EncDict Unit)

/-- What the functions depend on besides their arguments: `server.set_max_intset_entries`, how
often an argument is used elsewhere, in which order an iterator returns the keys of a dictionary,
and `qsort`, which leaves open how it orders what the comparison does not. -/
structure SetEnv where
  setMaxIntsetEntries : Nat
  refcount : Robj → Nat
  dictKeys : EncDict Unit → List Robj
  dictKeys_perm : ∀ d, (dictKeys d).Perm (d.entries.map Prod.fst)
  qsort : ∀ {α : Type}, (α → α → Int) → List α → List α
  qsort_perm : ∀ {α : Type} (cmp : α → α → Int) (l : List α), (qsort cmp l).Perm l

def setTypeCreate (value : Robj) : SetObj :=
  if (isObjectRepresentableAsLongLong value).isSome then .intset .intsetNew else .ht .empty

/-- `setTypeConvert` to `REDIS_ENCODING_HT`; `none` is the failed assertion. -/
def setTypeConvert (is : Intset) : Option (EncDict Unit) :=
  is.contents.foldlM (fun d intele => d.add (createStringObjectFromLongLong intele) ()) .empty

/-- `setTypeAdd`, with its result. -/
def setTypeAdd (env : SetEnv) (subject : SetObj) (value : Robj) : Option (SetObj × Bool) :=
  match subject with
  | .ht d =>
    match d.add value () with
    | some d => some (.ht d, true)
    | none => some (.ht d, false)
  | .intset is =>
    match isObjectRepresentableAsLongLong value with
    | some llval =>
      let r := is.intsetAdd (Int64.ofInt llval)
      if r.2 then
        if r.1.intsetLen > env.setMaxIntsetEntries then
          (setTypeConvert r.1).map fun d => (.ht d, true)
        else some (.intset r.1, true)
      else some (.intset r.1, false)
    | none => do
      let d ← setTypeConvert is
      let d ← d.add value ()
      return (.ht d, true)

/-- `setTypeRemove`, with its result. -/
def setTypeRemove (setobj : SetObj) (value : Robj) : SetObj × Bool :=
  match setobj with
  | .ht d =>
    match d.delete value with
    | some d => (.ht d, true)
    | none => (.ht d, false)
  | .intset is =>
    match isObjectRepresentableAsLongLong value with
    | some llval =>
      let r := is.intsetRemove (Int64.ofInt llval)
      (.intset r.1, r.2)
    | none => (.intset is, false)

def setTypeIsMember (subject : SetObj) (value : Robj) : Bool :=
  match subject with
  | .ht d => (d.find value).isSome
  | .intset is =>
    match isObjectRepresentableAsLongLong value with
    | some llval => is.intsetFind (Int64.ofInt llval)
    | none => false

def setTypeSize : SetObj → Nat
  | .ht d => d.size
  | .intset is => is.intsetLen

/-- An element as `setTypeNext` returns it. -/
inductive SetEle where
  | objele (o : Robj)
  | llele (n : Int64)

/-- What `setTypeNext` returns until the end of an iteration. -/
def setTypeNext (env : SetEnv) : SetObj → List SetEle
  | .ht d => (env.dictKeys d).map .objele
  | .intset is => is.contents.map fun n => .llele (Int64.ofInt n)

/-- The object that `setTypeNextObject` makes of an element. -/
def SetEle.object : SetEle → Robj
  | .objele o => o
  | .llele n => createStringObjectFromLongLong n.toInt

/-- What `setTypeNextObject` returns until the end of an iteration. -/
def setTypeNextObject (env : SetEnv) (subject : SetObj) : List Robj :=
  (setTypeNext env subject).map SetEle.object

/-! ## The members -/

def SetObj.members : SetObj → Finset (List UInt8)
  | .intset is => (is.contents.map ll2string).toFinset
  | .ht d => (d.entries.map fun e => e.1.bytes).toFinset

section Members

variable {env : SetEnv} {o : SetObj} {is : Intset} {d : EncDict Unit} {value : Robj} {v : Int}
  {b : List UInt8}

theorem mem_members_intset : b ∈ (SetObj.intset is).members ↔ ∃ v ∈ is.contents, ll2string v = b := by
  rw [SetObj.members, mem_toFinset, mem_map]

theorem mem_members_ht : b ∈ (SetObj.ht d).members ↔ (d.toFun b).isSome := by
  rw [SetObj.members, mem_toFinset, mem_map, encDict_isSome_iff]

/-- An integer is a member when its bytes are. -/
theorem ll2string_mem_intset (hlo : -2 ^ 63 ≤ v) (hhi : v < 2 ^ 63) :
    ll2string v ∈ (SetObj.intset is).members ↔ v ∈ is.contents := by
  rw [mem_members_intset]
  constructor
  · rintro ⟨w, hw, heq⟩
    exact ll2string_injective (is.range w hw) ⟨hlo, hhi⟩ heq ▸ hw
  · intro hv
    exact ⟨v, hv, rfl⟩

theorem not_mem_intset (is : Intset) (h : isObjectRepresentableAsLongLong value = none) :
    value.bytes ∉ (SetObj.intset is).members := by
  rw [mem_members_intset]
  rintro ⟨v, hv, heq⟩
  obtain ⟨hlo, hhi⟩ := is.range v hv
  rw [isObjectRepresentableAsLongLong_eq_some_iff.mpr ⟨heq.symm, hlo, hhi⟩] at h
  cases h

@[simp]
theorem setTypeIsMember_iff : setTypeIsMember o value = true ↔ value.bytes ∈ o.members := by
  cases o with
  | ht d => rw [setTypeIsMember, encDict_find, mem_members_ht]
  | intset is =>
    rw [setTypeIsMember]
    split
    next llval hval =>
      obtain ⟨hbytes, hlo, hhi⟩ := isObjectRepresentableAsLongLong_eq_some_iff.mp hval
      rw [Intset.intsetFind_iff, toInt_ofInt_of_range hlo hhi, hbytes,
        ll2string_mem_intset hlo hhi]
    next hnone => exact iff_of_false Bool.false_ne_true (not_mem_intset is hnone)

theorem setTypeSize_eq (o : SetObj) : setTypeSize o = o.members.card := by
  cases o with
  | ht d =>
    rw [setTypeSize, SetObj.members, toFinset_card_of_nodup (encDict_uniq d), length_map]
    rfl
  | intset is =>
    have hnodup : (is.contents.map ll2string).Nodup :=
      is.nodup.map_on fun v hv w hw heq => ll2string_injective (is.range v hv) (is.range w hw) heq
    rw [setTypeSize, SetObj.members, toFinset_card_of_nodup hnodup, length_map]
    rfl

/-- An iteration returns every member once. -/
theorem setTypeNextObject_spec (env : SetEnv) (o : SetObj) :
    ((setTypeNextObject env o).map Robj.bytes).Nodup ∧
      ((setTypeNextObject env o).map Robj.bytes).toFinset = o.members := by
  cases o with
  | ht d =>
    have hperm : ((setTypeNextObject env (.ht d)).map Robj.bytes).Perm
        (d.entries.map fun e => e.1.bytes) := by
      have h := (env.dictKeys_perm d).map Robj.bytes
      rw [map_map] at h
      rw [setTypeNextObject, setTypeNext, map_map, map_map]
      exact h
    exact ⟨hperm.nodup_iff.mpr d.uniq, toFinset_eq_of_perm _ _ hperm⟩
  | intset is =>
    have hbytes : (setTypeNextObject env (.intset is)).map Robj.bytes =
        is.contents.map ll2string := by
      rw [setTypeNextObject, setTypeNext, map_map, map_map]
      refine map_congr_left fun v hv => ?_
      obtain ⟨hlo, hhi⟩ := is.range v hv
      rw [Function.comp_apply, Function.comp_apply, SetEle.object, toInt_ofInt_of_range hlo hhi,
        bytes_createStringObjectFromLongLong hlo hhi]
    rw [hbytes]
    exact ⟨is.nodup.map_on fun v hv w hw heq =>
      ll2string_injective (is.range v hv) (is.range w hw) heq, rfl⟩

/-! ## Adding and removing -/

theorem setTypeConvert_spec (is : Intset) :
    ∃ d, setTypeConvert is = some d ∧ (SetObj.ht d).members = (SetObj.intset is).members := by
  have hfold (l : List Int) (d : EncDict Unit) (hl : l.Nodup)
      (hrange : ∀ v ∈ l, -2 ^ 63 ≤ v ∧ v < 2 ^ 63)
      (hnew : ∀ v ∈ l, d.toFun (ll2string v) = none) :
      ∃ d', l.foldlM (fun d intele => d.add (createStringObjectFromLongLong intele) ()) d =
          some d' ∧
        ∀ b, (d'.toFun b).isSome ↔ (d.toFun b).isSome ∨ ∃ v ∈ l, ll2string v = b := by
    induction l generalizing d with
    | nil => exact ⟨d, rfl, fun b => by simp⟩
    | cons v l ih =>
      obtain ⟨hv, hl⟩ := nodup_cons.mp hl
      obtain ⟨hlo, hhi⟩ := hrange v mem_cons_self
      have hbytes := bytes_createStringObjectFromLongLong hlo hhi
      have hnone : d.toFun (createStringObjectFromLongLong v).bytes = none := by
        rw [hbytes]
        exact hnew v mem_cons_self
      obtain ⟨d₁, hadd, hfun⟩ := encDict_add () hnone
      rw [hbytes] at hfun
      obtain ⟨d', hfold, hmem⟩ := ih d₁ hl (fun w hw => hrange w (mem_cons_of_mem _ hw))
        fun w hw => by
          have hne : ll2string w ≠ ll2string v := fun heq => hv
            (ll2string_injective (hrange w (mem_cons_of_mem _ hw)) ⟨hlo, hhi⟩ heq ▸ hw)
          rw [hfun, Function.update_of_ne hne]
          exact hnew w (mem_cons_of_mem _ hw)
      refine ⟨d', by rw [foldlM_cons, hadd]; exact hfold, fun b => ?_⟩
      rw [hmem, hfun, Function.update_apply]
      by_cases hb : b = ll2string v
      · simp [hb]
      · simp [hb, Ne.symm hb]
  obtain ⟨d, hconvert, hmem⟩ := hfold is.contents .empty is.nodup is.range fun _ _ => rfl
  refine ⟨d, hconvert, ?_⟩
  ext b
  rw [mem_members_ht, hmem, mem_members_intset]
  simp

theorem setTypeAdd_spec (env : SetEnv) (o : SetObj) (value : Robj) :
    ∃ o', setTypeAdd env o value = some (o', decide (value.bytes ∉ o.members)) ∧
      o'.members = insert value.bytes o.members := by
  cases o with
  | ht d =>
    rw [setTypeAdd]
    cases hfun : d.toFun value.bytes with
    | none =>
      obtain ⟨d', hadd, hupdate⟩ := encDict_add () hfun
      refine ⟨.ht d', ?_, ?_⟩
      · simp [hadd, mem_members_ht, hfun]
      · ext b
        rw [mem_members_ht, hupdate, Function.update_apply, Finset.mem_insert, mem_members_ht]
        by_cases hb : b = value.bytes <;> simp [hb]
    | some u =>
      have hmem : value.bytes ∈ (SetObj.ht d).members := by rw [mem_members_ht, hfun]; rfl
      refine ⟨.ht d, ?_, (Finset.insert_eq_of_mem hmem).symm⟩
      simp [encDict_add_eq_none () (by rw [hfun]; rfl : (d.toFun value.bytes).isSome), hmem]
  | intset is =>
    rw [setTypeAdd]
    split
    next llval hval =>
      obtain ⟨hbytes, hlo, hhi⟩ := isObjectRepresentableAsLongLong_eq_some_iff.mp hval
      have hmem : value.bytes ∈ (SetObj.intset is).members ↔ llval ∈ is.contents := by
        rw [hbytes, ll2string_mem_intset hlo hhi]
      have hsnd : (is.intsetAdd (Int64.ofInt llval)).2 = decide (llval ∉ is.contents) := by
        rw [Intset.intsetAdd_snd, toInt_ofInt_of_range hlo hhi]
      have hmembers : (SetObj.intset (is.intsetAdd (Int64.ofInt llval)).1).members =
          insert value.bytes (SetObj.intset is).members := by
        ext b
        rw [mem_members_intset, Finset.mem_insert, mem_members_intset]
        simp only [Intset.mem_intsetAdd, toInt_ofInt_of_range hlo hhi, hbytes]
        simp [or_and_right, exists_or, eq_comm]
      simp only [hsnd, hmem]
      by_cases hold : llval ∈ is.contents
      · exact ⟨.intset (is.intsetAdd (Int64.ofInt llval)).1, by simp [hold], hmembers⟩
      by_cases hlen : (is.intsetAdd (Int64.ofInt llval)).1.intsetLen > env.setMaxIntsetEntries
      · obtain ⟨d, hconvert, hd⟩ := setTypeConvert_spec (is.intsetAdd (Int64.ofInt llval)).1
        exact ⟨.ht d, by simp [hold, hlen, hconvert], hd.trans hmembers⟩
      · exact ⟨.intset (is.intsetAdd (Int64.ofInt llval)).1, by simp [hold, hlen], hmembers⟩
    next hnone =>
      have hmem := not_mem_intset is hnone
      obtain ⟨d, hconvert, hd⟩ := setTypeConvert_spec is
      have hfun : d.toFun value.bytes = none := by
        rw [← hd, mem_members_ht] at hmem
        simpa using hmem
      obtain ⟨d', hadd, hupdate⟩ := encDict_add () hfun
      refine ⟨.ht d', by simp [hconvert, hadd, hmem], ?_⟩
      ext b
      rw [mem_members_ht, hupdate, Function.update_apply, Finset.mem_insert, ← hd, mem_members_ht]
      by_cases hb : b = value.bytes <;> simp [hb]

theorem setTypeRemove_spec (o : SetObj) (value : Robj) :
    (setTypeRemove o value).1.members = o.members.erase value.bytes ∧
      (setTypeRemove o value).2 = decide (value.bytes ∈ o.members) := by
  cases o with
  | ht d =>
    rw [setTypeRemove]
    cases hfun : d.toFun value.bytes with
    | none =>
      have hmem : value.bytes ∉ (SetObj.ht d).members := by simp [mem_members_ht, hfun]
      rw [encDict_delete_eq_none hfun]
      exact ⟨(Finset.erase_eq_of_notMem hmem).symm, by simp [hmem]⟩
    | some u =>
      obtain ⟨d', hdel, hupdate⟩ := encDict_delete
        (by rw [hfun]; rfl : (d.toFun value.bytes).isSome)
      rw [hdel]
      refine ⟨?_, by simp [mem_members_ht, hfun]⟩
      ext b
      rw [mem_members_ht, hupdate, Function.update_apply, Finset.mem_erase, mem_members_ht]
      by_cases hb : b = value.bytes <;> simp [hb]
  | intset is =>
    rw [setTypeRemove]
    split
    next llval hval =>
      obtain ⟨hbytes, hlo, hhi⟩ := isObjectRepresentableAsLongLong_eq_some_iff.mp hval
      refine ⟨?_, ?_⟩
      · ext b
        rw [mem_members_intset, Finset.mem_erase, mem_members_intset]
        simp only [Intset.mem_intsetRemove, toInt_ofInt_of_range hlo hhi, hbytes]
        constructor
        · rintro ⟨w, ⟨hne, hw⟩, rfl⟩
          exact ⟨fun heq => hne (ll2string_injective (is.range w hw) ⟨hlo, hhi⟩ heq), w, hw, rfl⟩
        · rintro ⟨hne, w, hw, rfl⟩
          exact ⟨w, ⟨fun heq => hne (by rw [heq]), hw⟩, rfl⟩
      · simp only [Intset.intsetRemove_snd, toInt_ofInt_of_range hlo hhi, hbytes,
          ll2string_mem_intset hlo hhi]
    next hnone =>
      have hmem := not_mem_intset is hnone
      exact ⟨(Finset.erase_eq_of_notMem hmem).symm, by simp [hmem]⟩

end Members

end Redis
