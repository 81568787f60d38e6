import Mathlib
import Redis.Hyperloglog.Cache

/-!
# Redis.Hyperloglog.Elements

A HyperLogLog stands for a set.  Its registers are those of the elements that were added, in
whatever order, however often, in either representation and through whatever merges.
-/

namespace Redis

open List Function

variable {s : Sds} {ele : Bytes} {eles : Finset Bytes}

/-- One register of a set of elements. -/
def elementReg (eles : Finset Bytes) (i : Nat) : Nat :=
  eles.sup fun ele => if (hllPatLen ele).1 = i then (hllPatLen ele).2 else 0

/-- The registers of a set of elements. -/
def elementRegs (eles : Finset Bytes) : List Nat := (range hllRegisters).map (elementReg eles)

theorem elementRegs_empty : elementRegs ∅ = replicate hllRegisters 0 := by
  have hzero : elementReg ∅ = fun _ => 0 := rfl
  rw [elementRegs, hzero, map_const', length_range]

theorem elementRegs_union (a b : Finset Bytes) :
    zipWith Nat.max (elementRegs a) (elementRegs b) = elementRegs (a ∪ b) := by
  rw [elementRegs, elementRegs, elementRegs, zipWith_map, zipWith_self]
  exact map_congr_left fun i _ => Finset.sup_union.symm

theorem elementReg_insert (i : Nat) : elementReg (insert ele eles) i =
    if (hllPatLen ele).1 = i then max (elementReg eles i) (hllPatLen ele).2
    else elementReg eles i := by
  rw [elementReg, Finset.sup_insert]
  split
  · exact Nat.max_comm _ _
  · exact Nat.max_eq_right (Nat.zero_le _)

theorem set_map_range {f g : Nat → Nat} {n i v : Nat} (h : ∀ j, g j = if i = j then v else f j) :
    ((range n).map f).set i v = (range n).map g := by
  refine ext_getElem (by simp) fun j hj hj' => ?_
  rw [getElem_set, getElem_map, getElem_map, getElem_range, h]

theorem elementRegs_insert {old : Nat} (hold : (elementRegs eles)[(hllPatLen ele).1]? = some old) :
    (elementRegs eles).set (hllPatLen ele).1 (max old (hllPatLen ele).2) =
      elementRegs (insert ele eles) := by
  have hget : old = elementReg eles (hllPatLen ele).1 := by
    rw [elementRegs, getElem?_map, Option.map_eq_some_iff] at hold
    obtain ⟨i, hi, rfl⟩ := hold
    rw [(List.getElem?_eq_some_iff.mp hi).2.symm, getElem_range]
  refine set_map_range fun j => ?_
  rw [elementReg_insert, hget]
  split
  next hindex => rw [hindex]
  next => rfl

/-! ## The commands -/

theorem hllAdd_elements (env : HllEnv) (h : IsHll s (elementRegs eles)) (ele : Bytes) :
    ∃ s' r, hllAdd env s ele = some (s', r) ∧ r ≠ -1 ∧
      IsHll s' (elementRegs (insert ele eles)) := by
  obtain ⟨old, hold, s', hs', hll⟩ : ∃ old,
      (elementRegs eles)[(hllPatLen ele).1]? = some old ∧
        HllAdded (hllAdd env s ele) (elementRegs eles) (hllPatLen ele).1 (hllPatLen ele).2 old := by
    rcases hllAdd_cases env h ele with ⟨hsparse, hadd⟩ | ⟨hdr, hhdr, hregs, hadd⟩
    · rw [hadd]
      exact hllSparseAdd_spec env.fill env.maxBytes hsparse ele
    · have hindex : (hllPatLen ele).1 < (elementRegs eles).length := by
        rw [hregs.length]
        exact (hllPatLen_spec ele).1
      obtain ⟨s', hs', hregs'⟩ := hllDenseAdd_spec hregs rfl (getElem?_eq_getElem hindex)
      exact ⟨_, getElem?_eq_getElem hindex, s', hadd.trans hs', .inr ⟨hdr, hhdr, hregs'⟩⟩
  rw [elementRegs_insert hold] at hll
  exact ⟨s', _, hs', by split <;> decide, hll⟩

theorem pfaddLoop_elements (env : HllEnv) (h : IsHll s (elementRegs eles)) (updated : Nat)
    (added : List Bytes) :
    ∃ s' n, pfaddLoop env s updated added = some (s', some n) ∧
      IsHll s' (elementRegs (eles ∪ added.toFinset)) := by
  induction added generalizing s eles updated with
  | nil => exact ⟨s, updated, rfl, by simpa using h⟩
  | cons ele added ih =>
    obtain ⟨s₁, r, hadd, hr, hll⟩ := hllAdd_elements env h ele
    rw [pfaddLoop, hadd, some_bind, toFinset_cons, Finset.union_insert, ← Finset.insert_union]
    simp only [if_neg hr]
    split
    · exact ih hll _
    · exact ih hll _

variable {κ : Type} [DecidableEq κ] {card : List Nat → UInt64}
  {sets : κ → Option (Finset Bytes)} {db : HllDb κ}

theorem pfaddValue_elements (db : HllDb κ) (env : HllEnv) (key : κ) (updated : Nat)
    (h : IsHll s (elementRegs eles)) (hok : updated = 0 → HllOk card s (elementRegs eles))
    (added : List Bytes) :
    ∃ s' r, pfaddValue env db key s updated added =
        some (update db key (some (.string s')), r) ∧
      HllOk card s' (elementRegs (eles ∪ added.toFinset)) := by
  obtain ⟨s', regs', r, hadd, hok'⟩ := pfaddValue_spec card db env key updated h hok added
  obtain ⟨s₁, n, hloop, hll⟩ := pfaddLoop_elements env h updated added
  have hll' : IsHll s' (elementRegs (eles ∪ added.toFinset)) := by
    have hvalue (s₂ : Sds) (r' : HllReply) (hs₂ : pfaddValue env db key s updated added =
        some (update db key (some (.string s₂)), r')) : s₂ = s' := by
      rw [hs₂, Option.some.injEq, Prod.mk.injEq] at hadd
      have hkey := congrFun hadd.1 key
      rw [update_self, update_self] at hkey
      cases hkey
      rfl
    by_cases hzero : n = 0
    · exact hvalue s₁ (.int 0) (by simp [pfaddValue, hloop, hzero]) ▸ hll
    · obtain ⟨s₂, hinv, hll₂, -⟩ := hllInvalidateCache_spec hll
      exact hvalue s₂ (.int 1) (by simp [pfaddValue, hloop, hzero, hinv]) ▸ hll₂
  exact ⟨s', r, hadd, hok'.hll.unique hll' ▸ hok'⟩

/-- The elements of some keys. -/
def elementsOf (sets : κ → Option (Finset Bytes)) (keys : List κ) : Finset Bytes :=
  keys.foldl (fun eles key => eles ∪ (sets key).getD ∅) ∅

/-- What a command does to the sets. -/
def HllCommand.elements (sets : κ → Option (Finset Bytes)) :
    HllCommand κ → κ → Option (Finset Bytes)
  | .pfadd key eles => update sets key (some ((sets key).getD ∅ ∪ eles.toFinset))
  | .pfcount _ => sets
  | .pfmerge dest srcs => update sets dest (some (elementsOf sets (dest :: srcs)))
  | .remove key => update sets key none

/-- Every key stands for its set. -/
structure HllHolds (card : List Nat → UInt64) (db : HllDb κ) (sets : κ → Option (Finset Bytes)) :
    Prop where
  missing : ∀ {key}, sets key = none → db key = none
  there : ∀ {key eles}, sets key = some eles →
    ∃ s, db key = some (.string s) ∧ HllOk card s (elementRegs eles)

omit [DecidableEq κ] in
theorem HllHolds.held (h : HllHolds card db sets) (keys : List κ) :
    Forall₂ (HllHeld db) keys (keys.map fun key => elementRegs ((sets key).getD ∅)) := by
  refine forall₂_map_right_iff.mpr (forall₂_same.mpr fun key _ => ?_)
  cases hset : sets key with
  | none => exact .inl ⟨h.missing hset, elementRegs_empty⟩
  | some eles =>
    obtain ⟨s, hs, hok⟩ := h.there hset
    exact .inr ⟨s, hs, hok.hll⟩

theorem HllHolds.update (h : HllHolds card db sets) (key : κ)
    (hok : HllOk card s (elementRegs eles)) :
    HllHolds card (update db key (some (.string s))) (update sets key (some eles)) := by
  constructor <;> intro key' <;> by_cases hkey : key' = key
  · simp [hkey]
  · simpa [hkey] using h.missing
  · rw [hkey, update_self, update_self]
    rintro ⟨⟩
    exact ⟨s, rfl, hok⟩
  · simpa [hkey] using h.there

omit [DecidableEq κ] in
theorem hllUnion_elementsOf (sets : κ → Option (Finset Bytes)) (keys : List κ) :
    hllUnion (keys.map fun key => elementRegs ((sets key).getD ∅)) =
      elementRegs (elementsOf sets keys) := by
  have hfold (eles : Finset Bytes) :
      (keys.map fun key => elementRegs ((sets key).getD ∅)).foldl (zipWith Nat.max)
          (elementRegs eles) =
        elementRegs (keys.foldl (fun eles key => eles ∪ (sets key).getD ∅) eles) := by
    induction keys generalizing eles with
    | nil => rw [map_nil, foldl_nil, foldl_nil]
    | cons key keys ih => rw [map_cons, foldl_cons, elementRegs_union, ih, foldl_cons]
  have hlength : ∀ r ∈ keys.map fun key => elementRegs ((sets key).getD ∅),
      r.length = hllRegisters := by
    intro r hr
    obtain ⟨key, -, rfl⟩ := List.mem_map.mp hr
    rw [elementRegs, length_map, length_range]
  rw [← nil_append (keys.map _), ← foldl_max_eq [] hlength, hllUnion_nil, ← elementRegs_empty,
    hfold, elementsOf]

/-- What `PFCOUNT` answers; a key that is missing is not counted. -/
def pfcountOf (card : List Nat → UInt64) (sets : κ → Option (Finset Bytes)) : List κ → HllReply
  | [key] =>
    match sets key with
    | none => .int 0
    | some eles => hllReplyCard (card (elementRegs eles))
  | keys => hllReplyCard (card (elementRegs (elementsOf sets keys)))

theorem HllHolds.pfcount (h : HllHolds card db sets) (env : HllEnv) (keys : List κ) :
    ∃ db', pfcountCommand card env db keys = some (db', pfcountOf card sets keys) ∧
      HllHolds card db' sets := by
  have hmany (hne : ∀ key, keys ≠ [key]) : pfcountCommand card env db keys =
      some (db, hllReplyCard (card (elementRegs (elementsOf sets keys)))) := by
    rw [pfcountCommand_many card env hne (h.held keys), hllUnion_elementsOf]
  match keys, hmany with
  | [], hmany => exact ⟨db, hmany fun _ => by simp, h⟩
  | key :: key' :: keys, hmany => exact ⟨db, hmany fun _ => by simp, h⟩
  | [key], _ =>
    rw [pfcountOf, pfcountCommand]
    cases hset : sets key with
    | none => exact ⟨db, by simp only [pfcountKey, h.missing hset], h⟩
    | some eles =>
      obtain ⟨s, hs, hok⟩ := h.there hset
      obtain ⟨s', hcount, hok'⟩ := pfcountKey_spec env hs hok
      have hupdate := h.update key hok'
      rw [← hset, update_eq_self] at hupdate
      exact ⟨_, hcount, hupdate⟩

/-- A command does to the keys what it does to the sets. -/
theorem HllHolds.call (h : HllHolds card db sets) (env : HllEnv) (cmd : HllCommand κ) :
    ∃ db' r, hllCall card env db cmd = some (db', r) ∧ HllHolds card db' (cmd.elements sets) := by
  cases cmd with
  | pfadd key added =>
    simp only [hllCall, pfaddCommand, HllCommand.elements]
    cases hset : sets key with
    | none =>
      obtain ⟨s', r, hadd, hok⟩ := pfaddValue_elements db env key 1
        (elementRegs_empty ▸ isHll_empty) (fun hzero => by cases hzero) added
      rw [h.missing hset]
      simp only [createHLLObject_eq, some_bind, hadd]
      exact ⟨_, r, rfl, h.update key hok⟩
    | some eles =>
      obtain ⟨s, hs, hok⟩ := h.there hset
      obtain ⟨hll, htake⟩ := dbUnshareStringValue_spec env.shared hok.hll
      obtain ⟨s', r, hadd, hok'⟩ := pfaddValue_elements db env key 0 hll
        (fun _ => hok.of_take hll htake) added
      rw [hs]
      simp only [isHLLObjectOrReply_spec hok.hll, hadd]
      exact ⟨_, r, rfl, h.update key hok'⟩
  | pfcount keys =>
    obtain ⟨db', hcount, h'⟩ := h.pfcount env keys
    exact ⟨db', _, hcount, h'⟩
  | pfmerge dest srcs =>
    obtain ⟨s, hmerge, hok⟩ := pfmergeCommand_spec card env (h.held (dest :: srcs))
    rw [hllUnion_elementsOf] at hok
    exact ⟨_, _, hmerge, h.update dest hok⟩
  | remove key =>
    refine ⟨_, _, rfl, ?_⟩
    constructor <;> intro key' <;> by_cases hkey : key' = key
    · simp [hkey]
    · simpa [HllCommand.elements, hkey] using h.missing
    · simp [HllCommand.elements, hkey]
    · simpa [HllCommand.elements, hkey] using h.there

theorem HllHolds.calls (h : HllHolds card db sets) (cmds : List (HllEnv × HllCommand κ)) :
    ∃ db', hllCalls card db cmds = some db' ∧
      HllHolds card db' (cmds.foldl (fun sets call => call.2.elements sets) sets) := by
  induction cmds generalizing db sets with
  | nil => exact ⟨db, rfl, h⟩
  | cons call cmds ih =>
    obtain ⟨db₁, r, hcall, h₁⟩ := h.call call.1 call.2
    obtain ⟨db', hcalls, h'⟩ := ih h₁
    exact ⟨db', by rw [hllCalls, hcall, some_bind, hcalls], h'⟩

/-- After any commands `PFCOUNT` answers the cardinality of the registers of the set that was
added and merged: neither order nor repetition matters, nor what is cached, shared or sparse. -/
theorem pfcount_of_elements (card : List Nat → UInt64) (cmds : List (HllEnv × HllCommand κ))
    (env : HllEnv) (keys : List κ) :
    ∃ db db', hllCalls card (fun _ => none) cmds = some db ∧
      pfcountCommand card env db keys =
        some (db', pfcountOf card (cmds.foldl (fun sets call => call.2.elements sets) fun _ => none)
          keys) := by
  have hempty : HllHolds card (fun _ : κ => none) fun _ => none := ⟨fun _ => rfl, nofun⟩
  obtain ⟨db, hcalls, h⟩ := hempty.calls cmds
  obtain ⟨db', hcount, -⟩ := h.pfcount env keys
  exact ⟨db, db', hcalls, hcount⟩

end Redis
