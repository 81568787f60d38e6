import Redis.Keyed
import Redis.Replication.Feed

/-!
# Redis.Objects

String objects in their encodings, and the dictionaries whose keys they are.  Two objects are the
same key when they have the same bytes, whatever their encodings are.
-/

namespace Redis

open Replication (Robj)

/-! ## String objects -/

/-- `createStringObjectFromLongLong`; a `long` has 64 bits. -/
def createStringObjectFromLongLong (value : Int) : Robj := .int (Int64.ofInt value)

/-- `isObjectRepresentableAsLongLong`, with the value. -/
def isObjectRepresentableAsLongLong : Robj → Option Int
  | .int n => some n.toInt
  | .raw s => string2ll s

/-- `tryObjectEncoding`; an object that is used elsewhere, too, stays as it is. -/
def tryObjectEncoding (refcount : Robj → Nat) (o : Robj) : Robj :=
  match o with
  | .int n => .int n
  | .raw s =>
    if refcount o > 1 then o
    else if s.length ≤ 21 then
      match string2ll s with
      | some value => .int (Int64.ofInt value)
      | none => o
    else o

/-- `getDecodedObject`, with the `ptr` of the result. -/
def getDecodedObject : Robj → List UInt8
  | .raw s => s
  | .int n => ll2string n.toInt

def dictSdsKeyCompare (key1 key2 : List UInt8) : Bool :=
  if key1.length ≠ key2.length then false else key1 = key2

def dictEncObjKeyCompare (key1 key2 : Robj) : Bool :=
  match key1, key2 with
  | .int m, .int n => m = n
  | o1, o2 => dictSdsKeyCompare (getDecodedObject o1) (getDecodedObject o2)

section Strings

variable {o a b : Robj} {v : Int}

theorem range_toInt (n : Int64) : -2 ^ 63 ≤ n.toInt ∧ n.toInt < 2 ^ 63 :=
  ⟨n.le_toInt, n.toInt_lt⟩

theorem toInt_ofInt_of_range (hlo : -2 ^ 63 ≤ v) (hhi : v < 2 ^ 63) : (Int64.ofInt v).toInt = v :=
  Int64.toInt_ofInt_of_le hlo hhi

@[simp]
theorem bytes_createStringObjectFromLongLong (hlo : -2 ^ 63 ≤ v) (hhi : v < 2 ^ 63) :
    (createStringObjectFromLongLong v).bytes = ll2string v := by
  rw [createStringObjectFromLongLong, Robj.bytes, toInt_ofInt_of_range hlo hhi]

/-- An object represents an integer when its bytes are what `ll2string` writes. -/
theorem isObjectRepresentableAsLongLong_eq_some_iff :
    isObjectRepresentableAsLongLong o = some v ↔
      o.bytes = ll2string v ∧ -2 ^ 63 ≤ v ∧ v < 2 ^ 63 := by
  cases o with
  | raw s =>
    rw [isObjectRepresentableAsLongLong, Robj.bytes]
    constructor
    · intro h
      obtain ⟨hs, hlo, hhi⟩ := string2ll_spec h
      exact ⟨hs.symm, hlo, hhi⟩
    · rintro ⟨rfl, hlo, hhi⟩
      exact string2ll_ll2string hlo hhi
  | int n =>
    obtain ⟨hlo, hhi⟩ := range_toInt n
    rw [isObjectRepresentableAsLongLong, Robj.bytes, Option.some.injEq]
    constructor
    · rintro rfl
      exact ⟨rfl, hlo, hhi⟩
    · rintro ⟨heq, hlo', hhi'⟩
      exact ll2string_injective ⟨hlo, hhi⟩ ⟨hlo', hhi'⟩ heq

@[simp]
theorem bytes_tryObjectEncoding (refcount : Robj → Nat) (o : Robj) :
    (tryObjectEncoding refcount o).bytes = o.bytes := by
  cases o with
  | int n => rfl
  | raw s =>
    rw [tryObjectEncoding]
    split
    · rfl
    split
    · split
      next value hvalue =>
        obtain ⟨hs, hlo, hhi⟩ := string2ll_spec hvalue
        exact (bytes_createStringObjectFromLongLong hlo hhi).trans hs
      · rfl
    · rfl

@[simp]
theorem getDecodedObject_eq (o : Robj) : getDecodedObject o = o.bytes := by cases o <;> rfl

theorem int_eq_iff {m n : Int64} : m = n ↔ ll2string m.toInt = ll2string n.toInt := by
  refine ⟨fun h => by rw [h], fun h => ?_⟩
  exact Int64.toInt_inj.mp (ll2string_injective (range_toInt m) (range_toInt n) h)

theorem dictSdsKeyCompare_iff {s t : List UInt8} : dictSdsKeyCompare s t = true ↔ s = t := by
  rw [dictSdsKeyCompare]
  split
  next hne => exact iff_of_false Bool.false_ne_true fun h => hne (congrArg List.length h)
  next => rw [decide_eq_true_eq]

/-- Keys are compared by their bytes. -/
@[simp]
theorem dictEncObjKeyCompare_iff : dictEncObjKeyCompare a b = true ↔ a.bytes = b.bytes := by
  cases a <;> cases b <;>
    simp [dictEncObjKeyCompare, Robj.bytes, dictSdsKeyCompare_iff, int_eq_iff]

end Strings

/-! ## Dictionaries of string objects -/

/-- `dictEncObjKeyCompare` as the comparison of a dictionary. -/
def encObjType : Keyed.KeyType Robj (List UInt8) :=
  ⟨Robj.bytes, dictEncObjKeyCompare, dictEncObjKeyCompare_iff⟩

/-- A dictionary with string objects as keys: `dictFind` is `find`, `dictAdd` is `add`,
`dictReplace` is `put` and `dictDelete` is `delete`. -/
abbrev EncDict (β : Type) := Keyed.Table encObjType β

section Dictionaries

variable {β : Type} {d : EncDict β} {key : Robj} {k : List UInt8}

theorem encDict_find (d : EncDict β) (key : Robj) : d.find key = d.toFun key.bytes := d.find_eq key

theorem encDict_isSome_iff : (d.toFun k).isSome ↔ ∃ e ∈ d.entries, e.1.bytes = k :=
  Keyed.lookup_isSome_iff

theorem encDict_uniq (d : EncDict β) : (d.entries.map fun e => e.1.bytes).Nodup := d.uniq

theorem encDict_add (val : β) (h : d.toFun key.bytes = none) :
    ∃ d', d.add key val = some d' ∧ d'.toFun = Function.update d.toFun key.bytes (some val) :=
  Keyed.Table.add_spec key val h

theorem encDict_add_eq_none (val : β) (h : (d.toFun key.bytes).isSome) : d.add key val = none :=
  Keyed.Table.add_eq_none val h

theorem encDict_put (d : EncDict β) (key : Robj) (val : β) :
    (d.put key val).1.toFun = Function.update d.toFun key.bytes (some val) ∧
      (d.put key val).2 = (d.toFun key.bytes).isNone :=
  d.put_spec key val

theorem encDict_delete (h : (d.toFun key.bytes).isSome) :
    ∃ d', d.delete key = some d' ∧ d'.toFun = Function.update d.toFun key.bytes none :=
  Keyed.Table.delete_spec h

theorem encDict_delete_eq_none (h : d.toFun key.bytes = none) : d.delete key = none :=
  Keyed.Table.delete_eq_none h

end Dictionaries

end Redis
