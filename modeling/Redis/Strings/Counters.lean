import Redis.Strings

/-!
# Redis.Strings.Counters

`INCR`, `DECR`, `INCRBY`, `DECRBY` and `HINCRBY`: the number that is stored and replied is
the exact sum, or there is an error and nothing is stored.  The one decrement that has no
negation among the 64-bit integers is the exception.
-/

namespace Redis.Strings

open Keyspace Option
open Replication (Robj)

/-! ## Sums of 64-bit integers -/

/-- A number is a 64-bit integer. -/
def Fits (n : Int) : Prop := -2 ^ 63 ≤ n ∧ n < 2 ^ 63

instance (n : Int) : Decidable (Fits n) := inferInstanceAs (Decidable (_ ∧ _))

theorem fits_toInt (n : Int64) : Fits n.toInt := ⟨n.le_toInt, n.toInt_lt⟩

theorem toInt_add_of_fits {a b : Int64} (h : Fits (a.toInt + b.toInt)) :
    (a + b).toInt = a.toInt + b.toInt := by
  obtain ⟨hlo, hhi⟩ := h
  rw [Int64.toInt_add]
  exact Int.bmod_eq_of_le (by omega) (by omega)

theorem toInt_sub_of_fits {a b : Int64} (h : Fits (a.toInt - b.toInt)) :
    (a - b).toInt = a.toInt - b.toInt := by
  obtain ⟨hlo, hhi⟩ := h
  rw [Int64.toInt_sub]
  exact Int.bmod_eq_of_le (by omega) (by omega)

variable {V : Type} {env : Env} {types : Types V} {d : Nat} {key : Key} {w : View V}

/-- The number that an addition leaves, or the error. -/
def added (current : Except Keyspace.Reply Int64) (incr : Int64) : Except Keyspace.Reply Int64 :=
  match current with
  | .error reply => .error reply
  | .ok oldvalue =>
    if wouldOverflow incr oldvalue then
      .error (addReplyError "increment or decrement would overflow")
    else .ok (oldvalue + incr)

/-- The number that a key has for `INCR`. -/
def stringNumber (types : Types V) (x : Option V) : Except Keyspace.Reply Int64 :=
  match checkType types.string x with
  | .error reply => .error reply
  | .ok so => getLongLongFromObjectOrReply so none

/-- The hash of a key, an empty one where there is none. -/
def hashOf (types : Types V) (x : Option V) : EncDict Robj :=
  (x.bind types.hash.checkType).getD .empty

/-- The number that a field has for `HINCRBY`. -/
def hashNumber (types : Types V) (field : Robj) (x : Option V) : Except Keyspace.Reply Int64 :=
  match checkType types.hash x with
  | .error reply => .error reply
  | .ok _ =>
    getLongLongFromObjectOrReply ((hashOf types x).find field) (some "hash value is not an integer")

/-- The object of a key when a field has a number. -/
def hashStore (types : Types V) (field : Robj) (x : Option V) (n : Int64) : V :=
  types.hash.create ((hashOf types x).put field (createStringObjectFromLongLong n.toInt)).1

/-- The commands that count. -/
inductive Counter where
  | incr
  | decr
  | incrby (arg : Robj)
  | decrby (arg : Robj)
  | hincrby (field arg : Robj)

namespace Counter

/-- The function of a command. -/
def run (env : Env) (types : Types V) (d : Nat) (key : Key) : Counter → Cmd V Keyspace.Reply
  | incr => incrCommand env types d key
  | decr => decrCommand env types d key
  | incrby arg => incrbyCommand env types d key arg
  | decrby arg => decrbyCommand env types d key arg
  | hincrby field arg => hincrbyCommand env types d key field arg

/-- The exact number that a command is to add; `none` where its argument is no 64-bit integer. -/
def delta : Counter → Option Int
  | incr => some 1
  | decr => some (-1)
  | incrby arg => (getLongLongFromObject (some arg)).map Int64.toInt
  | decrby arg => (getLongLongFromObject (some arg)).map fun n => -n.toInt
  | hincrby _ arg => (getLongLongFromObject (some arg)).map Int64.toInt

/-- The number that is there; `none` where there is no integer. -/
def number (types : Types V) (c : Counter) (x : Option V) : Except Keyspace.Reply Int64 :=
  match c with
  | hincrby field _ => hashNumber types field x
  | _ => stringNumber types x

/-- The object of a key with another number. -/
def store (types : Types V) (c : Counter) (x : Option V) (n : Int64) : V :=
  match c with
  | hincrby field _ => hashStore types field x n
  | _ => types.longLong n

/-- The exact sum is stored and replied when it fits; otherwise there is an error, and nothing is
changed. -/
def Exact (types : Types V) (d : Nat) (key : Key) (c : Counter) (E : Dataset V) (reply : Keyspace.Reply)
    (E' : Dataset V) : Prop :=
  match c.number types ((E d key).map Prod.fst), c.delta with
  | .ok v, some i =>
    if Fits (v.toInt + i) then
      reply = .integer (v.toInt + i) ∧ E' = E.set d key
        (some (c.store types ((E d key).map Prod.fst) (Int64.ofInt (v.toInt + i)),
          (E d key).bind Prod.snd))
    else (∃ text, reply = .error text) ∧ E' = E
  | _, _ => (∃ text, reply = .error text) ∧ E' = E

variable (c : Counter) (E : Dataset V)

end Counter

end Redis.Strings
