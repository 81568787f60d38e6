import Redis.Globs
import Redis.Util.Bounds

/-!
# Redis.Util.Glob

What `stringmatchlen` computes.

A pattern is read as stars and parts that match one byte: `?`, a class in brackets, and a byte.
In a class a backslash stands before a byte that is listed, and a byte, a `-` and any byte are a
range.  A class that is not closed ends with the pattern.
-/

namespace Redis.Glob

open List

open Globs (Matches Reached)
open Bounds (Fault readAt advance)

/-! ## Patterns -/

inductive Item where
  | byte (b : UInt8)
  | escaped (b : UInt8)
  | range (a b : UInt8)

/-- A part that matches one byte.  A class is `dangling` if the pattern ends in it with a
backslash. -/
inductive Single where
  | any
  | listed (negated : Bool) (items : List Item) (dangling : Bool)
  | byte (b : UInt8)

/-- What is behind an opening bracket: the items, whether the pattern ends with a backslash, and
the pattern behind the class. -/
structure Listed where
  items : List Item
  dangling : Bool
  rest : Bytes

def Listed.add (item : Item) (l : Listed) : Listed := ⟨item :: l.items, l.dangling, l.rest⟩

/-- The items of a class.  A backslash that ends the pattern is listed itself. -/
def parseItems : Bytes → Listed
  | [] => ⟨[], false, []⟩
  | p :: pattern =>
    if p = '\\'.toUInt8 then
      match pattern with
      | [] => ⟨[.byte p], true, []⟩
      | q :: pattern => (parseItems pattern).add (.escaped q)
    else if p = ']'.toUInt8 then ⟨[], false, pattern⟩
    else
      match pattern with
      | dash :: q :: rest =>
        if dash = '-'.toUInt8 then (parseItems rest).add (.range p q)
        else (parseItems (dash :: q :: rest)).add (.byte p)
      | pattern => (parseItems pattern).add (.byte p)

theorem parseItems_length (pattern : Bytes) :
    (parseItems pattern).rest.length ≤ pattern.length := by
  fun_induction parseItems pattern with
  | case1 => exact Nat.le_refl _
  | case2 => exact Nat.zero_le _
  | case3 q pattern ih =>
    rw [Listed.add]
    simp only [length_cons]
    omega
  | case4 => exact Nat.le_succ _
  | case5 p hslash hclose q rest ih =>
    rw [Listed.add]
    simp only [length_cons]
    omega
  | case6 p hslash hclose dash q rest hdash ih =>
    rw [Listed.add]
    simp only [length_cons] at ih ⊢
    omega
  | case7 =>
    rw [Listed.add]
    simp only [length_cons]
    omega

/-- The part at the front of a pattern that does not start with a star, and what is behind it. -/
def parseOne (p : UInt8) (pattern : Bytes) : Single × Bytes :=
  if p = '?'.toUInt8 then (.any, pattern)
  else if p = '['.toUInt8 then
    let not := pattern.head? == some '^'.toUInt8
    let l := parseItems (if not then pattern.tail else pattern)
    (.listed not l.items l.dangling, l.rest)
  else (.byte (unescape p pattern).1, (unescape p pattern).2)

theorem parseOne_length (p : UInt8) (pattern : Bytes) :
    (parseOne p pattern).2.length ≤ pattern.length := by
  rw [parseOne]
  split
  · exact Nat.le_refl _
  split
  · refine Nat.le_trans (parseItems_length _) ?_
    split <;> simp
  · exact unescape_length p pattern

def parse (pattern : Bytes) : List (Globs.Part Single) :=
  match pattern with
  | [] => []
  | p :: pattern =>
    if p = '*'.toUInt8 then .star :: parse pattern
    else .one (parseOne p pattern).1 :: parse (parseOne p pattern).2
termination_by pattern.length
decreasing_by
  · simp
  · have hle := parseOne_length p pattern
    simp only [length_cons]
    omega

/-! ## What a part matches -/

/-- A byte, without the case of a letter with `nocase`. -/
def fold (nocase : Bool) (b : UInt8) : UInt8 :=
  if nocase ∧ 65 ≤ b ∧ b ≤ 90 then b + 32 else b

/-- Whether a byte is one that an item lists.  Either end of a range may be the lower one. -/
def Item.Lists (nocase : Bool) (c : UInt8) : Item → Prop
  | byte b => fold nocase b = fold nocase c
  | escaped b => fold nocase b = fold nocase c
  | range a b => fold nocase a ≤ fold nocase c ∧ fold nocase c ≤ fold nocase b ∨
      fold nocase b ≤ fold nocase c ∧ fold nocase c ≤ fold nocase a

/-- Whether a part matches a byte. -/
def Single.Test (nocase : Bool) : Single → UInt8 → Prop
  | any, _ => True
  | listed negated items _, c => (∃ item ∈ items, item.Lists nocase c) ↔ negated = false
  | byte b, c => fold nocase b = fold nocase c

/-! ## What the code compares -/

/-- The test of an item in the loop over a bracket. -/
def Item.found (nocase : Bool) (c : UInt8) : Item → Bool
  | byte b => sameChar nocase b c
  | escaped b => b == c
  | range a b => inCharRange nocase a b c

/-- A class that is not closed, and ends with a backslash. -/
def Single.dangling : Single → Bool
  | listed _ _ dangling => dangling
  | _ => false

section Bracket

variable (nocase : Bool) (c : UInt8)

end Bracket

section Loop

variable {nocase : Bool} {p : UInt8} {pattern string : Bytes}

end Loop

section Refines

variable {nocase : Bool} {string : Bytes}

variable {pattern : Bytes}

variable {p : UInt8} {r : Option (Bytes × Bytes)}

end Refines

/-! ## Comparisons that go wrong -/

/-- The test of an item goes wrong: an escaped letter is compared with the other case of it; the
ends of a range change their order when their case is dropped, and then no byte is found; or one
end of a range is a negative `char` and the other is not, and a byte is no end of it. -/
def Item.Errs (nocase : Bool) (c : UInt8) : Item → Prop
  | byte _ => False
  | escaped b => b ≠ c ∧ fold nocase b = fold nocase c
  | range a b =>
    if a < 128 ↔ b < 128 then
      (a < b ∧ fold nocase b < fold nocase a ∨ b < a ∧ fold nocase a < fold nocase b) ∧
        (range a b).Lists nocase c
    else fold nocase c ≠ fold nocase a ∧ fold nocase c ≠ fold nocase b

/-- The test of a part may go wrong: the one of an item of a class does, or the class makes the
code read behind the pattern. -/
def Single.Errs (nocase : Bool) (c : UInt8) : Single → Prop
  | listed _ items dangling => dangling = true ∨ ∃ item ∈ items, item.Errs nocase c
  | _ => False

/-- No comparison that is reached goes wrong, and the `NUL` behind an empty string is not taken for
a byte of it. -/
structure Clean (nocase : Bool) (ps : List (Globs.Part Single)) (string : Bytes) : Prop where
  nul : string = [] → ∀ t rest, ps = .one t :: rest → t = .any ∨ ¬ t.Errs nocase 0 ∧ ¬ t.Test nocase 0
  reached : ∀ t c, Reached (Single.Test nocase) ps string t c → ¬ t.Errs nocase c

end Redis.Glob
