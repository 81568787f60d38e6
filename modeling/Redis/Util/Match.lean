import Mathlib.Tactic.Common
import Redis.Bytes

/-!
# Redis.Util.Match

The glob-style matching of `util.c`.

A pattern is what is left of it; behind its last byte there is one `NUL`, and then
nothing.  A string is `some` of what is left of it, and `none` where its pointer
has moved behind the `NUL`.  A result `none` is an access behind a `NUL`.
-/

namespace Redis

open List Option

/-- A `char`, which is signed. -/
def charInt (b : UInt8) : Int := b.toInt8.toInt

/-- `tolower` in the C locale. -/
def tolower (c : Int) : Int := if 65 ≤ c ∧ c ≤ 90 then c + 32 else c

/-- `string[0]`. -/
def headChar : Option Bytes → Option UInt8
  | some (c :: _) => some c
  | some [] => some 0
  | none => none

/-- `string++, stringLen--`. -/
def nextChar : Option Bytes → Option Bytes
  | some (_ :: s) => some s
  | some [] => none
  | none => none

/-- The test of one byte, with `nocase`. -/
def sameChar (nocase : Bool) (a b : UInt8) : Bool :=
  if nocase then tolower (charInt a) == tolower (charInt b) else a == b

/-- The test of a range of bytes. -/
def inCharRange (nocase : Bool) (a b c : UInt8) : Bool :=
  let lo := min (charInt a) (charInt b)
  let hi := max (charInt a) (charInt b)
  if nocase then decide (tolower lo ≤ tolower (charInt c) ∧ tolower (charInt c) ≤ tolower hi)
  else decide (lo ≤ charInt c ∧ charInt c ≤ hi)

/-- The loop over a bracket: `match`, and the pattern behind the bracket.  A backslash that ends
the pattern has the loop go on behind it. -/
def matchBracket (nocase : Bool) (c : Option UInt8) (found : Bool) :
    (pattern : Bytes) → Option (Bool × Bytes)
  | [] => some (found, [])
  | p :: pattern =>
    if p = '\\'.toUInt8 then
      match pattern with
      | [] => none
      | q :: pattern => do
        let c' ← c
        matchBracket nocase c (found || q == c') pattern
    else if p = ']'.toUInt8 then some (found, pattern)
    else
      match pattern with
      | dash :: q :: rest => do
        let c' ← c
        if dash = '-'.toUInt8 then
          matchBracket nocase c (found || inCharRange nocase p q c') rest
        else matchBracket nocase c (found || sameChar nocase p c') (dash :: q :: rest)
      | pattern => do
        let c' ← c
        matchBracket nocase c (found || sameChar nocase p c') pattern

/-- The loop over the strings that a star may leave.  Behind the `NUL` the length is never 0. -/
def matchStar (rest : Option Bytes → Option Bool) : Option Bytes → Option Bool
  | some [] => some false
  | some (c :: string) => do
    if ← rest (some (c :: string)) then return true else matchStar rest (some string)
  | none => do if ← rest none then return true else none

variable {nocase : Bool} {p : UInt8} {pattern rest : Bytes}

theorem matchBracket_length {c : Option UInt8} {found m : Bool}
    (h : matchBracket nocase c found pattern = some (m, rest)) : rest.length ≤ pattern.length := by
  fun_induction matchBracket nocase c found pattern with
  | case1 found =>
    cases h
    exact Nat.le_refl _
  | case2 => cases h
  | case3 found q pattern ih =>
    obtain ⟨c', -, h⟩ := bind_eq_some_iff.mp h
    have := ih c' h
    simp only [length_cons]
    omega
  | case4 =>
    cases h
    simp
  | case5 found p hslash hclose dash q rest ihr ihs =>
    obtain ⟨c', -, h⟩ := bind_eq_some_iff.mp h
    simp only [length_cons]
    split at h
    · have := ihr c' h
      omega
    · have := ihs c' h
      simp only [length_cons] at this
      omega
  | case6 found p pattern hslash hclose hshort ih =>
    obtain ⟨c', -, h⟩ := bind_eq_some_iff.mp h
    have := ih c' h
    simp only [length_cons]
    omega

/-- The byte that stands for itself at the front of a pattern: a backslash stands for the byte
behind it, if there is one. -/
def unescape (p : UInt8) : Bytes → UInt8 × Bytes
  | [] => (p, [])
  | q :: pattern => if p = '\\'.toUInt8 then (q, pattern) else (p, q :: pattern)

theorem unescape_length (p : UInt8) (pattern : Bytes) :
    (unescape p pattern).2.length ≤ pattern.length := by
  cases pattern with
  | nil => exact Nat.le_refl _
  | cons q pattern =>
    rw [unescape]
    split <;> simp

/-- One pass of the loop of `stringmatchlen`, for a pattern that does not start with a star: what is
left of the pattern and the string, or `none` if they do not match. -/
def matchOne (nocase : Bool) (p : UInt8) (pattern : Bytes) (string : Option Bytes) :
    Option (Option (Bytes × Option Bytes)) :=
  if p = '?'.toUInt8 then
    some (if string = some [] then none else some (pattern, nextChar string))
  else if p = '['.toUInt8 then do
    let not := pattern.head? == some '^'.toUInt8
    let (found, pattern) ←
      matchBracket nocase (headChar string) false (if not then pattern.tail else pattern)
    return if found != not then some (pattern, nextChar string) else none
  else do
    let lit := unescape p pattern
    let c ← headChar string
    return if sameChar nocase lit.1 c then some (lit.2, nextChar string) else none

theorem matchOne_length {string string' : Option Bytes}
    (h : matchOne nocase p pattern string = some (some (rest, string'))) :
    rest.length ≤ pattern.length := by
  rw [matchOne] at h
  split at h
  · split at h
    · cases h
    · cases h
      exact Nat.le_refl _
  split at h
  · obtain ⟨⟨found, pattern'⟩, hbracket, h⟩ := bind_eq_some_iff.mp h
    have hle := matchBracket_length hbracket
    have htail : (if pattern.head? == some '^'.toUInt8 then pattern.tail else pattern).length ≤
        pattern.length := by
      split <;> simp
    rw [Option.pure_def, Option.some.injEq] at h
    split at h
    · cases h
      exact Nat.le_trans hle htail
    · cases h
  · obtain ⟨c, -, h⟩ := bind_eq_some_iff.mp h
    rw [Option.pure_def, Option.some.injEq] at h
    split at h
    · cases h
      exact unescape_length p pattern
    · cases h

def stringmatchlen (nocase : Bool) (pattern : Bytes) (string : Option Bytes) :
    Option Bool :=
  match pattern with
  | [] => some (string == some [])
  | p :: pattern =>
    if p = '*'.toUInt8 then
      match pattern with
      | [] => some true
      | q :: rest =>
        if q = '*'.toUInt8 then stringmatchlen nocase (q :: rest) string
        else matchStar (fun s => stringmatchlen nocase (q :: rest) s) string
    else
      match _h : matchOne nocase p pattern string with
      | none => none
      | some none => some false
      | some (some (pattern', string')) =>
        -- a string that is used up leaves only stars
        if string' = some [] then some (pattern'.dropWhile (· == '*'.toUInt8)).isEmpty
        else stringmatchlen nocase pattern' string'
termination_by pattern.length
decreasing_by
  · simp
  · simp
  · have := matchOne_length ‹_›
    simp only [length_cons]
    omega

/-! ## Patterns that stay inside -/

theorem matchStar_isSome {rest : Option Bytes → Option Bool} {string : Bytes}
    (hrest : ∀ c s, (rest (some (c :: s))).isSome) : (matchStar rest (some string)).isSome := by
  induction string with
  | nil =>
    rw [matchStar]
    rfl
  | cons c s ih =>
    obtain ⟨m, hm⟩ := isSome_iff_exists.mp (hrest c s)
    rw [matchStar, hm]
    cases m
    · exact ih
    · rfl

theorem unescape_mem {q : UInt8} (hq : q ∈ (unescape p pattern).2) : q ∈ pattern := by
  cases pattern with
  | nil => exact hq
  | cons r pattern =>
    rw [unescape] at hq
    split at hq
    · exact mem_cons_of_mem _ hq
    · exact hq

theorem matchOne_plain (nocase : Bool) {p c : UInt8} (pattern string : Bytes)
    (hp : p ≠ '['.toUInt8) :
    ∃ r, matchOne nocase p pattern (some (c :: string)) = some r ∧
      ∀ rest string', r = some (rest, string') → string' = some string ∧ rest ⊆ pattern := by
  rw [matchOne, if_neg hp]
  split
  · refine ⟨_, rfl, fun rest string' h => ?_⟩
    cases h
    exact ⟨rfl, Subset.refl _⟩
  · refine ⟨_, rfl, fun rest string' h => ?_⟩
    split at h
    · cases h
      exact ⟨rfl, fun q hq => unescape_mem hq⟩
    · cases h

/-- A pattern without brackets is compared with a string that is not empty without an access behind
a `NUL`. -/
theorem stringmatchlen_isSome {nocase : Bool} {pattern : Bytes} {c : UInt8}
    {string : Bytes} (h : '['.toUInt8 ∉ pattern) :
    (stringmatchlen nocase pattern (some (c :: string))).isSome := by
  generalize hs : some (c :: string) = s
  fun_induction stringmatchlen nocase pattern s generalizing c string with
  | case1 => rfl
  | case2 => rfl
  | case3 s rest ih => exact ih (fun hmem => h (mem_cons_of_mem _ hmem)) hs
  | case4 s q rest hq ih =>
    subst hs
    exact matchStar_isSome fun c s => ih _ (fun hmem => h (mem_cons_of_mem _ hmem)) rfl
  | case5 s p pattern hp hone =>
    subst hs
    obtain ⟨r, hr, -⟩ := matchOne_plain nocase pattern string fun heq => h (heq ▸ mem_cons_self)
    rw [hr] at hone
    cases hone
  | case6 => rfl
  | case7 => rfl
  | case8 s p pattern hp rest s' hone hne ih =>
    subst hs
    obtain ⟨r, hr, hrest⟩ :=
      matchOne_plain nocase pattern string fun heq => h (heq ▸ mem_cons_self)
    rw [hr, Option.some.injEq] at hone
    obtain ⟨rfl, hsub⟩ := hrest _ _ hone
    cases string with
    | nil => exact absurd rfl hne
    | cons c s => exact ih (fun hmem => h (mem_cons_of_mem _ (hsub hmem))) rfl

end Redis
