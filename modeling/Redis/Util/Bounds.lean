import Redis.Util.Match

/-!
# Redis.Util.Bounds

`stringmatchlen` with its accesses and its lengths.

The length of what is left of a pattern or a string is what the code counts down; behind the
bytes there may be some that are `NUL`.  A read behind those, and a length below zero, is a fault.
-/

namespace Redis.Bounds

/-- A read behind the bytes that are there, and a length below zero. -/
inductive Fault where
  | outside
  | negative
deriving DecidableEq

/-- `bytes[k]`, where `after` bytes follow. -/
def readAt (after : Nat) (bytes : Bytes) (k : Nat) : Except Fault UInt8 :=
  match bytes[k]? with
  | some b => .ok b
  | none => if k < bytes.length + after then .ok 0 else .error .outside

/-- `bytes++, length--`. -/
def advance : Bytes → Except Fault Bytes
  | [] => .error .negative
  | _ :: bytes => .ok bytes

section Model

variable (after : Nat) (nocase : Bool)

/-- The loop over a bracket: `match`, and the pattern behind the bracket. -/
def matchBracket (string : Bytes) (found : Bool) : (pattern : Bytes) → Except Fault (Bool × Bytes)
  | [] => do
    let _ ← readAt after [] 0
    return (found, [])
  | p :: pattern =>
    if p = '\\'.toUInt8 then
      match pattern with
      | [] => do
        -- the byte behind the pattern is compared, and the pattern is advanced once more
        let _ ← readAt after [] 0
        let _ ← readAt after string 0
        let pattern ← advance []
        return (found, pattern)
      | q :: pattern => do
        let c ← readAt after string 0
        matchBracket string (found || q == c) pattern
    else if p = ']'.toUInt8 then .ok (found, pattern)
    else
      match pattern with
      | dash :: q :: rest => do
        let c ← readAt after string 0
        if dash = '-'.toUInt8 then matchBracket string (found || inCharRange nocase p q c) rest
        else matchBracket string (found || sameChar nocase p c) (dash :: q :: rest)
      | pattern => do
        let _ ← readAt after pattern 0
        let c ← readAt after string 0
        matchBracket string (found || sameChar nocase p c) pattern

/-- The loop over the strings that a star may leave. -/
def matchStar (rest : Bytes → Except Fault Bool) : Bytes → Except Fault Bool
  | [] => .ok false
  | c :: string => do
    if ← rest (c :: string) then return true else matchStar rest string

/-- One pass of the loop of `stringmatchlen`, for a pattern that does not start with a star: what is
left of the pattern and the string, or `none` if they do not match. -/
def matchOne (p : UInt8) (pattern string : Bytes) : Except Fault (Option (Bytes × Bytes)) :=
  if p = '?'.toUInt8 then
    if string = [] then .ok none
    else do
      let string ← advance string
      return some (pattern, string)
  else if p = '['.toUInt8 then do
    let first ← readAt after pattern 0
    let not := first == '^'.toUInt8
    let (found, pattern) ← matchBracket after nocase string false (if not then pattern.tail else pattern)
    if found != not then
      let string ← advance string
      return some (pattern, string)
    else return none
  else do
    let lit := unescape p pattern
    let c ← readAt after string 0
    if sameChar nocase lit.1 c then
      let string ← advance string
      return some (lit.2, string)
    else return none

end Model

section Length

variable {after : Nat} {nocase : Bool} {string : Bytes}

/-- What a program returns, after a step that did not fail. -/
theorem bind_eq_ok {α β : Type} {m : Except Fault α} {f : α → Except Fault β} {b : β} :
    m >>= f = .ok b ↔ ∃ a, m = .ok a ∧ f a = .ok b := by
  cases m with
  | error e =>
    refine iff_of_false (fun h => ?_) ?_
    · cases h
    · rintro ⟨a, h, -⟩
      cases h
  | ok a =>
    refine ⟨fun h => ⟨a, rfl, h⟩, ?_⟩
    rintro ⟨a', h, hf⟩
    obtain rfl := Except.ok.inj h
    exact hf

theorem matchBracket_length {found m : Bool} {pattern rest : Bytes}
    (h : matchBracket after nocase string found pattern = .ok (m, rest)) :
    rest.length ≤ pattern.length := by
  fun_induction matchBracket after nocase string found pattern with
  | case1 found =>
    obtain ⟨_, -, h⟩ := bind_eq_ok.mp h
    cases h
    exact Nat.le_refl _
  | case2 found =>
    obtain ⟨_, -, h⟩ := bind_eq_ok.mp h
    obtain ⟨_, -, h⟩ := bind_eq_ok.mp h
    cases h
  | case3 found q pattern ih =>
    obtain ⟨c, -, h⟩ := bind_eq_ok.mp h
    have hle := ih c h
    simp only [List.length_cons]
    omega
  | case4 =>
    cases h
    exact Nat.le_succ _
  | case5 found p hslash hclose dash q rest ihr ihs =>
    obtain ⟨c, -, h⟩ := bind_eq_ok.mp h
    simp only [List.length_cons]
    split at h
    · have hle := ihr c h
      omega
    · have hle := ihs c h
      simp only [List.length_cons] at hle
      omega
  | case6 found p pattern hslash hclose hshort ih =>
    obtain ⟨_, -, h⟩ := bind_eq_ok.mp h
    obtain ⟨c, -, h⟩ := bind_eq_ok.mp h
    have hle := ih c h
    simp only [List.length_cons]
    omega

theorem matchOne_length {p : UInt8} {pattern rest string' : Bytes}
    (h : matchOne after nocase p pattern string = .ok (some (rest, string'))) :
    rest.length ≤ pattern.length := by
  rw [matchOne] at h
  split at h
  · split at h
    · cases h
    · obtain ⟨_, -, h⟩ := bind_eq_ok.mp h
      cases h
      exact Nat.le_refl _
  split at h
  · obtain ⟨first, -, h⟩ := bind_eq_ok.mp h
    obtain ⟨⟨found, pattern'⟩, hbracket, h⟩ := bind_eq_ok.mp h
    have hle := matchBracket_length hbracket
    have htail : (if first == '^'.toUInt8 then pattern.tail else pattern).length ≤
        pattern.length := by
      split <;> simp
    dsimp only at h
    split at h
    · obtain ⟨_, -, h⟩ := bind_eq_ok.mp h
      cases h
      exact Nat.le_trans hle htail
    · cases h
  · obtain ⟨c, -, h⟩ := bind_eq_ok.mp h
    split at h
    · obtain ⟨_, -, h⟩ := bind_eq_ok.mp h
      cases h
      exact unescape_length p pattern
    · cases h

end Length

def stringmatchlen (after : Nat) (nocase : Bool) (pattern string : Bytes) : Except Fault Bool :=
  match pattern with
  | [] => .ok string.isEmpty
  | p :: pattern =>
    if p = '*'.toUInt8 then do
      let _ ← readAt after pattern 0
      match pattern with
      | [] => return true
      | q :: rest =>
        if q = '*'.toUInt8 then stringmatchlen after nocase (q :: rest) string
        else matchStar (fun s => stringmatchlen after nocase (q :: rest) s) string
    else
      match _h : matchOne after nocase p pattern string with
      | .error fault => .error fault
      | .ok none => .ok false
      | .ok (some (pattern', string')) =>
        -- a string that is used up leaves only stars
        if string' = [] then do
          let rest := pattern'.dropWhile (· == '*'.toUInt8)
          let _ ← readAt after rest 0
          return rest.isEmpty
        else stringmatchlen after nocase pattern' string'
termination_by pattern.length
decreasing_by
  · simp
  · simp
  · have hle := matchOne_length ‹_›
    simp only [List.length_cons]
    omega

end Redis.Bounds
