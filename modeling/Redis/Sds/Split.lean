import Mathlib.Data.List.Basic
import Redis.Bytes

/-!
# Redis.Sds.Split

`sdssplitargs` of `sds.c`, which splits a line into words.  The line is a C string,
so that its end is a null byte.
-/

namespace Redis.Sds

/-- `isspace` in the C locale. -/
def isspace (b : UInt8) : Bool := b == 32 || (9 ≤ b && b ≤ 13)

/-- `is_hex_digit` and `hex_digit_to_int`. -/
def hexDigit (b : UInt8) : Option UInt8 :=
  if 48 ≤ b ∧ b ≤ 57 then some (b - 48)
  else if 97 ≤ b ∧ b ≤ 102 then some (b - 87)
  else if 65 ≤ b ∧ b ≤ 70 then some (b - 55)
  else none

/-- The escapes of a single letter inside double quotes. -/
def unescape (b : UInt8) : UInt8 :=
  if b = 110 then 10
  else if b = 114 then 13
  else if b = 116 then 9
  else if b = 98 then 8
  else if b = 97 then 7
  else b

/-- Whether the token is inside quotes: `inq` and `insq`. -/
inductive Quote where
  | no
  | double
  | single
  deriving DecidableEq

/-- A closing quote must be followed by a space or nothing at all. -/
def closes : Bytes → Bool
  | [] => true
  | b :: _ => isspace b

/-- The byte of an escape `\xHH`, behind the backslash. -/
def hexByte (c d e : UInt8) : Option UInt8 :=
  if c = 120 then do
    let hi ← hexDigit d
    let lo ← hexDigit e
    pure (hi * 16 + lo)
  else none

/-- The `while(!done)` loop: the token and what is behind it, or `none` for unbalanced
quotes. -/
@[grind =]
def splitToken : Quote → Bytes → Bytes → Option (Bytes × Bytes)
  | .no, current, [] => some (current, [])
  | .double, _, [] => none
  | .single, _, [] => none
  | .no, current, b :: p =>
    if b = 32 ∨ b = 10 ∨ b = 13 ∨ b = 9 then some (current, p)
    else if b = 34 then splitToken .double current p
    else if b = 39 then splitToken .single current p
    else splitToken .no (current ++ [b]) p
  | .double, current, b :: p =>
    if b = 92 then
      match p with
      | [] => none
      | c :: d :: e :: p =>
        match hexByte c d e with
        | some byte => splitToken .double (current ++ [byte]) p
        | none => splitToken .double (current ++ [unescape c]) (d :: e :: p)
      | c :: p => splitToken .double (current ++ [unescape c]) p
    else if b = 34 then if closes p then some (current, p) else none
    else splitToken .double (current ++ [b]) p
  | .single, current, b :: p =>
    if b = 39 then if closes p then some (current, p) else none
    else
      match p with
      | 39 :: p' =>
        if b = 92 then splitToken .single (current ++ [39]) p'
        else splitToken .single (current ++ [b]) (39 :: p')
      | p => splitToken .single (current ++ [b]) p
termination_by structural _ _ p => p

/-- The `while(1)` loop: the words of a line of `fuel` bytes at most. -/
def splitLoop : Nat → Bytes → Option (List Bytes)
  | 0, _ => some []
  | fuel + 1, p =>
    match p.dropWhile isspace with
    | [] => some []
    | b :: p => do
      let (token, p) ← splitToken .no [] (b :: p)
      let vector ← splitLoop fuel p
      pure (token :: vector)

def sdssplitargs (line : Bytes) : Option (List Bytes) :=
  let line := line.takeWhile (· ≠ 0)
  splitLoop (line.length + 1) line

example : sdssplitargs [97, 32, 34, 98, 92, 120, 54, 51, 34] = some [[97], [98, 99]] := by decide

/-! ## The quoted form of a text -/

def hexChar (n : UInt8) : UInt8 := if n < 10 then n + 48 else n + 87

/-- How `sdscatrepr` writes one byte. -/
def reprByte (b : UInt8) : Bytes :=
  if b = 92 ∨ b = 34 then [92, b]
  else if b = 10 then [92, 110]
  else if b = 13 then [92, 114]
  else if b = 9 then [92, 116]
  else if b = 7 then [92, 97]
  else if b = 8 then [92, 98]
  else if 32 ≤ b ∧ b ≤ 126 then [b]
  else [92, 120, hexChar (b / 16), hexChar (b % 16)]

/-- `sdscatrepr`, what it appends. -/
def sdscatrepr (w : Bytes) : Bytes := 34 :: (w.flatMap reprByte ++ [34])

end Redis.Sds
