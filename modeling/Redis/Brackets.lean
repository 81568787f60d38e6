import Mathlib

/-!
# Redis.Brackets

Lists of single elements and of whole blocks: a stream in which what belongs together is never
cut, nor mixed with anything else.
-/

namespace Redis

variable {α : Type}

/-- Elements that may stand alone, and blocks. -/
inductive Bracketed (outside : α → Prop) (block : List α → Prop) : List α → Prop where
  | nil : Bracketed outside block []
  | outside {xs : List α} {x : α} :
      Bracketed outside block xs → outside x → Bracketed outside block (xs ++ [x])
  | block {xs ys : List α} :
      Bracketed outside block xs → block ys → Bracketed outside block (xs ++ ys)

namespace Bracketed

variable {outside : α → Prop} {block : List α → Prop} {xs ys : List α}

end Bracketed

end Redis
