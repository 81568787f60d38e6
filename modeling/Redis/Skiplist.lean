import Mathlib.Data.List.Lex
import Mathlib.Order.Lex
import Redis.Bytes

/-!
# Redis.Skiplist

The skiplist of `t_zset.c`: nodes that stand in the order of their scores and
objects, each with a forward pointer and a span for every level it takes part in.

A pointer is an address, and `none` an access to memory that is not there or a
failed assertion.  A `double` that is no `NaN` is a value of a linear order, and
a string object is its bytes: `compareStringObjects` decodes what is encoded.
-/

namespace Redis.Skiplist

def zskiplistMaxlevel : Nat := 32

structure ZskiplistLevel where
  forward : Option Nat
  span : Nat
deriving DecidableEq, Repr

structure ZskiplistNode (S : Type) where
  /-- `NULL` in the header. -/
  obj : Option Bytes
  score : S
  backward : Option Nat
  level : List ZskiplistLevel
deriving Repr

structure Zskiplist (S : Type) where
  /-- The memory: the node at an address. -/
  node : Nat → Option (ZskiplistNode S)
  header : Nat
  tail : Option Nat
  length : Nat
  level : Nat

/-- `memcmp` of equally many bytes. -/
def memcmp : Bytes → Bytes → Int
  | a :: as, b :: bs => if a = b then memcmp as bs else (a.toNat : Int) - b.toNat
  | _, _ => 0

/-- `compareStringObjects`.  A string has at most 512 MB, so that the difference of two lengths is
an `int`. -/
def compareStringObjects (a b : Bytes) : Int :=
  let minlen := min a.length b.length
  let cmp := memcmp (a.take minlen) (b.take minlen)
  if cmp = 0 then (a.length : Int) - b.length else cmp

variable {S : Type}

/-! ## Walking -/

/-- The loop that goes forward in one level, which all functions share:
`while (x->level[i].forward && go) { rank += x->level[i].span; x = x->level[i].forward; }`.
The condition sees the next node, and the rank it has. -/
def zslForward (zsl : Zskiplist S) (go : Nat → ZskiplistNode S → Option Bool) (i : Nat) :
    (fuel : Nat) → (x rank : Nat) → Option (Nat × Nat)
  | 0, _, _ => none
  | fuel + 1, x, rank => do
    let l ← (← zsl.node x).level[i]?
    match l.forward with
    | none => return (x, rank)
    | some next =>
      if ← go (rank + l.span) (← zsl.node next) then
        zslForward zsl go i fuel next (rank + l.span)
      else return (x, rank)

/-- `for (i = zsl->level-1; i >= 0; i--)` over that loop: the last node, and in which node each
level was left (`update`). -/
def zslDescend (zsl : Zskiplist S) (go : Nat → ZskiplistNode S → Option Bool) :
    (i : Nat) → (x rank : Nat) → Option (Nat × List Nat)
  | 0, x, _ => some (x, [])
  | i + 1, x, rank => do
    let (x, rank) ← zslForward zsl go i (zsl.length + 1) x rank
    let (y, update) ← zslDescend zsl go i x rank
    return (y, update ++ [x])

/-- `x->level[0].forward`. -/
def zslNext (zsl : Zskiplist S) (x : Nat) : Option (Option Nat) := do
  let l ← (← zsl.node x).level[0]?
  return l.forward

variable [LinearOrder S]

/-- The test by which a node stands before a score and an object. -/
def zslBefore (score : S) (obj : Bytes) (_rank : Nat) (nd : ZskiplistNode S) :
    Option Bool := do
  let o ← nd.obj
  return decide (nd.score < score) ||
    (decide (nd.score = score) && decide (compareStringObjects o obj < 0))

/-! ## Ranges -/

structure Zrangespec (S : Type) where
  min : S
  max : S
  minex : Bool
  maxex : Bool
deriving DecidableEq, Repr

def zslValueGteMin (value : S) (spec : Zrangespec S) : Bool :=
  if spec.minex then decide (spec.min < value) else decide (spec.min ≤ value)

def zslValueLteMax (value : S) (spec : Zrangespec S) : Bool :=
  if spec.maxex then decide (value < spec.max) else decide (value ≤ spec.max)

/-- A range as its functions use it: the test that it is empty, and the tests of a node. -/
structure ZslRange (S : Type) where
  empty : Bool
  gteMin : ZskiplistNode S → Option Bool
  lteMax : ZskiplistNode S → Option Bool

/-- What `zslIsInRange` and `zslIsInLexRange` do. -/
def zslIsIn (zsl : Zskiplist S) (range : ZslRange S) : Option Bool := do
  if range.empty then return false
  else
    match zsl.tail with
    | none => return false
    | some x =>
      if !(← range.gteMin (← zsl.node x)) then return false
      else
        match ← zslNext zsl zsl.header with
        | none => return false
        | some x => range.lteMax (← zsl.node x)

/-- What `zslFirstInRange` and `zslFirstInLexRange` do. -/
def zslFirstIn (zsl : Zskiplist S) (range : ZslRange S) : Option (Option Nat) := do
  if !(← zslIsIn zsl range) then return none
  else
    let (x, _) ← zslDescend zsl (fun _ nd => (range.gteMin nd).map (!·)) zsl.level zsl.header 0
    -- redisAssert(x != NULL)
    let x ← ← zslNext zsl x
    if !(← range.lteMax (← zsl.node x)) then return none
    else return some x

/-- What `zslLastInRange` and `zslLastInLexRange` do. -/
def zslLastIn (zsl : Zskiplist S) (range : ZslRange S) : Option (Option Nat) := do
  if !(← zslIsIn zsl range) then return none
  else
    let (x, _) ← zslDescend zsl (fun _ nd => range.lteMax nd) zsl.level zsl.header 0
    if !(← range.gteMin (← zsl.node x)) then return none
    else return some x

def Zrangespec.range (spec : Zrangespec S) : ZslRange S where
  empty := decide (spec.max < spec.min) || (decide (spec.min = spec.max) && (spec.minex || spec.maxex))
  gteMin nd := some (zslValueGteMin nd.score spec)
  lteMax nd := some (zslValueLteMax nd.score spec)

def zslFirstInRange (zsl : Zskiplist S) (range : Zrangespec S) : Option (Option Nat) :=
  zslFirstIn zsl range.range

def zslLastInRange (zsl : Zskiplist S) (range : Zrangespec S) : Option (Option Nat) :=
  zslLastIn zsl range.range

/-! ## Ranks -/

/-- The test of `zslGetRank`, which stands behind the object it looks for. -/
def zslUpTo (score : S) (o : Bytes) (_rank : Nat) (nd : ZskiplistNode S) : Option Bool := do
  let obj ← nd.obj
  return decide (nd.score < score) ||
    (decide (nd.score = score) && decide (compareStringObjects obj o ≤ 0))

/-- The loop of `zslGetRank` over the levels. -/
def zslGetRankLoop (zsl : Zskiplist S) (score : S) (o : Bytes) :
    (i : Nat) → (x rank : Nat) → Option Nat
  | 0, _, _ => some 0
  | i + 1, x, rank => do
    let (x, rank) ← zslForward zsl (zslUpTo score o) i (zsl.length + 1) x rank
    -- x might be equal to zsl->header, so test if obj is non-NULL
    if (← zsl.node x).obj = some o then return rank
    else zslGetRankLoop zsl score o i x rank

def zslGetRank (zsl : Zskiplist S) (score : S) (o : Bytes) : Option Nat :=
  zslGetRankLoop zsl score o zsl.level zsl.header 0

/-- The loop of `zslGetElementByRank` over the levels. -/
def zslGetElementByRankLoop (zsl : Zskiplist S) (rank : Nat) :
    (i : Nat) → (x traversed : Nat) → Option (Option Nat)
  | 0, _, _ => some none
  | i + 1, x, traversed => do
    let (x, traversed) ← zslForward zsl (fun r _ => some (decide (r ≤ rank)))
      i (zsl.length + 1) x traversed
    if traversed = rank then return some x
    else zslGetElementByRankLoop zsl rank i x traversed

def zslGetElementByRank (zsl : Zskiplist S) (rank : Nat) : Option (Option Nat) :=
  zslGetElementByRankLoop zsl rank zsl.level zsl.header 0

/-! ## Deleting -/

/-- An assignment to the node at an address. -/
def Zskiplist.modNode (zsl : Zskiplist S) (x : Nat) (f : ZskiplistNode S → ZskiplistNode S) :
    Zskiplist S :=
  { zsl with node := fun y => if y = x then (zsl.node y).map f else zsl.node y }

def ZskiplistNode.setLevel (nd : ZskiplistNode S) (i : Nat) (l : ZskiplistLevel) :
    ZskiplistNode S :=
  { nd with level := nd.level.set i l }

/-- The loop of `zslDeleteNode` over the levels from `i` on: the node `x` is taken out of those it takes
part in. -/
def zslUnlink (zsl : Zskiplist S) (x : Nat) : (i : Nat) → (update : List Nat) → Option (Zskiplist S)
  | _, [] => some zsl
  | i, u :: update => do
    let l ← (← zsl.node u).level[i]?
    let l ← (if l.forward = some x then do
        let lx ← (← zsl.node x).level[i]?
        return ⟨lx.forward, l.span + lx.span - 1⟩
      else return { l with span := l.span - 1 })
    zslUnlink (zsl.modNode u (·.setLevel i l)) x (i + 1) update

/-- `while (zsl->level > 1 && zsl->header->level[zsl->level-1].forward == NULL) zsl->level--`. -/
def zslDropLevels (header : ZskiplistNode S) : (level : Nat) → Option Nat
  | 0 => some 0
  | level + 1 =>
    if level = 0 then some 1
    else do
      let l ← header.level[level]?
      if l.forward = none then zslDropLevels header level else return level + 1

/-- `if (x->level[0].forward) x->level[0].forward->backward = x->backward; else zsl->tail = x->backward`. -/
def zslRelink (zsl : Zskiplist S) (forward backward : Option Nat) : Zskiplist S :=
  match forward with
  | some next => zsl.modNode next ({ · with backward })
  | none => { zsl with tail := backward }

def zslDeleteNode (zsl : Zskiplist S) (x : Nat) (update : List Nat) : Option (Zskiplist S) := do
  let zsl ← zslUnlink zsl x 0 (update.take zsl.level)
  let nd ← zsl.node x
  let l ← nd.level[0]?
  let zsl := zslRelink zsl l.forward nd.backward
  let level ← zslDropLevels (← zsl.node zsl.header) zsl.level
  return { zsl with level := level, length := zsl.length - 1 }

def zslFreeNode (zsl : Zskiplist S) (x : Nat) : Zskiplist S :=
  { zsl with node := fun y => if y = x then none else zsl.node y }

/-- `zslDelete`; the `Bool` is the result. -/
def zslDelete (zsl : Zskiplist S) (score : S) (obj : Bytes) :
    Option (Zskiplist S × Bool) := do
  let (x, update) ← zslDescend zsl (zslBefore score obj) zsl.level zsl.header 0
  match ← zslNext zsl x with
  | none => return (zsl, false)
  | some x =>
    let nd ← zsl.node x
    if score = nd.score ∧ nd.obj = some obj then
      let zsl ← zslDeleteNode zsl x update
      return (zslFreeNode zsl x, true)
    else return (zsl, false)

end Redis.Skiplist
