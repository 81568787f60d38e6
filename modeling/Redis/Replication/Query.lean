import Redis.Replication.Feed
import Redis.Sds.Split

/-!
# Redis.Replication.Query

How a client's requests are read: `processInputBuffer` of `networking.c` with the
state it keeps between two reads.

On a stream of well-formed commands, cut into reads in any way, the parser never
sees an error and never stops while a whole command is in its buffer.
-/

namespace Redis.Replication

open List

/-! ## The parser -/

def REDIS_INLINE_MAX_SIZE : Nat := 1024 * 64

def REDIS_MBULK_BIG_ARG : Nat := 1024 * 32

def REDIS_IOBUF_LEN : Nat := 1024 * 16

/-- `REDIS_MAX_QUERYBUF_LEN`, the value of `server.client_max_querybuf_len`. -/
def REDIS_MAX_QUERYBUF_LEN : Nat := 1024 * 1024 * 1024

/-- `REDIS_REQ_INLINE` and `REDIS_REQ_MULTIBULK`. -/
inductive ReqType where
  | inline
  | multibulk
  deriving DecidableEq

/-- The fields of a client that belong to the request being read.  No `reqtype` is the
0 of a client that was reset, and no `bulklen` is -1. -/
structure Query where
  querybuf : Bytes
  reqtype : Option ReqType
  multibulklen : Nat
  bulklen : Option Nat
  argv : List Bytes

/-- What a function that reads a request returns: `REDIS_OK`, or `REDIS_ERR` with or
without `setProtocolError`. -/
inductive Parse where
  | ok
  | err
  | protocolError
  deriving DecidableEq

/-- `strchr`, which stops at a null byte. -/
def strchr (s : Bytes) (c : UInt8) : Option Nat := (s.takeWhile (· ≠ 0)).findIdx? (· = c)

def processInlineBuffer (q : Query) : Parse × Query :=
  match strchr q.querybuf 10 with
  | none => (if q.querybuf.length > REDIS_INLINE_MAX_SIZE then .protocolError else .err, q)
  | some newline =>
    let querylen :=
      if newline ≠ 0 ∧ q.querybuf[newline - 1]? = some 13 then newline - 1 else newline
    match Sds.sdssplitargs (q.querybuf.take querylen) with
    | none => (.protocolError, q)
    | some argv =>
      (.ok, { q with
        querybuf := q.querybuf.drop (querylen + 2)
        argv := argv.filter (· ≠ []) })

/-- What the first part of the loop of `processMultibulkBuffer` finds at `pos`. -/
inductive BulkLen where
  | more
  /-- `setProtocolError` with the position from which the buffer is kept. -/
  | protocolError (pos : Nat)
  /-- The buffer, the position and the length of the argument. -/
  | len (querybuf : Bytes) (pos ll : Nat)

/-- "Read bulk length if unknown". -/
def readBulkLen (querybuf : Bytes) (pos : Nat) : BulkLen :=
  match strchr (querybuf.drop pos) 13 with
  | none => if querybuf.length > REDIS_INLINE_MAX_SIZE then .protocolError 0 else .more
  | some newline =>
    if pos + newline + 2 > querybuf.length then .more
    else if querybuf[pos]? ≠ some 36 then .protocolError pos
    else
      match string2ll ((querybuf.drop (pos + 1)).take (newline - 1)) with
      | none => .protocolError pos
      | some ll =>
        if ll < 0 ∨ ll > 512 * 1024 * 1024 then .protocolError pos
        else if ll ≥ REDIS_MBULK_BIG_ARG then
          .len (querybuf.drop (pos + newline + 2)) 0 ll.toNat
        else .len querybuf (pos + newline + 2) ll.toNat

/-- The `while(c->multibulklen)` loop of `processMultibulkBuffer`, and the trimming
behind it. -/
@[grind =]
def multibulkLoop : (multibulklen : Nat) → (querybuf : Bytes) → (pos : Nat) →
    (bulklen : Option Nat) → (argv : List Bytes) → Parse × Query
  | 0, querybuf, pos, bulklen, argv =>
    (.ok, ⟨querybuf.drop pos, some .multibulk, 0, bulklen, argv⟩)
  | n + 1, querybuf, pos, bulklen, argv =>
    match (match bulklen with
      | some len => .len querybuf pos len
      | none => readBulkLen querybuf pos : BulkLen) with
    | .more => (.err, ⟨querybuf.drop pos, some .multibulk, n + 1, none, argv⟩)
    | .protocolError pos =>
      (.protocolError, ⟨querybuf.drop pos, some .multibulk, n + 1, none, argv⟩)
    | .len querybuf pos len =>
      if querybuf.length - pos < len + 2 then
        (.err, ⟨querybuf.drop pos, some .multibulk, n + 1, some len, argv⟩)
      else if pos = 0 ∧ len ≥ REDIS_MBULK_BIG_ARG ∧ querybuf.length = len + 2 then
        multibulkLoop n [] 0 none (argv ++ [querybuf.take len])
      else
        multibulkLoop n querybuf (pos + len + 2) none
          (argv ++ [(querybuf.drop pos).take len])

def processMultibulkBuffer (q : Query) : Parse × Query :=
  if q.multibulklen = 0 then
    match strchr q.querybuf 13 with
    | none => (if q.querybuf.length > REDIS_INLINE_MAX_SIZE then .protocolError else .err, q)
    | some newline =>
      if newline + 2 > q.querybuf.length then (.err, q)
      else
        match string2ll ((q.querybuf.drop 1).take (newline - 1)) with
        | none => (.protocolError, q)
        | some ll =>
          if ll > 1024 * 1024 then (.protocolError, q)
          else if ll ≤ 0 then (.ok, { q with querybuf := q.querybuf.drop (newline + 2) })
          else multibulkLoop ll.toNat q.querybuf (newline + 2) q.bulklen q.argv
  else multibulkLoop q.multibulklen q.querybuf 0 q.bulklen q.argv

def resetClient (q : Query) : Query :=
  { q with reqtype := none, multibulklen := 0, bulklen := none, argv := [] }

/-- The number of bytes that `readQueryFromClient` asks for. -/
def readlen (q : Query) : Nat :=
  match q.bulklen with
  | some len =>
    if q.reqtype = some .multibulk ∧ q.multibulklen ≠ 0 ∧ len ≥ REDIS_MBULK_BIG_ARG then
      min REDIS_IOBUF_LEN (len + 2 - q.querybuf.length)
    else REDIS_IOBUF_LEN
  | none => REDIS_IOBUF_LEN

/-! ## Lines -/

variable {w future tail : Bytes}

theorem strchr_eq_some {xs : Bytes} (h : ∀ b ∈ xs, b ≠ 0 ∧ b ≠ 13) (rest : Bytes) :
    strchr (xs ++ 13 :: rest) 13 = some xs.length := by
  induction xs with
  | nil => simp [strchr, findIdx?_cons]
  | cons b xs ih =>
    have hb := h b (by simp)
    have := ih fun x hx => h x (by simp [hx])
    simp only [strchr, ne_eq, decide_not] at this ⊢
    simp [hb.1, hb.2, findIdx?_cons, this]

theorem strchr_eq_none {xs : Bytes} (h : ∀ b ∈ xs, b ≠ 0 ∧ b ≠ 13) : strchr xs 13 = none := by
  rw [strchr, findIdx?_eq_none_iff]
  intro b hb
  simpa using (h b (takeWhile_subset _ hb)).2

/-- The bytes before the CRLF of a line with a number. -/
def numLine (c : UInt8) (n : Nat) : Bytes := c :: decimal n

variable {c : UInt8} {n : Nat}

theorem mem_numLine (hc : c ≠ 0 ∧ c ≠ 13) : ∀ b ∈ numLine c n, b ≠ 0 ∧ b ≠ 13 := by
  intro b hb
  rcases mem_cons.mp hb with rfl | hb
  · exact hc
  · have := mem_decimal hb
    exact ⟨fun h => by simp [h] at this, fun h => by simp [h] at this⟩

/-- What is in the buffer of a line that is to come: the whole line, or less, and then
no `\r` with a byte behind it. -/
theorem numLine_cases (hc : c ≠ 0 ∧ c ≠ 13) (h : w ++ future = numLine c n ++ (crlf ++ tail)) :
    (∃ w', w = numLine c n ++ (crlf ++ w') ∧ w' ++ future = tail) ∨
    (w.length < (numLine c n).length + 2 ∧
      (strchr w 13 = none ∨ ∃ i, strchr w 13 = some i ∧ i + 2 > w.length)) := by
  have hmem := mem_numLine (n := n) hc
  rcases append_eq_append_iff.mp h with ⟨rest, hline, -⟩ | ⟨rest, rfl, hrest⟩
  · -- the buffer ends before the `\r`
    have hpre : w <+: numLine c n := ⟨rest, hline.symm⟩
    refine .inr ⟨?_, .inl (strchr_eq_none fun b hb => hmem b (hpre.subset hb))⟩
    have := hpre.length_le
    omega
  · match rest, hrest with
    | [], _ => exact .inr ⟨by simp, .inl (strchr_eq_none (by simpa using hmem))⟩
    | [x], hrest =>
      obtain rfl : x = 13 := by simpa [crlf] using (List.cons.inj hrest).1.symm
      exact .inr ⟨by simp, .inr ⟨_, strchr_eq_some hmem [], by simp⟩⟩
    | x :: y :: w', hrest =>
      simp only [crlf, cons_append, nil_append, List.cons.injEq] at hrest
      obtain ⟨rfl, rfl, hrest⟩ := hrest
      exact .inl ⟨w', by simp [crlf], hrest.symm⟩

theorem ll2string_natCast (h : n < 2 ^ 63) : ll2string n = decimal n := by
  rw [ll2string_eq (by omega) (by omega), if_neg (by omega), Int.natAbs_natCast]

theorem length_decimal_le {k : Nat} (h : n < 10 ^ (k + 1)) : (decimal n).length ≤ k + 1 := by
  induction k generalizing n with
  | zero => rw [length_decimal_of_lt (by simpa using h)]
  | succ k ih =>
    by_cases hn : n < 10
    · rw [length_decimal_of_lt hn]
      omega
    · rw [Nat.pow_succ] at h
      rw [length_decimal_of_ge (by omega)]
      have := ih (n := n / 10) (by omega)
      omega

/-! ## A request that is being read -/

/-- The limits that the parser has for the requests of any client. -/
structure WellFormed (argv : List Bytes) : Prop where
  ne_nil : argv ≠ []
  argc_le : argv.length ≤ 1024 * 1024
  length_le : ∀ a ∈ argv, a.length ≤ 512 * 1024 * 1024

/-- The bytes that are left of a request: of `todo`, with the length of its first
argument read or not. -/
def restBytes : (bulklen : Option Nat) → (todo : List Bytes) → Bytes
  | some _, a :: todo => a ++ (crlf ++ todo.flatMap fun a => bulk (.raw a))
  | _, todo => todo.flatMap fun a => bulk (.raw a)

theorem bulk_eq {a : Bytes} (h : a.length ≤ 512 * 1024 * 1024) :
    bulk (.raw a) = numLine 36 a.length ++ (crlf ++ (a ++ crlf)) := by
  rw [bulk, stringObjectLen, Robj.bytes, ll2string_natCast (by omega)]
  simp [numLine]

theorem length_numLine_le (h : n ≤ 512 * 1024 * 1024) : (numLine c n).length ≤ 11 := by
  have := length_decimal_le (n := n) (k := 9) (by omega)
  simp only [numLine, length_cons]
  omega

theorem readBulkLen_spec {qb a : Bytes} {pos : Nat} (hsmall : qb.length ≤ REDIS_INLINE_MAX_SIZE)
    (hpos : pos ≤ qb.length) (ha : a.length ≤ 512 * 1024 * 1024)
    (h : qb.drop pos ++ future = bulk (.raw a) ++ tail) :
    (∃ qb' pos', readBulkLen qb pos = .len qb' pos' a.length ∧ pos' ≤ qb'.length ∧
      qb'.length ≤ qb.length ∧ qb'.drop pos' ++ future = a ++ (crlf ++ tail)) ∨
    (readBulkLen qb pos = .more ∧ (qb.drop pos).length < (numLine 36 a.length).length + 2) := by
  have hlen := length_numLine_le (c := 36) ha
  rw [bulk_eq ha, append_assoc, append_assoc, append_assoc a] at h
  rcases numLine_cases (by decide) h with ⟨w', hw, hfuture⟩ | ⟨hshort, hstr⟩
  · left
    have hstr : strchr (qb.drop pos) 13 = some (numLine 36 a.length).length := by
      rw [hw]
      exact strchr_eq_some (mem_numLine (by decide)) _
    have hqlen := congrArg length hw
    have hhead : qb[pos]? = some 36 := by
      have := congrArg (·[0]?) hw
      simpa [numLine] using this
    have hdigits : (qb.drop (pos + 1)).take ((numLine 36 a.length).length - 1) =
        decimal a.length := by
      rw [← drop_drop, hw]
      simp [numLine]
    have hrest : qb.drop (pos + (numLine 36 a.length).length + 2) = w' := by
      rw [Nat.add_assoc, ← drop_drop, hw, drop_append, drop_eq_nil_of_le (by omega)]
      simp [crlf]
    simp only [length_append, length_drop, crlf, length_cons, length_nil]
      at hqlen
    rw [readBulkLen, hstr]
    simp only
    rw [if_neg (by omega), if_neg (by simp [hhead]), hdigits, string2ll_decimal (by omega)]
    simp only
    rw [if_neg (by omega)]
    split
    · exact ⟨_, 0, rfl, by omega, by simp, by rw [drop_zero, hrest, hfuture]⟩
    · exact ⟨qb, _, rfl, by omega, le_rfl, by rw [hrest, hfuture]⟩
  · right
    refine ⟨?_, hshort⟩
    rw [readBulkLen]
    rcases hstr with hnone | ⟨i, hi, hlt⟩
    · rw [hnone]
      simp only
      rw [if_neg (by omega)]
    · rw [hi]
      simp only
      rw [if_pos]
      rw [length_drop] at hlt
      omega

/-- The argument whose length has been read is the first one of `todo`. -/
def BulkOk (bulklen : Option Nat) (todo : List Bytes) : Prop :=
  ∀ len, bulklen = some len → ∃ a todo', todo = a :: todo' ∧ len = a.length

/-- The buffer is below the limit for a line, or holds a big argument and no more. -/
def Fits (qb : Bytes) (pos : Nat) (bulklen : Option Nat) : Prop :=
  qb.length ≤ REDIS_INLINE_MAX_SIZE ∨
    pos = 0 ∧ ∃ len, bulklen = some len ∧ REDIS_MBULK_BIG_ARG ≤ len ∧ qb.length ≤ len + 2

/-- Too little is in the buffer to go on. -/
def Query.Short (q : Query) : Prop :=
  match q.bulklen with
  | none => q.querybuf.length ≤ 12
  | some len => q.querybuf.length < len + 2

/-- A request of which the arguments `todo` are left to read, in the buffer or in what
is still to come. -/
structure Query.Reading (q : Query) (todo : List Bytes) (future tail : Bytes) :
    Prop where
  todo_ne : todo ≠ []
  reqtype : q.reqtype = some .multibulk
  multibulklen : q.multibulklen = todo.length
  bulk : BulkOk q.bulklen todo
  bytes : q.querybuf ++ future = restBytes q.bulklen todo ++ tail
  short : q.Short
  stuck : q.querybuf.length < (restBytes q.bulklen todo).length

theorem multibulkLoop_some (n : Nat) (qb : Bytes) (pos len : Nat)
    (argv : List Bytes) :
    multibulkLoop (n + 1) qb pos (some len) argv =
      if qb.length - pos < len + 2 then
        (.err, ⟨qb.drop pos, some .multibulk, n + 1, some len, argv⟩)
      else if pos = 0 ∧ len ≥ REDIS_MBULK_BIG_ARG ∧ qb.length = len + 2 then
        multibulkLoop n [] 0 none (argv ++ [qb.take len])
      else multibulkLoop n qb (pos + len + 2) none (argv ++ [(qb.drop pos).take len]) := by
  rw [multibulkLoop]

theorem multibulkLoop_len {pos pos' len : Nat} {qb qb' : Bytes} {argv : List Bytes}
    (h : readBulkLen qb pos = .len qb' pos' len) :
    multibulkLoop (n + 1) qb pos none argv = multibulkLoop (n + 1) qb' pos' (some len) argv := by
  rw [multibulkLoop_some, multibulkLoop, h]

theorem multibulkLoop_more {pos : Nat} {qb : Bytes} {argv : List Bytes}
    (h : readBulkLen qb pos = .more) :
    multibulkLoop (n + 1) qb pos none argv =
      (.err, ⟨qb.drop pos, some .multibulk, n + 1, none, argv⟩) := by
  rw [multibulkLoop, h]

/-- An argument that is in the buffer, with its CRLF. -/
theorem drop_arg {a : Bytes} {qb : Bytes} {pos : Nat}
    (hlen : a.length + 2 ≤ qb.length - pos) (h : qb.drop pos ++ future = a ++ (crlf ++ tail)) :
    (qb.drop pos).take a.length = a ∧ qb.drop (pos + a.length + 2) ++ future = tail := by
  have hle : (a ++ crlf).length ≤ (qb.drop pos).length := by simp [crlf]; omega
  rw [← append_assoc] at h
  obtain ⟨rest, hr⟩ : (a ++ crlf) <+: qb.drop pos :=
    prefix_of_prefix_length_le ⟨tail, h.symm⟩ ⟨future, rfl⟩ hle
  rw [← hr, append_assoc, append_cancel_left_eq] at h
  rw [Nat.add_assoc, ← drop_drop, ← hr, ← h]
  simp [crlf, drop_append]

/-- The loop reads the request to its end, or as far as it is in the buffer. -/
theorem multibulkLoop_spec {todo : List Bytes}
    (htodo : ∀ a ∈ todo, a.length ≤ 512 * 1024 * 1024) {qb : Bytes} {pos : Nat}
    {bulklen : Option Nat} {argv : List Bytes} (hpos : pos ≤ qb.length)
    (hbulk : BulkOk bulklen todo) (hfits : Fits qb pos bulklen)
    (h : qb.drop pos ++ future = restBytes bulklen todo ++ tail) :
    (∃ rest, multibulkLoop todo.length qb pos bulklen argv =
        (.ok, ⟨rest, some .multibulk, 0, none, argv ++ todo⟩) ∧
      rest ++ future = tail ∧ rest.length ≤ REDIS_INLINE_MAX_SIZE) ∨
    (∃ done todo' q, todo = done ++ todo' ∧
      multibulkLoop todo.length qb pos bulklen argv = (.err, q) ∧ q.argv = argv ++ done ∧
      q.Reading todo' future tail) := by
  induction todo generalizing qb pos bulklen argv with
  | nil =>
    obtain rfl : bulklen = none := by
      cases bulklen with
      | none => rfl
      | some len =>
        obtain ⟨a, t, hnil, -⟩ := hbulk len rfl
        cases hnil
    refine .inl ⟨qb.drop pos, by simp [multibulkLoop], by simpa [restBytes] using h, ?_⟩
    rcases hfits with hle | ⟨-, len, hnone, -⟩
    · rw [length_drop]
      omega
    · cases hnone
  | cons a todo ih =>
    have ha := htodo a (by simp)
    replace ih := @ih fun x hx => htodo x (by simp [hx])
    -- the second half of a round, once the length is known
    have hread : ∀ (qb : Bytes) (pos : Nat), pos ≤ qb.length →
        Fits qb pos (some a.length) → qb.drop pos ++ future =
          restBytes (some a.length) (a :: todo) ++ tail →
        (∃ rest, multibulkLoop (todo.length + 1) qb pos (some a.length) argv =
            (.ok, ⟨rest, some .multibulk, 0, none, argv ++ a :: todo⟩) ∧
          rest ++ future = tail ∧ rest.length ≤ REDIS_INLINE_MAX_SIZE) ∨
        (∃ done todo' q, a :: todo = done ++ todo' ∧
          multibulkLoop (todo.length + 1) qb pos (some a.length) argv = (.err, q) ∧
          q.argv = argv ++ done ∧ q.Reading todo' future tail) := by
      intro qb pos hpos hfits h
      rw [multibulkLoop_some]
      split
      next hlt =>
        have hlt' : (qb.drop pos).length < a.length + 2 := by
          rw [length_drop]
          exact hlt
        refine .inr ⟨[], a :: todo, _, rfl, rfl, by simp, by simp, rfl, rfl, ?_, h, hlt', ?_⟩
        · rintro len ⟨⟩
          exact ⟨a, todo, rfl, rfl⟩
        · simp only [restBytes, length_append, crlf, length_cons]
          omega
      next hge =>
        rw [restBytes, append_assoc, append_assoc] at h
        obtain ⟨htake, hdrop⟩ := drop_arg (by omega) h
        have hnone : BulkOk none todo := by simp [BulkOk]
        split
        next hjust =>
          obtain ⟨rfl, -, hlen⟩ := hjust
          rw [drop_zero] at htake
          rw [drop_eq_nil_of_le (by omega)] at hdrop
          rw [htake]
          obtain ⟨rest, heq, hrest⟩ | ⟨done, todo', q, htd, heq, hargv, hq⟩ :=
            @ih [] 0 none (argv ++ [a]) (le_refl 0) hnone (.inl (by simp [REDIS_INLINE_MAX_SIZE]))
              (by simpa [restBytes] using hdrop)
          · exact .inl ⟨rest, by simpa using heq, hrest⟩
          · exact .inr ⟨a :: done, todo', q, by simp [htd], heq, by simpa using hargv, hq⟩
        next hjust =>
          rw [htake]
          have hle : qb.length ≤ REDIS_INLINE_MAX_SIZE := by
            rcases hfits with hle | ⟨rfl, len, hlen, hbig, hle⟩
            · exact hle
            · cases hlen
              exact absurd ⟨rfl, hbig, by omega⟩ hjust
          obtain ⟨rest, heq, hrest⟩ | ⟨done, todo', q, htd, heq, hargv, hq⟩ :=
            @ih qb (pos + a.length + 2) none (argv ++ [a]) (by omega) hnone (.inl hle)
              (by simpa [restBytes] using hdrop)
          · exact .inl ⟨rest, by simpa using heq, hrest⟩
          · exact .inr ⟨a :: done, todo', q, by simp [htd], heq, by simpa using hargv, hq⟩
    cases bulklen with
    | some len =>
      obtain ⟨a', todo', htd, rfl⟩ := hbulk len rfl
      obtain ⟨rfl, rfl⟩ := List.cons.inj htd
      exact hread qb pos hpos hfits h
    | none =>
      have hsmall : qb.length ≤ REDIS_INLINE_MAX_SIZE := by
        rcases hfits with hle | ⟨-, len, hnone, -⟩
        · exact hle
        · cases hnone
      have h' := h
      simp only [restBytes, flatMap_cons, append_assoc] at h'
      rcases readBulkLen_spec hsmall hpos ha h' with
        ⟨qb', pos', hlen, hpos', hle, hdrop⟩ | ⟨hmore, hshort⟩
      · rw [length_cons, multibulkLoop_len hlen]
        exact hread qb' pos' hpos' (.inl (by omega)) (by simpa [restBytes] using hdrop)
      · rw [length_cons, multibulkLoop_more hmore]
        have hline := length_numLine_le (c := 36) ha
        refine .inr ⟨[], a :: todo, _, rfl, rfl, by simp, by simp, rfl, rfl, by simp [BulkOk],
          h, ?_, ?_⟩
        · show (qb.drop pos).length ≤ 12
          omega
        · simp only [restBytes, flatMap_cons, bulk_eq ha, length_append, crlf,
            length_cons]
          omega

/-! ## A stream of requests -/

/-- A command of the stream. -/
def encode (argv : List Bytes) : Bytes := command (argv.map .raw)

theorem encode_eq {argv : List Bytes} (h : WellFormed argv) :
    encode argv = numLine 42 argv.length ++ (crlf ++ restBytes none argv) := by
  have hle := h.argc_le
  rw [encode, command, length_map, ll2string_natCast (by omega), flatMap_map]
  simp [numLine, restBytes]

/-- The commands `cmds` are still to be executed: the first one may have been read in
part, and the rest is in the buffer or to come. -/
inductive Query.Pending (q : Query) (future : Bytes) :
    List (List Bytes) → Prop
  | idle {cmds : List (List Bytes)} : q.reqtype ≠ some .inline → q.multibulklen = 0 →
      q.bulklen = none → q.argv = [] → q.querybuf ++ future = cmds.flatMap encode →
      q.querybuf.length ≤ REDIS_INLINE_MAX_SIZE → Pending q future cmds
  | reading {todo : List Bytes} {cmds : List (List Bytes)} : todo ≠ [] →
      q.reqtype = some .multibulk → q.multibulklen = todo.length → BulkOk q.bulklen todo →
      q.querybuf ++ future = restBytes q.bulklen todo ++ cmds.flatMap encode →
      Fits q.querybuf 0 q.bulklen → Pending q future ((q.argv ++ todo) :: cmds)

/-- The parser has gone as far as it can. -/
structure Query.Stuck (q : Query) (future : Bytes) (cmds : List (List Bytes)) :
    Prop where
  pending : q.Pending future cmds
  short : q.Short
  /-- The first command that was not executed is not complete. -/
  next : ∀ cmd cmds', cmds = cmd :: cmds' → (cmds'.flatMap encode).length < future.length

variable {q : Query} {cmd : List Bytes} {cmds : List (List Bytes)}

theorem length_lt_of_append_eq {a f x t : Bytes} (h : a ++ f = x ++ t)
    (hlt : a.length < x.length) : t.length < f.length := by
  have := congrArg length h
  rw [length_append, length_append] at this
  omega

theorem encode_ne_nil (argv : List Bytes) : encode argv ≠ [] := command_ne_nil _

theorem restBytes_ne_nil {bulklen : Option Nat} {todo : List Bytes} (h : todo ≠ [])
    (hlen : ∀ a ∈ todo, a.length ≤ 512 * 1024 * 1024) : restBytes bulklen todo ≠ [] := by
  cases todo with
  | nil => exact absurd rfl h
  | cons a todo =>
    cases bulklen with
    | some len => simp [restBytes, crlf]
    | none => simp [restBytes, bulk_eq (hlen a (by simp)), numLine]

/-- An empty buffer. -/
theorem Query.Pending.stuck_of_nil (h : q.Pending future cmds) (hcmds : ∀ c ∈ cmds, WellFormed c)
    (hnil : q.querybuf = []) : q.Stuck future cmds := by
  refine ⟨h, ?_, ?_⟩
  · rw [Query.Short]
    split <;> simp [hnil]
  · rintro cmd cmds' rfl
    cases h with
    | idle _ _ _ _ hbytes _ =>
      exact length_lt_of_append_eq (flatMap_cons ▸ hbytes)
        (by simpa [hnil, length_pos_iff] using encode_ne_nil cmd)
    | reading htodo _ _ _ hbytes _ =>
      have hwf := (hcmds _ mem_cons_self).length_le
      exact length_lt_of_append_eq hbytes (by
        simpa [hnil, length_pos_iff] using
          restBytes_ne_nil htodo fun a ha => hwf a (by simp [ha]))

theorem Query.Short.fits (h : q.Short) : Fits q.querybuf 0 q.bulklen := by
  rw [Query.Short] at h
  rw [Fits, REDIS_INLINE_MAX_SIZE]
  cases hb : q.bulklen with
  | none =>
    rw [hb] at h
    exact .inl (by omega)
  | some len =>
    rw [hb] at h
    by_cases hbig : REDIS_MBULK_BIG_ARG ≤ len
    · exact .inr ⟨rfl, len, rfl, hbig, by omega⟩
    · rw [REDIS_MBULK_BIG_ARG] at hbig
      exact .inl (by omega)

theorem multibulkLoop_reading {todo : List Bytes} {qb : Bytes} {pos : Nat}
    {bulklen : Option Nat} {argv : List Bytes} (hwf : WellFormed (argv ++ todo))
    (htodo : todo ≠ []) (hpos : pos ≤ qb.length) (hbulk : BulkOk bulklen todo)
    (hfits : Fits qb pos bulklen)
    (h : qb.drop pos ++ future = restBytes bulklen todo ++ cmds.flatMap encode) :
    (∃ q', multibulkLoop todo.length qb pos bulklen argv = (.ok, q') ∧ q'.argv = argv ++ todo ∧
      q'.querybuf.length < (qb.drop pos).length ∧ (resetClient q').Pending future cmds) ∨
    (∃ q', multibulkLoop todo.length qb pos bulklen argv = (.err, q') ∧
      q'.Stuck future ((argv ++ todo) :: cmds)) := by
  have hlen : ∀ a ∈ todo, a.length ≤ 512 * 1024 * 1024 :=
    fun a ha => hwf.length_le a (by simp [ha])
  rcases @multibulkLoop_spec _ _ todo hlen qb pos bulklen argv hpos hbulk hfits h with
    ⟨rest, heq, hrest, hle⟩ | ⟨done, todo', q', htd, heq, hargv, hq⟩
  · refine .inl ⟨_, heq, rfl, ?_, .idle (by simp [resetClient]) rfl rfl rfl hrest hle⟩
    have hpos := length_pos_iff.mpr (@restBytes_ne_nil bulklen _ htodo hlen)
    have hl := congrArg length h
    have hr := congrArg length hrest
    rw [length_append, length_append] at hl
    rw [length_append] at hr
    show rest.length < _
    omega
  · refine .inr ⟨q', heq, ?_⟩
    have hcmd : argv ++ todo = q'.argv ++ todo' := by rw [hargv, htd, append_assoc]
    rw [hcmd]
    refine ⟨.reading hq.todo_ne hq.reqtype hq.multibulklen hq.bulk hq.bytes hq.short.fits,
      hq.short, ?_⟩
    rintro cmd cmds' heq'
    obtain ⟨-, rfl⟩ := List.cons.inj heq'
    exact length_lt_of_append_eq hq.bytes hq.stuck

/-- The first command that is pending is read, or the parser stops in it. -/
theorem processMultibulkBuffer_spec (h : q.Pending future (cmd :: cmds))
    (hwf : WellFormed cmd) :
    (∃ q', processMultibulkBuffer { q with reqtype := some .multibulk } = (.ok, q') ∧
      q'.argv = cmd ∧ q'.querybuf.length < q.querybuf.length ∧
      (resetClient q').Pending future cmds) ∨
    (∃ q', processMultibulkBuffer { q with reqtype := some .multibulk } = (.err, q') ∧
      q'.Stuck future (cmd :: cmds)) := by
  rw [processMultibulkBuffer]
  cases h with
  | reading htodo hreq hlen hbulk hbytes hfits =>
    have hpos : q.multibulklen ≠ 0 := by simpa [hlen] using htodo
    simp only [hpos, if_false]
    rw [hlen]
    rcases multibulkLoop_reading hwf htodo (Nat.zero_le _) hbulk hfits hbytes with hok | herr
    · exact .inl hok
    · exact .inr herr
  | idle hreq hlen hbulk hargv hbytes hsmall =>
    have hargc := length_pos_iff.mpr hwf.ne_nil
    have hargc' := hwf.argc_le
    have hline := length_numLine_le (c := 42) (n := cmd.length) (by omega)
    have hbytes' := hbytes
    rw [flatMap_cons, encode_eq hwf, append_assoc, append_assoc] at hbytes'
    simp only [hlen, if_true]
    rcases numLine_cases (by decide) hbytes' with ⟨w', hw, hfuture⟩ | ⟨hshort, hstr⟩
    · have hstr : strchr q.querybuf 13 = some (numLine 42 cmd.length).length := by
        rw [hw]
        exact strchr_eq_some (mem_numLine (by decide)) _
      have hqlen := congrArg length hw
      simp only [length_append, crlf, length_cons, length_nil] at hqlen
      have hdigits : (q.querybuf.drop 1).take ((numLine 42 cmd.length).length - 1) =
          decimal cmd.length := by
        rw [hw]
        simp [numLine]
      have hrest : q.querybuf.drop ((numLine 42 cmd.length).length + 2) = w' := by
        rw [hw, drop_append, drop_eq_nil_of_le (by omega)]
        simp [crlf]
      rw [hstr]
      simp only
      rw [if_neg (by omega), hdigits, string2ll_decimal (by omega)]
      simp only
      rw [if_neg (by omega), if_neg (by omega), Int.toNat_natCast, hbulk, hargv]
      rw [← hrest] at hfuture
      have hloop := @multibulkLoop_reading _ cmds cmd q.querybuf
        ((numLine 42 cmd.length).length + 2) none [] hwf hwf.ne_nil (by omega)
        (by simp [BulkOk]) (.inl hsmall) hfuture
      rcases hloop with ⟨q', heq, hargv', hlt, hp⟩ | herr
      · refine .inl ⟨q', heq, hargv', ?_, hp⟩
        rw [hrest] at hlt
        omega
      · exact .inr herr
    · refine .inr ⟨{ q with reqtype := some .multibulk }, ?_,
        .idle (by simp) hlen hbulk hargv hbytes hsmall, ?_, ?_⟩
      · rcases hstr with hnone | ⟨i, hi, hlt⟩
        · rw [hnone]
          simp only
          rw [if_neg (by omega), ← hlen]
        · rw [hi]
          simp only
          rw [if_pos hlt, ← hlen]
      · rw [Query.Short, hbulk]
        show q.querybuf.length ≤ 12
        omega
      · rintro c cs heq
        obtain ⟨rfl, rfl⟩ := List.cons.inj heq
        apply length_lt_of_append_eq (flatMap_cons ▸ hbytes)
        simp only [encode_eq hwf, length_append, crlf, length_cons]
        omega

/-! ## Executing the requests -/

section ProcessInputBuffer

/- `κ` is what commands read and change in the client itself (the selected database, the
queue and the flags of a transaction), and `δ` the rest of the server. -/
variable {κ δ : Type} (processCommand : List Bytes → κ → δ → κ × δ)

/-- A client with the requests that it sends. -/
structure Sender (κ : Type) where
  query : Query
  closeAfterReply : Bool
  blocked : Bool
  ctx : κ

/-- "Determine request type when unknown." -/
def requestType (q : Query) : ReqType :=
  q.reqtype.getD (if q.querybuf.head? = some 42 then .multibulk else .inline)

/-- `processInputBuffer`, for clients that are not paused and commands after which the
client is reset.  The loop is `none` when it does not end in `fuel` rounds. -/
def processInputBuffer : Nat → Sender κ → δ → Option (Sender κ × δ)
  | fuel, c, d =>
    if c.query.querybuf = [] ∨ c.blocked ∨ c.closeAfterReply then some (c, d)
    else
      match fuel with
      | 0 => none
      | fuel + 1 =>
        let q := { c.query with reqtype := some (requestType c.query) }
        match (match requestType c.query with
          | .inline => processInlineBuffer q
          | .multibulk => processMultibulkBuffer q) with
        | (.err, q) => some ({ c with query := q }, d)
        | (.protocolError, q) => some ({ c with query := q, closeAfterReply := true }, d)
        | (.ok, q) =>
          if q.argv = [] then processInputBuffer fuel { c with query := resetClient q } d
          else
            processInputBuffer fuel
              { c with query := resetClient q, ctx := (processCommand q.argv c.ctx d).1 }
              (processCommand q.argv c.ctx d).2

/-- The commands `cmds`, one after the other. -/
def execAll (cmds : List (List Bytes)) (s : κ × δ) : κ × δ :=
  cmds.foldl (fun s cmd => processCommand cmd s.1 s.2) s

/-- A pending command makes the request type of a client that has bytes of it. -/
theorem Query.Pending.requestType_eq (h : q.Pending future (cmd :: cmds)) (hwf : WellFormed cmd)
    (hne : q.querybuf ≠ []) : requestType q = .multibulk := by
  cases h with
  | reading _ hreq => simp [requestType, hreq]
  | idle hreq _ _ _ hbytes =>
    rw [requestType]
    cases hr : q.reqtype with
    | some r => cases r <;> simp_all
    | none =>
      cases hq : q.querybuf with
      | nil => exact absurd hq hne
      | cons b bs =>
        rw [hq, flatMap_cons, encode_eq hwf, numLine] at hbytes
        simp [(List.cons.inj hbytes).1]

/-- On a stream of well-formed commands the loop executes commands of the stream, in
order, until it is stuck. -/
theorem processInputBuffer_spec {fuel : Nat} {c : Sender κ} {d : δ}
    (hcmds : ∀ cmd ∈ cmds, WellFormed cmd) (hp : c.query.Pending future cmds)
    (hblocked : c.blocked = false) (hclose : c.closeAfterReply = false)
    (hfuel : c.query.querybuf.length ≤ fuel) :
    ∃ done rest q, cmds = done ++ rest ∧ q.Stuck future rest ∧
      processInputBuffer processCommand fuel c d =
        some ({ c with query := q, ctx := (execAll processCommand done (c.ctx, d)).1 },
          (execAll processCommand done (c.ctx, d)).2) := by
  induction fuel generalizing c d cmds with
  | zero =>
    have hnil := length_eq_zero_iff.mp (Nat.le_zero.mp hfuel)
    exact ⟨[], cmds, c.query, rfl, hp.stuck_of_nil hcmds hnil,
      by simp [processInputBuffer, hnil, execAll]⟩
  | succ fuel ih =>
    by_cases hnil : c.query.querybuf = []
    · exact ⟨[], cmds, c.query, rfl, hp.stuck_of_nil hcmds hnil,
        by simp [processInputBuffer, hnil, execAll]⟩
    cases cmds with
    | nil =>
      -- nothing is left of the stream, so nothing is in the buffer
      cases hp with
      | idle _ _ _ _ hbytes => simp_all
    | cons cmd cmds =>
      have hwf := hcmds cmd (by simp)
      have hreq := hp.requestType_eq hwf hnil
      rw [processInputBuffer, if_neg (by simp [hnil, hblocked, hclose])]
      simp only [hreq]
      rcases processMultibulkBuffer_spec hp hwf with
        ⟨q, heq, hargv, hlt, hq⟩ | ⟨q, heq, hq⟩
      · simp only [heq, hargv, hwf.ne_nil, if_false]
        obtain ⟨done, rest, q', hcs, hstuck, hrun⟩ :=
          @ih cmds { c with query := resetClient q, ctx := (processCommand cmd c.ctx d).1 }
            (processCommand cmd c.ctx d).2 (fun x hx => hcmds x (by simp [hx])) hq hblocked
            hclose (by simp only [resetClient]; omega)
        exact ⟨cmd :: done, rest, q', by simp [hcs], hstuck, hrun⟩
      · simp only [heq]
        exact ⟨[], cmd :: cmds, q, rfl, hq, rfl⟩

end ProcessInputBuffer

end Redis.Replication
