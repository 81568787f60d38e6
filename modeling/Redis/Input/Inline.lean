import Redis.Config
import Redis.Input
import Redis.Sds.Grammar

/-!
# Redis.Input.Inline

Requests that are lines.  `processInlineBuffer` looks for the newline only, and takes two bytes
behind the text of the line: a line that ends in a bare newline must be the last thing in the
buffer.
-/

namespace Redis.Input

open List Option

open Replication (Query ReqType Parse processInlineBuffer resetClient requestType strchr
  REDIS_INLINE_MAX_SIZE REDIS_IOBUF_LEN REDIS_MAX_QUERYBUF_LEN)
open Redis.Config (str)
open Sds (sdssplitargs)

/-! ## Lines -/

/-- A line, with CRLF or a bare newline at its end. -/
structure Line where
  text : Bytes
  crlf : Bool
  deriving DecidableEq

namespace Line

def bytes (l : Line) : Bytes := l.text ++ if l.crlf then [13, 10] else [10]

/-- The arguments of a line; those that are empty are left out. -/
def args (l : Line) : List Bytes := ((sdssplitargs l.text).getD []).filter (· ≠ [])

/-- A line that a client may send as a request. -/
structure Ok (l : Line) : Prop where
  text_ne : l.text ≠ []
  null : 0 ∉ l.text
  newline : 10 ∉ l.text
  star : l.text.head? ≠ some 42
  quotes : (sdssplitargs l.text).isSome

/-- There is a carriage return before the newline. -/
def EndsCr (l : Line) : Prop := l.crlf = true ∨ l.text.getLast? = some 13

end Line

/-- All bytes of some lines. -/
def linesBytes (lines : List Line) : Bytes := lines.flatMap Line.bytes

/-- Behind every line without a carriage return a read ends. -/
def BreaksAfter (lines : List Line) (chunks : List Bytes) : Prop :=
  ∀ before l after, lines = before ++ l :: after → l.EndsCr ∨
    ∃ reads, reads <+: chunks ∧ reads.flatten = linesBytes (before ++ [l])

section OneLine

variable {l : Line} {q : Query} {rest : Bytes}

theorem strchr_newline {xs : Bytes} (h0 : 0 ∉ xs) (h10 : 10 ∉ xs) (rest : Bytes) :
    strchr (xs ++ 10 :: rest) 10 = some xs.length := by
  induction xs with
  | nil => simp [strchr, findIdx?_cons]
  | cons b xs ih =>
    rw [mem_cons, not_or] at h0 h10
    have hnext := ih h0.2 h10.2
    rw [strchr] at hnext ⊢
    rw [cons_append, takeWhile_cons_of_pos (by simpa using Ne.symm h0.1),
      findIdx?_cons, if_neg (by simpa using Ne.symm h10.1), hnext, map_some,
      length_cons]

theorem strchr_no_newline {xs : Bytes} (h10 : 10 ∉ xs) : strchr xs 10 = none := by
  rw [strchr, findIdx?_eq_none_iff]
  intro b hb
  rw [decide_eq_false_iff_not]
  rintro rfl
  exact h10 (takeWhile_subset _ hb)

theorem Line.Ok.splits (hl : l.Ok) : ∃ argv, sdssplitargs l.text = some argv ∧
    l.args = argv.filter (· ≠ []) := by
  obtain ⟨argv, hargv⟩ := isSome_iff_exists.mp hl.quotes
  exact ⟨argv, hargv, by rw [Line.args, hargv, getD_some]⟩

/-- A line that is found, with the text before its end. -/
theorem processInlineBuffer_eq {newline querylen : Nat} {argv : List Bytes}
    (hstr : strchr q.querybuf 10 = some newline)
    (hlen : (if newline ≠ 0 ∧ q.querybuf[newline - 1]? = some 13 then newline - 1 else newline) =
      querylen)
    (hargv : sdssplitargs (q.querybuf.take querylen) = some argv) :
    processInlineBuffer q = (.ok, { q with
      querybuf := q.querybuf.drop (querylen + 2)
      argv := argv.filter (· ≠ []) }) := by
  rw [processInlineBuffer, hstr]
  simp only [hlen, hargv]

theorem processInlineBuffer_crlf (hl : l.Ok) (hcrlf : l.crlf = true)
    (hq : q.querybuf = l.bytes ++ rest) :
    processInlineBuffer q = (.ok, { q with querybuf := rest, argv := l.args }) := by
  obtain ⟨argv, hargv, hargs⟩ := hl.splits
  have hbuf : q.querybuf = (l.text ++ [13]) ++ 10 :: rest := by
    rw [hq, Line.bytes, if_pos hcrlf]
    simp
  have hstr : strchr q.querybuf 10 = some (l.text.length + 1) := by
    rw [hbuf, strchr_newline (by simpa using hl.null) (by simpa using hl.newline),
      length_append, length_singleton]
  have hcr : q.querybuf[l.text.length + 1 - 1]? = some 13 := by
    rw [hbuf]
    simp
  have htake : q.querybuf.take l.text.length = l.text := by
    rw [hbuf]
    simp
  have hdrop : q.querybuf.drop (l.text.length + 2) = rest := by
    rw [hbuf, append_assoc, drop_append]
    simp
  rw [processInlineBuffer_eq hstr (if_pos ⟨Nat.succ_ne_zero _, hcr⟩) (htake.symm ▸ hargv),
    Nat.add_sub_cancel, hdrop, hargs]

/-- A carriage return that is the end of the text is taken for that of the line. -/
theorem processInlineBuffer_cr (hl : l.Ok) (hcrlf : l.crlf = false) {text : Bytes}
    (htext : l.text = text ++ [13]) (hq : q.querybuf = l.bytes ++ rest) :
    processInlineBuffer q = (.ok, { q with querybuf := rest, argv := l.args }) := by
  obtain ⟨argv, hargv, hargs⟩ := hl.splits
  have hlength : l.text.length = text.length + 1 := by
    rw [htext, length_append, length_singleton]
  have hbuf : q.querybuf = l.text ++ 10 :: rest := by
    rw [hq, Line.bytes, hcrlf]
    simp
  have hstr : strchr q.querybuf 10 = some l.text.length := by
    rw [hbuf, strchr_newline hl.null hl.newline]
  have hcr : q.querybuf[l.text.length - 1]? = some 13 := by
    rw [hbuf, htext]
    simp
  have hbuf' : q.querybuf = text ++ [13, 10] ++ rest := by
    rw [hbuf, htext]
    simp
  have htake : q.querybuf.take (l.text.length - 1) = text := by
    rw [hbuf', hlength]
    simp
  have hdrop : q.querybuf.drop (l.text.length - 1 + 2) = rest := by
    rw [hbuf', hlength, Nat.add_sub_cancel]
    exact drop_left' (by simp)
  have hnull : 0 ∉ text := fun h => hl.null (htext ▸ mem_append_left _ h)
  have htextargv := Sds.sdssplitargs_append_cr hnull (htext ▸ hargv)
  have hne : l.text.length ≠ 0 := by omega
  rw [processInlineBuffer_eq hstr (if_pos ⟨hne, hcr⟩) (htake.symm ▸ htextargv), hdrop, hargs]

/-- Behind a bare newline one byte more is taken away. -/
theorem processInlineBuffer_bare (hl : l.Ok) (hcrlf : l.crlf = false)
    (hlast : l.text.getLast? ≠ some 13) (hq : q.querybuf = l.bytes ++ rest) :
    processInlineBuffer q = (.ok, { q with querybuf := rest.drop 1, argv := l.args }) := by
  obtain ⟨argv, hargv, hargs⟩ := hl.splits
  have hbuf : q.querybuf = l.text ++ 10 :: rest := by
    rw [hq, Line.bytes, hcrlf]
    simp
  have hstr : strchr q.querybuf 10 = some l.text.length := by
    rw [hbuf, strchr_newline hl.null hl.newline]
  have hcr : q.querybuf[l.text.length - 1]? ≠ some 13 := by
    have hpos := length_pos_iff.mpr hl.text_ne
    rw [hbuf, getElem?_append_left (by omega), ← getLast?_eq_getElem?]
    exact hlast
  have htake : q.querybuf.take l.text.length = l.text := by
    rw [hbuf]
    simp
  have hdrop : q.querybuf.drop (l.text.length + 2) = rest.drop 1 := by
    rw [hbuf, drop_append]
    simp
  rw [processInlineBuffer_eq hstr (if_neg fun h => hcr h.2) (htake.symm ▸ hargv), hdrop, hargs]

/-- A complete line is read; if it ends in a bare newline, nothing may be behind it. -/
theorem processInlineBuffer_line (hl : l.Ok) (hq : q.querybuf = l.bytes ++ rest)
    (hend : l.EndsCr ∨ rest = []) :
    processInlineBuffer q = (.ok, { q with querybuf := rest, argv := l.args }) := by
  cases hcrlf : l.crlf with
  | true => exact processInlineBuffer_crlf hl hcrlf hq
  | false =>
    by_cases hlast : l.text.getLast? = some 13
    · obtain ⟨text, htext⟩ := getLast?_eq_some_iff.mp hlast
      exact processInlineBuffer_cr hl hcrlf htext hq
    · have hbare : ¬ l.EndsCr := by
        rintro (h | h)
        · rw [hcrlf] at h
          cases h
        · exact hlast h
      obtain rfl := hend.resolve_left hbare
      exact processInlineBuffer_bare hl hcrlf hlast hq

theorem processInlineBuffer_part (h10 : 10 ∉ q.querybuf)
    (hlen : q.querybuf.length ≤ REDIS_INLINE_MAX_SIZE) : processInlineBuffer q = (.err, q) := by
  rw [processInlineBuffer, strchr_no_newline h10]
  simp only [if_neg (Nat.not_lt.mpr hlen)]

end OneLine

/-! ## Rounds -/

/-- No request is being read, but for a part of a line. -/
structure Idle (q : Query) : Prop where
  reqtype : q.reqtype = none ∨ q.reqtype = some .inline
  multibulklen : q.multibulklen = 0
  bulklen : q.bulklen = none
  argv : q.argv = []

/-- A line without a carriage return that is complete in a buffer of `size` bytes is its last one. -/
def EndsWith (lines : List Line) (size : Nat) : Prop :=
  ∀ before l after, lines = before ++ l :: after →
    (linesBytes (before ++ [l])).length ≤ size → l.EndsCr ∨ (linesBytes (before ++ [l])).length = size

section Rounds

variable {future : Bytes} {lines : List Line} {l : Line}

@[simp] theorem linesBytes_nil : linesBytes [] = [] := rfl

@[simp] theorem linesBytes_cons (l : Line) (lines : List Line) :
    linesBytes (l :: lines) = l.bytes ++ linesBytes lines := rfl

theorem Line.bytes_eq (l : Line) : ∃ b, l.bytes = b ++ [10] ∧ (10 ∉ l.text → 10 ∉ b) ∧ l.text <+: b := by
  cases hcrlf : l.crlf with
  | true => exact ⟨l.text ++ [13], by simp [Line.bytes, hcrlf], by simp, prefix_append _ _⟩
  | false => exact ⟨l.text, by simp [Line.bytes, hcrlf], id, prefix_rfl⟩

/-- A request of the stream begins with the first byte of its line. -/
theorem Line.Ok.requestType (hl : l.Ok) {q : Query} (hq : Idle q) {rest : Bytes}
    (hne : q.querybuf ≠ []) (hbytes : q.querybuf ++ future = l.bytes ++ rest) :
    Replication.requestType q = .inline := by
  rcases hq.reqtype with hnone | hinline
  · obtain ⟨b, text, htext⟩ := exists_cons_of_ne_nil hl.text_ne
    obtain ⟨b', buf, hbuf⟩ := exists_cons_of_ne_nil hne
    have hstar := hl.star
    rw [hbuf, Line.bytes, htext, cons_append, cons_append, cons_append] at hbytes
    rw [htext, head?_cons] at hstar
    rw [Replication.requestType, hnone, getD_none, hbuf, head?_cons,
      (List.cons.inj hbytes).1, if_neg hstar]
  · rw [Replication.requestType, hinline, getD_some]

theorem EndsWith.tail {n : Nat} (h : EndsWith (l :: lines) (l.bytes.length + n)) :
    EndsWith lines n := by
  intro before l' after hlines hle
  have hbytes : (linesBytes (l :: before ++ [l'])).length =
      l.bytes.length + (linesBytes (before ++ [l'])).length := by
    rw [cons_append, linesBytes_cons, length_append]
  have hends := h (l :: before) l' after (by rw [hlines]; rfl) (by omega)
  exact hends.imp_right fun heq => by omega

/-- What is left in a buffer that ends inside of a line. -/
theorem newline_not_mem (hl : l.Ok) {buf rest : Bytes}
    (hbytes : buf ++ future = l.bytes ++ rest) (hlt : buf.length < l.bytes.length) : 10 ∉ buf := by
  obtain ⟨b, hb, h10, -⟩ := l.bytes_eq
  rw [hb, length_append, length_singleton] at hlt
  rw [hb, append_assoc] at hbytes
  have hpre : buf <+: b :=
    prefix_of_prefix_length_le ⟨future, hbytes⟩ ⟨_, rfl⟩ (Nat.le_of_lt_succ hlt)
  exact fun hmem => h10 hl.newline (hpre.subset hmem)

/-- The complete lines of the buffer are read, and a part of the next one is left. -/
theorem processInputBuffer_lines (rounds : Nat) : ∀ {c : Client} {lines : List Line},
    (∀ l ∈ lines, l.Ok) → Idle c.query → c.closeAfterReply = false →
    c.query.querybuf ++ future = linesBytes lines → c.query.querybuf.length ≤ rounds →
    c.query.querybuf.length ≤ REDIS_INLINE_MAX_SIZE → EndsWith lines c.query.querybuf.length →
    ∃ done rest q, lines = done ++ rest ∧
      processInputBuffer rounds c = { c with query := q, argvs := c.argvs ++ done.map Line.args } ∧
      Idle q ∧ q.querybuf ++ future = linesBytes rest ∧ 10 ∉ q.querybuf := by
  have hempty {rounds : Nat} {c : Client} {lines : List Line} (hidle : Idle c.query)
      (hbytes : c.query.querybuf ++ future = linesBytes lines) (hnil : c.query.querybuf = []) :
      ∃ done rest q, lines = done ++ rest ∧
        processInputBuffer rounds c = { c with query := q, argvs := c.argvs ++ done.map Line.args } ∧
        Idle q ∧ q.querybuf ++ future = linesBytes rest ∧ 10 ∉ q.querybuf := by
    refine ⟨[], lines, c.query, rfl, ?_, hidle, hbytes, by simp [hnil]⟩
    cases rounds with
    | zero => simp [processInputBuffer]
    | succ rounds => simp [processInputBuffer, hnil]
  induction rounds with
  | zero =>
    intro c lines _ hidle _ hbytes hrounds _ _
    exact hempty hidle hbytes (length_eq_zero_iff.mp (Nat.le_zero.mp hrounds))
  | succ rounds ih =>
    intro c lines hok hidle hclose hbytes hrounds hsize hends
    by_cases hne : c.query.querybuf = []
    · exact hempty hidle hbytes hne
    cases lines with
    | nil => exact absurd (append_eq_nil_iff.mp hbytes).1 hne
    | cons l lines =>
      have hl := hok l mem_cons_self
      rw [linesBytes_cons] at hbytes
      have hinline := hl.requestType hidle hne hbytes
      by_cases hcomplete : l.bytes.length ≤ c.query.querybuf.length
      · obtain ⟨rest, hbuf⟩ : l.bytes <+: c.query.querybuf :=
          prefix_of_prefix_length_le ⟨_, rfl⟩ ⟨future, hbytes⟩ hcomplete
        have hlength : c.query.querybuf.length = l.bytes.length + rest.length := by
          rw [← hbuf, length_append]
        have hpos : 0 < l.bytes.length := by
          obtain ⟨b, hb, -⟩ := l.bytes_eq
          rw [hb, length_append, length_singleton]
          omega
        have hend : l.EndsCr ∨ rest = [] := by
          refine (hends [] l lines rfl (by simpa [linesBytes] using hcomplete)).imp_right fun heq => ?_
          rw [nil_append, linesBytes_cons, linesBytes_nil, append_nil] at heq
          exact length_eq_zero_iff.mp (by omega)
        have hline : processInlineBuffer { c.query with reqtype := some .inline } =
            (.ok, { c.query with reqtype := some .inline, querybuf := rest, argv := l.args }) :=
          processInlineBuffer_line hl hbuf.symm hend
        have hrest : rest ++ future = linesBytes lines := by
          rw [← hbuf, append_assoc] at hbytes
          exact append_cancel_left hbytes
        rw [hlength] at hends hrounds hsize
        obtain ⟨done, rest', q, hlines, hrun, hidle', hbytes', h10⟩ :=
          @ih ⟨⟨rest, none, 0, none, []⟩, c.closeAfterReply, c.freed, c.argvs ++ [l.args]⟩ lines
            (fun l' hl' => hok l' (mem_cons_of_mem l hl')) ⟨.inl rfl, rfl, rfl, rfl⟩ hclose
            hrest (by simp only; omega) (by simp only; omega) hends.tail
        refine ⟨l :: done, rest', q, by rw [hlines, cons_append], ?_, hidle', hbytes', h10⟩
        rw [processInputBuffer, if_neg (by simp [hne, hclose])]
        simp only [hinline, hline, resetClient]
        rw [hrun, append_assoc, map_cons, singleton_append]
      · have h10 := newline_not_mem hl hbytes (by omega)
        have hpart : processInlineBuffer { c.query with reqtype := some .inline } =
            (.err, { c.query with reqtype := some .inline }) := processInlineBuffer_part h10 hsize
        refine ⟨[], l :: lines, { c.query with reqtype := some .inline }, rfl, ?_,
          ⟨.inr rfl, hidle.multibulklen, hidle.bulklen, hidle.argv⟩, hbytes, h10⟩
        rw [processInputBuffer, if_neg (by simp [hne, hclose])]
        simp only [hinline, hpart, map_nil, append_nil]

end Rounds

/-! ## Reads -/

/-- The reads of a connection that is served each time. -/
def readAll (chunks : List Bytes) : List Event :=
  chunks.map fun chunk => .readable chunk.length none

/-- What holds of the connection between two reads: the lines `done` were read, and the buffer ends
inside of the first of the others. -/
structure Between (done rest : List Line) (conn : Conn) : Prop where
  freed : conn.client.freed = false
  closeAfterReply : conn.client.closeAfterReply = false
  idle : Idle conn.client.query
  argvs : conn.client.argvs = done.map Line.args
  bytes : conn.client.query.querybuf ++ conn.future = linesBytes rest
  newline : 10 ∉ conn.client.query.querybuf

section Reads

variable {limit : Nat} {done rest : List Line} {conn : Conn} {reads chunks : List Bytes}
  {chunk : Bytes}

theorem linesBytes_append (before after : List Line) :
    linesBytes (before ++ after) = linesBytes before ++ linesBytes after := flatMap_append

theorem newline_mem_linesBytes (before : List Line) (l : Line) :
    10 ∈ linesBytes (before ++ [l]) := by
  obtain ⟨b, hb, -⟩ := l.bytes_eq
  rw [linesBytes_append, linesBytes_cons, hb]
  simp

theorem prefix_flatten {a b : List Bytes} (h : a <+: b) : a.flatten <+: b.flatten := by
  obtain ⟨c, rfl⟩ := h
  exact ⟨c.flatten, flatten_append.symm⟩

/-- A read ends behind each line without a carriage return, so that the line is the last one in the
buffer then. -/
theorem BreaksAfter.endsWith {buf : Bytes}
    (h : BreaksAfter (done ++ rest) (reads ++ chunk :: chunks))
    (hreads : reads.flatten = linesBytes done ++ buf) (h10 : 10 ∉ buf) :
    EndsWith rest (buf ++ chunk).length := by
  intro before l after hrest hle
  refine (h (done ++ before) l after (by rw [hrest, append_assoc])).imp_right ?_
  rintro ⟨reads', hpre, hflat⟩
  rw [append_assoc, linesBytes_append] at hflat
  have hreads' : reads <+: reads ++ chunk :: chunks := prefix_append _ _
  rcases Nat.lt_or_ge reads.length reads'.length with hlt | hge
  · have hnext : reads ++ [chunk] <+: reads' := by
      refine prefix_of_prefix_length_le ⟨chunks, ?_⟩ hpre ?_
      · rw [append_assoc, singleton_append]
      · rw [length_append, length_singleton]
        exact hlt
    have hlength := (prefix_flatten hnext).length_le
    rw [flatten_append, hreads, hflat, flatten_singleton] at hlength
    simp only [length_append] at hlength hle ⊢
    omega
  · have hlast := prefix_flatten (prefix_of_prefix_length_le hpre hreads' hge)
    rw [hflat, hreads, prefix_append_right_inj] at hlast
    exact absurd (hlast.subset (newline_mem_linesBytes before l)) h10

theorem Between.step (h : Between done rest conn) (hok : ∀ l ∈ rest, l.Ok)
    (hfuture : conn.future = (chunk :: chunks).flatten)
    (hreads : reads.flatten = linesBytes done ++ conn.client.query.querybuf)
    (hread : chunk ≠ [] ∧ chunk.length ≤ REDIS_IOBUF_LEN)
    (hsize : (linesBytes rest).length ≤ REDIS_INLINE_MAX_SIZE)
    (hlimit : (linesBytes rest).length ≤ limit)
    (hbreaks : BreaksAfter (done ++ rest) (reads ++ chunk :: chunks)) :
    ∃ more rest', rest = more ++ rest' ∧
      (step limit conn (.readable chunk.length none)).future = chunks.flatten ∧
      Between (done ++ more) rest' (step limit conn (.readable chunk.length none)) := by
  have hbytes := h.bytes
  rw [hfuture, flatten_cons, ← append_assoc] at hbytes
  have hbuf : (conn.client.query.querybuf ++ chunk).length ≤ (linesBytes rest).length := by
    rw [← hbytes]
    exact (prefix_append _ chunks.flatten).length_le
  have hne : conn.future ≠ [] := by
    rw [hfuture, flatten_cons]
    exact append_ne_nil_of_left_ne_nil hread.1 _
  have hlen : readlen conn.client.query = REDIS_IOBUF_LEN := by
    rw [readlen, h.idle.bulklen]
  have hmin : min chunk.length (readlen conn.client.query).toNat = chunk.length := by
    rw [hlen, Int.toNat_natCast, Nat.min_eq_left hread.2]
  have htake : conn.future.take chunk.length = chunk := by
    rw [hfuture, flatten_cons, take_left]
  have hdrop : conn.future.drop chunk.length = chunks.flatten := by
    rw [hfuture, flatten_cons, drop_left]
  obtain ⟨more, rest', q, hrest, hrun, hidle, hbytes', h10⟩ :=
    @processInputBuffer_lines chunks.flatten (conn.client.query.querybuf ++ chunk).length
      { conn.client with
        query := { conn.client.query with querybuf := conn.client.query.querybuf ++ chunk } } rest
      hok ⟨h.idle.reqtype, h.idle.multibulklen, h.idle.bulklen, h.idle.argv⟩ h.closeAfterReply
      hbytes (Nat.le_refl _) (hbuf.trans hsize) (hbreaks.endsWith hreads h.newline)
  have hstep : Input.step limit conn (.readable chunk.length none) =
      ⟨{ conn.client with query := q, argvs := conn.client.argvs ++ more.map Line.args },
        chunks.flatten, conn.asked ++ [readlen conn.client.query]⟩ := by
    have hpos : ¬ readlen conn.client.query ≤ 0 := by
      rw [hlen]
      decide
    have hzero : chunk.length ≠ 0 := fun h0 => hread.1 (length_eq_zero_iff.mp h0)
    rw [Input.step, if_neg (by simp [h.freed, hne]), readQueryFromClient]
    simp only [if_neg hpos, if_neg hzero, hmin, htake, hdrop, rounds, getD_none,
      if_neg (Nat.not_lt.mpr (hbuf.trans hlimit)), hrun]
  refine ⟨more, rest', hrest, by rw [hstep], ?_⟩
  rw [hstep]
  exact {
    freed := h.freed
    closeAfterReply := h.closeAfterReply
    idle := hidle
    argvs := by rw [h.argvs, map_append]
    bytes := hbytes'
    newline := h10 }

theorem Between.run (chunks : List Bytes) : ∀ {reads : List Bytes} {conn : Conn}
    {done rest : List Line}, Between done rest conn → (∀ l ∈ rest, l.Ok) →
    conn.future = chunks.flatten → reads.flatten = linesBytes done ++ conn.client.query.querybuf →
    (∀ chunk ∈ chunks, chunk ≠ [] ∧ chunk.length ≤ REDIS_IOBUF_LEN) →
    (linesBytes rest).length ≤ REDIS_INLINE_MAX_SIZE → (linesBytes rest).length ≤ limit →
    BreaksAfter (done ++ rest) (reads ++ chunks) →
    ∃ more rest', rest = more ++ rest' ∧ (run limit conn (readAll chunks)).future = [] ∧
      Between (done ++ more) rest' (run limit conn (readAll chunks)) := by
  induction chunks with
  | nil =>
    intro reads conn done rest h _ hfuture _ _ _ _ _
    exact ⟨[], rest, rfl, hfuture, by rw [append_nil]; exact h⟩
  | cons chunk chunks ih =>
    intro reads conn done rest h hok hfuture hreads hread hsize hlimit hbreaks
    obtain ⟨hchunk, hchunks⟩ := forall_mem_cons.mp hread
    obtain ⟨more, rest', rfl, hfuture', hnext⟩ :=
      h.step hok hfuture hreads hchunk hsize hlimit hbreaks
    have hbytes := h.bytes
    rw [hfuture, flatten_cons, ← append_assoc, linesBytes_append, ← hnext.bytes, hfuture',
      ← append_assoc, append_cancel_right_eq] at hbytes
    have hreads' : (reads ++ [chunk]).flatten = linesBytes (done ++ more) ++
        (Input.step limit conn (.readable chunk.length none)).client.query.querybuf := by
      rw [flatten_append, flatten_singleton, hreads, append_assoc, hbytes,
        linesBytes_append, append_assoc]
    have hle : (linesBytes rest').length ≤ (linesBytes (more ++ rest')).length := by
      rw [linesBytes_append, length_append]
      exact Nat.le_add_left _ _
    obtain ⟨more', rest'', rfl, hend, hrun⟩ :=
      ih hnext (fun l hl => hok l (mem_append_right more hl)) hfuture' hreads' hchunks
        (hle.trans hsize) (hle.trans hlimit) (by simpa using hbreaks)
    refine ⟨more ++ more', rest'', by rw [append_assoc], hend, ?_⟩
    rw [← append_assoc]
    exact hrun

/-- Lines that are sent back to back are read one by one, each with its arguments that are not empty,
and nothing is left of them; a read ends behind each line with a bare newline. -/
theorem inline_lines {lines : List Line} (hok : ∀ l ∈ lines, l.Ok)
    (hstream : chunks.flatten = linesBytes lines)
    (hread : ∀ chunk ∈ chunks, chunk ≠ [] ∧ chunk.length ≤ REDIS_IOBUF_LEN)
    (hsize : (linesBytes lines).length < REDIS_INLINE_MAX_SIZE)
    (hbreaks : BreaksAfter lines chunks) :
    let conn := run REDIS_MAX_QUERYBUF_LEN (start (linesBytes lines)) (readAll chunks)
    conn.client.argvs = lines.map Line.args ∧ conn.client.query.querybuf = [] ∧ conn.future = [] ∧
      conn.client.freed = false ∧ conn.client.closeAfterReply = false := by
  have hstart : Between [] lines (start (linesBytes lines)) := {
    freed := rfl
    closeAfterReply := rfl
    idle := ⟨.inl rfl, rfl, rfl, rfl⟩
    argvs := rfl
    bytes := rfl
    newline := not_mem_nil }
  have hreads : ([] : List Bytes).flatten =
      linesBytes [] ++ (start (linesBytes lines)).client.query.querybuf := rfl
  have hlimit : REDIS_INLINE_MAX_SIZE ≤ REDIS_MAX_QUERYBUF_LEN := by decide
  obtain ⟨done, rest, rfl, hfuture, hrun⟩ :=
    hstart.run chunks hok hstream.symm hreads hread hsize.le (hsize.le.trans hlimit) hbreaks
  have hbytes := hrun.bytes
  rw [hfuture, append_nil] at hbytes
  cases rest with
  | nil =>
    simp only [append_nil] at hrun hfuture hbytes ⊢
    exact ⟨hrun.argvs, hbytes, hfuture, hrun.freed, hrun.closeAfterReply⟩
  | cons l rest =>
    -- a line that was not read has its newline in the buffer
    obtain ⟨b, hb, -⟩ := l.bytes_eq
    have hmem : 10 ∈ linesBytes (l :: rest) := by
      rw [linesBytes_cons, hb]
      simp
    exact absurd (hbytes ▸ hmem) hrun.newline

end Reads

/-- `PING` with a bare newline and `GET a` with CRLF, in three reads. -/
theorem inline_ping_get :
    (run REDIS_MAX_QUERYBUF_LEN (start (linesBytes [⟨str "PING", false⟩, ⟨str "GET a", true⟩]))
      (readAll [str "PI", str "NG\n", str "GET a\r\n"])).client.argvs =
      [[str "PING"], [str "GET", str "a"]] := by
  have hok : ∀ l ∈ [(⟨str "PING", false⟩ : Line), ⟨str "GET a", true⟩], l.Ok := by
    simp only [forall_mem_cons, not_mem_nil, false_imp_iff, implies_true, and_true]
    exact ⟨⟨by decide, by decide, by decide, by decide, by decide⟩,
      by decide, by decide, by decide, by decide, by decide⟩
  have hbreaks : BreaksAfter [(⟨str "PING", false⟩ : Line), ⟨str "GET a", true⟩]
      [str "PI", str "NG\n", str "GET a\r\n"] := by
    intro before l after h
    cases before with
    | nil =>
      obtain ⟨rfl, -⟩ := List.cons.inj h
      exact .inr ⟨[str "PI", str "NG\n"], by decide, by decide⟩
    | cons l' before =>
      obtain ⟨rfl, hrest⟩ := List.cons.inj h
      cases before with
      | nil =>
        obtain ⟨rfl, -⟩ := List.cons.inj hrest
        exact .inl (.inl rfl)
      | cons l'' before => simp at hrest
  exact (inline_lines hok (by decide) (by decide) (by decide) hbreaks).1

/-- Two lines with bare newlines in one read: the second one loses its first byte.  And an empty
argument is left out. -/
theorem inline_ping_ping :
    (run REDIS_MAX_QUERYBUF_LEN (start (linesBytes [⟨str "PING", false⟩, ⟨str "PING", false⟩]))
      (readAll [str "PING\nPING\n"])).client.argvs = [[str "PING"], [str "ING"]] ∧
    sdssplitargs (str "SET k \"\"") = some [str "SET", str "k", []] ∧
    (run REDIS_MAX_QUERYBUF_LEN (start (linesBytes [⟨str "SET k \"\"", true⟩]))
      (readAll [str "SET k \"\"\r\n"])).client.argvs = [[str "SET", str "k"]] :=
  ⟨by decide, by decide +kernel, by decide +kernel⟩

end Redis.Input
