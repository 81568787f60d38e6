import Redis.Input

/-!
# Redis.Input.Chunks

What the parser does with a buffer that holds the beginning of a stream of requests, from a line
with a length to the loop of `processInputBuffer`.
-/

namespace Redis.Input

open List

open Replication (Query ReqType Parse processInlineBuffer processMultibulkBuffer resetClient
  requestType numLine encode restBytes BulkOk crlf bulk REDIS_INLINE_MAX_SIZE REDIS_MBULK_BIG_ARG
  REDIS_IOBUF_LEN strchr readBulkLen multibulkLoop mem_numLine strchr_eq_some strchr_eq_none
  bulk_eq drop_arg multibulkLoop_some multibulkLoop_len multibulkLoop_more restBytes_ne_nil)

/-! ## Lines -/

section Lines

variable {w future tail : Bytes} {c : UInt8} {n : Nat}

theorem strchr_of_le (hc : c ≠ 0 ∧ c ≠ 13) (h : w ++ future = numLine c n ++ (crlf ++ tail))
    (hle : w.length ≤ (numLine c n).length) : strchr w 13 = none := by
  have hpre : w <+: numLine c n :=
    prefix_of_prefix_length_le ⟨future, h⟩ ⟨crlf ++ tail, rfl⟩ hle
  exact strchr_eq_none fun b hb => mem_numLine hc b (hpre.subset hb)

theorem strchr_of_gt (hc : c ≠ 0 ∧ c ≠ 13) (h : w ++ future = numLine c n ++ (crlf ++ tail))
    (hlt : (numLine c n).length < w.length) :
    strchr w 13 = some (numLine c n).length ∧ w.take (numLine c n).length = numLine c n ∧
      ((numLine c n).length + 2 ≤ w.length →
        w.drop ((numLine c n).length + 2) ++ future = tail) := by
  obtain ⟨rest, rfl⟩ : numLine c n <+: w :=
    prefix_of_prefix_length_le ⟨crlf ++ tail, rfl⟩ ⟨future, h⟩ hlt.le
  rw [append_assoc, append_cancel_left_eq] at h
  cases rest with
  | nil => simp at hlt
  | cons x rest =>
    simp only [crlf, cons_append, nil_append, List.cons.injEq] at h
    obtain ⟨rfl, h⟩ := h
    refine ⟨strchr_eq_some (mem_numLine hc) rest, by simp, fun hle => ?_⟩
    cases rest with
    | nil => simp at hle
    | cons y rest =>
      simp only [cons_append, List.cons.injEq] at h
      rw [drop_append, drop_eq_nil_of_le (Nat.le_add_right _ _)]
      simpa using h.2

end Lines

/-! ## The length of an argument -/

section Bulk

variable {qb a future tail : Bytes} {pos : Nat}

theorem bulk_line (ha : a.length ≤ 512 * 1024 * 1024)
    (h : qb.drop pos ++ future = bulk (.raw a) ++ tail) :
    qb.drop pos ++ future = numLine 36 a.length ++ (crlf ++ (a ++ (crlf ++ tail))) := by
  rw [h, bulk_eq ha]
  simp only [append_assoc]

/-- The buffer ends in the line, before its `\r`. -/
theorem readBulkLen_cut (ha : a.length ≤ 512 * 1024 * 1024)
    (h : qb.drop pos ++ future = bulk (.raw a) ++ tail) (hle : qb.length - pos ≤ lineLength a) :
    readBulkLen qb pos =
      if qb.length > REDIS_INLINE_MAX_SIZE then .protocolError 0 else .more := by
  rw [readBulkLen, strchr_of_le (by decide) (bulk_line ha h) (by rw [length_drop]; exact hle)]

/-- The buffer ends in the line, behind its `\r`. -/
theorem readBulkLen_more (ha : a.length ≤ 512 * 1024 * 1024)
    (h : qb.drop pos ++ future = bulk (.raw a) ++ tail) (hlt : lineLength a < qb.length - pos)
    (hle : qb.length - pos < lineLength a + 2) : readBulkLen qb pos = .more := by
  obtain ⟨hstr, -, -⟩ := strchr_of_gt (by decide) (bulk_line ha h)
    (by rw [length_drop]; exact hlt)
  rw [← lineLength] at hstr
  rw [readBulkLen, hstr]
  simp only
  rw [if_pos (by omega)]

theorem readBulkLen_line (ha : a.length ≤ 512 * 1024 * 1024)
    (h : qb.drop pos ++ future = bulk (.raw a) ++ tail) (hle : lineLength a + 2 ≤ qb.length - pos) :
    (readBulkLen qb pos =
      if a.length ≥ REDIS_MBULK_BIG_ARG then
        .len (qb.drop (pos + lineLength a + 2)) 0 a.length
      else .len qb (pos + lineLength a + 2) a.length) ∧
    qb.drop (pos + lineLength a + 2) ++ future = a ++ (crlf ++ tail) := by
  obtain ⟨hstr, htake, hdrop⟩ := strchr_of_gt (by decide) (bulk_line ha h)
    (by rw [length_drop, ← lineLength]; omega)
  rw [← lineLength] at hstr htake hdrop
  rw [length_drop, drop_drop, ← Nat.add_assoc] at hdrop
  refine ⟨?_, hdrop hle⟩
  have hhead : qb[pos]? = some 36 := by
    have := congrArg (·[0]?) htake
    simpa [numLine, getElem?_take, lineLength] using this
  have hdigits : (qb.drop (pos + 1)).take (lineLength a - 1) = decimal a.length := by
    have := congrArg (drop 1) htake
    rw [drop_take, drop_drop] at this
    simpa [numLine] using this
  rw [readBulkLen, hstr]
  simp only
  rw [if_neg (by omega), if_neg (by simp [hhead]), hdigits, string2ll_decimal (by omega)]
  simp only
  rw [if_neg (by omega)]
  simp only [ge_iff_le, Nat.cast_le, Int.toNat_natCast]

end Bulk

/-! ## The arguments of a request -/

/-- A request of which the arguments `todo` are left to read, and not all in the buffer. -/
structure Reading (q : Query) (todo : List Bytes) (future tail : Bytes) : Prop where
  todo_ne : todo ≠ []
  reqtype : q.reqtype = some .multibulk
  multibulklen : q.multibulklen = todo.length
  bulk : BulkOk q.bulklen todo
  bytes : q.querybuf ++ future = restBytes q.bulklen todo ++ tail
  stuck : q.querybuf.length < (restBytes q.bulklen todo).length

/-- The result of the loop on the arguments `todo`: with `cut`, a protocol error; else the request
is read to its end, or as far as it is in the buffer `qb` from `pos` on. -/
def LoopResult (res : Parse × Query) (cut : Bool) (todo argv : List Bytes)
    (bulklen : Option Nat) (buf future tail : Bytes) : Prop :=
  (cut = true ∧ res.1 = .protocolError) ∨
  (cut = false ∧ (restBytes bulklen todo).length ≤ buf.length ∧
    res = (.ok, ⟨buf.drop (restBytes bulklen todo).length, some .multibulk, 0, none,
      argv ++ todo⟩)) ∨
  (cut = false ∧ ∃ done todo', todo = done ++ todo' ∧ res.1 = .err ∧ res.2.argv = argv ++ done ∧
    Reading res.2 todo' future tail)

theorem restBytes_some (a : Bytes) (todo : List Bytes) (len : Nat) :
    restBytes (some len) (a :: todo) = a ++ (crlf ++ restBytes none todo) := by
  cases todo <;> rfl

theorem restBytes_none_cons (a : Bytes) (todo : List Bytes) :
    restBytes none (a :: todo) = bulk (.raw a) ++ restBytes none todo := by
  cases todo <;> simp [restBytes]

theorem length_restBytes_some (a : Bytes) (todo : List Bytes) (len : Nat) :
    (restBytes (some len) (a :: todo)).length = a.length + 2 + (restBytes none todo).length := by
  rw [restBytes_some, length_append, length_append]
  simp only [crlf, length_cons, length_nil]
  omega

theorem length_restBytes_none {a : Bytes} (ha : a.length ≤ 512 * 1024 * 1024)
    (todo : List Bytes) (len : Nat) :
    (restBytes none (a :: todo)).length =
      lineLength a + 2 + (restBytes (some len) (a :: todo)).length := by
  have hline : (numLine 36 a.length).length = lineLength a := rfl
  rw [length_restBytes_some, restBytes_none_cons, length_append, bulk_eq ha]
  simp only [length_append, crlf, length_cons, length_nil, hline]
  omega

theorem lineCut_none (a : Bytes) (todo : List Bytes) (size pos : Nat) :
    lineCut (a :: todo) size pos none =
      if size - pos ≤ lineLength a then decide (size > REDIS_INLINE_MAX_SIZE)
      else if size - pos < lineLength a + 2 then false
      else if a.length ≥ REDIS_MBULK_BIG_ARG then
        lineCut (a :: todo) (size - (pos + lineLength a + 2)) 0 (some a.length)
      else lineCut (a :: todo) size (pos + lineLength a + 2) (some a.length) := rfl

theorem lineCut_zero (todo : List Bytes) (bulklen : Option Nat) :
    lineCut todo 0 0 bulklen = false := by
  cases todo with
  | nil => rfl
  | cons a todo => cases bulklen <;> simp [lineCut]

section Loop

variable {res : Parse × Query} {cut : Bool} {todo argv : List Bytes} {a : Bytes}
  {buf buf' future tail : Bytes} {len : Nat}

theorem LoopResult.arg (h : LoopResult res cut todo (argv ++ [a]) none buf' future tail)
    (hbuf : buf.drop (a.length + 2) = buf') (hle : a.length + 2 ≤ buf.length) :
    LoopResult res cut (a :: todo) argv (some len) buf future tail := by
  subst hbuf
  rcases h with herr | ⟨hcut, hlen, hres⟩ | ⟨hcut, done, todo', htodo, hres, hargv, hreading⟩
  · exact .inl herr
  · rw [length_drop] at hlen
    refine .inr (.inl ⟨hcut, by rw [length_restBytes_some]; omega, ?_⟩)
    rw [hres, length_restBytes_some, drop_drop]
    simp
  · exact .inr (.inr ⟨hcut, a :: done, todo', by rw [htodo]; rfl, hres, by simp [hargv], hreading⟩)

/-- The line with its length has been read. -/
theorem LoopResult.line (ha : a.length ≤ 512 * 1024 * 1024)
    (h : LoopResult res cut (a :: todo) argv (some a.length) buf' future tail)
    (hbuf : buf.drop (lineLength a + 2) = buf') (hle : lineLength a + 2 ≤ buf.length) :
    LoopResult res cut (a :: todo) argv none buf future tail := by
  subst hbuf
  rcases h with herr | ⟨hcut, hlen, hres⟩ | hreading
  · exact .inl herr
  · rw [length_drop] at hlen
    have hline := length_restBytes_none ha todo a.length
    refine .inr (.inl ⟨hcut, by omega, ?_⟩)
    rw [hres, hline, drop_drop]
  · exact .inr (.inr hreading)

/-- What the buffer ends in is kept. -/
theorem LoopResult.short {bulklen : Option Nat} {n : Nat} (hn : n = todo.length)
    (hbulk : BulkOk bulklen (a :: todo))
    (hbytes : buf ++ future = restBytes bulklen (a :: todo) ++ tail)
    (hlt : buf.length < (restBytes bulklen (a :: todo)).length) :
    LoopResult (.err, ⟨buf, some .multibulk, n + 1, bulklen, argv⟩) false (a :: todo) argv bulklen
      buf future tail := by
  subst hn
  exact .inr (.inr ⟨rfl, [], a :: todo, rfl, rfl, by simp, by simp, rfl, rfl, hbulk, hbytes, hlt⟩)

end Loop

/-- The loop on the arguments `todo`. -/
theorem multibulkLoop_result {future tail : Bytes} {todo : List Bytes}
    (htodo : ∀ a ∈ todo, a.length ≤ 512 * 1024 * 1024) {qb : Bytes} {pos : Nat}
    {bulklen : Option Nat} {argv : List Bytes} (hpos : pos ≤ qb.length)
    (hbulk : BulkOk bulklen todo) (h : qb.drop pos ++ future = restBytes bulklen todo ++ tail) :
    LoopResult (multibulkLoop todo.length qb pos bulklen argv) (lineCut todo qb.length pos bulklen)
      todo argv bulklen (qb.drop pos) future tail := by
  induction todo generalizing qb pos bulklen argv with
  | nil =>
    obtain rfl : bulklen = none := by
      cases bulklen with
      | none => rfl
      | some len =>
        obtain ⟨a, t, hnil, -⟩ := hbulk len rfl
        cases hnil
    exact .inr (.inl ⟨rfl, Nat.zero_le _, by simp [multibulkLoop, restBytes]⟩)
  | cons a todo ih =>
    have ha := htodo a (by simp)
    replace ih := @ih fun x hx => htodo x (by simp [hx])
    have hsome : BulkOk (some a.length) (a :: todo) := by
      rintro len ⟨⟩
      exact ⟨a, todo, rfl, rfl⟩
    -- the second half of a round, once the length is known
    have hread (qb : Bytes) (pos : Nat) (hpos : pos ≤ qb.length)
        (h : qb.drop pos ++ future = restBytes (some a.length) (a :: todo) ++ tail) :
        LoopResult (multibulkLoop (todo.length + 1) qb pos (some a.length) argv)
          (lineCut (a :: todo) qb.length pos (some a.length)) (a :: todo) argv (some a.length)
          (qb.drop pos) future tail := by
      simp only [multibulkLoop_some, lineCut, Option.isSome_some, if_true]
      have hlen : (qb.drop pos).length = qb.length - pos := length_drop
      by_cases hlt : qb.length - pos < a.length + 2
      · simp only [if_pos hlt]
        exact .short rfl hsome h (by rw [length_restBytes_some]; omega)
      · have hle : a.length + 2 ≤ (qb.drop pos).length := by omega
        have h' := h
        rw [restBytes_some, append_assoc, append_assoc] at h'
        obtain ⟨htake, hdrop⟩ := drop_arg (by omega) h'
        simp only [if_neg hlt]
        by_cases hjust : pos = 0 ∧ a.length ≥ REDIS_MBULK_BIG_ARG ∧ qb.length = a.length + 2
        · simp only [if_pos hjust]
          obtain ⟨rfl, -, hsize⟩ := hjust
          rw [drop_zero] at htake
          rw [drop_eq_nil_of_le (by omega)] at hdrop
          have hrest := @ih [] 0 none (argv ++ [a]) (le_refl 0) (by simp [BulkOk])
            (by simpa using hdrop)
          rw [length_nil, lineCut_zero] at hrest
          rw [htake]
          exact hrest.arg (by rw [drop_zero, drop_nil, drop_eq_nil_of_le (by omega)])
            hle
        · simp only [if_neg hjust, htake]
          refine LoopResult.arg (ih (by omega) (by simp [BulkOk]) hdrop) ?_ hle
          rw [drop_drop, Nat.add_assoc]
    cases bulklen with
    | some len =>
      obtain ⟨a', todo', htd, rfl⟩ := hbulk len rfl
      obtain ⟨rfl, rfl⟩ := List.cons.inj htd
      exact hread qb pos hpos h
    | none =>
      have hlen : (qb.drop pos).length = qb.length - pos := length_drop
      have hline := length_restBytes_none ha todo a.length
      have hsize := length_restBytes_some a todo a.length
      have hb := h
      rw [restBytes_none_cons, append_assoc] at hb
      rw [length_cons]
      by_cases hcut : qb.length - pos ≤ lineLength a
      · have hres := readBulkLen_cut ha hb hcut
        rw [lineCut_none, if_pos hcut]
        by_cases hmax : qb.length > REDIS_INLINE_MAX_SIZE
        · rw [if_pos hmax] at hres
          exact .inl ⟨decide_eq_true hmax, by rw [multibulkLoop, hres]⟩
        · rw [if_neg hmax] at hres
          rw [multibulkLoop_more hres, decide_eq_false hmax]
          exact .short rfl hbulk h (by omega)
      by_cases hmore : qb.length - pos < lineLength a + 2
      · rw [multibulkLoop_more (readBulkLen_more ha hb (by omega) hmore), lineCut_none,
          if_neg hcut, if_pos hmore]
        exact .short rfl hbulk h (by omega)
      obtain ⟨hres, hdrop⟩ := readBulkLen_line ha hb (by omega)
      have hdrop' : qb.drop (pos + lineLength a + 2) ++ future =
          restBytes (some a.length) (a :: todo) ++ tail := by
        rw [hdrop, restBytes_some]
        simp only [append_assoc]
      have hbuf : (qb.drop pos).drop (lineLength a + 2) = qb.drop (pos + lineLength a + 2) := by
        rw [drop_drop, Nat.add_assoc]
      rw [lineCut_none, if_neg hcut, if_neg hmore]
      by_cases hbig : a.length ≥ REDIS_MBULK_BIG_ARG
      · rw [if_pos hbig] at hres ⊢
        rw [multibulkLoop_len hres]
        have hloop := hread (qb.drop (pos + lineLength a + 2)) 0 (Nat.zero_le _) hdrop'
        rw [length_drop] at hloop
        exact LoopResult.line ha hloop hbuf (by omega)
      · rw [if_neg hbig] at hres ⊢
        rw [multibulkLoop_len hres]
        exact LoopResult.line ha (hread qb _ (by omega) hdrop') hbuf (by omega)

/-! ## A request -/

theorem encode_limits {argv : List Bytes} (h : InLimits argv) :
    encode argv = numLine 42 argv.length ++ (crlf ++ restBytes none argv) := by
  have hle := h.argc_le
  rw [encode, Replication.command, length_map, Replication.ll2string_natCast (by omega),
    flatMap_map]
  simp [numLine, restBytes]

/-- The requests `cmds` are still to be executed: the first one may have been read in part, and
the rest is in the buffer or to come. -/
inductive Pending (q : Query) (future : Bytes) : List (List Bytes) → Prop
  | idle {cmds : List (List Bytes)} : q.reqtype ≠ some .inline → q.multibulklen = 0 →
      q.bulklen = none → q.argv = [] → q.querybuf ++ future = cmds.flatMap encode →
      Pending q future cmds
  | reading {todo : List Bytes} {cmds : List (List Bytes)} : todo ≠ [] →
      q.reqtype = some .multibulk → q.multibulklen = todo.length → BulkOk q.bulklen todo →
      q.querybuf ++ future = restBytes q.bulklen todo ++ cmds.flatMap encode →
      Pending q future ((q.argv ++ todo) :: cmds)

section Request

variable {q : Query} {future : Bytes} {cmd : List Bytes}
  {cmds : List (List Bytes)}

theorem Pending.eq_nil (h : Pending q future cmds) (hlim : ∀ c ∈ cmds, InLimits c)
    (hnil : q.querybuf ++ future = []) : cmds = [] := by
  cases h with
  | idle _ _ _ _ hbytes =>
    rw [hnil] at hbytes
    cases cmds with
    | nil => rfl
    | cons cmd cmds =>
      rw [flatMap_cons] at hbytes
      exact absurd (append_eq_nil_iff.mp hbytes.symm).1 (Replication.encode_ne_nil cmd)
  | reading htodo _ _ _ hbytes =>
    rw [hnil] at hbytes
    have hlen := (hlim _ mem_cons_self).length_le
    exact absurd (append_eq_nil_iff.mp hbytes.symm).1
      (restBytes_ne_nil htodo fun a ha => hlen a (by simp [ha]))

/-- One round on the request `cmd`. -/
def RoundResult (res : Parse × Query) (q : Query) (future : Bytes) (cmd : List Bytes)
    (cmds : List (List Bytes)) : Prop :=
  (requestCut q cmd = true ∧ res.1 = .protocolError) ∨
  (requestCut q cmd = false ∧ leftBytes q cmd ≤ q.querybuf.length ∧ res.1 = .ok ∧
    res.2.argv = cmd ∧
    resetClient res.2 = ⟨q.querybuf.drop (leftBytes q cmd), none, 0, none, []⟩) ∨
  (requestCut q cmd = false ∧ res.1 = .err ∧ Pending res.2 future (cmd :: cmds) ∧
    (cmds.flatMap encode).length < future.length)

/-- The result of the loop as that of a round. -/
theorem RoundResult.of_loop {res : Parse × Query} {todo : List Bytes}
    (argv : List Bytes) (bulklen : Option Nat) (skip : Nat) (hcmd : cmd = argv ++ todo)
    (hleft : leftBytes q cmd = skip + (restBytes bulklen todo).length)
    (hskip : skip ≤ q.querybuf.length)
    (h : LoopResult res (requestCut q cmd) todo argv bulklen (q.querybuf.drop skip) future
      (cmds.flatMap encode)) : RoundResult res q future cmd cmds := by
  rcases h with herr | ⟨hcut, hlen, hres⟩ | ⟨hcut, done, todo', htodo, hres, hargv, hreading⟩
  · exact .inl herr
  · rw [length_drop] at hlen
    refine .inr (.inl ⟨hcut, by omega, by rw [hres], by rw [hres, hcmd], ?_⟩)
    rw [hres, hleft, resetClient, drop_drop]
  · refine .inr (.inr ⟨hcut, hres, ?_, ?_⟩)
    · have heq : cmd = res.2.argv ++ todo' := by rw [hargv, hcmd, htodo, append_assoc]
      rw [heq]
      exact .reading hreading.todo_ne hreading.reqtype hreading.multibulklen hreading.bulk
        hreading.bytes
    · exact Replication.length_lt_of_append_eq hreading.bytes hreading.stuck

theorem processMultibulkBuffer_result (h : Pending q future (cmd :: cmds)) (hlim : InLimits cmd) :
    RoundResult (processMultibulkBuffer { q with reqtype := some .multibulk }) q future cmd
      cmds := by
  rw [processMultibulkBuffer]
  cases h with
  | @reading todo _ htodo hreq hlen hbulk hbytes =>
    have hpos : q.multibulklen ≠ 0 := by simpa [hlen] using htodo
    have hdrop : (q.argv ++ todo).drop q.argv.length = todo := by simp
    simp only [hpos, if_false]
    refine RoundResult.of_loop q.argv q.bulklen 0 rfl ?_ (Nat.zero_le _) ?_
    · rw [leftBytes, if_neg hpos, hdrop, Nat.zero_add]
    · rw [requestCut, if_neg hpos, hdrop, hlen]
      refine multibulkLoop_result (fun a ha => hlim.length_le a (by simp [ha])) (Nat.zero_le _)
        hbulk ?_
      rw [drop_zero]
      exact hbytes
  | idle hreq hlen hbulk hargv hbytes =>
    have hbytes' := hbytes
    rw [flatMap_cons, encode_limits hlim, append_assoc, append_assoc] at hbytes'
    have hargc := hlim.argc_le
    have hline := Replication.length_numLine_le (c := 42) (n := cmd.length) (by omega)
    have henc : (encode cmd).length = (numLine 42 cmd.length).length + 2 +
        (restBytes none cmd).length := by
      rw [encode_limits hlim]
      simp only [length_append, crlf, length_cons, length_nil]
      omega
    have hstuck (hlt : q.querybuf.length < (numLine 42 cmd.length).length + 2)
        (hres : requestCut q cmd = false) :
        RoundResult (.err, { q with reqtype := some .multibulk }) q future cmd cmds := by
      refine .inr (.inr ⟨hres, rfl, .idle (by simp) hlen hbulk hargv hbytes, ?_⟩)
      exact Replication.length_lt_of_append_eq (flatMap_cons ▸ hbytes) (by omega)
    simp only [hlen, if_true]
    have hnocut (hlt : q.querybuf.length < (numLine 42 cmd.length).length + 2) :
        requestCut q cmd = false := by
      rw [requestCut, if_pos hlen]
      simp only [Bool.and_eq_false_imp, decide_eq_true_eq]
      intro hle
      omega
    by_cases hshort : q.querybuf.length ≤ (numLine 42 cmd.length).length
    · rw [strchr_of_le (by decide) hbytes' hshort]
      simp only
      rw [if_neg (by rw [REDIS_INLINE_MAX_SIZE]; omega), ← hlen]
      exact hstuck (by omega) (hnocut (by omega))
    obtain ⟨hstr, htake, hrest⟩ := strchr_of_gt (by decide) hbytes' (by omega)
    rw [hstr]
    simp only
    by_cases hmore : (numLine 42 cmd.length).length + 2 > q.querybuf.length
    · rw [if_pos hmore, ← hlen]
      exact hstuck hmore (hnocut hmore)
    have hdigits : (q.querybuf.drop 1).take ((numLine 42 cmd.length).length - 1) =
        decimal cmd.length := by
      have := congrArg (drop 1) htake
      rw [drop_take] at this
      simpa [numLine] using this
    have hrest := hrest (by omega)
    have hreq : requestCut q cmd =
        lineCut cmd q.querybuf.length ((numLine 42 cmd.length).length + 2) none := by
      have hle : (numLine 42 cmd.length).length + 2 ≤ q.querybuf.length := by omega
      rw [requestCut, if_pos hlen]
      simp only [decide_eq_true hle, Bool.true_and]
    have hleft : leftBytes q cmd = (numLine 42 cmd.length).length + 2 +
        (restBytes none cmd).length := by rw [leftBytes, if_pos hlen, henc]
    rw [if_neg hmore, hdigits, string2ll_decimal (by omega)]
    simp only
    rw [if_neg (by omega)]
    by_cases hzero : cmd.length = 0
    · obtain rfl := length_eq_zero_iff.mp hzero
      rw [if_pos (by simp)]
      have hnone : (restBytes none []).length = 0 := rfl
      rw [hnone] at hleft
      refine .inr (.inl ⟨hreq, by omega, rfl, hargv, ?_⟩)
      rw [hleft]
      rfl
    · rw [if_neg (by omega), Int.toNat_natCast, hbulk, hargv]
      refine RoundResult.of_loop [] none _ rfl hleft (by omega) ?_
      rw [hreq]
      exact multibulkLoop_result (fun a ha => hlim.length_le a ha) (by omega) (by simp [BulkOk])
        hrest

/-- A pending request makes the request type of a client that has bytes of it. -/
theorem Pending.requestType_eq (h : Pending q future (cmd :: cmds)) (hlim : InLimits cmd)
    (hne : q.querybuf ≠ []) : requestType q = .multibulk := by
  cases h with
  | reading _ hreq => simp [requestType, hreq]
  | idle hreq _ _ _ hbytes =>
    rw [requestType]
    cases hr : q.reqtype with
    | some r => cases r <;> simp_all
    | none =>
      cases hq : q.querybuf with
      | nil => exact absurd hq hne
      | cons b bs =>
        rw [hq, flatMap_cons, encode_limits hlim, numLine] at hbytes
        simp [(List.cons.inj hbytes).1]

theorem Pending.next (h : Pending q future (cmd :: cmds))
    (hle : leftBytes q cmd ≤ q.querybuf.length) :
    Pending ⟨q.querybuf.drop (leftBytes q cmd), none, 0, none, []⟩ future cmds := by
  refine .idle (by simp) rfl rfl rfl ?_
  have hcut {x : Bytes} (hx : x.length = leftBytes q cmd)
      (hbytes : q.querybuf ++ future = x ++ cmds.flatMap encode) :
      q.querybuf.drop (leftBytes q cmd) ++ future = cmds.flatMap encode := by
    have := congrArg (drop x.length) hbytes
    rw [drop_append_of_le_length (by omega), drop_left] at this
    rw [← hx]
    exact this
  cases h with
  | idle _ hlen _ _ hbytes =>
    rw [flatMap_cons] at hbytes
    exact hcut (by rw [leftBytes, if_pos hlen]) hbytes
  | @reading todo _ htodo _ hlen _ hbytes =>
    have hpos : q.multibulklen ≠ 0 := by simpa [hlen] using htodo
    exact hcut (by rw [leftBytes, if_neg hpos]; simp) hbytes

theorem Pending.length_eq (h : Pending q future (cmd :: cmds)) :
    q.querybuf.length + future.length = leftBytes q cmd + (cmds.flatMap encode).length := by
  rw [leftBytes]
  cases h with
  | idle _ hlen _ _ hbytes =>
    rw [if_pos hlen, ← length_append, hbytes, flatMap_cons, length_append]
  | @reading todo _ htodo _ hlen _ hbytes =>
    have hpos : q.multibulklen ≠ 0 := by simpa [hlen] using htodo
    rw [if_neg hpos, drop_left, ← length_append, hbytes, length_append]

theorem Pending.leftBytes_pos (h : Pending q future (cmd :: cmds)) (hlim : InLimits cmd) :
    0 < leftBytes q cmd := by
  rw [leftBytes]
  cases h with
  | idle _ hlen _ _ _ =>
    rw [if_pos hlen, length_pos_iff]
    exact Replication.encode_ne_nil cmd
  | @reading todo _ htodo _ hlen _ _ =>
    have hpos : q.multibulklen ≠ 0 := by simpa [hlen] using htodo
    rw [if_neg hpos, length_pos_iff, drop_left]
    exact restBytes_ne_nil htodo fun a ha => hlim.length_le a (by simp [ha])

end Request

/-! ## The loop of `processInputBuffer` -/

section Rounds

variable {future : Bytes} {cmds : List (List Bytes)}

variable {c : Client} {rounds : Nat}

theorem processInputBuffer_closed (h : c.closeAfterReply = true) :
    processInputBuffer rounds c = c := by
  cases rounds with
  | zero => rfl
  | succ rounds => rw [processInputBuffer, if_pos (.inr h)]

theorem processInputBuffer_succ {cmd : List Bytes} (hp : Pending c.query future (cmd :: cmds))
    (hlim : InLimits cmd) (hne : c.query.querybuf ≠ []) (hclose : c.closeAfterReply = false) :
    processInputBuffer (rounds + 1) c =
      match processMultibulkBuffer { c.query with reqtype := some .multibulk } with
      | (.err, q) => { c with query := q }
      | (.protocolError, q) => { c with query := q, closeAfterReply := true }
      | (.ok, q) =>
        processInputBuffer rounds
          { c with query := resetClient q, argvs := c.argvs ++ [q.argv] } := by
  rw [processInputBuffer, if_neg (by simp [hne, hclose])]
  simp only [hp.requestType_eq hlim hne] <;> rfl

/-- Requests of the stream are read, in order; without a stop, all that are in the buffer. -/
theorem processInputBuffer_result (hlim : ∀ cmd ∈ cmds, InLimits cmd)
    (hp : Pending c.query future cmds) (hclose : c.closeAfterReply = false)
    (hcut : inputCut rounds c.query cmds = false) :
    ∃ done rest q, cmds = done ++ rest ∧
      processInputBuffer rounds c = { c with query := q, argvs := c.argvs ++ done } ∧
      Pending q future rest ∧
      (c.query.querybuf.length ≤ rounds → future = [] → rest = []) := by
  induction rounds generalizing c cmds with
  | zero =>
    refine ⟨[], cmds, c.query, rfl, by simp [processInputBuffer], hp, fun hle hnil => ?_⟩
    exact hp.eq_nil hlim (by simp [hnil, length_eq_zero_iff.mp (Nat.le_zero.mp hle)])
  | succ rounds ih =>
    by_cases hne : c.query.querybuf = []
    · refine ⟨[], cmds, c.query, rfl, by simp [processInputBuffer, hne], hp, fun _ hnil => ?_⟩
      exact hp.eq_nil hlim (by simp [hnil, hne])
    cases cmds with
    | nil =>
      -- nothing is left of the stream, so nothing is in the buffer
      cases hp with
      | idle _ _ _ _ hbytes => simp_all
    | cons cmd cmds =>
      have hlim₁ := hlim cmd (by simp)
      rw [processInputBuffer_succ hp hlim₁ hne hclose]
      rw [inputCut, Bool.or_eq_false_iff, Bool.and_eq_false_imp] at hcut
      obtain ⟨hcut, hnext⟩ := hcut
      rcases processMultibulkBuffer_result hp hlim₁ with
        ⟨hbad, -⟩ | ⟨-, hle, hok, hargv, hreset⟩ | ⟨-, herr, hp', hlt⟩
      · rw [hcut] at hbad
        cases hbad
      · rcases hres : processMultibulkBuffer { c.query with reqtype := some .multibulk } with ⟨p, q⟩
        rw [hres] at hok hargv hreset
        simp only at hok hargv hreset
        subst hok
        simp only [hargv, hreset]
        have hpos := hp.leftBytes_pos hlim₁
        obtain ⟨done, rest, q', hcs, hrun, hpend, hall⟩ :=
          @ih cmds ⟨⟨c.query.querybuf.drop (leftBytes c.query cmd), none, 0, none, []⟩,
            c.closeAfterReply, c.freed, c.argvs ++ [cmd]⟩
            (fun x hx => hlim x (by simp [hx])) (hp.next hle) hclose
            (hnext (decide_eq_true hle))
        refine ⟨cmd :: done, rest, q', by rw [hcs]; rfl, ?_, hpend, fun hle' => hall ?_⟩
        · rw [hrun]
          simp
        · rw [length_drop]
          omega
      · rcases hres : processMultibulkBuffer { c.query with reqtype := some .multibulk } with ⟨p, q⟩
        rw [hres] at herr hp'
        simp only at herr hp'
        subst herr
        refine ⟨[], cmd :: cmds, q, rfl, by simp, hp', fun _ hnil => ?_⟩
        rw [hnil] at hlt
        simp at hlt

theorem processInputBuffer_cut (hlim : ∀ cmd ∈ cmds, InLimits cmd)
    (hp : Pending c.query future cmds) (hclose : c.closeAfterReply = false)
    (hcut : inputCut rounds c.query cmds = true) :
    (processInputBuffer rounds c).closeAfterReply = true := by
  induction rounds generalizing c cmds with
  | zero => cases hcut
  | succ rounds ih =>
    cases cmds with
    | nil => cases hcut
    | cons cmd cmds =>
      have hlim₁ := hlim cmd (by simp)
      rw [inputCut, Bool.or_eq_true, Bool.and_eq_true, decide_eq_true_eq] at hcut
      have hne : c.query.querybuf ≠ [] := by
        intro hnil
        have hpos := hp.leftBytes_pos hlim₁
        rcases hcut with hcut | ⟨hle, -⟩
        · rw [requestCut, hnil] at hcut
          simp [lineCut_zero] at hcut
        · rw [hnil, length_nil] at hle
          omega
      rw [processInputBuffer_succ hp hlim₁ hne hclose]
      rcases hres : processMultibulkBuffer { c.query with reqtype := some .multibulk } with ⟨p, q⟩
      have hround := processMultibulkBuffer_result hp hlim₁
      rw [hres] at hround
      rcases hround with
        ⟨-, hbad⟩ | ⟨hfalse, hle, hok, hargv, hreset⟩ | ⟨hfalse, herr, -, hlt⟩
      · simp only at hbad
        subst hbad
        rfl
      · simp only at hok hargv hreset
        subst hok
        simp only [hargv, hreset]
        rw [hfalse] at hcut
        obtain ⟨_, hnext⟩ := hcut.resolve_left (by decide)
        exact ih (fun x hx => hlim x (by simp [hx])) (hp.next hle) hclose hnext
      · rw [hfalse] at hcut
        obtain ⟨hle, _⟩ := hcut.resolve_left (by decide)
        have hlen := hp.length_eq
        omega

end Rounds

end Redis.Input
