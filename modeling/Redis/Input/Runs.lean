import Redis.Input.Chunks

/-!
# Redis.Input.Runs

However a stream of requests is cut into reads, and whenever the client is not served, the
requests that are read are those of the stream, as long as no event meets one of the two
situations of `Redis.Input`.
-/

namespace Redis.Input

open List

open Replication (Query ReqType Parse encode restBytes BulkOk crlf numLine bulk_eq
  REDIS_INLINE_MAX_SIZE REDIS_MBULK_BIG_ARG REDIS_IOBUF_LEN)

/-! ## Events -/

section Events

variable {cmds : List (List Bytes)} {conn : Conn} {limit : Nat} {event : Event}

theorem length_restBytes_le {bulklen : Option Nat} {todo : List Bytes}
    (hbulk : BulkOk bulklen todo) (hlen : ∀ a ∈ todo, a.length ≤ 512 * 1024 * 1024) :
    (restBytes bulklen todo).length ≤ (restBytes none todo).length := by
  cases bulklen with
  | none => exact le_rfl
  | some len =>
    obtain ⟨a, todo', rfl, rfl⟩ := hbulk len rfl
    rw [length_restBytes_none (hlen a (by simp)) todo' a.length]
    exact Nat.le_add_left _ _

variable {future : Bytes} {q : Query} {stop : Option Nat}

theorem Pending.length_le (h : Pending q future cmds) (hlim : ∀ cmd ∈ cmds, InLimits cmd) :
    q.querybuf.length + future.length ≤ (cmds.flatMap encode).length := by
  rw [← length_append]
  cases h with
  | idle _ _ _ _ hbytes => rw [hbytes]
  | @reading todo cmds _ _ _ hbulk hbytes =>
    have hlim₁ := hlim _ mem_cons_self
    have hle := length_restBytes_le hbulk fun a ha => hlim₁.length_le a (by simp [ha])
    have hargv : (restBytes none todo).length ≤ (restBytes none (q.argv ++ todo)).length := by
      simp [restBytes]
    rw [hbytes, flatMap_cons, encode_limits hlim₁]
    simp only [length_append]
    omega

/-- `read` is asked for bytes unless a big argument waits. -/
theorem readlen_le_iff (h : Pending q future cmds) : readlen q ≤ 0 ↔ bigArgWaits q := by
  have hbuf : (REDIS_IOBUF_LEN : Int) = 16384 := rfl
  rw [readlen, bigArgWaits]
  cases h with
  | idle _ _ hnone _ _ => simp [hnone, hbuf]
  | reading htodo hreq hlen hbulk hbytes =>
    cases hb : q.bulklen with
    | none => simp [hbuf]
    | some len =>
      by_cases hbig : q.multibulklen ≠ 0 ∧ len ≥ REDIS_MBULK_BIG_ARG
      · simp only [hreq, hbig.1, hbig.2, hbuf, ne_eq, not_false_eq_true, and_self, if_true,
          Option.some.injEq, exists_eq_left', true_and]
        split <;> omega
      · have hcond : ¬(q.reqtype = some .multibulk ∧ q.multibulklen ≠ 0 ∧
            len ≥ REDIS_MBULK_BIG_ARG) := fun hc => hbig hc.2
        simp only [if_neg hcond, hbuf, Option.some.injEq, exists_eq_left']
        constructor
        · intro hle
          omega
        · rintro ⟨hm, hge, _⟩
          exact absurd ⟨hm, hge⟩ hbig

/-- What holds as long as nothing goes wrong. -/
structure Inv (cmds : List (List Bytes)) (conn : Conn) : Prop where
  fine : Fine cmds conn
  pending : Pending conn.client.query conn.future (cmds.drop conn.client.argvs.length)

theorem inv_start (cmds : List (List Bytes)) : Inv cmds (start (cmds.flatMap encode)) :=
  ⟨⟨rfl, rfl, by simp [start], by simp [start]⟩, .idle (by simp [start]) rfl rfl rfl rfl⟩

/-- The client is served: requests are read, or the connection ends. -/
theorem Inv.serve (hlim : ∀ cmd ∈ cmds, InLimits cmd) {c : Client} {asked : List Int}
    (h : Inv cmds ⟨c, future, asked⟩) :
    (inputCut (rounds stop c.query) c.query (cmds.drop c.argvs.length) = false →
      Inv cmds ⟨processInputBuffer (rounds stop c.query) c, future, asked⟩ ∧
      (stop = none → future = [] → (processInputBuffer (rounds stop c.query) c).argvs = cmds)) ∧
    (inputCut (rounds stop c.query) c.query (cmds.drop c.argvs.length) = true →
      (processInputBuffer (rounds stop c.query) c).closeAfterReply = true) := by
  have hlim' : ∀ cmd ∈ cmds.drop c.argvs.length, InLimits cmd :=
    fun cmd hcmd => hlim cmd (mem_of_mem_drop hcmd)
  have hclose : c.closeAfterReply = false := h.fine.closeAfterReply
  refine ⟨fun hcut => ?_, processInputBuffer_cut hlim' h.pending hclose⟩
  obtain ⟨done, rest, q, hdone, hrun, hpend, hall⟩ :=
    processInputBuffer_result hlim' h.pending hclose hcut
  obtain ⟨tail, htail⟩ := h.fine.argvs
  simp only at htail
  rw [← htail, drop_left] at hdone
  subst hdone
  have hcmds : cmds = c.argvs ++ done ++ rest := by rw [← htail, append_assoc]
  rw [hrun]
  refine ⟨⟨⟨h.fine.freed, hclose, h.fine.asked, ⟨rest, hcmds.symm⟩⟩, ?_⟩, fun hstop hnil => ?_⟩
  · have hdrop : cmds.drop (c.argvs ++ done).length = rest := by rw [hcmds, drop_left]
    simp only [hdrop]
    exact hpend
  · subst hstop
    rw [hcmds, hall le_rfl hnil, append_nil]

theorem Inv.arrive (h : Inv cmds conn) (n : Nat) (asked : List Int) (hasked : ∀ k ∈ asked, 0 < k) :
    Inv cmds ⟨{ conn.client with
      query := { conn.client.query with
        querybuf := conn.client.query.querybuf ++ conn.future.take n } },
      conn.future.drop n, asked⟩ := by
  refine ⟨⟨h.fine.freed, h.fine.closeAfterReply, hasked, h.fine.argvs⟩, ?_⟩
  have hbytes : conn.client.query.querybuf ++ conn.future.take n ++ conn.future.drop n =
      conn.client.query.querybuf ++ conn.future := by
    rw [append_assoc, take_append_drop]
  have hpend := h.pending
  generalize cmds.drop conn.client.argvs.length = rest at hpend ⊢
  cases hpend with
  | idle hreq hlen hbulk hargv hq => exact .idle hreq hlen hbulk hargv (hbytes.trans hq)
  | reading htodo hreq hlen hbulk hq => exact .reading htodo hreq hlen hbulk (hbytes.trans hq)

/-- Something has gone wrong. -/
def Bad (conn : Conn) : Prop :=
  conn.client.freed = true ∨ conn.client.closeAfterReply = true ∨ ∃ n ∈ conn.asked, n ≤ 0

theorem Bad.not_fine (h : Bad conn) : ¬Fine cmds conn := by
  intro hfine
  rcases h with hfreed | hclose | ⟨n, hn, hle⟩
  · rw [hfine.freed] at hfreed
    cases hfreed
  · rw [hfine.closeAfterReply] at hclose
    cases hclose
  · have := hfine.asked n hn
    omega

theorem length_flatMap_drop_le (cmds : List (List Bytes)) (n : Nat) :
    ((cmds.drop n).flatMap encode).length ≤ (cmds.flatMap encode).length := by
  conv_rhs => rw [← take_append_drop n cmds, flatMap_append, length_append]
  exact Nat.le_add_left _ _

/-- `read` has been asked for bytes, and is again unless a big argument waits. -/
theorem Inv.asked_pos (h : Inv cmds conn) (hbig : ¬bigArgWaits conn.client.query) :
    ∀ n ∈ conn.asked ++ [readlen conn.client.query], 0 < n := by
  have hpos := (readlen_le_iff h.pending).not.mpr hbig
  intro n hn
  rcases mem_append.mp hn with hn | hn
  · exact h.fine.asked n hn
  · rw [mem_singleton.mp hn]
    omega

/-- What comes does not exceed the limit of the buffer. -/
theorem Inv.readQueryFromClient_eq (hlim : ∀ cmd ∈ cmds, InLimits cmd)
    (hlimit : (cmds.flatMap encode).length ≤ limit) (h : Inv cmds conn)
    (hbig : ¬bigArgWaits conn.client.query) {nread : Nat} (hread : nread ≠ 0) :
    readQueryFromClient limit nread stop conn =
      let n := min nread (readlen conn.client.query).toNat
      let q := { conn.client.query with
        querybuf := conn.client.query.querybuf ++ conn.future.take n }
      ⟨processInputBuffer (rounds stop q) { conn.client with query := q }, conn.future.drop n,
        conn.asked ++ [readlen conn.client.query]⟩ := by
  have harrive := h.arrive (min nread (readlen conn.client.query).toNat) _ (h.asked_pos hbig)
  have hlen : (conn.client.query.querybuf ++
      conn.future.take (min nread (readlen conn.client.query).toNat)).length ≤ limit :=
    calc _ ≤ _ := Nat.le_add_right _ _
      _ ≤ ((cmds.drop conn.client.argvs.length).flatMap encode).length :=
          harrive.pending.length_le fun cmd hcmd => hlim cmd (mem_of_mem_drop hcmd)
      _ ≤ (cmds.flatMap encode).length := length_flatMap_drop_le cmds _
      _ ≤ limit := hlimit
  rw [readQueryFromClient, if_neg ((readlen_le_iff h.pending).not.mpr hbig), if_neg hread]
  simp only
  rw [if_neg (Nat.not_lt.mpr hlen)]

/-- An event without one of the two situations. -/
theorem Inv.step (hlim : ∀ cmd ∈ cmds, InLimits cmd)
    (hlimit : (cmds.flatMap encode).length ≤ limit) (h : Inv cmds conn)
    (hevent : Harmless cmds conn event) :
    Inv cmds (step limit conn event) ∧ (event.Serves conn → (step limit conn event).future = [] →
      (step limit conn event).client.argvs = cmds) := by
  have hfreed := h.fine.freed
  cases event with
  | wakeup stop =>
    rw [Input.step, if_neg (by simp [hfreed])]
    obtain ⟨hinv, hall⟩ := (Inv.serve hlim h).1 hevent
    exact ⟨hinv, hall⟩
  | readable nread stop =>
    by_cases hfuture : conn.future = []
    · rw [Input.step, if_pos (.inr hfuture)]
      exact ⟨h, fun hserves => absurd hfuture hserves.1⟩
    obtain ⟨hbig, hcut⟩ := hevent hfuture
    rw [Input.step, if_neg (by simp [hfreed, hfuture])]
    by_cases hread : nread = 0
    · have hpos := (readlen_le_iff h.pending).not.mpr hbig
      rw [readQueryFromClient, if_neg hpos, if_pos hread]
      exact ⟨⟨⟨hfreed, h.fine.closeAfterReply, h.asked_pos hbig, h.fine.argvs⟩, h.pending⟩,
        fun _ hnil => absurd hnil hfuture⟩
    · rw [h.readQueryFromClient_eq hlim hlimit hbig hread]
      have harrive := h.arrive (min nread (readlen conn.client.query).toNat) _ (h.asked_pos hbig)
      obtain ⟨hinv, hall⟩ := (Inv.serve hlim harrive).1 (hcut hread)
      exact ⟨hinv, fun hserves => hall hserves.2⟩

theorem Inv.bad (hlim : ∀ cmd ∈ cmds, InLimits cmd)
    (hlimit : (cmds.flatMap encode).length ≤ limit) (h : Inv cmds conn)
    (hevent : ¬Harmless cmds conn event) : Bad (Input.step limit conn event) := by
  have hfreed := h.fine.freed
  cases event with
  | wakeup stop =>
    rw [Input.step, if_neg (by simp [hfreed])]
    exact .inr (.inl ((Inv.serve hlim h).2 (by simpa [Harmless] using hevent)))
  | readable nread stop =>
    rw [Harmless, Classical.not_imp] at hevent
    obtain ⟨hfuture, hevent⟩ := hevent
    rw [Input.step, if_neg (by simp [hfreed, hfuture])]
    by_cases hbig : bigArgWaits conn.client.query
    · rw [readQueryFromClient, if_pos ((readlen_le_iff h.pending).mpr hbig)]
      exact .inl rfl
    · have hcut := (not_and.mp hevent) hbig
      rw [Classical.not_imp, Bool.not_eq_false] at hcut
      rw [h.readQueryFromClient_eq hlim hlimit hbig hcut.1]
      have harrive := h.arrive (min nread (readlen conn.client.query).toNat) _ (h.asked_pos hbig)
      exact .inr (.inl ((Inv.serve hlim harrive).2 hcut.2))

theorem processInputBuffer_freed (rounds : Nat) (c : Client) :
    (processInputBuffer rounds c).freed = c.freed := by
  induction rounds generalizing c with
  | zero => rfl
  | succ rounds ih =>
    rw [processInputBuffer]
    split
    · rfl
    · simp only
      split
      · rfl
      · rfl
      · exact ih _

/-- What has gone wrong stays wrong. -/
theorem Bad.step (h : Bad conn) : Bad (Input.step limit conn event) := by
  have hserve (stop : Option Nat) (q : Query) :
      Bad ⟨processInputBuffer (rounds stop q) { conn.client with query := q }, conn.future,
        conn.asked⟩ := by
    rcases h with hfreed | hclose | hasked
    · exact .inl ((processInputBuffer_freed _ _).trans hfreed)
    · refine .inr (.inl ?_)
      exact (congrArg Client.closeAfterReply
        (processInputBuffer_closed (c := { conn.client with query := q }) hclose)).trans hclose
    · exact .inr (.inr hasked)
  cases event with
  | wakeup stop =>
    rw [Input.step]
    split
    · exact h
    · exact hserve stop conn.client.query
  | readable nread stop =>
    rw [Input.step]
    split
    · exact h
    · have hmore {conn' : Conn} (hbad : Bad ⟨conn'.client, conn.future, conn.asked⟩)
          (hasked : conn'.asked = conn.asked ++ [readlen conn.client.query]) : Bad conn' := by
        rcases hbad with hfreed | hclose | ⟨n, hn, hle⟩
        · exact .inl hfreed
        · exact .inr (.inl hclose)
        · exact .inr (.inr ⟨n, by rw [hasked]; simp [hn], hle⟩)
      rw [readQueryFromClient]
      split
      · exact .inl rfl
      · split
        · exact hmore h rfl
        · simp only
          split
          · exact .inl rfl
          · exact hmore (hserve stop _) rfl

end Events

/-! ## Runs -/

section Runs

variable {cmds : List (List Bytes)} {conn : Conn} {limit : Nat} {events : List Event}

theorem run_append (limit : Nat) (conn : Conn) (events events' : List Event) :
    run limit conn (events ++ events') = run limit (run limit conn events) events' :=
  foldl_append

theorem Bad.run (h : Bad conn) : Bad (Input.run limit conn events) := by
  induction events generalizing conn with
  | nil => exact h
  | cons event events ih => exact ih h.step

theorem runHarmless_append {events events' : List Event} :
    RunHarmless limit cmds conn (events ++ events') ↔
      RunHarmless limit cmds conn events ∧
        RunHarmless limit cmds (run limit conn events) events' := by
  induction events generalizing conn with
  | nil => simp [RunHarmless, run]
  | cons event events ih =>
    simp only [cons_append, RunHarmless, run, foldl_cons] at ih ⊢
    rw [ih, and_assoc]

theorem Inv.run (hlim : ∀ cmd ∈ cmds, InLimits cmd)
    (hlimit : (cmds.flatMap encode).length ≤ limit) (h : Inv cmds conn)
    (hevents : RunHarmless limit cmds conn events) : Inv cmds (Input.run limit conn events) := by
  induction events generalizing conn with
  | nil => exact h
  | cons event events ih => exact ih (h.step hlim hlimit hevents.1).1 hevents.2

theorem Inv.run_bad (hlim : ∀ cmd ∈ cmds, InLimits cmd)
    (hlimit : (cmds.flatMap encode).length ≤ limit) (h : Inv cmds conn)
    (hevents : ¬RunHarmless limit cmds conn events) : Bad (Input.run limit conn events) := by
  induction events generalizing conn with
  | nil => exact absurd trivial hevents
  | cons event events ih =>
    by_cases hevent : Harmless cmds conn event
    · exact ih (h.step hlim hlimit hevent).1 fun hrest => hevents ⟨hevent, hrest⟩
    · exact (h.bad hlim hlimit hevent).run

/-- On any stream of requests within the limits, cut into reads in any way, for a client that is
paused or blocked in any way: nothing goes wrong, and the requests of the stream are all read once
it has come and the client is served, exactly when no event of the run meets one of the two
situations. -/
theorem input_chunks_iff (hlim : ∀ cmd ∈ cmds, InLimits cmd)
    (hlimit : (cmds.flatMap encode).length ≤ limit) (events : List Event) :
    (Fine cmds (run limit (start (cmds.flatMap encode)) events) ∧
      ∀ before event, events = before ++ [event] →
        event.Serves (run limit (start (cmds.flatMap encode)) before) →
        (run limit (start (cmds.flatMap encode)) events).future = [] →
        (run limit (start (cmds.flatMap encode)) events).client.argvs = cmds) ↔
      RunHarmless limit cmds (start (cmds.flatMap encode)) events := by
  constructor
  · rintro ⟨hfine, -⟩
    by_contra hevents
    exact ((inv_start cmds).run_bad hlim hlimit hevents).not_fine hfine
  · intro hevents
    refine ⟨((inv_start cmds).run hlim hlimit hevents).fine, ?_⟩
    rintro before event rfl hserves hfuture
    obtain ⟨hbefore, hevent, -⟩ := runHarmless_append.mp hevents
    have hinv := (inv_start cmds).run hlim hlimit hbefore
    rw [run_append] at hfuture ⊢
    exact (hinv.step hlim hlimit hevent).2 hserves hfuture

/-- `PING` in three reads, the first one while the client is paused. -/
theorem input_chunks_iff_ping :
    (∀ cmd ∈ [[[80]]], InLimits cmd) ∧ ([[[80]]].flatMap encode).length ≤ 100 ∧
      Fine [[[80]]] (run 100 (start ([[[80]]].flatMap encode))
        [.readable 5 (some 0), .wakeup none, .readable 16384 none]) := by
  have hlim : ∀ cmd ∈ [[([80] : Bytes)]], InLimits cmd := by
    intro cmd hcmd
    rw [mem_singleton.mp hcmd]
    exact ⟨by decide, by simp⟩
  refine ⟨hlim, by decide, ((input_chunks_iff hlim (by decide) _).mpr ?_).1⟩
  refine ⟨fun _ => ⟨fun hwaits => hwaits.1 rfl, fun _ => by decide⟩, ?_,
    fun _ => ⟨fun hwaits => ?_, fun _ => by decide⟩, trivial⟩
  · rw [Harmless]
    decide
  · obtain ⟨-, len, hlen, -⟩ := hwaits
    exact nomatch (hlen : (none : Option Nat) = some len)

end Runs

/-! ## A big argument that waits -/

section Waits

/-- An argument of `REDIS_MBULK_BIG_ARG` bytes. -/
def bigArg : Bytes := replicate 32768 97

theorem length_bigArg : bigArg.length = 32768 := length_replicate

/-- A request with it, and another request. -/
def bigRequests : List (List Bytes) := [[bigArg], [[80]]]

theorem bigRequests_inLimits : ∀ cmd ∈ bigRequests, InLimits cmd := by
  have hlen := length_bigArg
  intro cmd hcmd
  rw [bigRequests, mem_cons, mem_singleton] at hcmd
  rcases hcmd with rfl | rfl
  · refine ⟨by decide, fun a ha => ?_⟩
    rw [mem_singleton.mp ha]
    omega
  · exact ⟨by decide, by simp⟩

/-- The bytes behind the line with the length of the argument. -/
def bigBody : Bytes := bigArg ++ (crlf ++ encode [[80]])

theorem length_bigBody : bigBody.length = 32781 := by
  have hping : (encode [[80]]).length = 11 := by decide
  rw [bigBody, length_append, length_append, length_bigArg, hping]
  rfl

/-- The client while its argument comes, of which `pos` bytes have. -/
def waiting (pos : Nat) (asked : List Int) : Conn :=
  ⟨⟨⟨bigBody.take pos, some .multibulk, 1, some 32768, []⟩, false, false, []⟩, bigBody.drop pos,
    asked⟩

theorem bigRequests_bytes : bigRequests.flatMap encode =
    [42, 49, 13, 10, 36, 51, 50, 55, 54, 56, 13, 10] ++ bigBody := by
  have hlen := length_bigArg
  have hone : numLine 42 1 = [42, 49] := by decide
  have hline : numLine 36 32768 = [36, 51, 50, 55, 54, 56] := by decide
  have hargv : encode [bigArg] =
      [42, 49, 13, 10, 36, 51, 50, 55, 54, 56, 13, 10] ++ (bigArg ++ crlf) := by
    rw [encode_limits (bigRequests_inLimits _ mem_cons_self), restBytes_none_cons,
      bulk_eq (by omega), hlen, length_singleton, hone, hline]
    simp [restBytes, crlf]
  rw [bigRequests, flatMap_cons, hargv, flatMap_singleton, bigBody]
  simp only [append_assoc]

theorem readlen_waiting {pos : Nat} (hpos : pos ≤ 32781) (asked : List Int) :
    readlen (waiting pos asked).client.query =
      if (32770 - pos : Int) < 16384 then (32770 - pos : Int) else 16384 := by
  have hlen : (bigBody.take pos).length = pos := by
    rw [length_take, length_bigBody, min_eq_left hpos]
  rw [readlen, waiting]
  simp only [hlen, REDIS_MBULK_BIG_ARG, REDIS_IOBUF_LEN, ne_eq, one_ne_zero, not_false_eq_true,
    ge_iff_le, le_refl, and_self, if_true]
  norm_num

theorem waiting_served {pos : Nat} (hpos : pos < 32781) (asked : List Int) :
    ¬((waiting pos asked).client.freed = true ∨ (waiting pos asked).future = []) := by
  rintro (hfreed | hfuture)
  · cases hfreed
  · have hlen : (bigBody.drop pos).length = 0 := congrArg length hfuture
    rw [length_drop, length_bigBody] at hlen
    omega

/-- A read while the client is paused. -/
theorem step_waiting {pos nread : Nat} (hpos : pos + nread ≤ 32770) (hread : 0 < nread)
    (hmax : nread ≤ 16384) (asked : List Int) :
    ∃ asked', step (2 ^ 30) (waiting pos asked) (.readable nread (some 0)) =
      waiting (pos + nread) asked' := by
  have hlen := length_bigBody
  have hreadlen := readlen_waiting (by omega : pos ≤ 32781) asked
  have hmin : min nread (readlen (waiting pos asked).client.query).toNat = nread := by
    rw [hreadlen]
    split <;> omega
  refine ⟨asked ++ [readlen (waiting pos asked).client.query], ?_⟩
  have hbuf : bigBody.take pos ++ (bigBody.drop pos).take nread = bigBody.take (pos + nread) :=
    take_add.symm
  rw [step, if_neg (waiting_served (by omega) asked), readQueryFromClient,
    if_neg (by rw [hreadlen]; split <;> omega), if_neg (by omega)]
  simp only [hmin]
  rw [if_neg]
  · simp only [rounds, Option.getD_some, processInputBuffer]
    simp only [waiting, hbuf, drop_drop]
  · simp only [waiting, hbuf, length_take]
    omega

/-- The first read ends behind the line with the length. -/
theorem step_start : step (2 ^ 30) (start (bigRequests.flatMap encode)) (.readable 12 none) =
    waiting 0 [16384] := by
  rw [bigRequests_bytes]
  generalize hbody : bigBody = body
  rw [waiting, hbody]
  rfl

/-- The next byte that comes when the argument is complete. -/
theorem step_complete (asked : List Int) :
    step (2 ^ 30) (waiting 32770 asked) (.readable 1 (some 0)) =
      { waiting 32770 asked with
        client := { (waiting 32770 asked).client with freed := true }
        asked := asked ++ [0] } := by
  have hzero : readlen (waiting 32770 asked).client.query = 0 := readlen_waiting (by omega) asked
  rw [step, if_neg (waiting_served (by omega) asked), readQueryFromClient, if_pos hzero.le, hzero]
  rfl

/-- The argument is complete in the buffer of a client that is paused; the next byte that comes
closes the connection. -/
theorem big_argument_closes_client :
    (∀ cmd ∈ bigRequests, InLimits cmd) ∧ (bigRequests.flatMap encode).length ≤ 2 ^ 30 ∧
      ∃ events : List Event,
        (∀ event ∈ events, ∃ nread stop, event = .readable nread stop ∧ 1 ≤ nread ∧ nread ≤ 16384) ∧
        (run (2 ^ 30) (start (bigRequests.flatMap encode)) events).client.freed = true ∧
        0 ∈ (run (2 ^ 30) (start (bigRequests.flatMap encode)) events).asked := by
  refine ⟨bigRequests_inLimits, ?_, [.readable 12 none, .readable 16384 (some 0),
    .readable 16384 (some 0), .readable 2 (some 0), .readable 1 (some 0)], ?_, ?_⟩
  · rw [bigRequests_bytes, length_append, length_bigBody]
    norm_num
  · simp
  · obtain ⟨asked₁, h₁⟩ := step_waiting (by omega : 0 + 16384 ≤ 32770) (by omega) (by omega) [16384]
    obtain ⟨asked₂, h₂⟩ := step_waiting (by omega : 16384 + 16384 ≤ 32770) (by omega) (by omega)
      asked₁
    obtain ⟨asked₃, h₃⟩ := step_waiting (by omega : 32768 + 2 ≤ 32770) (by omega) (by omega) asked₂
    rw [run, foldl_cons, step_start, foldl_cons, h₁, foldl_cons, h₂,
      foldl_cons, h₃, foldl_cons, step_complete, foldl_nil]
    simp

end Waits

end Redis.Input
