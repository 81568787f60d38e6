import Mathlib.Tactic.IntervalCases
import Redis.Rdb
import Redis.Window

/-!
# Redis.Replication.Transfer

`readSyncBulkPayload`, which receives the RDB file of a master.  A master that sends the file while
it is made announces forty bytes that stand behind it, and the replica compares them with the last
forty bytes that it has received.
-/

namespace Redis.Transfer

open Window List

variable {buf mark received : Bytes} {st : ReplTransfer}

/-! ## The model -/

def REDIS_RUN_ID_SIZE : Nat := 40

def REPL_MAX_WRITTEN_BEFORE_FSYNC : Nat := 1024 * 1024 * 8

/-- A transfer: the fields `repl_transfer_*` of the server, the temporary file behind
`repl_transfer_fd`, and the static variables of `readSyncBulkPayload`. -/
structure ReplTransfer where
  size : Int
  read : Nat
  lastFsyncOff : Nat
  file : Bytes
  eofmark : Bytes
  lastbytes : Bytes
  usemark : Bool

/-- What the system answers in a call: what `syncReadLine` leaves in `buf`, if it does not fail; the
bytes that a `read` can return, none at the end of the stream, if it does not fail; whether `write`
takes all of them, and whether `ftruncate` succeeds. -/
structure Io where
  line : Option Bytes
  available : Option Bytes
  written : Bool
  truncated : Bool

/-- How a call ends: with `replicationAbortSyncTransfer`, or to be called again, or with
`eof_reached`. -/
inductive Outcome where
  | aborted
  | reading (st : ReplTransfer)
  | complete (st : ReplTransfer)

/-- The mark in a line `$EOF:<mark>`, which is the rest of the line from `buf + 1`. -/
def announcedMark (buf : Bytes) : Option Bytes :=
  if buf.take 4 = [69, 79, 70, 58] ∧ REDIS_RUN_ID_SIZE ≤ (buf.drop 4).length then
    some ((buf.drop 4).take REDIS_RUN_ID_SIZE)
  else none

/-- The part of `readSyncBulkPayload` for `repl_transfer_size == -1`. -/
def readBulkCount (st : ReplTransfer) (line : Option Bytes) : Outcome :=
  match line.map (takeWhile (· ≠ 0)) with
  | none => .aborted
  | some [] => .reading st
  | some (c :: buf) =>
    if c ≠ 36 then .aborted
    else
      match announcedMark buf with
      | some eofmark =>
        .reading { st with
          usemark := true
          eofmark := eofmark
          lastbytes := replicate REDIS_RUN_ID_SIZE 0
          size := 0 }
      | none => .reading { st with usemark := false, size := (Rdb.strtoll buf).1.toInt }

/-- The two ways of keeping `lastbytes`. -/
def updateLastbytes (lastbytes buf : Bytes) : Bytes :=
  if REDIS_RUN_ID_SIZE ≤ buf.length then buf.drop (buf.length - REDIS_RUN_ID_SIZE)
  else
    let rem := REDIS_RUN_ID_SIZE - buf.length
    (lastbytes.drop buf.length).take rem ++ buf

/-- `ftruncate`, which fails for a negative length. -/
def ftruncate (file : Bytes) (length : Int) : Option Bytes :=
  if length < 0 then none
  else some (file.take length.toNat ++ replicate (length.toNat - file.length) 0)

def readlen (st : ReplTransfer) : Int :=
  if st.usemark then 4096 else min (st.size - st.read) 4096

/-- The bookkeeping of a `write`, with the `rdb_fsync_range` of every eight megabytes. -/
def ReplTransfer.wrote (st : ReplTransfer) (lastbytes file : Bytes) (read : Nat) :
    ReplTransfer :=
  { st with
    lastbytes := lastbytes
    file := file
    read := read
    lastFsyncOff :=
      if st.lastFsyncOff + REPL_MAX_WRITTEN_BEFORE_FSYNC ≤ read then read else st.lastFsyncOff }

/-- The part of `readSyncBulkPayload` behind a `read` that has returned `buf`. -/
def receive (st : ReplTransfer) (buf : Bytes) (written truncated : Bool) : Outcome :=
  let lastbytes := if st.usemark then updateLastbytes st.lastbytes buf else st.lastbytes
  let marked := st.usemark && lastbytes == st.eofmark
  let read := st.read + buf.length
  let written := if written then some (st.file ++ buf) else none
  let truncated := written.bind fun file =>
    if marked then
      if truncated then ftruncate file (read - REDIS_RUN_ID_SIZE) else none
    else some file
  match truncated with
  | none => .aborted
  | some file =>
    let eofReached := if st.usemark then marked else decide ((read : Int) = st.size)
    if eofReached then .complete (st.wrote lastbytes file read)
    else .reading (st.wrote lastbytes file read)

def readSyncBulkPayload (st : ReplTransfer) (io : Io) : Outcome :=
  if st.size = -1 then readBulkCount st io.line
  else
    match io.available.map (take (readlen st).toNat) with
    | none => .aborted
    | some [] => .aborted
    | some (b :: buf) => receive st (b :: buf) io.written io.truncated

/-- The calls of a transfer, one after the other. -/
def run (st : ReplTransfer) : List Io → Outcome
  | [] => .reading st
  | io :: ios =>
    match readSyncBulkPayload st io with
    | .reading st => run st ios
    | o => o

/-- A transfer as `syncWithMaster` starts it.  The static variables are as an earlier one has left
them. -/
structure Started (st : ReplTransfer) : Prop where
  size : st.size = -1
  read : st.read = 0
  file : st.file = []

/-- The answers to a call that gets a line. -/
def Io.gets (line : Bytes) : Io := ⟨some line, none, true, true⟩

/-- The answers to a call that gets bytes, and has room for them. -/
def Io.reads (chunk : Bytes) : Io := ⟨none, some chunk, true, true⟩

/-! ## Receiving -/

theorem run_append (st : ReplTransfer) (ios ios' : List Io) :
    run st (ios ++ ios') =
      match run st ios with
      | .reading st => run st ios'
      | o => o := by
  induction ios generalizing st with
  | nil => rfl
  | cons io ios ih =>
    rw [cons_append, run, run]
    cases readSyncBulkPayload st io with
    | reading st => exact ih st
    | aborted | complete => rfl

/-- `received` has come since the mark was announced, which is in the window where the zeros of
`memset` have left it. -/
structure Receiving (mark received : Bytes) (st : ReplTransfer) : Prop where
  usemark : st.usemark = true
  size : st.size = 0
  eofmark : st.eofmark = mark
  lastbytes : st.lastbytes = (replicate REDIS_RUN_ID_SIZE 0 ++ received).rtake REDIS_RUN_ID_SIZE
  file : st.file = received
  read : st.read = received.length

theorem updateLastbytes_rtake {xs : Bytes} (hxs : REDIS_RUN_ID_SIZE ≤ xs.length) :
    updateLastbytes (xs.rtake REDIS_RUN_ID_SIZE) buf = (xs ++ buf).rtake REDIS_RUN_ID_SIZE := by
  rw [updateLastbytes]
  split
  · rename_i hbuf
    rw [rtake_append_of_ge hbuf, rtake]
  · rename_i hbuf
    have htake : (xs.rtake REDIS_RUN_ID_SIZE).length = REDIS_RUN_ID_SIZE := by
      rw [length_rtake, min_eq_left hxs]
    rw [rtake_append_of_le hxs (by omega)]
    exact congrArg (· ++ buf) (take_of_length_le (by rw [length_drop, htake]))

/-- The mark that a line announces has forty bytes, none of which is null. -/
theorem announcedMark_spec {line : Bytes} {c : UInt8}
    (hline : line.takeWhile (· ≠ 0) = c :: buf) (h : announcedMark buf = some mark) :
    mark.length = REDIS_RUN_ID_SIZE ∧ 0 ∉ mark := by
  rw [announcedMark] at h
  split at h
  · rename_i hbuf
    obtain rfl := Option.some.inj h
    refine ⟨by rw [length_take]; omega, fun h0 => ?_⟩
    have hmem : (0 : UInt8) ∈ line.takeWhile (· ≠ 0) := by
      rw [hline]
      exact mem_cons_of_mem c (mem_of_mem_drop (mem_of_mem_take h0))
    have hne := mem_takeWhile_imp hmem
    simp at hne
  · cases h

/-- The window after a read is the mark if what has come ends with it. -/
theorem Receiving.marked (hr : Receiving mark received st)
    (hlen : mark.length = REDIS_RUN_ID_SIZE) (h0 : 0 ∉ mark) (buf : Bytes) :
    updateLastbytes st.lastbytes buf = mark ↔ mark <:+ received ++ buf := by
  rw [hr.lastbytes, updateLastbytes_rtake (by simp), append_assoc]
  exact rtake_replicate_append_eq_iff hlen h0

theorem receive_unmarked (hr : Receiving mark received st)
    (hlen : mark.length = REDIS_RUN_ID_SIZE) (h0 : 0 ∉ mark) (hmark : ¬ mark <:+ received ++ buf) :
    ∃ st', receive st buf true true = .reading st' ∧ Receiving mark (received ++ buf) st' := by
  have hne : (updateLastbytes st.lastbytes buf == mark) = false :=
    beq_eq_false_iff_ne.mpr fun h => hmark ((hr.marked hlen h0 buf).mp h)
  refine ⟨st.wrote (updateLastbytes st.lastbytes buf) (st.file ++ buf) (st.read + buf.length),
    by simp [receive, hr.usemark, hr.eofmark, hne], hr.usemark, hr.size, hr.eofmark, ?_,
    congrArg (· ++ buf) hr.file, ?_⟩
  · rw [← append_assoc, ← updateLastbytes_rtake (by simp), ← hr.lastbytes]
    rfl
  · rw [length_append, ← hr.read]
    rfl

theorem receive_marked (hr : Receiving mark received st) (hlen : mark.length = REDIS_RUN_ID_SIZE)
    (h0 : 0 ∉ mark) {payload : Bytes} (hmark : received ++ buf = payload ++ mark) :
    ∃ st', receive st buf true true = .complete st' ∧ st'.file = payload := by
  have heq : updateLastbytes st.lastbytes buf = mark :=
    (hr.marked hlen h0 buf).mpr (hmark ▸ suffix_append payload mark)
  have hlength : ((st.read + buf.length : Nat) : Int) - REDIS_RUN_ID_SIZE = payload.length := by
    have := congrArg List.length hmark
    rw [length_append, length_append, hlen] at this
    rw [hr.read]
    omega
  have htrunc : ftruncate (st.file ++ buf) ((st.read + buf.length : Nat) - REDIS_RUN_ID_SIZE) =
      some payload := by
    rw [hlength, hr.file, hmark, ftruncate, if_neg (by omega)]
    simp
  refine ⟨st.wrote (updateLastbytes st.lastbytes buf) payload (st.read + buf.length), ?_, rfl⟩
  have heof : (updateLastbytes st.lastbytes buf == st.eofmark) = true := by
    rw [hr.eofmark, heq, beq_self_eq_true]
  simp only [receive, hr.usemark, if_true, heof, Bool.true_and, Option.bind_some, htrunc]

theorem readSyncBulkPayload_reads (hr : Receiving mark received st) {chunk : Bytes}
    (hpos : 1 ≤ chunk.length) (hle : chunk.length ≤ 4096) :
    readSyncBulkPayload st (.reads chunk) = receive st chunk true true := by
  have hlen : readlen st = 4096 := if_pos hr.usemark
  cases chunk with
  | nil => exact absurd hpos (Nat.not_succ_le_zero 0)
  | cons b buf =>
    have htake : (b :: buf).take (4096 : Int).toNat = b :: buf := take_of_length_le hle
    rw [readSyncBulkPayload, if_neg (by rw [hr.size]; omega), hlen]
    simp only [Io.reads, Option.map_some, htake]

/-- Every forty bytes that are not null can be announced. -/
theorem announcedMark_of_length (hlen : mark.length = REDIS_RUN_ID_SIZE) :
    announcedMark (69 :: 79 :: 70 :: 58 :: mark) = some mark := by
  have htake : mark.take REDIS_RUN_ID_SIZE = mark := take_of_length_le hlen.le
  simp [announcedMark, hlen, htake]

/-- Nothing ends while the mark has not come. -/
theorem run_unmarked (hr : Receiving mark received st) (hlen : mark.length = REDIS_RUN_ID_SIZE)
    (h0 : 0 ∉ mark) {chunks : List Bytes}
    (hsize : ∀ c ∈ chunks, 1 ≤ c.length ∧ c.length ≤ 4096)
    (hmark : ∀ front, front <+: chunks.flatten → ¬ mark <:+ received ++ front) :
    ∃ st', run st (chunks.map .reads) = .reading st' ∧
      Receiving mark (received ++ chunks.flatten) st' := by
  induction chunks generalizing st received with
  | nil => exact ⟨st, rfl, by simpa using hr⟩
  | cons c chunks ih =>
    obtain ⟨⟨hpos, hle⟩, hsize⟩ := forall_mem_cons.mp hsize
    rw [flatten_cons] at hmark
    obtain ⟨st₁, hst₁, hr₁⟩ := receive_unmarked hr hlen h0 (hmark c (prefix_append c _))
    have hmark₁ (front) (hfront : front <+: chunks.flatten) :
        ¬ mark <:+ received ++ c ++ front := by
      rw [append_assoc]
      exact hmark _ ((prefix_append_right_inj c).mpr hfront)
    obtain ⟨st₂, hst₂, hr₂⟩ := ih hr₁ hsize hmark₁
    refine ⟨st₂, ?_, by rwa [flatten_cons, ← append_assoc]⟩
    rw [map_cons, run, readSyncBulkPayload_reads hr hpos hle, hst₁]
    exact hst₂

/-- The line that announces a mark clears the window. -/
theorem readSyncBulkPayload_announced (hst : Started st) {line : Bytes}
    (hline : line.takeWhile (· ≠ 0) = 36 :: buf) (hmark : announcedMark buf = some mark) :
    ∃ st', readSyncBulkPayload st (.gets line) = .reading st' ∧ Receiving mark [] st' := by
  refine ⟨{ st with
    usemark := true, eofmark := mark, lastbytes := replicate REDIS_RUN_ID_SIZE 0, size := 0 },
    ?_, rfl, rfl, rfl, rfl, hst.file, hst.read⟩
  rw [readSyncBulkPayload, if_pos hst.size]
  simp only [readBulkCount, Io.gets, Option.map_some, hline, hmark, ne_eq, not_true, if_false]

/-! ## The end of a transfer -/

/-- A transfer with a mark that stands nowhere in the stream but at its end: the call that reads the
last byte is the one with `eof_reached`, and what is left in the file is what stands in front of the
mark. -/
theorem endmark_found {st : ReplTransfer} (hst : Started st) {line buf mark payload : Bytes}
    (hline : line.takeWhile (· ≠ 0) = 36 :: buf) (hmark : announcedMark buf = some mark)
    (honly : ∀ i, mark <+: (payload ++ mark).drop i → i = payload.length)
    {chunks : List Bytes} (hsplit : chunks.flatten = payload ++ mark)
    (hsize : ∀ c ∈ chunks, 1 ≤ c.length ∧ c.length ≤ 4096) :
    (∀ k < chunks.length, ∃ st',
      run st (.gets line :: (chunks.take k).map .reads) = .reading st') ∧
    ∃ st', run st (.gets line :: chunks.map .reads) = .complete st' ∧ st'.file = payload := by
  obtain ⟨hlen, h0⟩ := announcedMark_spec hline hmark
  obtain ⟨st₀, hst₀, hr₀⟩ := readSyncBulkPayload_announced hst hline hmark
  -- what has come before the last byte does not end with the mark
  have hearly (front : Bytes) (hfront : front <+: payload ++ mark)
      (hlt : front.length < (payload ++ mark).length) : ¬ mark <:+ [] ++ front := by
    rintro ⟨start, hstart⟩
    obtain ⟨rest, hrest⟩ := hfront
    rw [nil_append] at hstart
    subst hstart
    have hi := honly start.length (by rw [← hrest]; simp)
    simp [hi] at hlt
  have hreading (k : Nat) (hk : k < chunks.length) : ∃ st',
      run st₀ ((chunks.take k).map .reads) = .reading st' ∧
        Receiving mark (chunks.take k).flatten st' := by
    refine run_unmarked hr₀ hlen h0 (fun c hc => hsize c (mem_of_mem_take hc)) ?_
    intro front hfront
    have hcut : (chunks.take k).flatten ++ (chunks.drop k).flatten = payload ++ mark := by
      rw [← flatten_append, take_append_drop, hsplit]
    have hrest : 0 < (chunks.drop k).flatten.length := by
      rw [drop_eq_getElem_cons hk, flatten_cons, length_append]
      have := hsize _ (getElem_mem hk)
      omega
    refine hearly front (hfront.trans ⟨_, hcut⟩) ?_
    rw [← hcut, length_append]
    have := hfront.length_le
    omega
  have hrun (ios) : run st (.gets line :: ios) = run st₀ ios := by rw [run, hst₀]
  refine ⟨fun k hk => ?_, ?_⟩
  · obtain ⟨st', hst', -⟩ := hreading k hk
    exact ⟨st', (hrun _).trans hst'⟩
  · have hne : chunks ≠ [] := by
      rintro rfl
      have := congrArg List.length hsplit
      rw [length_append, hlen] at this
      exact absurd this (by simp [REDIS_RUN_ID_SIZE])
    obtain ⟨front, last, rfl⟩ : ∃ front last, chunks = front ++ [last] :=
      ⟨_, _, (dropLast_append_getLast hne).symm⟩
    obtain ⟨st₁, hst₁, hr₁⟩ := hreading front.length (by simp)
    rw [take_left] at hst₁ hr₁
    obtain ⟨hpos, hle⟩ := hsize last (by simp)
    have hend : front.flatten ++ last = payload ++ mark := by rw [← hsplit]; simp
    obtain ⟨st₂, hst₂, hfile⟩ := receive_marked hr₁ hlen h0 hend
    refine ⟨st₂, ?_, hfile⟩
    rw [hrun, map_append, run_append, hst₁]
    simp only [map_cons, map_nil, run, readSyncBulkPayload_reads hr₁ hpos hle, hst₂]

/-- Three bytes in front of a mark, in reads of one, two and forty bytes. -/
theorem endmark_found_three :
    let mark := replicate 40 (97 : UInt8)
    ∃ st, Started st ∧ ∃ st', run st (.gets ([36, 69, 79, 70, 58] ++ mark) ::
      [[1], [2, 3], mark].map .reads) = .complete st' ∧ st'.file = [1, 2, 3] := by
  intro mark
  let st : ReplTransfer := ⟨-1, 0, 0, [], [], [], false⟩
  have hst : Started st := ⟨rfl, rfl, rfl⟩
  have honly : ∀ i, mark <+: ([1, 2, 3] ++ mark).drop i → i = [(1 : UInt8), 2, 3].length := by
    intro i hi
    have hle : i ≤ 3 := by
      have := hi.length_le
      simp only [mark, length_drop, length_append, length_replicate,
        length_cons, length_nil] at this
      omega
    interval_cases i
    · exact absurd hi (by decide)
    · exact absurd hi (by decide)
    · exact absurd hi (by decide)
    · rfl
  have hmark : announcedMark (69 :: 79 :: 70 :: 58 :: mark) = some mark :=
    announcedMark_of_length (length_replicate ..)
  exact ⟨st, hst, (endmark_found hst (by decide) hmark honly rfl (by decide)).2⟩

end Redis.Transfer
