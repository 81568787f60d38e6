import Mathlib.Data.List.ReduceOption
import Redis.Bytes

/-!
# Redis.Fdset

The `rio` of `rio.c` with many sockets behind it, through which a child sends an RDB file to several
replicas at once.  What is written is kept in a buffer, and a buffer that is large enough, or a flush,
goes out in chunks of a kilobyte, each of them to all sockets in turn.

The results of the calls of `write` are those of the operating system, one for each call in the order
in which they are made.
-/

namespace Redis.Fdset

open List

variable {total pending chunk p : Bytes} {s : Socket} {fuel : Nat} {sockets : List Socket}
  {r : Rio} {w : World}

/-! ## The model -/

def REDIS_IOBUF_LEN : Nat := 1024 * 16

def EIO : Nat := 5

def EWOULDBLOCK : Nat := 11

def ETIMEDOUT : Nat := 110

/-- What a call of `write` returns: a number of bytes, cut to the number that it was given, or -1 with
`errno`. -/
inductive WriteResult where
  | wrote (n : Nat)
  | error (errno : Nat)

/-- The global state of the process: `errno`, and how often it has called `write`. -/
structure World where
  errno : Nat
  calls : Nat

/-- A socket of the set: its `state`, and the calls of `write` for it, each with the bytes that were
taken, or none if it has failed. -/
structure Socket where
  state : Nat
  writes : List (Option Bytes)

/-- A `rio` with its `io.fdset`, without the descriptors. -/
structure Rio where
  sockets : List Socket
  buf : Bytes
  pos : Nat

/-- `while(nwritten != count)`, with the bytes that are left. -/
def writeLoop (os : Nat → WriteResult) : Nat → Bytes → World → List (Option Bytes) × Bytes × World
  | 0, rest, w => ([], rest, w)
  | fuel + 1, rest, w =>
    if rest = [] then ([], rest, w)
    else
      match os w.calls with
      | .error errno =>
        let errno := if errno = EWOULDBLOCK then ETIMEDOUT else errno
        ([none], rest, ⟨errno, w.calls + 1⟩)
      | .wrote 0 => ([none], rest, { w with calls := w.calls + 1 })
      | .wrote (n + 1) =>
        let (writes, left, w) :=
          writeLoop os fuel (rest.drop (n + 1)) { w with calls := w.calls + 1 }
        (some (rest.take (n + 1)) :: writes, left, w)

def sendChunk (os : Nat → WriteResult) (chunk : Bytes) (s : Socket) (w : World) : Socket × World :=
  if s.state ≠ 0 then (s, w)
  else
    let (writes, left, w) := writeLoop os chunk.length chunk w
    let state := if left = [] then s.state else if w.errno = 0 then EIO else w.errno
    (⟨state, s.writes ++ writes⟩, w)

/-- A chunk for all sockets. -/
def sendAll (os : Nat → WriteResult) (chunk : Bytes) : List Socket → World → List Socket × World
  | [], w => ([], w)
  | s :: sockets, w =>
    let (s, w) := sendChunk os chunk s w
    let (sockets, w) := sendAll os chunk sockets w
    (s :: sockets, w)

/-- `broken == numfds`, where `broken` counts the sockets that were in error before the chunk. -/
def allBroken (sockets : List Socket) : Bool := sockets.all fun s => s.state ≠ 0

/-- `while(len)`: whether it ends, with the sockets and the bytes that were sent. -/
def chunkLoop (os : Nat → WriteResult) :
    Nat → Bytes → List Socket → Nat → World → Bool × List Socket × Nat × World
  | 0, _, sockets, pos, w => (true, sockets, pos, w)
  | fuel + 1, p, sockets, pos, w =>
    if p = [] then (true, sockets, pos, w)
    else
      let chunk := p.take 1024
      let (sockets', w) := sendAll os chunk sockets w
      if allBroken sockets then (false, sockets', pos, w)
      else chunkLoop os fuel (p.drop 1024) sockets' (pos + chunk.length) w

/-- `rioFdsetWrite`, where no bytes at all are the null pointer with the length 0. -/
def rioFdsetWrite (os : Nat → WriteResult) (bytes : Option Bytes) (r : Rio) (w : World) :
    Bool × Rio × World :=
  let buf := r.buf ++ bytes.getD []
  let doflush := bytes.isNone || decide (REDIS_IOBUF_LEN < buf.length)
  if doflush then
    let (ok, sockets, pos, w) := chunkLoop os buf.length buf r.sockets r.pos w
    (ok, ⟨sockets, if ok then [] else buf, pos⟩, w)
  else (true, { r with buf := buf }, w)

/-- `rioWrite`; a call without bytes does nothing. -/
def rioWrite (os : Nat → WriteResult) (bytes : Bytes) (r : Rio) (w : World) : Bool × Rio × World :=
  if bytes = [] then (true, r, w) else rioFdsetWrite os (some bytes) r w

def rioFlush (os : Nat → WriteResult) (r : Rio) (w : World) : Bool × Rio × World :=
  rioFdsetWrite os none r w

def rioInitWithFdset (numfds : Nat) : Rio := ⟨replicate numfds ⟨0, []⟩, [], 0⟩

/-- Writes, and flushes between them. -/
inductive Op where
  | write (bytes : Bytes)
  | flush

/-- One call, whatever it returns. -/
def Op.run (os : Nat → WriteResult) (op : Op) (r : Rio) (w : World) : Rio × World :=
  match op with
  | .write bytes => (rioWrite os bytes r w).2
  | .flush => (rioFlush os r w).2

/-- The calls of a run, one after the other. -/
def runOps (os : Nat → WriteResult) : List Op → Rio → World → Rio × World
  | [], r, w => (r, w)
  | op :: ops, r, w =>
    let (r, w) := op.run os r w
    runOps os ops r w

/-- The bytes that the calls of a run write. -/
def written : List Op → Bytes
  | [] => []
  | .write bytes :: ops => bytes ++ written ops
  | .flush :: ops => written ops

/-- What a socket has got. -/
def Socket.received (s : Socket) : Bytes := s.writes.reduceOption.flatten

/-- The report of the child in `rdbSaveToSlavesSockets`: a client and an error for each socket. -/
def report (clientids : List Nat) (r : Rio) : List (Nat × Nat) :=
  clientids.zip (r.sockets.map Socket.state)

/-- `rdbSaveRioWithEOFMark`, which stops at a `rioWrite` that fails. -/
def rioWriteAll (os : Nat → WriteResult) : List Bytes → Rio → World → Bool × Rio × World
  | [], r, w => (true, r, w)
  | bytes :: pieces, r, w =>
    match rioWrite os bytes r w with
    | (false, r, w) => (false, r, w)
    | (true, r, w) => rioWriteAll os pieces r w

/-- The child of `rdbSaveToSlavesSockets` with what it writes: the report that it sends, unless it
exits with an error; `piped` says whether the pipe takes it. -/
def childReport (os : Nat → WriteResult) (clientids : List Nat) (pieces : List Bytes)
    (piped : Bool) (w : World) : Option (List (Nat × Nat)) × Rio :=
  let (ok, r, w) := rioWriteAll os pieces (rioInitWithFdset clientids.length) w
  if ok then
    let (ok, r, _) := rioFlush os r w
    if ok ∧ clientids ≠ [] ∧ piped then (some (report clientids r), r) else (none, r)
  else (none, r)

/-! ## One socket -/

/-- All writes for a socket have succeeded, and `pending` is what it still has to get. -/
structure Socket.Healthy (total pending : Bytes) (s : Socket) : Prop where
  state : s.state = 0
  writes : none ∉ s.writes
  received : s.received ++ pending = total

/-- The last write for a socket has failed, and something is missing. -/
structure Socket.Broken (total : Bytes) (s : Socket) : Prop where
  state : s.state ≠ 0
  writes : ∃ front, s.writes = front ++ [none] ∧ none ∉ front
  received : ∃ missing, missing ≠ [] ∧ s.received ++ missing = total

/-- What holds of a socket between two chunks. -/
def Socket.Sound (total pending : Bytes) (s : Socket) : Prop :=
  s.Healthy total pending ∨ s.Broken total

theorem Socket.Sound.broken (h : s.Sound total pending) (hs : s.state ≠ 0) :
    s.Broken total := h.resolve_left fun hh => hs hh.state

theorem Socket.Sound.append (h : s.Sound total pending) (bytes : Bytes) :
    s.Sound (total ++ bytes) (pending ++ bytes) := by
  obtain h | h := h
  · exact .inl ⟨h.state, h.writes, by rw [← append_assoc, h.received]⟩
  · obtain ⟨missing, hne, hmissing⟩ := h.received
    refine .inr ⟨h.state, h.writes, missing ++ bytes, ?_, by rw [← append_assoc, hmissing]⟩
    exact fun hnil => hne (append_eq_nil_iff.mp hnil).1

/-- A socket that has got everything is one that has not failed. -/
theorem Socket.Sound.received_iff (h : s.Sound total []) : s.state = 0 ↔ s.received = total := by
  obtain h | h := h
  · exact iff_of_true h.state (by rw [← h.received, append_nil])
  · obtain ⟨missing, hne, hmissing⟩ := h.received
    refine iff_of_false h.state fun htotal => hne ?_
    rw [htotal] at hmissing
    exact append_right_eq_self.mp hmissing

theorem Socket.Sound.silent (h : s.Sound total pending) {front back : List (Option Bytes)}
    (hs : s.writes = front ++ none :: back) : back = [] := by
  obtain h | h := h
  · exact absurd (hs ▸ by simp) h.writes
  · obtain ⟨front', hfront', hnone⟩ := h.writes
    rw [hfront'] at hs
    exact ((append_cons_inj_of_notMem hnone not_mem_nil).mp hs).2.2.symm

/-- Of the bytes `rest`, those that stand in `writes` were taken, and `left` was not. -/
def Sent (rest : Bytes) (writes : List (Option Bytes)) (left : Bytes) : Prop :=
  (left = [] ∧ none ∉ writes ∧ writes.reduceOption.flatten = rest) ∨
    left ≠ [] ∧ ∃ front, writes = front ++ [none] ∧ none ∉ front ∧
      front.reduceOption.flatten ++ left = rest

theorem Sent.cons {rest left : Bytes} {writes : List (Option Bytes)} {n : Nat}
    (h : Sent (rest.drop n) writes left) : Sent rest (some (rest.take n) :: writes) left := by
  have hflatten (l : List (Option Bytes)) :
      (some (rest.take n) :: l).reduceOption.flatten = rest.take n ++ l.reduceOption.flatten := by
    rw [reduceOption_cons_of_some, flatten_cons]
  obtain ⟨hleft, hnone, hsent⟩ | ⟨hleft, front, rfl, hnone, hsent⟩ := h
  · exact .inl ⟨hleft, by simpa using hnone, by rw [hflatten, hsent, take_append_drop]⟩
  · refine .inr ⟨hleft, some (rest.take n) :: front, rfl, by simpa using hnone, ?_⟩
    rw [hflatten, append_assoc, hsent, take_append_drop]

variable (os : Nat → WriteResult)

/-- The inner loop sends all, or all but what is left when a write fails. -/
theorem writeLoop_spec {rest : Bytes} (w : World) (hfuel : rest.length ≤ fuel) :
    Sent rest (writeLoop os fuel rest w).1 (writeLoop os fuel rest w).2.1 := by
  induction fuel generalizing rest w with
  | zero =>
    obtain rfl := length_eq_zero_iff.mp (Nat.le_zero.mp hfuel)
    exact .inl ⟨rfl, not_mem_nil, rfl⟩
  | succ fuel ih =>
    rw [writeLoop]
    split
    · rename_i hrest
      subst hrest
      exact .inl ⟨rfl, not_mem_nil, rfl⟩
    rename_i hrest
    split
    · exact .inr ⟨hrest, [], rfl, not_mem_nil, rfl⟩
    · exact .inr ⟨hrest, [], rfl, not_mem_nil, rfl⟩
    · rename_i n _
      have hdrop : (rest.drop (n + 1)).length ≤ fuel := by
        rw [length_drop]
        omega
      exact (ih { w with calls := w.calls + 1 } hdrop).cons

theorem received_append (state state' : Nat) (writes writes' : List (Option Bytes)) :
    (Socket.mk state (writes ++ writes')).received =
      (Socket.mk state' writes).received ++ writes'.reduceOption.flatten := by
  rw [Socket.received, Socket.received, reduceOption_append, flatten_append]

theorem sendChunk_sound (h : s.Sound total (chunk ++ pending)) (w : World) :
    (sendChunk os chunk s w).1.Sound total pending := by
  rw [sendChunk]
  split
  · rename_i hs
    exact .inr (h.broken hs)
  rename_i hs
  have hhealthy := h.resolve_right fun hb => hs hb.state
  obtain ⟨hleft, hnone, hsent⟩ | ⟨hleft, front, hwrites, hnone, hsent⟩ :=
    writeLoop_spec os w (Nat.le_refl chunk.length)
  · refine .inl ⟨(if_pos hleft).trans hhealthy.state, ?_, ?_⟩
    · exact fun hmem => (mem_append.mp hmem).elim hhealthy.writes hnone
    · rw [received_append _ s.state, hsent, append_assoc]
      exact hhealthy.received
  · refine .inr ⟨?_, ⟨s.writes ++ front, ?_, ?_⟩,
      (writeLoop os chunk.length chunk w).2.1 ++ pending, ?_, ?_⟩
    · show (if _ then _ else _) ≠ 0
      rw [if_neg hleft]
      split
      · decide
      · assumption
    · show s.writes ++ (writeLoop os chunk.length chunk w).1 = _
      rw [hwrites, append_assoc]
    · exact fun hmem => (mem_append.mp hmem).elim hhealthy.writes hnone
    · exact fun hnil => hleft (append_eq_nil_iff.mp hnil).1
    · show (Socket.mk _ (s.writes ++ (writeLoop os chunk.length chunk w).1)).received ++ _ = _
      rw [received_append _ s.state, hwrites, reduceOption_append,
        reduceOption_cons_of_none, reduceOption_nil, append_nil, append_assoc,
        ← append_assoc front.reduceOption.flatten, hsent]
      exact hhealthy.received

/-! ## All sockets -/

theorem sendAll_sound (h : ∀ s ∈ sockets, s.Sound total (chunk ++ pending)) (w : World) :
    ∀ s ∈ (sendAll os chunk sockets w).1, s.Sound total pending := by
  induction sockets generalizing w with
  | nil => exact fun _ hs => absurd hs not_mem_nil
  | cons s sockets ih =>
    obtain ⟨hs, hsockets⟩ := forall_mem_cons.mp h
    exact forall_mem_cons.mpr
      ⟨sendChunk_sound os hs w, ih hsockets (sendChunk os chunk s w).2⟩

theorem sendAll_length (chunk : Bytes) (sockets : List Socket) (w : World) :
    (sendAll os chunk sockets w).1.length = sockets.length := by
  induction sockets generalizing w with
  | nil => rfl
  | cons s sockets ih => exact congrArg (· + 1) (ih (sendChunk os chunk s w).2)

theorem allBroken_iff : allBroken sockets = true ↔ ∀ s ∈ sockets, s.state ≠ 0 := by
  simp [allBroken]

theorem sendAll_broken (chunk : Bytes) (h : ∀ s ∈ sockets, s.state ≠ 0) (w : World) :
    (sendAll os chunk sockets w).1 = sockets := by
  induction sockets generalizing w with
  | nil => rfl
  | cons s sockets ih =>
    obtain ⟨hs, hsockets⟩ := forall_mem_cons.mp h
    have hskip : sendChunk os chunk s w = (s, w) := if_pos hs
    show (sendChunk os chunk s w).1 :: (sendAll os chunk sockets (sendChunk os chunk s w).2).1 = _
    rw [hskip, ih hsockets]

theorem chunkLoop_length (fuel : Nat) (p : Bytes) (sockets : List Socket) (pos : Nat) (w : World) :
    (chunkLoop os fuel p sockets pos w).2.1.length = sockets.length := by
  induction fuel generalizing p sockets pos w with
  | zero => rfl
  | succ fuel ih =>
    rw [chunkLoop]
    split
    · rfl
    simp only
    split
    · exact sendAll_length os _ sockets w
    · rw [ih, sendAll_length]

/-- The loop ends with all bytes out, or because all sockets are in error. -/
theorem chunkLoop_sound (h : ∀ s ∈ sockets, s.Sound total p) (pos : Nat) (w : World)
    (hfuel : p.length ≤ fuel) :
    (∀ s ∈ (chunkLoop os fuel p sockets pos w).2.1, s.Sound total []) ∧
      ((chunkLoop os fuel p sockets pos w).1 = false →
        ∀ s ∈ (chunkLoop os fuel p sockets pos w).2.1, s.state ≠ 0) := by
  induction fuel generalizing p sockets pos w with
  | zero =>
    obtain rfl := length_eq_zero_iff.mp (Nat.le_zero.mp hfuel)
    exact ⟨h, fun hok => absurd hok Bool.noConfusion⟩
  | succ fuel ih =>
    rw [chunkLoop]
    split
    · rename_i hp
      subst hp
      exact ⟨h, fun hok => absurd hok Bool.noConfusion⟩
    rename_i hp
    simp only
    split
    · rename_i hbroken
      rw [allBroken_iff] at hbroken
      rw [sendAll_broken os _ hbroken]
      exact ⟨fun s hs => .inr ((h s hs).broken (hbroken s hs)), fun _ => hbroken⟩
    · have hpos : 0 < p.length := length_pos_iff.mpr hp
      refine ih (sendAll_sound os (fun s hs => ?_) w) _ _ ?_
      · rw [take_append_drop]
        exact h s hs
      · rw [length_drop]
        omega

/-! ## The set -/

/-- Every socket has got what was written, up to what is in the buffer, or has failed. -/
def Inv (total : Bytes) (r : Rio) : Prop := ∀ s ∈ r.sockets, s.Sound total r.buf

/-- The bytes in the buffer go out. -/
def sendBuf (os : Nat → WriteResult) (r : Rio) (w : World) : Bool × Rio × World :=
  let sent := chunkLoop os r.buf.length r.buf r.sockets r.pos w
  (sent.1, ⟨sent.2.1, if sent.1 then [] else r.buf, sent.2.2.1⟩, sent.2.2.2)

variable {clientids : List Nat} {pieces : List Bytes} (bytes : Option Bytes)

theorem rioFdsetWrite_eq (r : Rio) (w : World) :
    rioFdsetWrite os bytes r w =
      let r := { r with buf := r.buf ++ bytes.getD [] }
      if bytes.isNone ∨ REDIS_IOBUF_LEN < r.buf.length then sendBuf os r w else (true, r, w) := by
  simp only [rioFdsetWrite, Bool.or_eq_true, decide_eq_true_eq]
  split <;> rfl

theorem sendBuf_sound (h : Inv total r) (w : World) :
    (∀ s ∈ (sendBuf os r w).2.1.sockets, s.Sound total []) ∧
      ((sendBuf os r w).1 = false → ∀ s ∈ (sendBuf os r w).2.1.sockets, s.state ≠ 0) :=
  chunkLoop_sound os h r.pos w (Nat.le_refl _)

theorem Inv.sendBuf (h : Inv total r) (w : World) : Inv total (sendBuf os r w).2.1 := by
  obtain ⟨hsound, hbroken⟩ := sendBuf_sound os h w
  intro s hs
  cases hok : (Fdset.sendBuf os r w).1 with
  | true =>
    have hbuf : (Fdset.sendBuf os r w).2.1.buf = [] := if_pos hok
    rw [hbuf]
    exact hsound s hs
  | false => exact .inr ((hsound s hs).broken (hbroken hok s hs))

theorem Inv.rioFdsetWrite (h : Inv total r) (bytes : Option Bytes) (w : World) :
    Inv (total ++ bytes.getD []) (rioFdsetWrite os bytes r w).2.1 := by
  have happend : Inv (total ++ bytes.getD []) { r with buf := r.buf ++ bytes.getD [] } :=
    fun s hs => (h s hs).append _
  rw [rioFdsetWrite_eq]
  simp only
  split
  · exact happend.sendBuf os w
  · exact happend

theorem Inv.rioWrite (h : Inv total r) (bytes : Bytes) (w : World) :
    Inv (total ++ bytes) (rioWrite os bytes r w).2.1 := by
  rw [Fdset.rioWrite]
  split
  · rename_i hbytes
    rwa [hbytes, append_nil]
  · exact h.rioFdsetWrite os (some bytes) w

theorem Inv.runOps (h : Inv total r) (ops : List Op) (w : World) :
    Inv (total ++ written ops) (runOps os ops r w).1 := by
  induction ops generalizing total r w with
  | nil => rwa [written, append_nil]
  | cons op ops ih =>
    cases op with
    | write bytes =>
      rw [written, ← append_assoc]
      exact ih (h.rioWrite os bytes w) _
    | flush =>
      have hflush := h.rioFdsetWrite os none w
      rw [Option.getD_none, append_nil] at hflush
      exact ih hflush _

theorem rioInitWithFdset_inv (numfds : Nat) : Inv [] (rioInitWithFdset numfds) := by
  intro s hs
  obtain rfl := eq_of_mem_replicate hs
  exact .inl ⟨rfl, not_mem_nil, rfl⟩

/-- A flush sends what is in the buffer. -/
theorem rioFlush_eq (r : Rio) (w : World) : rioFlush os r w = sendBuf os r w := by
  rw [rioFlush, rioFdsetWrite_eq]
  simp

/-- A flush fails for sockets that are all in error if there is something to send. -/
theorem rioFlush_broken (h : ∀ s ∈ r.sockets, s.state ≠ 0) (w : World) :
    (rioFlush os r w).1 = false ↔ r.buf ≠ [] := by
  rw [rioFlush_eq]
  show (chunkLoop os r.buf.length r.buf r.sockets r.pos w).1 = false ↔ _
  cases hbuf : r.buf with
  | nil => simp [chunkLoop]
  | cons b buf =>
    rw [length_cons, chunkLoop, if_neg (cons_ne_nil _ _)]
    simp only
    rw [if_pos (allBroken_iff.mpr h)]
    simp

/-- A report gives the error 0 to the replicas that have got `total`, and to no others. -/
def ReportsRight (total : Bytes) (rep : List (Nat × Nat)) (r : Rio) : Prop :=
  ∀ (j id error : Nat) (s : Socket), rep[j]? = some (id, error) → r.sockets[j]? = some s →
    (error = 0 ↔ s.received = total)

/-- What a flush from `before` to `after` promises to a master, when `total` has been written. -/
structure Delivered (clientids : List Nat) (total : Bytes) (before : Rio) (ok : Bool)
    (after : Rio) : Prop where
  received : ∀ s ∈ after.sockets, s.state = 0 → s.received = total
  silent : ∀ s ∈ after.sockets, ∀ front back, s.writes = front ++ none :: back → back = []
  fails : (∀ s ∈ before.sockets, s.state ≠ 0) → ok = false
  reported : ReportsRight total (report clientids after) after

theorem report_error {j id error : Nat} (hreport : (report clientids r)[j]? = some (id, error))
    (hs : r.sockets[j]? = some s) : error = s.state := by
  rw [report, getElem?_zip_eq_some, getElem?_map, hs] at hreport
  exact (Option.some.inj hreport.2).symm

theorem rioWriteAll_inv {r' : Rio} {w' : World} (h : Inv total r)
    (hall : rioWriteAll os pieces r w = (true, r', w')) : Inv (total ++ pieces.flatten) r' := by
  induction pieces generalizing total r w with
  | nil =>
    obtain rfl := congrArg (·.2.1) hall
    rwa [flatten_nil, append_nil]
  | cons bytes pieces ih =>
    have hwrite := h.rioWrite os bytes w
    rw [rioWriteAll] at hall
    rw [flatten_cons, ← append_assoc]
    split at hall
    · exact absurd (congrArg Prod.fst hall) Bool.noConfusion
    · rename_i r₁ w₁ hr₁
      rw [hr₁] at hwrite
      exact ih hwrite hall

theorem rioFdsetWrite_length (r : Rio) (w : World) :
    (rioFdsetWrite os bytes r w).2.1.sockets.length = r.sockets.length := by
  rw [rioFdsetWrite_eq]
  simp only
  split
  · exact chunkLoop_length os _ _ _ _ _
  · rfl

theorem rioWriteAll_length (pieces : List Bytes) (r : Rio) (w : World) :
    (rioWriteAll os pieces r w).2.1.sockets.length = r.sockets.length := by
  induction pieces generalizing r w with
  | nil => rfl
  | cons bytes pieces ih =>
    have hwrite : (rioWrite os bytes r w).2.1.sockets.length = r.sockets.length := by
      rw [rioWrite]
      split
      · rfl
      · exact rioFdsetWrite_length os _ r w
    rw [rioWriteAll]
    split
    · rename_i hr₁
      rwa [hr₁] at hwrite
    · rename_i r₁ w₁ hr₁
      rw [hr₁] at hwrite
      rw [ih, hwrite]

/-- The report of the child has the state of every replica, and the error is 0 for those that have
got everything. -/
theorem childReport_spec {os : Nat → WriteResult} {piped : Bool} {rep : List (Nat × Nat)}
    (h : childReport os clientids pieces piped w = (some rep, r)) :
    rep.map Prod.fst = clientids ∧ ReportsRight pieces.flatten rep r := by
  have hlength := rioWriteAll_length os pieces (rioInitWithFdset clientids.length) w
  rw [childReport] at h
  split at h
  rename_i ok r₁ w₁ hr₁
  simp only at h
  split at h
  · rename_i hok
    subst hok
    have hinv := rioWriteAll_inv os (rioInitWithFdset_inv clientids.length) hr₁
    rw [hr₁] at hlength
    split at h
    · obtain ⟨hrep, rfl⟩ := Prod.mk.inj h
      obtain rfl := Option.some.inj hrep
      refine ⟨?_, fun j id error s hj hs => ?_⟩
      · rw [report, map_fst_zip]
        rw [length_map, rioFlush, rioFdsetWrite_length, hlength]
        simp [rioInitWithFdset]
      · have hsound := (sendBuf_sound os hinv w₁).1 s
        rw [report_error hj hs]
        rw [rioFlush_eq] at hs
        exact (hsound (mem_of_getElem? hs)).received_iff
    · cases congrArg Prod.fst h
  · cases congrArg Prod.fst h

/-! ## Every run -/

/-- Writes and flushes of any sizes, in any order and with any results of `write`, and one more
flush: it keeps its promise but where there is nothing left to send, and no socket that has not
failed.  There it succeeds.  What a child reports is right in any case. -/
theorem delivered_iff (os : Nat → WriteResult) (clientids : List Nat) (ops : List Op) (w : World)
    (pieces : List Bytes) (piped : Bool) :
    let run := runOps os ops (rioInitWithFdset clientids.length) w
    let flushed := rioFlush os run.1 run.2
    (Delivered clientids (written ops) run.1 flushed.1 flushed.2.1 ↔
      run.1.buf ≠ [] ∨ ∃ s ∈ run.1.sockets, s.state = 0) ∧
    ∀ rep r, childReport os clientids pieces piped w = (some rep, r) →
      rep.map Prod.fst = clientids ∧ ReportsRight pieces.flatten rep r := by
  have hinv : Inv (written ops) (runOps os ops (rioInitWithFdset clientids.length) w).1 :=
    (rioInitWithFdset_inv clientids.length).runOps os ops w
  generalize runOps os ops (rioInitWithFdset clientids.length) w = run at hinv
  obtain ⟨r, w₁⟩ := run
  refine ⟨⟨fun h => ?_, fun h => ?_⟩, fun rep r hchild => childReport_spec hchild⟩
  · by_cases hbroken : ∀ s ∈ r.sockets, s.state ≠ 0
    · exact .inl ((rioFlush_broken os hbroken w₁).mp (h.fails hbroken))
    · push Not at hbroken
      exact .inr hbroken
  · obtain ⟨hsound, -⟩ := sendBuf_sound os hinv w₁
    rw [rioFlush_eq]
    refine ⟨fun s hs => (hsound s hs).received_iff.mp, fun s hs _ _ => (hsound s hs).silent,
      fun hbroken => ?_, fun j id error s hj hs => ?_⟩
    · rw [← rioFlush_eq, rioFlush_broken os hbroken]
      exact h.resolve_right fun ⟨s, hs, h0⟩ => hbroken s hs h0
    · rw [report_error hj hs]
      exact (hsound s (mem_of_getElem? hs)).received_iff

/-- A connection that breaks at the seventeenth write. -/
def breaking : Nat → WriteResult := fun i => if i < 16 then .wrote 1024 else .error 32

theorem writeLoop_breaking (hchunk : chunk.length = 1024) (fuel : Nat) (hw : w.calls < 16) :
    writeLoop breaking (fuel + 2) chunk w =
      ([some chunk], [], { w with calls := w.calls + 1 }) := by
  have hos : breaking w.calls = .wrote (1023 + 1) := if_pos hw
  have hne : chunk ≠ [] := by rintro rfl; cases hchunk
  have htake : chunk.take (1023 + 1) = chunk := take_of_length_le (Nat.le_of_eq hchunk)
  have hdrop : chunk.drop (1023 + 1) = [] := drop_eq_nil_of_le (Nat.le_of_eq hchunk)
  rw [writeLoop, if_neg hne, hos]
  simp only [htake, hdrop, writeLoop, if_true]

theorem chunkLoop_single (hp : p ≠ []) {s' : Socket} (hs : s.state = 0) (pos : Nat) {w' : World}
    (hsend : sendChunk os (p.take 1024) s w = (s', w')) :
    chunkLoop os (fuel + 1) p [s] pos w =
      chunkLoop os fuel (p.drop 1024) [s'] (pos + (p.take 1024).length) w' := by
  have hhealthy : ¬ allBroken [s] = true := by simp [allBroken, hs]
  rw [chunkLoop, if_neg hp]
  simp only [sendAll, hsend]
  exact if_neg hhealthy

/-- The last chunk breaks the only socket, which was not in error before it. -/
theorem chunkLoop_breaking {k : Nat} (hp : p.length = 1024 * k + 1) (hfuel : k + 2 ≤ fuel)
    (hs : s.state = 0) (pos : Nat) (hw : w.calls + k = 16) :
    (chunkLoop breaking fuel p [s] pos w).1 = true ∧
      ∀ s' ∈ (chunkLoop breaking fuel p [s] pos w).2.1, s'.state ≠ 0 := by
  induction k generalizing fuel p s pos w with
  | zero =>
    obtain ⟨b, rfl⟩ := length_eq_one_iff.mp hp
    obtain ⟨fuel, rfl⟩ : ∃ n, fuel = n + 2 := ⟨fuel - 2, by omega⟩
    have hos : breaking w.calls = .error 32 := if_neg (by omega)
    have hsend : sendChunk breaking ([b].take 1024) s w =
        (⟨32, s.writes ++ [none]⟩, ⟨32, w.calls + 1⟩) := by
      simp [sendChunk, hs, writeLoop, hos, EWOULDBLOCK]
    rw [chunkLoop_single breaking (cons_ne_nil b []) hs pos hsend]
    simp [chunkLoop]
  | succ k ih =>
    obtain ⟨fuel, rfl⟩ : ∃ n, fuel = n + 1 := ⟨fuel - 1, by omega⟩
    have hne : p ≠ [] := by rintro rfl; cases hp
    have htake : (p.take 1024).length = 1024 := by
      rw [length_take]
      omega
    have hdrop : (p.drop 1024).length = 1024 * k + 1 := by
      rw [length_drop]
      omega
    have hsend : sendChunk breaking (p.take 1024) s w =
        (⟨0, s.writes ++ [some (p.take 1024)]⟩, { w with calls := w.calls + 1 }) := by
      rw [sendChunk, if_neg (not_not.mpr hs), htake, writeLoop_breaking htake 1022 (by omega)]
      simp only [if_true, hs]
    rw [chunkLoop_single breaking hne hs pos hsend]
    have hfuel' : k + 2 ≤ fuel := by omega
    exact ih hdrop hfuel' rfl _ (show w.calls + 1 + k = 16 by omega)

/-- A write that makes the buffer large enough to go out, in seventeen chunks. -/
theorem not_delivered_of_length (hlength : p.length = 16385) :
    let run := runOps breaking [.write p] (rioInitWithFdset 1) ⟨0, 0⟩
    let flushed := rioFlush breaking run.1 run.2
    ¬ Delivered [7] (written [.write p]) run.1 flushed.1 flushed.2.1 := by
  have hp : p.length = 1024 * 16 + 1 := hlength
  have hne : p ≠ [] := by
    rintro rfl
    exact absurd hp (Nat.succ_ne_zero _).symm
  have hlarge : REDIS_IOBUF_LEN < p.length := by
    rw [hp]
    exact Nat.lt_succ_self _
  have hfuel : 16 + 2 ≤ p.length := by omega
  obtain ⟨hok, hbroken⟩ :=
    chunkLoop_breaking hp hfuel (s := ⟨0, []⟩) rfl 0 (w := ⟨0, 0⟩) rfl
  have hrun : runOps breaking [.write p] (rioInitWithFdset 1) ⟨0, 0⟩ =
      (sendBuf breaking ⟨[⟨0, []⟩], p, 0⟩ ⟨0, 0⟩).2 := by
    simp only [runOps, Op.run, rioWrite, if_neg hne, rioFdsetWrite_eq, Option.getD_some]
    exact congrArg Prod.snd (if_pos (.inr hlarge))
  rw [hrun]
  have hbuf : (sendBuf breaking ⟨[⟨0, []⟩], p, 0⟩ ⟨0, 0⟩).2.1.buf = [] := if_pos hok
  exact fun h => (rioFlush_broken breaking hbroken _).mp (h.fails hbroken) hbuf

/-- One replica, whose connection breaks at the last chunk. -/
theorem not_delivered_lastChunk :
    let ops := [Op.write (replicate 16385 0)]
    let run := runOps breaking ops (rioInitWithFdset 1) ⟨0, 0⟩
    let flushed := rioFlush breaking run.1 run.2
    ¬ Delivered [7] (written ops) run.1 flushed.1 flushed.2.1 :=
  not_delivered_of_length length_replicate

end Redis.Fdset
