import Redis.Bus.State
import Redis.Bytes
import Redis.Ring

/-!
# Redis.Replication.Backlog

The replication backlog of `replication.c`: a circular buffer with the last bytes
of the replication stream, and the partial resynchronisations that are served
from it.

The stream itself is not stored anywhere.  It is modelled as a list with one
place for each offset, the first one being offset 1; creating a backlog skips
one offset, which is a place with no byte.
-/

namespace Redis.Replication

open List

def REDIS_REPL_BACKLOG_MIN_SIZE : Nat := 1024 * 16

def REDIS_DEFAULT_REPL_BACKLOG_SIZE : Nat := 1024 * 1024

/-- The fields of `server` that belong to the backlog. -/
structure Backlog where
  masterReplOffset : Nat
  replBacklog : Option Bytes
  replBacklogSize : Nat
  replBacklogHistlen : Nat
  replBacklogIdx : Nat
  replBacklogOff : Int

/-- The backlog as `initServerConfig` leaves it. -/
def Backlog.init : Backlog where
  masterReplOffset := 0
  replBacklog := none
  replBacklogSize := REDIS_DEFAULT_REPL_BACKLOG_SIZE
  replBacklogHistlen := 0
  replBacklogIdx := 0
  replBacklogOff := 0

/-- `zmalloc`: the bytes of a new block are whatever `mem` says. -/
def zmalloc (mem : Nat → UInt8) (size : Nat) : Bytes := (range size).map mem

/-- `createReplicationBacklog`; `none` is the failed assertion. -/
def createReplicationBacklog (mem : Nat → UInt8) (b : Backlog) : Option Backlog :=
  match b.replBacklog with
  | some _ => none
  | none => some
      { b with
        replBacklog := some (zmalloc mem b.replBacklogSize)
        replBacklogHistlen := 0
        replBacklogIdx := 0
        masterReplOffset := b.masterReplOffset + 1
        replBacklogOff := ((b.masterReplOffset + 1 : Nat) : Int) + 1 }

def resizeReplicationBacklog (mem : Nat → UInt8) (newsize : Int) (b : Backlog) : Backlog :=
  let newsize :=
    if newsize < REDIS_REPL_BACKLOG_MIN_SIZE then REDIS_REPL_BACKLOG_MIN_SIZE else newsize.toNat
  if b.replBacklogSize = newsize then b
  else
    match b.replBacklog with
    | none => { b with replBacklogSize := newsize }
    | some _ =>
      { b with
        replBacklogSize := newsize
        replBacklog := some (zmalloc mem newsize)
        replBacklogHistlen := 0
        replBacklogIdx := 0
        replBacklogOff := (b.masterReplOffset : Int) + 1 }

def freeReplicationBacklog (b : Backlog) : Backlog := { b with replBacklog := none }

/-- The `while(len)` loop of `feedReplicationBacklog`: the buffer, `repl_backlog_idx`
and `repl_backlog_histlen`.  It is `none` when the loop does not end in `fuel` rounds. -/
def feedLoop (size : Nat) : Nat → Bytes × Nat × Nat → Bytes → Option (Bytes × Nat × Nat)
  | _, st, [] => some st
  | 0, _, _ :: _ => none
  | fuel + 1, (buf, idx, histlen), p =>
    let thislen := if size - idx > p.length then p.length else size - idx
    let idx' := idx + thislen
    feedLoop size fuel
      (Ring.overwrite buf idx (p.take thislen), if idx' = size then 0 else idx', histlen + thislen)
      (p.drop thislen)

/-- `feedReplicationBacklog`; `none` when there is no buffer to write to. -/
def feedReplicationBacklog (p : Bytes) (b : Backlog) : Option Backlog := do
  let buf ← b.replBacklog
  let (buf, idx, histlen) ←
    feedLoop b.replBacklogSize p.length (buf, b.replBacklogIdx, b.replBacklogHistlen) p
  let masterReplOffset := b.masterReplOffset + p.length
  let histlen := if histlen > b.replBacklogSize then b.replBacklogSize else histlen
  pure
    { b with
      masterReplOffset
      replBacklog := some buf
      replBacklogIdx := idx
      replBacklogHistlen := histlen
      replBacklogOff := (masterReplOffset : Int) - histlen + 1 }

/-- The `while(len)` loop of `addReplyReplicationBacklog`, with the bytes it adds to
the reply. -/
def addReplyReplicationBacklogLoop (buf : Bytes) (size : Int) : Nat → Int → Int → Option Bytes
  | 0, _, len => if len = 0 then some [] else none
  | fuel + 1, j, len =>
    if len = 0 then some []
    else
      let thislen := if size - j < len then size - j else len
      (addReplyReplicationBacklogLoop buf size fuel 0 (len - thislen)).map
        (((buf.drop j.toNat).take thislen.toNat) ++ ·)

/-- `addReplyReplicationBacklog`: the bytes that are sent, and the length that is
returned. -/
def addReplyReplicationBacklog (offset : Int) (b : Backlog) : Option (Bytes × Int) := do
  let buf ← b.replBacklog
  if b.replBacklogHistlen = 0 then pure ([], 0)
  else
    let size : Int := b.replBacklogSize
    let skip := offset - b.replBacklogOff
    let j := (b.replBacklogIdx + (size - b.replBacklogHistlen)).tmod size
    let j := (j + skip).tmod size
    let len := b.replBacklogHistlen - skip
    let bytes ← addReplyReplicationBacklogLoop buf size (b.replBacklogHistlen + 1) j len
    pure (bytes, b.replBacklogHistlen - skip)

/-- What `masterTryPartialResynchronization` answers. -/
inductive Psync where
  /-- `+CONTINUE`, and the bytes that are queued behind it. -/
  | continue (bytes : Bytes)
  /-- `+FULLRESYNC` with the offset that is announced. -/
  | fullresync (offset : Int)
  /-- The answer could not be written, and the client is freed. -/
  | closed
  deriving DecidableEq

/-- `masterTryPartialResynchronization` for the run id and the offset of the request.
The offset is `none` when `getLongLongFromObjectOrReply` refuses it, and `written`
says whether the answer could be written to the socket. -/
def masterTryPartialResynchronization (runid masterRunid : Bytes)
    (psyncOffset : Option Int) (written : Bool) (b : Backlog) : Option Psync :=
  let needFullResync : Psync :=
    if written then
      .fullresync (if b.replBacklog.isNone then b.masterReplOffset + 1 else b.masterReplOffset)
    else .closed
  if !Bus.strcaseEq masterRunid runid then some needFullResync
  else
    match psyncOffset with
    | none => some needFullResync
    | some offset =>
      if b.replBacklog.isNone ∨ offset < b.replBacklogOff ∨
          offset > b.replBacklogOff + b.replBacklogHistlen then some needFullResync
      else if !written then some .closed
      else (addReplyReplicationBacklog offset b).map (.continue ·.1)

/-! ## Runs -/

/-- What happens to the backlog. -/
inductive BacklogOp where
  | create (mem : Nat → UInt8)
  | free
  | resize (mem : Nat → UInt8) (newsize : Int)
  | feed (p : Bytes)

/-- One operation; `none` is a failed assertion or a write without a buffer. -/
def Backlog.step (b : Backlog) : BacklogOp → Option Backlog
  | .create mem => createReplicationBacklog mem b
  | .free => some (freeReplicationBacklog b)
  | .resize mem newsize => some (resizeReplicationBacklog mem newsize b)
  | .feed p => feedReplicationBacklog p b

/-- What an operation adds to the stream. -/
def BacklogOp.bytes : BacklogOp → List (Option UInt8)
  | .create _ => [none]
  | .free | .resize .. => []
  | .feed p => p.map some

/-- The states that are reached with a stream. -/
inductive Backlog.Reachable : Backlog → List (Option UInt8) → Prop
  | init : Reachable Backlog.init []
  | step {b b' : Backlog} {stream : List (Option UInt8)} (op : BacklogOp) :
      Reachable b stream → b.step op = some b' → Reachable b' (stream ++ op.bytes)

/-! ## The invariant -/

/-- What holds while there is a buffer: the bytes since it was created or resized are
a piece at the end of the stream, and the buffer holds the last ones. -/
structure Backlog.Window (b : Backlog) (stream : List (Option UInt8)) (buf : Bytes)
    (hist : Bytes) : Prop where
  suffix : ∃ before, stream = before ++ hist.map some
  holds : Ring.Holds b.replBacklogSize buf hist
  idx_eq : b.replBacklogIdx = hist.length % b.replBacklogSize
  histlen_eq : b.replBacklogHistlen = min hist.length b.replBacklogSize
  off_eq : b.replBacklogOff = (b.masterReplOffset : Int) - b.replBacklogHistlen + 1

/-- The invariant of the backlog. -/
structure Backlog.Inv (b : Backlog) (stream : List (Option UInt8)) : Prop where
  offset_eq : b.masterReplOffset = stream.length
  size_ge : REDIS_REPL_BACKLOG_MIN_SIZE ≤ b.replBacklogSize
  window : ∀ buf, b.replBacklog = some buf → ∃ hist, b.Window stream buf hist

variable {b b' : Backlog} {stream : List (Option UInt8)} {buf hist p : Bytes}

theorem Backlog.Inv.size_pos (h : b.Inv stream) : 0 < b.replBacklogSize :=
  Nat.lt_of_lt_of_le (by decide) h.size_ge

variable {fuel : Nat} (mem : Nat → UInt8)

@[simp] theorem length_zmalloc (size : Nat) : (zmalloc mem size).length = size := by simp [zmalloc]

/-- An empty buffer is a window with no history. -/
theorem Backlog.Window.empty (hidx : b.replBacklogIdx = 0) (hhist : b.replBacklogHistlen = 0)
    (hoff : b.replBacklogOff = (b.masterReplOffset : Int) + 1) :
    b.Window stream (zmalloc mem b.replBacklogSize) [] where
  suffix := ⟨stream, by simp⟩
  holds := .nil (by simp)
  idx_eq := by simp [hidx]
  histlen_eq := by simp [hhist]
  off_eq := by simp [hoff, hhist]

/-- The loop writes all of `p` behind the history. -/
theorem feedLoop_spec {size histlen : Nat} (hsize : 0 < size) (h : Ring.Holds size buf hist)
    (hfuel : p.length ≤ fuel) :
    ∃ buf', feedLoop size fuel (buf, hist.length % size, histlen) p =
        some (buf', (hist ++ p).length % size, histlen + p.length) ∧
      Ring.Holds size buf' (hist ++ p) := by
  induction fuel generalizing buf hist histlen p with
  | zero =>
    obtain rfl : p = [] := length_eq_zero_iff.mp (by omega)
    exact ⟨buf, by simp [feedLoop], by simpa using h⟩
  | succ fuel ih =>
    cases p with
    | nil => exact ⟨buf, by simp [feedLoop], by simpa using h⟩
    | cons x p =>
      have hlt : hist.length % size < size := Nat.mod_lt _ hsize
      unfold feedLoop
      extract_lets thislen idx'
      have hthis : thislen ≤ (x :: p).length ∧ hist.length % size + thislen ≤ size ∧
          0 < thislen := by
        simp only [thislen, length_cons]
        split <;> omega
      have htake : ((x :: p).take thislen).length = thislen := by
        rw [length_take, Nat.min_eq_left hthis.1]
      have hidx : (if idx' = size then 0 else idx') =
          (hist ++ (x :: p).take thislen).length % size := by
        rw [length_append, htake, ← Nat.mod_add_mod]
        simp only [idx']
        split
        next he => rw [he, Nat.mod_self]
        next hne => rw [Nat.mod_eq_of_lt (show hist.length % size + thislen < size by omega)]
      rw [hidx]
      obtain ⟨buf', heq, hholds⟩ := @ih _ (hist ++ (x :: p).take thislen)
        ((x :: p).drop thislen) (histlen + thislen) (h.overwrite (by rw [htake]; exact hthis.2.1))
        (by rw [length_drop]; omega)
      rw [append_assoc, take_append_drop] at heq hholds
      refine ⟨buf', ?_, hholds⟩
      rw [heq, length_drop]
      congr 3
      omega

theorem feedReplicationBacklog_spec (hinv : b.Inv stream) (hbuf : b.replBacklog = some buf)
    (p : Bytes) :
    ∃ b', feedReplicationBacklog p b = some b' ∧ b'.Inv (stream ++ p.map some) ∧
      b'.masterReplOffset = b.masterReplOffset + p.length ∧ b'.replBacklog.isSome ∧
      b'.replBacklogSize = b.replBacklogSize ∧
      b'.replBacklogHistlen = min (b.replBacklogHistlen + p.length) b.replBacklogSize := by
  obtain ⟨hist, hw⟩ := hinv.window buf hbuf
  obtain ⟨buf', hloop, hholds⟩ := @feedLoop_spec _ _ p _ _ b.replBacklogHistlen hinv.size_pos
    hw.holds le_rfl
  rw [← hw.idx_eq] at hloop
  obtain ⟨before, hbefore⟩ := hw.suffix
  simp only [feedReplicationBacklog, hbuf, hloop, some_bind, Option.pure_def]
  refine ⟨_, rfl, ⟨?_, hinv.size_ge, ?_⟩, rfl, rfl, rfl, ?_⟩
  · simp [hinv.offset_eq]
  · intro buf'' hbuf''
    obtain rfl : buf' = buf'' := by simpa using hbuf''
    refine ⟨hist ++ p, ⟨⟨before, ?_⟩, hholds, rfl, ?_, rfl⟩⟩
    · simp [hbefore]
    · have := hw.histlen_eq
      simp only [length_append]
      split <;> omega
  · rw [Nat.min_def]
    grind

theorem createReplicationBacklog_spec (hinv : b.Inv stream) (mem : Nat → UInt8)
    (h : createReplicationBacklog mem b = some b') : b'.Inv (stream ++ [none]) := by
  rw [createReplicationBacklog] at h
  split at h
  · cases h
  · obtain rfl := Option.some.inj h
    refine ⟨by simp [hinv.offset_eq], hinv.size_ge, ?_⟩
    intro buf hbuf
    obtain rfl := Option.some.inj hbuf
    exact ⟨[], .empty mem rfl rfl rfl⟩

theorem resizeReplicationBacklog_spec (hinv : b.Inv stream) (mem : Nat → UInt8) (newsize : Int) :
    (resizeReplicationBacklog mem newsize b).Inv stream := by
  unfold resizeReplicationBacklog
  extract_lets size
  have hsize : REDIS_REPL_BACKLOG_MIN_SIZE ≤ size := by
    simp only [size]
    split <;> omega
  split
  · exact hinv
  · split
    next hnone => exact ⟨hinv.offset_eq, hsize, by simp [hnone]⟩
    next =>
      refine ⟨hinv.offset_eq, hsize, ?_⟩
      intro buf hbuf
      obtain rfl := Option.some.inj hbuf
      exact ⟨[], .empty mem rfl rfl rfl⟩

theorem isSome_resizeReplicationBacklog (newsize : Int) (b : Backlog) :
    (resizeReplicationBacklog mem newsize b).replBacklog.isSome = b.replBacklog.isSome := by
  unfold resizeReplicationBacklog
  extract_lets size
  split
  · rfl
  · split
    next hnone => rfl
    next buf hsome => simp [hsome]

theorem Backlog.Inv.step (hinv : b.Inv stream) {op : BacklogOp} (h : b.step op = some b') :
    b'.Inv (stream ++ op.bytes) := by
  cases op with
  | create mem => exact createReplicationBacklog_spec hinv mem h
  | free =>
    obtain rfl := Option.some.inj h
    simpa [BacklogOp.bytes] using
      (⟨hinv.offset_eq, hinv.size_ge, by simp [freeReplicationBacklog]⟩ :
        (freeReplicationBacklog b).Inv stream)
  | resize mem newsize =>
    obtain rfl := Option.some.inj h
    simpa [BacklogOp.bytes] using resizeReplicationBacklog_spec hinv mem newsize
  | feed p =>
    rw [Backlog.step] at h
    cases hbuf : b.replBacklog with
    | none => simp [feedReplicationBacklog, hbuf] at h
    | some buf =>
      obtain ⟨b'', heq, hinv', -⟩ := feedReplicationBacklog_spec hinv hbuf p
      obtain rfl := Option.some.inj (heq.symm.trans h)
      exact hinv'

theorem Backlog.Reachable.inv (h : Backlog.Reachable b stream) : b.Inv stream := by
  induction h with
  | init => exact ⟨rfl, by decide, by simp [Backlog.init]⟩
  | step op _ hstep ih => exact ih.step hstep

/-! ## What is in the buffer, and what is sent of it -/

/-- The bytes in the buffer, the oldest first. -/
def Backlog.contents (b : Backlog) (buf : Bytes) : List (Option UInt8) :=
  (range b.replBacklogHistlen).map fun k =>
    buf[(b.replBacklogIdx + (b.replBacklogSize - b.replBacklogHistlen) + k) % b.replBacklogSize]?

namespace Backlog.Window

theorem drop_stream (hw : b.Window stream buf hist) {n : Nat} (hn : n ≤ hist.length) :
    stream.drop (stream.length - n) = (hist.drop (hist.length - n)).map some := by
  obtain ⟨before, rfl⟩ := hw.suffix
  rw [length_append, length_map, drop_append, drop_eq_nil_of_le (by omega),
    nil_append, ← map_drop]
  congr 2
  omega

theorem histlen_le (hw : b.Window stream buf hist) :
    b.replBacklogHistlen ≤ hist.length ∧ b.replBacklogHistlen ≤ b.replBacklogSize := by
  have := hw.histlen_eq
  omega

end Backlog.Window

/-- The loop sends a piece of the history; the index only matters while something is
left to send. -/
theorem addReplyReplicationBacklogLoop_spec {n : Nat} (hn : 0 < n) (h : Ring.Holds n buf hist)
    {i len j : Nat} (hj : len = 0 ∨ j = i % n) (hold : hist.length ≤ i + n)
    (hlen : i + len ≤ hist.length) (hfuel : len ≤ fuel) :
    addReplyReplicationBacklogLoop buf n fuel j len = some ((hist.drop i).take len) := by
  induction fuel generalizing i len j with
  | zero =>
    obtain rfl : len = 0 := by omega
    simp [addReplyReplicationBacklogLoop]
  | succ fuel ih =>
    rw [addReplyReplicationBacklogLoop]
    split
    next h0 => simp [show len = 0 by omega]
    next h0 =>
      obtain rfl : j = i % n := hj.resolve_left (by omega)
      have hlt : i % n < n := Nat.mod_lt _ hn
      have hthis : (if (n : Int) - (i % n : Nat) < len then (n : Int) - (i % n : Nat) else len) =
          ((min (n - i % n) len : Nat) : Int) := by
        split <;> omega
      rw [hthis]
      obtain ⟨m, hm⟩ : ∃ m, min (n - i % n) len = m := ⟨_, rfl⟩
      dsimp only
      rw [hm, ← Nat.cast_sub (by omega), show (0 : Int) = ((0 : Nat) : Int) from rfl,
        ih (i := i + m) ?_ (by omega) (by omega) (by omega), Option.map_some,
        Int.toNat_natCast, Int.toNat_natCast, h.slice hold (by omega) (by omega),
        ← drop_drop]
      · congr 1
        rw [show (hist.drop i).take len = (hist.drop i).take (m + (len - m)) by
          rw [Nat.add_sub_cancel' (by omega)], take_add]
      · by_cases hm' : m = len
        · exact .inl (by omega)
        · refine .inr ?_
          rw [← Nat.mod_add_mod, show i % n + m = n by omega, Nat.mod_self]

theorem addReplyReplicationBacklog_spec (hinv : b.Inv stream) (hw : b.Window stream buf hist)
    (hbuf : b.replBacklog = some buf) {skip : Nat} (hskip : skip ≤ b.replBacklogHistlen) :
    ∃ bytes len, addReplyReplicationBacklog (b.replBacklogOff + skip) b = some (bytes, len) ∧
      bytes.map some = stream.drop (stream.length - (b.replBacklogHistlen - skip)) := by
  obtain ⟨hle, hsize⟩ := hw.histlen_le
  have hmin := hw.histlen_eq
  rw [hw.drop_stream (by omega)]
  simp only [addReplyReplicationBacklog, hbuf, some_bind]
  split
  next h0 => exact ⟨_, _, rfl, by rw [drop_eq_nil_of_le (by omega)]⟩
  next h0 =>
    -- the index of the first byte, as an index into the history
    have hfirst : ((b.replBacklogIdx : Int) +
        ((b.replBacklogSize : Int) - b.replBacklogHistlen)).tmod b.replBacklogSize =
        ((hist.length - b.replBacklogHistlen) % b.replBacklogSize : Nat) := by
      have := Ring.add_sub_mod 0 hle hsize
      rw [Nat.add_zero, Nat.add_zero] at this
      rw [← this, hw.idx_eq, ← Nat.cast_sub hsize, ← Nat.cast_add, Int.tmod_eq_emod_of_nonneg
        (by omega), Int.natCast_emod]
    have hj : ((b.replBacklogIdx : Int) +
          ((b.replBacklogSize : Int) - b.replBacklogHistlen)).tmod b.replBacklogSize +
        (b.replBacklogOff + skip - b.replBacklogOff) =
        (((hist.length - b.replBacklogHistlen) % b.replBacklogSize + skip : Nat) : Int) := by
      rw [hfirst]
      omega
    have hlen : (b.replBacklogHistlen : Int) - (b.replBacklogOff + skip - b.replBacklogOff) =
        ((b.replBacklogHistlen - skip : Nat) : Int) := by omega
    rw [hj, Int.tmod_eq_emod_of_nonneg (by omega), ← Int.natCast_emod, Nat.mod_add_mod, hlen,
      addReplyReplicationBacklogLoop_spec hinv.size_pos hw.holds (.inr rfl) (by omega) (by omega)
        (by omega)]
    refine ⟨_, _, rfl, ?_⟩
    rw [take_of_length_le (by rw [length_drop]; omega)]
    congr 2
    omega

/-- The requests that are served from the backlog. -/
def Backlog.Serves (b : Backlog) (runid masterRunid : Bytes) (psyncOffset : Option Int) : Prop :=
  Bus.strcaseEq masterRunid runid = true ∧ b.replBacklog.isSome ∧
    ∃ offset, psyncOffset = some offset ∧ b.replBacklogOff ≤ offset ∧
      offset ≤ b.masterReplOffset + 1

/-- A request inside the window is answered with the rest of the stream, and every
other one is refused. -/
theorem masterTryPartialResynchronization_spec (hinv : b.Inv stream)
    (runid masterRunid : Bytes) (psyncOffset : Option Int) :
    (b.Serves runid masterRunid psyncOffset ∧
      ∃ bytes offset, psyncOffset = some offset ∧
        masterTryPartialResynchronization runid masterRunid psyncOffset true b =
          some (.continue bytes) ∧
        bytes.map some = stream.drop (offset - 1).toNat) ∨
    (¬ b.Serves runid masterRunid psyncOffset ∧ ∃ offset,
      masterTryPartialResynchronization runid masterRunid psyncOffset true b =
        some (.fullresync offset)) := by
  simp only [masterTryPartialResynchronization, Backlog.Serves]
  by_cases hid : Bus.strcaseEq masterRunid runid = true
  case neg => simp [hid]
  cases psyncOffset with
  | none => simp [hid]
  | some offset =>
    cases hbuf : b.replBacklog with
    | none => simp [hid]
    | some buf =>
      obtain ⟨hist, hw⟩ := hinv.window buf hbuf
      have hoff := hw.off_eq
      have hstream := hinv.offset_eq
      obtain ⟨hle, -⟩ := hw.histlen_le
      obtain ⟨before, hbefore⟩ := hw.suffix
      have hlen : hist.length ≤ stream.length := by simp [hbefore]
      by_cases hin : b.replBacklogOff ≤ offset ∧ offset ≤ b.masterReplOffset + 1
      · obtain ⟨skip, rfl⟩ := Int.le.dest hin.1
        obtain ⟨bytes, len, heq, hbytes⟩ :=
          addReplyReplicationBacklog_spec hinv hw hbuf (show skip ≤ b.replBacklogHistlen by omega)
        refine .inl ⟨⟨hid, rfl, _, rfl, hin⟩, bytes, _, rfl, ?_, ?_⟩
        · simp [hid, heq]
          omega
        · rw [hbytes]
          congr 1
          omega
      · refine .inr ⟨?_, ?_⟩
        · rintro ⟨-, -, o, ho, hlo, hhi⟩
          cases ho
          exact hin ⟨hlo, hhi⟩
        · have hwin : offset < b.replBacklogOff ∨
              offset > b.replBacklogOff + b.replBacklogHistlen := by omega
          exact ⟨b.masterReplOffset, by simp [hid, hwin]⟩

end Redis.Replication
