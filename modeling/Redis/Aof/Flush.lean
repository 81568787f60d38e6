import Redis.Aof.Expire

/-!
# Redis.Aof.Flush

The buffer of the append only file and the file itself: `feedAppendOnlyFile` adds to the buffer,
and `flushAppendOnlyFile` writes it.  No rewrite of the file is in progress.

The length of an sds is an `unsigned int`, and `sdsrange` takes its bounds as `int`.
-/

namespace Redis.Aof

open List

open Redis.Config (str)
open Redis.Replication (numLine crlf)

/-! ## Strings -/

def toInt (v : Int) : Int := Int.bmod v (2 ^ 32)

def sdscatlen (s t : Bytes) : Bytes := (s ++ t).take ((s ++ t).length % 2 ^ 32)

def sdsrange (s : Bytes) (start stop : Int) : Bytes :=
  let len : Int := s.length
  if len = 0 then s
  else
    let start := if start < 0 then max 0 (toInt (len + start)) else start
    let stop := if stop < 0 then max 0 (toInt (len + stop)) else stop
    if start > stop ∨ start ≥ toInt len then []
    else
      let stop := if stop ≥ toInt len then toInt (len - 1) else stop
      (s.drop start.toNat).take (stop - start + 1).toNat

/-! ## Flushing -/

/-- `server.aof_fsync`. -/
inductive AofFsync where
  | no
  | always
  | everysec
deriving DecidableEq

/-- `server.aof_fsync` and `server.aof_no_fsync_on_rewrite`. -/
structure AofConfig where
  aofFsync : AofFsync
  noFsyncOnRewrite : Bool

/-- `REDIS_OK` and `REDIS_ERR`. -/
inductive Status where
  | ok
  | err
deriving DecidableEq

/-- The fields of the server for the append only file, and the bytes of the file. -/
structure AofServer where
  file : Bytes
  aofBuf : Bytes
  selectedDb : Int
  currentSize : Int
  lastWriteStatus : Status
  flushPostponedStart : Int
  delayedFsync : Nat
  lastFsync : Int
deriving DecidableEq

/-- The argument of a flush and what it finds: the time, whether an fsync is pending in the
background and a child is saving, what `write` returns, and whether `ftruncate` succeeds. -/
structure Flush where
  force : Bool
  unixtime : Int
  fsyncPending : Bool
  childActive : Bool
  nwritten : Int
  ftruncateOk : Bool

/-- `ftruncate` to a size, which also extends a file with zeros. -/
def ftruncate (file : Bytes) (size : Int) : Bytes :=
  file.take size.toNat ++ replicate (size.toNat - file.length) 0

variable (cfg : AofConfig) (ev : Flush) (s : AofServer)

def syncInProgress : Bool := cfg.aofFsync = .everysec ∧ ev.fsyncPending

/-- The branch of `flushAppendOnlyFile` for a write that was not complete; `none` is the exit. -/
def writeFailed : Option AofServer :=
  let short := ev.nwritten ≠ -1
  let undone := short ∧ ev.ftruncateOk
  let file := if undone then ftruncate s.file s.currentSize else s.file
  let nwritten := if undone then -1 else ev.nwritten
  if cfg.aofFsync = .always then none
  else if nwritten > 0 then
    some { s with
      file
      lastWriteStatus := .err
      currentSize := s.currentSize + nwritten
      aofBuf := sdsrange s.aofBuf (toInt nwritten) (-1) }
  else some { s with file, lastWriteStatus := .err }

/-- The rest of `flushAppendOnlyFile` after a complete write. -/
def writeDone : AofServer :=
  let s := { s with
    lastWriteStatus := .ok
    currentSize := s.currentSize + ev.nwritten
    aofBuf := [] }
  if cfg.noFsyncOnRewrite ∧ ev.childActive then s
  else if cfg.aofFsync = .always then { s with lastFsync := ev.unixtime }
  else if cfg.aofFsync = .everysec ∧ ev.unixtime > s.lastFsync then
    { s with lastFsync := ev.unixtime }
  else s

/-- `flushAppendOnlyFile` from `write` on.  The length of the buffer is compared as an `int`. -/
def writeBuf : Option AofServer :=
  let s' := { s with
    file := s.file ++ s.aofBuf.take ev.nwritten.toNat
    flushPostponedStart := 0 }
  if ev.nwritten ≠ toInt s.aofBuf.length then writeFailed cfg ev s'
  else some (writeDone cfg ev s')

/-- The flush waits for the fsync in the background. -/
def postpones : Bool :=
  cfg.aofFsync = .everysec ∧ ev.force = false ∧ syncInProgress cfg ev ∧
    (s.flushPostponedStart = 0 ∨ ev.unixtime - s.flushPostponedStart < 2)

/-- A flush that calls `write`. -/
def writes : Bool := s.aofBuf ≠ [] ∧ ¬postpones cfg ev s

/-- `flushAppendOnlyFile`; `none` is the exit. -/
def flushAppendOnlyFile : Option AofServer :=
  if s.aofBuf = [] then some s
  else if postpones cfg ev s then
    some (if s.flushPostponedStart = 0 then { s with flushPostponedStart := ev.unixtime } else s)
  else if cfg.aofFsync = .everysec ∧ ev.force = false ∧ syncInProgress cfg ev then
    writeBuf cfg ev { s with delayedFsync := s.delayedFsync + 1 }
  else writeBuf cfg ev s

/-! ## Runs -/

/-- A call of one of the two functions.  A command that is not in `Proc` is fed like `DEL`. -/
inductive AofCall where
  | feed (now : Int64) (cmd : Proc) (dictid : Int) (argv : List Bytes)
  | flush (ev : Flush)

/-- The bytes that `feedAppendOnlyFile` makes of a command. -/
def fedBytes (now : Int64) (cmd : Proc) (dictid : Int) (argv : List Bytes) (selected : Int) :
    Bytes :=
  (feedAppendOnlyFile now cmd dictid argv ⟨selected, []⟩).buf

/-- The server with what was fed so far, and whether the last write has completed. -/
structure AofTrace where
  server : AofServer
  fed : Bytes
  lastWrite : Option Bool
deriving DecidableEq

/-- One call; `none` is the exit. -/
def AofTrace.step (cfg : AofConfig) (t : AofTrace) : AofCall → Option AofTrace
  | .feed now cmd dictid argv =>
    let bytes := fedBytes now cmd dictid argv t.server.selectedDb
    some {
      server := { t.server with
        selectedDb := dictid
        aofBuf := sdscatlen t.server.aofBuf bytes }
      fed := t.fed ++ bytes
      lastWrite := t.lastWrite }
  | .flush ev => do
    let server ← flushAppendOnlyFile cfg ev t.server
    return {
      server
      fed := t.fed
      lastWrite := if writes cfg ev t.server then
          some (ev.nwritten = t.server.aofBuf.length)
        else t.lastWrite }

/-! ## What one call does -/

section Calls

variable {cfg : AofConfig} {ev : Flush} {s s' : AofServer}

variable {log : Bytes} {n : Nat}

theorem toInt_of_lt (h : n < 2 ^ 31) : toInt n = n :=
  Int.bmod_eq_of_le_mul_two (by omega) (by omega)

theorem sdscatlen_of_lt {s t : Bytes} (h : (s ++ t).length < 2 ^ 32) :
    sdscatlen s t = s ++ t := by
  rw [sdscatlen, Nat.mod_eq_of_lt h, take_length]

/-- The first bytes of a string are cut off. -/
theorem sdsrange_drop {s : Bytes} (hn : n < s.length) (hs : s.length < 2 ^ 31) :
    sdsrange s n (-1) = s.drop n := by
  have hlen : toInt s.length = s.length := toInt_of_lt hs
  have hlast : toInt ((s.length : Int) + -1) = s.length - 1 :=
    Int.bmod_eq_of_le_mul_two (by omega) (by omega)
  have hstart : (if (n : Int) < 0 then max 0 (toInt (s.length + n)) else (n : Int)) = n :=
    if_neg (by omega)
  have hstop : (if (-1 : Int) < 0 then max 0 (toInt (s.length + -1)) else -1) = s.length - 1 := by
    rw [if_pos (by decide), hlast]
    omega
  unfold sdsrange
  extract_lets len start stop stop'
  have hlen' : toInt len = len := hlen
  have hstop' : stop' = len - 1 := by
    unfold stop'
    rw [hlen', if_neg (by unfold stop len; omega)]
    exact hstop
  rw [show start = n from hstart, show stop = len - 1 from hstop, hstop', hlen']
  unfold len
  rw [if_neg (by omega), if_neg (by omega), Int.toNat_natCast]
  exact take_of_length_le (by rw [length_drop]; omega)

theorem ftruncate_append (file bytes : Bytes) :
    ftruncate (file ++ bytes) file.length = file := by
  rw [ftruncate, Int.toNat_natCast, take_left, length_append,
    Nat.sub_eq_zero_of_le (Nat.le_add_right _ _), replicate_zero, append_nil]

/-- The file holds what was written, and the buffer what was not. -/
structure Split (s : AofServer) (log : Bytes) : Prop where
  bytes : s.file ++ s.aofBuf = log
  size : s.currentSize = s.file.length
  short : s.aofBuf.length < 2 ^ 31

/-- What `write` can return. -/
def Flush.Possible (ev : Flush) (buf : Bytes) : Prop :=
  -1 ≤ ev.nwritten ∧ ev.nwritten ≤ buf.length

theorem writeDone_split (h : Split s log) (hdone : ev.nwritten = s.aofBuf.length)
    (hs' : s' = { s with file := s.file ++ s.aofBuf.take ev.nwritten.toNat, flushPostponedStart := 0 }) :
    Split (writeDone cfg ev s') log ∧ (writeDone cfg ev s').lastWriteStatus = .ok := by
  have htake : s.aofBuf.take ev.nwritten.toNat = s.aofBuf := by
    rw [hdone, Int.toNat_natCast, take_length]
  have hfields : (writeDone cfg ev s').file = s'.file ∧ (writeDone cfg ev s').aofBuf = [] ∧
      (writeDone cfg ev s').currentSize = s'.currentSize + ev.nwritten ∧
      (writeDone cfg ev s').lastWriteStatus = .ok := by
    rw [writeDone]
    split
    · exact ⟨rfl, rfl, rfl, rfl⟩
    split
    · exact ⟨rfl, rfl, rfl, rfl⟩
    split
    · exact ⟨rfl, rfl, rfl, rfl⟩
    · exact ⟨rfl, rfl, rfl, rfl⟩
  obtain ⟨hfile, hbuf, hsize, hstatus⟩ := hfields
  refine ⟨⟨?_, ?_, ?_⟩, hstatus⟩
  · rw [hfile, hbuf, hs', htake, append_nil, h.bytes]
  · rw [hsize, hfile, hs', htake, length_append, h.size, hdone]
    rfl
  · rw [hbuf]
    decide

/-- A short write that `ftruncate` has undone. -/
theorem writeFailed_undone (hpolicy : cfg.aofFsync ≠ .always) (hshort : ev.nwritten ≠ -1)
    (hundone : ev.ftruncateOk = true) : writeFailed cfg ev s =
      some { s with file := ftruncate s.file s.currentSize, lastWriteStatus := .err } := by
  simp [writeFailed, hpolicy, hshort, hundone]

/-- The bytes of a short write that stay in the file. -/
theorem writeFailed_kept (hpolicy : cfg.aofFsync ≠ .always) (hkept : ev.ftruncateOk = false)
    (hpos : ev.nwritten > 0) : writeFailed cfg ev s =
      some { s with
        lastWriteStatus := .err
        currentSize := s.currentSize + ev.nwritten
        aofBuf := sdsrange s.aofBuf (toInt ev.nwritten) (-1) } := by
  simp [writeFailed, hpolicy, hkept, hpos]

/-- A write that has written nothing. -/
theorem writeFailed_nothing (hpolicy : cfg.aofFsync ≠ .always)
    (hkept : ev.nwritten = -1 ∨ ev.ftruncateOk = false) (hpos : ev.nwritten ≤ 0) :
    writeFailed cfg ev s = some { s with lastWriteStatus := .err } := by
  have hundone : ¬(ev.nwritten ≠ -1 ∧ ev.ftruncateOk = true) := by
    rintro ⟨hshort, hok⟩
    rcases hkept with hkept | hkept
    · exact hshort hkept
    · rw [hok] at hkept
      cases hkept
  simp [writeFailed, hpolicy, hundone, hpos]

theorem writeFailed_split (h : Split s log) (hpolicy : cfg.aofFsync ≠ .always)
    (hev : ev.Possible s.aofBuf) (hshort : ev.nwritten ≠ s.aofBuf.length)
    (hs' : s' = { s with file := s.file ++ s.aofBuf.take ev.nwritten.toNat, flushPostponedStart := 0 }) :
    ∃ s'', writeFailed cfg ev s' = some s'' ∧ Split s'' log ∧ s''.lastWriteStatus = .err := by
  obtain ⟨hlo, hhi⟩ := hev
  have hlength := h.short
  have hfile : s'.file = s.file ++ s.aofBuf.take ev.nwritten.toNat := by rw [hs']
  have hbuf : s'.aofBuf = s.aofBuf := by rw [hs']
  have hsize : s'.currentSize = s.file.length := by rw [hs', ← h.size]
  by_cases hundone : ev.nwritten ≠ -1 ∧ ev.ftruncateOk = true
  · -- the file is as it was before the write
    have hback : ftruncate s'.file s.file.length = s.file := by
      rw [hfile, ftruncate_append]
    refine ⟨_, writeFailed_undone hpolicy hundone.1 hundone.2, ⟨?_, ?_, ?_⟩, rfl⟩
    · simp only [hsize, hback, hbuf, h.bytes]
    · simp only [hsize, hback]
    · simp only [hbuf, hlength]
  have hkept : ev.nwritten = -1 ∨ ev.ftruncateOk = false := by
    by_contra hboth
    rw [not_or, Bool.not_eq_false] at hboth
    exact hundone hboth
  by_cases hpos : ev.nwritten > 0
  · obtain ⟨n, hn⟩ : ∃ n : Nat, ev.nwritten = n := ⟨ev.nwritten.toNat, by omega⟩
    have hlt : n < s.aofBuf.length := by omega
    have hint : toInt (n : Int) = n := toInt_of_lt (by omega)
    have hdrop : sdsrange s.aofBuf (toInt n) (-1) = s.aofBuf.drop n := by
      rw [hint]
      exact sdsrange_drop hlt hlength
    refine ⟨_, writeFailed_kept hpolicy (hkept.resolve_left (by omega)) hpos, ⟨?_, ?_, ?_⟩, rfl⟩
    · simp only [hfile, hbuf, hn, hdrop, Int.toNat_natCast, append_assoc,
        take_append_drop, h.bytes]
    · simp only [hfile, hsize, hn, Int.toNat_natCast, length_append, length_take]
      omega
    · simp only [hbuf, hn, hdrop, length_drop]
      omega
  · have htake : s.aofBuf.take ev.nwritten.toNat = [] := by
      rw [Int.toNat_of_nonpos (by omega), take_zero]
    refine ⟨_, writeFailed_nothing hpolicy hkept (by omega), ⟨?_, ?_, ?_⟩, rfl⟩
    · simp only [hfile, hbuf, htake, append_nil, h.bytes]
    · simp only [hfile, hsize, htake, append_nil]
    · simp only [hbuf, hlength]

/-- A call of `write`, whatever it returns. -/
theorem writeBuf_split (h : Split s log) (hpolicy : cfg.aofFsync ≠ .always)
    (hev : ev.Possible s.aofBuf) :
    ∃ s', writeBuf cfg ev s = some s' ∧ Split s' log ∧
      s'.lastWriteStatus = if ev.nwritten = s.aofBuf.length then .ok else .err := by
  have hint : toInt s.aofBuf.length = s.aofBuf.length := toInt_of_lt h.short
  rw [writeBuf, hint]
  by_cases hdone : ev.nwritten = s.aofBuf.length
  · rw [if_neg (not_not.mpr hdone), if_pos hdone]
    exact ⟨_, rfl, writeDone_split h hdone rfl⟩
  · rw [if_pos hdone, if_neg hdone]
    exact writeFailed_split h hpolicy hev hdone rfl

/-- A flush, whether it is postponed or not. -/
theorem flushAppendOnlyFile_split (h : Split s log) (hpolicy : cfg.aofFsync ≠ .always)
    (hev : writes cfg ev s → ev.Possible s.aofBuf) :
    ∃ s', flushAppendOnlyFile cfg ev s = some s' ∧ Split s' log ∧ s'.lastWriteStatus =
      if writes cfg ev s then if ev.nwritten = s.aofBuf.length then .ok else .err
      else s.lastWriteStatus := by
  rw [flushAppendOnlyFile]
  by_cases hnil : s.aofBuf = []
  · exact ⟨s, if_pos hnil, h, by simp [writes, hnil]⟩
  rw [if_neg hnil]
  by_cases hpostpones : postpones cfg ev s
  · refine ⟨_, if_pos hpostpones, ?_, ?_⟩
    · split
      · exact ⟨h.bytes, h.size, h.short⟩
      · exact h
    · have hwrites : writes cfg ev s = false := by simp [writes, hpostpones]
      rw [hwrites]
      split
      · rfl
      · rfl
  have hwrites : writes cfg ev s = true := by simp [writes, hnil, hpostpones]
  rw [if_neg hpostpones, if_pos hwrites]
  split
  · exact writeBuf_split (s := { s with delayedFsync := s.delayedFsync + 1 })
      ⟨h.bytes, h.size, h.short⟩ hpolicy (hev hwrites)
  · exact writeBuf_split h hpolicy (hev hwrites)

end Calls

/-! ## What a run does -/

/-- A call that can happen: what `write` returns. -/
def AofCall.Possible (cfg : AofConfig) (t : AofTrace) : AofCall → Prop
  | .feed .. => True
  | .flush ev => writes cfg ev t.server → ev.Possible t.server.aofBuf

/-- What is fed does not make the buffer longer than an `int` can say. -/
def AofCall.Short (t : AofTrace) : AofCall → Prop
  | .feed now cmd dictid argv =>
    (t.server.aofBuf ++ fedBytes now cmd dictid argv t.server.selectedDb).length < 2 ^ 31
  | .flush _ => True

/-- The runs from a file that was loaded, where every call satisfies `ok`. -/
inductive AofTrace.Reached (cfg : AofConfig) (ok : AofTrace → AofCall → Prop)
    (file : Bytes) : AofTrace → Prop where
  | init {server : AofServer} (hfile : server.file = file) (hbuf : server.aofBuf = [])
      (hsize : server.currentSize = file.length) (hstatus : server.lastWriteStatus = .ok) :
      Reached cfg ok file ⟨server, [], none⟩
  | step {t t' : AofTrace} {call : AofCall} (h : Reached cfg ok file t)
      (hpossible : call.Possible cfg t) (hok : ok t call) (hstep : t.step cfg call = some t') :
      Reached cfg ok file t'

/-- The file and the buffer are what was fed, the size is that of the file, and the status says
whether the last write has completed. -/
structure AofTrace.Logged (file : Bytes) (t : AofTrace) : Prop where
  bytes : t.server.file ++ t.server.aofBuf = file ++ t.fed
  size : t.server.currentSize = t.server.file.length
  status : t.server.lastWriteStatus = .err ↔ t.lastWrite = some false

structure AofTrace.Inv (file : Bytes) (t : AofTrace) : Prop where
  split : Split t.server (file ++ t.fed)
  status : t.server.lastWriteStatus = .err ↔ t.lastWrite = some false

section Runs

variable {cfg : AofConfig} {file : Bytes} {t t' : AofTrace}

theorem AofTrace.step_feed {now : Int64} {cmd : Proc} {dictid : Int} {argv : List Bytes}
    (h : (t.server.aofBuf ++ fedBytes now cmd dictid argv t.server.selectedDb).length < 2 ^ 32) :
    t.step cfg (.feed now cmd dictid argv) = some
      { server := { t.server with
          selectedDb := dictid
          aofBuf := t.server.aofBuf ++ fedBytes now cmd dictid argv t.server.selectedDb }
        fed := t.fed ++ fedBytes now cmd dictid argv t.server.selectedDb
        lastWrite := t.lastWrite } := by
  simp only [AofTrace.step, sdscatlen_of_lt h]

theorem AofTrace.Inv.step (h : t.Inv file) (hpolicy : cfg.aofFsync ≠ .always) {call : AofCall}
    (hpossible : call.Possible cfg t) (hshort : call.Short t) :
    ∃ t', t.step cfg call = some t' ∧ t'.Inv file := by
  cases call with
  | feed now cmd dictid argv =>
    have hlt : (t.server.aofBuf ++
        fedBytes now cmd dictid argv t.server.selectedDb).length < 2 ^ 31 := hshort
    refine ⟨_, AofTrace.step_feed (by omega), ⟨?_, h.split.size, hlt⟩, h.status⟩
    dsimp only
    rw [← append_assoc, h.split.bytes, append_assoc]
  | flush ev =>
    obtain ⟨s', hs', hsplit, hstatus⟩ := flushAppendOnlyFile_split h.split hpolicy hpossible
    refine ⟨⟨s', t.fed, _⟩, by rw [AofTrace.step, hs']; rfl, hsplit, ?_⟩
    dsimp only
    rw [hstatus]
    split
    · simp
    · exact h.status

theorem AofTrace.Reached.inv (hpolicy : cfg.aofFsync ≠ .always)
    (h : t.Reached cfg (fun t call => call.Short t) file) : t.Inv file := by
  induction h with
  | init hfile hbuf hsize hstatus =>
    refine ⟨⟨?_, ?_, ?_⟩, ?_⟩
    · rw [hfile, hbuf]
    · rw [hsize, hfile]
    · rw [hbuf]
      decide
    · simp [hstatus]
  | step _ hpossible hshort hstep ih =>
    obtain ⟨t', ht', hinv⟩ := ih.step hpolicy hpossible hshort
    obtain rfl := Option.some.inj (ht'.symm.trans hstep)
    exact hinv

/-- The file and the buffer are the log of what was fed, as long as the buffer is shorter than
2³¹ bytes. -/
theorem AofTrace.Reached.logged (hpolicy : cfg.aofFsync ≠ .always)
    (h : t.Reached cfg (fun t call => call.Short t) file) : t.Logged file := by
  obtain ⟨hsplit, hstatus⟩ := h.inv hpolicy
  exact ⟨hsplit.bytes, hsplit.size, hstatus⟩

end Runs

/-- A server that starts with an empty file. -/
def emptyServer : AofServer := ⟨[], [], 0, 0, .ok, 0, 0, 0⟩

def everysec : AofConfig := ⟨.everysec, false⟩

/-- `SET k v`. -/
def shortSet : List Bytes := [str "SET", str "k", str "v"]

/-- A write of ten bytes that cannot be undone, and a write of the rest. -/
theorem logged_shortSet :
    ((⟨{ emptyServer with file := commandBytes shortSet, currentSize := 27 },
      commandBytes shortSet, some true⟩ : AofTrace).Logged []) := by
  have hpolicy : everysec.aofFsync ≠ .always := by decide
  refine AofTrace.Reached.logged hpolicy ?_
  have hfed : AofTrace.step everysec ⟨emptyServer, [], none⟩ (.feed 0 .set 0 shortSet) =
      some ⟨{ emptyServer with aofBuf := commandBytes shortSet }, commandBytes shortSet, none⟩ := by
    decide
  have hshort : AofTrace.step everysec
      ⟨{ emptyServer with aofBuf := commandBytes shortSet }, commandBytes shortSet, none⟩
      (.flush ⟨false, 0, false, false, 10, false⟩) =
      some ⟨{ emptyServer with
        file := (commandBytes shortSet).take 10
        aofBuf := (commandBytes shortSet).drop 10
        currentSize := 10
        lastWriteStatus := .err }, commandBytes shortSet, some false⟩ := by
    decide
  have hrest : AofTrace.step everysec ⟨{ emptyServer with
        file := (commandBytes shortSet).take 10
        aofBuf := (commandBytes shortSet).drop 10
        currentSize := 10
        lastWriteStatus := .err }, commandBytes shortSet, some false⟩
      (.flush ⟨false, 0, false, false, 17, false⟩) =
      some ⟨{ emptyServer with file := commandBytes shortSet, currentSize := 27 },
        commandBytes shortSet, some true⟩ := by
    decide
  have h0 : AofTrace.Reached everysec (fun t call => call.Short t) [] ⟨emptyServer, [], none⟩ :=
    .init rfl rfl rfl rfl
  refine AofTrace.Reached.step (AofTrace.Reached.step (h0.step ?_ ?_ hfed) ?_ ?_ hshort) ?_ ?_ hrest
  · trivial
  · show (_ : Nat) < _
    decide
  · exact fun _ => ⟨by decide, by decide⟩
  · trivial
  · exact fun _ => ⟨by decide, by decide⟩
  · trivial

section Long

variable {v : Bytes}

/-- The bytes of `SET k` with a value of 512 MB. -/
theorem length_setBytes (hv : v.length = 2 ^ 29) :
    (commandBytes [str "SET", str "k", v]).length = 2 ^ 29 + 34 := by
  have hargc : (numLine 42 [str "SET", str "k", v].length ++ crlf).length = 4 := by
    rw [length_cons, length_cons, length_singleton]
    decide
  have hname : (argBytes [str "SET", str "k"]).length = 16 := by decide
  have hlen : (numLine 36 (2 ^ 29) ++ crlf ++ crlf).length = 14 := by decide
  have hsplit : argBytes [str "SET", str "k", v] =
      argBytes [str "SET", str "k"] ++ (numLine 36 (2 ^ 29) ++ (crlf ++ (v ++ crlf))) := by
    simp [argBytes, hv]
  simp only [length_append] at hargc hlen
  rw [commandBytes, hsplit]
  simp only [length_append, hv]
  omega

theorem fedBytes_set (hv : v.length = 2 ^ 29) :
    fedBytes 0 .set 0 [str "SET", str "k", v] 0 = commandBytes [str "SET", str "k", v] := by
  have hwf : WellFormed [str "SET", str "k", v] := by
    refine ⟨cons_ne_nil _ _, by simp, fun a ha => ?_⟩
    simp only [mem_cons, not_mem_nil, or_false] at ha
    rcases ha with rfl | rfl | rfl
    · decide
    · decide
    · omega
  simpa [fedBytes, feedAppendOnlyFile] using catAppendOnlyGenericCommand_eq hwf []

/-- The buffer after some of these commands, which no flush has written. -/
def filled (v : Bytes) (k : Nat) : AofTrace :=
  let bytes := (replicate k (commandBytes [str "SET", str "k", v])).flatten
  ⟨{ emptyServer with aofBuf := bytes }, bytes, none⟩

theorem length_filled (hv : v.length = 2 ^ 29) (k : Nat) :
    (filled v k).server.aofBuf.length = k * (2 ^ 29 + 34) := by
  rw [filled, length_flatten, map_replicate, length_setBytes hv, sum_replicate_nat]

theorem filled_reached (hv : v.length = 2 ^ 29) {k : Nat} (hk : k ≤ 7) :
    AofTrace.Reached everysec (fun _ _ => True) [] (filled v k) := by
  induction k with
  | zero => exact .init rfl rfl rfl rfl
  | succ k ih =>
    have hbytes : (filled v (k + 1)).server.aofBuf =
        (filled v k).server.aofBuf ++ commandBytes [str "SET", str "k", v] := by
      simp only [filled, replicate_succ', flatten_append, flatten_singleton]
    have hlength := length_filled hv (k + 1)
    have hstep : (filled v k).step everysec (.feed 0 .set 0 [str "SET", str "k", v]) =
        some (filled v (k + 1)) := by
      have hselected : (filled v k).server.selectedDb = 0 := rfl
      have hlt : ((filled v k).server.aofBuf ++
          fedBytes 0 .set 0 [str "SET", str "k", v] 0).length < 2 ^ 32 := by
        rw [fedBytes_set hv, ← hbytes, hlength]
        omega
      have hfed : (filled v k).fed ++ commandBytes [str "SET", str "k", v] =
          (filled v (k + 1)).fed := hbytes.symm
      rw [AofTrace.step_feed hlt, hselected, fedBytes_set hv, ← hbytes, hfed]
      rfl
    refine (ih (by omega)).step ?_ trivial hstep
    trivial

/-- A write of the whole buffer counts as a short write, when an `int` cannot say its length. -/
theorem flushAppendOnlyFile_wrapped {cfg : AofConfig} {ev : Flush} {s : AofServer}
    (hpolicy : cfg.aofFsync ≠ .always) (hsync : ev.fsyncPending = false) (hnil : s.aofBuf ≠ [])
    (hundone : ev.ftruncateOk = true) (hdone : ev.nwritten = s.aofBuf.length)
    (hint : toInt s.aofBuf.length ≠ s.aofBuf.length) :
    writes cfg ev s ∧ ∃ s', flushAppendOnlyFile cfg ev s = some s' ∧ s'.lastWriteStatus = .err := by
  have hpostpones : postpones cfg ev s = false := by simp [postpones, syncInProgress, hsync]
  have hsyncing : syncInProgress cfg ev = false := by simp [syncInProgress, hsync]
  refine ⟨by simp [writes, hnil, hpostpones], ?_⟩
  rw [flushAppendOnlyFile, if_neg hnil, if_neg (by simp [hpostpones]), if_neg (by simp [hsyncing]),
    writeBuf]
  rw [if_pos (by rw [hdone]; exact hint.symm), writeFailed_undone hpolicy (by omega) hundone]
  exact ⟨_, rfl, rfl⟩

/-- Four of these commands are more than 2³¹ bytes: a write of all of them counts as a short
write. -/
theorem not_logged : ¬ ∀ (cfg : AofConfig) (file : Bytes) (t : AofTrace),
    cfg.aofFsync ≠ .always → AofTrace.Reached cfg (fun _ _ => True) file t → t.Logged file := by
  intro hall
  obtain ⟨v, hv⟩ : ∃ v : Bytes, v.length = 2 ^ 29 := ⟨replicate (2 ^ 29) 0, length_replicate⟩
  have hlength := length_filled hv 4
  have hreached := filled_reached hv (show 4 ≤ 7 by decide)
  have hnil : (filled v 4).server.aofBuf ≠ [] := by
    rw [← length_pos_iff, hlength]
    decide
  have hint : toInt (filled v 4).server.aofBuf.length ≠ (filled v 4).server.aofBuf.length := by
    rw [hlength]
    decide
  -- `write` returns the length of the buffer
  obtain ⟨ev, hev⟩ : ∃ ev : Flush, ev =
      ⟨false, 0, false, false, (filled v 4).server.aofBuf.length, true⟩ := ⟨_, rfl⟩
  have hdone : ev.nwritten = (filled v 4).server.aofBuf.length := by rw [hev]
  have hflush : writes everysec ev (filled v 4).server ∧
      ∃ s, flushAppendOnlyFile everysec ev (filled v 4).server = some s ∧ s.lastWriteStatus = .err :=
    flushAppendOnlyFile_wrapped (by decide) (by rw [hev]) hnil (by rw [hev]) hdone hint
  obtain ⟨hwrites, s, hs, hstatus⟩ := hflush
  have hstep : (filled v 4).step everysec (.flush ev) = some ⟨s, (filled v 4).fed, some true⟩ := by
    rw [AofTrace.step, hs]
    simp [hwrites, hdone]
  have hpossible : AofCall.Possible everysec (filled v 4) (.flush ev) :=
    fun _ => ⟨by omega, hdone.le⟩
  have hlogged := hall _ _ _ (by decide) (hreached.step hpossible trivial hstep)
  have hincomplete : (some true : Option Bool) = some false := hlogged.status.mp hstatus
  cases hincomplete

end Long

end Redis.Aof
