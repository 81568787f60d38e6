import Mathlib.Data.List.ReduceOption
import Mathlib.Data.List.TakeWhile
import Redis.Replication.Resume
import Redis.Replication.Snapshot

/-!
# Redis.Replication.Replay

A replica loads the RDB that it was sent and executes what was queued for it behind it.
The database in which a command is executed is only in the `SELECT` commands of the
stream, and there is one `slaveseldb` for all replicas.
-/

namespace Redis.Replication

open List

variable {δ : Type}

/-! ## The commands of the stream -/

/-- "SELECT". -/
def selectName : Bytes := [83, 69, 76, 69, 67, 84]

/-- "PING". -/
def pingName : Bytes := [80, 73, 78, 71]

/-- `getLongLongFromObject` of an sds: `strtoll` must stop at the null byte, and the first
byte must not be a space. -/
def getLongLongFromObject (s : Bytes) : Option Int :=
  let s := s.takeWhile (· ≠ 0)
  let (negative, digits) := match s with
    | 45 :: digits => (true, digits)
    | 43 :: digits => (false, digits)
    | digits => (false, digits)
  if s = [] then some 0
  else if digits = [] ∨ ¬ digits.all (fun b => 48 ≤ b && b ≤ 57) then none
  else
    let v : Int := (digits.foldl (fun v b => v * 10 + (b.toNat - 48)) 0 : Nat)
    let v := if negative then -v else v
    if -2 ^ 63 ≤ v ∧ v < 2 ^ 63 then some v else none

/-- `selectDb`; the argument is an `int`. -/
def selectDb (dbnum : Nat) (id : Int) (db : Int) : Int :=
  let id := id.bmod (2 ^ 32)
  if id < 0 ∨ id ≥ dbnum then db else id

/-- `selectCommand`, without the replies. -/
def selectCommand (dbnum : Nat) (arg : Bytes) (db : Int) : Int :=
  match getLongLongFromObject arg with
  | some id => selectDb dbnum id db
  | none => db

/-- What a replica does with a command of its master, in the database that is selected:
`SELECT`, `PING`, or a write. -/
def replicaCommand (dbnum : Nat) (exec : Int → List Bytes → δ → δ)
    (argv : List Bytes) (db : Int) (data : δ) : Int × δ :=
  match argv with
  | [] => (db, data)
  | name :: args =>
    if Bus.strcaseEq name selectName then
      match args with
      | [arg] => (selectCommand dbnum arg db, data)
      | _ => (db, data)
    else if Bus.strcaseEq name pingName then (db, data)
    else (db, exec db argv data)

theorem getLongLongFromObject_decimal {n : Nat} (h : n < 2 ^ 63) :
    getLongLongFromObject (decimal n) = some (n : Int) := by
  have hmem : ∀ b ∈ decimal n, 48 ≤ b ∧ b ≤ 57 := by
    intro b hb
    have := mem_decimal hb
    simp only [UInt8.le_iff_toNat_le, UInt8.reduceToNat]
    exact this
  have htake : (decimal n).takeWhile (· ≠ 0) = decimal n := by
    rw [takeWhile_eq_self_iff]
    intro b hb
    rw [decide_eq_true_iff]
    rintro rfl
    exact absurd (hmem 0 hb).1 (by decide)
  have hsign (l : List UInt8) : (∀ b ∈ l, 48 ≤ b ∧ b ≤ 57) → (match l with
      | 45 :: digits => (true, digits)
      | 43 :: digits => (false, digits)
      | digits => (false, digits)) = (false, l) := by
    intro hl
    split
    next => exact absurd (hl 45 mem_cons_self).1 (by decide)
    next => exact absurd (hl 43 mem_cons_self).1 (by decide)
    next => rfl
  have hall : (decimal n).all (fun b => 48 ≤ b && b ≤ 57) = true := by
    rw [all_eq_true]
    intro b hb
    simpa using hmem b hb
  simp only [getLongLongFromObject, htake, hsign (decimal n) hmem]
  rw [if_neg (decimal_ne_nil n), if_neg (by simp [decimal_ne_nil, hall]), foldl_decimal]
  simp only [Bool.false_eq_true, if_false]
  rw [if_pos (by omega)]

theorem selectCommand_ll2string {dbnum : Nat} {dictid : Int} (h₀ : 0 ≤ dictid)
    (hnum : dictid < dbnum) (hint : dictid < 2 ^ 31) (db : Int) :
    selectCommand dbnum (ll2string dictid) db = dictid := by
  obtain ⟨n, rfl⟩ := Int.eq_ofNat_of_zero_le h₀
  have hbmod : (n : Int).bmod (2 ^ 32) = n := Int.bmod_eq_of_le (by omega) (by omega)
  rw [selectCommand, ll2string_natCast (by omega), getLongLongFromObject_decimal (by omega)]
  simp only
  rw [selectDb, hbmod, if_neg (by omega)]

theorem replicaCommand_select {dbnum : Nat} {exec : Int → List Bytes → δ → δ}
    {dictid db : Int} {data : δ} (h₀ : 0 ≤ dictid) (hnum : dictid < dbnum)
    (hint : dictid < 2 ^ 31) :
    replicaCommand dbnum exec [selectName, ll2string dictid] db data = (dictid, data) := by
  have hname : Bus.strcaseEq selectName selectName = true := by decide
  simp only [replicaCommand, hname, if_true]
  rw [selectCommand_ll2string h₀ hnum hint]

theorem replicaCommand_ping {dbnum : Nat} {exec : Int → List Bytes → δ → δ} {db : Int}
    {data : δ} : replicaCommand dbnum exec [pingName] db data = (db, data) := by
  have hselect : Bus.strcaseEq pingName selectName = false := by decide
  have hping : Bus.strcaseEq pingName pingName = true := by decide
  simp [replicaCommand, hselect, hping]

/-- The commands that are propagated as writes. -/
structure WriteCommand (dbnum : Nat) (dictid : Int) (argv : List Bytes) : Prop where
  wellFormed : WellFormed argv
  dictid_nonneg : 0 ≤ dictid
  dictid_lt : dictid < dbnum
  dictid_int : dictid < 2 ^ 31
  not_select : ∀ name args, argv = name :: args → Bus.strcaseEq name selectName = false
  not_ping : ∀ name args, argv = name :: args → Bus.strcaseEq name pingName = false

theorem replicaCommand_write {dbnum : Nat} {exec : Int → List Bytes → δ → δ} {dictid db : Int}
    {argv : List Bytes} {data : δ} (h : WriteCommand dbnum dictid argv) :
    replicaCommand dbnum exec argv db data = (db, exec db argv data) := by
  cases argv with
  | nil => exact absurd rfl h.wellFormed.ne_nil
  | cons name args =>
    simp [replicaCommand, h.not_select name args rfl, h.not_ping name args rfl]

/-! ## The bytes of the stream -/

theorem command_eq_encode (argv : List Robj) : command argv = encode (argv.map (·.bytes)) := by
  rw [encode, command, command, length_map, length_map, flatMap_map,
    flatMap_map]
  rfl

/-- The digits of a database. -/
theorem length_ll2string_le {dictid : Int} (h₀ : 0 ≤ dictid) (hint : dictid < 2 ^ 31) :
    (ll2string dictid).length ≤ 10 := by
  obtain ⟨n, rfl⟩ := Int.eq_ofNat_of_zero_le h₀
  rw [ll2string_natCast (by omega)]
  exact length_decimal_le (k := 9) (by omega)

theorem selectCmd_eq_encode {dictid : Int} (h₀ : 0 ≤ dictid) (hint : dictid < 2 ^ 31) :
    selectCmd dictid = encode [selectName, ll2string dictid] := by
  have hlen := length_ll2string_le h₀ hint
  have hcount : ll2string (([Robj.raw selectName, .raw (ll2string dictid)].length : Nat) : Int) =
      [50] := show ll2string ((2 : Nat) : Int) = [50] by decide
  have hname : ll2string ((selectName.length : Nat) : Int) = [54] :=
    show ll2string ((6 : Nat) : Int) = [54] by decide
  have harg : ll2string (((ll2string dictid).length : Nat) : Int) =
      decimal (ll2string dictid).length := ll2string_natCast (by omega)
  simp only [encode, command, map_cons, map_nil, hcount, flatMap_cons,
    flatMap_nil, bulk, stringObjectLen, Robj.bytes, hname, harg]
  simp [selectCmd, selectName, crlf]

theorem wellFormed_ping : WellFormed [pingName] := ⟨by simp, by simp, by simp [pingName]⟩

theorem wellFormed_select {dictid : Int} (h₀ : 0 ≤ dictid) (hint : dictid < 2 ^ 31) :
    WellFormed [selectName, ll2string dictid] := by
  have hlen := length_ll2string_le h₀ hint
  refine ⟨by simp, by simp, ?_⟩
  simp only [mem_cons, not_mem_nil, or_false, forall_eq_or_imp, forall_eq]
  exact ⟨by simp [selectName], by omega⟩

/-! ## The condition -/

/-- What is propagated as a write is one. -/
def Event.Regular (dbnum : Nat) : Event → Prop
  | .write dictid argv => WriteCommand dbnum dictid (argv.map (·.bytes))
  | _ => True

/-- No `SELECT` is emitted while a replica waits for a BGSAVE to start. -/
def Event.Quiet (sv : Server δ) : Event → Prop
  | .write dictid _ => sv.slaveseldb = dictid ∨
      ∀ c ∈ sv.slaves, c.replstate ≠ .waitBgsaveStart
  | _ => True

/-- The condition on an event. -/
def Faithful (dbnum : Nat) (sv : Server δ) (ev : Event) : Prop :=
  ev.Safe sv ∧ ev.Regular dbnum ∧ ev.Quiet sv

/-! ## The invariant -/

section

variable (dbnum : Nat) (exec : Int → List Bytes → δ → δ)

/-- The queue of the replica leads from `d` to `d'`, and to the database of `seldb`
unless the next write selects one. -/
def Client.Leads (c : Client) (seldb : Int) (d d' : δ) : Prop :=
  ∃ cmds db, (∀ cmd ∈ cmds, WellFormed cmd) ∧ c.queued = cmds.flatMap encode ∧
    execAll (replicaCommand dbnum exec) cmds (0, d) = (db, d') ∧ (seldb = -1 ∨ seldb = db)

/-- The snapshot that the replica has got or will get. -/
def Snapshot (sv : Server δ) (c : Client) (f : Fork δ) : Prop :=
  (c.replstate = .waitBgsaveEnd ∧ ∃ child, sv.rdbChild = some child ∧
    sv.forks[child.pid]? = some f) ∨ ∃ pid, c.rdb = some pid ∧ sv.forks[pid]? = some f

/-- The invariant of a replica.  What was queued before the differences were recorded is
nothing in a quiet run, and `SELECT` commands otherwise. -/
structure Client.Replays (quiet : Prop) (sv : Server δ) (c : Client) : Prop where
  start : c.replstate = .waitBgsaveStart →
    (∀ d, c.Leads dbnum exec sv.slaveseldb d d) ∧ (quiet → c.queued = [])
  snapshot : ∀ f, Snapshot sv c f → c.Leads dbnum exec sv.slaveseldb f.data sv.data ∧
    (quiet → c.queued = (sv.stream.drop f.offset).reduceOption)
  written : c.replstate = .waitBgsaveStart ∨ c.replstate = .waitBgsaveEnd → c.written = []

end

section

variable {dbnum : Nat} {exec : Int → List Bytes → δ → δ} {ok : Server δ → Event → Prop}
  {quiet : Prop} {sv sv' : Server δ} {c c' : Client} {seldb seldb' : Int} {d d' d'' : δ}

theorem Client.Leads.nil (hq : c.queued = []) (d : δ) : c.Leads dbnum exec (-1) d d :=
  ⟨[], 0, by simp, by simp [hq], rfl, .inl rfl⟩

theorem Client.Leads.congr (h : c.Leads dbnum exec seldb d d') (hq : c'.queued = c.queued)
    (hsel : seldb' = seldb ∨ seldb' = -1) : c'.Leads dbnum exec seldb' d d' := by
  obtain ⟨cmds, db, hwf, hcmds, hexec, hseldb⟩ := h
  refine ⟨cmds, db, hwf, hq.trans hcmds, hexec, ?_⟩
  rcases hsel with rfl | rfl
  · exact hseldb
  · exact .inl rfl

/-- Commands are queued behind the others. -/
theorem Client.Leads.append (h : c.Leads dbnum exec seldb d d') {more : List (List Bytes)}
    (hwf : ∀ cmd ∈ more, WellFormed cmd) (hq : c'.queued = c.queued ++ more.flatMap encode)
    (hmore : ∀ db, seldb = -1 ∨ seldb = db →
      ∃ db', execAll (replicaCommand dbnum exec) more (db, d') = (db', d'') ∧
        (seldb' = -1 ∨ seldb' = db')) : c'.Leads dbnum exec seldb' d d'' := by
  obtain ⟨cmds, db, hwf', hcmds, hexec, hseldb⟩ := h
  obtain ⟨db', hexec', hseldb'⟩ := hmore db hseldb
  refine ⟨cmds ++ more, db', ?_, by simp [hq, hcmds], by rw [execAll_append, hexec, hexec'], hseldb'⟩
  intro cmd hcmd
  rcases mem_append.mp hcmd with hcmd | hcmd
  · exact hwf' cmd hcmd
  · exact hwf cmd hcmd

theorem Client.Replays.congr (h : c.Replays dbnum exec quiet sv) (hq : c'.queued = c.queued)
    (hsel : sv'.slaveseldb = sv.slaveseldb ∨ sv'.slaveseldb = -1) (hdata : sv'.data = sv.data)
    (hstream : sv'.stream = sv.stream)
    (hstart : c'.replstate = .waitBgsaveStart → c.replstate = .waitBgsaveStart)
    (hsnap : ∀ f, Snapshot sv' c' f → Snapshot sv c f)
    (hwritten : c'.replstate = .waitBgsaveStart ∨ c'.replstate = .waitBgsaveEnd →
      c'.written = []) : c'.Replays dbnum exec quiet sv' where
  start hs := by
    obtain ⟨hleads, hquiet⟩ := h.start (hstart hs)
    exact ⟨fun d => (hleads d).congr hq hsel, fun hqt => hq.trans (hquiet hqt)⟩
  snapshot f hf := by
    obtain ⟨hleads, hquiet⟩ := h.snapshot f (hsnap f hf)
    rw [hdata, hstream, hq]
    exact ⟨hleads.congr hq hsel, hquiet⟩
  written := hwritten

/-- A step that leaves the replica, the child and the forks as they are. -/
theorem Client.Replays.same (h : c.Replays dbnum exec quiet sv)
    (hsel : sv'.slaveseldb = sv.slaveseldb ∨ sv'.slaveseldb = -1) (hdata : sv'.data = sv.data)
    (hstream : sv'.stream = sv.stream) (hchild : sv'.rdbChild = sv.rdbChild)
    (hforks : sv'.forks = sv.forks) : c.Replays dbnum exec quiet sv' := by
  refine h.congr rfl hsel hdata hstream (fun hs => hs) (fun f hf => ?_) h.written
  rwa [Snapshot, hchild, hforks] at hf

/-- A replica whose RDB has been sent, or that has written out a part of its queue. -/
theorem Client.Replays.alike (h : c.Replays dbnum exec quiet sv) (ha : c.Alike c')
    (hslaves : sv' = { sv with slaves := sv'.slaves }) : c'.Replays dbnum exec quiet sv' := by
  have hstate : c'.replstate ≠ .online → c'.replstate = c.replstate :=
    fun hne => ha.replstate.resolve_right fun hr => hne hr.2
  rw [hslaves]
  refine h.congr ha.queued (.inl rfl) rfl rfl (fun hs => ?_) (fun f hf => ?_) fun hs => ?_
  · rw [← hstate (by simp [hs]), hs]
  · rw [Snapshot, ha.rdb] at hf
    rcases hf with ⟨hend, hf⟩ | hf
    · exact .inl ⟨by rw [← hstate (by simp [hend]), hend], hf⟩
    · exact .inr hf
  · have hne : c'.replstate ≠ .online := by rcases hs with hs | hs <;> simp [hs]
    rw [ha.written (hstate hne ▸ hne), h.written (hstate hne ▸ hs)]

/-- The bytes that are appended to the stream are queued for a replica that has a
snapshot. -/
theorem reduceOption_drop_append {stream : List (Option UInt8)} {n : Nat} (hn : n ≤ stream.length)
    (p : Bytes) :
    ((stream ++ p.map some).drop n).reduceOption = (stream.drop n).reduceOption ++ p := by
  rw [drop_append_of_le_length hn, reduceOption_append]
  congr 1
  induction p with
  | nil => rfl
  | cons b p ih => rw [map_cons, reduceOption_cons_of_some, ih]

theorem Snapshot.offset_le {f : Fork δ} (h : Snapshot sv c f) (hrec : Recording sv) :
    f.offset ≤ sv.stream.length := by
  rcases h with ⟨-, child, -, hf⟩ | ⟨pid, -, hf⟩
  · exact hrec.offset_le f (mem_of_getElem? hf)
  · exact hrec.offset_le f (mem_of_getElem? hf)

/-- The commands of a call of `replicationFeedSlaves`: those that any replica is queued, and
the one that only those with a snapshot are. -/
structure Feeds (dbnum : Nat) (exec : Int → List Bytes → δ → δ) (sv : Server δ)
    (dictid : Int) (argv : List Robj) (data : δ) : Prop where
  select : ∀ d, ∃ more, (∀ cmd ∈ more, WellFormed cmd) ∧
    selectBytes sv.toMaster dictid = more.flatMap encode ∧
    ∀ db, sv.slaveseldb = -1 ∨ sv.slaveseldb = db →
      ∃ db', execAll (replicaCommand dbnum exec) more (db, d) = (db', d) ∧
        (dictid = -1 ∨ dictid = db')
  wellFormed : WellFormed (argv.map (·.bytes))
  command : ∀ db, dictid = -1 ∨ dictid = db →
    replicaCommand dbnum exec (argv.map (·.bytes)) db sv.data = (db, data)

variable {argv : List Robj}

theorem feeds_write {dictid : Int} (h : WriteCommand dbnum dictid (argv.map (·.bytes))) :
    Feeds dbnum exec sv dictid argv (exec dictid (argv.map (·.bytes)) sv.data) where
  select d := by
    have h₀ := h.dictid_nonneg
    by_cases hsel : sv.slaveseldb = dictid
    · refine ⟨[], by simp, by simp [selectBytes, hsel], fun db hdb => ⟨db, rfl, ?_⟩⟩
      rwa [hsel] at hdb
    · refine ⟨[[selectName, ll2string dictid]], ?_, ?_, fun db _ => ⟨dictid, ?_, .inr rfl⟩⟩
      · simpa using wellFormed_select h₀ h.dictid_int
      · rw [selectBytes, if_pos hsel, selectCmd_eq_encode h₀ h.dictid_int]
        simp
      · exact @replicaCommand_select δ dbnum exec dictid db d h₀ h.dictid_lt h.dictid_int
  wellFormed := h.wellFormed
  command db hdb := by
    have h₀ := h.dictid_nonneg
    obtain rfl : dictid = db := hdb.resolve_left (by omega)
    exact replicaCommand_write h

theorem feeds_ping : Feeds dbnum exec sv sv.slaveseldb pingArgv sv.data where
  select d := ⟨[], by simp, by simp [selectBytes], fun db hdb => ⟨db, rfl, hdb⟩⟩
  wellFormed := wellFormed_ping
  command db _ := replicaCommand_ping

theorem queued_callClient_of_open (h : c.closeAfterReply = false) (m : Master) (dictid : Int)
    (argv : List Robj) : (callClient m dictid argv c).queued = c.queued ++
      (selectBytes m dictid ++
        if c.replstate = .waitBgsaveStart then [] else command argv) := by
  rw [callClient, queued_addReplyString, h]
  rfl

/-- A call of `replicationFeedSlaves`. -/
theorem Client.Replays.call (h : c.Replays dbnum exec quiet sv) (hrec : Recording sv)
    (hc : c ∈ sv.slaves) {dictid : Int} {data : δ} (hfeeds : Feeds dbnum exec sv dictid argv data)
    (hquiet : quiet → c.replstate = .waitBgsaveStart → sv.slaveseldb = dictid)
    (hsel : sv'.slaveseldb = dictid) (hdata : sv'.data = data)
    (hstream : sv'.stream = sv.stream ++ (callBytes sv.toMaster dictid argv).map some)
    (hchild : sv'.rdbChild = sv.rdbChild) (hforks : sv'.forks = sv.forks) :
    (callClient sv.toMaster dictid argv c).Replays dbnum exec quiet sv' := by
  have hq := queued_callClient_of_open (hrec.closeAfterReply c hc) sv.toMaster dictid argv
  refine ⟨fun hs => ?_, fun f hf => ?_, fun hs => ?_⟩
  · rw [callClient_replstate] at hs
    obtain ⟨hleads, hempty⟩ := h.start hs
    rw [if_pos hs, append_nil] at hq
    refine ⟨fun d => ?_, fun hqt => ?_⟩
    · obtain ⟨more, hwf, hmore, hexec⟩ := hfeeds.select d
      rw [hmore] at hq
      rw [hsel]
      exact (hleads d).append hwf hq hexec
    · rw [hq, hempty hqt, selectBytes_eq_nil.mpr (hquiet hqt hs)]
      rfl
  · have hf' : Snapshot sv c f := by
      simpa [Snapshot, callClient, hchild, hforks] using hf
    have hne : c.replstate ≠ .waitBgsaveStart := by
      intro hs
      rcases hf' with ⟨hend, -⟩ | ⟨pid, hpid, -⟩
      · simp [hs] at hend
      · simp [hrec.start c hc hs] at hpid
    obtain ⟨hleads, hbytes⟩ := h.snapshot f hf'
    rw [if_neg hne] at hq
    refine ⟨?_, fun hqt => ?_⟩
    · obtain ⟨more, hwf, hmore, hexec⟩ := hfeeds.select sv.data
      rw [hsel, hdata]
      refine hleads.append (?_ : ∀ cmd ∈ more ++ [argv.map (·.bytes)], WellFormed cmd) ?_
        fun db hdb => ?_
      · simpa [or_imp, forall_and] using ⟨hwf, hfeeds.wellFormed⟩
      · rw [hq, hmore, command_eq_encode]
        simp
      · obtain ⟨db', hexec', hdb'⟩ := hexec db hdb
        refine ⟨db', ?_, hdb'⟩
        rw [execAll_append, hexec']
        exact hfeeds.command db' hdb'
    · rw [hq, hbytes hqt, hstream, reduceOption_drop_append (hf'.offset_le hrec)]
      rfl
  · rw [callClient_replstate] at hs
    have := h.written hs
    by_cases hcl : c.closeAfterReply <;> simpa [callClient, addReplyString, hcl] using this

/-- A fork does not change the snapshots that there are. -/
theorem Snapshot.of_forked {type : RdbType} {f : Fork δ} (h : Snapshot (sv.forked type) c f)
    (hrec : Recording sv) (hc : c ∈ sv.slaves) (hnone : sv.rdbChild = none) : Snapshot sv c f := by
  rcases h with ⟨hend, -⟩ | ⟨pid, hpid, hf⟩
  · obtain ⟨child, -, hchild, -⟩ := hrec.waits c hc hend
    rw [hnone] at hchild
    cases hchild
  · obtain ⟨g, hg, -⟩ := hrec.rdb c hc pid hpid
    rw [getElem?_forked hg] at hf
    exact .inr ⟨pid, hpid, hg.trans hf⟩

theorem Client.Replays.forked (h : c.Replays dbnum exec quiet sv) (hrec : Recording sv)
    (hc : c ∈ sv.slaves) (hnone : sv.rdbChild = none) (type : RdbType) :
    c.Replays dbnum exec quiet (sv.forked type) :=
  h.congr rfl (.inl rfl) rfl rfl (fun hs => hs) (fun _ hf => hf.of_forked hrec hc hnone) h.written

/-- The snapshot of a replica that has waited for a BGSAVE to start is the data of now. -/
theorem Client.Replays.record (h : c.Replays dbnum exec quiet sv) (hrec : Recording sv)
    (hc : c ∈ sv.slaves) (hnone : sv.rdbChild = none) (type : RdbType) :
    (c.startRecording sv.stream).Replays dbnum exec quiet (Server.forked type
      { sv with slaves := sv.slaves.map (·.startRecording sv.stream) }) := by
  by_cases hs : c.replstate = .waitBgsaveStart
  · obtain ⟨hleads, hempty⟩ := h.start hs
    rw [startRecording_of_eq hs]
    refine ⟨fun hs' => (nomatch hs'), fun f hf => ?_, fun _ => h.written (.inl hs)⟩
    rcases hf with ⟨-, child, hchild, hf⟩ | ⟨pid, hpid, -⟩
    · cases hchild
      obtain rfl : ⟨sv.stream.length, sv.data⟩ = f := by simpa [Server.forked] using hf
      refine ⟨(hleads sv.data).congr rfl (.inl rfl), fun hqt => ?_⟩
      change c.queued = (sv.stream.drop sv.stream.length).reduceOption
      rw [hempty hqt, drop_length, reduceOption_nil]
    · rw [hrec.start c hc hs] at hpid
      cases hpid
  · rw [startRecording_of_ne hs]
    exact (h.forked hrec hc hnone type).same (.inl rfl) rfl rfl rfl rfl

theorem Client.Replays.ends (h : c.Replays dbnum exec quiet sv) {child : Child}
    {slaves : List Client} (hchild : sv.rdbChild = some child)
    (he : c.Ends child.pid (some c')) :
    c'.Replays dbnum exec quiet { sv with rdbChild := none, slaves } := by
  cases he with
  | other hne =>
    refine h.congr rfl (.inl rfl) rfl rfl (fun hs => hs) (fun f hf => ?_) h.written
    rcases hf with ⟨hend, -⟩ | hf
    · exact absurd hend hne
    · exact .inr hf
  | served _ hend hs hrdb _ hreply hwritten _ _ _ =>
    refine h.congr (by rw [Client.queued, hreply, hwritten, Client.queued]) (.inl rfl) rfl rfl
      (fun hstart => by simp [hstart] at hs) (fun f hf => ?_) (fun hw => by
        rcases hw with hw | hw <;> simp [hw] at hs)
    rcases hf with ⟨hend', -⟩ | ⟨pid, hpid, hf⟩
    · simp [hend'] at hs
    · rw [hrdb] at hpid
      cases hpid
      exact .inl ⟨hend, child, hchild, hf⟩

theorem Attached.replays (ha : Attached c sv sv') (hwf : sv.toMaster.Wf)
    (h : ∀ c ∈ sv.slaves, c.Replays dbnum exec quiet sv)
    (hc : c.Replays dbnum exec quiet sv') :
    ∀ c ∈ sv'.slaves, c.Replays dbnum exec quiet sv' := by
  intro c' hc'
  rw [ha.slaves] at hc'
  rcases mem_append.mp hc' with hc' | hc'
  · exact (h c' hc').same (.inr ha.slaveseldb) ha.data (ha.stream_of_mem hwf hc') ha.rdbChild
      ha.forks
  · rwa [mem_singleton.mp hc']

theorem replays_call (hrec : Recording sv) (h : ∀ c ∈ sv.slaves, c.Replays dbnum exec quiet sv)
    {m : Master} {dictid : Int} {data : δ} (hfeeds : Feeds dbnum exec sv dictid argv data)
    (hquiet : quiet → ∀ c ∈ sv.slaves, c.replstate = .waitBgsaveStart → sv.slaveseldb = dictid)
    (hm : replicationFeedSlaves dictid argv sv.toMaster = some m) :
    ∀ c ∈ m.slaves, c.Replays dbnum exec quiet { sv with toMaster := m, data } := by
  obtain ⟨-, hnil, heq⟩ | ⟨-, m', heq, -, -, hstream, -, hsel, hslaves⟩ :=
    replicationFeedSlaves_spec hrec.wf dictid argv
  · obtain rfl := Option.some.inj (heq.symm.trans hm)
    simp [hnil]
  · obtain rfl := Option.some.inj (heq.symm.trans hm)
    intro c' hc'
    rw [hslaves] at hc'
    obtain ⟨c, hc, rfl⟩ := mem_map.mp hc'
    exact (h c hc).call hrec hc hfeeds (fun hqt hs => hquiet hqt c hc hs) hsel rfl hstream rfl rfl

theorem Micro.replays (hm : Micro exec ok sv sv')
    (hregular : ∀ sv ev, ok sv ev → ev.Regular dbnum)
    (hquiet : quiet → ∀ sv ev, ok sv ev → ev.Quiet sv) (hrec : Recording sv)
    (h : ∀ c ∈ sv.slaves, c.Replays dbnum exec quiet sv) :
    ∀ c ∈ sv'.slaves, c.Replays dbnum exec quiet sv' := by
  cases hm with
  | write dictid argv hok hm =>
    refine replays_call hrec h (feeds_write (hregular _ _ hok)) (fun hqt c hc hs => ?_) hm
    exact (hquiet hqt _ _ hok).resolve_right fun hall => hall c hc hs
  | ping cr _ _ hm => exact replays_call hrec h feeds_ping (fun _ _ _ _ => rfl) hm
  | free p => exact fun c hc => (h c (mem_filter.mp hc).1).same (.inl rfl) rfl rfl rfl rfl
  | modify f hf =>
    intro c' hc'
    obtain ⟨c, hc, rfl⟩ := mem_map.mp hc'
    exact (h c hc).alike (hf c hc) rfl
  | ended child f hchild hf =>
    intro c' hc'
    obtain ⟨c, hc, heq⟩ := mem_filterMap.mp hc'
    exact (h c hc).ends hchild (heq ▸ hf c hc)
  | save hnone => exact fun c hc => (h c hc).forked hrec hc hnone .disk
  | record type hnone _ =>
    intro c' hc'
    obtain ⟨c, hc, rfl⟩ := mem_map.mp hc'
    exact (h c hc).record hrec hc hnone type
  | attachStart c hfresh hstate hreply _ ha =>
    have hq : c.queued = [] := by simp [Client.queued, hfresh.written, hreply]
    refine ha.replays hrec.wf h ⟨fun _ => ⟨fun d => ?_, fun _ => hq⟩, fun f hf => ?_,
      fun _ => hfresh.written⟩
    · rw [ha.slaveseldb]
      exact .nil hq d
    · rcases hf with ⟨hend, -⟩ | ⟨pid, hpid, -⟩
      · simp [hstate] at hend
      · simp [hfresh.rdb] at hpid
  | attachEnd req c child _ _ _ _ _ hfresh hstate hreply _ _ hchild _ hfork ha =>
    have hq : c.queued = [] := by simp [Client.queued, hfresh.written, hreply]
    refine ha.replays hrec.wf h ⟨fun hs => by simp [hstate] at hs, fun f hf => ?_,
      fun _ => hfresh.written⟩
    rcases hf with ⟨-, child', hchild', hf⟩ | ⟨pid, hpid, -⟩
    · rw [ha.rdbChild, hchild] at hchild'
      cases hchild'
      rw [ha.forks, hfork] at hf
      cases hf
      rw [ha.slaveseldb, ha.data]
      refine ⟨.nil hq _, fun _ => ?_⟩
      rcases ha.stream with ⟨hs, -⟩ | ⟨hs, -⟩ <;> simp [hs, hq]
    · simp [hfresh.rdb] at hpid
  | attachCopy req c slave pid _ _ hfresh hstate hmem hend _ hreply _ _ hchild ha =>
    have hslave := h slave hmem
    have hq : c.queued = slave.queued := by
      simp [Client.queued, hfresh.written, hslave.written (.inr hend), hreply]
    refine ha.replays hrec.wf h ((hslave.same (.inr ha.slaveseldb) ha.data
      (ha.stream_of_mem hrec.wf hmem) ha.rdbChild ha.forks).congr hq (.inl rfl) rfl rfl
      (fun hs => by simp [hstate] at hs) (fun f hf => ?_) fun _ => hfresh.written)
    rcases hf with ⟨-, hf⟩ | ⟨pid, hpid, -⟩
    · exact .inl ⟨hend, hf⟩
    · simp [hfresh.rdb] at hpid
  | attachOnline c replicas hfresh hstate _ _ =>
    intro c' hc'
    rcases mem_append.mp hc' with hc' | hc'
    · exact (h c' hc').same (.inl rfl) rfl rfl rfl rfl
    · rw [mem_singleton.mp hc']
      refine ⟨fun hs => by simp [hstate] at hs, fun f hf => ?_, fun _ => hfresh.written⟩
      rcases hf with ⟨hend, -⟩ | ⟨pid, hpid, -⟩
      · simp [hstate] at hend
      · simp [hfresh.rdb] at hpid
  | other hslaves hstream hsel hdata hforks hchild _ =>
    rw [hslaves]
    exact fun c hc => (h c hc).same (.inl hsel) hdata hstream hchild hforks

theorem Micros.replays (hm : Micros exec ok sv sv')
    (hregular : ∀ sv ev, ok sv ev → ev.Regular dbnum)
    (hquiet : quiet → ∀ sv ev, ok sv ev → ev.Quiet sv) (hrec : Recording sv)
    (h : ∀ c ∈ sv.slaves, c.Replays dbnum exec quiet sv) :
    ∀ c ∈ sv'.slaves, c.Replays dbnum exec quiet sv' := by
  induction hm with
  | refl => exact h
  | tail hms hm ih => exact hm.replays hregular hquiet (Micros.recording hms hrec) ih

theorem Server.Reachable.replays (hsafe : ∀ sv ev, ok sv ev → Event.Safe sv ev)
    (hregular : ∀ sv ev, ok sv ev → ev.Regular dbnum)
    (hquiet : quiet → ∀ sv ev, ok sv ev → ev.Quiet sv) (h : Server.Reachable exec ok sv) :
    ∀ c ∈ sv.slaves, c.Replays dbnum exec quiet sv := by
  induction h with
  | init => simp [Server.init]
  | step hr hok hstep ih =>
    have hrec := hr.recording hsafe
    exact (Server.step_micros hrec.wf hok (hsafe _ _ hok) hstep).replays hregular hquiet hrec ih

end

/-! ## The replica -/

section

variable {κ : Type} {processCommand : List Bytes → κ → δ → κ × δ} {initial : Int} {ctx : κ}
  {data : δ} {cmds : List (List Bytes)}

/-- A link that was lost can be resumed. -/
theorem Link.Reachable.connect {l : Link κ δ}
    (h : Link.Reachable processCommand (cmds.flatMap encode) initial ctx data l)
    (hcmds : ∀ cmd ∈ cmds, WellFormed cmd) :
    ∃ l', Link.Reachable processCommand (cmds.flatMap encode) initial ctx data l' ∧
      l'.received = l.received ∧ l'.replica.master.isSome := by
  obtain ⟨c, done, rest, -, hinv⟩ := h.inv hcmds
  rcases hinv.holds with ⟨hm, -⟩ | ⟨hm, hc⟩
  · exact ⟨l, h, rfl, by simp [hm]⟩
  · refine ⟨_, h.step (.resume 0 hm), rfl, ?_⟩
    simp [slaveTryPartialResynchronization, replicationResurrectCachedMaster, hc]

/-- A replica can read the whole stream. -/
theorem Link.exists_received (hcmds : ∀ cmd ∈ cmds, WellFormed cmd) (n : Nat)
    (hn : n ≤ (cmds.flatMap encode).length) :
    ∃ l, Link.Reachable processCommand (cmds.flatMap encode) initial ctx data l ∧
      l.received = n := by
  induction n with
  | zero => exact ⟨_, .init 0 [] 0, rfl⟩
  | succ n ih =>
    obtain ⟨l, hl, hrec⟩ := ih (by omega)
    obtain ⟨l, hl, hrec', hsome⟩ := hl.connect hcmds
    obtain ⟨c, done, rest, hsplit, hinv⟩ := hl.inv hcmds
    have hm : l.replica.master = some c := by
      rcases hinv.holds with ⟨hm, -⟩ | ⟨hm, -⟩
      · exact hm
      · simp [hm] at hsome
    have hcur := hinv.cursor hm
    have hpos := hinv.stuck.short.readlen_pos
    have hle : l.cursor + 1 ≤ (cmds.flatMap encode).length := by omega
    obtain ⟨r, -, -, -, hr, -⟩ := hinv.read (fun cmd hmem => hcmds cmd (by simp [hsplit, hmem]))
      hm hpos hle
    exact ⟨_, hl.step (.read 1 hm (by omega) hpos hle hr), by simp only; omega⟩

end

section

variable {dbnum : Nat} {exec : Int → List Bytes → δ → δ} {sv : Server δ} {c : Client}

/-- A replica that starts with `d` and in database 0 reaches `d'` when it has received its
queue, and it can receive it. -/
theorem Client.Leads.replica {seldb : Int} {d d' : δ} (h : c.Leads dbnum exec seldb d d')
    (initial : Int) :
    (∃ l, Link.Reachable (replicaCommand dbnum exec) c.queued initial 0 d l ∧
      l.received = c.queued.length) ∧
    ∀ l, Link.Reachable (replicaCommand dbnum exec) c.queued initial 0 d l →
      l.received = c.queued.length → l.replica.data = d' := by
  obtain ⟨cmds, db, hwf, hq, hexec, -⟩ := h
  rw [hq]
  refine ⟨Link.exists_received hwf _ le_rfl, fun l hl hall => ?_⟩
  obtain ⟨mc, done, rest, hsplit, hinv⟩ := hl.inv hwf
  have hdone : done = cmds := by
    rw [← completed_all cmds, ← hall, hsplit]
    refine (hinv.stuck.completed_eq (fun cmd hmem => hwf cmd (by simp [hsplit, hmem]))
      (by rw [hsplit]) hinv.received_le).symm
  have := congrArg Prod.snd hinv.state
  rwa [hdone, hexec] at this

/-- In every run that is faithful, a replica that has got its RDB is queued exactly what was
propagated after the fork of that RDB; a replica that loads it and receives the queue, in
whatever pieces, reaches the data of the master. -/
theorem snapshot_replays (h : Server.Reachable exec (Faithful dbnum) sv) (hc : c ∈ sv.slaves)
    {pid : Nat} (hrdb : c.rdb = some pid) (initial : Int) :
    ∃ f, sv.forks[pid]? = some f ∧ c.queued = (sv.stream.drop f.offset).reduceOption ∧
      (∃ l, Link.Reachable (replicaCommand dbnum exec) c.queued initial 0 f.data l ∧
        l.received = c.queued.length) ∧
      ∀ l, Link.Reachable (replicaCommand dbnum exec) c.queued initial 0 f.data l →
        l.received = c.queued.length → l.replica.data = sv.data := by
  have hrec := h.recording fun _ _ hok => hok.1
  have hinv := @Server.Reachable.replays δ dbnum exec (Faithful dbnum) True sv
    (fun _ _ hok => hok.1) (fun _ _ hok => hok.2.1) (fun _ _ _ hok => hok.2.2) h c hc
  obtain ⟨f, hf, -⟩ := hrec.rdb c hc pid hrdb
  obtain ⟨hleads, hbytes⟩ := hinv.snapshot f (.inr ⟨pid, hrdb, hf⟩)
  exact ⟨f, hf, hbytes trivial, hleads.replica initial⟩

end

/-- A replica with the RDB of a master that has the data 7. -/
theorem snapshot_replays_sync : ∃ (sv : Server Nat) (c : Client), c ∈ sv.slaves ∧
    c.rdb = some 0 ∧ ∃ f, sv.forks[0]? = some f ∧
      c.queued = (sv.stream.drop f.offset).reduceOption := by
  have h₀ : Server.Reachable (fun _ _ n => n + 1) (Faithful 16) (Server.init 7 [] false 5 60) :=
    .init 7 [] false 5 60
  have h₁ := h₀.step (show Faithful 16 _ (.sync (.sync 1)) from ⟨trivial, trivial, trivial⟩) rfl
  have h₂ := h₁.step (show Faithful 16 _ (.childDone (.success ⟨true, true⟩)) from
    ⟨fun _ _ => ⟨rfl, rfl⟩, trivial, trivial⟩) rfl
  obtain ⟨f, hf, hq, -⟩ := snapshot_replays h₂ (.head _) rfl 1
  exact ⟨_, _, .head _, rfl, f, hf, hq⟩

/-- `DEL k`. -/
def delArgv : List Robj := [.raw [68, 69, 76], .raw [107]]

theorem writeCommand_del : WriteCommand 16 0 (delArgv.map (·.bytes)) where
  wellFormed := ⟨by simp [delArgv], by simp [delArgv], by simp [delArgv, Robj.bytes]⟩
  dictid_nonneg := by omega
  dictid_lt := by omega
  dictid_int := by omega
  not_select := by
    rintro name args h
    cases h
    decide
  not_ping := by
    rintro name args h
    cases h
    decide

/-- The replica 1 waits for a BGSAVE to start when the first command is propagated, and is
queued the `SELECT` in front of it. -/
theorem select_before_fork : ¬ ∀ sv : Server Nat,
    Server.Reachable (fun _ _ n => n + 1) (fun _ ev => ev.Regular 16) sv →
      ∀ c ∈ sv.slaves, ∀ pid f, c.rdb = some pid → sv.forks[pid]? = some f →
        c.queued = (sv.stream.drop f.offset).reduceOption := by
  intro hall
  have h₀ : Server.Reachable (fun _ _ n => n + 1) (fun sv ev => ev.Safe sv ∧ ev.Regular 16)
      (Server.init 7 [] false 5 60) := .init 7 [] false 5 60
  have h₁ := h₀.step (show _ ∧ Event.Regular 16 (.bgsave ⟨true, true⟩) from ⟨trivial, trivial⟩) rfl
  have h₂ := h₁.step (show _ ∧ Event.Regular 16 (.sync (.sync 1)) from ⟨trivial, trivial⟩) rfl
  obtain ⟨hnone, -⟩ | ⟨-, ⟨b, stream, slaves, seldb⟩, hcall, -, -, hstream, -, hseldb, hslaves⟩ :=
    replicationFeedSlaves_spec (h₂.recording fun _ _ hok => hok.1).wf 0 delArgv
  · cases hnone
  · have h₃ := h₂.step (show _ ∧ Event.Regular 16 (.write 0 delArgv) from
      ⟨trivial, writeCommand_del⟩) (step_write hcall)
    simp only at hstream hseldb hslaves
    subst hstream hseldb hslaves
    have h₄ := h₃.step (show _ ∧ Event.Regular 16 (.childDone (.success ⟨true, true⟩)) from
      ⟨fun _ _ => ⟨rfl, rfl⟩, trivial⟩) rfl
    have h₅ := h₄.step (show _ ∧ Event.Regular 16 (.childDone (.success ⟨true, true⟩)) from
      ⟨fun _ _ => ⟨rfl, rfl⟩, trivial⟩) rfl
    have heq : selectCmd 0 = [] :=
      hall _ (h₅.mono fun _ _ hok => hok.2) _ (.head _) 1 _ rfl rfl
    simp [selectCmd] at heq

end Redis.Replication
