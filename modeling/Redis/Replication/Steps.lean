import Mathlib.Logic.Relation
import Redis.Replication.Sync

/-!
# Redis.Replication.Steps

What an event can do to the replicas, the stream and the snapshots, said once: an event
in which no start of a BGSAVE fails half-way is a sequence of `Micro` steps.
-/

namespace Redis.Replication

open List

variable {δ : Type}

/-! ## The steps -/

/-- The client is the same as far as its synchronisation is concerned, or its RDB has
been sent. -/
structure Client.Alike (c c' : Client) : Prop where
  id : c'.id = c.id
  queued : c'.queued = c.queued
  written : c.replstate ≠ .online → c'.written = c.written
  since : c'.since = c.since
  rdb : c'.rdb = c.rdb
  fullresync : c'.fullresync = c.fullresync
  closeAfterReply : c'.closeAfterReply = c.closeAfterReply
  replstate : c'.replstate = c.replstate ∨ c.replstate = .sendBulk ∧ c'.replstate = .online

/-- A child of the process `pid` has ended: what becomes of a replica. -/
inductive Client.Ends (pid : Nat) (c : Client) : Option Client → Prop
  | other : c.replstate ≠ .waitBgsaveEnd → Ends pid c (some c)
  | freed : c.replstate = .waitBgsaveEnd → Ends pid c none
  | served (c' : Client) : c.replstate = .waitBgsaveEnd →
      c'.replstate = .sendBulk ∨ c'.replstate = .online → c'.rdb = some pid → c'.id = c.id →
      c'.reply = c.reply → c'.written = c.written → c'.since = c.since →
      c'.fullresync = c.fullresync → c'.closeAfterReply = c.closeAfterReply → Ends pid c (some c')

/-- A client that has just become a replica. -/
structure Client.Fresh (c : Client) : Prop where
  written : c.written = []
  rdb : c.rdb = none
  closeAfterReply : c.closeAfterReply = false

/-- The offset that is announced is the length of the stream, once a backlog exists. -/
def Announces (fullresync : Option Int) (sv : Server δ) : Prop :=
  ∀ offset, fullresync = some offset → offset = (sv.stream.length : Int) +
    if sv.backlog.replBacklog.isNone then 1 else 0

/-- The request ends in a full resynchronisation, and `fullresync` is the offset that is
announced if it was a `PSYNC`. -/
def SyncRequest.Answered (req : SyncRequest) (sv : Server δ) (fullresync : Option Int) : Prop :=
  match req.psync with
  | none => fullresync = none
  | some (masterRunid, psyncOffset) => ∃ offset, fullresync = some offset ∧
      masterTryPartialResynchronization sv.runid masterRunid psyncOffset req.written sv.backlog =
        some (.fullresync offset)

/-- The replica `c` is attached: all others stay as they are, the next write selects its
database again, and a backlog is created if there was none. -/
structure Attached (c : Client) (sv sv' : Server δ) : Prop where
  slaves : sv'.slaves = sv.slaves ++ [c]
  slaveseldb : sv'.slaveseldb = -1
  stream : sv'.stream = sv.stream ∧ sv.backlog.replBacklog.isSome ∨
    sv'.stream = sv.stream ++ [none] ∧ sv.backlog.replBacklog.isNone
  data : sv'.data = sv.data
  forks : sv'.forks = sv.forks
  rdbChild : sv'.rdbChild = sv.rdbChild
  wf : sv'.toMaster.Wf

/-- The steps that events are made of.  A step that feeds the replicas or attaches one
is the first one of its event, which meets `ok`. -/
inductive Micro (exec : Int → List (List UInt8) → δ → δ) (ok : Server δ → Event → Prop)
    (sv : Server δ) : Server δ → Prop
  /-- A write command. -/
  | write {m : Master} (dictid : Int) (argv : List Robj) : ok sv (.write dictid argv) →
      replicationFeedSlaves dictid argv sv.toMaster = some m →
      Micro exec ok sv
        { sv with toMaster := m, data := exec dictid (argv.map (·.bytes)) sv.data }
  /-- The `PING` of the cron. -/
  | ping {m : Master} (cr : Cron) : ok sv (.cron cr) → cr.ping = true →
      replicationFeedSlaves sv.slaveseldb pingArgv sv.toMaster = some m →
      Micro exec ok sv { sv with toMaster := m }
  /-- Replicas are freed. -/
  | free (p : Client → Bool) : Micro exec ok sv { sv with slaves := sv.slaves.filter p }
  /-- Replicas are changed in what does not matter here, or their RDB has been sent. -/
  | modify (f : Client → Client) : (∀ c ∈ sv.slaves, c.Alike (f c)) →
      Micro exec ok sv { sv with slaves := sv.slaves.map f }
  /-- The RDB child has ended. -/
  | ended (child : Child) (f : Client → Option Client) : sv.rdbChild = some child →
      (∀ c ∈ sv.slaves, c.Ends child.pid (f c)) →
      Micro exec ok sv { sv with rdbChild := none, slaves := sv.slaves.filterMap f }
  /-- A BGSAVE that is for no replica that was attached before. -/
  | save : sv.rdbChild = none → Micro exec ok sv (sv.forked .disk)
  /-- A BGSAVE for all replicas that wait for one. -/
  | record (type : RdbType) : sv.rdbChild = none →
      (type = .disk ∨
        type = .socket ((sv.slaves.filter (·.replstate = .waitBgsaveStart)).map (·.id))) →
      Micro exec ok sv
        (Server.forked type { sv with slaves := sv.slaves.map (·.startRecording sv.stream) })
  /-- A replica that waits for the next BGSAVE. -/
  | attachStart {sv' : Server δ} (c : Client) : c.Fresh → c.replstate = .waitBgsaveStart →
      c.reply = [] → Announces c.fullresync sv → Attached c sv sv' → Micro exec ok sv sv'
  /-- A replica for which a BGSAVE has just been started. -/
  | attachEnd {sv₀ sv' : Server δ} (req : SyncRequest) (c : Client) (child : Child) :
      ok sv₀ (.sync req) → sv₀.rdbChild = none → sv₀.replDisklessSync = false →
      sv₀.backlog = sv.backlog → req.Answered sv₀ c.fullresync → c.Fresh →
      c.replstate = .waitBgsaveEnd → c.reply = [] → c.since = sv.stream.length →
      Announces c.fullresync sv → sv.rdbChild = some child → child.type = .disk →
      sv.forks[child.pid]? = some ⟨sv.stream.length, sv.data⟩ → Attached c sv sv' →
      Micro exec ok sv sv'
  /-- A replica that joins another one that waits for the end of a BGSAVE. -/
  | attachCopy {sv' : Server δ} (req : SyncRequest) (c slave : Client) (pid : Nat) :
      ok sv (.sync req) → req.Answered sv c.fullresync → c.Fresh →
      c.replstate = .waitBgsaveEnd → slave ∈ sv.slaves → slave.replstate = .waitBgsaveEnd →
      sv.slaves.find? (·.replstate = .waitBgsaveEnd) = some slave →
      c.reply = slave.reply → c.since = slave.since → Announces c.fullresync sv →
      sv.rdbChild = some ⟨pid, .disk⟩ → Attached c sv sv' → Micro exec ok sv sv'
  /-- A partial resynchronisation. -/
  | attachOnline (c : Client) (replicas : List Nat) : c.Fresh → c.replstate = .online →
      c.fullresync = none → sv.backlog.replBacklog.isSome →
      Micro exec ok sv { sv with slaves := sv.slaves ++ [c], replicas }
  /-- Anything else. -/
  | other {sv' : Server δ} : sv'.slaves = sv.slaves → sv'.stream = sv.stream →
      sv'.slaveseldb = sv.slaveseldb → sv'.data = sv.data → sv'.forks = sv.forks →
      sv'.rdbChild = sv.rdbChild → (sv.toMaster.Wf → sv'.toMaster.Wf) → Micro exec ok sv sv'

/-- No start of a BGSAVE fails after the states were changed, or finds that they were
changed before it could collect the replicas. -/
def Event.Safe (sv : Server δ) : Event → Prop
  | .childDone ex => sv.rdbChild.isSome → (∃ c ∈ sv.slaves, c.replstate = .waitBgsaveStart) →
      sv.replDisklessSync = false ∧ ex.os.fork = true
  | .cron cr => cronStarts sv → sv.replDisklessSync = true → cr.os.pipe = true → cr.os.fork = true
  | _ => True

/-! ## Events are made of steps -/

section

variable {exec : Int → List (List UInt8) → δ → δ} {ok : Server δ → Event → Prop}
  {sv sv' : Server δ}

/-- Several steps. -/
abbrev Micros (exec : Int → List (List UInt8) → δ → δ) (ok : Server δ → Event → Prop) :
    Server δ → Server δ → Prop := Relation.ReflTransGen (Micro exec ok)

theorem Micro.micros (h : Micro exec ok sv sv') : Micros exec ok sv sv' := .single h

theorem Micro.wf (h : Micro exec ok sv sv') (hwf : sv.toMaster.Wf) : sv'.toMaster.Wf := by
  cases h with
  | write dictid argv _ hm => exact hwf.call hm
  | ping cr _ _ hm => exact hwf.call hm
  | free p =>
    refine ⟨hwf.inv, fun hne => hwf.backlog ?_⟩
    rintro hnil
    simp [hnil] at hne
  | modify f _ =>
    refine ⟨hwf.inv, fun hne => hwf.backlog ?_⟩
    rintro hnil
    simp [hnil] at hne
  | ended child f _ _ =>
    refine ⟨hwf.inv, fun hne => hwf.backlog ?_⟩
    rintro hnil
    simp [hnil] at hne
  | save _ => exact ⟨hwf.inv, hwf.backlog⟩
  | record type _ _ =>
    refine ⟨hwf.inv, fun hne => hwf.backlog ?_⟩
    rintro hnil
    simp [Server.forked, hnil] at hne
  | attachStart _ _ _ _ _ ha => exact ha.wf
  | attachEnd _ _ _ _ _ _ _ _ _ _ _ _ _ _ _ _ ha => exact ha.wf
  | attachCopy _ _ _ _ _ _ _ _ _ _ _ _ _ _ _ ha => exact ha.wf
  | attachOnline c replicas _ _ _ hb => exact ⟨hwf.inv, fun _ => hb⟩
  | other _ _ _ _ _ _ hw => exact hw hwf

theorem attach_spec {mem : Nat → UInt8} {c : Client} (hwf : sv.toMaster.Wf)
    (h : attach mem c sv = some sv') : Attached c sv sv' := by
  rw [attach] at h
  simp only at h
  cases hb : sv.backlog.replBacklog with
  | none =>
    have hnil : sv.slaves = [] := by
      by_contra hne
      simpa [hb] using hwf.backlog hne
    rw [if_pos (by simp [hnil, hb])] at h
    obtain ⟨b, hcreate, rfl⟩ := by simpa [Option.bind_eq_some_iff] using h
    refine ⟨rfl, rfl, .inr ⟨rfl, by simp [hb]⟩, rfl, rfl, rfl, ?_⟩
    refine ⟨createReplicationBacklog_spec hwf.inv mem hcreate, fun _ => ?_⟩
    simp [createReplicationBacklog, hb] at hcreate
    simp [← hcreate]
  | some buf =>
    rw [if_neg (by simp [hb])] at h
    obtain rfl := Option.some.inj h
    exact ⟨rfl, rfl, .inl ⟨rfl, by simp [hb]⟩, rfl, rfl, rfl, ⟨hwf.inv, fun _ => by simp [hb]⟩⟩

theorem announces_none : Announces none sv := by simp [Announces]

theorem announces_psync {runid masterRunid : List UInt8} {psyncOffset : Option Int} {written : Bool}
    {offset : Int} (hwf : sv.toMaster.Wf)
    (h : masterTryPartialResynchronization runid masterRunid psyncOffset written sv.backlog =
      some (.fullresync offset)) : Announces (some offset) sv := by
  have hlen := hwf.inv.offset_eq
  rintro o ⟨⟩
  have hcase : offset = if sv.backlog.replBacklog.isNone then
      (sv.backlog.masterReplOffset : Int) + 1 else sv.backlog.masterReplOffset := by
    -- every refusal gives the same answer
    have hrefused : ∀ x : Int, some (if written then Psync.fullresync x else .closed) =
        some (.fullresync offset) → offset = x := by
      intro x hx
      cases written with
      | true => simpa using hx.symm
      | false => simp at hx
    simp only [masterTryPartialResynchronization] at h
    split at h
    · exact hrefused _ h
    · split at h
      · exact hrefused _ h
      · split at h
        · exact hrefused _ h
        · split at h
          · simp at h
          · simp at h
  rw [hcase, hlen]
  split <;> simp

theorem rdbSaveBackground_of_none {os : Os} (h : sv.rdbChild = none) :
    rdbSaveBackground os sv = if os.fork then (true, sv.forked .disk) else (false, sv) := by
  cases hf : os.fork <;> simp [rdbSaveBackground, h, hf]

theorem startBgsaveForReplication_disk {os : Os} (h : sv.rdbChild = none)
    (hdisk : sv.replDisklessSync = false) (hfork : os.fork = true) :
    startBgsaveForReplication os sv = (true, sv.forked .disk) := by
  rw [startBgsaveForReplication, if_neg (by simp [hdisk]), rdbSaveBackground_of_none h,
    if_pos hfork]

variable {req : SyncRequest} {stream : List (Option UInt8)}

/-- A full resynchronisation attaches the client in one of three states, or leaves the
server with its new child and the client unserved. -/
theorem fullResync_micros {fullresync : Option Int} (hwf : sv.toMaster.Wf)
    (hok : ok sv (.sync req)) (hreq : req.Answered sv fullresync) (hann : Announces fullresync sv)
    (h : fullResync req fullresync sv = some sv') : Micros exec ok sv sv' := by
  have hfresh : (req.client fullresync sv.unixtime).Fresh := ⟨rfl, rfl, rfl⟩
  have hstart : ∀ sv'', attach req.mem (req.client fullresync sv.unixtime) sv = some sv'' →
      Micros exec ok sv sv'' := fun sv'' ha =>
    (Micro.attachStart _ hfresh rfl rfl hann (attach_spec hwf ha)).micros
  rw [fullResync] at h
  simp only at h
  split at h
  next pid hchild =>
    split at h
    next slave hfind =>
      have hmem := mem_of_find?_eq_some hfind
      have hend : slave.replstate = .waitBgsaveEnd := by simpa using find?_some hfind
      have ha := attach_spec hwf h
      refine Micro.micros (.attachCopy req { req.client fullresync sv.unixtime with
        replstate := .waitBgsaveEnd, reply := slave.reply, since := slave.since } slave pid hok hreq
        ⟨rfl, rfl, rfl⟩ rfl hmem hend hfind rfl rfl hann hchild ha)
    next => exact hstart _ h
  next => exact hstart _ h
  next hchild =>
    split at h
    · exact hstart _ h
    next hdisk =>
      rw [startBgsaveForReplication, if_neg hdisk, rdbSaveBackground_of_none hchild] at h
      cases hf : req.os.fork with
      | false =>
        simp only [hf, Bool.false_eq_true, if_false, Bool.not_false, if_true] at h
        obtain rfl := Option.some.inj h
        exact .refl
      | true =>
        simp only [hf, if_true, Bool.not_true, Bool.false_eq_true, if_false] at h
        have hsave : Micro exec ok sv (sv.forked .disk) := .save hchild
        have ha := attach_spec (hsave.wf hwf) h
        refine hsave.micros.tail (.attachEnd req _ ⟨sv.forks.length, .disk⟩ hok hchild
          (by simpa using hdisk) rfl hreq ⟨rfl, rfl, rfl⟩ rfl rfl rfl hann rfl rfl ?_ ha)
        simp [Server.forked]

theorem syncCommand_micros (hwf : sv.toMaster.Wf) (hok : ok sv (.sync req))
    (h : syncCommand req sv = some sv') : Micros exec ok sv sv' := by
  rw [syncCommand] at h
  split at h
  · obtain rfl := Option.some.inj h
    exact .refl
  split at h
  · obtain rfl := Option.some.inj h
    exact .refl
  split at h
  next hsync => exact fullResync_micros hwf hok (by simp [SyncRequest.Answered, hsync]) announces_none h
  next masterRunid psyncOffset hsync =>
    split at h
    · cases h
    · obtain rfl := Option.some.inj h
      exact .refl
    next offset hpsync =>
      refine fullResync_micros hwf hok ?_ (announces_psync hwf hpsync) h
      rw [SyncRequest.Answered, hsync]
      exact ⟨offset, rfl, hpsync⟩
    next bytes hpsync =>
      obtain rfl := Option.some.inj h
      have hsome : sv.backlog.replBacklog.isSome := by
        cases hb : sv.backlog.replBacklog with
        | none =>
          simp only [masterTryPartialResynchronization, hb] at hpsync
          cases req.written <;> cases psyncOffset <;> simp at hpsync <;> grind
        | some buf => rfl
      exact (Micro.attachOnline _ _ ⟨rfl, rfl, rfl⟩ rfl rfl hsome).micros

/-- What the loop of `updateSlavesWaitingBgsave` does to a replica that does not wait for
a BGSAVE to start. -/
theorem updateSlave_ends {okay socket : Bool} {pid : Nat} {opened : Nat → Bool} (c : Client)
    (h : c.replstate ≠ .waitBgsaveStart) :
    c.Ends pid (updateSlave okay socket pid opened sv c) := by
  rw [updateSlave]
  cases hs : c.replstate with
  | waitBgsaveStart => exact absurd hs h
  | waitBgsaveEnd =>
    simp only
    split
    · exact .served _ hs (.inr rfl) rfl rfl rfl rfl rfl rfl rfl
    split
    · exact .freed hs
    split
    · exact .freed hs
    · exact .served _ hs (.inl rfl) rfl rfl rfl rfl rfl rfl rfl
  | sendBulk => exact .other (by simp [hs])
  | online => exact .other (by simp [hs])

theorem startRecording_of_ne {c : Client} (h : c.replstate ≠ .waitBgsaveStart) :
    c.startRecording stream = c := by
  rw [Client.startRecording, if_neg h]

theorem Client.Ends.startRecording {pid : Nat} {c : Client} {o : Option Client} (h : c.Ends pid o)
    (hs : c.replstate ≠ .waitBgsaveStart) : o.map (·.startRecording stream) = o := by
  cases h with
  | other _ => simp [startRecording_of_ne hs]
  | freed _ => rfl
  | served c' _ hs' =>
    have hne : c'.replstate ≠ .waitBgsaveStart := by
      rcases hs' with h | h <;> simp [h]
    simp [startRecording_of_ne hne]

/-- The end of a child, and the start of the next one for the replicas that wait. -/
theorem updateSlavesWaitingBgsave_micros {okay socket : Bool} {child : Child}
    {opened : Nat → Bool} {os : Os} (hchild : sv.rdbChild = some child)
    (hsafe : (∃ c ∈ sv.slaves, c.replstate = .waitBgsaveStart) →
      sv.replDisklessSync = false ∧ os.fork = true) :
    Micros exec ok sv (updateSlavesWaitingBgsave okay socket child.pid opened os
      { sv with rdbChild := none }) := by
  rw [updateSlavesWaitingBgsave]
  simp only
  split
  next hstart =>
    obtain ⟨hdisk, hfork⟩ := hsafe (by simpa using hstart)
    rw [startBgsaveForReplication_disk (by rfl) (by exact hdisk) hfork]
    simp only [Bool.not_true, Bool.false_eq_true, if_false]
    -- first the child ends, then the replicas that wait start to record
    have hended : Micro exec ok sv { sv with
        rdbChild := none
        slaves := sv.slaves.filterMap fun c => if c.replstate = .waitBgsaveStart then some c else
          updateSlave okay socket child.pid opened { sv with rdbChild := none } c } := by
      apply Micro.ended child _ hchild
      intro c _
      split
      next hs => exact .other (by simp [hs])
      next hs => exact updateSlave_ends c hs
    refine hended.micros.tail ?_
    have hrec := @Micro.record δ exec ok { sv with
        rdbChild := none
        slaves := sv.slaves.filterMap fun c => if c.replstate = .waitBgsaveStart then some c else
          updateSlave okay socket child.pid opened { sv with rdbChild := none } c } .disk rfl
      (.inl rfl)
    convert hrec using 2
    simp only
    rw [map_filterMap]
    congr 2
    apply filterMap_congr
    intro c _
    split
    next hs => simp [updateSlave, hs]
    next hs => exact ((updateSlave_ends c hs).startRecording hs).symm
  next hstart =>
    have hnone : ∀ c ∈ sv.slaves, c.replstate ≠ .waitBgsaveStart := by simpa using hstart
    exact (Micro.ended child _ hchild fun c hc => updateSlave_ends c (hnone c hc)).micros

theorem backgroundSaveDoneHandler_micros {ex : Exit} (hsafe : (Event.childDone ex).Safe sv) :
    Micros exec ok sv (backgroundSaveDoneHandler ex sv) := by
  rw [backgroundSaveDoneHandler]
  split
  · exact .refl
  next pid hchild =>
    exact updateSlavesWaitingBgsave_micros hchild (hsafe (by simp [hchild]))
  next pid clientids hchild =>
    simp only
    refine .trans (Micro.free _).micros (@updateSlavesWaitingBgsave_micros δ exec ok
      { sv with slaves := sv.slaves.filter _ } ex.ok true ⟨pid, .socket clientids⟩ ex.opened ex.os
      hchild ?_)
    rintro ⟨c, hc, hs⟩
    exact hsafe (by simp [hchild]) ⟨c, mem_of_mem_filter hc, hs⟩

theorem startRecording_startRecording (stream : List (Option UInt8)) (c : Client) :
    (c.startRecording stream).startRecording stream = c.startRecording stream := by
  apply startRecording_of_ne
  rw [Client.startRecording]
  split
  · simp
  · assumption

theorem cronStartBgsave_micros {os : Os}
    (hsafe : cronStarts sv → sv.replDisklessSync = true → os.pipe = true → os.fork = true) :
    Micros exec ok sv (cronStartBgsave os sv) := by
  rw [cronStartBgsave]
  split
  case isFalse => exact .refl
  next hstarts =>
    have hnone : sv.rdbChild = none := by
      simp only [cronStarts, Bool.and_eq_true, Option.isNone_iff_eq_none] at hstarts
      exact hstarts.1.1.1
    cases hd : sv.replDisklessSync with
    | true =>
      rw [startBgsaveForReplication, if_pos hd, rdbSaveToSlavesSockets, if_neg (by simp [hnone])]
      cases hp : os.pipe with
      | false => exact .refl
      | true =>
        have hf := hsafe hstarts hd hp
        simp only [hf, Bool.not_true, Bool.false_eq_true, if_false, if_true]
        have hrec : Micro exec ok sv _ := .record _ hnone (.inr rfl)
        convert hrec.micros using 1
        simp [Server.forked, startRecording_startRecording]
    | false =>
      rw [startBgsaveForReplication, if_neg (by simp [hd]), rdbSaveBackground_of_none hnone]
      cases hf : os.fork with
      | false => exact .refl
      | true =>
        have hrec : Micro exec ok sv _ := .record .disk hnone (.inl rfl)
        exact hrec.micros

/-- The start of a BGSAVE depends on the replicas that wait for one only. -/
theorem cronStarts_congr
    (hslaves : (sv'.slaves.filter (·.replstate = .waitBgsaveStart)).map (·.lastinteraction) =
      (sv.slaves.filter (·.replstate = .waitBgsaveStart)).map (·.lastinteraction))
    (hchild : sv'.rdbChild = sv.rdbChild) (haof : sv'.aofChild = sv.aofChild)
    (htime : sv'.unixtime = sv.unixtime)
    (hdelay : sv'.replDisklessSyncDelay = sv.replDisklessSyncDelay) :
    cronStarts sv' = cronStarts sv := by
  have hidle : ∀ (s : Server δ), cronStarts s =
      (s.rdbChild.isNone && !s.aofChild &&
        !((s.slaves.filter (·.replstate = .waitBgsaveStart)).map (·.lastinteraction)).isEmpty &&
        decide (((s.slaves.filter (·.replstate = .waitBgsaveStart)).map
          (·.lastinteraction)).foldl (fun m t => max m (s.unixtime - t)) 0 >
            s.replDisklessSyncDelay)) := by
    intro s
    simp only [cronStarts, foldl_map, isEmpty_map]
  rw [hidle, hidle, hslaves, hchild, haof, htime, hdelay]

theorem callClient_replstate (m : Master) (dictid : Int) (argv : List Robj) (c : Client) :
    (callClient m dictid argv c).replstate = c.replstate := by simp [callClient]

theorem callClient_lastinteraction (m : Master) (dictid : Int) (argv : List Robj) (c : Client) :
    (callClient m dictid argv c).lastinteraction = c.lastinteraction := by
  simp only [callClient, addReplyString]
  split <;> rfl

theorem replicationCron_micros {cr : Cron} (hwf : sv.toMaster.Wf) (hok : ok sv (.cron cr))
    (hsafe : (Event.cron cr).Safe sv) (h : replicationCron cr sv = some sv') :
    Micros exec ok sv sv' := by
  have hping : ∃ m, cronPing cr sv = some m ∧ Micros exec ok sv { sv with toMaster := m } ∧
      (m.slaves.filter (·.replstate = .waitBgsaveStart)).map (·.lastinteraction) =
        (sv.slaves.filter (·.replstate = .waitBgsaveStart)).map (·.lastinteraction) := by
    cases hp : cr.ping with
    | false => exact ⟨sv.toMaster, by simp [cronPing, hp], .refl, rfl⟩
    | true =>
      rw [cronPing, if_pos hp]
      have hmap : ∀ m, replicationFeedSlaves sv.slaveseldb pingArgv sv.toMaster = some m →
          Micros exec ok sv { sv with toMaster := m } :=
        fun m hm => (Micro.ping cr hok hp hm).micros
      obtain ⟨-, -, heq⟩ | ⟨-, m, heq, -, -, -, -, -, hslaves⟩ :=
        replicationFeedSlaves_spec hwf sv.slaveseldb pingArgv
      · exact ⟨_, heq, hmap _ heq, rfl⟩
      · refine ⟨m, heq, hmap _ heq, ?_⟩
        rw [hslaves, List.filter_map, map_map]
        congr 1
        · funext c
          exact callClient_lastinteraction _ _ _ c
        · apply filter_congr
          intro c _
          simp [callClient_replstate]
  obtain ⟨m, hm, hmicros, hwait⟩ := hping
  simp only [replicationCron, hm, some_bind, Option.pure_def,
    Option.some.injEq] at h
  subst h
  refine hmicros.trans (.trans (Micro.free fun c => !timedOut { sv with toMaster := m } c).micros ?_)
  have hstarts : ∀ sv'' : Server δ, sv''.rdbChild = sv.rdbChild → sv''.aofChild = sv.aofChild →
      sv''.unixtime = sv.unixtime → sv''.replDisklessSyncDelay = sv.replDisklessSyncDelay →
      sv''.slaves = m.slaves.filter (fun c => !timedOut { sv with toMaster := m } c) →
      cronStarts sv'' = cronStarts sv := by
    intro sv'' hchild haof htime hdelay hslaves
    refine cronStarts_congr ?_ hchild haof htime hdelay
    rw [← hwait, hslaves, filter_filter]
    congr 1
    apply filter_congr
    intro c _
    by_cases hs : c.replstate = .waitBgsaveStart <;> simp [hs, timedOut]
  split
  next hfree =>
    refine .trans ?_ (cronStartBgsave_micros ?_)
    · exact Micro.micros (.other rfl rfl rfl rfl rfl rfl fun hw =>
        ⟨⟨hw.inv.offset_eq, hw.inv.size_ge, by simp [freeReplicationBacklog]⟩,
          fun hne => absurd hfree.1 hne⟩)
    · intro hst
      rw [hstarts _ (by rfl) (by rfl) (by rfl) (by rfl) (by rfl)] at hst
      exact hsafe hst
  next =>
    refine cronStartBgsave_micros fun hst => ?_
    rw [hstarts _ (by rfl) (by rfl) (by rfl) (by rfl) (by rfl)] at hst
    exact hsafe hst

/-- A replica in whose synchronisation nothing changes. -/
theorem Client.Alike.refl (c : Client) : c.Alike c :=
  ⟨rfl, rfl, fun _ => rfl, rfl, rfl, rfl, rfl, .inl rfl⟩

theorem modify_micros {id : Nat} {f : Client → Client} (hf : ∀ c : Client, c.Alike (f c)) :
    Micros exec ok sv (sv.modify id f) := by
  refine (Micro.modify _ fun c _ => ?_).micros
  split
  · exact hf c
  · exact .refl c

theorem step_write {dictid : Int} {argv : List Robj} {m : Master}
    (h : replicationFeedSlaves dictid argv sv.toMaster = some m) :
    sv.step exec (.write dictid argv) =
      some { sv with toMaster := m, data := exec dictid (argv.map (·.bytes)) sv.data } := by
  simp [Server.step, h]

theorem Server.step_micros {ev : Event} (hwf : sv.toMaster.Wf) (hok : ok sv ev)
    (hsafe : ev.Safe sv) (h : sv.step exec ev = some sv') : Micros exec ok sv sv' := by
  cases ev with
  | sync req => exact syncCommand_micros hwf hok h
  | write dictid argv =>
    simp only [Server.step, Option.bind_eq_bind, Option.pure_def, Option.bind_eq_some_iff,
      Option.some.injEq] at h
    obtain ⟨m, hm, rfl⟩ := h
    exact (Micro.write dictid argv hok hm).micros
  | childDone ex =>
    obtain rfl := Option.some.inj h
    exact backgroundSaveDoneHandler_micros hsafe
  | cron cr => exact replicationCron_micros hwf hok hsafe h
  | bgsave os =>
    obtain rfl := Option.some.inj h
    split
    · exact .refl
    · cases hc : sv.rdbChild with
      | some child => simpa [rdbSaveBackground, hc] using .refl
      | none =>
        rw [rdbSaveBackground_of_none hc]
        split
        · exact (Micro.save hc).micros
        · exact .refl
  | aof running =>
    obtain rfl := Option.some.inj h
    exact Micro.micros (.other rfl rfl rfl rfl rfl rfl fun hw => hw)
  | configDiskless yes =>
    obtain rfl := Option.some.inj h
    exact Micro.micros (.other rfl rfl rfl rfl rfl rfl fun hw => hw)
  | configDelay delay =>
    obtain rfl := Option.some.inj h
    exact Micro.micros (.other rfl rfl rfl rfl rfl rfl fun hw => hw)
  | configBacklog mem size =>
    obtain rfl := Option.some.inj h
    refine Micro.micros (.other rfl rfl rfl rfl rfl rfl fun hw =>
      ⟨resizeReplicationBacklog_spec hw.inv mem size, fun hne => ?_⟩)
    exact (isSome_resizeReplicationBacklog mem size sv.backlog).trans (hw.backlog hne)
  | bulkSent id =>
    obtain rfl := Option.some.inj h
    refine modify_micros fun c => ?_
    split
    next hs => exact ⟨rfl, rfl, fun _ => rfl, rfl, rfl, rfl, rfl, .inr ⟨hs, rfl⟩⟩
    next => exact .refl c
  | ack id =>
    obtain rfl := Option.some.inj h
    refine modify_micros fun c => ?_
    simp only
    split
    next hs => exact ⟨rfl, rfl, fun _ => rfl, rfl, rfl, rfl, rfl, .inl hs.2.symm⟩
    next => exact ⟨rfl, rfl, fun _ => rfl, rfl, rfl, rfl, rfl, .inl rfl⟩
  | drain id n =>
    obtain rfl := Option.some.inj h
    refine modify_micros fun c => ?_
    split
    next hs =>
      exact ⟨rfl, by simp [Client.queued], fun hne => absurd hs.1 hne, rfl, rfl, rfl, rfl, .inl rfl⟩
    next => exact .refl c
  | disconnect id =>
    obtain rfl := Option.some.inj h
    exact (Micro.free _).micros
  | interaction id =>
    obtain rfl := Option.some.inj h
    exact modify_micros fun c => ⟨rfl, rfl, fun _ => rfl, rfl, rfl, rfl, rfl, .inl rfl⟩
  | tick unixtime =>
    obtain rfl := Option.some.inj h
    exact Micro.micros (.other rfl rfl rfl rfl rfl rfl fun hw => hw)

end

end Redis.Replication
