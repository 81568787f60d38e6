import Redis.Replication.Resume
import Redis.Replication.Snapshot

/-!
# Redis.Replication.Offset

The offset that `+FULLRESYNC` announces is written to the socket when the `PSYNC`
arrives, and the snapshot may have been taken before or be taken later.  The two agree in
the runs in which nothing is propagated in between.
-/

namespace Redis.Replication

open List Option

variable {κ δ : Type}

/-! ## The condition -/

/-- No replica that was sent a `+FULLRESYNC` still waits for its BGSAVE to start. -/
def NoneAnnounced (sv : Server δ) : Prop :=
  ∀ c ∈ sv.slaves, c.replstate = .waitBgsaveStart → c.fullresync = none

/-- The condition on an event: nothing is propagated between an announcement and the fork
that it is for, and where the fork is older than the announcement nothing was propagated
since.  A fork in the `PSYNC` itself comes before the creation of the backlog, which
counts as a byte, so the backlog must be there. -/
def Prompt (sv : Server δ) (ev : Event) : Prop :=
  ev.Safe sv ∧
    match ev with
    | .write _ _ => NoneAnnounced sv
    | .cron cr => cr.ping = true → NoneAnnounced sv
    | .sync req => ∀ offset, req.Answered sv (some offset) →
        match sv.rdbChild with
        | some ⟨pid, .disk⟩ => ∀ slave,
            sv.slaves.find? (·.replstate = .waitBgsaveEnd) = some slave →
            slave.reply = [] ∧ ∀ f, sv.forks[pid]? = some f → f.offset = sv.stream.length
        | some ⟨_, .socket _⟩ => True
        | none => sv.replDisklessSync = false → sv.backlog.replBacklog.isSome
    | _ => True

/-! ## The invariant -/

/-- What was announced to the replica is where its queue begins in the stream. -/
def Client.Announced (stream : List (Option UInt8)) (c : Client) : Prop :=
  ∀ offset, c.fullresync = some offset →
    if c.replstate = .waitBgsaveStart then c.queued = [] ∧ offset = stream.length
    else offset = c.since ∧ c.since ≤ stream.length ∧ stream.drop c.since = c.queued.map some

section

variable {exec : Int → List Bytes → δ → δ} {sv sv' : Server δ} {c c' : Client}
  {stream : List (Option UInt8)}

theorem announced_of_none (h : c.fullresync = none) : c.Announced stream := by
  simp [Client.Announced, h]

theorem Client.Announced.alike (h : c.Announced stream) (ha : c.Alike c') :
    c'.Announced stream := by
  intro offset hoff
  have := h offset (ha.fullresync ▸ hoff)
  rw [ha.queued, ha.since]
  rcases ha.replstate with hs | ⟨hs, hs'⟩
  · rwa [hs]
  · rw [if_neg (by simp [hs])] at this
    rwa [if_neg (by simp [hs'])]

theorem Client.Announced.feed (h : c.Announced stream) (hclose : c.closeAfterReply = false)
    (hstart : c.replstate = .waitBgsaveStart → c.fullresync = none) (p : Bytes) :
    (addReplyString p c).Announced (stream ++ p.map some) := by
  intro offset hoff
  rw [addReplyString_fullresync] at hoff
  have hne : c.replstate ≠ .waitBgsaveStart := fun hs => by simp [hstart hs] at hoff
  obtain ⟨heq, hle, hdrop⟩ := by simpa [hne] using h offset hoff
  rw [addReplyString_replstate, if_neg hne, addReplyString_since, queued_addReplyString, hclose]
  refine ⟨heq, by simp; omega, ?_⟩
  rw [drop_append_of_le_length hle, hdrop]
  simp

/-- The differences begin to be recorded. -/
theorem Client.Announced.startRecording (h : c.Announced stream) :
    (c.startRecording stream).Announced stream := by
  by_cases hs : c.replstate = .waitBgsaveStart
  · rw [startRecording_of_eq hs]
    intro offset hoff
    obtain ⟨hq, heq⟩ := by simpa [hs] using h offset hoff
    rw [if_neg (by simp)]
    refine ⟨heq, le_rfl, ?_⟩
    change stream.drop stream.length = c.queued.map some
    simp [hq]
  · rwa [startRecording_of_ne hs]

theorem Client.Announced.ends (h : c.Announced stream) {pid : Nat}
    (he : c.Ends pid (some c')) : c'.Announced stream := by
  cases he with
  | other _ => exact h
  | served _ hend hs _ _ hreply hwritten hsince hfull _ =>
    intro offset hoff
    have := h offset (hfull ▸ hoff)
    rw [if_neg (by simp [hend])] at this
    rw [if_neg (by rcases hs with hs | hs <;> simp [hs]), hsince, Client.queued, hreply, hwritten]
    exact this

theorem announced_of_nil (hq : c.queued = []) (hsince : c.replstate ≠ .waitBgsaveStart →
    c.since = stream.length) (h : ∀ offset, c.fullresync = some offset → offset = stream.length) :
    c.Announced stream := by
  intro offset hoff
  have heq := h offset hoff
  split
  · exact ⟨hq, heq⟩
  next hne =>
    rw [hsince hne]
    exact ⟨heq, le_rfl, by simp [hq]⟩

theorem Attached.announced (ha : Attached c sv sv') (hwf : sv.toMaster.Wf)
    (h : ∀ c ∈ sv.slaves, c.Announced sv.stream) (hc : c.Announced sv'.stream) :
    ∀ c ∈ sv'.slaves, c.Announced sv'.stream := by
  intro c' hc'
  rw [ha.slaves] at hc'
  rcases mem_append.mp hc' with hc' | hc'
  · rw [ha.stream_of_mem hwf hc']
    exact h c' hc'
  · rwa [mem_singleton.mp hc']

/-- What a `PSYNC` announces is the length of the stream when the replica is attached. -/
theorem Attached.announces (ha : Attached c sv sv') (hann : Announces c.fullresync sv) :
    ∀ offset, c.fullresync = some offset → offset = sv'.stream.length := by
  intro offset hoff
  have := hann offset hoff
  rcases ha.stream with ⟨hs, hsome⟩ | ⟨hs, hnone⟩
  · rw [this, hs, if_neg (by simpa [isSome_iff_ne_none] using hsome)]
    simp
  · rw [this, hs, if_pos (by simpa using hnone)]
    simp

/-- A call of `replicationFeedSlaves`. -/
theorem announced_call (h : Recording sv) (hann : ∀ c ∈ sv.slaves, c.Announced sv.stream)
    (hnone : NoneAnnounced sv) {m : Master} {dictid : Int} {argv : List Robj}
    (hm : replicationFeedSlaves dictid argv sv.toMaster = some m) :
    ∀ c ∈ m.slaves, c.Announced m.stream := by
  obtain ⟨-, -, heq⟩ | ⟨-, m', heq, -, -, hstream, -, -, hslaves⟩ :=
    replicationFeedSlaves_spec h.wf dictid argv
  · obtain rfl := Option.some.inj (heq.symm.trans hm)
    exact hann
  · obtain rfl := Option.some.inj (heq.symm.trans hm)
    intro c' hc'
    rw [hslaves] at hc'
    obtain ⟨c, hc, rfl⟩ := mem_map.mp hc'
    by_cases hs : c.replstate = .waitBgsaveStart
    · exact announced_of_none (by simp [callClient, hnone c hc hs])
    · have := (hann c hc).feed (h.closeAfterReply c hc) (hnone c hc)
        (callBytes sv.toMaster dictid argv)
      rw [hstream, callClient, if_neg hs]
      exact this

theorem Micro.announced (hm : Micro exec Prompt sv sv') (h : Recording sv)
    (hann : ∀ c ∈ sv.slaves, c.Announced sv.stream) :
    ∀ c ∈ sv'.slaves, c.Announced sv'.stream := by
  cases hm with
  | write dictid argv hok hm => exact announced_call h hann hok.2 hm
  | ping cr hok hping hm => exact announced_call h hann (hok.2 hping) hm
  | free p => exact fun c hc => hann c (mem_filter.mp hc).1
  | modify f hf =>
    intro c' hc'
    obtain ⟨c, hc, rfl⟩ := mem_map.mp hc'
    exact (hann c hc).alike (hf c hc)
  | ended child f _ hf =>
    intro c' hc'
    obtain ⟨c, hc, heq⟩ := mem_filterMap.mp hc'
    exact (hann c hc).ends (heq ▸ hf c hc)
  | save => exact hann
  | record type _ _ =>
    intro c' hc'
    obtain ⟨c, hc, rfl⟩ := mem_map.mp hc'
    exact (hann c hc).startRecording
  | attachStart c hfresh hstate hreply ha hatt =>
    exact hatt.announced h.wf hann (announced_of_nil (by simp [Client.queued, hfresh.written, hreply])
      (absurd hstate) (hatt.announces ha))
  | attachEnd req c child hok hnone hdisk hbacklog hans hfresh hstate hreply hsince ha _ _ _ hatt =>
    refine hatt.announced h.wf hann ?_
    by_cases hfull : c.fullresync = none
    · exact announced_of_none hfull
    · -- the backlog is there, so that the stream is the one of the fork
      obtain ⟨offset, hoff⟩ := ne_none_iff_exists'.mp hfull
      have hsome := hok.2 offset (hoff ▸ hans)
      rw [hnone] at hsome
      have hstream : sv'.stream = sv.stream := by
        rcases hatt.stream with ⟨hs, -⟩ | ⟨-, hn⟩
        · exact hs
        · have := hsome hdisk
          rw [hbacklog, isSome_iff_ne_none] at this
          exact absurd (isNone_iff_eq_none.mp hn) this
      exact announced_of_nil (by simp [Client.queued, hfresh.written, hreply])
        (fun _ => by rw [hsince, hstream]) (hatt.announces ha)
  | attachCopy req c slave pid hok hans hfresh hstate hmem hend hfind hreply hsince ha hchild hatt =>
    refine hatt.announced h.wf hann ?_
    by_cases hfull : c.fullresync = none
    · exact announced_of_none hfull
    · obtain ⟨offset, hoff⟩ := ne_none_iff_exists'.mp hfull
      have hidle := hok.2 offset (hoff ▸ hans)
      rw [hchild] at hidle
      obtain ⟨hempty, hfork⟩ := hidle slave hfind
      obtain ⟨child, f, hchild', hf, hsince', -⟩ := h.waits slave hmem hend
      rw [hchild] at hchild'
      cases hchild'
      exact announced_of_nil (by simp [Client.queued, hfresh.written, hreply, hempty])
        (fun _ => by rw [hsince, hsince', hfork f hf, hatt.stream_of_mem h.wf hmem])
        (hatt.announces ha)
  | attachOnline c replicas _ _ hfull _ =>
    intro c' hc'
    rcases mem_append.mp hc' with hc' | hc'
    · exact hann c' hc'
    · rw [mem_singleton.mp hc']
      exact announced_of_none hfull
  | other hslaves hstream _ _ _ _ _ =>
    rw [hslaves, hstream]
    exact hann

theorem Micros.announced (hm : Micros exec Prompt sv sv') (h : Recording sv)
    (hann : ∀ c ∈ sv.slaves, c.Announced sv.stream) :
    ∀ c ∈ sv'.slaves, c.Announced sv'.stream := by
  induction hm with
  | refl => exact hann
  | tail hms hm ih => exact hm.announced (Micros.recording hms h) ih

theorem Server.Reachable.announced (h : Server.Reachable exec Prompt sv) :
    ∀ c ∈ sv.slaves, c.Announced sv.stream := by
  induction h with
  | init => simp [Server.init]
  | step hr hok hstep ih =>
    have hrec := hr.recording fun _ _ hok => hok.1
    exact (Server.step_micros hrec.wf hok hok.1 hstep).announced hrec ih

end

/-! ## The replica's offset -/

section

variable {processCommand : List Bytes → κ → δ → κ × δ} {bytes : Bytes}
  {initial : Int} {ctx : κ} {data : δ} {l : Link κ δ}

/-- The offset of the client that stands for the master counts the bytes that were
received, whatever they are. -/
structure Link.Counts (bytes : Bytes) (initial : Int) (l : Link κ δ) : Prop where
  received_le : l.received ≤ bytes.length
  master : ∀ c, l.replica.master = some c → l.replica.cachedMaster = none ∧
    c.reploff = initial + l.received ∧ l.cursor = l.received
  cached : ∀ c, l.replica.cachedMaster = some c → c.reploff = initial + l.received

theorem freeMaster_counts {r r' : Replica κ δ} {c : MasterClient κ}
    (h : freeMaster r = some r') (hm : r.master = some c) (hnone : r.cachedMaster = none) :
    r'.master = none ∧ ∀ c', r'.cachedMaster = some c' → c'.reploff = c.reploff := by
  simp only [freeMaster, hm, some_bind] at h
  split at h
  · rw [replicationCacheMaster, if_pos (by simp [hnone])] at h
    obtain rfl := Option.some.inj h
    refine ⟨rfl, ?_⟩
    rintro c' ⟨⟩
    rfl
  · obtain rfl := Option.some.inj h
    refine ⟨rfl, fun c' hc' => ?_⟩
    simp [replicationHandleMasterDisconnection, hnone] at hc'

theorem Link.Reachable.counts (h : Link.Reachable processCommand bytes initial ctx data l) :
    l.Counts bytes initial := by
  induction h with
  | init fd runid unixtime =>
    refine ⟨Nat.zero_le _, ?_, by simp⟩
    rintro c ⟨⟩
    exact ⟨rfl, by simp [MasterClient.fresh], rfl⟩
  | @step l l' _ hstep ih =>
    cases hstep with
    | @read c r n hm _ _ hle hread =>
      obtain ⟨hnone, hoff, hcur⟩ := ih.master c hm
      have hlen : ((bytes.drop l.cursor).take n).length = n := by
        rw [length_take, length_drop]
        omega
      simp only [readQueryFromClient, hm, some_bind, hlen] at hread
      split at hread
      · obtain ⟨hm', hcached⟩ := freeMaster_counts hread rfl hnone
        refine ⟨by simp only; omega, by simp [hm'], fun c' hc' => ?_⟩
        rw [hcached c' hc', hoff]
        push_cast
        ring
      · obtain ⟨⟨s, d⟩, -, hr⟩ := bind_eq_some_iff.mp hread
        obtain rfl := Option.some.inj hr
        refine ⟨by simp only; omega, ?_, by simp [hnone]⟩
        rintro c' ⟨⟩
        refine ⟨hnone, ?_, by simp only; omega⟩
        simp only [hoff]
        push_cast
        ring
    | lose hr =>
      cases hm : l.replica.master with
      | none => simp [freeMaster, hm] at hr
      | some c =>
        obtain ⟨hnone, hoff, -⟩ := ih.master c hm
        obtain ⟨hm', hcached⟩ := freeMaster_counts hr hm hnone
        exact ⟨ih.received_le, by simp [hm'], fun c' hc' => (hcached c' hc').trans hoff⟩
    | resume newfd hm =>
      refine ⟨ih.received_le, fun c' hc' => ?_, by
        simp [slaveTryPartialResynchronization, replicationResurrectCachedMaster]⟩
      simp only [slaveTryPartialResynchronization, replicationResurrectCachedMaster, if_true,
        map_eq_some_iff] at hc'
      obtain ⟨c, hc, rfl⟩ := hc'
      have hoff := ih.cached c hc
      refine ⟨rfl, hoff, ?_⟩
      simp only [psyncRequest, hc]
      omega
    | tick unixtime => exact ⟨ih.received_le, ih.master, ih.cached⟩

end

/-! ## The main result -/

section

variable {exec : Int → List Bytes → δ → δ} {sv : Server δ} {c : Client}

/-- In every run that is prompt, a replica that has got its RDB was announced the offset of
the fork of that RDB, and its queue is the stream from there on.  So, on every link behind
the resynchronisation, its offset is that of the last byte it has received, a later `PSYNC`
asks for the next one, and if it is accepted the rest of the queue is sent. -/
theorem fullresync_offset (h : Server.Reachable exec Prompt sv) (hc : c ∈ sv.slaves)
    {offset : Int} {pid : Nat} (hoff : c.fullresync = some offset) (hrdb : c.rdb = some pid) :
    ∃ f, sv.forks[pid]? = some f ∧ offset = f.offset ∧
      sv.stream.drop f.offset = c.queued.map some ∧
      ∀ (κ δ' : Type) (processCommand : List Bytes → κ → δ' → κ × δ') (ctx : κ) (data : δ')
        (l : Link κ δ') (mc : MasterClient κ),
        Link.Reachable processCommand c.queued offset ctx data l →
        l.replica.master = some mc ∨ l.replica.cachedMaster = some mc →
        mc.reploff = offset + l.received ∧
        (sv.stream.take mc.reploff.toNat).drop f.offset = (c.queued.take l.received).map some ∧
        (l.replica.cachedMaster = some mc → (psyncRequest l.replica).2 = mc.reploff + 1 ∧
          ∀ masterRunid bytes,
            masterTryPartialResynchronization sv.runid masterRunid
              (some (psyncRequest l.replica).2) true sv.backlog = some (.continue bytes) →
            bytes = c.queued.drop l.received) := by
  have hrec := h.recording fun _ _ hok => hok.1
  obtain ⟨f, hf, hsince⟩ := hrec.rdb c hc pid hrdb
  have hne : c.replstate ≠ .waitBgsaveStart := fun hs => by simp [hrec.start c hc hs] at hrdb
  obtain ⟨heq, hle, hdrop⟩ := by simpa [hne] using h.announced c hc offset hoff
  rw [hsince] at heq hle hdrop
  refine ⟨f, hf, heq, hdrop, ?_⟩
  intro κ δ' processCommand ctx data l mc hl hmc
  have hcounts := hl.counts
  have hreploff : mc.reploff = offset + l.received := by
    rcases hmc with hm | hm
    · exact (hcounts.master mc hm).2.1
    · exact hcounts.cached mc hm
  refine ⟨hreploff, ?_, fun hcached => ?_⟩
  · rw [drop_take, show mc.reploff.toNat - f.offset = l.received by omega, hdrop,
      map_take]
  · have hreq : (psyncRequest l.replica).2 = mc.reploff + 1 := by simp [psyncRequest, hcached]
    refine ⟨hreq, fun masterRunid bytes hpsync => ?_⟩
    obtain ⟨-, bytes', o, ho, hcont, hbytes⟩ | ⟨-, o, hfull⟩ :=
      masterTryPartialResynchronization_spec hrec.wf.inv sv.runid masterRunid
        (some (psyncRequest l.replica).2)
    · rw [hpsync] at hcont
      cases hcont
      cases ho
      rw [show ((psyncRequest l.replica).2 - 1).toNat = f.offset + l.received by omega,
        ← drop_drop, hdrop, ← map_drop] at hbytes
      exact map_injective_iff.mpr (some_injective _) hbytes
    · rw [hpsync] at hfull
      cases hfull

end

/-- A `PSYNC` of the client `id` that does not know the master. -/
def SyncRequest.psyncUnknown (id : Nat) : SyncRequest :=
  { SyncRequest.sync id with psync := some ([63], some (-1)) }

/-- Two replicas, one after the other, each with a BGSAVE of its own. -/
theorem fullresync_offset_second : ∃ (sv : Server Unit) (c : Client) (f : Fork Unit),
    c ∈ sv.slaves ∧ c.fullresync = some 1 ∧ sv.forks[1]? = some f ∧ (1 : Int) = f.offset := by
  have h₀ : Server.Reachable (fun _ _ d => d) Prompt (Server.init () [] false 5 60) :=
    .init () [] false 5 60
  have h₁ := h₀.step (show Prompt _ (.sync (.sync 1)) from
    ⟨trivial, fun offset hans => by cases hans⟩) rfl
  have h₂ := h₁.step (show Prompt _ (.childDone (.success ⟨true, true⟩)) from
    ⟨fun _ _ => ⟨rfl, rfl⟩, trivial⟩) rfl
  have h₃ := h₂.step (show Prompt _ (.sync (.psyncUnknown 2)) from
    ⟨trivial, fun offset _ _ => rfl⟩) rfl
  have h₄ := h₃.step (show Prompt _ (.childDone (.success ⟨true, true⟩)) from
    ⟨fun _ _ => ⟨rfl, rfl⟩, trivial⟩) rfl
  obtain ⟨f, hf, hoff, -⟩ := fullresync_offset h₄ (.tail _ (.head _)) rfl rfl
  exact ⟨_, _, f, .tail _ (.head _), rfl, hf, hoff⟩

/-- The replica 1 is told the offset 1 while a BGSAVE is running, and a command is
propagated before the BGSAVE that is for it starts. -/
theorem fullresync_offset_early : ¬ ∀ sv : Server Unit,
    Server.Reachable (fun _ _ d => d) (fun _ _ => True) sv →
      ∀ c ∈ sv.slaves, ∀ offset pid f, c.fullresync = some offset → c.rdb = some pid →
        sv.forks[pid]? = some f → offset = (f.offset : Int) := by
  intro hall
  have h₀ : Server.Reachable (fun _ _ d => d) Event.Safe (Server.init () [] false 5 60) :=
    .init () [] false 5 60
  have h₁ := h₀.step (show Event.Safe _ (.bgsave ⟨true, true⟩) from trivial) rfl
  have h₂ := h₁.step (show Event.Safe _ (.sync (.psyncUnknown 1)) from trivial) rfl
  obtain ⟨hnone, -⟩ | ⟨-, ⟨b, stream, slaves, seldb⟩, hcall, -, -, hstream, -, hseldb, hslaves⟩ :=
    replicationFeedSlaves_spec (h₂.recording fun _ _ => id).wf 0 pingArgv
  · cases hnone
  · have h₃ := (h₂.mono fun _ _ _ => trivial).step trivial (step_write hcall)
    simp only at hstream hseldb hslaves
    subst hstream hseldb hslaves
    have h₄ := h₃.run [.childDone (.success ⟨true, true⟩), .childDone (.success ⟨true, true⟩)] rfl
    have heq : (1 : Int) = (38 : Nat) := hall _ h₄ _ (.head _) 1 1 _ rfl rfl rfl
    cases heq

end Redis.Replication
