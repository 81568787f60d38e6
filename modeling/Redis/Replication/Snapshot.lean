import Redis.Replication.Steps

/-!
# Redis.Replication.Snapshot

Every replica that waits for the end of a BGSAVE waits for a child that will serve it,
in every run in which no start of a BGSAVE fails half-way: the differences of the
replica began to be recorded at the fork of that child.
-/

namespace Redis.Replication

open List

variable {δ : Type}

/-! ## The property -/

/-- A child is running that will serve the replica: one that writes to disk and was
forked when the differences of the replica were already recorded, or one that has its
descriptor. -/
def Served (sv : Server δ) (c : Client) : Prop :=
  ∃ child f, sv.rdbChild = some child ∧ sv.forks[child.pid]? = some f ∧
    match child.type with
    | .disk => c.since ≤ f.offset
    | .socket clientids => c.id ∈ clientids

/-- The differences of the replica are recorded since the fork of the child that is
running, which has its descriptor if it writes to sockets. -/
def Records (sv : Server δ) (c : Client) : Prop :=
  ∃ child f, sv.rdbChild = some child ∧ sv.forks[child.pid]? = some f ∧ c.since = f.offset ∧
    ∀ clientids, child.type = .socket clientids → c.id ∈ clientids

theorem Records.served {sv : Server δ} {c : Client} (h : Records sv c) : Served sv c := by
  obtain ⟨⟨pid, type⟩, f, hchild, hf, hsince, hids⟩ := h
  refine ⟨_, f, hchild, hf, ?_⟩
  cases type with
  | disk => exact hsince.le
  | socket clientids => exact hids clientids rfl

/-! ## The invariant -/

/-- The forks lie in the stream, and the differences of every replica begin at the fork
of its RDB. -/
structure Recording (sv : Server δ) : Prop where
  wf : sv.toMaster.Wf
  offset_le : ∀ f ∈ sv.forks, f.offset ≤ sv.stream.length
  closeAfterReply : ∀ c ∈ sv.slaves, c.closeAfterReply = false
  waits : ∀ c ∈ sv.slaves, c.replstate = .waitBgsaveEnd → Records sv c
  start : ∀ c ∈ sv.slaves, c.replstate = .waitBgsaveStart → c.rdb = none
  rdb : ∀ c ∈ sv.slaves, ∀ pid, c.rdb = some pid →
    ∃ f, sv.forks[pid]? = some f ∧ c.since = f.offset

section

variable {exec : Int → List Bytes → δ → δ} {ok : Server δ → Event → Prop}
  {sv sv' : Server δ} {c c' : Client}

/-- What is recorded depends on the child, the forks, and the client's id and `since`. -/
theorem Records.congr (h : Records sv c) (hchild : sv'.rdbChild = sv.rdbChild)
    (hforks : sv'.forks = sv.forks) (hid : c'.id = c.id) (hsince : c'.since = c.since) :
    Records sv' c' := by
  rw [Records] at h ⊢
  rwa [hchild, hforks, hid, hsince]

/-- At most the queue of the client has changed, or its RDB has been sent. -/
structure Client.Kept (c c' : Client) : Prop where
  id : c'.id = c.id
  since : c'.since = c.since
  rdb : c'.rdb = c.rdb
  fullresync : c'.fullresync = c.fullresync
  closeAfterReply : c'.closeAfterReply = c.closeAfterReply
  replstate : c'.replstate = c.replstate ∨ c.replstate = .sendBulk ∧ c'.replstate = .online

theorem Client.Kept.refl (c : Client) : c.Kept c := ⟨rfl, rfl, rfl, rfl, rfl, .inl rfl⟩

theorem Client.Alike.kept (h : c.Alike c') : c.Kept c' :=
  ⟨h.id, h.since, h.rdb, h.fullresync, h.closeAfterReply, h.replstate⟩

/-- A replica that still waits waits as before. -/
theorem Client.Kept.replstate_eq (h : c.Kept c') (hne : c'.replstate ≠ .online) :
    c'.replstate = c.replstate := h.replstate.resolve_right fun hr => hne hr.2

/-- Replicas are freed, and others change at most in their queue. -/
theorem Recording.of_kept (h : Recording sv) (hwf : sv'.toMaster.Wf)
    (hchild : sv'.rdbChild = sv.rdbChild) (hforks : sv'.forks = sv.forks)
    (hstream : sv.stream.length ≤ sv'.stream.length)
    (hslaves : ∀ c' ∈ sv'.slaves, ∃ c ∈ sv.slaves, c.Kept c') : Recording sv' where
  wf := hwf
  offset_le f hf := (h.offset_le f (hforks ▸ hf)).trans hstream
  closeAfterReply c' hc' := by
    obtain ⟨c, hc, hk⟩ := hslaves c' hc'
    rw [hk.closeAfterReply, h.closeAfterReply c hc]
  waits c' hc' hend := by
    obtain ⟨c, hc, hk⟩ := hslaves c' hc'
    have hstate := hk.replstate_eq (by simp [hend])
    exact (h.waits c hc (hstate ▸ hend)).congr hchild hforks hk.id hk.since
  start c' hc' hstart := by
    obtain ⟨c, hc, hk⟩ := hslaves c' hc'
    have hstate := hk.replstate_eq (by simp [hstart])
    rw [hk.rdb, h.start c hc (hstate ▸ hstart)]
  rdb c' hc' pid hpid := by
    obtain ⟨c, hc, hk⟩ := hslaves c' hc'
    rw [hforks, hk.since]
    exact h.rdb c hc pid (hk.rdb ▸ hpid)

/-- The creation of a backlog is the only change to the stream when a replica is attached,
and then there are no other replicas. -/
theorem Attached.stream_of_mem (ha : Attached c sv sv') (hwf : sv.toMaster.Wf)
    (hmem : c' ∈ sv.slaves) : sv'.stream = sv.stream := by
  rcases ha.stream with ⟨hs, -⟩ | ⟨-, hnone⟩
  · exact hs
  · have := hwf.backlog (ne_nil_of_mem hmem)
    rw [Option.isNone_iff_eq_none] at hnone
    simp [hnone] at this

/-- A replica is attached, by itself or together with others. -/
theorem Recording.attach (h : Recording sv) (ha : Attached c sv sv') (hfresh : c.Fresh)
    (hend : c.replstate = .waitBgsaveEnd → Records sv c) : Recording sv' where
  wf := ha.wf
  offset_le f hf := by
    have := h.offset_le f (ha.forks ▸ hf)
    rcases ha.stream with ⟨hs, -⟩ | ⟨hs, -⟩ <;> rw [hs] <;> simp <;> omega
  closeAfterReply c' hc' := by
    rw [ha.slaves] at hc'
    rcases mem_append.mp hc' with hc' | hc'
    · exact h.closeAfterReply c' hc'
    · rw [mem_singleton.mp hc', hfresh.closeAfterReply]
  waits c' hc' hstate := by
    rw [ha.slaves] at hc'
    rcases mem_append.mp hc' with hc' | hc'
    · exact (h.waits c' hc' hstate).congr ha.rdbChild ha.forks rfl rfl
    · rw [mem_singleton] at hc'
      subst hc'
      exact (hend hstate).congr ha.rdbChild ha.forks rfl rfl
  start c' hc' hstart := by
    rw [ha.slaves] at hc'
    rcases mem_append.mp hc' with hc' | hc'
    · exact h.start c' hc' hstart
    · rw [mem_singleton.mp hc', hfresh.rdb]
  rdb c' hc' pid hpid := by
    rw [ha.slaves] at hc'
    rcases mem_append.mp hc' with hc' | hc'
    · rw [ha.forks]
      exact h.rdb c' hc' pid hpid
    · rw [mem_singleton.mp hc', hfresh.rdb] at hpid
      cases hpid

variable (s : Bytes)

@[simp] theorem addReplyString_id (c : Client) : (addReplyString s c).id = c.id := by
  by_cases h : c.closeAfterReply <;> simp [addReplyString, h]

@[simp] theorem addReplyString_since (c : Client) : (addReplyString s c).since = c.since := by
  by_cases h : c.closeAfterReply <;> simp [addReplyString, h]

@[simp] theorem addReplyString_rdb (c : Client) : (addReplyString s c).rdb = c.rdb := by
  by_cases h : c.closeAfterReply <;> simp [addReplyString, h]

@[simp] theorem addReplyString_fullresync (c : Client) :
    (addReplyString s c).fullresync = c.fullresync := by
  by_cases h : c.closeAfterReply <;> simp [addReplyString, h]

@[simp] theorem addReplyString_closeAfterReply (c : Client) :
    (addReplyString s c).closeAfterReply = c.closeAfterReply := by
  by_cases h : c.closeAfterReply <;> simp [addReplyString, h]

theorem Client.kept_addReplyString (c : Client) : c.Kept (addReplyString s c) :=
  ⟨by simp, by simp, by simp, by simp, by simp, by simp⟩

/-- A call of `replicationFeedSlaves` changes the queues and nothing else. -/
theorem Recording.call (h : Recording sv) {m : Master} {dictid : Int} {argv : List Robj} {data : δ}
    (hm : replicationFeedSlaves dictid argv sv.toMaster = some m) :
    Recording { sv with toMaster := m, data } := by
  have hwf := h.wf.call hm
  obtain ⟨-, -, heq⟩ | ⟨-, m', heq, -, -, hstream, -, -, hslaves⟩ :=
    replicationFeedSlaves_spec h.wf dictid argv
  · obtain rfl := Option.some.inj (heq.symm.trans hm)
    exact h.of_kept hwf rfl rfl le_rfl fun c hc => ⟨c, hc, .refl c⟩
  · obtain rfl := Option.some.inj (heq.symm.trans hm)
    refine h.of_kept hwf rfl rfl (by simp [hstream]) fun c' hc' => ?_
    simp only [hslaves, mem_map] at hc'
    obtain ⟨c, hc, rfl⟩ := hc'
    exact ⟨c, hc, c.kept_addReplyString _⟩

/-- One more fork: what is recorded for replicas that wait for another child is lost
only where there is one. -/
theorem getElem?_forked {type : RdbType} {pid : Nat} {f : Fork δ} (h : sv.forks[pid]? = some f) :
    (sv.forked type).forks[pid]? = some f := by
  obtain ⟨hlt, -⟩ := List.getElem?_eq_some_iff.mp h
  rw [Server.forked, getElem?_append_left hlt, h]

theorem Recording.offset_le_forked (h : Recording sv) (type : RdbType) :
    ∀ f ∈ (sv.forked type).forks, f.offset ≤ sv.stream.length := by
  intro f hf
  rcases mem_append.mp hf with hf | hf
  · exact h.offset_le f hf
  · rw [mem_singleton.mp hf]

theorem Recording.save (h : Recording sv) (hnone : sv.rdbChild = none) :
    Recording (sv.forked .disk) where
  wf := ⟨h.wf.inv, h.wf.backlog⟩
  offset_le := h.offset_le_forked .disk
  closeAfterReply := h.closeAfterReply
  waits c hc hend := by
    obtain ⟨child, -, hchild, -⟩ := h.waits c hc hend
    rw [hnone] at hchild
    cases hchild
  start := h.start
  rdb c hc pid hpid := by
    obtain ⟨f, hf, hsince⟩ := h.rdb c hc pid hpid
    exact ⟨f, getElem?_forked hf, hsince⟩

theorem startRecording_of_eq {stream : List (Option UInt8)}
    (h : c.replstate = .waitBgsaveStart) : c.startRecording stream =
      { c with replstate := .waitBgsaveEnd, since := stream.length } := by
  rw [Client.startRecording, if_pos h]

/-- A BGSAVE for all replicas that wait for one. -/
theorem Recording.record (h : Recording sv) (hnone : sv.rdbChild = none) {type : RdbType}
    (htype : type = .disk ∨
      type = .socket ((sv.slaves.filter (·.replstate = .waitBgsaveStart)).map (·.id))) :
    Recording (Server.forked type
      { sv with slaves := sv.slaves.map (·.startRecording sv.stream) }) := by
  have hmem : ∀ c' ∈ sv.slaves.map (·.startRecording sv.stream), ∃ c ∈ sv.slaves,
      c.replstate ≠ .waitBgsaveStart ∧ c' = c ∨ c.replstate = .waitBgsaveStart ∧
        c' = { c with replstate := .waitBgsaveEnd, since := sv.stream.length } := by
    intro c' hc'
    obtain ⟨c, hc, rfl⟩ := mem_map.mp hc'
    by_cases hs : c.replstate = .waitBgsaveStart
    · exact ⟨c, hc, .inr ⟨hs, startRecording_of_eq hs⟩⟩
    · exact ⟨c, hc, .inl ⟨hs, startRecording_of_ne hs⟩⟩
  refine ⟨⟨h.wf.inv, fun hne => h.wf.backlog ?_⟩, h.offset_le_forked type, ?_, ?_, ?_, ?_⟩
  · rintro hnil
    simp [Server.forked, hnil] at hne
  · intro c' hc'
    obtain ⟨c, hc, ⟨-, rfl⟩ | ⟨-, rfl⟩⟩ := hmem c' hc'
    · exact h.closeAfterReply c' hc
    · exact h.closeAfterReply c hc
  · intro c' hc' hend
    obtain ⟨c, hc, ⟨-, rfl⟩ | ⟨hs, rfl⟩⟩ := hmem c' hc'
    · obtain ⟨child, -, hchild, -⟩ := h.waits c' hc hend
      rw [hnone] at hchild
      cases hchild
    · refine ⟨⟨sv.forks.length, type⟩, ⟨sv.stream.length, sv.data⟩, rfl, by simp [Server.forked],
        rfl, ?_⟩
      rintro clientids rfl
      obtain htype | htype := htype
      · cases htype
      · cases htype
        exact mem_map.mpr ⟨c, by simp [hc, hs], rfl⟩
  · intro c' hc' hstart
    obtain ⟨c, hc, ⟨hs, rfl⟩ | ⟨-, rfl⟩⟩ := hmem c' hc'
    · exact absurd hstart hs
    · cases hstart
  · intro c' hc' pid hpid
    obtain ⟨c, hc, ⟨-, rfl⟩ | ⟨hs, rfl⟩⟩ := hmem c' hc'
    · obtain ⟨f, hf, hsince⟩ := h.rdb c' hc pid hpid
      exact ⟨f, getElem?_forked hf, hsince⟩
    · rw [h.start c hc hs] at hpid
      cases hpid

/-- The child has ended: the replicas that waited for it have its RDB. -/
theorem Recording.ended (h : Recording sv) {child : Child} {f : Client → Option Client}
    (hchild : sv.rdbChild = some child) (hf : ∀ c ∈ sv.slaves, c.Ends child.pid (f c)) :
    Recording { sv with rdbChild := none, slaves := sv.slaves.filterMap f } := by
  have hmem : ∀ c' ∈ sv.slaves.filterMap f, ∃ c ∈ sv.slaves, c.Ends child.pid (some c') := by
    intro c' hc'
    obtain ⟨c, hc, heq⟩ := mem_filterMap.mp hc'
    exact ⟨c, hc, heq ▸ hf c hc⟩
  refine ⟨⟨h.wf.inv, fun hne => h.wf.backlog ?_⟩, h.offset_le, ?_, ?_, ?_, ?_⟩
  · rintro hnil
    simp [hnil] at hne
  · intro c' hc'
    obtain ⟨c, hc, hends⟩ := hmem c' hc'
    cases hends with
    | other => exact h.closeAfterReply c' hc
    | served _ _ _ _ _ _ _ _ _ hclose => rw [hclose, h.closeAfterReply c hc]
  · intro c' hc' hend
    obtain ⟨c, hc, hends⟩ := hmem c' hc'
    cases hends with
    | other hne => exact absurd hend hne
    | served _ _ hs => simp [hend] at hs
  · intro c' hc' hstart
    obtain ⟨c, hc, hends⟩ := hmem c' hc'
    cases hends with
    | other => exact h.start c' hc hstart
    | served _ _ hs => simp [hstart] at hs
  · intro c' hc' pid hpid
    obtain ⟨c, hc, hends⟩ := hmem c' hc'
    cases hends with
    | other => exact h.rdb c' hc pid hpid
    | served _ hend _ hrdb _ _ _ hsince =>
      obtain ⟨child', g, hchild', hg, hsince', -⟩ := h.waits c hc hend
      rw [hchild] at hchild'
      cases hchild'
      rw [hrdb] at hpid
      cases hpid
      exact ⟨g, hg, hsince.trans hsince'⟩

theorem Micro.recording (hm : Micro exec ok sv sv') (h : Recording sv) : Recording sv' := by
  have hwf := hm.wf h.wf
  cases hm with
  | write dictid argv _ hm => exact h.call hm
  | ping cr _ _ hm => exact h.call hm
  | free p =>
    exact h.of_kept hwf rfl rfl le_rfl fun c hc => ⟨c, (mem_filter.mp hc).1, .refl c⟩
  | modify f hf =>
    refine h.of_kept hwf rfl rfl le_rfl fun c' hc' => ?_
    obtain ⟨c, hc, rfl⟩ := mem_map.mp hc'
    exact ⟨c, hc, (hf c hc).kept⟩
  | ended child f hchild hf => exact h.ended hchild hf
  | save hnone => exact h.save hnone
  | record type hnone htype => exact h.record hnone htype
  | attachStart c hfresh hstate _ _ ha => exact h.attach ha hfresh (by simp [hstate])
  | attachEnd req c child _ _ _ _ _ hfresh _ _ hsince _ hchild htype hf ha =>
    refine h.attach ha hfresh fun _ => ⟨child, _, hchild, hf, hsince, ?_⟩
    simp [htype]
  | attachCopy req c slave pid _ _ hfresh _ hmem hend _ _ hsince _ hchild ha =>
    refine h.attach ha hfresh fun _ => ?_
    obtain ⟨child, f, hchild', hf, hsince', -⟩ := h.waits slave hmem hend
    rw [hchild] at hchild'
    cases hchild'
    exact ⟨_, f, hchild, hf, hsince.trans hsince', by simp⟩
  | attachOnline c replicas hfresh hstate _ _ =>
    refine ⟨hwf, h.offset_le, ?_, ?_, ?_, ?_⟩
    · intro c' hc'
      rcases mem_append.mp hc' with hc' | hc'
      · exact h.closeAfterReply c' hc'
      · rw [mem_singleton.mp hc', hfresh.closeAfterReply]
    · intro c' hc' hend
      rcases mem_append.mp hc' with hc' | hc'
      · exact h.waits c' hc' hend
      · rw [mem_singleton.mp hc', hstate] at hend
        cases hend
    · intro c' hc' hstart
      rcases mem_append.mp hc' with hc' | hc'
      · exact h.start c' hc' hstart
      · rw [mem_singleton.mp hc', hfresh.rdb]
    · intro c' hc' pid hpid
      rcases mem_append.mp hc' with hc' | hc'
      · exact h.rdb c' hc' pid hpid
      · rw [mem_singleton.mp hc', hfresh.rdb] at hpid
        cases hpid
  | other hslaves hstream _ _ hforks hchild _ =>
    exact h.of_kept hwf hchild hforks (by rw [hstream]) fun c hc => ⟨c, hslaves ▸ hc, .refl c⟩

theorem Micros.recording (hm : Micros exec ok sv sv') (h : Recording sv) : Recording sv' := by
  induction hm with
  | refl => exact h
  | tail _ hm ih => exact hm.recording ih

theorem Recording.init {data : δ} {runid : Bytes} {diskless : Bool} {delay timeout : Int} :
    Recording (Server.init data runid diskless delay timeout) where
  wf := ⟨⟨rfl, by simp [Server.init, Backlog.init]; decide, by simp [Server.init, Backlog.init]⟩, by simp [Server.init]⟩
  offset_le := by simp [Server.init]
  closeAfterReply := by simp [Server.init]
  waits := by simp [Server.init]
  start := by simp [Server.init]
  rdb := by simp [Server.init]

/-- Every state of a run in which no start of a BGSAVE fails half-way. -/
theorem Server.Reachable.recording (hsafe : ∀ sv ev, ok sv ev → Event.Safe sv ev)
    (h : Server.Reachable exec ok sv) : Recording sv := by
  induction h with
  | init => exact .init
  | step _ hok hstep ih =>
    exact (Server.step_micros ih.wf hok (hsafe _ _ hok) hstep).recording ih

/-- In every run in which no start of a BGSAVE fails half-way, a replica that waits for
the end of a BGSAVE waits for a child that will serve it. -/
theorem waiting_is_served (h : Server.Reachable exec Event.Safe sv) :
    ∀ c ∈ sv.slaves, c.replstate = .waitBgsaveEnd → Served sv c :=
  fun c hc hend => ((h.recording fun _ _ => id).waits c hc hend).served

theorem Server.Reachable.mono {ok' : Server δ → Event → Prop} (h : Server.Reachable exec ok sv)
    (hok : ∀ sv ev, ok sv ev → ok' sv ev) : Server.Reachable exec ok' sv := by
  induction h with
  | init data runid diskless delay timeout => exact .init data runid diskless delay timeout
  | step _ hev hstep ih => exact ih.step (hok _ _ hev) hstep

/-- Several events, one after the other. -/
def Server.run (exec : Int → List Bytes → δ → δ) (evs : List Event) (sv : Server δ) :
    Option (Server δ) := evs.foldlM (fun sv ev => sv.step exec ev) sv

theorem Server.Reachable.run (h : Server.Reachable exec (fun _ _ => True) sv) (evs : List Event)
    (hrun : sv.run exec evs = some sv') : Server.Reachable exec (fun _ _ => True) sv' := by
  induction evs generalizing sv with
  | nil =>
    obtain rfl := Option.some.inj hrun
    exact h
  | cons ev evs ih =>
    rw [Server.run, foldlM_cons] at hrun
    obtain ⟨sv₁, hstep, hrest⟩ := Option.bind_eq_some_iff.mp hrun
    exact ih (h.step trivial hstep) hrest

end

/-- A `SYNC` of the client `id` on a system on which everything succeeds. -/
def SyncRequest.sync (id : Nat) : SyncRequest where
  id := id
  psync := none
  pending := false
  written := true
  os := ⟨true, true⟩
  mem := fun _ => 0

/-- The end of a child that has succeeded. -/
def Exit.success (os : Os) : Exit where
  ok := true
  report := true
  errors := fun _ => 0
  opened := fun _ => true
  os := os

theorem waiting_is_served_sync : ∃ (sv : Server Unit) (c : Client),
    c ∈ sv.slaves ∧ c.replstate = .waitBgsaveEnd ∧ Served sv c := by
  let sv₀ : Server Unit := .init () [] false 5 60
  obtain ⟨sv, hstep, c, hc, hend⟩ : ∃ sv, sv₀.step (fun _ _ d => d) (.sync (.sync 1)) = some sv ∧
      ∃ c ∈ sv.slaves, c.replstate = .waitBgsaveEnd := ⟨_, rfl, _, .head _, rfl⟩
  have hsafe : Event.Safe sv₀ (.sync (.sync 1)) := trivial
  have hr := Server.Reachable.step (.init () [] false 5 60) hsafe hstep
  exact ⟨sv, c, hc, hend, waiting_is_served hr c hc hend⟩

/-- The replica 1 has asked for a resynchronisation while a BGSAVE was running, and the
fork for it fails when that one ends. -/
def failedFork : List Event :=
  [.bgsave ⟨true, true⟩, .sync (.sync 1), .childDone (.success ⟨true, false⟩)]

/-- A replica is left behind that waits for nothing. -/
theorem waiting_unserved : ¬ ∀ sv : Server Unit,
    Server.Reachable (fun _ _ d => d) (fun _ _ => True) sv →
      ∀ c ∈ sv.slaves, c.replstate = .waitBgsaveEnd → Served sv c := by
  intro hall
  obtain ⟨sv, hrun, hchild, c, hc, hend⟩ : ∃ sv : Server Unit,
      (Server.init () [] false 5 60).run (fun _ _ d => d) failedFork = some sv ∧
        sv.rdbChild = none ∧ ∃ c ∈ sv.slaves, c.replstate = .waitBgsaveEnd :=
    ⟨_, rfl, rfl, _, .head _, rfl⟩
  have hr := Server.Reachable.run (.init () [] false 5 60) failedFork hrun
  obtain ⟨child, -, hchild', -⟩ := hall sv hr c hc hend
  rw [hchild] at hchild'
  cases hchild'

end Redis.Replication
