import Redis.Sentinel.Restore

/-!
# Redis.Sentinel.Reload

What a Sentinel finds when it starts again, whether or not its state could be restored in
full: if the words that were written are plain, a file that loads at all has the epoch of
the last vote for every master.
-/

namespace Redis.Sentinel

open Redis.Config List
open Redis.Sds
open Redis.Bus (strcaseEq)

variable {name host port : Bytes} {ms ms' : List Master} {s : Statement}
  {args : List Bytes} {m' : Master}
  {directive : Bytes → List Bytes → Option String}

/-! ## What a statement does -/

/-- What a statement about a master leaves of it. -/
structure Edit (env : Env) (s : Statement) (args : List Bytes) (m m' : Master) : Prop where
  name : m'.name = m.name
  leader : m'.leader = m.leader
  promoted : m'.promotedSlave = m.promotedSlave
  failoverEpoch : m'.failoverEpoch = m.failoverEpoch
  leaderEpoch : s ≠ .leaderEpoch → m'.leaderEpoch = m.leaderEpoch
  voted : s = .leaderEpoch → ∃ epoch, args = [epoch] ∧ m'.leaderEpoch = strtoull epoch
  plain : (∀ h ip, env.resolve h = some ip → plain ip = true) → (∀ w ∈ args, plain w = true) →
    m.Plain → m'.Plain

/-- What a statement does if it is no error: it adds a master, or changes one, or nothing of
the masters. -/
inductive Effect (env : Env) (s : Statement) (args : List Bytes) (ms ms' : List Master) :
    Prop where
  | added (m : Master) (rest : List Bytes) : s = .monitor → args = m.name :: rest →
      (∀ x ∈ ms, x.name ≠ m.name) → ms' = ms ++ [m] → m.leader = none → m.leaderEpoch = 0 →
      m.promotedSlave = none → m.failoverEpoch = 0 →
      ((∀ h ip, env.resolve h = some ip → plain ip = true) → plain m.name = true → m.Plain) →
      Effect env s args ms ms'
  | edited (l r : List Master) (m m' : Master) (rest : List Bytes) : s ≠ .monitor →
      args = m.name :: rest → ms = l ++ m :: r → ms' = l ++ m' :: r →
      (∀ x ∈ l, x.name ≠ m.name) → Edit env s rest m m' → Effect env s args ms ms'
  | unchanged : s ≠ .monitor → s ≠ .leaderEpoch → ms' = ms → Effect env s args ms ms'

variable {f : Master → Except String Master} {ip : Bytes} {rest : List Bytes} {runid : Option Bytes}

theorem modifyMaster_spec (h : modifyMaster name f ms = .ok ms') :
    ∃ l m r m', ms = l ++ m :: r ∧ ms' = l ++ m' :: r ∧ m.name = name ∧ f m = .ok m' ∧
      ∀ x ∈ l, x.name ≠ name := by
  induction ms generalizing ms' with
  | nil => simp [modifyMaster] at h
  | cons m ms ih =>
    rw [modifyMaster] at h
    split at h
    · rename_i hm
      cases hf : f m with
      | error e =>
        rw [hf] at h
        cases h
      | ok m' =>
        rw [hf] at h
        cases h
        exact ⟨[], m, ms, m', rfl, rfl, hm, hf, by simp⟩
    · rename_i hm
      cases hr : modifyMaster name f ms with
      | error e =>
        rw [hr] at h
        cases h
      | ok ms₁ =>
        rw [hr] at h
        cases h
        obtain ⟨l, x, r, x', rfl, rfl, hx, hf, hl⟩ := ih hr
        refine ⟨m :: l, x, r, x', rfl, rfl, hx, hf, ?_⟩
        intro y hy
        rcases mem_cons.mp hy with rfl | hy
        · exact hm
        · exact hl y hy

theorem effect_onMaster {env : Env} {st st' : SentinelState} (hs : s ≠ .monitor)
    (hedit : ∀ m m', f m = .ok m' → Edit env s rest m m') (h : onMaster st name f = .ok st') :
    Effect env s (name :: rest) st.masters st'.masters := by
  unfold onMaster at h
  cases hm : modifyMaster name f st.masters with
  | error e =>
    rw [hm] at h
    cases h
  | ok ms =>
    rw [hm] at h
    cases h
    obtain ⟨l, m, r, m', heq, heq', rfl, hf, hl⟩ := modifyMaster_spec hm
    exact .edited l r m m' rest hs rfl heq heq' hl (hedit m m' hf)

/-- A change that keeps everything but one field that is not the vote. -/
theorem edit_of_eq {env : Env} {m : Master} (hs : s ≠ .leaderEpoch) (hname : m'.name = m.name)
    (hleader : m'.leader = m.leader) (hpromoted : m'.promotedSlave = m.promotedSlave)
    (hfailover : m'.failoverEpoch = m.failoverEpoch) (hepoch : m'.leaderEpoch = m.leaderEpoch)
    (hplain : (∀ h ip, env.resolve h = some ip → plain ip = true) →
      (∀ w ∈ args, plain w = true) → m.Plain → m'.Plain) : Edit env s args m m' :=
  ⟨hname, hleader, hpromoted, hfailover, fun _ => hepoch, fun h => absurd h hs, hplain⟩

theorem Master.Plain.congr {m : Master} (h : m.Plain) (hname : m'.name = m.name)
    (haddr : sentinelGetCurrentMasterAddress m' = sentinelGetCurrentMasterAddress m)
    (hns : ∀ p, m'.notificationScript = some p → plain p = true)
    (hcs : ∀ p, m'.clientReconfigScript = some p → plain p = true)
    (hpass : ∀ p, m'.authPass = some p → plain p = true)
    (hslaves : ∀ ri ∈ m'.slaves, plain ri.addr.ip = true) (hsentinels : ∀ ri ∈ m'.sentinels,
      plain ri.addr.ip = true ∧ ∀ r, ri.runid = some r → plain r = true) : m'.Plain where
  name := by
    rw [hname]
    exact h.name
  addr := by
    rw [haddr]
    exact h.addr
  notificationScript := hns
  clientReconfigScript := hcs
  authPass := hpass
  slaves := hslaves
  sentinels := hsentinels

theorem Master.Plain.same {m : Master} (h : m.Plain) (hname : m'.name = m.name)
    (haddr : sentinelGetCurrentMasterAddress m' = sentinelGetCurrentMasterAddress m)
    (hns : m'.notificationScript = m.notificationScript)
    (hcs : m'.clientReconfigScript = m.clientReconfigScript) (hpass : m'.authPass = m.authPass)
    (hslaves : m'.slaves = m.slaves) (hsentinels : m'.sentinels = m.sentinels) : m'.Plain := by
  apply h.congr hname haddr
  · rw [hns]
    exact h.notificationScript
  · rw [hcs]
    exact h.clientReconfigScript
  · rw [hpass]
    exact h.authPass
  · rw [hslaves]
    exact h.slaves
  · rw [hsentinels]
    exact h.sentinels

theorem createSentinelAddr_ip {env : Env} {port : Int} {a : Addr}
    (h : createSentinelAddr env host port = .ok a) : env.resolve host = some a.ip := by
  unfold createSentinelAddr at h
  split at h
  · simp at h
  · split at h
    · simp at h
    · rename_i ip hip
      cases h
      exact hip

/-- A new instance stands at the end of the table, with a resolved address. -/
theorem createInstance_spec {env : Env} {table table' : List Instance} {port : Int}
    (h : createInstance env table host port runid = .ok table') :
    ∃ ri : Instance, table' = table ++ [ri] ∧ env.resolve host = some ri.addr.ip ∧
      ri.runid = runid := by
  unfold createInstance at h
  cases ha : createSentinelAddr env host port with
  | error e =>
    rw [ha] at h
    cases h
  | ok a =>
    rw [ha] at h
    simp only [bind, Except.bind] at h
    split at h
    · simp at h
    · cases h
      exact ⟨_, rfl, createSentinelAddr_ip ha, rfl⟩

theorem effect_monitor {env : Env} {st st' : SentinelState} {quorum : Bytes}
    (h : handleMonitor env st name host port quorum = .ok st') :
    Effect env .monitor [name, host, port, quorum] st.masters st'.masters := by
  unfold handleMonitor at h
  split at h
  · simp at h
  · split at h
    · rename_i st₁ hcreate
      cases h
      unfold createMaster at hcreate
      cases ha : createSentinelAddr env host (atoi port) with
      | error e =>
        rw [ha] at hcreate
        cases hcreate
      | ok a =>
        rw [ha] at hcreate
        simp only [bind, Except.bind] at hcreate
        split at hcreate
        · simp at hcreate
        · rename_i hany
          cases hcreate
          refine .added _ _ rfl rfl ?_ rfl rfl rfl rfl rfl ?_
          · intro x hx heq
            exact hany (any_eq_true.mpr ⟨x, hx, by simpa using heq⟩)
          · intro henv hname
            exact ⟨hname, henv _ _ (createSentinelAddr_ip ha), by simp, by simp, by simp, by simp,
              by simp⟩
    · simp at h
    · simp at h
    · simp at h

theorem effect_timeout {env : Env} {st st' : SentinelState} {value : Bytes}
    {set : Int → Master → Master} (hs : s ≠ .monitor)
    (hset : ∀ v m, Edit env s [value] m (set v m)) (h : handleTimeout st name value set = .ok st') :
    Effect env s [name, value] st.masters st'.masters := by
  refine effect_onMaster hs ?_ h
  intro m m' hm
  split at hm
  · simp at hm
  · cases hm
    exact hset _ m

theorem effect_script {env : Env} {st st' : SentinelState} {path : Bytes} {err : String}
    {set : Bytes → Master → Master} (hs : s ≠ .monitor)
    (hset : ∀ m, Edit env s [path] m (set path m))
    (h : handleScript env st name path err set = .ok st') :
    Effect env s [name, path] st.masters st'.masters := by
  refine effect_onMaster hs ?_ h
  intro m m' hm
  split at hm
  · cases hm
    exact hset m
  · simp at hm

theorem effect_configEpoch {env : Env} {st st' : SentinelState} {epoch : Bytes}
    (h : handleConfigEpoch st name epoch = .ok st') :
    Effect env .configEpoch [name, epoch] st.masters st'.masters := by
  unfold handleConfigEpoch at h
  cases hm : onMaster st name fun ri => .ok { ri with configEpoch := strtoull epoch } with
  | error e =>
    rw [hm] at h
    cases h
  | ok st₁ =>
    rw [hm] at h
    cases h
    have heffect : Effect env .configEpoch [name, epoch] st.masters st₁.masters := by
      refine effect_onMaster (by decide) ?_ hm
      intro m m' hm
      cases hm
      exact edit_of_eq (by decide) rfl rfl rfl rfl rfl fun _ _ hp =>
        hp.same rfl rfl rfl rfl rfl rfl rfl
    exact heffect

theorem effect_knownSlave {env : Env} {st st' : SentinelState}
    (h : handleKnownSlave env st name ip port = .ok st') :
    Effect env .knownSlave [name, ip, port] st.masters st'.masters := by
  refine effect_onMaster (by decide) ?_ h
  intro m m' hm
  split at hm
  · rename_i slaves hcreate
    cases hm
    obtain ⟨ri, rfl, hip, -⟩ := createInstance_spec hcreate
    refine edit_of_eq (by decide) rfl rfl rfl rfl rfl fun henv _ hp => hp.congr rfl rfl
      hp.notificationScript hp.clientReconfigScript hp.authPass ?_ hp.sentinels
    intro x hx
    rcases mem_append.mp hx with hx | hx
    · exact hp.slaves x hx
    · rw [mem_singleton.mp hx]
      exact henv _ _ hip
  · simp at hm

theorem effect_knownSentinel {env : Env} {st st' : SentinelState}
    (h : handleKnownSentinel env st name ip port runid = .ok st') :
    Effect env .knownSentinel (name :: ip :: port :: runid.toList) st.masters st'.masters := by
  refine effect_onMaster (by decide) ?_ h
  intro m m' hm
  split at hm
  · rename_i sentinels hcreate
    cases hm
    obtain ⟨ri, rfl, hip, hrunid⟩ := createInstance_spec hcreate
    refine edit_of_eq (by decide) rfl rfl rfl rfl rfl fun henv hargs hp => hp.congr rfl rfl
      hp.notificationScript hp.clientReconfigScript hp.authPass hp.slaves ?_
    intro x hx
    rcases mem_append.mp hx with hx | hx
    · exact hp.sentinels x hx
    · rw [mem_singleton.mp hx]
      refine ⟨henv _ _ hip, ?_⟩
      intro r hr
      apply hargs
      rw [← hrunid, hr]
      simp
  · simp at hm

theorem handle_effect {env : Env} {st st' : SentinelState} (h : s.handle env st args = .ok st') :
    Effect env s args st.masters st'.masters := by
  unfold Statement.handle at h
  split at h
  · exact effect_monitor h
  · refine effect_timeout (by decide) ?_ h
    intro v m
    exact edit_of_eq (by decide) rfl rfl rfl rfl rfl fun _ _ hp => hp.same rfl rfl rfl rfl rfl rfl rfl
  · refine effect_timeout (by decide) ?_ h
    intro v m
    exact edit_of_eq (by decide) rfl rfl rfl rfl rfl fun _ _ hp => hp.same rfl rfl rfl rfl rfl rfl rfl
  · refine effect_onMaster (by decide) ?_ h
    intro m m' hm
    cases hm
    exact edit_of_eq (by decide) rfl rfl rfl rfl rfl fun _ _ hp => hp.same rfl rfl rfl rfl rfl rfl rfl
  · refine effect_script (by decide) ?_ h
    intro m
    refine edit_of_eq (by decide) rfl rfl rfl rfl rfl fun _ hargs hp => hp.congr rfl rfl ?_
      hp.clientReconfigScript hp.authPass hp.slaves hp.sentinels
    rintro p ⟨⟩
    exact hargs _ (by simp)
  · refine effect_script (by decide) ?_ h
    intro m
    refine edit_of_eq (by decide) rfl rfl rfl rfl rfl fun _ hargs hp => hp.congr rfl rfl
      hp.notificationScript ?_ hp.authPass hp.slaves hp.sentinels
    rintro p ⟨⟩
    exact hargs _ (by simp)
  · refine effect_onMaster (by decide) ?_ h
    intro m m' hm
    cases hm
    refine edit_of_eq (by decide) rfl rfl rfl rfl rfl fun _ hargs hp => hp.congr rfl rfl
      hp.notificationScript hp.clientReconfigScript ?_ hp.slaves hp.sentinels
    rintro p ⟨⟩
    exact hargs _ (by simp)
  · cases h
    exact .unchanged (by decide) (by decide) rfl
  · exact effect_configEpoch h
  · refine effect_onMaster (by decide) ?_ h
    intro m m' hm
    cases hm
    exact ⟨rfl, rfl, rfl, rfl, fun hne => absurd rfl hne, fun _ => ⟨_, rfl, rfl⟩, fun _ _ hp =>
      hp.same rfl rfl rfl rfl rfl rfl rfl⟩
  · exact effect_knownSlave h
  · exact effect_knownSentinel h
  · exact effect_knownSentinel h
  · cases h
    refine .unchanged (by decide) (by decide) ?_
    split <;> rfl
  · cases h
    exact .unchanged (by decide) (by decide) rfl
  · simp at h

/-! ## The masters after loading -/

/-- The names of the masters. -/
def names (ms : List Master) : List Bytes := ms.map (·.name)

/-- The epoch of the last vote for a master. -/
def votedEpoch (ms : List Master) (name : Bytes) : Option Nat :=
  (ms.find? fun m => m.name == name).map (·.leaderEpoch)

/-- The masters of a Sentinel that has just started. -/
structure Fresh (ms : List Master) : Prop where
  names : (names ms).Nodup
  leader : ∀ m ∈ ms, m.leader = none
  promoted : ∀ m ∈ ms, m.promotedSlave = none
  failoverEpoch : ∀ m ∈ ms, m.failoverEpoch = 0
  leaderEpoch : ∀ m ∈ ms, m.leaderEpoch < 2 ^ 64

theorem strtoull_lt (w : Bytes) : strtoull w < 2 ^ 64 := by
  unfold strtoull
  dsimp only
  split
  · decide
  · split <;> omega

theorem Effect.names {env : Env} (h : Effect env s args ms ms') :
    (s = .monitor ∧ ∃ name rest, args = name :: rest ∧ name ∉ names ms ∧
      Sentinel.names ms' = Sentinel.names ms ++ [name]) ∨
    (s ≠ .monitor ∧ Sentinel.names ms' = Sentinel.names ms) := by
  cases h with
  | added m rest hs hargs hnew hms =>
    refine .inl ⟨hs, m.name, rest, hargs, ?_, ?_⟩
    · intro hmem
      obtain ⟨x, hx, heq⟩ := mem_map.mp hmem
      exact hnew x hx heq
    · rw [hms, Sentinel.names, map_append]
      rfl
  | edited l r m m' rest hs hargs hms hms' hl hedit =>
    refine .inr ⟨hs, ?_⟩
    rw [hms, hms', Sentinel.names, Sentinel.names, map_append, map_append, map_cons,
      map_cons, hedit.name]
  | unchanged hs _ hms =>
    exact .inr ⟨hs, by rw [hms]⟩

/-- What holds of all masters, and of a new one and a changed one, holds of all masters
then. -/
theorem Effect.forall {env : Env} (h : Effect env s args ms ms') {P : Master → Prop}
    (hold : ∀ m ∈ ms, P m)
    (hnew : ∀ (m : Master) (rest : List Bytes), args = m.name :: rest → m.leader = none →
      m.leaderEpoch = 0 → m.promotedSlave = none → m.failoverEpoch = 0 →
      ((∀ h ip, env.resolve h = some ip → plain ip = true) → plain m.name = true → m.Plain) → P m)
    (hedit : ∀ (m m' : Master) (rest : List Bytes), args = m.name :: rest → P m →
      Edit env s rest m m' → P m') : ∀ m ∈ ms', P m := by
  intro m hm
  cases h with
  | added x rest _ hargs _ hms hl h0 hp hf hplain =>
    rw [hms] at hm
    rcases mem_append.mp hm with hm | hm
    · exact hold m hm
    · rw [mem_singleton.mp hm]
      exact hnew x rest hargs hl h0 hp hf hplain
  | edited l r x x' rest _ hargs hms hms' _ hx =>
    rw [hms] at hold
    rw [hms'] at hm
    rcases mem_append.mp hm with hm | hm
    · exact hold m (mem_append_left _ hm)
    · rcases mem_cons.mp hm with rfl | hm
      · exact hedit x m rest hargs (hold x (mem_append_right _ mem_cons_self)) hx
      · exact hold m (mem_append_right _ (mem_cons_of_mem _ hm))
  | unchanged _ _ hms =>
    rw [hms] at hm
    exact hold m hm

theorem Effect.plain {env : Env} (h : Effect env s args ms ms')
    (henv : ∀ h ip, env.resolve h = some ip → plain ip = true)
    (hargs : ∀ w ∈ args, Sds.plain w = true) (hold : ∀ m ∈ ms, m.Plain) : ∀ m ∈ ms', m.Plain := by
  apply h.forall hold
  · intro m rest heq _ _ _ _ hplain
    apply hplain henv
    apply hargs
    rw [heq]
    exact mem_cons_self
  · intro m m' rest heq hm hedit
    apply hedit.plain henv _ hm
    intro w hw
    apply hargs
    rw [heq]
    exact mem_cons_of_mem _ hw

theorem Fresh.effect {env : Env} (h : Fresh ms) (he : Effect env s args ms ms') : Fresh ms' where
  names := by
    rcases he.names with ⟨-, name, -, -, hnew, hn⟩ | ⟨-, hn⟩
    · rw [hn]
      exact nodup_append.mpr ⟨h.names, by simp, by
        rintro a ha b hb rfl
        rw [mem_singleton.mp hb] at ha
        exact hnew ha⟩
    · rw [hn]
      exact h.names
  leader := by
    refine he.forall h.leader (fun _ _ _ hl _ _ _ _ => hl) ?_
    intro m m' rest _ hm hedit
    rw [hedit.leader, hm]
  promoted := by
    refine he.forall h.promoted (fun _ _ _ _ _ hp _ _ => hp) ?_
    intro m m' rest _ hm hedit
    rw [hedit.promoted, hm]
  failoverEpoch := by
    refine he.forall h.failoverEpoch (fun _ _ _ _ _ _ hf _ => hf) ?_
    intro m m' rest _ hm hedit
    rw [hedit.failoverEpoch, hm]
  leaderEpoch := by
    refine he.forall h.leaderEpoch (fun m _ _ _ h0 _ _ _ => by rw [h0]; decide) ?_
    intro m m' rest _ hm hedit
    by_cases hs : s = .leaderEpoch
    · obtain ⟨epoch, -, he⟩ := hedit.voted hs
      rw [he]
      exact strtoull_lt epoch
    · rw [hedit.leaderEpoch hs]
      exact hm

theorem find?_of_forall_ne (h : ∀ x ∈ ms, x.name ≠ name) :
    ms.find? (fun x => x.name == name) = none := by
  rw [find?_eq_none]
  intro x hx
  simpa using h x hx

theorem votedEpoch_append_singleton {m : Master} (hnew : ∀ x ∈ ms, x.name ≠ m.name)
    (name : Bytes) :
    votedEpoch (ms ++ [m]) name =
      if name = m.name then some m.leaderEpoch else votedEpoch ms name := by
  unfold votedEpoch
  rw [find?_append]
  by_cases heq : name = m.name
  · subst heq
    simp [find?_of_forall_ne hnew]
  · have hne : ¬ m.name = name := fun h => heq h.symm
    rw [if_neg heq]
    cases ms.find? (fun x => x.name == name) with
    | none => simp [hne]
    | some x => simp

theorem votedEpoch_edit {l r : List Master} {m : Master} (hl : ∀ x ∈ l, x.name ≠ m.name)
    (hname : m'.name = m.name) (name : Bytes) :
    votedEpoch (l ++ m' :: r) name =
      if name = m.name then some m'.leaderEpoch else votedEpoch (l ++ m :: r) name := by
  unfold votedEpoch
  rw [find?_append, find?_append, find?_cons, find?_cons, hname]
  by_cases heq : name = m.name
  · subst heq
    simp [find?_of_forall_ne hl]
  · have hne : (m.name == name) = false := by
      rw [beq_eq_false_iff_ne]
      exact fun h => heq h.symm
    rw [hne, if_neg heq]

/-- What a statement does to the epochs of the votes. -/
theorem Effect.votedEpoch {env : Env} (h : Effect env s (name :: rest) ms ms') (x : Bytes) :
    Sentinel.votedEpoch ms' x =
      if x ≠ name then Sentinel.votedEpoch ms x
      else if s = .monitor then some 0
      else if s = .leaderEpoch then (rest.head?.map strtoull) else Sentinel.votedEpoch ms x := by
  cases h with
  | added m rest' hs hargs hnew hms _ h0 =>
    simp only [List.cons.injEq] at hargs
    rw [hms, votedEpoch_append_singleton hnew, h0, hs, hargs.1]
    by_cases hx : x = m.name
    · simp [hx]
    · simp [hx]
  | edited l r m m' rest' hs hargs hms hms' hl hedit =>
    simp only [List.cons.injEq] at hargs
    obtain ⟨rfl, rfl⟩ := hargs
    rw [hms', votedEpoch_edit hl hedit.name, hms]
    by_cases hx : x = m.name
    · subst hx
      by_cases hv : s = .leaderEpoch
      · obtain ⟨epoch, rfl, he⟩ := hedit.voted hv
        simp [hv, he]
      · have hold : Sentinel.votedEpoch (l ++ m :: r) m.name = some m.leaderEpoch := by
          have := votedEpoch_edit (r := r) hl rfl m.name
          rwa [if_pos rfl] at this
        simp [hs, hv, hedit.leaderEpoch hv, hold]
    · simp [hx]
  | unchanged hs hv hms =>
    rw [hms]
    simp [hs, hv]

/-! ## Loading what was written -/

section Reload

variable {env : Env} {st st' : SentinelState}

/-- What every statement keeps is kept by lines in order. -/
theorem runLines_induct (P : SentinelState → Prop) {lines : List (List Bytes)}
    (hstep : ∀ line ∈ lines, ∀ st st', P st → runLines env st [line] = .ok st' → P st')
    (h : P st) (hrun : runLines env st lines = .ok st') : P st' := by
  induction lines generalizing st with
  | nil =>
    cases hrun
    exact h
  | cons line lines ih =>
    cases hline : runLines env st [line] with
    | error e =>
      have herror : runLines env st (line :: lines) = .error e := by
        simp only [runLines, foldlM_cons, foldlM_nil] at hline ⊢
        cases hhandle : handle (sentinelHandleConfiguration env) st line.tail with
        | error e' =>
          rw [hhandle] at hline
          exact hline
        | ok st₁ =>
          rw [hhandle] at hline
          cases hline
      rw [herror] at hrun
      cases hrun
    | ok st₁ =>
      have hrest : runLines env st₁ lines = .ok st' := by
        rw [← hrun, ← singleton_append, runLines_append hline]
      apply ih _ _ hrest
      · intro l hl
        exact hstep l (mem_cons_of_mem _ hl)
      · exact hstep line mem_cons_self st st₁ h hline

theorem runLines_append_ok {l l' : List (List Bytes)}
    (h : runLines env st (l ++ l') = .ok st') :
    ∃ st₁, runLines env st l = .ok st₁ ∧ runLines env st₁ l' = .ok st' := by
  cases hl : runLines env st l with
  | error e =>
    unfold runLines at h hl
    rw [foldlM_append, hl] at h
    cases h
  | ok st₁ => exact ⟨st₁, rfl, by rw [← h, runLines_append hl]⟩

/-- Any line of a file has one of the effects. -/
theorem sentinelHandleConfiguration_effect {argv : List Bytes}
    (h : sentinelHandleConfiguration env st argv = .ok st') :
    ∃ s args, Effect env s args st.masters st'.masters := by
  unfold sentinelHandleConfiguration at h
  dsimp only at h
  split at h
  · exact ⟨_, _, handle_effect h⟩
  · simp at h

theorem Fresh.loadLine {line : Bytes} (h : Fresh st.masters)
    (hload : loadLine directive (sentinelHandleConfiguration env) st line = .ok st') :
    Fresh st'.masters := by
  unfold Config.loadLine at hload
  split at hload
  · cases hload
    exact h
  · simp at hload
  · split at hload
    · split at hload
      · cases hload
        exact h
      · obtain ⟨s, args, he⟩ := sentinelHandleConfiguration_effect hload
        exact h.effect he
    · split at hload
      · simp at hload
      · cases hload
        exact h

/-- A Sentinel that has just started, on any file. -/
theorem fresh_loadSentinel {file : Bytes} (h : loadSentinel env directive file = .ok st') :
    Fresh st'.masters := by
  have hfold : ∀ (lines : List Bytes) (st : SentinelState), Fresh st.masters →
      lines.foldlM (Config.loadLine directive (sentinelHandleConfiguration env)) st = .ok st' →
      Fresh st'.masters := by
    intro lines
    induction lines with
    | nil =>
      intro st hst hrun
      cases hrun
      exact hst
    | cons line lines ih =>
      intro st hst hrun
      rw [foldlM_cons] at hrun
      cases hline : Config.loadLine directive (sentinelHandleConfiguration env) st line with
      | error e =>
        rw [hline] at hrun
        cases hrun
      | ok st₁ =>
        rw [hline] at hrun
        exact ih st₁ (hst.loadLine hline) hrun
  apply hfold _ initSentinel _ h
  exact ⟨nodup_nil, by simp [initSentinel], by simp [initSentinel], by simp [initSentinel],
    by simp [initSentinel]⟩

variable {m : Master}

theorem effect_masterWords (hname : plain m.name = true) (hargs : ∀ w ∈ args, plain w = true)
    (htakes : s.takes (args.length + 1) = true)
    (h : runLines env st [masterWords s m args] = .ok st') :
    Effect env s (m.name :: args) st.masters st'.masters := by
  rw [runLines_singleton env st s args hname hargs htakes] at h
  exact handle_effect h

/-- A line behind `sentinel monitor` leaves the names, and all votes but the one it
restores. -/
theorem DetailLine.effect (hline : DetailLine m s args) (hname : Sds.plain m.name = true)
    (hepoch : m.leaderEpoch < 2 ^ 64) (h : runLines env st [masterWords s m args] = .ok st') :
    names st'.masters = names st.masters ∧
      ∀ x, votedEpoch st'.masters x =
        if x = m.name ∧ s = .leaderEpoch then some m.leaderEpoch else votedEpoch st.masters x := by
  have he := effect_masterWords hname hline.plain hline.takes h
  constructor
  · rcases he.names with ⟨hs, -⟩ | ⟨-, hn⟩
    · exact absurd hs hline.monitor
    · exact hn
  · intro x
    rw [he.votedEpoch x]
    by_cases hx : x = m.name
    · by_cases hs : s = .leaderEpoch
      · simp [hx, hs, hline.leaderEpoch hs, strtoull_decimal hepoch]
      · simp [hx, hs, hline.monitor]
    · simp [hx]

/-- The lines of a master add it, with the epoch of its vote. -/
theorem masterLines_effect (hm : m.Plain) (hepoch : m.leaderEpoch < 2 ^ 64)
    (h : runLines env st (masterLines m) = .ok st') :
    names st'.masters = names st.masters ++ [m.name] ∧
      ∀ x, votedEpoch st'.masters x =
        if x = m.name then some m.leaderEpoch else votedEpoch st.masters x := by
  have hline : masterWords .leaderEpoch m [decimal m.leaderEpoch] ∈ detailLines m := by
    simp [detailLines]
  obtain ⟨before, after, hdetails⟩ := append_of_mem hline
  have hmem : ∀ line, line ∈ before ∨ line ∈ after → line ∈ detailLines m := by
    intro line hline
    rw [hdetails]
    rcases hline with hline | hline
    · exact mem_append_left _ hline
    · exact mem_append_right _ (mem_cons_of_mem _ hline)
  rw [masterLines, ← singleton_append] at h
  obtain ⟨st₁, hmonitor, h⟩ := runLines_append_ok h
  rw [hdetails] at h
  obtain ⟨st₂, hbefore, h⟩ := runLines_append_ok h
  rw [← singleton_append] at h
  obtain ⟨st₃, hvote, hafter⟩ := runLines_append_ok h
  have he := effect_masterWords hm.name (plain_monitorArgs hm) rfl hmonitor
  have h₁ : names st₁.masters = names st.masters ++ [m.name] ∧
      ∀ x, x ≠ m.name → votedEpoch st₁.masters x = votedEpoch st.masters x := by
    constructor
    · rcases he.names with ⟨-, name, rest, hargs, -, hn⟩ | ⟨hs, -⟩
      · rw [hn, (List.cons.inj hargs).1]
      · exact absurd rfl hs
    · intro x hx
      rw [he.votedEpoch x, if_pos hx]
  have h₂ : names st₂.masters = names st.masters ++ [m.name] ∧
      ∀ x, x ≠ m.name → votedEpoch st₂.masters x = votedEpoch st.masters x := by
    refine runLines_induct (fun a => names a.masters = names st.masters ++ [m.name] ∧
      ∀ x, x ≠ m.name → votedEpoch a.masters x = votedEpoch st.masters x) ?_ h₁ hbefore
    intro line hline a b hab hrun
    obtain ⟨s, args, rfl, hd⟩ := mem_detailLines hm (hmem line (.inl hline))
    obtain ⟨hn, hv⟩ := hd.effect hm.name hepoch hrun
    refine ⟨hn.trans hab.1, ?_⟩
    intro x hx
    rw [hv x, if_neg fun h => hx h.1, hab.2 x hx]
  -- behind the line of the vote only another such line could change it
  refine runLines_induct (fun a => names a.masters = names st.masters ++ [m.name] ∧
    ∀ x, votedEpoch a.masters x =
      if x = m.name then some m.leaderEpoch else votedEpoch st.masters x) ?_ ?_ hafter
  · intro line hline a b hab hrun
    obtain ⟨s, args, rfl, hd⟩ := mem_detailLines hm (hmem line (.inr hline))
    obtain ⟨hn, hv⟩ := hd.effect hm.name hepoch hrun
    refine ⟨hn.trans hab.1, ?_⟩
    intro x
    rw [hv x, hab.2 x]
    by_cases hx : x = m.name <;> simp [hx]
  · have hd : DetailLine m .leaderEpoch [decimal m.leaderEpoch] :=
      ⟨by simp [plain_decimal], rfl, by decide, fun _ => rfl⟩
    obtain ⟨hn, hv⟩ := hd.effect hm.name hepoch hvote
    refine ⟨hn.trans h₂.1, ?_⟩
    intro x
    rw [hv x]
    by_cases hx : x = m.name
    · simp [hx]
    · rw [if_neg fun h => hx h.1, if_neg hx, h₂.2 x hx]

theorem votedEpoch_cons (m : Master) (ms : List Master) (x : Bytes) :
    votedEpoch (m :: ms) x = if x = m.name then some m.leaderEpoch else votedEpoch ms x := by
  unfold votedEpoch
  by_cases hx : x = m.name
  · simp [hx]
  · have hne : ¬ m.name = x := fun h => hx h.symm
    simp [hx, hne]

theorem votedEpoch_of_mem (h : (names ms).Nodup) {m : Master} (hm : m ∈ ms) :
    votedEpoch ms m.name = some m.leaderEpoch := by
  induction ms with
  | nil => simp at hm
  | cons x ms ih =>
    have hx := nodup_cons.mp h
    rw [votedEpoch_cons]
    rcases mem_cons.mp hm with rfl | hm
    · rw [if_pos rfl]
    · have hne : m.name ≠ x.name := by
        intro heq
        exact hx.1 (mem_map.mpr ⟨m, hm, heq⟩)
      rw [if_neg hne]
      exact ih hx.2 hm

theorem votedEpoch_eq_none {x : Bytes} (h : x ∉ names ms) : votedEpoch ms x = none := by
  unfold votedEpoch
  rw [find?_of_forall_ne]
  · rfl
  · intro m hm heq
    exact h (mem_map.mpr ⟨m, hm, heq⟩)

theorem flatMap_masterLines_effect (hms : ∀ m ∈ ms, m.Plain ∧ m.leaderEpoch < 2 ^ 64)
    (hnodup : (names ms).Nodup) (h : runLines env st (ms.flatMap masterLines) = .ok st') :
    names st'.masters = names st.masters ++ names ms ∧
      ∀ x, votedEpoch st'.masters x =
        if x ∈ names ms then votedEpoch ms x else votedEpoch st.masters x := by
  induction ms generalizing st with
  | nil =>
    cases h
    simp [names]
  | cons m ms ih =>
    rw [flatMap_cons] at h
    obtain ⟨st₁, hfirst, hrest⟩ := runLines_append_ok h
    obtain ⟨hm, hepoch⟩ := hms m mem_cons_self
    obtain ⟨hn₁, hv₁⟩ := masterLines_effect hm hepoch hfirst
    have hnot : m.name ∉ names ms := (nodup_cons.mp hnodup).1
    obtain ⟨hn, hv⟩ := ih (fun y hy => hms y (mem_cons_of_mem _ hy))
      (nodup_cons.mp hnodup).2 hrest
    constructor
    · rw [hn, hn₁, append_assoc]
      rfl
    · intro x
      have hmem : x ∈ names (m :: ms) ↔ x = m.name ∨ x ∈ names ms := mem_cons
      rw [hv x, hv₁ x, votedEpoch_cons]
      by_cases hx : x = m.name
      · subst hx
        rw [if_neg hnot, if_pos rfl, if_pos (hmem.mpr (.inl rfl)), if_pos rfl]
      · simp only [hmem, hx, false_or, if_false]

/-- The lines that are not about a master leave the masters alone. -/
theorem runLines_globalWords {st₀ : SentinelState}
    (h : runLines env st (globalWords st₀) = .ok st') : st'.masters = st.masters := by
  refine runLines_induct (fun a => a.masters = st.masters) ?_ rfl h
  intro line hline a b hab hrun
  have hone : ∀ (s : Statement) (w : Bytes), s.takes 1 = true →
      runLines env a [[sentinelOption, s.keyword, w]] = .ok b →
      s.handle env a [cstr w] = .ok b := by
    intro s w htakes hrun
    have hhandle : sentinelHandleConfiguration env a [s.keyword, w] =
        s.handle env a [cstr w] := by
      simp only [sentinelHandleConfiguration, map_cons, map_nil,
        cstr_plain (plain_keyword s)]
      rw [statementOf_keyword htakes]
      rfl
    rw [← hhandle]
    simp only [runLines, foldlM_cons, foldlM_nil, tail_cons, handle] at hrun
    cases hc : sentinelHandleConfiguration env a [s.keyword, w] with
    | error e =>
      rw [hc] at hrun
      cases hrun
    | ok c =>
      rw [hc] at hrun
      exact hrun
  simp only [globalWords, mem_append, mem_singleton, mem_map] at hline
  rcases hline with (rfl | ⟨ip, -, rfl⟩) | hline
  · cases hone .currentEpoch _ rfl hrun
    exact hab
  · cases hone .announceIp _ rfl hrun
    rw [← hab]
    split <;> rfl
  · split at hline
    · rw [mem_singleton.mp hline] at hrun
      cases hone .announcePort _ rfl hrun
      exact hab
    · simp at hline

theorem flatMap_masterLines_plain (hms : ∀ m ∈ ms, m.Plain)
    (henv : ∀ h ip, env.resolve h = some ip → plain ip = true) (hst : ∀ m ∈ st.masters, m.Plain)
    (h : runLines env st (ms.flatMap masterLines) = .ok st') : ∀ m ∈ st'.masters, m.Plain := by
  refine runLines_induct (fun a => ∀ m ∈ a.masters, m.Plain) ?_ hst h
  intro line hline a b ha hrun
  obtain ⟨m, hm, hline⟩ := mem_flatMap.mp hline
  have hname := (hms m hm).name
  have heffect : ∀ (s : Statement) (args : List Bytes), (∀ w ∈ args, plain w = true) →
      s.takes (args.length + 1) = true → line = masterWords s m args →
      ∀ m ∈ b.masters, m.Plain := by
    rintro s args hargs htakes rfl
    apply (effect_masterWords hname hargs htakes hrun).plain henv _ ha
    intro w hw
    rcases mem_cons.mp hw with rfl | hw
    · exact hname
    · exact hargs w hw
  rcases mem_cons.mp hline with hline | hline
  · exact heffect .monitor _ (plain_monitorArgs (hms m hm)) rfl hline
  · obtain ⟨s, args, hline, hd⟩ := mem_detailLines (hms m hm) hline
    exact heffect s args hd.plain hd.takes hline

/-- What the masters of two states have in common if one was loaded from what was written
of the other. -/
structure SameVotes (ms ms' : List Master) : Prop where
  names : names ms' = names ms
  votedEpoch : ∀ x, votedEpoch ms' x = votedEpoch ms x

/-- A file that was written with plain words is refused, or it has the masters and the
epochs of their votes. -/
theorem sameVotes_of_load {others : List Rewrite} {file : Bytes}
    (henv : ∀ h ip, env.resolve h = some ip → plain ip = true)
    (hothers : ∀ c ∈ others, c.Foreign Clean)
    (hms : ∀ m ∈ st.masters, m.Plain ∧ m.leaderEpoch < 2 ^ 64) (hnodup : (names st.masters).Nodup)
    (h : loadSentinel env directive (sentinelFlushConfig others st file) = .ok st') :
    SameVotes st.masters st'.masters ∧ ∀ m ∈ st'.masters, m.Plain := by
  have hreads := rewriteConfigSentinelOption_reads fun m hm => (hms m hm).1
  have hload := load_rewriteConfig hothers hreads.1 (rewriteConfigSentinelOption_ne_nil st) h
  rw [hreads.2, foldlM_tail, stateWords] at hload
  obtain ⟨st₁, hmasters, hglobal⟩ := runLines_append_ok hload
  obtain ⟨hn, hv⟩ := flatMap_masterLines_effect hms hnodup hmasters
  have hplain := flatMap_masterLines_plain (fun m hm => (hms m hm).1) henv
    (by simp [initSentinel]) hmasters
  rw [runLines_globalWords hglobal]
  refine ⟨⟨hn, ?_⟩, hplain⟩
  intro x
  rw [hv x]
  split
  · rfl
  · rename_i hx
    rw [votedEpoch_eq_none hx]
    rfl

end Reload

end Redis.Sentinel
