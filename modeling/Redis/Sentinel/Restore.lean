import Redis.Sentinel.Config

/-!
# Redis.Sentinel.Restore

The state of a Sentinel after a restart.  The lines that `rewriteConfigSentinelOption`
writes are read back as the words they were made of if these are plain words, and then
restore each master, except for a promoted slave that is already advertised: it is
listed as a slave of itself, and the old master is lost.
-/

namespace Redis.Sentinel

open Redis.Config List Option
open Redis.Sds
open Redis.Bus (strcaseEq)

variable {w : Bytes} {texts ws args line : List Bytes} {s : Statement} {a : Addr}

/-! ## Words in a line -/

/-- The text stands for the word `w` wherever it stands in a line. -/
structure Prints (text w : Bytes) : Prop where
  reads : Reads text w
  clean : Clean text
  last : ∃ body c, text = body ++ [c] ∧ isBlank c = false

theorem plainByte_clean (h : ∀ b ∈ w, plainByte b = true) : Clean w := by
  constructor
  · intro hb
    exact absurd (h 10 hb) (by decide)
  · intro hb
    exact absurd (h 0 hb) (by decide)

variable {b : UInt8} {epoch : Nat} {f : Master → Except String Master} {ms : List Master}
  {name : Bytes} {st' : SentinelState} (n : Nat)

theorem isBlank_of_plainByte (h : plainByte b = true) : isBlank b = false := by
  simp only [plainByte, Bool.not_eq_true', Bool.or_eq_false_iff] at h
  simp only [isBlank, Bool.or_eq_false_iff]
  exact ⟨⟨⟨h.1.1.2, h.1.1.1.1.1.2⟩, h.1.1.1.1.2⟩, h.1.1.1.2⟩

theorem prints_plain (h : plain w = true) : Prints w w where
  reads := reads_plain h
  clean := plainByte_clean (plainByte_of_plain h)
  last := by
    obtain ⟨b, t, hw, -⟩ := first_of_plain h
    obtain ⟨body, c, hc⟩ := eq_nil_or_concat w |>.resolve_left (by simp [hw])
    rw [concat_eq_append] at hc
    refine ⟨body, c, hc, isBlank_of_plainByte (plainByte_of_plain h c ?_)⟩
    rw [hc]
    exact mem_append_right _ (mem_singleton.mpr rfl)

theorem prints_sdscatrepr (w : Bytes) : Prints (sdscatrepr w) w where
  reads := reads_sdscatrepr w
  clean := by
    constructor
    · intro h
      exact absurd (mem_sdscatrepr h).1 (by decide)
    · intro h
      exact absurd (mem_sdscatrepr h).1 (by decide)
  last := ⟨34 :: w.flatMap reprByte, 34, by simp [sdscatrepr], by decide⟩

theorem clean_intercalate (h : Forall₂ Prints texts ws) :
    Clean (intercalate [32] texts) := by
  induction h with
  | nil => exact ⟨by simp, by simp⟩
  | @cons t w texts ws ht _ ih =>
    cases texts with
    | nil =>
      rw [intercalate_singleton]
      exact ht.clean
    | cons u texts =>
      rw [intercalate_cons_cons]
      simp only [Clean, mem_append, mem_singleton, not_or] at ih ⊢
      exact ⟨⟨⟨ht.clean.1, by decide⟩, ih.1⟩, ⟨ht.clean.2, by decide⟩, ih.2⟩

theorem last_intercalate (h : Forall₂ Prints texts ws) (hne : texts ≠ []) :
    ∃ body c, intercalate [32] texts = body ++ [c] ∧ isBlank c = false := by
  induction h with
  | nil => exact absurd rfl hne
  | @cons t w texts ws ht _ ih =>
    cases texts with
    | nil =>
      rw [intercalate_singleton]
      exact ht.last
    | cons u texts =>
      obtain ⟨body, c, hbody, hc⟩ := ih (by simp)
      refine ⟨t ++ [32] ++ body, c, ?_, hc⟩
      rw [intercalate_cons_cons, hbody, append_assoc, append_assoc,
        append_assoc]

/-- A line that starts with the word `sentinel`. -/
theorem sentinelArgs_intercalate (h : Forall₂ Prints texts ws) :
    sentinelArgs (intercalate [32] (sentinelOption :: texts)) = some ws := by
  have hall : Forall₂ Prints (sentinelOption :: texts) (sentinelOption :: ws) :=
    .cons (prints_plain (by decide)) h
  have hclean := clean_intercalate hall
  obtain ⟨body, c, hlast, hc⟩ := last_intercalate hall (by simp)
  have hfirst : ∃ t, intercalate [32] (sentinelOption :: texts) = 115 :: t := by
    have hs : sentinelOption = 115 :: str "entinel" := by decide
    cases texts with
    | nil => exact ⟨_, by rw [intercalate_singleton, hs]⟩
    | cons u texts => exact ⟨_, by rw [intercalate_cons_cons, hs]; rfl⟩
  have htrim : sdstrim (intercalate [32] (sentinelOption :: texts)) =
      intercalate [32] (sentinelOption :: texts) :=
    sdstrim_eq_self (by decide) hc hfirst hlast
  have hsplit := sdssplitargs_intercalate (hall.imp fun _ _ h => h.reads) hclean.2
  have hkind : kind (intercalate [32] (sentinelOption :: texts)) =
      .directive sentinelOption ws := by
    obtain ⟨t, ht⟩ := hfirst
    rw [ht] at hsplit ⊢
    simp only [kind, if_neg (show (115 : UInt8) ≠ 35 by decide), hsplit]
    have : sdstolower (cstr sentinelOption) = sentinelOption := by decide
    rw [this]
  rw [sentinelArgs, htrim, hkind]
  simp

/-! ## Numbers -/

theorem mem_decimal_digit {n : Nat} (h : b ∈ decimal n) : 48 ≤ b ∧ b ≤ 57 := by
  have := mem_decimal h
  simpa [UInt8.le_iff_toNat_le] using this

theorem digitsValue_decimal : digitsValue (decimal n) = n := by
  have htake : (decimal n).takeWhile (fun b => 48 ≤ b && b ≤ 57) = decimal n := by
    rw [takeWhile_eq_self_iff]
    intro b hb
    simpa using mem_decimal_digit hb
  rw [digitsValue, htake, foldl_decimal]

theorem plain_of_digits (hne : w ≠ []) (h : ∀ b ∈ w, (48 ≤ b ∧ b ≤ 57) ∨ b = 45) :
    plain w = true := by
  have hbyte : ∀ b : UInt8, (48 ≤ b ∧ b ≤ 57) ∨ b = 45 →
      isspace b = false ∧ plainByte b = true := by
    intro b hb
    have hlow : 45 ≤ b.toNat := by
      rcases hb with ⟨hb, -⟩ | rfl
      · exact Nat.le_trans (by decide) (UInt8.le_iff_toNat_le.mp hb)
      · decide
    have hne (c : UInt8) (hc : c.toNat < 45) : b ≠ c := by
      rintro rfl
      omega
    have hle : ¬b ≤ 13 := fun h =>
      absurd (Nat.le_trans hlow (UInt8.le_iff_toNat_le.mp h)) (by decide)
    simp [isspace, plainByte, hle, hne 32 (by decide), hne 0 (by decide), hne 9 (by decide),
      hne 10 (by decide), hne 13 (by decide), hne 34 (by decide), hne 39 (by decide)]
  cases w with
  | nil => exact absurd rfl hne
  | cons b w =>
    simp only [plain, Bool.and_eq_true, Bool.not_eq_true', List.all_eq_true]
    exact ⟨(hbyte b (h b mem_cons_self)).1, fun c hc => (hbyte c (h c hc)).2⟩

theorem plain_decimal : plain (decimal n) = true :=
  plain_of_digits (decimal_ne_nil n) fun _ hb => .inl (mem_decimal_digit hb)

theorem plain_printInt (v : Int) : plain (printInt v) = true := by
  unfold printInt
  split
  · apply plain_of_digits (by simp)
    intro b hb
    rcases mem_cons.mp hb with rfl | hb
    · exact .inr rfl
    · exact .inl (mem_decimal_digit hb)
  · exact plain_decimal _

theorem dropWhile_plain (h : plain w = true) : w.dropWhile isspace = w := by
  obtain ⟨b, t, rfl, hb⟩ := first_of_plain h
  rw [dropWhile_cons_of_neg (by simp [hb])]

theorem readSign_decimal : readSign (decimal n) = (false, decimal n) := by
  cases hd : decimal n with
  | nil => rfl
  | cons b t =>
    have hb : 48 ≤ b ∧ b ≤ 57 := mem_decimal_digit (by rw [hd]; exact mem_cons_self)
    have h45 : b ≠ 45 := by
      rintro rfl
      exact absurd hb.1 (by decide)
    have h43 : b ≠ 43 := by
      rintro rfl
      exact absurd hb.1 (by decide)
    simp [readSign, h45, h43]

theorem strtoull_decimal {n : Nat} (h : n < 2 ^ 64) : strtoull (decimal n) = n := by
  simp only [strtoull, dropWhile_plain (plain_decimal n), readSign_decimal, digitsValue_decimal]
  rw [if_neg (by omega)]
  simp

theorem keyword_eq (s s' : Statement) : strcaseEq s.keyword s'.keyword = decide (s = s') := by
  have hall : ∀ s ∈ Statement.all, ∀ s' ∈ Statement.all,
      strcaseEq s.keyword s'.keyword = decide (s = s') := by decide +kernel
  have hmem : ∀ s : Statement, s ∈ Statement.all := by
    intro s
    cases s <;> decide
  exact hall s (hmem s) s' (hmem s')

theorem statementOf_keyword (h : s.takes args.length = true) :
    statementOf (s.keyword :: args) = some s := by
  simp only [statementOf]
  have hmem : s ∈ Statement.all := by cases s <;> decide
  cases hf : Statement.all.find? fun s' =>
      strcaseEq s.keyword s'.keyword && s'.takes args.length with
  | none =>
    have := find?_eq_none.mp hf s hmem
    simp [keyword_eq, h] at this
  | some s' =>
    have := find?_some hf
    simp only [keyword_eq, Bool.and_eq_true, decide_eq_true_eq] at this
    exact congrArg some this.1.symm

theorem cstr_plain (h : plain w = true) : cstr w = w :=
  cstr_eq_self (plainByte_clean (plainByte_of_plain h)).2

theorem map_cstr (h : ∀ a ∈ args, plain a = true) : args.map cstr = args := by
  conv_rhs => rw [← map_id args]
  exact map_congr_left fun a ha => cstr_plain (h a ha)

theorem plain_keyword (s : Statement) : plain s.keyword = true := by
  cases s <;> decide

theorem sentinelHandleConfiguration_keyword (env : Env) (st : SentinelState) (s : Statement)
    (args : List Bytes) (hargs : ∀ a ∈ args, plain a = true)
    (h : s.takes args.length = true) :
    sentinelHandleConfiguration env st (s.keyword :: args) = s.handle env st args := by
  simp only [sentinelHandleConfiguration]
  rw [map_cons, cstr_plain (plain_keyword s), map_cstr hargs, statementOf_keyword h]
  rfl

/-! ## Masters -/

/-- A state with one more master. -/
def SentinelState.push (st : SentinelState) (m : Master) : SentinelState :=
  { st with masters := st.masters ++ [m] }

/-- An address that is written and read back: a plain text that resolves to itself, and a
port. -/
structure Addr.Printable (env : Env) (a : Addr) : Prop where
  ip : plain a.ip = true
  resolve : env.resolve a.ip = some a.ip
  port : 0 < a.port ∧ a.port ≤ 65535

/-- What is written of a master is read back. -/
structure Master.Printable (env : Env) (m : Master) : Prop where
  name : plain m.name = true
  addr : (sentinelGetCurrentMasterAddress m).Printable env
  quorum : 0 < m.quorum ∧ m.quorum < 2 ^ 31
  downAfterPeriod : 0 < m.downAfterPeriod ∧ m.downAfterPeriod < 2 ^ 31
  failoverTimeout : 0 < m.failoverTimeout ∧ m.failoverTimeout < 2 ^ 31
  parallelSyncs : -2 ^ 31 ≤ m.parallelSyncs ∧ m.parallelSyncs < 2 ^ 31
  notificationScript : ∀ p, m.notificationScript = some p → plain p = true ∧ env.executable p
  clientReconfigScript : ∀ p, m.clientReconfigScript = some p → plain p = true ∧ env.executable p
  authPass : ∀ p, m.authPass = some p → plain p = true
  configEpoch : m.configEpoch < 2 ^ 64
  leaderEpoch : m.leaderEpoch < 2 ^ 64
  slaves : ∀ ri ∈ m.slaves, ri.addr.Printable env
  slaveNames : (m.slaves.map fun ri => instanceName ri.addr.ip ri.addr.port).Nodup
  sentinels : ∀ ri ∈ m.sentinels, ri.addr.Printable env ∧ ∀ r, ri.runid = some r → plain r = true
  sentinelNames : (m.sentinels.map fun ri => instanceName ri.addr.ip ri.addr.port).Nodup

/-- The handling of lines of words in order. -/
def runLines (env : Env) (st : SentinelState) (lines : List (List Bytes)) :
    Except String SentinelState :=
  lines.foldlM (fun st line => handle (sentinelHandleConfiguration env) st line.tail) st

theorem runLines_append {env : Env} {st : SentinelState} {l l' : List (List Bytes)}
    (h : runLines env st l = .ok st') : runLines env st (l ++ l') = runLines env st' l' := by
  unfold runLines at h ⊢
  rw [foldlM_append, h]
  rfl

theorem runLines_singleton (env : Env) (st : SentinelState) (s : Statement) {m : Master}
    (args : List Bytes) (hname : plain m.name = true) (hargs : ∀ a ∈ args, plain a = true)
    (h : s.takes (args.length + 1) = true) :
    runLines env st [masterWords s m args] = s.handle env st (m.name :: args) := by
  have hall : ∀ a ∈ m.name :: args, plain a = true := by
    intro a ha
    rcases mem_cons.mp ha with rfl | ha
    · exact hname
    · exact hargs a ha
  have hhandle : runLines env st [masterWords s m args] =
      sentinelHandleConfiguration env st (s.keyword :: m.name :: args) := by
    simp only [runLines, masterWords, foldlM_cons, foldlM_nil, tail_cons, handle]
    cases sentinelHandleConfiguration env st (s.keyword :: m.name :: args) <;> rfl
  rw [hhandle, sentinelHandleConfiguration_keyword env st s _ hall h]

/-! ## The lines of one master -/

-- Realizes the equations once.
section

attribute [local simp] Statement.handle

end

section OneMaster

variable {env : Env} {m c : Master} {st : SentinelState}

variable {c' : Master} {ri : Instance}

end OneMaster

/-! ## The whole state -/

/-- All words that are written of a master are plain. -/
structure Master.Plain (m : Master) : Prop where
  name : plain m.name = true
  addr : plain (sentinelGetCurrentMasterAddress m).ip = true
  notificationScript : ∀ p, m.notificationScript = some p → plain p = true
  clientReconfigScript : ∀ p, m.clientReconfigScript = some p → plain p = true
  authPass : ∀ p, m.authPass = some p → plain p = true
  slaves : ∀ ri ∈ m.slaves, plain ri.addr.ip = true
  sentinels : ∀ ri ∈ m.sentinels, plain ri.addr.ip = true ∧ ∀ r, ri.runid = some r → plain r = true

theorem Master.Printable.plain {env : Env} {m : Master} (h : m.Printable env) : m.Plain where
  name := h.name
  addr := h.addr.ip
  notificationScript := fun p hp => (h.notificationScript p hp).1
  clientReconfigScript := fun p hp => (h.clientReconfigScript p hp).1
  authPass := h.authPass
  slaves := fun ri hri => (h.slaves ri hri).ip
  sentinels := fun ri hri => ⟨(h.sentinels ri hri).1.ip, (h.sentinels ri hri).2⟩

theorem plain_masterWords {m : Master} (hname : plain m.name = true)
    (hargs : ∀ w ∈ args, plain w = true) : ∀ w ∈ (masterWords s m args).tail, plain w = true := by
  intro w hw
  simp only [masterWords, tail_cons, mem_cons] at hw
  rcases hw with rfl | rfl | hw
  · exact plain_keyword s
  · exact hname
  · exact hargs w hw

/-- A line about a master that is written after `sentinel monitor`. -/
structure DetailLine (m : Master) (s : Statement) (args : List Bytes) : Prop where
  plain : ∀ w ∈ args, plain w = true
  takes : s.takes (args.length + 1) = true
  monitor : s ≠ .monitor
  leaderEpoch : s = .leaderEpoch → args = [decimal m.leaderEpoch]

theorem mem_detailLines {m : Master} (h : m.Plain) (hline : line ∈ detailLines m) :
    ∃ s args, line = masterWords s m args ∧ DetailLine m s args := by
  have hone : ∀ (s : Statement) (w : Bytes), Sds.plain w = true → s.takes 2 = true →
      s ≠ .monitor → (s = .leaderEpoch → [w] = [decimal m.leaderEpoch]) → DetailLine m s [w] := by
    intro s w hw htakes hs he
    exact ⟨by simpa using hw, htakes, hs, he⟩
  simp only [detailLines, mem_append, mem_singleton, List.mem_map] at hline
  rcases hline with ((((((((hl | hl) | hl) | hl) | hl) | hl) | hl) | hl) | hl) | hl
  · split at hl
    · exact ⟨_, _, mem_singleton.mp hl, hone _ _ (plain_printInt _) rfl (by decide) (by simp)⟩
    · simp at hl
  · split at hl
    · exact ⟨_, _, mem_singleton.mp hl, hone _ _ (plain_printInt _) rfl (by decide) (by simp)⟩
    · simp at hl
  · split at hl
    · exact ⟨_, _, mem_singleton.mp hl, hone _ _ (plain_printInt _) rfl (by decide) (by simp)⟩
    · simp at hl
  · obtain ⟨p, hp, rfl⟩ := hl
    exact ⟨_, _, rfl, hone _ _ (h.notificationScript p (mem_toList.mp hp)) rfl (by decide)
      (by simp)⟩
  · obtain ⟨p, hp, rfl⟩ := hl
    exact ⟨_, _, rfl, hone _ _ (h.clientReconfigScript p (mem_toList.mp hp)) rfl
      (by decide) (by simp)⟩
  · obtain ⟨p, hp, rfl⟩ := hl
    exact ⟨_, _, rfl, hone _ _ (h.authPass p (mem_toList.mp hp)) rfl (by decide) (by simp)⟩
  · exact ⟨_, _, hl, hone _ _ (plain_decimal _) rfl (by decide) (by simp)⟩
  · exact ⟨_, _, hl, hone _ _ (plain_decimal _) rfl (by decide) (by simp)⟩
  · obtain ⟨ri, hri, rfl⟩ := hl
    exact ⟨_, _, rfl, by simp [h.slaves ri hri, plain_printInt], rfl, by decide, by simp⟩
  · obtain ⟨ri, hri, rfl⟩ := hl
    refine ⟨_, _, rfl, ?_, ?_, by decide, by simp⟩
    · intro w hw
      simp only [mem_cons, mem_toList] at hw
      rcases hw with rfl | rfl | hw
      · exact (h.sentinels ri hri).1
      · exact plain_printInt _
      · exact (h.sentinels ri hri).2 w hw
    · cases ri.runid <;> rfl

theorem plain_monitorArgs {m : Master} (h : m.Plain) :
    ∀ w ∈ [(sentinelGetCurrentMasterAddress m).ip,
      printInt (sentinelGetCurrentMasterAddress m).port,
      printInt ((m.quorum : Int).bmod (2 ^ 32))], plain w = true := by
  simp [h.addr, plain_printInt]

/-- A line about a master is made of plain words behind the word `sentinel`. -/
theorem masterLines_plain {m : Master} (h : m.Plain) (hline : line ∈ masterLines m) :
    ∃ ws, line = sentinelOption :: ws ∧ ∀ w ∈ ws, plain w = true := by
  rcases mem_cons.mp hline with rfl | hline
  · exact ⟨_, rfl, plain_masterWords h.name (plain_monitorArgs h)⟩
  · obtain ⟨s, args, rfl, hdetail⟩ := mem_detailLines h hline
    exact ⟨_, rfl, plain_masterWords h.name hdetail.plain⟩

/-- The lines that are not about a master, as they are read. -/
def globalWords (st : SentinelState) : List (List Bytes) :=
  [[sentinelOption, Statement.currentEpoch.keyword, decimal st.currentEpoch]] ++
  (st.announceIp.toList.map fun ip => [sentinelOption, Statement.announceIp.keyword, ip]) ++
  (if st.announcePort ≠ 0 then
    [[sentinelOption, Statement.announcePort.keyword, printInt st.announcePort]] else [])

theorem forall₂_prints_plain (h : ∀ w ∈ ws, plain w = true) : Forall₂ Prints ws ws :=
  forall₂_same.mpr fun w hw => prints_plain (h w hw)

theorem globalLines_prints (st : SentinelState) :
    Forall₂ (fun texts words => ∃ ts ws, texts = sentinelOption :: ts ∧
      words = sentinelOption :: ws ∧ Forall₂ Prints ts ws) (globalLines st)
      (globalWords st) := by
  have hplain : ∀ (s : Statement) (w : Bytes), plain w = true →
      Forall₂ Prints [s.keyword, w] [s.keyword, w] := by
    intro s w hw
    exact forall₂_prints_plain (by simp [plain_keyword, hw])
  unfold globalLines globalWords
  refine rel_append (rel_append ?_ ?_) ?_
  · exact .cons ⟨_, _, rfl, rfl, hplain .currentEpoch _ (plain_decimal _)⟩ .nil
  · cases st.announceIp with
    | none => exact .nil
    | some ip =>
      exact .cons ⟨_, _, rfl, rfl, .cons (prints_plain (plain_keyword .announceIp))
        (.cons (prints_sdscatrepr ip) .nil)⟩ .nil
  · split
    · exact .cons ⟨_, _, rfl, rfl, hplain .announcePort _ (plain_printInt _)⟩ .nil
    · exact .nil

/-- The lines of the state, as they are read. -/
def stateWords (st : SentinelState) : List (List Bytes) :=
  st.masters.flatMap masterLines ++ globalWords st

theorem stateLines_prints {st : SentinelState} (h : ∀ m ∈ st.masters, m.Plain) :
    Forall₂ (fun texts words => ∃ ts ws, texts = sentinelOption :: ts ∧
      words = sentinelOption :: ws ∧ Forall₂ Prints ts ws)
      (st.masters.flatMap masterLines ++ globalLines st) (stateWords st) := by
  refine rel_append (forall₂_same.mpr ?_) (globalLines_prints st)
  intro line hline
  obtain ⟨m, hm, hline⟩ := mem_flatMap.mp hline
  obtain ⟨ws, rfl, hws⟩ := masterLines_plain (h m hm) hline
  exact ⟨ws, ws, rfl, rfl, forall₂_prints_plain hws⟩

/-- What is written is clean, and read as the words it was made of. -/
theorem rewriteConfigSentinelOption_reads {st : SentinelState} (h : ∀ m ∈ st.masters, m.Plain) :
    (∀ text ∈ rewriteConfigSentinelOption st, Clean text ∧ (sentinelArgs text).isSome = true) ∧
      (rewriteConfigSentinelOption st).filterMap sentinelArgs = (stateWords st).map tail := by
  have hprints := stateLines_prints h
  unfold rewriteConfigSentinelOption
  generalize st.masters.flatMap masterLines ++ globalLines st = lines at hprints
  generalize stateWords st = words at hprints
  induction hprints with
  | nil => simp
  | cons hline _ ih =>
    obtain ⟨ts, ws, rfl, rfl, hts⟩ := hline
    have hargs := sentinelArgs_intercalate hts
    have hclean := clean_intercalate
      (Forall₂.cons (prints_plain (show plain sentinelOption = true by decide)) hts)
    refine ⟨?_, ?_⟩
    · intro text htext
      rcases mem_cons.mp htext with rfl | htext
      · exact ⟨hclean, by rw [hargs]; rfl⟩
      · exact ih.1 text htext
    · rw [map_cons, filterMap_cons_some hargs, ih.2]
      rfl

theorem rewriteConfigSentinelOption_ne_nil (st : SentinelState) :
    rewriteConfigSentinelOption st ≠ [] := by
  simp [rewriteConfigSentinelOption, globalLines]

theorem foldlM_tail (env : Env) (st : SentinelState) (lines : List (List Bytes)) :
    (lines.map tail).foldlM (handle (sentinelHandleConfiguration env)) st =
      runLines env st lines := by
  rw [runLines, foldlM_map]

end Redis.Sentinel
