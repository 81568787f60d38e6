import Redis.Brackets
import Redis.Propagate

/-!
# Redis.Propagate.Blocks

When transactions reach the append only file and the slaves as whole blocks: the counter
`server.dirty` tells the outer `call` of `EXEC` that `MULTI` was propagated.
-/

namespace Redis.Propagate

open List

open Redis.Config (str)
open Redis.Bus (strcaseEq strcaseEq_congr)
open Redis.Replication (selectName)

variable {acts : List Act} {runs : Nat → List Act}

/-! ## Blocks -/

def Op.isMulti (op : Op) : Bool := strcaseEq (op.argv.headD []) (str "multi")

def Op.isExec (op : Op) : Bool := strcaseEq (op.argv.headD []) (str "exec")

/-- Which of the queued commands it is. -/
def Op.index (op : Op) : Option Nat :=
  match op.origin with
  | .queued _ j _ => some j
  | _ => none

/-- A command that may stand alone: no write command of a transaction. -/
def Op.Outside (op : Op) : Prop :=
  PlainName op.argv ∧ ∀ tx j, op.origin ≠ .queued tx j true

/-- A command that may stand between the `MULTI` and the `EXEC` of a transaction. -/
def Op.Inside (tx : Nat) (op : Op) : Prop :=
  PlainName op.argv ∧
    (op.origin = .expire ∨ op.origin = .select ∨ ∃ j write, op.origin = .queued tx j write)

/-- The commands of one transaction, in order, between its `MULTI` and its `EXEC`. -/
def Block (ops : List Op) : Prop :=
  ∃ tx m items e, ops = m :: items ++ [e] ∧ m.isMulti ∧ m.origin = .multi tx ∧
    e.isExec ∧ e.origin = .exec tx ∧ (∀ op ∈ items, op.Inside tx) ∧
      (items.filterMap Op.index).Pairwise (· < ·)

/-- All transactions are whole blocks, and no write command of a transaction is outside of its
block. -/
def Balanced (ops : List Op) : Prop := Bracketed Op.Outside Block ops

/-! ## What a transaction must not do -/

/-- The command, of those in front of the first that is not read only, does not count a
change. -/
def Act.Still (before : Int) : Act → Prop
  | .dirty n => n = 0
  | .saved => 0 ≤ before
  | _ => True

/-- The transaction goes on, and nobody else is served. -/
def Act.Contained : Act → Prop
  | .foreign _ _ => False
  | .exit => False
  | _ => True

/-- How much `server.dirty` has grown since it was last set to zero, if it was. -/
def sinceSave (acts : List Act) : Option Nat :=
  acts.foldl (fun grown act =>
    match act with
    | .saved => some 0
    | .dirty n => grown.map (· + n)
    | _ => grown) none

/-- The command is read only. -/
def Job.readonly (job : Job) : Bool := job.1.cmd.readonly

/-- The condition on a transaction that is executed when `server.dirty` is `before`. -/
structure Counted (before : Int) (jobs : List Job) : Prop where
  still : ∀ job ∈ jobs.takeWhile Job.readonly, ∀ act ∈ job.2, act.Still before
  contained : ∀ job ∈ jobs.dropWhile Job.readonly, ∀ act ∈ job.2, act.Contained
  grown : jobs.dropWhile Job.readonly ≠ [] →
    ∀ n, sinceSave (jobs.flatMap Prod.snd) = some n → before ≤ n

/-- The transaction that an event executes meets the condition. -/
def Event.Counted (s : Server) : Event → Prop
  | .request c req runs => req.cmd.name = str "exec" → (s.client c).multi →
      ¬ ((s.client c).dirtyCas ∨ (s.client c).dirtyExec) → Propagate.Counted s.dirty (jobs s c runs)
  | _ => True

/-! ## One stream -/

/-- The append only file, or the slaves. -/
inductive Target where
  | aof
  | repl

def Server.stream (s : Server) : Target → Stream
  | .aof => s.aof
  | .repl => s.repl

/-- A command is for a target. -/
def Target.flag (aof repl : Bool) : Target → Bool
  | .aof => aof
  | .repl => repl

/-- A stream has got more commands. -/
def Adds (t : Target) (P : List Op → Prop) (s s' : Server) : Prop :=
  ∃ items, (s'.stream t).ops = (s.stream t).ops ++ items ∧ P items

def All (p : Op → Prop) (items : List Op) : Prop := ∀ op ∈ items, p op

variable {t : Target} {s s' s₁ s₂ : Server} {c : Nat} {P Q R : List Op → Prop} {p : Op → Prop}

theorem Adds.same (h : (s'.stream t).ops = (s.stream t).ops) (hnil : P []) : Adds t P s s' :=
  ⟨[], by rw [h, append_nil], hnil⟩

theorem Adds.mono (h : Adds t P s s') (hpq : ∀ items, P items → Q items) : Adds t Q s s' := by
  obtain ⟨items, heq, hp⟩ := h
  exact ⟨items, heq, hpq items hp⟩

theorem Adds.trans (h : Adds t P s s₁) (h₁ : Adds t Q s₁ s₂)
    (hpq : ∀ xs ys, P xs → Q ys → R (xs ++ ys)) : Adds t R s s₂ := by
  obtain ⟨xs, heq, hp⟩ := h
  obtain ⟨ys, heq', hq⟩ := h₁
  exact ⟨xs ++ ys, by rw [heq', heq, append_assoc], hpq xs ys hp hq⟩

theorem all_append (xs ys : List Op) (hxs : All p xs) (hys : All p ys) : All p (xs ++ ys) := by
  intro op hop
  rcases mem_append.mp hop with hop | hop
  exacts [hxs op hop, hys op hop]

theorem all_nil : All p [] := fun _ h => absurd h not_mem_nil

@[simp] theorem stream_setClient (client : Client) :
    ((s.setClient c client).stream t) = s.stream t := by cases t <;> rfl

theorem stream_propagate (op : Op) (aof repl : Bool) :
    (propagate op aof repl s).stream t =
      if t.flag aof repl then feed op (s.stream t) else s.stream t := by
  cases t <;> rfl

variable {argv : List Bytes} {cmd : RedisCommand} {op : Op} {req : Request} {tx : Nat} (dbid : Int)
  (origin : Bool → Origin) (mustPropagate : Bool)

theorem plainName_select : PlainName (selectOp dbid).argv :=
  ⟨show strcaseEq selectName (str "multi") = false by decide,
    show strcaseEq selectName (str "exec") = false by decide⟩

theorem plainName_del (key : Bytes) : PlainName [str "DEL", key] :=
  ⟨show strcaseEq (str "DEL") (str "multi") = false by decide,
    show strcaseEq (str "DEL") (str "exec") = false by decide⟩

/-- Commands that satisfy `p`, and perhaps one more. -/
def Ends (p : Op → Prop) (op : Op) (items : List Op) : Prop :=
  ∃ quiet, All p quiet ∧ (items = quiet ∨ items = quiet ++ [op])

theorem all_ends (hop : p op) (items : List Op) (h : Ends p op items) : All p items := by
  obtain ⟨quiet, hall, rfl | rfl⟩ := h
  · exact hall
  · exact all_append _ _ hall (by simpa [All] using hop)

/-- What is propagated, with the `SELECT` in front of it. -/
theorem adds_propagate (op : Op) (aof repl : Bool) (hsel : ∀ dbid, p (selectOp dbid)) :
    Adds t (Ends p op) s (propagate op aof repl s) := by
  rw [Adds, stream_propagate]
  split
  · refine ⟨(if op.dbid ≠ (s.stream t).selected then [selectOp op.dbid] else []) ++ [op],
      append_assoc _ _ _, _, ?_, .inr rfl⟩
    split
    · simpa [All] using hsel op.dbid
    · exact all_nil
  · exact ⟨[], (append_nil _).symm, [], all_nil, .inl rfl⟩

/-! ## Procedures -/

/-- What acts make of `server.dirty`. -/
def dirtyBy (acts : List Act) (dirty : Int) : Int :=
  acts.foldl (fun dirty act =>
    match act with
    | .saved => 0
    | .dirty n => dirty + n
    | _ => dirty) dirty

theorem dirtyBy_append (acts acts' : List Act) (dirty : Int) :
    dirtyBy (acts ++ acts') dirty = dirtyBy acts' (dirtyBy acts dirty) := foldl_append

/-- Without a save the counter only grows; behind one, it is what was counted since. -/
theorem le_dirtyBy {before : Int} (h : ∀ n, sinceSave acts = some n → before ≤ n) :
    before ≤ dirtyBy acts before := by
  have hmain (acts : List Act) (grown : Option Nat) (dirty : Int)
      (hstart : grown.elim (before ≤ dirty) fun n => dirty = n) :
      (acts.foldl (fun grown act =>
        match act with
        | .saved => some 0
        | .dirty n => grown.map (· + n)
        | _ => grown) grown).elim (before ≤ dirtyBy acts dirty)
          fun n => dirtyBy acts dirty = n := by
    induction acts generalizing grown dirty with
    | nil => exact hstart
    | cons act acts ih =>
      rw [foldl_cons, dirtyBy, foldl_cons]
      refine ih _ _ ?_
      cases act <;> cases grown <;> simp_all
      omega
  have hacts := hmain acts none before (Int.le_refl before)
  rw [← sinceSave] at hacts
  cases hsince : sinceSave acts with
  | none => simpa [hsince] using hacts
  | some n =>
    rw [hsince] at hacts
    rw [show dirtyBy acts before = n from hacts]
    exact h n hsince

/-- What may be propagated while a procedure runs. -/
structure Permits (p : Op → Prop) (acts : List Act) : Prop where
  expire : ∀ dbid key, p ⟨dbid, [str "DEL", key], .expire⟩
  select : ∀ dbid, p (selectOp dbid)
  foreign : ∀ dbid argv, .foreign dbid argv ∈ acts → p ⟨dbid, argv, .call⟩
  rewrite : ∀ argv, .rewrite argv ∈ acts → PlainName argv

theorem Permits.tail {act : Act} (h : Permits p (act :: acts)) : Permits p acts where
  expire := h.expire
  select := h.select
  foreign dbid argv hmem := h.foreign dbid argv (mem_cons_of_mem _ hmem)
  rewrite argv hmem := h.rewrite argv (mem_cons_of_mem _ hmem)

/-- What a procedure leaves. -/
structure Ran (t : Target) (p : Op → Prop) (acts : List Act) (s : Server)
    (argv : List Bytes) (r : Except Server (Server × List Bytes)) : Prop where
  ok : ∀ s' argv', r = .ok (s', argv') → Adds t (All p) s s' ∧
    s'.dirty = dirtyBy acts s.dirty ∧ (PlainName argv → PlainName argv')
  error : ∀ s', r = .error s' → Adds t (All p) s s' ∧ .exit ∈ acts

theorem Ran.of_ok {argv' : List Bytes} (hadds : Adds t (All p) s s')
    (hdirty : s'.dirty = dirtyBy acts s.dirty) (hargv : PlainName argv → PlainName argv') :
    Ran t p acts s argv (.ok (s', argv')) where
  ok := by
    intro s₁ argv₁ h
    obtain ⟨rfl, rfl⟩ := Prod.mk.inj (Except.ok.inj h)
    exact ⟨hadds, hdirty, hargv⟩
  error := by
    intro s₁ h
    cases h

theorem Ran.of_error (hadds : Adds t (All p) s s') (hexit : .exit ∈ acts) :
    Ran t p acts s argv (.error s') where
  ok := by
    intro s₁ argv₁ h
    cases h
  error := by
    intro s₁ h
    obtain rfl := Except.error.inj h
    exact ⟨hadds, hexit⟩

theorem runAct_ran {act : Act} (h : Permits p [act]) :
    Ran t p [act] s argv (runAct c (s, argv) act) := by
  cases act with
  | expire dbid key =>
    exact .of_ok ((adds_propagate _ _ _ h.select).mono (all_ends (h.expire dbid key))) rfl id
  | foreign dbid other =>
    exact .of_ok ((adds_propagate _ _ _ h.select).mono
      (all_ends (h.foreign dbid other mem_cons_self))) rfl id
  | rewrite argv' =>
    exact .of_ok (.same rfl all_nil) rfl fun _ => h.rewrite argv' mem_cons_self
  | unselect aof repl =>
    refine .of_ok (.same ?_ all_nil) rfl id
    cases t <;> cases aof <;> cases repl <;> rfl
  | exit => exact .of_error (.same rfl all_nil) mem_cons_self
  | _ => exact .of_ok (.same (by cases t <;> rfl) all_nil) rfl id

theorem runActs_ran (h : Permits p acts) : Ran t p acts s argv (runActs c acts (s, argv)) := by
  induction acts generalizing s argv with
  | nil => exact .of_ok (.same rfl all_nil) rfl id
  | cons act acts ih =>
    have hact : Permits p [act] := ⟨h.expire, h.select,
      fun dbid argv hmem => h.foreign dbid argv (by
        rw [mem_singleton.mp hmem]; exact mem_cons_self),
      fun argv hmem => h.rewrite argv (by
        rw [mem_singleton.mp hmem]; exact mem_cons_self)⟩
    have hfirst : Ran t p [act] s argv (runAct c (s, argv) act) := runAct_ran hact
    rw [runActs, foldlM_cons]
    cases hr : runAct c (s, argv) act with
    | error s₁ =>
      obtain ⟨hadds, hexit⟩ := hfirst.error s₁ hr
      obtain rfl := mem_singleton.mp hexit
      exact .of_error hadds mem_cons_self
    | ok r =>
      obtain ⟨s₁, argv₁⟩ := r
      obtain ⟨hadds, hdirty, hargv⟩ := hfirst.ok s₁ argv₁ hr
      have hrest : Ran t p acts s₁ argv₁ (runActs c acts (s₁, argv₁)) := ih h.tail
      have hcount : dirtyBy (act :: acts) s.dirty = dirtyBy acts s₁.dirty := by
        rw [hdirty, ← dirtyBy_append, singleton_append]
      constructor
      · intro s' argv' heq
        obtain ⟨hadds', hdirty', hargv'⟩ := hrest.ok s' argv' heq
        exact ⟨hadds.trans hadds' all_append, by rw [hdirty', hcount], hargv' ∘ hargv⟩
      · intro s' heq
        obtain ⟨hadds', hexit⟩ := hrest.error s' heq
        exact ⟨hadds.trans hadds' all_append, mem_cons_of_mem _ hexit⟩

/-! ## Calls -/

/-- The server when the procedure starts. -/
def unforced (c : Nat) (s : Server) : Server :=
  s.setClient c { s.client c with forceAof := false, forceRepl := false }

/-- What `call` makes of what the procedure has left. -/
def finish (c : Nat) (origin : Bool → Origin) (s : Server) (r : Server × List Bytes) : Server :=
  let grown := decide (s.dirty < r.1.dirty)
  let s₁ := propagate ⟨(r.1.client c).db, r.2, origin grown⟩
    ((r.1.client c).forceAof || grown) ((r.1.client c).forceRepl || grown) r.1
  s₁.setClient c { s₁.client c with
    forceAof := (s.client c).forceAof, forceRepl := (s.client c).forceRepl }

theorem call_eq (argv : List Bytes)
    (proc : Server × List Bytes → Except Server (Server × List Bytes)) :
    call c origin proc argv s = (proc (unforced c s, argv)).map (finish c origin s) := by
  rw [call]
  show (proc (unforced c s, argv)).bind _ = _
  cases proc (unforced c s, argv) with
  | error s₁ => rfl
  | ok r =>
    have hgrown : ((if r.1.dirty - s.dirty < 0 then 0 else r.1.dirty - s.dirty) ≠ 0) ↔
        s.dirty < r.1.dirty := by
      split <;> omega
    have hdecide : decide ((if r.1.dirty - s.dirty < 0 then 0 else r.1.dirty - s.dirty) ≠ 0) =
        decide (s.dirty < r.1.dirty) := decide_eq_decide.mpr hgrown
    rw [Except.map, finish, ← hdecide]
    rfl

@[simp] theorem finish_force (r : Server × List Bytes) :
    ((finish c origin s r).client c).forceAof = (s.client c).forceAof ∧
      ((finish c origin s r).client c).forceRepl = (s.client c).forceRepl := by
  simp [finish, Server.setClient]

theorem adds_finish (r : Server × List Bytes) (hsel : ∀ dbid, p (selectOp dbid)) :
    Adds t (Ends p ⟨(r.1.client c).db, r.2, origin (decide (s.dirty < r.1.dirty))⟩) r.1
      (finish c origin s r) := by
  rw [finish, Adds, stream_setClient]
  exact adds_propagate _ _ _ hsel

theorem Ends.append {xs ys : List Op} (hxs : All p xs) (hys : Ends p op ys) :
    Ends p op (xs ++ ys) := by
  obtain ⟨quiet, hall, rfl | rfl⟩ := hys
  · exact ⟨xs ++ ys, all_append _ _ hxs hall, .inl rfl⟩
  · exact ⟨xs ++ quiet, all_append _ _ hxs hall, .inr (append_assoc _ _ _).symm⟩

/-- What a command leaves whose procedure returns, and what one leaves whose process exits. -/
structure Called (t : Target) (p : Op → Prop) (c : Nat) (origin : Bool → Origin)
    (acts : List Act) (s : Server) (r : Except Server Server) : Prop where
  ok : ∀ s', r = .ok s' → s'.dirty = dirtyBy acts s.dirty ∧
    (s'.client c).forceAof = (s.client c).forceAof ∧
    (s'.client c).forceRepl = (s.client c).forceRepl ∧
    ∃ op : Op, PlainName op.argv ∧
      op.origin = origin (decide (s.dirty < dirtyBy acts s.dirty)) ∧ Adds t (Ends p op) s s'
  error : ∀ s', r = .error s' → Adds t (All p) s s' ∧ .exit ∈ acts

theorem call_called {origin : Bool → Origin} (h : Permits p acts) (hargv : PlainName argv) :
    Called t p c origin acts s (call c origin (runActs c acts) argv s) := by
  have hran : Ran t p acts (unforced c s) argv (runActs c acts (unforced c s, argv)) :=
    runActs_ran h
  have hstart : ((unforced c s).stream t) = s.stream t := stream_setClient _
  rw [call_eq]
  cases hr : runActs c acts (unforced c s, argv) with
  | error s₁ =>
    obtain ⟨hadds, hexit⟩ := hran.error s₁ hr
    constructor
    · intro s' heq
      cases heq
    · intro s' heq
      obtain rfl := Except.error.inj heq
      rw [Adds, hstart] at hadds
      exact ⟨hadds, hexit⟩
  | ok r =>
    obtain ⟨s₁, argv₁⟩ := r
    obtain ⟨hadds, hdirty, hplain⟩ := hran.ok s₁ argv₁ hr
    rw [Adds, hstart] at hadds
    constructor
    · intro s' heq
      obtain rfl := Except.ok.inj heq
      refine ⟨hdirty, (finish_force _ _).1, (finish_force _ _).2, _, hplain hargv, ?_,
        Adds.trans hadds (adds_finish origin (s₁, argv₁) h.select) fun _ _ => Ends.append⟩
      rw [hdirty]
      rfl
    · intro s' heq
      cases heq

/-! ## The loop of `execCommand` -/

/-- The name of a command is not one about transactions, if the command is none of these. -/
theorem plainName_of_found {name : Bytes} (h : lookupCommand name = some cmd)
    (hmulti : cmd.name ≠ str "multi") (hexec : cmd.name ≠ str "exec") :
    strcaseEq name (str "multi") = false ∧ strcaseEq name (str "exec") = false := by
  have hmem := mem_of_find?_eq_some h
  have heq := find?_some h
  have heq : strcaseEq name cmd.name = true := heq
  have htable : ∀ cmd ∈ redisCommandTable,
      (strcaseEq cmd.name (str "multi") = true → cmd.name = str "multi") ∧
        (strcaseEq cmd.name (str "exec") = true → cmd.name = str "exec") := by decide +kernel
  obtain ⟨hm, he⟩ := htable cmd hmem
  rw [strcaseEq_congr heq, strcaseEq_congr heq]
  exact ⟨Bool.eq_false_iff.mpr fun h => hmulti (hm h), Bool.eq_false_iff.mpr fun h => hexec (he h)⟩

theorem Queued.plainName (q : Queued) : PlainName q.argv := by
  have hname := q.queueable
  simp only [immediate, mem_cons, not_or] at hname
  exact plainName_of_found q.found hname.2.2.1 hname.1

/-- `server.dirty` while no change is counted. -/
def Unchanged (before dirty : Int) : Prop := dirty = before ∨ (dirty = 0 ∧ 0 ≤ before)

theorem Unchanged.dirtyBy {before dirty : Int} (h : Unchanged before dirty)
    (hacts : ∀ act ∈ acts, act.Still before) :
    Unchanged before (dirtyBy acts dirty) ∧ ¬ dirty < Propagate.dirtyBy acts dirty := by
  induction acts generalizing dirty with
  | nil => exact ⟨h, Int.lt_irrefl dirty⟩
  | cons act acts ih =>
    have hact := hacts act mem_cons_self
    have hrest (dirty' : Int) (h' : Unchanged before dirty') (hle : dirty' ≤ dirty) :
        Unchanged before (Propagate.dirtyBy acts dirty') ∧
          ¬ dirty < Propagate.dirtyBy acts dirty' := by
      obtain ⟨hun, hlt⟩ := ih h' fun act hmem => hacts act (mem_cons_of_mem _ hmem)
      exact ⟨hun, by omega⟩
    cases act with
    | dirty n =>
      have hzero : n = 0 := hact
      rw [hzero]
      exact hrest (dirty + (0 : Nat)) (by simpa using h) (by omega)
    | saved =>
      have hbefore : 0 ≤ before := hact
      refine hrest 0 (.inr ⟨rfl, hbefore⟩) ?_
      rcases h with h | h <;> omega
    | _ => exact hrest dirty h (Int.le_refl _)

theorem permits_of (h : ∀ act ∈ acts, act.Of cmd)
    (hexpire : ∀ dbid key, p ⟨dbid, [str "DEL", key], .expire⟩)
    (hselect : ∀ dbid, p (selectOp dbid))
    (hforeign : ∀ dbid argv, .foreign dbid argv ∈ acts → p ⟨dbid, argv, .call⟩) : Permits p acts :=
  ⟨hexpire, hselect, hforeign, fun argv hmem => h (.rewrite argv) hmem⟩

theorem outside_select : (selectOp dbid).Outside :=
  ⟨plainName_select dbid, fun _ _ h => nomatch h⟩

theorem outside_expire (key : Bytes) : Op.Outside ⟨dbid, [str "DEL", key], .expire⟩ :=
  ⟨plainName_del key, fun _ _ h => nomatch h⟩

/-- A procedure that runs outside of a block. -/
theorem permits_outside (h : ∀ act ∈ acts, act.Of cmd) : Permits Op.Outside acts :=
  permits_of h outside_expire outside_select fun dbid argv hmem =>
    ⟨(h (.foreign dbid argv) hmem).2, fun _ _ h => nomatch h⟩

/-- The commands in front of the first that is not read only. -/
theorem execLoop_readonly {j : Nat} {jobs rest : List Job} {before : Int}
    (hreadonly : ∀ job ∈ jobs, job.readonly) (hof : ∀ job ∈ jobs, ∀ act ∈ job.2, act.Of job.1.cmd)
    (hstill : ∀ job ∈ jobs, ∀ act ∈ job.2, act.Still before) (hdirty : Unchanged before s.dirty) :
    (∃ s', execLoop c tx (jobs ++ rest) j false s =
        execLoop c tx rest (j + jobs.length) false s' ∧ Adds t (All Op.Outside) s s' ∧
          Unchanged before s'.dirty ∧ s'.dirty = dirtyBy (jobs.flatMap Prod.snd) s.dirty ∧
          (s'.client c).forceAof = (s.client c).forceAof ∧
          (s'.client c).forceRepl = (s.client c).forceRepl) ∨
      ∃ s', execLoop c tx (jobs ++ rest) j false s = .error s' ∧ Adds t (All Op.Outside) s s' := by
  induction jobs generalizing s j with
  | nil => exact .inl ⟨s, rfl, .same rfl all_nil, hdirty, rfl, rfl, rfl⟩
  | cons job jobs ih =>
    obtain ⟨q, acts⟩ := job
    have hread : q.cmd.readonly = true := hreadonly (q, acts) mem_cons_self
    have hacts := hof (q, acts) mem_cons_self
    obtain ⟨hun, hlt⟩ := hdirty.dirtyBy (hstill (q, acts) mem_cons_self)
    have hcalled : Called t Op.Outside c
        (fun grown => .queued tx j (!q.cmd.readonly || grown)) acts s _ :=
      call_called (permits_outside hacts) q.plainName
    rw [cons_append, execLoop]
    simp only [hread, Bool.not_true, Bool.and_false, Bool.false_eq_true, if_false, Bool.or_false]
    simp only [hread, Bool.not_true] at hcalled
    cases hr : call c (fun grown => .queued tx j (false || grown)) (runActs c acts) q.argv s with
    | error s₁ => exact .inr ⟨s₁, rfl, (hcalled.error s₁ hr).1⟩
    | ok s₁ =>
      obtain ⟨hd, haof, hrepl, op, hplain, horigin, hadds⟩ := hcalled.ok s₁ hr
      have hop : op.Outside := by
        refine ⟨hplain, fun tx' j' h => ?_⟩
        rw [horigin, decide_eq_false hlt] at h
        cases h
      have hadds := hadds.mono (all_ends hop)
      have hrest := ih (s := s₁) (j := j + 1)
        (fun job hmem => hreadonly job (mem_cons_of_mem _ hmem))
        (fun job hmem => hof job (mem_cons_of_mem _ hmem))
        (fun job hmem => hstill job (mem_cons_of_mem _ hmem)) (by rwa [hd])
      have hlen : j + (jobs.length + 1) = j + 1 + jobs.length := by omega
      rw [length_cons, hlen]
      rcases hrest with ⟨s', heq, hadds', hun', hd', haof', hrepl'⟩ | ⟨s', heq, hadds'⟩
      · refine .inl ⟨s', ?_, hadds.trans hadds' all_append, hun', ?_, haof'.trans haof,
          hrepl'.trans hrepl⟩
        · exact heq
        · rw [hd', hd, flatMap_cons, dirtyBy_append]
      · exact .inr ⟨s', heq, hadds.trans hadds' all_append⟩

/-- A `DEL` of an expired key or a `SELECT`. -/
def Op.Quiet (op : Op) : Prop :=
  PlainName op.argv ∧ (op.origin = .expire ∨ op.origin = .select)

/-- Commands of a transaction in order, from the command `j` on. -/
structure InOrder (tx j : Nat) (items : List Op) : Prop where
  inside : ∀ op ∈ items, op.Inside tx
  sorted : (items.filterMap Op.index).Pairwise (· < ·)
  le : ∀ i ∈ items.filterMap Op.index, j ≤ i

theorem inOrder_nil (tx j : Nat) : InOrder tx j [] :=
  ⟨fun _ h => absurd h not_mem_nil, Pairwise.nil, fun _ h => absurd h not_mem_nil⟩

theorem index_quiet {quiet : List Op} (h : All Op.Quiet quiet) : quiet.filterMap Op.index = [] := by
  rw [filterMap_eq_nil_iff]
  intro op hop
  rw [Op.index]
  rcases (h op hop).2 with h | h <;> rw [h]

theorem Op.Quiet.inside (h : op.Quiet) (tx : Nat) : op.Inside tx :=
  ⟨h.1, h.2.imp_right .inl⟩

/-- The command `j`, and then those behind it. -/
theorem inOrder_append {j : Nat} {write : Bool} (hplain : PlainName op.argv)
    (horigin : op.origin = .queued tx j write) (xs ys : List Op) (hxs : Ends Op.Quiet op xs)
    (hys : InOrder tx (j + 1) ys) : InOrder tx j (xs ++ ys) := by
  obtain ⟨quiet, hall, hxs⟩ := hxs
  have hinside : ∀ op ∈ quiet, op.Inside tx := fun op hop => (hall op hop).inside tx
  have hle : ∀ i ∈ ys.filterMap Op.index, j < i := fun i hi => hys.le i hi
  rcases hxs with rfl | rfl
  · refine ⟨all_append _ _ hinside hys.inside, ?_, ?_⟩
    · rw [filterMap_append, index_quiet hall]
      exact hys.sorted
    · rw [filterMap_append, index_quiet hall]
      exact fun i hi => Nat.le_of_lt (hle i hi)
  · have hop : op.Inside tx := ⟨hplain, .inr (.inr ⟨j, write, horigin⟩)⟩
    have hindex : (quiet ++ [op] ++ ys).filterMap Op.index = j :: ys.filterMap Op.index := by
      have hone : op.index = some j := by rw [Op.index, horigin]
      rw [filterMap_append, filterMap_append, index_quiet hall,
        filterMap_cons_some hone]
      rfl
    refine ⟨all_append _ _ (all_append _ _ hinside (by simpa [All] using hop)) hys.inside, ?_, ?_⟩
    · rw [hindex]
      exact pairwise_cons.mpr ⟨hle, hys.sorted⟩
    · rw [hindex]
      exact forall_mem_cons.mpr ⟨Nat.le_refl j, fun i hi => Nat.le_of_lt (hle i hi)⟩

/-- A procedure that runs in a block. -/
theorem permits_quiet (h : ∀ act ∈ acts, act.Of cmd) (hcontained : ∀ act ∈ acts, act.Contained) :
    Permits Op.Quiet acts :=
  permits_of h (fun _ key => ⟨plainName_del key, .inl rfl⟩)
    (fun dbid => ⟨plainName_select dbid, .inr rfl⟩)
    fun dbid argv hmem => (hcontained (.foreign dbid argv) hmem).elim

theorem execLoop_block {j : Nat} {jobs : List Job}
    (hof : ∀ job ∈ jobs, ∀ act ∈ job.2, act.Of job.1.cmd)
    (hcontained : ∀ job ∈ jobs, ∀ act ∈ job.2, act.Contained) :
    ∃ s', execLoop c tx jobs j true s = .ok (true, s') ∧ Adds t (InOrder tx j) s s' ∧
      s'.dirty = dirtyBy (jobs.flatMap Prod.snd) s.dirty ∧
      (s'.client c).forceAof = (s.client c).forceAof ∧
      (s'.client c).forceRepl = (s.client c).forceRepl := by
  induction jobs generalizing s j with
  | nil => exact ⟨s, rfl, .same rfl (inOrder_nil tx j), rfl, rfl, rfl⟩
  | cons job jobs ih =>
    obtain ⟨q, acts⟩ := job
    have hacts := hof (q, acts) mem_cons_self
    have hin := hcontained (q, acts) mem_cons_self
    have hcalled : Called t Op.Quiet c
        (fun grown => .queued tx j (!q.cmd.readonly || grown)) acts s _ :=
      call_called (permits_quiet hacts hin) q.plainName
    rw [execLoop]
    simp only [Bool.not_true, Bool.false_and, Bool.false_eq_true, if_false, Bool.or_false]
    cases hr : call c (fun grown => .queued tx j (!q.cmd.readonly || grown)) (runActs c acts)
        q.argv s with
    | error s₁ => exact absurd (hin .exit (hcalled.error s₁ hr).2) id
    | ok s₁ =>
      obtain ⟨hd, haof, hrepl, op, hplain, horigin, hadds⟩ := hcalled.ok s₁ hr
      obtain ⟨s', heq, hadds', hd', haof', hrepl'⟩ := ih (s := s₁) (j := j + 1)
        (fun job hmem => hof job (mem_cons_of_mem _ hmem))
        (fun job hmem => hcontained job (mem_cons_of_mem _ hmem))
      refine ⟨s', heq, hadds.trans hadds' (inOrder_append hplain horigin), ?_,
        haof'.trans haof, hrepl'.trans hrepl⟩
      rw [hd', hd, flatMap_cons, dirtyBy_append]

/-- `MULTI` is propagated in front of the first command that is not read only. -/
theorem execLoop_multi {j : Nat} {q : Queued} {jobs : List Job} (h : q.cmd.readonly = false) :
    execLoop c tx ((q, acts) :: jobs) j false s =
      execLoop c tx ((q, acts) :: jobs) j true (execCommandPropagateMulti c tx s) := by
  rw [execLoop, execLoop]
  simp [h]

/-- A block that is not closed yet, and what stands in front of it. -/
def Opened (tx : Nat) (items : List Op) : Prop :=
  ∃ out m inside, items = out ++ m :: inside ∧ All Op.Outside out ∧ m.isMulti ∧
    m.origin = .multi tx ∧ InOrder tx 0 inside

theorem Op.Quiet.outside (h : op.Quiet) : op.Outside := by
  refine ⟨h.1, fun tx j heq => ?_⟩
  rcases h.2 with h | h <;> rw [h] at heq <;> cases heq

theorem InOrder.zero {j : Nat} {items : List Op} (h : InOrder tx j items) :
    InOrder tx 0 items := ⟨h.inside, h.sorted, fun i _ => Nat.zero_le i⟩

/-- The end of `execCommand`. -/
def closed (c : Nat) (mustPropagate : Bool) (s : Server) : Server :=
  { discardTransaction c s with
    dirty := if mustPropagate then s.dirty + 1 else s.dirty
    tx := s.tx + 1 }

theorem stream_closed : (closed c mustPropagate s).stream t = s.stream t := by cases t <;> rfl

theorem closed_force :
    ((closed c mustPropagate s).client c).forceAof = (s.client c).forceAof ∧
      ((closed c mustPropagate s).client c).forceRepl = (s.client c).forceRepl := by
  simp [closed, discardTransaction, Server.setClient]

theorem execCommand_eq (hmulti : (s.client c).multi)
    (hclean : ¬ ((s.client c).dirtyCas ∨ (s.client c).dirtyExec)) :
    execCommand c runs s = (execLoop c s.tx (jobs s c runs) 0 false s).map fun r =>
      closed c r.1 r.2 := by
  rw [execCommand, if_neg (not_not.mpr hmulti), if_neg hclean]
  show (execLoop c s.tx (jobs s c runs) 0 false s).bind _ = _
  cases execLoop c s.tx (jobs s c runs) 0 false s <;> rfl

theorem quiet_select : (selectOp dbid).Quiet := ⟨plainName_select dbid, .inr rfl⟩

/-- What is propagated to the append only file and to the slaves. -/
theorem adds_both (op : Op) : Adds t (fun items => ∃ sels, All Op.Quiet sels ∧
    items = sels ++ [op]) s (propagate op true true s) := by
  have hflag : t.flag true true = true := by cases t <;> rfl
  rw [Adds, stream_propagate, if_pos hflag]
  refine ⟨_, append_assoc _ _ _, _, ?_, rfl⟩
  split
  · simpa [All] using quiet_select op.dbid
  · exact all_nil

theorem adds_opened {j : Nat} (hadds : Adds t (All Op.Outside) s s₁)
    (hinside : Adds t (InOrder tx j) (execCommandPropagateMulti c tx s₁) s₂) :
    Adds t (Opened tx) s s₂ := by
  obtain ⟨out, heq, hout⟩ := hadds
  obtain ⟨_, heq₁, sels, hsels, rfl⟩ := adds_both (t := t) (s := s₁)
    ⟨(s₁.client c).db, [str "MULTI"], .multi tx⟩
  obtain ⟨inside, heq₂, hin⟩ := hinside
  refine ⟨_, ?_, out ++ sels, ⟨(s₁.client c).db, [str "MULTI"], .multi tx⟩, inside, rfl,
    all_append _ _ hout fun op hop => (hsels op hop).outside, ?_, rfl, hin.zero⟩
  · rw [heq₂, execCommandPropagateMulti, heq₁, heq]
    simp
  · show strcaseEq (str "MULTI") (str "multi") = true
    decide

theorem execCommand_spec (t : Target) (runs : Nat → List Act) (hmulti : (s.client c).multi)
    (hclean : ¬ ((s.client c).dirtyCas ∨ (s.client c).dirtyExec))
    (hof : ∀ job ∈ jobs s c runs, ∀ act ∈ job.2, act.Of job.1.cmd)
    (hcounted : Counted s.dirty (jobs s c runs)) :
    (∃ s', execCommand c runs s = .error s' ∧ Adds t (All Op.Outside) s s') ∨
    ∃ s', execCommand c runs s = .ok s' ∧ (s'.client c).forceAof = (s.client c).forceAof ∧
      (s'.client c).forceRepl = (s.client c).forceRepl ∧
      ((¬ s.dirty < s'.dirty ∧ Adds t (All Op.Outside) s s') ∨
        (s.dirty < s'.dirty ∧ Adds t (Opened s.tx) s s')) := by
  rw [execCommand_eq hmulti hclean]
  generalize s.tx = tx
  generalize jobs s c runs = js at hof hcounted
  obtain ⟨hstill, hcontained, hgrown⟩ := hcounted
  have hsplit : js.takeWhile Job.readonly ++ js.dropWhile Job.readonly = js :=
    takeWhile_append_dropWhile
  have hfront : ∀ job ∈ js.takeWhile Job.readonly, ∀ act ∈ job.2, act.Of job.1.cmd :=
    fun job hmem => hof job ((takeWhile_sublist _).subset hmem)
  have hback : ∀ job ∈ js.dropWhile Job.readonly, ∀ act ∈ job.2, act.Of job.1.cmd :=
    fun job hmem => hof job ((dropWhile_sublist _).subset hmem)
  have hread : ∀ job ∈ js.takeWhile Job.readonly, job.readonly :=
    fun job hmem => mem_takeWhile_imp hmem
  have hfirst := @execLoop_readonly t s c tx 0 _ (js.dropWhile Job.readonly) _ hread hfront
    hstill (.inl rfl)
  rw [hsplit] at hfirst
  rcases hfirst with ⟨s₁, heq, hadds, hun, hdirty, haof, hrepl⟩ | ⟨s₁, heq, hadds⟩
  swap
  · exact .inl ⟨s₁, by rw [heq]; rfl, hadds⟩
  refine .inr ?_
  rw [heq]
  cases hrest : js.dropWhile Job.readonly with
  | nil =>
    refine ⟨closed c false s₁, rfl, (closed_force false).1.trans haof,
      (closed_force false).2.trans hrepl, .inl ⟨?_, ?_⟩⟩
    · show ¬ s.dirty < s₁.dirty
      rcases hun with h | h <;> omega
    · rwa [Adds, stream_closed]
  | cons job rest =>
    obtain ⟨q, acts⟩ := job
    have hne : js.dropWhile Job.readonly ≠ [] := by
      rw [hrest]
      exact cons_ne_nil _ _
    have hwrite : q.cmd.readonly = false := by
      have hhead := head_dropWhile_not Job.readonly hne
      simpa [hrest, Job.readonly] using hhead
    rw [hrest] at hback hcontained
    obtain ⟨s₂, heq₂, hadds₂, hdirty₂, haof₂, hrepl₂⟩ :=
      @execLoop_block t (execCommandPropagateMulti c tx s₁) c tx
        (0 + (js.takeWhile Job.readonly).length) _ hback hcontained
    rw [execLoop_multi hwrite, heq₂]
    refine ⟨closed c true s₂, rfl, (closed_force true).1.trans (haof₂.trans haof),
      (closed_force true).2.trans (hrepl₂.trans hrepl), .inr ⟨?_, ?_⟩⟩
    · show s.dirty < s₂.dirty + 1
      have hall : s₂.dirty = dirtyBy (js.flatMap Prod.snd) s.dirty := by
        rw [hdirty₂, ← hsplit, flatMap_append, dirtyBy_append, ← hdirty, hrest]
        rfl
      have hle := le_dirtyBy (hgrown hne)
      omega
    · rw [Adds, stream_closed]
      exact adds_opened hadds hadds₂

/-! ## Steps -/

/-- A procedure has left the counter and the streams as they were, and forces nothing. -/
structure Silent (t : Target) (c : Nat) (s s' : Server) : Prop where
  dirty : s'.dirty = s.dirty
  stream : s'.stream t = s.stream t
  forceAof : (s'.client c).forceAof = false
  forceRepl : (s'.client c).forceRepl = false

theorem Silent.setClient {client : Client} (h : Silent t c s s')
    (haof : client.forceAof = false) (hrepl : client.forceRepl = false) :
    Silent t c s (s'.setClient c client) :=
  ⟨h.dirty, (stream_setClient _).trans h.stream,
    (congrArg Client.forceAof (Function.update_self ..)).trans haof,
    (congrArg Client.forceRepl (Function.update_self ..)).trans hrepl⟩

/-- The servers that a run of events leads to. -/
inductive Reachable (ok : Server → Event → Prop) : Server → Prop where
  | init : Reachable ok init
  | step {s : Server} {ev : Event} : Reachable ok s → ok s ev → Reachable ok (step s ev)

/-- Every event of a run can happen. -/
def RunOk (ok : Server → Event → Prop) : Server → List Event → Prop
  | _, [] => True
  | s, ev :: evs => ok s ev ∧ RunOk ok (Propagate.step s ev) evs

theorem Reachable.run {ok : Server → Event → Prop} {evs : List Event} (h : Reachable ok s)
    (hok : RunOk ok s evs) : Reachable ok (evs.foldl Propagate.step s) := by
  induction evs generalizing s with
  | nil => exact h
  | cons ev evs ih => exact ih (h.step hok.1) hok.2

/-- `MULTI` counts one, and `EXEC` counts one less. -/
def weight (op : Op) : Int := if op.isMulti then 1 else if op.isExec then -1 else 0

end Redis.Propagate
