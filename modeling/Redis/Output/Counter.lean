import Redis.Output.Stream

/-!
# Redis.Output.Counter

`sendReplyToClient` counts what it sends in `stat_net_output_bytes`.  It adds the running total
of the call behind every `write`, so that what an earlier `write` sent is added once more by
each later one.
-/

namespace Redis.Output

open List Option

variable {c : RedisClient} {totwritten : Nat} {stat : Option Int64} {results : List WriteResult}
  {sizes : List Nat}

/-! ## A counted run -/

/-- What a `write` returns: a number of bytes, with whether the server is below `maxmemory` behind
it; or 0, or -1 with `EAGAIN`; or -1 with another error. -/
inductive WriteResult where
  | accepted (nwritten : Nat) (below : Bool)
  | refused
  | failed

/-- What a `write` accepts. -/
def WriteResult.size : WriteResult → Option Nat
  | .accepted nwritten _ => some nwritten
  | .refused => none
  | .failed => none

/-- The sizes of the accepted writes. -/
def acceptedSizes (results : List WriteResult) : List Nat := results.filterMap WriteResult.size

/-- `c->bufpos > 0 || listLength(c->reply)`. -/
def hasOutput (c : RedisClient) : Bool := decide (c.buf ≠ []) || decide (c.reply ≠ [])

/-- The string of the first object is there if it is what `write` gets. -/
def hasString (c : RedisClient) : Bool :=
  decide (c.buf ≠ []) || c.reply.head?.any fun n => n.ptr.isSome

/-- `server.stat_net_output_bytes += totwritten`; `totwritten` is an `int`, whose overflow leaves
nothing to say of the counter. -/
def addTotwritten (stat : Option Int64) (totwritten : Nat) : Option Int64 :=
  if totwritten < 2 ^ 31 then stat.map (· + Int64.ofNat totwritten) else none

/-- The loop of `sendReplyToClient` with its counter, when the calls of `write` return these results
and no others.  It also returns the client, unless an error has freed it. -/
@[grind =]
def countedLoop (c : RedisClient) (totwritten : Nat) (stat : Option Int64) :
    List WriteResult → Option (Option RedisClient × Option Int64)
  | [] => if hasOutput (dropEmpty c) then none else some (some (dropEmpty c), stat)
  | .refused :: results =>
    if hasOutput (dropEmpty c) ∧ (pending (dropEmpty c)).isSome ∧ results.isEmpty then
      some (some (dropEmpty c), stat)
    else none
  | .failed :: results =>
    if hasString (dropEmpty c) ∧ results.isEmpty then some (none, stat) else none
  | .accepted nwritten below :: results =>
    match pending (dropEmpty c) with
    | none => none
    | some bytes =>
      if nwritten = 0 ∨ bytes.length < nwritten then none
      else
        let c := advance (dropEmpty c) nwritten
        let totwritten := totwritten + nwritten
        let stat := addTotwritten stat totwritten
        if totwritten > maxWritePerEvent ∧ below then
          if results.isEmpty then some (some c, stat) else none
        else countedLoop c totwritten stat results

/-! ## The sum -/

/-- What the counter is behind writes of these sizes. -/
def counter (totwritten : Nat) (stat : Option Int64) : List Nat → Option Int64
  | [] => stat
  | nwritten :: sizes =>
    counter (totwritten + nwritten) (addTotwritten stat (totwritten + nwritten)) sizes

@[simp] theorem counter_none (totwritten : Nat) (sizes : List Nat) :
    counter totwritten none sizes = none := by
  induction sizes generalizing totwritten with
  | nil => rfl
  | cons nwritten sizes ih =>
    have hnone : addTotwritten none (totwritten + nwritten) = none := by
      rw [addTotwritten, map_none, ite_self]
    rw [counter, hnone, ih]

theorem acceptedSizes_accepted (nwritten : Nat) (below : Bool) (results : List WriteResult) :
    acceptedSizes (.accepted nwritten below :: results) = nwritten :: acceptedSizes results := rfl

/-- A run counts by its accepted writes, and each of them is of at least one byte. -/
theorem countedLoop_counter {c' : Option RedisClient} {stat' : Option Int64}
    (h : countedLoop c totwritten stat results = some (c', stat')) :
    stat' = counter totwritten stat (acceptedSizes results) ∧
      ∀ n ∈ acceptedSizes results, 0 < n := by
  induction results generalizing c totwritten stat with
  | nil =>
    rw [countedLoop] at h
    split at h
    · cases h
    · obtain rfl := congrArg Prod.snd (Option.some.inj h)
      exact ⟨rfl, by simp [acceptedSizes]⟩
  | cons result results ih =>
    cases result with
    | accepted nwritten below =>
      rw [acceptedSizes_accepted, counter]
      rw [countedLoop] at h
      split at h
      next => cases h
      next bytes hbytes =>
        split at h
        · cases h
        rename_i hsize
        have hpos : 0 < nwritten := by omega
        simp only at h
        split at h
        · split at h
          · rename_i hempty
            obtain rfl := congrArg Prod.snd (Option.some.inj h)
            rw [List.isEmpty_iff] at hempty
            subst hempty
            exact ⟨rfl, by simpa [acceptedSizes] using hpos⟩
          · cases h
        · obtain ⟨hstat, hall⟩ := ih h
          exact ⟨hstat, forall_mem_cons.mpr ⟨hpos, hall⟩⟩
    | refused =>
      rw [countedLoop] at h
      split at h
      · rename_i hlast
        have hempty := List.isEmpty_iff.mp hlast.2.2
        subst hempty
        obtain rfl := congrArg Prod.snd (Option.some.inj h)
        exact ⟨rfl, by simp [acceptedSizes, WriteResult.size]⟩
      · cases h
    | failed =>
      rw [countedLoop] at h
      split at h
      · rename_i hlast
        have hempty := List.isEmpty_iff.mp hlast.2
        subst hempty
        obtain rfl := congrArg Prod.snd (Option.some.inj h)
        exact ⟨rfl, by simp [acceptedSizes, WriteResult.size]⟩
      · cases h

theorem length_pending_lt (hbuf : c.buf.length ≤ replyChunkBytes) {bytes : List UInt8}
    (h : pending c = some bytes) : bytes.length < 2 ^ 31 := by
  rw [pending] at h
  have hchunk : replyChunkBytes = 16384 := rfl
  split at h
  · obtain rfl := Option.some.inj h
    rw [length_drop]
    omega
  · split at h
    · obtain rfl := Option.some.inj h
      decide
    next n rest hreply =>
      obtain ⟨s, -, hobject⟩ := bind_eq_some_iff.mp h
      rw [pendingObject] at hobject
      split at hobject
      · cases hobject
      · obtain rfl := Option.some.inj hobject
        have hint : toInt s.bytes.length < 2 ^ 31 := by
          have hdef : toInt s.bytes.length = (s.bytes.length : Int).bmod (2 ^ 32) := rfl
          rw [hdef]
          exact Int.bmod_lt (by decide)
        rw [length_take, length_drop]
        omega

theorem dropEmpty_buf (c : RedisClient) : (dropEmpty c).buf = c.buf := by
  rw [dropEmpty]
  split <;> rfl

/-- The first write of a run is of less than 2 GiB. -/
theorem countedLoop_first (hbuf : c.buf.length ≤ replyChunkBytes)
    {r : Option RedisClient × Option Int64} (h : countedLoop c totwritten stat results = some r) :
    ∀ n ∈ (acceptedSizes results).head?, n < 2 ^ 31 := by
  intro n hn
  cases results with
  | nil => cases hn
  | cons result results =>
    cases result with
    | accepted nwritten below =>
      obtain rfl := Option.some.inj hn
      rw [countedLoop] at h
      split at h
      next => cases h
      next bytes hbytes =>
        have hlength := length_pending_lt (by rwa [dropEmpty_buf]) hbytes
        split at h
        · cases h
        · omega
    | refused =>
      rw [countedLoop] at h
      split at h
      · rename_i hlast
        rw [List.isEmpty_iff.mp hlast.2.2] at hn
        cases hn
      · cases h
    | failed =>
      rw [countedLoop] at h
      split at h
      · rename_i hlast
        rw [List.isEmpty_iff.mp hlast.2] at hn
        cases hn
      · cases h

/-- The counter is the sum of the writes and an excess: what the writes before the last one
sent, once for each of the later ones. -/
theorem counter_excess {stat value : Int64} (hpos : ∀ n ∈ sizes, 0 < n) (hne : sizes ≠ [])
    (h : counter totwritten (some stat) sizes = some value) :
    totwritten + sizes.sum < 2 ^ 31 ∧ ∃ excess,
      value = stat + Int64.ofNat (totwritten + sizes.sum + excess) ∧
      excess ≤ sizes.length * 2 ^ 31 ∧ (2 ≤ sizes.length → 0 < excess) := by
  induction sizes generalizing totwritten stat with
  | nil => exact absurd rfl hne
  | cons nwritten sizes ih =>
    have hnwritten := hpos nwritten mem_cons_self
    rw [counter, addTotwritten] at h
    split at h
    · rename_i hint
      rw [map_some] at h
      cases sizes with
      | nil =>
        obtain rfl := Option.some.inj h
        refine ⟨by simpa using hint, 0, ?_, Nat.zero_le _, by simp⟩
        rw [sum_singleton, Nat.add_zero]
      | cons next sizes =>
        obtain ⟨hsum, excess, rfl, hle, -⟩ :=
          ih (fun n hn => hpos n (mem_cons_of_mem _ hn)) (cons_ne_nil _ _) h
        rw [sum_cons, length_cons]
        refine ⟨by omega, totwritten + nwritten + excess, ?_, by omega, fun _ => by omega⟩
        rw [Int64.add_assoc, ← Int64.ofNat_add]
        congr 2
        omega
    · rw [counter_none] at h
      cases h

/-- Each write is at least one byte. -/
theorem length_le_sum (hpos : ∀ n ∈ sizes, 0 < n) : sizes.length ≤ sizes.sum := by
  induction sizes with
  | nil => exact Nat.zero_le _
  | cons nwritten sizes ih =>
    obtain ⟨hnwritten, hsizes⟩ := forall_mem_cons.mp hpos
    have hle := ih hsizes
    rw [length_cons, sum_cons]
    omega

theorem counter_exact_iff {stat : Int64} (hpos : ∀ n ∈ sizes, 0 < n)
    (hfirst : ∀ n ∈ sizes.head?, n < 2 ^ 31) :
    counter 0 (some stat) sizes = some (stat + Int64.ofNat sizes.sum) ↔ sizes.length ≤ 1 := by
  constructor
  · intro h
    by_contra hmany
    have hne : sizes ≠ [] := by
      rintro rfl
      simp at hmany
    obtain ⟨hsum, excess, hvalue, hle, hexcess⟩ := counter_excess hpos hne h
    have hlength := length_le_sum hpos
    have hgrows := hexcess (by omega)
    have hsame := congrArg Int64.toInt ((Int64.add_right_inj stat).mp hvalue)
    rw [Int64.toInt_ofNat_of_lt (by omega), Int64.toInt_ofNat_of_lt (by omega)] at hsame
    omega
  · intro h
    match sizes, h with
    | [], _ =>
      have hzero : Int64.ofNat 0 = 0 := rfl
      rw [counter, sum_nil, hzero, Int64.add_zero]
    | [nwritten], _ =>
      rw [counter, counter, addTotwritten, sum_singleton, Nat.zero_add,
        if_pos (hfirst nwritten (by rw [head?_cons]; exact mem_some_self _)),
        map_some]

/-! ## The bytes of a run -/

/-- What `sendLoop` is told of a result. -/
def WriteResult.taken : WriteResult → Nat × Bool
  | .accepted nwritten below => (nwritten, below)
  | .refused => (0, false)
  | .failed => (0, false)

/-- A run that does not free the client is the one of `sendLoop`, and its sizes are those of the
bytes that were sent. -/
theorem countedLoop_sendLoop {c' : RedisClient} {stat' : Option Int64}
    (h : countedLoop c totwritten stat results = some (some c', stat')) :
    ∃ written, sendLoop c totwritten (results.map WriteResult.taken) = some (c', written) ∧
      written.length = (acceptedSizes results).sum := by
  induction results generalizing c totwritten stat with
  | nil =>
    rw [countedLoop] at h
    split at h
    · cases h
    rename_i hdone
    obtain rfl := Option.some.inj (congrArg Prod.fst (Option.some.inj h))
    refine ⟨[], ?_, rfl⟩
    simp only [hasOutput, Bool.or_eq_true, decide_eq_true_eq, not_or, not_not] at hdone
    rw [map_nil, sendLoop, pending, hdone.1, hdone.2]
    rfl
  | cons result results ih =>
    cases result with
    | accepted nwritten below =>
      rw [countedLoop] at h
      split at h
      next => cases h
      next bytes hbytes =>
        split at h
        · cases h
        rename_i hsize
        have hlength : (bytes.take nwritten).length = nwritten := by
          rw [length_take]
          omega
        have hne : bytes.take nwritten ≠ [] := by
          rw [← length_pos_iff]
          omega
        have hcall : (WriteResult.accepted nwritten below).taken = (nwritten, below) := rfl
        rw [map_cons, hcall, sendLoop, hbytes, acceptedSizes_accepted, sum_cons]
        simp only [some_bind, if_neg hne, hlength] at h ⊢
        split at h
        · rename_i hlimit
          rw [if_pos hlimit]
          split at h
          · rename_i hempty
            obtain rfl := Option.some.inj (congrArg Prod.fst (Option.some.inj h))
            rw [List.isEmpty_iff] at hempty
            subst hempty
            exact ⟨_, rfl, hlength⟩
          · cases h
        · rename_i hlimit
          rw [if_neg hlimit]
          obtain ⟨written, hloop, hwritten⟩ := ih h
          refine ⟨bytes.take nwritten ++ written, ?_, ?_⟩
          · rw [hloop]
            rfl
          · rw [length_append, hlength, hwritten]
    | refused =>
      rw [countedLoop] at h
      split at h
      · rename_i hlast
        obtain ⟨bytes, hbytes⟩ := isSome_iff_exists.mp hlast.2.1
        have hempty := List.isEmpty_iff.mp hlast.2.2
        subst hempty
        obtain rfl := Option.some.inj (congrArg Prod.fst (Option.some.inj h))
        refine ⟨[], ?_, rfl⟩
        rw [map_singleton, WriteResult.taken, sendLoop, hbytes]
        rfl
      · cases h
    | failed =>
      rw [countedLoop] at h
      split at h
      · cases congrArg Prod.fst (Option.some.inj h)
      · cases h

/-- A run of `sendReplyToClient` counts exactly what its writes accept if, and only if, it has at
most one accepted write. -/
theorem stat_exact_iff {c : RedisClient} (hbuf : c.buf.length ≤ replyChunkBytes) {stat : Int64}
    {results : List WriteResult} {c' : Option RedisClient} {stat' : Option Int64}
    (h : countedLoop c 0 (some stat) results = some (c', stat')) :
    stat' = some (stat + Int64.ofNat (acceptedSizes results).sum) ↔
      (acceptedSizes results).length ≤ 1 := by
  obtain ⟨rfl, hpos⟩ := countedLoop_counter h
  exact counter_exact_iff hpos (countedLoop_first hbuf h)

/-- A reply in the buffer that one write takes. -/
theorem stat_exact_one :
    some 5 = some ((2 : Int64) + Int64.ofNat (acceptedSizes [.accepted 3 true]).sum) :=
  (stat_exact_iff (c := ⟨[43, 13, 10], 0, [], false, true, 0⟩)
    (by decide) (rfl : countedLoop _ 0 (some 2) [.accepted 3 true] = some (some _, some 5))).mpr
    (by decide)

/-- A reply in the buffer that takes two writes: 3 bytes are sent and 5 are counted. -/
theorem stat_counts_twice :
    ∃ c', countedLoop ⟨[43, 13, 10], 0, [], false, true, 0⟩ 0 (some 0)
        [.accepted 2 true, .accepted 1 true] = some (c', some 5) ∧
      (acceptedSizes [.accepted 2 true, .accepted 1 true]).sum = 3 :=
  ⟨_, rfl, rfl⟩

end Redis.Output
