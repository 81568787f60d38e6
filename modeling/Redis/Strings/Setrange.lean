import Redis.Strings.Counters

/-!
# Redis.Strings.Setrange

`SETRANGE`: the bytes of the value at the offset, the old ones elsewhere, and zeros
between them.  The test of the size is about a sum that may be negative as a
`long long`, and then the server runs out of memory.
-/

namespace Redis.Strings

open Keyspace List Option
open Replication (Robj)

/-! ## Bytes -/

/-- A string with a value written at an offset. -/
def overlay (old : Bytes) (n : Nat) (value : Bytes) : Bytes :=
  let grown := old ++ replicate (n + value.length - old.length) 0
  grown.take n ++ value ++ grown.drop (n + value.length)

variable {arg : Robj} {e : Option Int} {reply : Keyspace.Reply} (old : Bytes)

theorem length_grown (m : Nat) :
    (old ++ replicate (m - old.length) 0).length = max old.length m := by
  rw [length_append, length_replicate]
  omega

theorem length_overlay (n : Nat) (value : Bytes) :
    (overlay old n value).length = max old.length (n + value.length) := by
  have hgrown := length_grown old (n + value.length)
  rw [overlay, length_append, length_append, length_take, length_drop, hgrown]
  omega

/-- The bytes of the value, the old ones, and zeros. -/
theorem getElem?_overlay (n : Nat) (value : Bytes) {i : Nat}
    (hi : i < max old.length (n + value.length)) :
    (overlay old n value)[i]? =
      if n ≤ i ∧ i < n + value.length then value[i - n]?
      else if i < old.length then old[i]? else some 0 := by
  have hgrown := length_grown old (n + value.length)
  have hold : (old ++ replicate (n + value.length - old.length) 0)[i]? =
      if i < old.length then old[i]? else some 0 := by
    rw [getElem?_append]
    split
    · rfl
    next hge => rw [getElem?_replicate, if_pos (by omega)]
  rw [overlay, append_assoc]
  by_cases hlt : i < n
  · have hout : ¬ (n ≤ i ∧ i < n + value.length) := by omega
    rw [if_neg hout, getElem?_append_left (by rw [length_take, hgrown]; omega),
      getElem?_take, if_pos hlt, hold]
  · have htake : ((old ++ replicate (n + value.length - old.length) 0).take n).length = n := by
      rw [length_take, hgrown]
      omega
    rw [getElem?_append_right (by omega), htake, getElem?_append]
    by_cases hin : i < n + value.length
    · have hthere : n ≤ i ∧ i < n + value.length := by omega
      rw [if_pos hthere, if_pos (by omega)]
    · have hout : ¬ (n ≤ i ∧ i < n + value.length) := by omega
      rw [if_neg hout, if_neg (by omega), getElem?_drop, ← hold]
      exact congrArg _ (by omega)

/-! ## Sizes -/

section Sizes

variable {offset : Int64} {value : Bytes}

theorem toNat_offset (h : 0 ≤ offset.toInt) : offset.toUInt64.toNat = offset.toInt.toNat :=
  Int64.toNat_toUInt64_of_le (Int64.le_iff_toInt_le.mpr h)

/-- The end of what is written, which is no more than a `size_t`. -/
theorem toNat_end (value : Bytes) (h : 0 ≤ offset.toInt) (hlen : value.length < 2 ^ 63) :
    (offset.toUInt64 + UInt64.ofNat value.length).toNat = offset.toInt.toNat + value.length := by
  have hlt := offset.toInt_lt
  rw [UInt64.toNat_add, toNat_offset h, UInt64.toNat_ofNat_of_lt' (by rw [UInt64.size]; omega)]
  exact Nat.mod_eq_of_lt (by omega)

theorem toInt_end (value : Bytes) (h : 0 ≤ offset.toInt) (hlen : value.length < 2 ^ 63) :
    (offset.toUInt64 + UInt64.ofNat value.length).toInt64.toInt =
      (offset.toInt + value.length).bmod (2 ^ 64) := by
  have htoInt : ∀ n : UInt64, n.toInt64.toInt = (n.toNat : Int).bmod (2 ^ 64) := fun n =>
    BitVec.toInt_eq_toNat_bmod n.toBitVec
  rw [htoInt, toNat_end value h hlen, Nat.cast_add, Int.toNat_of_nonneg h]

/-- The size is tested for an end that is a `long long`. -/
theorem checkStringLength_small (h : 0 ≤ offset.toInt) (hend : offset.toInt + value.length < 2 ^ 63) :
    checkStringLength (offset.toUInt64 + UInt64.ofNat value.length).toInt64 =
      if 512 * 1024 * 1024 < offset.toInt + value.length then
        .error (addReplyError "string exceeds maximum allowed size (512MB)")
      else .ok () := by
  have hint := toInt_end value h (by omega)
  rw [Int.bmod_eq_of_le (by omega) (by omega)] at hint
  rw [checkStringLength]
  simp only [Int64.lt_iff_toInt_lt, hint]
  rfl

/-- An end that is none is negative, and passes the test. -/
theorem checkStringLength_large (h : 0 ≤ offset.toInt) (hlen : value.length < 2 ^ 63)
    (hend : 2 ^ 63 ≤ offset.toInt + value.length) :
    checkStringLength (offset.toUInt64 + UInt64.ofNat value.length).toInt64 = .ok () := by
  have hlt := offset.toInt_lt
  have hint := toInt_end value h hlen
  rw [Int.bmod_def, Int.emod_eq_of_lt (by omega) (by omega), if_neg (by omega)] at hint
  rw [checkStringLength, if_neg]
  rw [Int64.lt_iff_toInt_lt, hint, Int.not_lt]
  exact le_trans (by omega : _ ≤ (0 : Int)) (by decide)

end Sizes

/-! ## What the command does -/

variable {V : Type} {env : Env} {types : Types V} {d : Nat} {key : Key} {w : View V}
  {offset : Int64} {value : Bytes}

/-- The string of a key, an empty one where there is none. -/
def stringOf (types : Types V) (x : Option V) : Except Keyspace.Reply Bytes :=
  (checkType types.string x).map fun so => (so.map Robj.bytes).getD []

theorem dbUnshareStringValue_shows (hS : (d, key) ∈ w.settled) {v : V} {o : Robj}
    (hentry : w.entries d key = some (v, e)) (hv : types.string.checkType v = some o) :
    Runs (Shows env) (dbUnshareStringValue types d key v o) w ()
      (w.set d key (some (types.string.create (.raw o.bytes), e))) := by
  rw [dbUnshareStringValue]
  split
  next hown =>
    -- the object of the key is the one that would be made
    rw [← hown.2, types.string.create_checkType hv, View.set_eq_self w hentry hS]
    exact Runs.pure () w
  next => exact dbOverwrite_shows hS hentry

theorem setrangeObject_shows (env : Env) (types : Types V) (o : Bytes) (hS : (d, key) ∈ w.settled)
    {v : V} (hentry : w.entries d key = some (v, e)) (hoffset : 0 ≤ offset.toInt)
    (hend : offset.toInt + value.length < 2 ^ 63) :
    Runs (Shows env) (setrangeObject types d key o offset value) w
      (.integer (overlay o offset.toInt.toNat value).length)
      (w.set d key
        (some (types.string.create (.raw (overlay o offset.toInt.toNat value)), e))) := by
  have hsum := toNat_end value hoffset (by omega)
  have hgrow : sdsgrowzero o (offset.toUInt64 + UInt64.ofNat value.length) =
      some (o ++ replicate (offset.toInt.toNat + value.length - o.length) 0) := by
    rw [sdsgrowzero, hsum]
    split
    next hle => rw [Nat.sub_eq_zero_of_le hle, replicate_zero, append_nil]
    next => rw [if_neg (by omega)]
  have hcopy : memcpyAt (o ++ replicate (offset.toInt.toNat + value.length - o.length) 0)
      offset.toUInt64.toNat value = some (overlay o offset.toInt.toNat value) := by
    rw [memcpyAt, toNat_offset hoffset, length_grown, if_pos (by omega)]
    rfl
  rw [setrangeObject, hgrow]
  dsimp only
  rw [hcopy]
  exact (updateValue_shows hS hentry).bind (Runs.pure _ _)

/-- What `setrangeLookup` replies, or the bytes that the value is copied to. -/
def lookupResult (types : Types V) (offset : Int64) (value : Bytes) (x : Option V) :
    Except Keyspace.Reply Bytes :=
  match stringOf types x with
  | .error reply => .error reply
  | .ok old =>
    if value.length = 0 then .error (.integer old.length)
    else
      match checkStringLength (offset.toUInt64 + UInt64.ofNat value.length).toInt64 with
      | .error reply => .error reply
      | .ok () => .ok old

/-- The entries after `setrangeLookup`: the key has a string of its own. -/
def lookupEntries (types : Types V) (w : View V) (d : Nat) (key : Key) :
    Except Keyspace.Reply Bytes → View V
  | .error _ => w
  | .ok old => w.set d key (some (types.string.create (.raw old), (w.entries d key).bind Prod.snd))

theorem setrangeLookup_shows (types : Types V) (hS : (d, key) ∈ w.settled)
    (hd : env.clusterEnabled = true → d = 0) (offset : Int64) (value : Bytes) :
    Runs (Shows env)
      (setrangeLookup env types d key offset value ((w.entries d key).map Prod.fst)) w
      (lookupResult types offset value ((w.entries d key).map Prod.fst))
      (lookupEntries types w d key
        (lookupResult types offset value ((w.entries d key).map Prod.fst))) := by
  cases hentry : w.entries d key with
  | none =>
    rw [map_none, setrangeLookup, lookupResult]
    dsimp only [stringOf, checkType, Except.map, map_none, getD_none]
    split
    next => exact Runs.pure _ _
    next =>
      cases checkStringLength (offset.toUInt64 + UInt64.ofNat value.length).toInt64 with
      | error reply => exact Runs.pure _ _
      | ok =>
        dsimp only
        rw [lookupEntries, hentry]
        exact (dbAdd_shows hS hentry hd).bind (Runs.pure _ _)
  | some x =>
    obtain ⟨v, e⟩ := x
    rw [map_some, setrangeLookup, lookupResult, stringOf, checkType]
    cases hv : types.string.checkType v with
    | none => exact Runs.pure _ _
    | some o =>
      dsimp only [Except.map, map_some, getD_some]
      split
      next => exact Runs.pure _ _
      next =>
        cases checkStringLength (offset.toUInt64 + UInt64.ofNat value.length).toInt64 with
        | error reply => exact Runs.pure _ _
        | ok =>
          dsimp only
          rw [lookupEntries, hentry]
          exact (dbUnshareStringValue_shows hS hentry hv).bind (Runs.pure _ _)

theorem setrangeCommand_lookup (types : Types V) (key : Key) (value : Bytes)
    (hd : env.clusterEnabled = true → d = 0) (E : Dataset V)
    (harg : getLongFromObjectOrReply (some arg) none = .ok offset) (hoffset : 0 ≤ offset.toInt)
    {s : Server V} (hs : Sees env s E) :
    ∃ s', Shows env s' (lookupEntries types (View.touch ⟨E, ∅⟩ d key) d key
        (lookupResult types offset value ((E d key).map Prod.fst))) ∧
      (setrangeCommand env types d key arg value).run s =
        (match lookupResult types offset value ((E d key).map Prod.fst) with
          | .error reply => pure reply
          | .ok old => setrangeObject types d key old offset value).run s' := by
  have hlookup : Runs (Shows env) (Keyspace.lookupKeyWrite env d key) ⟨E, ∅⟩ ((E d key).map Prod.fst)
      (View.touch ⟨E, ∅⟩ d key) := lookupKeyWrite_shows
  have hneg : ¬ offset < 0 := by
    rw [Int64.lt_iff_toInt_lt]
    exact Int.not_lt.mpr hoffset
  obtain ⟨s₁, hrun₁, hs₁⟩ := hlookup s (sees_iff.mp hs)
  obtain ⟨s₂, hrun₂, hs₂⟩ := setrangeLookup_shows types (w := View.touch ⟨E, ∅⟩ d key)
    (.inl rfl) hd offset value s₁ hs₁
  refine ⟨s₂, hs₂, ?_⟩
  rw [setrangeCommand, harg]
  dsimp only
  rw [if_neg hneg, StateT.run_bind, hrun₁, some_bind, StateT.run_bind]
  rw [View.entries_touch] at hrun₂
  rw [hrun₂]
  rfl

/-! ## The limit -/

/-- The limit of the size of a string. -/
def maxStringLength : Nat := 512 * 1024 * 1024

/-- There is an error and the key is as it was, or the value is at the offset of a string that
is no longer than the limit.  An empty value changes nothing. -/
def Respected (types : Types V) (d : Nat) (key : Key) (arg : Robj) (value : Bytes)
    (E : Dataset V) (reply : Keyspace.Reply) (E' : Dataset V) : Prop :=
  (∃ text, reply = .error text) ∧ E' = E ∨
    ∃ old offset, stringOf types ((E d key).map Prod.fst) = .ok old ∧
      getLongFromObjectOrReply (some arg) none = .ok offset ∧ 0 ≤ offset.toInt ∧
      if value = [] then reply = .integer old.length ∧ E' = E
      else ∃ new : Bytes, reply = .integer new.length ∧
        E' = E.set d key (some (types.string.create (.raw new), (E d key).bind Prod.snd)) ∧
        new.length = max old.length (offset.toInt.toNat + value.length) ∧
        new.length ≤ maxStringLength ∧
        ∀ i < new.length, new[i]? =
          if offset.toInt.toNat ≤ i ∧ i < offset.toInt.toNat + value.length then
            value[i - offset.toInt.toNat]?
          else if i < old.length then old[i]? else some 0

/-- The end of the value is no `long long`, or the string is longer than the limit already, and
the value ends before the limit. -/
def PastLimit (types : Types V) (d : Nat) (key : Key) (arg : Robj) (value : Bytes)
    (E : Dataset V) : Prop :=
  value ≠ [] ∧ ∃ old offset, stringOf types ((E d key).map Prod.fst) = .ok old ∧
    getLongFromObjectOrReply (some arg) none = .ok offset ∧ 0 ≤ offset.toInt ∧
    (2 ^ 63 ≤ offset.toInt + value.length ∨
      offset.toInt + value.length ≤ maxStringLength ∧ maxStringLength < old.length)

theorem stringOf_error {x : Option V} (h : stringOf types x = .error reply) :
    ∃ text, reply = .error text := by
  rw [stringOf] at h
  cases hcheck : checkType types.string x with
  | error reply' =>
    rw [hcheck] at h
    cases h
    exact checkType_error hcheck
  | ok so =>
    rw [hcheck] at h
    cases h

theorem lookupResult_of_ne (offset : Int64) {x : Option V} {old : Bytes} (hold : stringOf types x = .ok old)
    (hne : value ≠ []) :
    lookupResult types offset value x =
      match checkStringLength (offset.toUInt64 + UInt64.ofNat value.length).toInt64 with
      | .error reply => .error reply
      | .ok () => .ok old := by
  rw [lookupResult, hold]
  exact if_neg fun hlen => hne (eq_nil_of_length_eq_zero hlen)

theorem length_memcpyAt {grown ptr : Bytes} {n : Nat} (h : memcpyAt grown n value = some ptr) :
    n + value.length ≤ ptr.length := by
  rw [memcpyAt] at h
  split at h
  next hle =>
    obtain rfl := Option.some.inj h
    rw [length_append, length_append, length_take, length_drop]
    omega
  next => cases h

/-- The copying replies the length of a string with these bytes, if there is memory for it. -/
theorem setrangeObject_reply (hoffset : 0 ≤ offset.toInt) (old : Bytes) {s s' : Server V}
    (h : (setrangeObject types d key old offset value).run s = some (reply, s')) :
    ∃ n : Nat, reply = .integer n ∧ offset.toInt + value.length ≤ n := by
  rw [setrangeObject] at h
  cases hgrow : sdsgrowzero old (offset.toUInt64 + UInt64.ofNat value.length) with
  | none =>
    rw [hgrow] at h
    cases h
  | some grown =>
    rw [hgrow] at h
    dsimp only at h
    cases hcopy : memcpyAt grown offset.toUInt64.toNat value with
    | none =>
      rw [hcopy] at h
      cases h
    | some ptr =>
      rw [hcopy] at h
      have hreply := (Prod.mk.inj (Option.some.inj h)).1
      have hlength := length_memcpyAt hcopy
      rw [toNat_offset hoffset] at hlength
      exact ⟨ptr.length, hreply.symm, by omega⟩

/-- An integer as the reply says that the value was written. -/
theorem Respected.written {E E' : Dataset V} {n : Nat}
    (h : Respected types d key arg value E (.integer n) E') (hne : value ≠ []) {old : Bytes}
    (hold : stringOf types ((E d key).map Prod.fst) = .ok old)
    (harg : getLongFromObjectOrReply (some arg) none = .ok offset) :
    n = max old.length (offset.toInt.toNat + value.length) ∧ n ≤ maxStringLength := by
  rcases h with ⟨⟨text, h⟩, -⟩ | ⟨old', offset', hold', harg', -, h⟩
  · cases h
  obtain rfl := Except.ok.inj (hold'.symm.trans hold)
  obtain rfl := Except.ok.inj (harg'.symm.trans harg)
  rw [if_neg hne] at h
  obtain ⟨new, hreply, -, hlength, hmax, -⟩ := h
  have hn : n = new.length := Int.ofNat.inj (Keyspace.Reply.integer.inj hreply)
  exact ⟨hn.trans hlength, hn ▸ hmax⟩

theorem setrange_not_respected (hd : env.clusterEnabled = true → d = 0) {E : Dataset V}
    (hlen : value.length < 2 ^ 63) (hpast : PastLimit types d key arg value E) {s s' : Server V}
    (hs : Sees env s E) {E' : Dataset V}
    (hrun : (setrangeCommand env types d key arg value).run s = some (reply, s')) :
    ¬ Respected types d key arg value E reply E' := by
  intro hrespected
  obtain ⟨hne, old, offset, hold, harg, hoffset, hcase⟩ := hpast
  obtain ⟨s₁, -, hrun₁⟩ := setrangeCommand_lookup types key value hd E harg hoffset hs
  have hsize : checkStringLength (offset.toUInt64 + UInt64.ofNat value.length).toInt64 = .ok () := by
    rw [maxStringLength] at hcase
    rcases hcase with hlarge | ⟨hsmall, -⟩
    · exact checkStringLength_large hoffset hlen hlarge
    · rw [checkStringLength_small hoffset (by omega), if_neg (by omega)]
  rw [lookupResult_of_ne offset hold hne, hsize, hrun] at hrun₁
  obtain ⟨n, rfl, hn⟩ := setrangeObject_reply hoffset old hrun₁.symm
  obtain ⟨hlength, hmax⟩ := hrespected.written hne hold harg
  rw [maxStringLength] at hmax hcase
  omega

/-- A command that is refused before it looks up the key. -/
theorem setrangeCommand_refused (env : Env) (types : Types V) (d : Nat) (key : Key)
    (value : Bytes) (s : Server V)
    (h : ∀ offset, getLongFromObjectOrReply (some arg) none = .ok offset → offset.toInt < 0) :
    ∃ text, (setrangeCommand env types d key arg value).run s = some (.error text, s) := by
  rw [setrangeCommand]
  rcases getLongLong_cases (some arg) none with ⟨offset, -, hok⟩ | ⟨text, -, herror⟩
  · have hneg : offset < 0 := Int64.lt_iff_toInt_lt.mpr (h offset hok)
    rw [getLongFromObjectOrReply, hok]
    dsimp only
    rw [if_pos hneg]
    exact ⟨_, rfl⟩
  · rw [getLongFromObjectOrReply, herror]
    exact ⟨text, rfl⟩

theorem setrange_respected (hd : env.clusterEnabled = true → d = 0) {E : Dataset V}
    (hlen : value.length < 2 ^ 63) (hpast : ¬ PastLimit types d key arg value E) {s : Server V}
    (hs : Sees env s E) :
    ∃ reply s' E', (setrangeCommand env types d key arg value).run s = some (reply, s') ∧
      Sees env s' E' ∧ Respected types d key arg value E reply E' := by
  by_cases hoffset : ∃ offset, getLongFromObjectOrReply (some arg) none = .ok offset ∧ 0 ≤ offset.toInt
  case neg =>
    obtain ⟨text, hrun⟩ := setrangeCommand_refused env types d key value s fun offset harg =>
        Int.not_le.mp fun hle => hoffset ⟨offset, harg, hle⟩
    exact ⟨_, s, E, hrun, hs, .inl ⟨⟨text, rfl⟩, rfl⟩⟩
  obtain ⟨offset, harg, hoffset⟩ := hoffset
  obtain ⟨s₁, hs₁, hrun⟩ := setrangeCommand_lookup types key value hd E harg hoffset hs
  -- a reply of the first part is the reply, and nothing is changed
  have hreply : ∀ reply, lookupResult types offset value ((E d key).map Prod.fst) = .error reply →
      (setrangeCommand env types d key arg value).run s = some (reply, s₁) ∧ Sees env s₁ E := by
    intro reply hresult
    rw [hresult] at hs₁ hrun
    exact ⟨hrun, hs₁.sees⟩
  cases hold : stringOf types ((E d key).map Prod.fst) with
  | error reply =>
    obtain ⟨hrun, hsees⟩ := hreply reply (by rw [lookupResult, hold])
    exact ⟨_, s₁, E, hrun, hsees, .inl ⟨stringOf_error hold, rfl⟩⟩
  | ok old =>
    by_cases hnil : value = []
    · obtain ⟨hrun, hsees⟩ := hreply (.integer old.length)
        (by rw [lookupResult, hold]; exact if_pos (congrArg length hnil))
      refine ⟨_, s₁, E, hrun, hsees, .inr ⟨old, offset, hold, harg, hoffset, ?_⟩⟩
      rw [if_pos hnil]
      exact ⟨rfl, rfl⟩
    have hresult := lookupResult_of_ne offset hold hnil
    have hsmall : offset.toInt + value.length < 2 ^ 63 := Int.not_le.mp fun hlarge =>
      hpast ⟨hnil, old, offset, hold, harg, hoffset, .inl hlarge⟩
    rw [checkStringLength_small hoffset hsmall] at hresult
    by_cases hmax : 512 * 1024 * 1024 < offset.toInt + value.length
    · rw [if_pos hmax] at hresult
      obtain ⟨hrun, hsees⟩ := hreply _ hresult
      exact ⟨_, s₁, E, hrun, hsees, .inl ⟨⟨_, rfl⟩, rfl⟩⟩
    · rw [if_neg hmax] at hresult
      rw [hresult] at hs₁ hrun
      have hcopy := setrangeObject_shows env types old
        (w := (View.touch ⟨E, ∅⟩ d key).set d key
          (some (types.string.create (.raw old), (E d key).bind Prod.snd)))
        (.inl rfl) (Dataset.set_same E d key _) hoffset hsmall
      obtain ⟨s₂, hrun₂, hs₂⟩ := hcopy s₁ hs₁
      have hentries := hs₂.sees
      refine ⟨_, s₂, _, hrun.trans hrun₂, hentries, .inr ⟨old, offset, hold, harg, hoffset, ?_⟩⟩
      have hold' : old.length ≤ maxStringLength := Nat.le_of_not_lt fun hlong =>
        hpast ⟨hnil, old, offset, hold, harg, hoffset, .inr ⟨Int.not_lt.mp hmax, hlong⟩⟩
      rw [if_neg hnil]
      refine ⟨overlay old offset.toInt.toNat value, rfl, Dataset.set_set E d key _ _,
        length_overlay .., ?_, ?_⟩
      · rw [length_overlay, maxStringLength]
        rw [maxStringLength] at hold'
        omega
      · intro i hi
        rw [length_overlay] at hi
        exact getElem?_overlay old _ value hi

/-- The command respects the limit, but for an end that is no `long long`, and for a string that
is too long already. -/
theorem setrange_respected_iff {V : Type} {env : Env} {types : Types V} {d : Nat} {key : Key}
    {s : Server V} {E : Dataset V} (hs : Sees env s E) (hd : env.clusterEnabled = true → d = 0)
    (arg : Robj) {value : Bytes} (hlen : value.length < 2 ^ 63) :
    (∃ reply s' E', (setrangeCommand env types d key arg value).run s = some (reply, s') ∧
      Sees env s' E' ∧ Respected types d key arg value E reply E') ↔
      ¬ PastLimit types d key arg value E := by
  constructor
  · rintro ⟨reply, s', E', hrun, -, hrespected⟩ hpast
    exact setrange_not_respected hd hlen hpast hs hrun hrespected
  · intro hpast
    exact setrange_respected hd hlen hpast hs

/-- Two bytes at the start of a key that does not exist. -/
theorem setrange_respected_iff_missing :
    ∃ reply s' E',
      (setrangeCommand plainEnv valueTypes 0 [97] (.int 0) [120, 121]).run emptyServer =
        some (reply, s') ∧
      Sees plainEnv s' E' ∧
      Respected valueTypes 0 [97] (.int 0) [120, 121] (fun _ _ => none) reply E' :=
  (setrange_respected_iff emptyServer_sees (fun h => absurd h Bool.false_ne_true) (.int 0)
    (by decide)).mpr fun ⟨_, old, offset, hold, harg, _, hcase⟩ => by
      obtain rfl : [] = old := Except.ok.inj hold
      obtain rfl : 0 = offset := Except.ok.inj harg
      revert hcase
      decide

/-- `SETRANGE key 9223372036854775807 x`: the end is negative as a `long long`. -/
theorem setrange_not_respected_missing :
    ¬ ∃ reply s' E',
      (setrangeCommand plainEnv valueTypes 0 [97] (.int Int64.maxValue) [120]).run emptyServer =
        some (reply, s') ∧
      Sees plainEnv s' E' ∧
      Respected valueTypes 0 [97] (.int Int64.maxValue) [120] (fun _ _ => none) reply E' := by
  rintro ⟨reply, s', E', hrun, -, hrespected⟩
  refine setrange_not_respected (fun h => absurd h Bool.false_ne_true) (by decide) ?_ emptyServer_sees
    hrun hrespected
  exact ⟨cons_ne_nil _ _, [], Int64.maxValue, rfl, rfl, by decide, .inl (by decide)⟩

end Redis.Strings
