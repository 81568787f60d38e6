import Redis.Output

/-!
# Redis.Output.Stream

What a client has been sent and what waits for it are, in the order of the calls, the
replies that were added.
-/

namespace Redis.Output

open List Option

variable {node k n : Nat} {s : Bytes} {l : List ReplyNode} {c : RedisClient}

/-! ## Replies in the order of the calls -/

/-- A byte of the stream, or the place of a length that is not set. -/
inductive Tok where
  | byte (b : UInt8)
  | hole (node : Nat)
deriving DecidableEq

def toks (s : Bytes) : List Tok := s.map .byte

/-- The bytes of a stream; a place that is not set has none. -/
def bytesOf (l : List Tok) : Bytes :=
  l.filterMap fun
    | .byte b => some b
    | .hole _ => none

/-- The place of a node is filled. -/
def fill (node : Nat) (s : Bytes) (l : List Tok) : List Tok :=
  l.flatMap fun t => if t = .hole node then toks s else [t]

/-- The string an object stands for. -/
def RObj.text : RObj → Bytes
  | .raw s => s.bytes
  | .embstr s => s.bytes
  | .int v => canonical v.toInt

/-- A bulk reply: the length of the payload, and the payload. -/
def bulkReply (payload : Bytes) : Bytes :=
  36 :: canonical payload.length ++ crlf ++ payload ++ crlf

theorem toks_append (s t : Bytes) : toks (s ++ t) = toks s ++ toks t := map_append ..

@[simp]
theorem length_toks (s : Bytes) : (toks s).length = s.length := length_map ..

theorem drop_toks (n : Nat) (s : Bytes) : (toks s).drop n = toks (s.drop n) :=
  (map_drop ..).symm

theorem hole_not_mem_toks (node : Nat) (s : Bytes) : Tok.hole node ∉ toks s := by
  simp [toks]

theorem bytesOf_append (l l' : List Tok) : bytesOf (l ++ l') = bytesOf l ++ bytesOf l' :=
  filterMap_append

theorem bytesOf_toks (s : Bytes) : bytesOf (toks s) = s := by
  rw [bytesOf, toks, filterMap_map]
  exact filterMap_some

theorem fill_append (node : Nat) (s : Bytes) (l l' : List Tok) :
    fill node s (l ++ l') = fill node s l ++ fill node s l' := flatMap_append

theorem fill_eq_self {l : List Tok} (h : .hole node ∉ l) : fill node s l = l := by
  induction l with
  | nil => rfl
  | cons t l ih =>
    rw [mem_cons, not_or] at h
    rw [fill] at ih ⊢
    rw [flatMap_cons, if_neg (Ne.symm h.1), ih h.2]
    rfl

theorem fill_hole (node : Nat) (s : Bytes) : fill node s [.hole node] = toks s := by
  simp [fill]

/-! ## What waits in a client -/

/-- What is in a node. -/
def ReplyNode.toks (n : ReplyNode) : List Tok :=
  match n.ptr with
  | some s => Output.toks s.bytes
  | none => [.hole n.id]

def replyToks (l : List ReplyNode) : List Tok := l.flatMap ReplyNode.toks

/-- What waits in a client; `sentlen` counts in the buffer, or else in the first node. -/
def RedisClient.unsent (c : RedisClient) : List Tok :=
  if c.buf = [] then (replyToks c.reply).drop c.sentlen
  else toks (c.buf.drop c.sentlen) ++ replyToks c.reply

/-- A part of the first node is sent, but not all of it. -/
def Started (sentlen : Nat) (l : List ReplyNode) : Prop :=
  sentlen = 0 ∨ ∃ n rest s, l = n :: rest ∧ n.ptr = some s ∧ sentlen < s.bytes.length

/-- What holds of a client between calls. -/
structure ClientInv (c : RedisClient) : Prop where
  writable : c.writable = true
  staysOpen : c.closeAfterReply = false
  nodup : (c.reply.map ReplyNode.id).Nodup
  fresh : ∀ n ∈ c.reply, n.id < c.next
  bufSent : c.buf ≠ [] → c.sentlen < c.buf.length
  listSent : c.buf = [] → Started c.sentlen c.reply

theorem createClient_inv : ClientInv createClient where
  writable := rfl
  staysOpen := rfl
  nodup := nodup_nil
  fresh := fun _ hn => absurd hn not_mem_nil
  bufSent := fun h => absurd rfl h
  listSent := fun _ => .inl rfl

theorem replyToks_append (l l' : List ReplyNode) :
    replyToks (l ++ l') = replyToks l ++ replyToks l' := flatMap_append

theorem replyToks_cons (n : ReplyNode) (l : List ReplyNode) :
    replyToks (n :: l) = n.toks ++ replyToks l := rfl

theorem replyToks_singleton (n : ReplyNode) : replyToks [n] = n.toks := flatMap_singleton ..

theorem Started.le (h : Started k l) : k ≤ (replyToks l).length := by
  rcases h with rfl | ⟨n, rest, s, rfl, hs, hk⟩
  · exact Nat.zero_le _
  · rw [replyToks_cons, ReplyNode.toks, hs, length_append, length_toks]
    omega

/-- What is sent of the first node are bytes. -/
theorem Started.take (h : Started k l) : ∃ t, (replyToks l).take k = toks t := by
  rcases h with rfl | ⟨n, rest, s, rfl, hs, hk⟩
  · exact ⟨[], take_zero⟩
  · refine ⟨s.bytes.take k, ?_⟩
    rw [replyToks_cons, ReplyNode.toks, hs]
    dsimp only
    rw [take_append_of_le_length (by rw [length_toks]; exact hk.le), toks, toks, map_take]

/-- With no list behind it, the buffer is all that waits. -/
theorem unsent_of_nil (h : c.reply = []) : c.unsent = toks (c.buf.drop c.sentlen) := by
  rw [RedisClient.unsent, h]
  split
  next hbuf => rw [hbuf, drop_nil, replyToks, flatMap_nil, drop_nil, toks, map_nil]
  next => rw [replyToks, flatMap_nil, append_nil]

/-- A list that starts with at least the same text. -/
theorem Started.mono {l' : List ReplyNode} (h : Started k l)
    (hhead : ∀ n rest s, l = n :: rest → n.ptr = some s →
      ∃ n' rest' s', l' = n' :: rest' ∧ n'.ptr = some s' ∧ s.bytes.length ≤ s'.bytes.length) :
    Started k l' := by
  rcases h with rfl | ⟨n, rest, s, rfl, hs, hk⟩
  · exact .inl rfl
  · obtain ⟨n', rest', s', hl', hs', hle⟩ := hhead n rest s rfl hs
    exact .inr ⟨n', rest', s', hl', hs', Nat.lt_of_lt_of_le hk hle⟩

/-! ## Adding -/

/-- A call has added these bytes at the end, and kept the invariant. -/
structure Adds (c c' : RedisClient) (l : List Tok) : Prop where
  inv : ClientInv c'
  unsent : c'.unsent = c.unsent ++ l

theorem Adds.trans {c₁ c' : RedisClient} {l l' : List Tok} (h : Adds c c₁ l) (h' : Adds c₁ c' l') :
    Adds c c' (l ++ l') :=
  ⟨h'.inv, by rw [h'.unsent, h.unsent, append_assoc]⟩

variable {header : Bytes} {id : Nat} {ptr : Sds} {reply rest : List ReplyNode} (obj : RObj)

/-- The list of a client has more at its end. -/
theorem unsent_reply (h : ClientInv c) {next : Nat} {l : List Tok}
    (hl : replyToks reply = replyToks c.reply ++ l) :
    RedisClient.unsent { c with reply := reply, next := next } = c.unsent ++ l := by
  rw [RedisClient.unsent, RedisClient.unsent]
  dsimp only
  split
  next hbuf => rw [hl, drop_append_of_le_length (h.listSent hbuf).le]
  next => rw [hl, append_assoc]

theorem listAddNodeTail_adds (h : ClientInv c) (ptr : Option Sds) (raw : Bool) :
    Adds c (listAddNodeTail c ptr raw) (ReplyNode.toks ⟨c.next, ptr, raw⟩) where
  inv := {
    writable := h.writable
    staysOpen := h.staysOpen
    nodup := by
      rw [listAddNodeTail, map_append, nodup_append]
      refine ⟨h.nodup, nodup_singleton _, fun id hid id' hid' => ?_⟩
      obtain ⟨n, hn, rfl⟩ := mem_map.mp hid
      rw [map_singleton, mem_singleton] at hid'
      exact hid' ▸ Nat.ne_of_lt (h.fresh n hn)
    fresh := by
      intro n hn
      rcases mem_append.mp hn with hn | hn
      · exact Nat.lt_succ_of_lt (h.fresh n hn)
      · rw [mem_singleton.mp hn]
        exact Nat.lt_succ_self _
    bufSent := h.bufSent
    listSent := fun hbuf => (h.listSent hbuf).mono fun n rest s hl hs =>
      ⟨n, rest ++ [⟨c.next, ptr, raw⟩], s, by rw [listAddNodeTail, hl, cons_append], hs, le_rfl⟩ }
  unsent := unsent_reply h (by rw [replyToks_append, replyToks_singleton])

theorem sdsnewlen_bytes (h : s.length < 2 ^ 32) : (sdsnewlen s).bytes = s := by
  have htake : (sdsnewlen s).bytes = s.take (s.length % 2 ^ 32) := rfl
  rw [htake, Nat.mod_eq_of_lt h, take_length]

theorem addToList_adds (h : ClientInv c) (hptr : ptr.bytes = s) (raw : Bool) :
    Adds c (addToList c s ptr raw) (toks s) := by
  have hnew : Adds c (listAddNodeTail c (some ptr) raw) (toks s) :=
    hptr ▸ listAddNodeTail_adds h (some ptr) raw
  rw [addToList, if_neg (by simp [h.staysOpen])]
  split
  next => exact hnew
  next tail htail =>
    split
    next => exact hnew
    next t ht =>
      split
      next hroom =>
        obtain ⟨front, hfront⟩ : ∃ front, c.reply = front ++ [tail] :=
          getLast?_eq_some_iff.mp htail
        have hcat : (sdscatlen t s).bytes = t.bytes ++ s := by
          refine sdsnewlen_bytes ?_
          rw [length_append]
          exact Nat.lt_of_le_of_lt hroom.2 (by decide)
        have hreply : c.reply.dropLast = front := by rw [hfront, dropLast_concat]
        have hids : (front ++ [{ tail with ptr := some (sdscatlen t s) }]).map ReplyNode.id =
            c.reply.map ReplyNode.id := by
          rw [hfront, map_append, map_append]
          rfl
        rw [hreply]
        refine ⟨⟨h.writable, h.staysOpen, ?_, ?_, h.bufSent, ?_⟩, unsent_reply h ?_⟩
        · exact hids ▸ h.nodup
        · intro n hn
          obtain ⟨n', hn', hid⟩ := mem_map.mp (hids ▸ mem_map_of_mem hn)
          exact hid ▸ h.fresh n' hn'
        · intro hbuf
          refine (h.listSent hbuf).mono fun n rest u hl hu => ?_
          cases front with
          | nil =>
            rw [hfront, nil_append, List.cons.injEq] at hl
            obtain ⟨rfl, -⟩ := hl
            refine ⟨_, _, sdscatlen t s, rfl, rfl, ?_⟩
            rw [ht, Option.some.injEq] at hu
            rw [hcat, length_append, hu]
            exact Nat.le_add_right ..
          | cons n' front =>
            rw [hfront, cons_append, List.cons.injEq] at hl
            exact ⟨n', _, u, rfl, hl.1 ▸ hu, le_rfl⟩
        · rw [hfront, replyToks_append, replyToks_append, replyToks_singleton,
            replyToks_singleton, ReplyNode.toks, ReplyNode.toks, ht]
          dsimp only
          rw [hcat, toks_append, append_assoc]
      next => exact hnew

/-- To the buffer, if there is nothing behind it and it is large enough. -/
theorem addReplyToBuffer_adds (h : ClientInv c) (s : Bytes) :
    (addReplyToBuffer c s).2 = true ∧ Adds c (addReplyToBuffer c s).1 (toks s) ∨
      addReplyToBuffer c s = (c, false) := by
  rw [addReplyToBuffer, if_neg (by simp [h.staysOpen])]
  split
  next => exact .inr rfl
  next hlen =>
    have hreply : c.reply = [] := eq_nil_of_length_eq_zero (Nat.eq_zero_of_not_pos hlen)
    split
    next => exact .inr rfl
    next =>
      have hsent : c.sentlen ≤ c.buf.length := by
        by_cases hbuf : c.buf = []
        · have hle := (h.listSent hbuf).le
          rw [hreply] at hle
          exact hle.trans (Nat.zero_le _)
        · exact (h.bufSent hbuf).le
      have hstarted : c.buf = [] → c.sentlen = 0 := fun hbuf => by
        rw [hbuf] at hsent
        exact Nat.le_zero.mp hsent
      refine .inl ⟨rfl, ⟨h.writable, h.staysOpen, h.nodup, h.fresh, fun hne => ?_, fun hbuf => ?_⟩, ?_⟩
      · dsimp only at hne ⊢
        rw [length_append]
        by_cases hbuf : c.buf = []
        · rw [hstarted hbuf, hbuf, length_nil, Nat.zero_add]
          rw [hbuf, nil_append] at hne
          exact length_pos_iff.mpr hne
        · exact Nat.lt_of_lt_of_le (h.bufSent hbuf) (Nat.le_add_right ..)
      · exact .inl (hstarted (append_eq_nil_iff.mp hbuf).1)
      · have hnew := unsent_of_nil (c := { c with buf := c.buf ++ s }) hreply
        rw [unsent_of_nil hreply, ← toks_append, ← drop_append_of_le_length hsent]
        exact hnew

theorem orElseList_adds (h : ClientInv c) (hptr : ptr.bytes = s) (raw : Bool) :
    Adds c (orElseList (addReplyToBuffer c s) (addToList · s ptr raw)) (toks s) := by
  rw [orElseList]
  rcases addReplyToBuffer_adds h s with ⟨hok, hadds⟩ | hfull
  · rw [if_pos hok]
    exact hadds
  · rw [hfull, if_neg Bool.false_ne_true]
    exact addToList_adds h hptr raw

theorem addReply_adds (h : ClientInv c) (obj : RObj) : Adds c (addReply c obj) (toks obj.text) := by
  unfold addReply
  rw [if_neg (by simp [h.writable])]
  cases obj with
  | raw s => exact orElseList_adds h rfl true
  | embstr s => exact orElseList_adds h rfl false
  | int v =>
    have hlen : (canonical v.toInt).length < 2 ^ 32 :=
      Nat.lt_of_le_of_lt (length_canonical_le v) (by decide)
    have hbytes := sdsnewlen_bytes hlen
    have hdecoded : Adds c (orElseList (addReplyToBuffer c (canonical v.toInt))
        (addReplyObjectToList · (sdsnewlen (canonical v.toInt)) false)) (toks (canonical v.toInt)) := by
      simp only [addReplyObjectToList, hbytes]
      exact orElseList_adds h hbytes false
    dsimp only
    rw [ll2string_eq_canonical]
    split
    next =>
      rcases addReplyToBuffer_adds h (canonical v.toInt) with ⟨hok, hadds⟩ | hfull
      · rw [if_pos hok]
        exact hadds
      · rw [hfull] at hdecoded ⊢
        exact hdecoded
    next => exact hdecoded

theorem addReplySds_adds (h : ClientInv c) (s : Sds) : Adds c (addReplySds c s) (toks s.bytes) := by
  rw [addReplySds, if_neg (by simp [h.writable])]
  exact orElseList_adds h rfl true

theorem addReplyString_adds (h : ClientInv c) (hs : s.length < 2 ^ 32) :
    Adds c (addReplyString c s) (toks s) := by
  rw [addReplyString, if_neg (by simp [h.writable])]
  exact orElseList_adds h (sdsnewlen_bytes hs) _

/-! ## Bulk replies -/

theorem length_decimal_tdiv (h : n / 10 ≠ 0) :
    (decimal n).length = (decimal (n / 10)).length + 1 := by
  have hsplit : decimal n = decimal (n / 10) ++ [digitChar (n % 10)] := by
    rw [← decimal_append (Nat.pos_of_ne_zero h) (Nat.mod_lt n (by decide)), Nat.mul_comm,
      Nat.div_add_mod]
  rw [hsplit, length_append, length_singleton]

theorem longLenLoop_eq (n : Int) (len : Nat) :
    longLenLoop n len + 1 = len + (decimal n.natAbs).length := by
  induction n, len using longLenLoop.induct with
  | case1 n len h =>
    have hdiv := congrArg Int.natAbs h
    rw [Int.natAbs_tdiv, Int.natAbs_zero] at hdiv
    have hlt : n.natAbs < 10 := (Nat.div_eq_zero_iff_lt (by decide)).mp hdiv
    rw [longLenLoop, dif_pos h, decimal_of_lt hlt]
    rfl
  | case2 n len h ih =>
    have hdiv : n.natAbs / 10 ≠ 0 := fun heq =>
      h (Int.natAbs_eq_zero.mp ((Int.natAbs_tdiv n 10).trans heq))
    rw [longLenLoop, dif_neg h, ih, length_decimal_tdiv hdiv, Int.natAbs_tdiv]
    exact Nat.add_right_comm ..

/-- The division counts the digits of every `long`, the smallest one too. -/
theorem longLen_eq (v : Int64) : longLen v = (canonical v.toInt).length := by
  rw [length_canonical, longLen]
  split
  next hneg =>
    have habs : (-v).toInt.natAbs = v.toInt.natAbs := by
      have hlo := v.le_toInt
      have hhi := v.toInt_lt
      rw [Int64.toInt_neg]
      rcases eq_or_ne v.toInt (-2 ^ 63) with heq | hne
      · rw [heq]
        decide
      · rw [Int.bmod_eq_of_le (by omega) (by omega), Int.natAbs_neg]
    have hloop := longLenLoop_eq (-v).toInt 2
    rw [habs] at hloop
    omega
  next =>
    have hloop := longLenLoop_eq v.toInt 1
    omega

theorem canonical_natCast (n : Nat) : canonical (n : Int) = decimal n := by
  rw [canonical, if_neg (by omega), Int.natAbs_natCast]

/-- The header of a payload that an sds holds. -/
theorem length_header (h : n < 2 ^ 32) : (36 :: canonical (n : Int) ++ crlf).length < 2 ^ 32 := by
  have hlog : Nat.log 10 n < 10 := Nat.log_lt_of_lt_pow' (by decide) (by omega)
  rw [length_append, length_cons, canonical_natCast, length_decimal, crlf]
  simp only [length_cons, length_nil]
  omega

theorem sharedBulkhdr_text (h : n < 2 ^ 32) :
    (sharedBulkhdr n).text = 36 :: canonical n ++ crlf := sdsnewlen_bytes (length_header h)

theorem addReplyLongLongWithPrefix_adds (h : ClientInv c) (hn : n < 2 ^ 32) :
    Adds c (addReplyLongLongWithPrefix c n) (toks (36 :: canonical n ++ crlf)) := by
  rw [addReplyLongLongWithPrefix]
  split
  · rw [← sharedBulkhdr_text hn]
    exact addReply_adds h _
  · have hdigits : ll2string (n : Int) = canonical n := by
      rw [ll2string_eq (by omega) (by omega), canonical]
    rw [hdigits]
    exact addReplyString_adds h (length_header hn)

theorem RObj.len_eq : obj.len = obj.text.length := by
  cases obj with
  | raw s => rfl
  | embstr s => rfl
  | int v => exact longLen_eq v

theorem RObj.text_short : obj.text.length < 2 ^ 32 := by
  cases obj with
  | raw s => exact s.short
  | embstr s => exact s.short
  | int v => exact Nat.lt_of_le_of_lt (length_canonical_le v) (by decide)

theorem addReplyBulkLen_adds (h : ClientInv c) (obj : RObj) :
    Adds c (addReplyBulkLen c obj) (toks (36 :: canonical obj.text.length ++ crlf)) := by
  rw [addReplyBulkLen, obj.len_eq]
  split
  · rw [← sharedBulkhdr_text obj.text_short]
    exact addReply_adds h _
  · exact addReplyLongLongWithPrefix_adds h obj.text_short

theorem addReplyBulk_adds (h : ClientInv c) (obj : RObj) :
    Adds c (addReplyBulk c obj) (toks (bulkReply obj.text)) := by
  have hlen := addReplyBulkLen_adds h obj
  have hobj := addReply_adds hlen.inv obj
  have hcrlf := addReply_adds hobj.inv sharedCrlf
  have hall := (hlen.trans hobj).trans hcrlf
  have htext : sharedCrlf.text = crlf := sdsnewlen_bytes (by decide)
  rw [htext, ← toks_append, ← toks_append] at hall
  exact hall

/-! ## Deferred lengths -/

theorem addDeferredMultiBulkLength_adds (h : ClientInv c) :
    (addDeferredMultiBulkLength c).2 = some c.next ∧
      Adds c (addDeferredMultiBulkLength c).1 [.hole c.next] := by
  rw [addDeferredMultiBulkLength, if_neg (by simp [h.writable])]
  exact ⟨rfl, listAddNodeTail_adds h none true⟩

theorem mem_replyToks : Tok.hole node ∈ replyToks l ↔ ∃ n ∈ l, n.id = node ∧ n.ptr = none := by
  rw [replyToks, mem_flatMap]
  refine exists_congr fun n => and_congr_right fun _ => ?_
  rw [ReplyNode.toks]
  cases hn : n.ptr with
  | none => simp [eq_comm]
  | some s => simp [hole_not_mem_toks]

/-- The length of the text of the first node, which is what may be glued to the node before. -/
def headLength : List ReplyNode → Nat
  | [] => 0
  | n :: _ => n.ptr.elim 0 (·.bytes.length)

theorem glue_spec (hshort : header.length + headLength rest < 2 ^ 32) :
    replyToks (glue id (sdsnewlen header) rest) = toks header ++ replyToks rest ∧
      ∃ l, (glue id (sdsnewlen header) rest).map ReplyNode.id = id :: l ∧
        l.Sublist (rest.map ReplyNode.id) := by
  have hheader : (sdsnewlen header).bytes = header :=
    sdsnewlen_bytes (Nat.lt_of_le_of_lt (Nat.le_add_right ..) hshort)
  cases rest with
  | nil =>
    refine ⟨?_, [], rfl, Sublist.refl _⟩
    rw [glue, replyToks_singleton, ReplyNode.toks]
    dsimp only
    rw [hheader, replyToks, flatMap_nil, append_nil]
  | cons next rest =>
    rw [headLength] at hshort
    rw [glue]
    split
    next hnext =>
      refine ⟨?_, _, rfl, Sublist.refl _⟩
      rw [replyToks_cons, ReplyNode.toks]
      dsimp only
      rw [hheader]
    next t hnext =>
      rw [hnext, elim_some] at hshort
      have hcat : (sdscatlen (sdsnewlen header) t.bytes).bytes = header ++ t.bytes := by
        rw [sdscatlen, hheader]
        exact sdsnewlen_bytes (by rw [length_append]; exact hshort)
      refine ⟨?_, _, rfl, sublist_cons_self ..⟩
      rw [replyToks_cons, replyToks_cons, ReplyNode.toks, ReplyNode.toks, hnext]
      dsimp only
      rw [hcat, toks_append, append_assoc]

/-- The length of the text behind a node. -/
def nextLength (id : Nat) : List ReplyNode → Nat
  | [] => 0
  | n :: rest => if n.id = id then headLength rest else nextLength id rest

/-- Setting a length fills its place, also where the next object is glued to it. -/
theorem setNode_spec (hnodup : (l.map ReplyNode.id).Nodup) (hmem : .hole id ∈ replyToks l)
    (hshort : header.length + nextLength id l < 2 ^ 32) :
    ∃ l', setNode id (sdsnewlen header) l = some l' ∧
      replyToks l' = fill id header (replyToks l) ∧
      (l'.map ReplyNode.id).Sublist (l.map ReplyNode.id) ∧
      ∀ n rest s, l = n :: rest → n.ptr = some s → ∃ rest', l' = n :: rest' := by
  induction l with
  | nil => cases hmem
  | cons n rest ih =>
    rw [map_cons, nodup_cons] at hnodup
    rw [setNode]
    obtain ⟨n', hn', hid', hptr'⟩ := mem_replyToks.mp hmem
    by_cases hid : n.id = id
    · rw [nextLength, if_pos hid] at hshort
      -- an address is the address of one node
      have hn : n' = n := by
        rcases mem_cons.mp hn' with heq | hin
        · exact heq
        · exact absurd (mem_map_of_mem hin) (hid'.trans hid.symm ▸ hnodup.1)
      subst hn
      have hrest : .hole id ∉ replyToks rest := by
        intro hin
        obtain ⟨n', hn', hid', -⟩ := mem_replyToks.mp hin
        exact hnodup.1 (hid.trans hid'.symm ▸ mem_map_of_mem hn')
      obtain ⟨htoks, ids, hids, hsub⟩ := glue_spec hshort
      refine ⟨_, if_pos hid, ?_, ?_, fun m rest' s heq hs => ?_⟩
      · rw [htoks, replyToks_cons, fill_append, fill_eq_self hrest, ReplyNode.toks, hptr', hid,
          fill_hole]
      · rw [hids, map_cons, hid]
        exact hsub.cons_cons id
      · cases heq
        rw [hptr'] at hs
        cases hs
    · rw [nextLength, if_neg hid] at hshort
      have hin : n' ∈ rest := (mem_cons.mp hn').resolve_left fun heq => hid (heq ▸ hid')
      obtain ⟨l', hl', htoks, hsub, -⟩ :=
        ih hnodup.2 (mem_replyToks.mpr ⟨n', hin, hid', hptr'⟩) hshort
      refine ⟨n :: l', by rw [if_neg hid, hl', map_some], ?_, ?_, fun m rest' s heq hs => ?_⟩
      · have hout : .hole id ∉ n.toks := by
          rw [ReplyNode.toks]
          split
          · exact hole_not_mem_toks id _
          · simpa using Ne.symm hid
        rw [replyToks_cons, replyToks_cons, fill_append, htoks, fill_eq_self hout]
      · exact hsub.cons_cons n.id
      · cases heq
        exact ⟨l', rfl⟩

theorem fill_drop {t : Bytes} {l : List Tok} (h : l.take k = toks t) (hk : k ≤ l.length) :
    fill node s (l.drop k) = (fill node s l).drop k := by
  have hlen : (toks t).length = k := by rw [← h, length_take, Nat.min_eq_left hk]
  have hsplit : fill node s l = toks t ++ fill node s (l.drop k) := by
    rw [← fill_eq_self (s := s) (hole_not_mem_toks node t), ← h, ← fill_append,
      take_append_drop]
  rw [hsplit, drop_left' hlen]

/-- A place in the list waits, as what is sent of the first node are bytes. -/
theorem hole_mem_unsent (h : ClientInv c) :
    Tok.hole node ∈ c.unsent ↔ Tok.hole node ∈ replyToks c.reply := by
  rw [RedisClient.unsent]
  split
  next hbuf =>
    obtain ⟨t, ht⟩ := (h.listSent hbuf).take
    have hiff : .hole node ∈ replyToks c.reply ↔
        .hole node ∈ toks t ∨ .hole node ∈ (replyToks c.reply).drop c.sentlen := by
      rw [← mem_append, ← ht, take_append_drop]
    rw [hiff]
    exact ⟨.inr, fun hmem => hmem.resolve_left (hole_not_mem_toks node t)⟩
  next =>
    rw [mem_append]
    exact ⟨fun hmem => hmem.resolve_left (hole_not_mem_toks node _), .inr⟩

/-- A length is set in the stream that waits. -/
theorem setDeferredMultiBulkLength_spec (h : ClientInv c) (hmem : .hole node ∈ c.unsent)
    {length : Int64} (hshort : (multiBulkHeader length).length + nextLength node c.reply < 2 ^ 32) :
    ∃ c', setDeferredMultiBulkLength c (some node) length = some c' ∧ ClientInv c' ∧
      c'.unsent = fill node (multiBulkHeader length) c.unsent := by
  have hhole := (hole_mem_unsent h).mp hmem
  obtain ⟨reply, hreply, htoks, hsub, hhead⟩ := setNode_spec h.nodup hhole hshort
  refine ⟨{ c with reply := reply }, ?_, ⟨h.writable, h.staysOpen, h.nodup.sublist hsub, ?_,
    h.bufSent, ?_⟩, ?_⟩
  · rw [setDeferredMultiBulkLength, hreply]
    rfl
  · intro n hn
    obtain ⟨n', hn', hid⟩ := mem_map.mp (hsub.subset (mem_map_of_mem hn))
    exact hid ▸ h.fresh n' hn'
  · intro hbuf
    refine (h.listSent hbuf).mono fun n rest s hl hs => ?_
    obtain ⟨rest', hrest⟩ := hhead n rest s hl hs
    exact ⟨n, rest', s, hrest, hs, le_rfl⟩
  · rw [RedisClient.unsent, RedisClient.unsent]
    dsimp only
    split
    next hbuf =>
      obtain ⟨t, ht⟩ := (h.listSent hbuf).take
      rw [htoks, fill_drop ht (h.listSent hbuf).le]
    next =>
      rw [htoks, fill_append, fill_eq_self (hole_not_mem_toks node _)]

/-! ## Sending -/

/-- All lengths are set, and an `int` holds the length of each object. -/
def Sendable (l : List ReplyNode) : Prop :=
  ∀ n ∈ l, ∃ s, n.ptr = some s ∧ s.bytes.length < 2 ^ 31

theorem toInt_eq (h : n < 2 ^ 31) : toInt n = n := by
  have hdef : toInt n = (n : Int).bmod (2 ^ 32) := rfl
  rw [hdef, Int.bmod_def]
  omega

/-- A client that can be sent to. -/
structure Ready (c : RedisClient) : Prop extends ClientInv c where
  sendable : Sendable c.reply

theorem Sendable.sublist {l' : List ReplyNode} (h : Sendable l) (hsub : l'.Sublist l) :
    Sendable l' := fun n hn => h n (hsub.subset hn)

/-- The list of a client has lost nodes, and its first node is not sent in part. -/
theorem Ready.sublist (h : Ready c) {buf : Bytes} (hsub : reply.Sublist c.reply)
    (hbuf : buf ≠ [] → 0 < buf.length) :
    Ready { c with buf := buf, sentlen := 0, reply := reply } where
  writable := h.writable
  staysOpen := h.staysOpen
  nodup := h.nodup.sublist (hsub.map _)
  fresh := fun n hn => h.fresh n (hsub.subset hn)
  bufSent := hbuf
  listSent := fun _ => .inl rfl
  sendable := h.sendable.sublist hsub

/-- An object without bytes, which `sendReplyToClient` deletes. -/
def emptyNode (n : ReplyNode) : Bool := n.ptr.any fun t => toInt t.bytes.length = 0

theorem emptyNode_toks {n : ReplyNode} (hempty : emptyNode n = true)
    (h : ∃ s, n.ptr = some s ∧ s.bytes.length < 2 ^ 31) : n.toks = [] := by
  obtain ⟨s, hs, hshort⟩ := h
  rw [emptyNode, hs, any_some, decide_eq_true_eq, toInt_eq hshort] at hempty
  have hnil : s.bytes = [] := eq_nil_of_length_eq_zero (by omega)
  rw [ReplyNode.toks, hs]
  dsimp only
  rw [hnil]
  rfl

theorem replyToks_dropWhile (h : Sendable l) : replyToks (l.dropWhile emptyNode) = replyToks l := by
  induction l with
  | nil => rfl
  | cons n l ih =>
    rw [dropWhile_cons]
    split
    next hempty =>
      rw [ih (h.sublist (sublist_cons_self ..)), replyToks_cons,
        emptyNode_toks hempty (h n mem_cons_self), nil_append]
    next => rfl

theorem dropEmpty_spec (h : Ready c) : Ready (dropEmpty c) ∧ (dropEmpty c).unsent = c.unsent := by
  have hdrop : dropEmpty c =
      if c.buf = [] then { c with reply := c.reply.dropWhile emptyNode } else c := rfl
  rw [hdrop]
  split
  next hbuf =>
    rcases h.listSent hbuf with hzero | ⟨n, rest, s, hreply, hs, hk⟩
    · have hready := h.sublist (dropWhile_sublist emptyNode) fun hne => absurd hbuf hne
      rw [← hzero] at hready
      refine ⟨hready, ?_⟩
      rw [RedisClient.unsent, RedisClient.unsent]
      dsimp only
      rw [if_pos hbuf, if_pos hbuf, replyToks_dropWhile h.sendable]
    · -- an object that is sent in part is not empty
      have hstay : c.reply.dropWhile emptyNode = c.reply := by
        obtain ⟨s', hs', hshort⟩ := h.sendable n (hreply ▸ mem_cons_self)
        rw [hs, Option.some.injEq] at hs'
        subst hs'
        rw [hreply, dropWhile_cons, if_neg]
        rw [emptyNode, hs, any_some, decide_eq_true_eq, toInt_eq hshort]
        omega
      rw [hstay]
      exact ⟨h, rfl⟩
  next => exact ⟨h, rfl⟩

theorem pendingObject_eq {s : Sds} (hshort : s.bytes.length < 2 ^ 31) (hle : k ≤ s.bytes.length) :
    pendingObject s k = some (s.bytes.drop k) := by
  have hcount : ((s.bytes.length : Int) - k).toNat = s.bytes.length - k := by omega
  have hpos : ¬ toInt s.bytes.length - k < 0 := by
    rw [toInt_eq hshort]
    omega
  rw [pendingObject, if_neg hpos, toInt_eq hshort, hcount, ← length_drop, take_length]

theorem Ready.sentlen_le (h : Ready c) (hbuf : c.buf = []) {n : ReplyNode} {s : Sds}
    (hreply : c.reply = n :: rest) (hs : n.ptr = some s) : c.sentlen ≤ s.bytes.length := by
  rcases h.listSent hbuf with hzero | ⟨n', rest', s', heq, hs', hk⟩
  · rw [hzero]
    exact Nat.zero_le _
  · obtain ⟨rfl, -⟩ := List.cons.inj (hreply.symm.trans heq)
    obtain rfl := Option.some.inj (hs.symm.trans hs')
    exact hk.le

/-- What is given to `write` comes first in the stream. -/
theorem pending_spec (h : Ready c) :
    ∃ bytes rest, pending c = some bytes ∧ c.unsent = toks bytes ++ rest := by
  rw [pending, RedisClient.unsent]
  by_cases hbuf : c.buf = []
  · rw [if_neg (not_not.mpr hbuf), if_pos hbuf]
    cases hreply : c.reply with
    | nil => exact ⟨[], [], rfl, by rw [replyToks, flatMap_nil, drop_nil]; rfl⟩
    | cons n rest =>
      obtain ⟨s, hs, hshort⟩ := h.sendable n (hreply ▸ mem_cons_self)
      have hle := h.sentlen_le hbuf hreply hs
      refine ⟨s.bytes.drop c.sentlen, replyToks rest, ?_, ?_⟩
      · dsimp only
        rw [hs, bind_some, pendingObject_eq hshort hle]
      · rw [replyToks_cons, ReplyNode.toks, hs]
        dsimp only
        rw [drop_append_of_le_length (by rw [length_toks]; exact hle), drop_toks]
  · rw [if_pos hbuf, if_neg hbuf]
    exact ⟨_, _, rfl, rfl⟩

/-- What was written is no longer in the stream. -/
theorem advance_spec (h : Ready c) {bytes : Bytes} (hp : pending c = some bytes)
    (hn : n ≤ bytes.length) : Ready (advance c n) ∧ (advance c n).unsent = c.unsent.drop n := by
  rw [pending] at hp
  rw [advance]
  by_cases hbuf : c.buf = []
  · rw [if_neg (not_not.mpr hbuf)] at hp ⊢
    split
    next hreply =>
      rw [hreply, Option.some.injEq] at hp
      rw [← hp, length_nil, Nat.le_zero] at hn
      rw [hn]
      exact ⟨h, rfl⟩
    next m rest hreply =>
      obtain ⟨s, hs, hshort⟩ := h.sendable m (hreply ▸ mem_cons_self)
      have hle := h.sentlen_le hbuf hreply hs
      rw [hreply] at hp
      dsimp only at hp
      rw [hs, bind_some, pendingObject_eq hshort hle, Option.some.injEq] at hp
      rw [← hp, length_drop] at hn
      have hsum : c.sentlen + n ≤ s.bytes.length := by omega
      have hdrop : c.unsent.drop n = toks (s.bytes.drop (c.sentlen + n)) ++ replyToks rest := by
        rw [RedisClient.unsent, if_pos hbuf, hreply, replyToks_cons, ReplyNode.toks, hs,
          drop_drop]
        dsimp only
        rw [drop_append_of_le_length (by rw [length_toks]; exact hsum), drop_toks]
      rw [hdrop, hs, elim_some, toInt_eq hshort]
      split
      next hall =>
        refine ⟨h.sublist (hreply ▸ sublist_cons_self ..) fun hne => absurd hbuf hne, ?_⟩
        have hlen : c.sentlen + n = s.bytes.length := by omega
        rw [RedisClient.unsent, if_pos hbuf, hlen, drop_length]
        rfl
      next hpart =>
        refine ⟨{ h with
          bufSent := fun hne => absurd hbuf hne
          listSent := fun _ => .inr ⟨m, rest, s, hreply, hs, ?_⟩ }, ?_⟩
        · have hne : c.sentlen + n ≠ s.bytes.length := by omega
          exact Nat.lt_of_le_of_ne hsum hne
        · rw [RedisClient.unsent, if_pos hbuf, hreply, replyToks_cons, ReplyNode.toks, hs]
          dsimp only
          rw [drop_append_of_le_length (by rw [length_toks]; exact hsum), drop_toks]
  · rw [if_pos hbuf, Option.some.injEq] at hp
    rw [if_pos hbuf]
    have hlt := h.bufSent hbuf
    rw [← hp, length_drop] at hn
    have hdrop : c.unsent.drop n = toks (c.buf.drop (c.sentlen + n)) ++ replyToks c.reply := by
      rw [RedisClient.unsent, if_neg hbuf, drop_append_of_le_length, drop_toks, drop_drop]
      rw [length_toks, length_drop]
      exact hn
    rw [hdrop]
    split
    next hall =>
      refine ⟨h.sublist (Sublist.refl _) fun hne => absurd rfl hne, ?_⟩
      rw [hall, drop_length]
      rfl
    next hpart =>
      refine ⟨{ h with bufSent := fun _ => ?_, listSent := fun hnil => absurd hnil hbuf }, ?_⟩
      · have hle : c.sentlen + n ≤ c.buf.length := by omega
        exact Nat.lt_of_le_of_ne hle hpart
      · rw [RedisClient.unsent, if_neg hbuf]

theorem sendLoop_spec (h : Ready c) (totwritten : Nat) (writes : List (Nat × Bool)) :
    ∃ c' written, sendLoop c totwritten writes = some (c', written) ∧ Ready c' ∧
      c.unsent = toks written ++ c'.unsent := by
  induction writes generalizing c totwritten with
  | nil =>
    obtain ⟨hready, hunsent⟩ := dropEmpty_spec h
    obtain ⟨bytes, rest, hp, -⟩ := pending_spec hready
    refine ⟨dropEmpty c, [], ?_, hready, by rw [hunsent]; rfl⟩
    rw [sendLoop, hp]
    rfl
  | cons w writes ih =>
    obtain ⟨taken, below⟩ := w
    obtain ⟨hready, hunsent⟩ := dropEmpty_spec h
    obtain ⟨bytes, rest, hp, hfront⟩ := pending_spec hready
    rw [sendLoop, hp]
    simp only [some_bind]
    split
    · exact ⟨dropEmpty c, [], rfl, hready, by rw [hunsent]; rfl⟩
    · obtain ⟨hadv, hdrop⟩ := advance_spec hready hp (length_take_le' taken bytes)
      have hwritten : c.unsent = toks (bytes.take taken) ++
          (advance (dropEmpty c) (bytes.take taken).length).unsent := by
        have hlen : (bytes.take taken).length = (toks (bytes.take taken)).length :=
          (length_toks _).symm
        have hsplit : toks bytes = toks (bytes.take taken) ++ toks (bytes.drop taken) := by
          rw [← toks_append, take_append_drop]
        rw [hdrop, ← hunsent, hfront, hsplit, append_assoc, hlen, drop_left]
      split
      · exact ⟨_, _, rfl, hadv, hwritten⟩
      · obtain ⟨c', more, hmore, hready', hrest⟩ :=
          ih hadv (totwritten + (bytes.take taken).length)
        refine ⟨c', bytes.take taken ++ more, ?_, hready', ?_⟩
        · rw [hmore]
          rfl
        · rw [hwritten, hrest, toks_append, append_assoc]

/-- A send moves bytes from the front of the stream to the socket. -/
theorem sendReplyToClient_spec (h : Ready c) (writes : List (Nat × Bool)) :
    ∃ c' written, sendReplyToClient c writes = some (c', written) ∧ ClientInv c' ∧
      c.unsent = toks written ++ c'.unsent := by
  obtain ⟨c₁, written, hloop, hready, hunsent⟩ := sendLoop_spec h 0 writes
  rw [sendReplyToClient, hloop]
  simp only [some_bind]
  split
  next hempty =>
    rw [if_neg (by simp [hready.staysOpen])]
    have hzero : { c₁ with sentlen := 0 } = c₁ := by
      have hle := (hready.listSent hempty.1).le
      rw [hempty.2] at hle
      have hsent : c₁.sentlen = 0 := Nat.le_zero.mp hle
      rw [← hsent]
    rw [hzero]
    exact ⟨_, _, rfl, hready.toClientInv, hunsent⟩
  next => exact ⟨_, _, rfl, hready.toClientInv, hunsent⟩

/-! ## Runs -/

/-- A call of a function that adds a reply or a length, or a send, with what each `write` takes. -/
inductive Event where
  | addReply (obj : RObj)
  | addReplySds (s : Sds)
  | addReplyString (s : Bytes)
  | addReplyBulk (obj : RObj)
  | addDeferredMultiBulkLength
  | setDeferredMultiBulkLength (node : Nat) (length : Int64)
  | sendReplyToClient (writes : List (Nat × Bool))

/-- A client, what was written to its socket, and all replies in the order of the calls. -/
structure Stream where
  client : RedisClient
  written : Bytes
  log : List Tok

def Stream.init : Stream := ⟨createClient, [], []⟩

def step (s : Stream) : Event → Option Stream
  | .addReply obj => some ⟨addReply s.client obj, s.written, s.log ++ toks obj.text⟩
  | .addReplySds t => some ⟨addReplySds s.client t, s.written, s.log ++ toks t.bytes⟩
  | .addReplyString t => some ⟨addReplyString s.client t, s.written, s.log ++ toks t⟩
  | .addReplyBulk obj =>
    some ⟨addReplyBulk s.client obj, s.written, s.log ++ toks (bulkReply obj.text)⟩
  | .addDeferredMultiBulkLength =>
    let r := addDeferredMultiBulkLength s.client
    some ⟨r.1, s.written, s.log ++ r.2.elim [] fun node => [.hole node]⟩
  | .setDeferredMultiBulkLength node length => do
    let c ← setDeferredMultiBulkLength s.client (some node) length
    return ⟨c, s.written, fill node (multiBulkHeader length) s.log⟩
  | .sendReplyToClient writes => do
    let (c, written) ← sendReplyToClient s.client writes
    return ⟨c, s.written ++ written, s.log⟩

/-- What the callers keep to: a length is set once for each call that deferred it, and nothing is
sent while one is not set. -/
def Allowed (s : Stream) : Event → Prop
  | .setDeferredMultiBulkLength node _ => .hole node ∈ s.log
  | .sendReplyToClient _ => ∀ node, .hole node ∉ s.log
  | _ => True

/-- The lengths that the code can hold: 32 bits in an sds, and an `int` in a send. -/
def Fits (s : Stream) : Event → Prop
  | .addReplyString t => t.length < 2 ^ 32
  | .setDeferredMultiBulkLength node length =>
    (multiBulkHeader length).length + nextLength node s.client.reply < 2 ^ 32
  | .sendReplyToClient _ => ∀ n ∈ s.client.reply, ∀ t, n.ptr = some t → t.bytes.length < 2 ^ 31
  | _ => True

/-- The states that runs reach whose steps meet a condition. -/
inductive Reaches (p : Stream → Event → Prop) : Stream → Prop
  | init : Reaches p Stream.init
  | step {s s' : Stream} (ev : Event) (h : Reaches p s) (hp : p s ev)
    (hs : step s ev = some s') : Reaches p s'

/-- The written bytes and those that wait are the replies. -/
structure StreamInv (s : Stream) : Prop where
  client : ClientInv s.client
  log : s.log = toks s.written ++ s.client.unsent

theorem Adds.stream {s : Stream} (h : StreamInv s) {l : List Tok} (ha : Adds s.client c l) :
    StreamInv ⟨c, s.written, s.log ++ l⟩ where
  client := ha.inv
  log := by
    dsimp only
    rw [ha.unsent, ← append_assoc, ← h.log]

/-- Every call that is allowed and fits returns, and keeps the invariant. -/
theorem step_spec {s : Stream} (h : StreamInv s) {ev : Event} (ha : Allowed s ev)
    (hf : Fits s ev) : ∃ s', step s ev = some s' ∧ StreamInv s' := by
  cases ev with
  | addReply obj => exact ⟨_, rfl, (addReply_adds h.client obj).stream h⟩
  | addReplySds t => exact ⟨_, rfl, (addReplySds_adds h.client t).stream h⟩
  | addReplyString t => exact ⟨_, rfl, (addReplyString_adds h.client hf).stream h⟩
  | addReplyBulk obj => exact ⟨_, rfl, (addReplyBulk_adds h.client obj).stream h⟩
  | addDeferredMultiBulkLength =>
    obtain ⟨hnode, hadds⟩ := addDeferredMultiBulkLength_adds h.client
    refine ⟨_, rfl, ?_⟩
    rw [hnode]
    exact hadds.stream h
  | setDeferredMultiBulkLength node length =>
    have hmem : .hole node ∈ s.client.unsent := by
      have hlog : .hole node ∈ s.log := ha
      rw [h.log] at hlog
      exact (mem_append.mp hlog).resolve_left (hole_not_mem_toks node _)
    obtain ⟨c, hc, hinv, hunsent⟩ := setDeferredMultiBulkLength_spec h.client hmem hf
    refine ⟨_, by rw [step, hc]; rfl, ⟨hinv, ?_⟩⟩
    rw [h.log, fill_append, fill_eq_self (hole_not_mem_toks node _), hunsent]
  | sendReplyToClient writes =>
    have hready : Ready s.client := by
      refine ⟨h.client, fun n hn => ?_⟩
      cases hptr : n.ptr with
      | none =>
        -- a length that is not set is one in the log too
        refine absurd ?_ (ha n.id)
        rw [h.log, mem_append, hole_mem_unsent h.client]
        exact .inr (mem_replyToks.mpr ⟨n, hn, rfl, hptr⟩)
      | some t => exact ⟨t, rfl, hf n hn t hptr⟩
    obtain ⟨c, written, hc, hinv, hunsent⟩ := sendReplyToClient_spec hready writes
    refine ⟨_, by rw [step, hc]; rfl, ⟨hinv, ?_⟩⟩
    dsimp only
    rw [h.log, hunsent, toks_append, append_assoc]

theorem init_inv : StreamInv Stream.init := ⟨createClient_inv, rfl⟩

theorem reaches_inv {s : Stream} (h : Reaches (fun s ev => Allowed s ev ∧ Fits s ev) s) :
    StreamInv s := by
  induction h with
  | init => exact init_inv
  | step ev h hp hs ih =>
    obtain ⟨s', hs', hinv⟩ := step_spec ih hp.1 hp.2
    exact Option.some.inj (hs'.symm.trans hs) ▸ hinv

/-- In every run whose lengths fit, the bytes that were written and those that wait in the client
are the replies in the order of the calls, and no call fails. -/
theorem reply_stream {s : Stream} (h : Reaches (fun s ev => Allowed s ev ∧ Fits s ev) s) :
    s.written ++ bytesOf s.client.unsent = bytesOf s.log ∧
      ∀ ev, Allowed s ev → Fits s ev → (step s ev).isSome := by
  have hinv := reaches_inv h
  constructor
  · rw [hinv.log, bytesOf_append, bytesOf_toks]
  · intro ev ha hf
    obtain ⟨s', hs', -⟩ := step_spec hinv ha hf
    rw [hs']
    rfl

/-- A length that is deferred, a bulk reply that is glued to it, and a send that takes 6 of the 12
bytes. -/
theorem reply_stream_deferred : ∃ s : Stream,
    Reaches (fun s ev => Allowed s ev ∧ Fits s ev) s ∧ s.written = [42, 49, 13, 10, 36, 50] ∧
      s.written ++ bytesOf s.client.unsent = [42, 49, 13, 10, 36, 50, 13, 10, 45, 53, 13, 10] := by
  have hdefer := Reaches.step (p := fun s ev => Allowed s ev ∧ Fits s ev)
    .addDeferredMultiBulkLength .init ⟨trivial, trivial⟩ rfl
  have hbulk := Reaches.step (.addReplyBulk (.embstr ⟨[45, 53], by decide⟩)) hdefer
    ⟨trivial, trivial⟩ rfl
  have hset : Reaches (fun s ev => Allowed s ev ∧ Fits s ev)
      ⟨⟨[], 0, [⟨0, some ⟨[42, 49, 13, 10, 36, 50, 13, 10, 45, 53, 13, 10], by decide⟩, true⟩],
        false, true, 2⟩, [], toks [42, 49, 13, 10, 36, 50, 13, 10, 45, 53, 13, 10]⟩ := by
    refine Reaches.step (.setDeferredMultiBulkLength 0 1) hbulk ⟨mem_cons_self, ?_⟩ rfl
    exact Nat.lt_of_le_of_lt (m := 12) (by decide) (by decide)
  have hsend := Reaches.step (.sendReplyToClient [(6, true)]) hset
    ⟨fun node => hole_not_mem_toks node _, fun n hn t ht => ?_⟩ rfl
  · exact ⟨_, hsend, rfl, (reply_stream hsend).1⟩
  · obtain rfl := mem_singleton.mp hn
    obtain rfl := Option.some.inj ht
    decide

/-- An object of 2 ^ 31 bytes, the length of which is negative as an `int`. -/
theorem reply_stream_long :
    ¬ ∀ s : Stream, Reaches Allowed s →
      s.written ++ bytesOf s.client.unsent = bytesOf s.log ∧
        ∀ ev, Allowed s ev → (step s ev).isSome := by
  intro hall
  generalize hlong : replicate (2 ^ 31) (0 : UInt8) = long
  have hlen : long.length = 2 ^ 31 := by rw [← hlong, length_replicate]
  clear hlong
  have hadd : step Stream.init (.addReplyString long) =
      some ⟨⟨[], 0, [⟨0, some (sdsnewlen long), true⟩], false, true, 1⟩, [], toks long⟩ := by
    have hbuffer : addReplyToBuffer createClient long = (createClient, false) := by
      rw [addReplyToBuffer, if_neg (by decide), if_neg (by decide), if_pos]
      rw [hlen]
      decide
    have hraw : decide (embstrSizeLimit < long.length) = true := by
      rw [hlen]
      decide
    rw [step, addReplyString, if_neg (by decide), Stream.init, hbuffer, orElseList,
      if_neg (by decide), addReplyStringToList, hraw]
    rfl
  have hreach := Reaches.step (p := Allowed) (.addReplyString long) .init trivial hadd
  obtain ⟨-, hsome⟩ := hall _ hreach
  have hsent := hsome (.sendReplyToClient []) fun node => hole_not_mem_toks node long
  have hbytes : (sdsnewlen long).bytes = long := sdsnewlen_bytes (by rw [hlen]; decide)
  have hcount : toInt long.length - (0 : Nat) < 0 := by
    rw [hlen]
    decide
  have hpending : pendingObject (sdsnewlen long) 0 = none := by
    rw [pendingObject, hbytes, if_pos hcount]
  have hkept : emptyNode ⟨0, some (sdsnewlen long), true⟩ = false := by
    rw [emptyNode, any_some, hbytes, hlen]
    decide
  have hdrop : [(⟨0, some (sdsnewlen long), true⟩ : ReplyNode)].dropWhile emptyNode =
      [⟨0, some (sdsnewlen long), true⟩] := by
    rw [dropWhile_cons, hkept, if_neg Bool.false_ne_true]
  have hsend : sendReplyToClient
      ⟨[], 0, [⟨0, some (sdsnewlen long), true⟩], false, true, 1⟩ [] = none := by
    have hsame : dropEmpty ⟨[], 0, [⟨0, some (sdsnewlen long), true⟩], false, true, 1⟩ =
        ⟨[], 0, [⟨0, some (sdsnewlen long), true⟩], false, true, 1⟩ := by
      rw [dropEmpty, if_pos rfl]
      exact congrArg (fun l => RedisClient.mk [] 0 l false true 1) hdrop
    rw [sendReplyToClient, sendLoop, hsame, pending, if_neg (fun h => h rfl)]
    dsimp only
    rw [bind_some, hpending]
    rfl
  rw [step, hsend] at hsent
  cases hsent

end Redis.Output
