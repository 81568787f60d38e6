import Redis.Bitops
import Redis.Strings.Setrange

/-!
# Redis.Bitops.Bitop

`BITOP` combines the bytes of its sources one by one, also where it works with words.
-/

namespace Redis.Bitops

open Keyspace List Option
open Bytes (leNat leBytes load store length_store getElem?_store)
open Lanes (byteOp word words word_zipWith word_complement zipWith_words map_words flatMap_words)
open Replication (Robj)
open Strings (Types stringOf checkType)

variable {s res : Bytes} {j : Nat} {acc : Sources}

/-! ## Bytes -/

/-- The byte of a string at an index, zero behind its end. -/
def byteAt (i : Nat) (s : Bytes) : UInt8 := (s[i]?).getD 0

namespace BitOp

/-- An operation over the bytes of all sources; `NOT` has one. -/
def combine : BitOp → Bytes → UInt8
  | and, bs => bs.foldl (· &&& ·) 0xFF
  | or, bs => bs.foldl (· ||| ·) 0
  | xor, bs => bs.foldl (· ^^^ ·) 0
  | not, bs => ~~~bs.headD 0

theorem combine_cons (op : BitOp) (b : UInt8) {bs : Bytes} (h : op = not → bs = []) :
    op.combine (b :: bs) = bs.foldl op.byte (if op = not then ~~~b else b) := by
  cases op with
  | and =>
    have hfull : 0xFF &&& b = b := UInt8.neg_one_and
    rw [combine, foldl_cons, hfull]
    rfl
  | or =>
    rw [combine, foldl_cons, UInt8.zero_or]
    rfl
  | xor =>
    rw [combine, foldl_cons, UInt8.zero_xor]
    rfl
  | not =>
    rw [h rfl]
    rfl

end BitOp

/-- The last loop computes the operation over the bytes of the sources. -/
theorem bitopByte_eq {op : BitOp} {src : List Bytes} (hne : src ≠ [])
    (hnot : op = .not → src.length = 1) (i : Nat) :
    bitopByte op src i = op.combine (src.map (byteAt i)) := by
  cases src with
  | nil => exact absurd rfl hne
  | cons s src =>
    have htail : op = .not → src.map (byteAt i) = [] := fun h => by
      rw [eq_nil_of_length_eq_zero (Nat.succ.inj (hnot h)), map_nil]
    rw [map_cons, BitOp.combine_cons op _ htail, foldl_map]
    rfl

/-! ## Words -/

/-- The words of two rows are combined byte by byte. -/
theorem word_combine {op : BitOp} (hop : op ≠ .not) {xs ys : Bytes} (hxs : xs.length = 8)
    (hys : ys.length = 8) :
    op.word (word xs) (word ys) = word (zipWith op.byte xs ys) := by
  cases op with
  | and => exact word_zipWith rfl UInt64.toNat_and UInt8.toNat_and hxs hys
  | or => exact word_zipWith rfl UInt64.toNat_or UInt8.toNat_or hxs hys
  | xor => exact word_zipWith rfl UInt64.toNat_xor UInt8.toNat_xor hxs hys
  | not => exact absurd rfl hop

def block (s : Bytes) (j : Nat) : Bytes := (s.drop j).take 32

theorem length_block (h : j + 32 ≤ s.length) : (block s j).length = 8 * 4 := by
  rw [block, length_take, length_drop]
  omega

theorem getElem?_block (s : Bytes) (j : Nat) {k : Nat} (hk : k < 32) :
    (block s j)[k]? = s[j + k]? := by
  rw [block, getElem?_take, if_pos hk, getElem?_drop]

theorem loadWords_eq (h : j + 32 ≤ s.length) : loadWords s j = some (words 4 (block s j)) := by
  have hload (k : Nat) (hk : k + 8 ≤ 32) :
      (load s (j + k) 8).map (fun bytes => UInt64.ofNat (leNat bytes)) =
        some (word (((block s j).drop k).take 8)) := by
    rw [load, if_pos (by omega), block, drop_take, take_take, drop_drop,
      Nat.min_eq_left (by omega)]
    rfl
  have hfirst := hload 0 (by decide)
  rw [Nat.add_zero, drop_zero] at hfirst
  rw [loadWords, mapM_cons, mapM_cons, mapM_cons, mapM_cons, mapM_nil,
    hfirst, hload 8 (by decide), hload 16 (by decide), hload 24 (by decide)]
  simp only [words, drop_drop]
  rfl

/-- The bytes that a pass of the fast path stores: the row of the result combined with those of the
other sources. -/
def blockBytes (op : BitOp) (src : List Bytes) (j : Nat) (row : Bytes) : Bytes :=
  if op = .not then row.map (~~~·)
  else src.tail.foldl (fun row s => zipWith op.byte row (block s j)) row

theorem foldlM_words {op : BitOp} (hop : op ≠ .not) {src : List Bytes}
    (hsrc : ∀ s ∈ src, j + 32 ≤ s.length) {row : Bytes} (hrow : row.length = 8 * 4) :
    src.foldlM (fun lres s => do return zipWith op.word lres (← loadWords s j)) (words 4 row) =
        some (words 4 (src.foldl (fun row s => zipWith op.byte row (block s j)) row)) ∧
      (src.foldl (fun row s => zipWith op.byte row (block s j)) row).length = 8 * 4 := by
  induction src generalizing row with
  | nil => exact ⟨rfl, hrow⟩
  | cons s src ih =>
    have hs := hsrc s mem_cons_self
    have hblock := length_block hs
    have hnext : (zipWith op.byte row (block s j)).length = 8 * 4 := by
      rw [length_zipWith, hrow, hblock]
      rfl
    have hstep : zipWith op.word (words 4 row) (words 4 (block s j)) =
        words 4 (zipWith op.byte row (block s j)) :=
      zipWith_words (fun xs ys => word_combine hop) hrow hblock
    have hrest := ih (fun t ht => hsrc t (mem_cons_of_mem s ht)) hnext
    rw [← hstep] at hrest
    rw [foldlM_cons, foldl_cons, loadWords_eq hs]
    exact hrest

/-- The bytes of all sources at an index, combined with that of the row. -/
theorem getElem?_foldl_block {op : BitOp} {src : List Bytes} {k : Nat}
    (hsrc : ∀ s ∈ src, j + 32 ≤ s.length) (hk : k < 32) {row : Bytes} {x : UInt8}
    (hrow : row[k]? = some x) :
    (src.foldl (fun row s => zipWith op.byte row (block s j)) row)[k]? =
      some (src.foldl (fun output s => op.byte output ((s[j + k]?).getD 0)) x) := by
  induction src generalizing row x with
  | nil => exact hrow
  | cons s src ih =>
    have hs := hsrc s mem_cons_self
    have hbyte : s[j + k]? = some s[j + k] := getElem?_eq_getElem (by omega)
    refine ih (fun t ht => hsrc t (mem_cons_of_mem s ht)) ?_
    rw [getElem?_zipWith, hrow, getElem?_block s j hk, hbyte]
    dsimp only
    rw [hbyte]
    rfl

/-! ## The fast path -/

/-- The result while the fast path is at the byte `j`: what is behind is computed, and up to `top`
there is a copy of the first source. -/
structure Progress (op : BitOp) (src : List Bytes) (top maxlen j : Nat)
    (res : Bytes) : Prop where
  length : res.length = maxlen
  done : ∀ i < j, res[i]? = some (bitopByte op src i)
  copied : ∀ i, j ≤ i → i < top → res[i]? = (src.headD [])[i]?

section FastPath

variable {op : BitOp} {src : List Bytes} {top maxlen : Nat} (hne : src ≠ [])
  (hnot : op = .not → src.length = 1) (hsrc : ∀ s ∈ src, top ≤ s.length) (hmax : top ≤ maxlen)

include hne hnot hsrc hmax

/-- The bytes of a block are the operation over the bytes of the sources. -/
theorem blockBytes_spec (h : Progress op src top maxlen j res) (hj : j + 32 ≤ top) :
    (blockBytes op src j (block res j)).length = 32 ∧
      ∀ k < 32, (blockBytes op src j (block res j))[k]? = some (bitopByte op src (j + k)) := by
  cases src with
  | nil => exact absurd rfl hne
  | cons s src =>
    have hs := hsrc s mem_cons_self
    have htail : ∀ t ∈ src, j + 32 ≤ t.length := fun t ht =>
      le_trans hj (hsrc t (mem_cons_of_mem s ht))
    have hrow : (block res j).length = 8 * 4 := length_block (by rw [h.length]; omega)
    have hfirst (k : Nat) (hk : k < 32) : (block res j)[k]? = some ((s[j + k]?).getD 0) := by
      have hbyte : s[j + k]? = some s[j + k] := getElem?_eq_getElem (by omega)
      rw [getElem?_block res j hk, h.copied _ (by omega) (by omega), headD_cons, hbyte]
      rfl
    by_cases hop : op = .not
    · obtain rfl := eq_nil_of_length_eq_zero (Nat.succ.inj (hnot hop))
      rw [blockBytes, if_pos hop]
      refine ⟨by rw [length_map, hrow], fun k hk => ?_⟩
      rw [getElem?_map, hfirst k hk, bitopByte, if_pos hop]
      rfl
    · rw [blockBytes, if_neg hop]
      refine ⟨(foldlM_words hop htail hrow).2, fun k hk => ?_⟩
      rw [tail_cons, getElem?_foldl_block htail hk (hfirst k hk), bitopByte, if_neg hop]
      rfl

theorem bitopBlock_spec (h : Progress op src top maxlen j res) (hj : j + 32 ≤ top) :
    ∃ res', bitopBlock op src j res = some res' ∧ Progress op src top maxlen (j + 32) res' := by
  obtain ⟨hlength, hbytes⟩ := blockBytes_spec hne hnot hsrc hmax h hj
  have hres : j + 32 ≤ res.length := by
    rw [h.length]
    omega
  have hrow : (block res j).length = 8 * 4 := length_block hres
  have hwords : (if op = .not then pure ((words 4 (block res j)).map (~~~·))
      else src.tail.foldlM (fun lres s => do return zipWith op.word lres (← loadWords s j))
        (words 4 (block res j))) = some (words 4 (blockBytes op src j (block res j))) := by
    rw [blockBytes]
    split
    next => rw [map_words (fun xs => word_complement) hrow]; rfl
    next hop =>
      exact (foldlM_words hop (fun s hs => le_trans hj (hsrc s (mem_of_mem_tail hs))) hrow).1
  obtain ⟨res', hstore⟩ : ∃ res', store res j (blockBytes op src j (block res j)) = some res' :=
    ⟨_, if_pos (by rw [hlength]; exact hres)⟩
  refine ⟨res', ?_, ?_, fun i hi => ?_, fun i hi hi' => ?_⟩
  · rw [bitopBlock, loadWords_eq hres, bind_eq_bind, bind_some, hwords,
      bind_some, flatMap_words hlength, hstore]
  · rw [length_store hstore, h.length]
  · rw [getElem?_store hstore, hlength]
    by_cases hin : j ≤ i
    · have hthere : j ≤ i ∧ i < j + 32 := ⟨hin, hi⟩
      rw [if_pos hthere, hbytes _ (by omega), show j + (i - j) = i by omega]
    · have hout : ¬ (j ≤ i ∧ i < j + 32) := by omega
      rw [if_neg hout, h.done i (by omega)]
  · have hout : ¬ (j ≤ i ∧ i < j + 32) := by omega
    rw [getElem?_store hstore, hlength, if_neg hout, h.copied i (by omega) hi']

theorem bitopWords_spec {minlen : Nat} (h : Progress op src top maxlen j res)
    (hj : j + minlen = top) :
    ∃ j' res', bitopWords op src minlen j res = some (j', res') ∧ j' ≤ maxlen ∧
      Progress op src top maxlen j' res' := by
  induction minlen using Nat.strongRecOn generalizing j res with
  | ind minlen ih =>
    rw [bitopWords]
    split
    next hle =>
      obtain ⟨res₁, hblock, h₁⟩ := bitopBlock_spec hne hnot hsrc hmax h (by omega)
      rw [hblock]
      exact ih (minlen - 32) (by omega) h₁ (by omega)
    next => exact ⟨j, res, rfl, by omega, h⟩

end FastPath

/-! ## The whole computation -/

/-- The last loop sets the bytes from `j` on. -/
theorem foldl_set_spec (f : Nat → UInt8) {n : Nat} (res : Bytes) (hlen : j + n = res.length)
    (hdone : ∀ i < j, res[i]? = some (f i)) :
    ((range' j n).foldl (fun res j => res.set j (f j)) res).length = res.length ∧
      ∀ i < res.length, ((range' j n).foldl (fun res j => res.set j (f j)) res)[i]? = some (f i) := by
  induction n generalizing j res with
  | zero => exact ⟨rfl, fun i hi => hdone i (by omega)⟩
  | succ n ih =>
    have hset : (res.set j (f j)).length = res.length := length_set
    obtain ⟨hlength, hbytes⟩ := ih (res.set j (f j)) (show j + 1 + n = _ by omega) fun i hi => by
      rw [getElem?_set]
      split
      next heq =>
        subst heq
        rw [if_pos (by omega)]
      next hne => exact hdone i (by omega)
    rw [hset] at hlength hbytes
    exact ⟨hlength, hbytes⟩

/-- The result has the operation over the bytes of the sources at each index. -/
theorem bitopCompute_spec {op : BitOp} {src : List Bytes} {minlen maxlen : Nat}
    (hne : src ≠ []) (hnot : op = .not → src.length = 1) (hmin : ∀ s ∈ src, minlen ≤ s.length)
    (hmax : ∀ s ∈ src, s.length ≤ maxlen) :
    ∃ res, bitopCompute op src minlen maxlen = some res ∧ res.length = maxlen ∧
      ∀ i < maxlen, res[i]? = some (bitopByte op src i) := by
  obtain ⟨s, hs, hhead⟩ : ∃ s ∈ src, src.headD [] = s := by
    cases src with
    | nil => exact absurd rfl hne
    | cons s src => exact ⟨s, mem_cons_self, rfl⟩
  have hs₁ := hmin s hs
  have hs₂ := hmax s hs
  have hzero : Progress op src 0 maxlen 0 (replicate maxlen 0) :=
    ⟨length_replicate, fun i hi => absurd hi (Nat.not_lt_zero i),
      fun i _ hi => absurd hi (Nat.not_lt_zero i)⟩
  obtain ⟨j, res, hpath, hj, top, hprogress⟩ : ∃ j res,
      (if 32 ≤ minlen ∧ src.length ≤ 16 then do
          let res ← store (replicate maxlen 0) 0 (← load (src.headD []) 0 minlen)
          bitopWords op src minlen 0 res
        else pure (0, replicate maxlen 0)) = some (j, res) ∧ j ≤ maxlen ∧
      ∃ top, Progress op src top maxlen j res := by
    split
    next =>
      have hload : load s 0 minlen = some (s.take minlen) := by
        rw [load, if_pos (by omega), drop_zero]
      have hlength : (s.take minlen).length = minlen := by
        rw [length_take]
        omega
      obtain ⟨res, hstore⟩ :
          ∃ res, store (replicate maxlen (0 : UInt8)) 0 (s.take minlen) = some res :=
        ⟨_, if_pos (by rw [hlength, length_replicate]; omega)⟩
      have hcopy : Progress op src minlen maxlen 0 res := by
        refine ⟨?_, fun i hi => absurd hi (Nat.not_lt_zero i), fun i _ hi => ?_⟩
        · rw [length_store hstore, length_replicate]
        · have hin : 0 ≤ i ∧ i < 0 + (s.take minlen).length := by omega
          rw [getElem?_store hstore, if_pos hin, Nat.sub_zero, getElem?_take, if_pos hi, hhead]
      obtain ⟨j, res', hwords, hj, hprogress⟩ :=
        bitopWords_spec hne hnot hmin (by omega) hcopy (Nat.zero_add _)
      refine ⟨j, res', ?_, hj, minlen, hprogress⟩
      rw [hhead, hload, bind_eq_bind, bind_some, hstore, bind_some]
      exact hwords
    next => exact ⟨0, _, rfl, Nat.zero_le _, 0, hzero⟩
  obtain ⟨hlength, hbytes⟩ := foldl_set_spec (bitopByte op src) res
    (show j + (maxlen - j) = res.length by rw [hprogress.length]; omega) hprogress.done
  rw [hprogress.length] at hlength hbytes
  refine ⟨_, ?_, hlength, hbytes⟩
  rw [bitopCompute]
  dsimp only
  rw [hpath]
  rfl

/-! ## The command -/

/-- The length of the longest string. -/
def longest (src : List Bytes) : Nat := (src.map List.length).foldl max 0

section Command

variable {V : Type} {env : Env} {types : Types V} {d : Nat}

/-- What the loop over the keys has found: the sources, a length that none of them is below, and
the length of the longest. -/
structure Found (src : List Bytes) (acc : Sources) : Prop where
  minlen : ∀ s ∈ src, acc.minlen ≤ s.length
  maxlen : acc.maxlen = longest src
  strings : acc.src = src

theorem longest_append (src : List Bytes) (s : Bytes) :
    longest (src ++ [s]) = max (longest src) s.length := by
  rw [longest, map_append, foldl_append]
  rfl

variable {src : List Bytes}

theorem Found.missing (h : Found src acc) :
    Found (src ++ [[]]) { acc with src := acc.src ++ [[]], minlen := 0 } where
  strings := congrArg (· ++ [[]]) h.strings
  minlen _ _ := Nat.zero_le _
  maxlen := h.maxlen.trans (by rw [longest_append, length_nil, Nat.max_zero])

theorem Found.string (h : Found src acc) (s : Bytes) :
    Found (src ++ [s])
      { src := acc.src ++ [s]
        maxlen := if acc.maxlen < s.length then s.length else acc.maxlen
        minlen := if acc.src.length = 0 ∨ s.length < acc.minlen then s.length else acc.minlen } where
  strings := congrArg (· ++ [s]) h.strings
  minlen t ht := by
    have hold := h.minlen t
    rw [h.strings]
    rcases mem_append.mp ht with ht | ht
    · have hpos := length_pos_of_mem ht
      have hle := hold ht
      dsimp only
      split
      · omega
      · exact hle
    · obtain rfl := mem_singleton.mp ht
      dsimp only
      split
      · exact Nat.le_refl _
      · omega
  maxlen := by
    rw [longest_append, ← h.maxlen]
    dsimp only
    split <;> omega

theorem stringOf_some {v : V} (h : stringOf types (some v) = .ok s) :
    ∃ o, types.string.checkType v = some o ∧ getDecodedObject o = s := by
  rw [stringOf, checkType] at h
  cases hv : types.string.checkType v with
  | none =>
    rw [hv] at h
    cases h
  | some o =>
    rw [hv] at h
    exact ⟨o, rfl, (getDecodedObject_eq o).trans (Except.ok.inj h)⟩

/-- The loop over the keys. -/
theorem bitopLookup_shows (env : Env) {E : Dataset V} {keys : List Key}
    (hkeys : Forall₂ (fun key s => stringOf types ((E d key).map Prod.fst) = .ok s) keys src)
    (w : View V) (hw : w.entries = E) {before : List Bytes} (hacc : Found before acc) :
    ∃ acc' w', Runs (Shows env) (bitopLookup env types d keys acc) w (.ok acc') w' ∧
      Found (before ++ src) acc' ∧ w'.entries = E := by
  induction hkeys generalizing before acc w with
  | nil => exact ⟨acc, w, Runs.pure _ _, by rw [append_nil]; exact hacc, hw⟩
  | @cons key s keys src hkey _ ih =>
    have hlookup : Runs (Shows env) (lookupKeyRead env d key) w ((E d key).map Prod.fst)
        (w.touch d key) := hw ▸ lookupKeyRead_shows
    rw [bitopLookup]
    cases hentry : (E d key).map Prod.fst with
    | none =>
      rw [hentry] at hkey hlookup
      obtain rfl : [] = s := Except.ok.inj hkey
      obtain ⟨acc', w', hruns, hfound, hentries⟩ := ih (w.touch d key) hw hacc.missing
      rw [← append_cons] at hfound
      exact ⟨acc', w', hlookup.bind hruns, hfound, hentries⟩
    | some v =>
      rw [hentry] at hkey hlookup
      obtain ⟨o, hv, rfl⟩ := stringOf_some hkey
      obtain ⟨acc', w', hruns, hfound, hentries⟩ :=
        ih (w.touch d key) hw (hacc.string (getDecodedObject o))
      rw [← append_cons] at hfound
      refine ⟨acc', w', hlookup.bind ?_, hfound, hentries⟩
      dsimp only
      rw [hv]
      exact hruns

theorem le_longest (hs : s ∈ src) : s.length ≤ longest src := by
  induction src using reverseRecOn with
  | nil => exact absurd hs not_mem_nil
  | append_singleton src t ih =>
    rw [longest_append]
    rcases mem_append.mp hs with hs | hs
    · exact le_trans (ih hs) (le_max_left _ _)
    · rw [mem_singleton.mp hs]
      exact le_max_right _ _

/-- The end of the command. -/
theorem bitopStore_shows (types : Types V) (hd : env.clusterEnabled = true → d = 0) (target : Key)
    (res : Bytes) (w : View V) :
    Runs (Shows env) (bitopStore env types d target res.length res) w (.integer res.length)
      (w.set d target (if res = [] then none else some (types.string.create (.raw res), none))) := by
  rw [bitopStore]
  by_cases hnil : res = []
  · rw [if_neg (by rw [hnil]; exact fun h => h rfl), if_pos hnil]
    exact dbDelete_any (Runs.pure _ _)
  · rw [if_pos (by rwa [Ne, length_eq_zero_iff]), if_neg hnil]
    exact (setKey_shows hd).bind (Runs.pure _ _)

/-- `BITOP` stores a string as long as the longest source, whose bytes are the operation over those
of the sources, zero behind their ends; an empty one deletes the target.  `NOT` is refused for any
number of sources but one. -/
theorem bitop_stores (hd : env.clusterEnabled = true → d = 0) {opname : Bytes} {op : BitOp}
    (hop : BitOp.parse opname = some op) (target : Key) {keys : List Key} (hne : keys ≠ [])
    {E : Dataset V} {src : List Bytes}
    (hkeys : Forall₂ (fun key s => stringOf types ((E d key).map Prod.fst) = .ok s) keys src) :
    if op = .not ∧ keys.length ≠ 1 then
      Runs (Sees env) (bitopCommand env types d opname target keys) E
        (.error "ERR BITOP NOT must be called with a single source key.") E
    else ∃ res : Bytes, res.length = longest src ∧
      (∀ i < res.length, res[i]? = some (op.combine (src.map (byteAt i)))) ∧
      Runs (Sees env) (bitopCommand env types d opname target keys) E (.integer res.length)
        (E.set d target
          (if res = [] then none else some (types.string.create (.raw res), none))) := by
  rw [bitopCommand, hop]
  dsimp only
  split
  next => exact Runs.pure _ _
  next hcount =>
    have hlength := hkeys.length_eq
    have hsrc : src ≠ [] := by
      rintro rfl
      exact hne (eq_nil_of_length_eq_zero hlength)
    have hnot : op = .not → src.length = 1 := fun h =>
      hlength ▸ not_not.mp fun hone => hcount ⟨h, hone⟩
    have hnone : Found [] (⟨[], 0, 0⟩ : Sources) :=
      ⟨fun s hs => absurd hs not_mem_nil, rfl, rfl⟩
    obtain ⟨acc, w, hlookup, hfound, hentries⟩ :=
      bitopLookup_shows env hkeys ⟨E, ∅⟩ rfl hnone
    rw [nil_append] at hfound
    obtain ⟨res, hcompute, hres, hbytes⟩ := bitopCompute_spec hsrc hnot hfound.minlen
      fun s hs => le_longest hs
    have hstore := bitopStore_shows types hd target res w
    refine ⟨res, hres, fun i hi => ?_, ?_⟩
    · rw [hbytes i (hres ▸ hi), bitopByte_eq hsrc hnot]
    · refine runs_sees_to (w.set d target
        (if res = [] then none else some (types.string.create (.raw res), none))) (hlookup.bind ?_) ?_
      · dsimp only
        rw [hfound.strings, hfound.maxlen, hcompute, ← hres]
        exact hstore
      · rw [View.entries_set, hentries]

end Command

/-- `BITOP and t a b` of a key with the string `0xFF 0x0F` and a missing one. -/
theorem bitop_stores_two :
    ∃ res : Bytes, res.length = 2 ∧
      (∀ i < res.length, res[i]? = some (BitOp.and.combine ([[0xFF, 0x0F], []].map (byteAt i)))) ∧
      Runs (Sees Strings.plainEnv) (bitopCommand Strings.plainEnv Strings.valueTypes 0
          [97, 110, 100] [116] [[97], [98]])
        (Dataset.set (fun _ _ => none) 0 [97]
          (some (Strings.Value.string (.raw [0xFF, 0x0F]), none)))
        (.integer res.length)
        (Dataset.set (Dataset.set (fun _ _ => none) 0 [97]
          (some (Strings.Value.string (.raw [0xFF, 0x0F]), none))) 0 [116]
          (if res = [] then none else some (Strings.Value.string (.raw res), none))) := by
  have hop : BitOp.parse [97, 110, 100] = some .and := by decide
  have hcluster : Strings.plainEnv.clusterEnabled = true → (0 : Nat) = 0 := fun _ => rfl
  have hfirst : stringOf Strings.valueTypes (Option.map Prod.fst (Dataset.set (fun _ _ => none) 0 [97]
      (some (Strings.Value.string (.raw [0xFF, 0x0F]), none)) 0 [97])) = .ok [0xFF, 0x0F] := by
    rw [Dataset.set_same]
    rfl
  have hsecond : stringOf Strings.valueTypes (Option.map Prod.fst (Dataset.set (fun _ _ => none) 0 [97]
      (some (Strings.Value.string (.raw [0xFF, 0x0F]), none)) 0 [98])) = .ok [] := by
    rw [Dataset.set_apply, if_neg (by decide)]
    rfl
  have hstored := bitop_stores hcluster hop [116] (cons_ne_nil [97] [[98]])
    (.cons hfirst (.cons hsecond .nil))
  rw [if_neg (by decide)] at hstored
  exact hstored

end Redis.Bitops
