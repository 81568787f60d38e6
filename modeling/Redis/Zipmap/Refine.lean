import Mathlib.Data.Set.Card
import Redis.Keyed
import Redis.Zipmap

/-!
# Redis.Zipmap.Refine

A zipmap is a finite map: what the functions return depends on its pairs only, whatever the spare
bytes hold.
-/

namespace Redis

open Bytes List Option Nat UInt8
open Function (update)

/-- A key, its value, and the spare bytes behind the value. -/
abbrev ZipmapEntry := Bytes × (Bytes × Bytes)

variable {a c t zm R key val : Bytes} {e : ZipmapEntry} {es l r : List ZipmapEntry}
  {p n fuel reqlen zmlen : Nat} {k : Option Nat} {totlen : Bool} {m : Bytes → Option Bytes}

/-! ## Entries -/

/-- The bytes of an entry in front of the spare ones. -/
def zipmapHead (key val : Bytes) (vempty : Nat) : Bytes :=
  zipmapEncodeLength key.length ++
    (key ++ (zipmapEncodeLength val.length ++ ([ofNat vempty] ++ val)))

def zipmapEntryBytes (e : ZipmapEntry) : Bytes := zipmapHead e.1 e.2.1 e.2.2.length ++ e.2.2

/-- The entries, one behind the other. -/
def zipmapBody (es : List ZipmapEntry) : Bytes := es.flatMap zipmapEntryBytes

/-- Lengths are those of an `unsigned int`, and there are few spare bytes. -/
def ZipmapFits (e : ZipmapEntry) : Prop :=
  e.1.length < 2 ^ 32 ∧ e.2.1.length < 2 ^ 32 ∧ e.2.2.length < zipmapValueMaxFree

@[simp]
theorem length_zipmapEncodeLength (n : Nat) : (zipmapEncodeLength n).length = zipmapLenBytes n := by
  rw [zipmapEncodeLength, zipmapLenBytes]
  split <;> simp

theorem length_zipmapHead (key val : Bytes) (n : Nat) :
    (zipmapHead key val n).length = zipmapRequiredLength key.length val.length := by
  simp only [zipmapHead, zipmapRequiredLength, length_append, length_zipmapEncodeLength,
    zipmapLenBytes, length_singleton]
  split <;> split <;> split <;> split <;> omega

theorem length_zipmapEntryBytes (e : ZipmapEntry) : (zipmapEntryBytes e).length =
    zipmapLenBytes e.1.length + e.1.length +
      (zipmapLenBytes e.2.1.length + (e.2.2.length + 1 + e.2.1.length)) := by
  simp only [zipmapEntryBytes, zipmapHead, length_append, length_zipmapEncodeLength,
    length_singleton]
  omega

theorem zipmapBody_append (l r : List ZipmapEntry) :
    zipmapBody (l ++ r) = zipmapBody l ++ zipmapBody r := flatMap_append

theorem zipmapBody_cons (e : ZipmapEntry) (l : List ZipmapEntry) :
    zipmapBody (e :: l) = zipmapEntryBytes e ++ zipmapBody l := rfl

theorem length_le_zipmapBody (es : List ZipmapEntry) : es.length ≤ (zipmapBody es).length := by
  induction es with
  | nil => exact le_rfl
  | cons e es ih =>
    rw [zipmapBody_cons, length_append, length_cons, length_zipmapEntryBytes]
    omega

/-! ## Reading an entry -/

theorem zipmapEncodeLength_eq_cons (n : Nat) :
    ∃ b bs, zipmapEncodeLength n = b :: bs ∧ b ≠ zipmapEnd := by
  rw [zipmapEncodeLength]
  split
  next h =>
    refine ⟨_, _, rfl, fun heq => ?_⟩
    have hb : (ofNat n).toNat = 255 := congrArg UInt8.toNat heq
    rw [toNat_ofNat', zipmapBiglen] at *
    omega
  next => exact ⟨_, _, rfl, by decide⟩

theorem zipmapDecodeLength_eq (hn : n < 2 ^ 32) (hp : p = a.length) :
    zipmapDecodeLength (a ++ (zipmapEncodeLength n ++ c)) p = some n := by
  rw [zipmapDecodeLength, zipmapEncodeLength]
  split
  next h =>
    have hb : (ofNat n).toNat = n := by
      rw [toNat_ofNat', zipmapBiglen] at *
      omega
    rw [singleton_append, getElem?_append_length _ _ hp, some_bind, hb, if_pos h]
    rfl
  next h =>
    have hload : load (a ++ (ofNat zipmapBiglen :: leBytes 4 n ++ c)) (p + 1) 4 =
        some (leBytes 4 n) := by
      have happ : a ++ (ofNat zipmapBiglen :: leBytes 4 n ++ c) =
          (a ++ [ofNat zipmapBiglen]) ++ (leBytes 4 n ++ c) := by simp
      rw [happ]
      exact load_append c (by simp [hp]) (length_leBytes 4 n).symm
    rw [hload, cons_append, getElem?_append_length _ _ hp, some_bind, if_neg (by decide), map_some, leNat_leBytes_of_lt (by omega)]

structure ZipmapAt (zm : Bytes) (p : Nat) (e : ZipmapEntry) : Prop where
  head : ∃ b, zm[p]? = some b ∧ b ≠ zipmapEnd
  klen : zipmapDecodeLength zm p = some e.1.length
  key : load zm (p + zipmapLenBytes e.1.length) e.1.length = some e.1
  vlen : zipmapDecodeLength zm (p + (zipmapLenBytes e.1.length + e.1.length)) = some e.2.1.length
  free : ∃ b, zm[p + (zipmapLenBytes e.1.length + e.1.length) + zipmapLenBytes e.2.1.length]? =
    some b ∧ b.toNat = e.2.2.length
  val : load zm (p + (zipmapLenBytes e.1.length + e.1.length) +
    (zipmapLenBytes e.2.1.length + 1)) e.2.1.length = some e.2.1

theorem zipmapAt (h : ZipmapFits e) (hp : p = a.length) :
    ZipmapAt (a ++ (zipmapEntryBytes e ++ c)) p e := by
  obtain ⟨key, val, spare⟩ := e
  obtain ⟨hkey, hval, hspare⟩ := h
  simp only [zipmapValueMaxFree] at hkey hval hspare
  subst hp
  have hzm : a ++ (zipmapEntryBytes (key, val, spare) ++ c) =
      a ++ (zipmapEncodeLength key.length ++ (key ++ (zipmapEncodeLength val.length ++
        (ofNat spare.length :: (val ++ (spare ++ c)))))) := by
    simp [zipmapEntryBytes, zipmapHead]
  rw [hzm]
  have hfront : (a ++ (zipmapEncodeLength key.length ++ key)).length =
      a.length + (zipmapLenBytes key.length + key.length) := by simp
  have hback : (a ++ (zipmapEncodeLength key.length ++ (key ++
      zipmapEncodeLength val.length))).length =
        a.length + (zipmapLenBytes key.length + key.length) + zipmapLenBytes val.length := by
    simp [Nat.add_assoc]
  refine ⟨?_, zipmapDecodeLength_eq hkey rfl, ?_, ?_, ?_, ?_⟩
  · obtain ⟨b, bs, hb, hne⟩ := zipmapEncodeLength_eq_cons key.length
    rw [hb]
    exact ⟨b, getElem?_append_length b _ rfl, hne⟩
  · rw [← append_assoc]
    exact load_append _ (by simp) rfl
  · have hdecode := zipmapDecodeLength_eq (c := ofNat spare.length :: (val ++ (spare ++ c)))
      hval hfront.symm
    simpa using hdecode
  · refine ⟨ofNat spare.length, ?_, ?_⟩
    · have hget := getElem?_append_length (ofNat spare.length) (val ++ (spare ++ c)) hback.symm
      simpa using hget
    · rw [toNat_ofNat']
      exact mod_eq_of_lt (by omega)
  · have hload := load_append (a := a ++ (zipmapEncodeLength key.length ++ (key ++
      (zipmapEncodeLength val.length ++ [ofNat spare.length])))) (b := val) (spare ++ c) rfl rfl
    have hlen : (a ++ (zipmapEncodeLength key.length ++ (key ++ (zipmapEncodeLength val.length ++
        [ofNat spare.length])))).length =
          a.length + (zipmapLenBytes key.length + key.length) +
            (zipmapLenBytes val.length + 1) := by
      simp [Nat.add_assoc]
    rw [hlen] at hload
    simpa using hload

namespace ZipmapAt

theorem rawKeyLength (h : ZipmapAt zm p e) :
    zipmapRawKeyLength zm p = some (zipmapLenBytes e.1.length + e.1.length) := by
  rw [zipmapRawKeyLength, h.klen]
  rfl

theorem rawEntryLength (h : ZipmapAt zm p e) :
    zipmapRawEntryLength zm p = some (zipmapEntryBytes e).length := by
  obtain ⟨b, hb, hfree⟩ := h.free
  simp only [zipmapRawEntryLength, h.rawKeyLength, zipmapRawValueLength, h.vlen, hb,
    some_bind, Option.pure_def]
  rw [length_zipmapEntryBytes, hfree]

theorem value (h : ZipmapAt zm p e) : zipmapValue zm p = some e.2.1 := by
  simp only [zipmapValue, h.rawKeyLength, h.vlen, some_bind]
  exact h.val

theorem reportedKey (h : ZipmapAt zm p e) : zipmapKey zm p = some e.1 := by
  simp only [zipmapKey, h.klen, some_bind]
  exact h.key

theorem next (h : ZipmapAt zm p e) :
    zipmapNext zm p = some (some (p + (zipmapEntryBytes e).length)) := by
  obtain ⟨b, hb, hne⟩ := h.head
  simp only [zipmapNext, hb, some_bind, if_neg hne, h.rawEntryLength]
  rfl

/-- The test compares the whole key, and none once an entry is found. -/
theorem keyMatch (h : ZipmapAt zm p e) (key : Option Bytes) (k : Option Nat) :
    zipmapMatch zm key k p e.1.length = some (decide (k = none ∧ key = some e.1)) := by
  cases key with
  | none => simp [zipmapMatch]
  | some key =>
    cases k with
    | some k => simp [zipmapMatch]
    | none =>
      rw [zipmapMatch]
      split
      next =>
        rw [h.key, map_some]
        simp [eq_comm]
      next hlen =>
        have hne : key ≠ e.1 := fun heq => hlen (congrArg List.length heq).symm
        simp [hne]

theorem lookupLoop (h : ZipmapAt zm p e) (key : Option Bytes) (k : Option Nat) :
    zipmapLookupLoop zm key totlen (fuel + 1) p k =
      if (k = none ∧ key = some e.1) ∧ totlen = false then some (some p, 0)
      else zipmapLookupLoop zm key totlen fuel (p + (zipmapEntryBytes e).length)
        (if k = none ∧ key = some e.1 then some p else k) := by
  obtain ⟨b, hb, hne⟩ := h.head
  obtain ⟨f, hf, hfree⟩ := h.free
  rw [zipmapLookupLoop, hb, some_bind, if_neg hne]
  simp only [h.klen, h.keyMatch, h.vlen, hf, hfree, some_bind, length_zipmapEntryBytes]
  simp [Nat.add_assoc]

end ZipmapAt

/-! ## Searching -/

/-- From `p` on, the entries stand one behind the other, and the terminator behind them. -/
def ZipmapPath (zm : Bytes) : Nat → List ZipmapEntry → Prop
  | p, [] => zm[p]? = some zipmapEnd
  | p, e :: es => ZipmapAt zm p e ∧ ZipmapPath zm (p + (zipmapEntryBytes e).length) es

namespace ZipmapPath

/-- Where no entry matches, the loop passes over all of them. -/
theorem miss {key : Option Bytes} (h : ZipmapPath zm p es) (hfuel : es.length < fuel)
    (hmiss : ∀ e ∈ es, ¬(k = none ∧ key = some e.1)) :
    zipmapLookupLoop zm key totlen fuel p k = some (k, p + (zipmapBody es).length + 1) := by
  induction es generalizing p fuel with
  | nil =>
    obtain ⟨fuel, rfl⟩ := exists_eq_add_one.mpr (zero_lt_of_lt hfuel)
    rw [zipmapLookupLoop, show zm[p]? = _ from h, some_bind, if_pos rfl]
    rfl
  | cons e es ih =>
    have hne := hmiss e mem_cons_self
    obtain ⟨fuel, rfl⟩ := exists_eq_add_one.mpr (zero_lt_of_lt hfuel)
    rw [h.1.lookupLoop, if_neg fun hhit => hne hhit.1, if_neg hne,
      ih h.2 (lt_of_succ_lt_succ hfuel) fun e he => hmiss e (mem_cons_of_mem _ he), zipmapBody_cons,
      length_append, Nat.add_assoc p]

/-- The entry that matches is found, and with `totlen` the end as well. -/
theorem hit (h : ZipmapPath zm p (l ++ e :: r)) (hfuel : (l ++ e :: r).length < fuel)
    (hmiss : ∀ x ∈ l, x.1 ≠ e.1) : zipmapLookupLoop zm (some e.1) totlen fuel p none =
      some (some (p + (zipmapBody l).length),
        if totlen then p + (zipmapBody (l ++ e :: r)).length + 1 else 0) := by
  induction l generalizing p fuel with
  | nil =>
    obtain ⟨fuel, rfl⟩ := exists_eq_add_one.mpr (zero_lt_of_lt hfuel)
    rw [h.1.lookupLoop]
    cases totlen with
    | false => simp [zipmapBody]
    | true =>
      rw [if_neg (by simp), if_pos ⟨rfl, rfl⟩, h.2.miss (by simpa using hfuel) (by simp)]
      simp [zipmapBody, Nat.add_assoc]
  | cons x l ih =>
    have hne : ¬((none : Option Nat) = none ∧ some e.1 = some x.1) := fun heq =>
      hmiss x mem_cons_self (Option.some.inj heq.2).symm
    obtain ⟨fuel, rfl⟩ := exists_eq_add_one.mpr (zero_lt_of_lt hfuel)
    rw [h.1.lookupLoop, if_neg fun hhit => hne hhit.1, if_neg hne,
      ih h.2 (lt_of_succ_lt_succ hfuel) fun x hx => hmiss x (mem_cons_of_mem _ hx)]
    simp [zipmapBody_cons, Nat.add_assoc]

theorem walk (h : ZipmapPath zm p es) (hfuel : es.length < fuel) :
    ∃ ps, zipmapWalk zm fuel p = some ps ∧ Forall₂ (ZipmapAt zm) ps es := by
  induction es generalizing p fuel with
  | nil =>
    obtain ⟨fuel, rfl⟩ := exists_eq_add_one.mpr (zero_lt_of_lt hfuel)
    have hend : zm[p]? = some zipmapEnd := h
    exact ⟨[], by simp [zipmapWalk, zipmapNext, hend], .nil⟩
  | cons e es ih =>
    obtain ⟨fuel, rfl⟩ := exists_eq_add_one.mpr (zero_lt_of_lt hfuel)
    obtain ⟨ps, hwalk, hps⟩ := ih h.2 (lt_of_succ_lt_succ hfuel)
    exact ⟨p :: ps, by simp [zipmapWalk, h.1.next, hwalk], .cons h.1 hps⟩

end ZipmapPath

theorem zipmapPath (hfit : ∀ e ∈ es, ZipmapFits e) (hp : p = a.length) :
    ZipmapPath (a ++ (zipmapBody es ++ zipmapEnd :: c)) p es := by
  induction es generalizing a p with
  | nil => exact getElem?_append_length zipmapEnd c hp
  | cons e es ih =>
    rw [zipmapBody_cons, append_assoc]
    refine ⟨zipmapAt (hfit e mem_cons_self) hp, ?_⟩
    rw [← append_assoc]
    exact ih (fun e he => hfit e (mem_cons_of_mem _ he)) (by rw [hp, length_append])

def zipmapBytes (b : UInt8) (es : List ZipmapEntry) : Bytes := b :: (zipmapBody es ++ [zipmapEnd])

theorem length_zipmapBytes (b : UInt8) (es : List ZipmapEntry) :
    (zipmapBytes b es).length = (zipmapBody es).length + 2 := by
  simp [zipmapBytes]

theorem zipmapBytes_split (b : UInt8) (l : List ZipmapEntry) (e : ZipmapEntry)
    (r : List ZipmapEntry) : zipmapBytes b (l ++ e :: r) =
      (b :: zipmapBody l) ++ (zipmapEntryBytes e ++ (zipmapBody r ++ [zipmapEnd])) := by
  simp [zipmapBytes, zipmapBody_append, zipmapBody_cons]

theorem length_zipmapBytes_split (b : UInt8) (l : List ZipmapEntry) (e : ZipmapEntry)
    (r : List ZipmapEntry) : (zipmapBytes b (l ++ e :: r)).length =
      (b :: zipmapBody l).length + (zipmapEntryBytes e).length + (zipmapBody r).length + 1 := by
  rw [zipmapBytes_split]
  simp only [length_append, length_singleton]
  omega

/-! ## Moving and writing -/

theorem store_store {buf bs cs : Bytes} {off : Nat} :
    ((store buf off bs).bind fun buf => store buf (off + bs.length) cs) =
      store buf off (bs ++ cs) := by
  by_cases h : off + (bs ++ cs).length ≤ buf.length
  · rw [length_append] at h
    obtain ⟨a, b, c, d, rfl, ha, hb, hc⟩ : ∃ a b c d : Bytes, buf = a ++ (b ++ (c ++ d)) ∧
        a.length = off ∧ b.length = bs.length ∧ c.length = cs.length := by
      refine ⟨buf.take off, (buf.drop off).take bs.length,
        ((buf.drop off).drop bs.length).take cs.length,
        ((buf.drop off).drop bs.length).drop cs.length, ?_, ?_, ?_, ?_⟩
      · rw [take_append_drop, take_append_drop, take_append_drop]
      all_goals
        simp only [length_take, length_drop]
        omega
    have hfirst : a ++ (bs ++ (c ++ d)) = (a ++ bs) ++ (c ++ d) := (append_assoc ..).symm
    have hboth : a ++ (b ++ (c ++ d)) = a ++ ((b ++ c) ++ d) := by rw [append_assoc b]
    rw [store_append bs _ ha.symm hb.symm, bind_some, hfirst,
      store_append cs d (by simp [ha]) hc.symm, hboth,
      store_append (bs ++ cs) d ha.symm (by simp [hb, hc])]
    simp
  · rw [store.eq_def buf off (bs ++ cs), if_neg h]
    cases hs : store buf off bs with
    | none => rfl
    | some buf' =>
      rw [length_append] at h
      rw [bind_some, store, if_neg (by rw [length_store hs]; omega)]

theorem zipmapWrite_eq : zipmapWrite zm p key val n = store zm p (zipmapHead key val n) := by
  have hlast (zm : Bytes) (p : Nat) : ((store zm p [ofNat n]).bind fun zm =>
      store zm (p + 1) val) = store zm p ([ofNat n] ++ val) := store_store
  simp only [zipmapWrite, bind_eq_bind, hlast, store_store, zipmapHead]

theorem zipmapWrite_block (hp : p = a.length)
    (hreq : zipmapRequiredLength key.length val.length = reqlen) (hR : reqlen ≤ R.length) :
    zipmapWrite (a ++ (R ++ c)) p key val n =
      some (a ++ (zipmapHead key val n ++ (R.drop reqlen ++ c))) := by
  rw [← take_append_drop reqlen R, append_assoc, zipmapWrite_eq, drop_left' (by simpa)]
  exact store_append _ _ hp (by rw [length_zipmapHead, hreq, length_take, Nat.min_eq_left hR])

/-- Growing leaves what is there, behind it anything, and the terminator. -/
theorem zipmapResize_grow (fill : Nat → UInt8) (zm : Bytes) (d : Nat) : ∃ F : Bytes, F.length = d ∧
    zipmapResize fill zm (zm.length + (d + 1)) = some (zm ++ (F ++ [zipmapEnd])) := by
  refine ⟨((range (d + 1)).map fill).take d, by simp, ?_⟩
  rw [zipmapResize, take_of_length_le (by omega), Nat.add_sub_cancel_left]
  have hstore := store_append_take (a := zm) (m := (range (d + 1)).map fill) (k := d)
    [zipmapEnd] [] rfl (by simp)
  simpa using hstore

theorem zipmapResize_shrink (fill : Nat → UInt8) (x : Bytes) {y : Bytes} (hy : 0 < y.length) :
    zipmapResize fill (x ++ y) (x.length + 1) = some (x ++ [zipmapEnd]) := by
  obtain ⟨b, y, rfl⟩ := exists_cons_of_length_pos hy
  have htake : (x ++ b :: y).take (x.length + 1) = x ++ [b] := by simp [take_append]
  have hnone : x.length + 1 - (x ++ b :: y).length = 0 := by
    rw [length_append, length_cons]
    omega
  rw [zipmapResize, htake, hnone]
  have hstore := store_append (a := x) (b := [b]) [zipmapEnd] [] (rfl : x.length = _) rfl
  simpa using hstore

/-- The tail moves up over the end of a larger block. -/
theorem zipmapMoveTail_grow {x : Bytes} (hp : p = a.length)
    (hx : R.length + x.length = reqlen) (hlen : zmlen = p + R.length + t.length + 1) :
    zipmapMoveTail (a ++ (R ++ (t ++ (x ++ [zipmapEnd])))) p reqlen R.length zmlen =
      some (a ++ ((R ++ (t ++ x)).take reqlen ++ (t ++ [zipmapEnd]))) := by
  have hload : load (a ++ (R ++ (t ++ (x ++ [zipmapEnd])))) (p + R.length)
      (zmlen - (p + R.length + 1)) = some t := by
    rw [← append_assoc]
    exact load_append _ (by rw [hp, length_append]) (by omega)
  have hstore := store_append_take (a := a) (m := R ++ (t ++ x)) (k := reqlen) t [zipmapEnd]
    (p := p + reqlen) (by rw [hp]) (by simp only [length_append]; omega)
  rw [zipmapMoveTail, move_eq hload]
  simpa using hstore

/-- The tail moves down to `k` bytes behind `p`, and the zipmap is cut off behind it. -/
theorem zipmapMoveTail_shrink (fill : Nat → UInt8) (hp : p = a.length)
    (hreq : reqlen ≤ R.length) (hlen : zmlen = p + R.length + t.length + 1) :
    ((zipmapMoveTail (a ++ (R ++ (t ++ [zipmapEnd]))) p reqlen R.length zmlen).bind fun zm =>
      zipmapResize fill zm (zmlen - (R.length - reqlen))) =
        some (a ++ (R.take reqlen ++ (t ++ [zipmapEnd]))) := by
  have hload : load (a ++ (R ++ (t ++ [zipmapEnd]))) (p + R.length)
      (zmlen - (p + R.length + 1)) = some t := by
    rw [← append_assoc]
    exact load_append _ (by rw [hp, length_append]) (by omega)
  have hsplit : a ++ (R ++ (t ++ [zipmapEnd])) = (a ++ R.take reqlen) ++
      ((R.drop reqlen ++ (t ++ [zipmapEnd])).take t.length ++
        (R.drop reqlen ++ (t ++ [zipmapEnd])).drop t.length) := by
    rw [take_append_drop, append_assoc, ← append_assoc (R.take reqlen),
      take_append_drop]
  have hstore := store_append (a := a ++ R.take reqlen) (p := p + reqlen) t
    ((R.drop reqlen ++ (t ++ [zipmapEnd])).drop t.length)
    (by rw [hp, length_append, length_take, Nat.min_eq_left hreq])
    (show t.length = ((R.drop reqlen ++ (t ++ [zipmapEnd])).take t.length).length by
      simp only [length_take, length_append, length_drop]
      omega)
  have hresize := zipmapResize_shrink fill ((a ++ R.take reqlen) ++ t)
    (y := (R.drop reqlen ++ (t ++ [zipmapEnd])).drop t.length)
    (by simp only [length_append, length_drop, length_singleton]; omega)
  have hcut : zmlen - (R.length - reqlen) = ((a ++ R.take reqlen) ++ t).length + 1 := by
    simp only [length_append, length_take]
    omega
  rw [zipmapMoveTail, move_eq hload, hsplit, hstore, bind_some, hcut,
    ← append_assoc, hresize]
  simp

/-- The block behind `a` comes to hold the entry. -/
theorem zipmapPut_eq (fill : Nat → UInt8) (hp : p = a.length)
    (hreq : zipmapRequiredLength key.length val.length = reqlen) (hR : reqlen ≤ R.length)
    (hlen : zmlen = p + R.length + t.length + 1) :
    ∃ spare : Bytes, spare.length < zipmapValueMaxFree ∧
      zipmapPut fill (a ++ (R ++ (t ++ [zipmapEnd]))) p zmlen R.length reqlen key val =
        some (a ++ (zipmapEntryBytes (key, val, spare) ++ (t ++ [zipmapEnd]))) := by
  by_cases hempty : R.length - reqlen ≥ zipmapValueMaxFree
  · refine ⟨[], by decide, ?_⟩
    have htake : (R.take reqlen).length = reqlen := by rw [length_take, Nat.min_eq_left hR]
    have hmove := zipmapMoveTail_shrink fill hp hR hlen
    rw [bind_eq_some_iff] at hmove
    obtain ⟨zm', hmove, hresize⟩ := hmove
    simp only [zipmapPut, if_pos hempty, hmove, hresize, some_bind]
    rw [zipmapWrite_block hp hreq htake.ge, drop_of_length_le htake.le]
    simp [zipmapEntryBytes]
  · refine ⟨R.drop reqlen, by rw [length_drop]; omega, ?_⟩
    rw [zipmapPut, if_neg hempty, zipmapWrite_block hp hreq hR]
    simp [zipmapEntryBytes]

/-- A block that is too small grows first, and the tail moves up.  Until then, the terminator and
what the zipmap grew by stand behind the tail. -/
theorem zipmapReplace_eq (fill : Nat → UInt8) (hp : p = a.length)
    (hreq : zipmapRequiredLength key.length val.length = reqlen)
    (hlen : zmlen = p + R.length + t.length + 1) :
    ∃ spare : Bytes, spare.length < zipmapValueMaxFree ∧
      zipmapReplace fill (a ++ (R ++ (t ++ [zipmapEnd]))) p zmlen R.length reqlen key val =
        some (a ++ (zipmapEntryBytes (key, val, spare) ++ (t ++ [zipmapEnd]))) := by
  by_cases hgrow : R.length < reqlen
  · obtain ⟨F, hF, hresize⟩ := zipmapResize_grow fill (a ++ (R ++ (t ++ [zipmapEnd])))
      (reqlen - R.length - 1)
    have hblock : R.length + (zipmapEnd :: F).length = reqlen := by
      rw [length_cons]
      omega
    have htaken : ((R ++ (t ++ zipmapEnd :: F)).take reqlen).length = reqlen := by
      rw [length_take, Nat.min_eq_left]
      simp only [length_append]
      omega
    obtain ⟨spare, hspare, hput⟩ := zipmapPut_eq (t := t) fill hp hreq htaken.ge rfl
    have hsize : zmlen - R.length + reqlen = p + reqlen + t.length + 1 := by omega
    have hgrown : zmlen - R.length + reqlen =
        (a ++ (R ++ (t ++ [zipmapEnd]))).length + (reqlen - R.length - 1 + 1) := by
      simp only [length_append, length_singleton]
      omega
    have hcast : a ++ (R ++ (t ++ [zipmapEnd])) ++ (F ++ [zipmapEnd]) =
        a ++ (R ++ (t ++ (zipmapEnd :: F ++ [zipmapEnd]))) := by simp
    rw [htaken] at hput
    refine ⟨spare, hspare, ?_⟩
    simp only [zipmapReplace, if_pos hgrow, hgrown, hresize, some_bind,
      hcast, zipmapMoveTail_grow hp hblock hlen]
    rw [← hgrown, hsize, hput]
  · rw [zipmapReplace, if_neg hgrow]
    exact zipmapPut_eq fill hp hreq (by omega) hlen

/-! ## The counter -/

/-- The first byte counts the entries, up to its saturation. -/
def ZipmapCount (b : UInt8) (n : Nat) : Prop :=
  b.toNat = zipmapBiglen ∨ b.toNat < zipmapBiglen ∧ b.toNat = n

theorem zipmapIncrLength_add {b : UInt8} (h : ZipmapCount b n) (c : Bytes) :
    ∃ b', zipmapIncrLength (b :: c) 1 = some (b' :: c) ∧ ZipmapCount b' (n + 1) := by
  rw [zipmapIncrLength, getElem?_cons_zero, some_bind]
  simp only [ZipmapCount, zipmapBiglen] at h ⊢
  by_cases hlt : b.toNat < 254
  · have hb : (b + 1).toNat = (b.toNat + 1) % 256 := UInt8.toNat_add b 1
    exact ⟨b + 1, if_pos hlt, by rw [hb]; omega⟩
  · exact ⟨b, if_neg hlt, .inl (by omega)⟩

theorem zipmapIncrLength_sub {b : UInt8} (h : ZipmapCount b (n + 1)) (c : Bytes) :
    ∃ b', zipmapIncrLength (b :: c) (-1) = some (b' :: c) ∧ ZipmapCount b' n := by
  rw [zipmapIncrLength, getElem?_cons_zero, some_bind]
  simp only [ZipmapCount, zipmapBiglen] at h ⊢
  by_cases hlt : b.toNat < 254
  · have hb : (b + -1).toNat = (b.toNat + 255) % 256 := UInt8.toNat_add b (-1)
    exact ⟨b + -1, if_pos hlt, by rw [hb]; omega⟩
  · exact ⟨b, if_neg hlt, .inl (by omega)⟩

/-! ## Zipmaps -/

/-- The zipmap holds the pairs of `m`. -/
structure ZipmapHolds (b : UInt8) (es : List ZipmapEntry) (m : Bytes → Option Bytes) : Prop where
  count : ZipmapCount b es.length
  fits : ∀ e ∈ es, ZipmapFits e
  uniq : Keyed.Uniq id es
  value : ∀ key, m key = (Keyed.lookup id es key).map Prod.fst

/-- The bytes are a zipmap with the pairs of `m`. -/
def IsZipmap (zm : Bytes) (m : Bytes → Option Bytes) : Prop :=
  ∃ b es, zm = zipmapBytes b es ∧ ZipmapHolds b es m

namespace ZipmapHolds

variable {b : UInt8} (fill : Nat → UInt8)

theorem nil : ZipmapHolds 0 [] fun _ => none :=
  ⟨.inr ⟨by decide, rfl⟩, fun _ he => absurd he not_mem_nil, nodup_nil, fun _ => rfl⟩

theorem path (h : ZipmapHolds b es m) : ZipmapPath (zipmapBytes b es) 1 es :=
  zipmapPath (a := [b]) h.fits rfl

theorem length_lt (_ : ZipmapHolds b es m) : es.length < (zipmapBytes b es).length := by
  have hle := length_le_zipmapBody es
  rw [length_zipmapBytes]
  omega

theorem raw_miss {key : Option Bytes} (h : ZipmapHolds b es m) (hmiss : ∀ e ∈ es, key ≠ some e.1) :
    zipmapLookupRaw (zipmapBytes b es) key totlen = some (none, (zipmapBytes b es).length) := by
  rw [zipmapLookupRaw, h.path.miss h.length_lt fun e he heq => hmiss e he heq.2,
    length_zipmapBytes, Nat.add_comm 1]

/-- A key that is missing is not found. -/
theorem lookup_miss (h : ZipmapHolds b es m) (hm : m key = none) :
    zipmapLookupRaw (zipmapBytes b es) (some key) totlen =
      some (none, (zipmapBytes b es).length) := by
  rw [h.value, map_eq_none_iff, Keyed.lookup_eq_none_iff] at hm
  exact h.raw_miss fun e he heq => hm e he (Option.some.inj heq).symm

/-- The entry of a key, the entries around it, and where it is found. -/
theorem lookup_hit (h : ZipmapHolds b es m) {val : Bytes} (hm : m key = some val) :
    ∃ l spare r, es = l ++ (key, val, spare) :: r ∧
      Keyed.Uniq id ((key, val, spare) :: (l ++ r)) ∧
      ZipmapAt (zipmapBytes b es) (b :: zipmapBody l).length (key, val, spare) ∧
      ∀ totlen, zipmapLookupRaw (zipmapBytes b es) (some key) totlen =
        some (some (b :: zipmapBody l).length,
          if totlen then (zipmapBytes b es).length else 0) := by
  rw [h.value, map_eq_some_iff] at hm
  obtain ⟨⟨val, spare⟩, hlookup, rfl⟩ := hm
  obtain ⟨_, hmem, rfl⟩ := (Keyed.lookup_eq_some_iff h.uniq).mp hlookup
  obtain ⟨l, r, rfl⟩ := append_of_mem hmem
  have huniq := h.uniq.perm perm_middle
  have hmiss := Keyed.lookup_eq_none_iff.mp (Keyed.uniq_cons.mp huniq).1
  refine ⟨l, spare, r, rfl, huniq, ?_, fun totlen => ?_⟩
  · rw [zipmapBytes_split]
    exact zipmapAt (h.fits _ hmem) rfl
  · refine (h.path.hit h.length_lt fun x hx => hmiss x (mem_append_left r hx)).trans ?_
    rw [length_zipmapBytes, length_cons, Nat.add_comm 1, Nat.add_comm 1]

/-- The pairs of the entries around the entry of a key. -/
theorem lookup_around (h : ZipmapHolds b (l ++ e :: r) m) (huniq : Keyed.Uniq id (e :: (l ++ r)))
    {k : Bytes} (hk : k ≠ e.1) : m k = (Keyed.lookup id (l ++ r) k).map Prod.fst := by
  rw [h.value, Keyed.lookup_perm huniq perm_middle.symm, Keyed.lookup_add,
    Function.update_of_ne (by simpa using hk)]

/-- The pairs of a zipmap with one entry more, wherever it stands. -/
theorem insert {x : Bytes × Bytes} {n : Nat} (hcount : ZipmapCount b n)
    (hn : n = (l ++ (key, x) :: r).length) (hx : ZipmapFits (key, x))
    (hfit : ∀ e ∈ l ++ r, ZipmapFits e)
    (huniq : Keyed.Uniq id ((key, x) :: (l ++ r)))
    (hm : ∀ k, k ≠ key → m k = (Keyed.lookup id (l ++ r) k).map Prod.fst) :
    ZipmapHolds b (l ++ (key, x) :: r) (update m key (some x.1)) := by
  have hperm : (l ++ (key, x) :: r).Perm ((key, x) :: (l ++ r)) := perm_middle
  refine ⟨hn ▸ hcount, fun e he => ?_, huniq.perm hperm.symm, fun k => ?_⟩
  · obtain rfl | he := mem_cons.mp (hperm.mem_iff.mp he)
    exacts [hx, hfit e he]
  rw [Keyed.lookup_perm huniq hperm.symm, Keyed.lookup_add]
  by_cases hk : k = key
  · subst hk
    rw [Function.update_self, id_eq, Function.update_self]
    rfl
  · rw [Function.update_of_ne hk, id_eq, Function.update_of_ne hk, hm k hk]

theorem set (h : ZipmapHolds b es m) (hkey : key.length < 2 ^ 32) (hval : val.length < 2 ^ 32) :
    ∃ zm', zipmapSet fill (zipmapBytes b es) key val = some (zm', (m key).isSome) ∧
      IsZipmap zm' (update m key (some val)) := by
  obtain ⟨d, hd⟩ : ∃ d, zipmapRequiredLength key.length val.length = d + 1 :=
    Nat.exists_eq_add_of_le' (by rw [zipmapRequiredLength]; omega)
  cases hm : m key with
  | none =>
    have hraw : zipmapLookupRaw (zipmapBytes b es) (some key) true = _ := h.lookup_miss hm
    -- the old terminator is the first byte of the new block
    obtain ⟨F, hF, hresize⟩ := zipmapResize_grow fill (zipmapBytes b es) d
    have hlen : (zipmapEnd :: F).length = d + 1 := by rw [length_cons, hF]
    obtain ⟨b', hincr, hcount⟩ := zipmapIncrLength_add h.count
      (zipmapBody es ++ (zipmapEnd :: F ++ [zipmapEnd]))
    obtain ⟨spare, hspare, hput⟩ := zipmapPut_eq (a := b' :: zipmapBody es) (t := []) fill rfl hd
      hlen.ge rfl
    have hcast : zipmapBytes b es ++ (F ++ [zipmapEnd]) =
        b :: (zipmapBody es ++ (zipmapEnd :: F ++ [zipmapEnd])) := by simp [zipmapBytes]
    have hzmlen : (zipmapBytes b es).length - 1 = (b' :: zipmapBody es).length := by
      rw [length_zipmapBytes, length_cons]
      omega
    have htotal : (zipmapBytes b es).length + (d + 1) =
        (b' :: zipmapBody es).length + (d + 1) + ([] : Bytes).length + 1 := by
      rw [length_zipmapBytes, length_cons, length_nil]
      omega
    rw [nil_append, cons_append, hlen] at hput
    refine ⟨zipmapBytes b' (es ++ [(key, val, spare)]), ?_, b', es ++ [(key, val, spare)], rfl, ?_⟩
    · simp only [zipmapSet, hraw, hd, some_bind, hresize, hcast, hincr]
      rw [hzmlen, htotal, hput]
      simp [zipmapBytes, zipmapBody]
    · have hmiss : Keyed.lookup id es key = none := by
        rw [h.value, map_eq_none_iff] at hm
        exact hm
      refine insert (l := es) (r := []) (x := (val, spare)) hcount (by simp) ⟨hkey, hval, hspare⟩
        ?_ ?_ ?_ <;> rw [append_nil]
      exacts [h.fits, Keyed.uniq_cons.mpr ⟨hmiss, h.uniq⟩, fun k _ => h.value k]
  | some old =>
    obtain ⟨l, spare, r, rfl, huniq, hat, hraw⟩ := h.lookup_hit hm
    obtain ⟨spare', hspare, hput⟩ := zipmapReplace_eq (a := b :: zipmapBody l)
      (R := zipmapEntryBytes (key, old, spare)) (t := zipmapBody r) fill rfl hd rfl
    refine ⟨zipmapBytes b (l ++ (key, val, spare') :: r), ?_, b, _, rfl, ?_⟩
    · simp only [zipmapSet, hraw, hd, if_true, hat.rawEntryLength, some_bind]
      rw [length_zipmapBytes_split, zipmapBytes_split, hput, zipmapBytes_split]
      rfl
    · exact insert (l := l) (r := r) (x := (val, spare')) h.count (by simp) ⟨hkey, hval, hspare⟩
        (fun e he => h.fits e (List.Sublist.mem he (by simp))) huniq
        fun k hk => h.lookup_around huniq hk

theorem del (h : ZipmapHolds b es m) (key : Bytes) :
    ∃ zm', zipmapDel fill (zipmapBytes b es) key = some (zm', (m key).isSome) ∧
      IsZipmap zm' (update m key none) := by
  cases hm : m key with
  | none =>
    refine ⟨zipmapBytes b es, by simp [zipmapDel, h.lookup_miss hm], b, es, rfl, ?_⟩
    rwa [← hm, Function.update_eq_self]
  | some old =>
    obtain ⟨l, spare, r, rfl, huniq, hat, hraw⟩ := h.lookup_hit hm
    have hcount := h.count
    rw [length_append, length_cons, ← Nat.add_assoc, ← length_append] at hcount
    obtain ⟨b', hincr, hcount'⟩ := zipmapIncrLength_sub hcount (zipmapBody (l ++ r) ++ [zipmapEnd])
    have hmove := zipmapMoveTail_shrink fill (a := b :: zipmapBody l)
      (R := zipmapEntryBytes (key, old, spare)) (t := zipmapBody r) rfl (Nat.zero_le _) rfl
    rw [bind_eq_some_iff] at hmove
    obtain ⟨zm', hmove, hresize⟩ := hmove
    have hcast : (b :: zipmapBody l) ++ ((zipmapEntryBytes (key, old, spare)).take 0 ++
        (zipmapBody r ++ [zipmapEnd])) = b :: (zipmapBody (l ++ r) ++ [zipmapEnd]) := by
      simp [zipmapBody_append]
    obtain ⟨hmiss, hrest⟩ := Keyed.uniq_cons.mp huniq
    refine ⟨zipmapBytes b' (l ++ r), ?_, b', l ++ r, rfl, hcount', fun e he => ?_, hrest, fun k => ?_⟩
    · simp only [zipmapDel, hraw, if_true, hat.rawEntryLength, bind_eq_bind,
        bind_some]
      rw [Nat.sub_zero, hcast] at hresize
      rw [length_zipmapBytes_split, zipmapBytes_split, hmove, bind_some, hresize,
        bind_some, hincr]
      rfl
    · exact h.fits e (List.Sublist.mem he (by simp))
    · by_cases hk : k = key
      · subst hk
        rw [Function.update_self, show Keyed.lookup id (l ++ r) k = none from hmiss]
        rfl
      · rw [Function.update_of_ne hk]
        exact h.lookup_around huniq hk

theorem get (h : ZipmapHolds b es m) : zipmapGet (zipmapBytes b es) key = some (m key) := by
  cases hm : m key with
  | none => simp [zipmapGet, h.lookup_miss hm]
  | some val =>
    obtain ⟨l, spare, r, rfl, -, hat, hraw⟩ := h.lookup_hit hm
    simp only [zipmapGet, hraw, hat.value, some_bind, map_some]

theorem found (h : ZipmapHolds b es m) :
    zipmapExists (zipmapBytes b es) key = some (m key).isSome := by
  cases hm : m key with
  | none => simp [zipmapExists, h.lookup_miss hm]
  | some val =>
    obtain ⟨l, spare, r, rfl, -, -, hraw⟩ := h.lookup_hit hm
    simp [zipmapExists, hraw]

theorem pairs (h : ZipmapHolds b es m) :
    zipmapPairs (zipmapBytes b es) = some (es.map fun e => (e.1, e.2.1)) := by
  obtain ⟨ps, hwalk, hps⟩ := h.path.walk h.length_lt
  rw [zipmapPairs, hwalk, some_bind]
  clear hwalk h
  generalize zipmapBytes b es = zm at hps
  induction hps with
  | nil => rfl
  | cons hat _ ih =>
    rw [mapM_cons, hat.reportedKey, hat.value, ih]
    rfl

theorem mem_pairs_iff (h : ZipmapHolds b es m) :
    (key, val) ∈ es.map (fun e => (e.1, e.2.1)) ↔ m key = some val := by
  rw [h.value, map_eq_some_iff, List.mem_map]
  constructor
  · rintro ⟨e, he, heq⟩
    rw [Prod.mk.injEq] at heq
    exact ⟨e.2, (Keyed.lookup_eq_some_iff h.uniq).mpr ⟨e.1, he, heq.1⟩, heq.2⟩
  · rintro ⟨x, hx, rfl⟩
    obtain ⟨_, hmem, rfl⟩ := (Keyed.lookup_eq_some_iff h.uniq).mp hx
    exact ⟨_, hmem, rfl⟩

theorem nodup_pairs (h : ZipmapHolds b es m) : (es.map fun e => (e.1, e.2.1)).Nodup := by
  have hkeys : (es.map fun e => (e.1, e.2.1)).map Prod.fst = es.map fun e => id e.1 := by
    rw [List.map_map]
    rfl
  exact Nodup.of_map Prod.fst (hkeys ▸ h.uniq)

theorem length_eq (h : ZipmapHolds b es m) : es.length = {key | (m key).isSome}.ncard := by
  have hset : {key | (m key).isSome} = ((es.map fun e => id e.1).toFinset : Set Bytes) := by
    ext key
    simp [h.value, Keyed.lookup_isSome_iff]
  rw [hset, Set.ncard_coe_finset, toFinset_card_of_nodup h.uniq, length_map]

theorem len (h : ZipmapHolds b es m) : ∃ zm', zipmapLen (zipmapBytes b es) =
    some (zm', {key | (m key).isSome}.ncard) ∧ IsZipmap zm' m := by
  obtain ⟨ps, hwalk, hps⟩ := h.path.walk h.length_lt
  rw [← h.length_eq]
  simp only [zipmapLen, zipmapBytes, getElem?_cons_zero, bind_eq_bind, bind_some]
  rw [← zipmapBytes, hwalk, bind_some, hps.length_eq]
  by_cases hb : b.toNat < zipmapBiglen
  · rw [if_pos hb]
    have hn : b.toNat = es.length := h.count.elim (fun heq => absurd hb (by omega)) And.right
    exact ⟨_, by rw [hn]; rfl, b, es, rfl, h⟩
  · rw [if_neg hb]
    by_cases hn : es.length < zipmapBiglen
    · refine ⟨zipmapBytes (ofNat es.length) es, by rw [if_pos hn]; rfl,
        ofNat es.length, es, rfl, .inr ?_, h.fits, h.uniq, h.value⟩
      have hof : (ofNat es.length).toNat = es.length := by
        rw [toNat_ofNat', zipmapBiglen] at *
        omega
      exact ⟨hof.symm ▸ hn, hof⟩
    · exact ⟨_, by rw [if_neg hn]; rfl, b, es, rfl, h⟩

theorem blobLen (h : ZipmapHolds b es m) :
    zipmapBlobLen (zipmapBytes b es) = some (zipmapBytes b es).length := by
  rw [zipmapBlobLen, h.raw_miss fun e _ => (some_ne_none e.1).symm]
  rfl

end ZipmapHolds

/-! ## Runs -/

/-- A call of one of the functions. -/
inductive ZipmapCall
  | set (key val : Bytes)
  | del (key : Bytes)
  | get (key : Bytes)
  | exists' (key : Bytes)
  | len

/-- What a call returns: `*update`, `*deleted`, the value, whether it exists, the length. -/
inductive ZipmapReply
  | flag (b : Bool)
  | value (val : Option Bytes)
  | length (n : Nat)

/-- The lengths of what is written are those of an `unsigned int`. -/
def ZipmapCall.Fits : ZipmapCall → Prop
  | .set key val => key.length < 2 ^ 32 ∧ val.length < 2 ^ 32
  | _ => True

def zipmapCall (fill : Nat → UInt8) (zm : Bytes) : ZipmapCall → Option (Bytes × ZipmapReply)
  | .set key val => (zipmapSet fill zm key val).map fun r => (r.1, .flag r.2)
  | .del key => (zipmapDel fill zm key).map fun r => (r.1, .flag r.2)
  | .get key => (zipmapGet zm key).map fun r => (zm, .value r)
  | .exists' key => (zipmapExists zm key).map fun r => (zm, .flag r)
  | .len => (zipmapLen zm).map fun r => (r.1, .length r.2)

/-- The calls of a run, each with what new memory holds. -/
def zipmapRun : Bytes → List ((Nat → UInt8) × ZipmapCall) → Option (Bytes × List ZipmapReply)
  | zm, [] => some (zm, [])
  | zm, (fill, call) :: calls => do
    let r ← zipmapCall fill zm call
    let s ← zipmapRun r.1 calls
    return (s.1, r.2 :: s.2)

/-- A call on a finite map. -/
noncomputable def mapCall (m : Bytes → Option Bytes) :
    ZipmapCall → (Bytes → Option Bytes) × ZipmapReply
  | .set key val => (update m key (some val), .flag (m key).isSome)
  | .del key => (update m key none, .flag (m key).isSome)
  | .get key => (m, .value (m key))
  | .exists' key => (m, .flag (m key).isSome)
  | .len => (m, .length {key | (m key).isSome}.ncard)

noncomputable def mapRun (m : Bytes → Option Bytes) :
    List ZipmapCall → (Bytes → Option Bytes) × List ZipmapReply
  | [] => (m, [])
  | call :: calls =>
    let r := mapCall m call
    let s := mapRun r.1 calls
    (s.1, r.2 :: s.2)

/-- A call returns what it returns on the map, and leaves a zipmap of the map that it leaves. -/
theorem zipmapCall_refines (fill : Nat → UInt8) {call : ZipmapCall} (h : IsZipmap zm m)
    (hcall : call.Fits) : ∃ zm', zipmapCall fill zm call = some (zm', (mapCall m call).2) ∧
      IsZipmap zm' (mapCall m call).1 := by
  obtain ⟨b, es, rfl, h⟩ := h
  cases call with
  | set key val =>
    obtain ⟨zm', hset, hzm'⟩ := h.set fill hcall.1 hcall.2
    exact ⟨zm', by rw [zipmapCall, hset]; rfl, hzm'⟩
  | del key =>
    obtain ⟨zm', hdel, hzm'⟩ := h.del fill key
    exact ⟨zm', by rw [zipmapCall, hdel]; rfl, hzm'⟩
  | get key => exact ⟨_, by rw [zipmapCall, h.get]; rfl, b, es, rfl, h⟩
  | exists' key => exact ⟨_, by rw [zipmapCall, h.found]; rfl, b, es, rfl, h⟩
  | len =>
    obtain ⟨zm', hlen, hzm'⟩ := h.len
    exact ⟨zm', by rw [zipmapCall, hlen]; rfl, hzm'⟩

theorem zipmapRun_refines {calls : List ((Nat → UInt8) × ZipmapCall)} (h : IsZipmap zm m)
    (hcalls : ∀ c ∈ calls, c.2.Fits) :
    ∃ zm', zipmapRun zm calls = some (zm', (mapRun m (calls.map Prod.snd)).2) ∧
      IsZipmap zm' (mapRun m (calls.map Prod.snd)).1 := by
  induction calls generalizing zm m with
  | nil => exact ⟨zm, rfl, h⟩
  | cons c calls ih =>
    obtain ⟨zm', hcall, hzm'⟩ := zipmapCall_refines c.1 h (hcalls c mem_cons_self)
    obtain ⟨zm'', hrun, hzm''⟩ := ih hzm' fun c hc => hcalls c (mem_cons_of_mem _ hc)
    refine ⟨zm'', ?_, hzm''⟩
    rw [zipmapRun, hcall, some_bind, hrun]
    rfl

/-- Whatever is called on an empty zipmap, the replies are those of a finite map, its pairs are
enumerated once each, and the size is that of the allocation. -/
theorem zipmap_refines_map (calls : List ((Nat → UInt8) × ZipmapCall))
    (hcalls : ∀ c ∈ calls, c.2.Fits) :
    ∃ zm, zipmapRun zipmapNew calls = some (zm, (mapRun (fun _ => none) (calls.map Prod.snd)).2) ∧
      zipmapBlobLen zm = some zm.length ∧
      ∃ ps, zipmapPairs zm = some ps ∧ ps.Nodup ∧ ∀ key val, (key, val) ∈ ps ↔
        (mapRun (fun _ => none) (calls.map Prod.snd)).1 key = some val := by
  have hnew : IsZipmap zipmapNew fun _ => none := ⟨0, [], rfl, .nil⟩
  obtain ⟨zm, hrun, b, es, rfl, h⟩ := zipmapRun_refines hnew hcalls
  exact ⟨_, hrun, h.blobLen, _, h.pairs, h.nodup_pairs, fun key val => h.mem_pairs_iff⟩

theorem zipmap_refines_map_two :
    ∃ zm, zipmapRun zipmapNew [(fun _ => 7, .set [97] [98]), (fun _ => 7, .get [97])] =
        some (zm, (mapRun (fun _ => none) [.set [97] [98], .get [97]]).2) ∧
      zipmapBlobLen zm = some zm.length ∧
      ∃ ps, zipmapPairs zm = some ps ∧ ps.Nodup ∧ ∀ key val, (key, val) ∈ ps ↔
        (mapRun (fun _ => none) [.set [97] [98], .get [97]]).1 key = some val :=
  zipmap_refines_map [(fun _ => 7, .set [97] [98]), (fun _ => 7, .get [97])] (by
    intro c hc
    simp only [mem_cons, not_mem_nil, or_false] at hc
    obtain rfl | rfl := hc
    · exact ⟨by decide, by decide⟩
    · exact trivial)

end Redis
