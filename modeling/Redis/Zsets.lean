import Mathlib.Data.List.Find
import Redis.Scores
import Redis.Sets
import Redis.Skiplist
import Redis.Ziplist.Read

/-!
# Redis.Zsets

Sorted set objects in their two encodings: the elements with their scores, by the bytes of the
elements.  A ziplist is the values that are read from its entries, a skiplist its nodes from the
first to the last.
-/

namespace Redis

open Replication (Robj)

/-! ## Values of a ziplist -/

/-- `ziplistCompare` of an entry with this value. -/
def ZipValue.compare (sstr : Bytes) : ZipValue → Bool
  | .str s => s.length = sstr.length && s == sstr
  | .int zval =>
    match zipTryEncoding sstr with
    | some (sval, _) => zval == sval
    | none => false

/-- An integer of a ziplist has at most 64 bits. -/
def ZipValue.Valid : ZipValue → Prop
  | .str _ => True
  | .int v => -2 ^ 63 ≤ v ∧ v < 2 ^ 63

/-- The value that is read from an entry a string was written to. -/
def zipValueOf (s : Bytes) : ZipValue :=
  match zipTryEncoding s with
  | some (value, _) => .int value
  | none => .str s

section Values

variable {v : ZipValue} {s : Bytes}

theorem ZipValue.compare_iff (h : v.Valid) : v.compare s = true ↔ v.bytes = s := by
  cases v with
  | str t =>
    rw [compare, bytes, Bool.and_eq_true, decide_eq_true_eq, beq_iff_eq]
    exact ⟨And.right, fun heq => ⟨congrArg List.length heq, heq⟩⟩
  | int w =>
    rw [compare, bytes, ← zipTryEncoding_eq_iff h.1 h.2]
    cases zipTryEncoding s with
    | none =>
      refine iff_of_false Bool.false_ne_true ?_
      rintro ⟨encoding, heq⟩
      cases heq
    | some r =>
      obtain ⟨sval, encoding⟩ := r
      refine beq_iff_eq.trans ⟨?_, ?_⟩
      · rintro rfl
        exact ⟨encoding, rfl⟩
      · rintro ⟨encoding', heq⟩
        exact (Prod.mk.inj (Option.some.inj heq)).1.symm

theorem zipValueOf_spec (s : Bytes) : (zipValueOf s).bytes = s ∧ (zipValueOf s).Valid := by
  rw [zipValueOf]
  cases htry : zipTryEncoding s with
  | none => exact ⟨rfl, trivial⟩
  | some r =>
    obtain ⟨value, encoding⟩ := r
    have hvalue := (zipTryEncoding_spec htry).2.1
    rw [zipTryEncoding] at htry
    split at htry
    · cases htry
    cases hs : string2ll s with
    | none =>
      rw [hs] at htry
      cases htry
    | some w =>
      rw [hs] at htry
      obtain rfl := (Prod.mk.inj (Option.some.inj htry)).1
      exact ⟨hvalue, (string2ll_spec hs).2⟩

end Values

/-! ## Objects -/

variable {α : Type}

/-- A ziplist of elements and their scores. -/
structure Zzl (α : Type) where
  pairs : List (ZipValue × Score α)
  valid : ∀ e ∈ pairs, e.1.Valid
  uniq : Keyed.Uniq ZipValue.bytes pairs

/-- A skiplist and the dictionary with the same elements. -/
structure Zset (α : Type) where
  zsl : List (Robj × Score α)
  dict : EncDict (Score α)
  perm : zsl.Perm dict.entries

inductive ZsetObj (α : Type) where
  | ziplist (zl : Zzl α)
  | skiplist (zs : Zset α)

/-- `zzlFind`, with the score. -/
def Zzl.zzlFind (zl : Zzl α) (ele : Robj) : Option (Score α) :=
  (zl.pairs.find? fun e => e.1.compare (getDecodedObject ele)).map Prod.snd

/-- The score of an element. -/
def ZsetObj.toFun : ZsetObj α → Bytes → Option (Score α)
  | .ziplist zl => Keyed.lookup ZipValue.bytes zl.pairs
  | .skiplist zs => zs.dict.toFun

theorem Zzl.zzlFind_eq (zl : Zzl α) (ele : Robj) :
    zl.zzlFind ele = Keyed.lookup ZipValue.bytes zl.pairs ele.bytes := by
  rw [zzlFind, Keyed.lookup, getDecodedObject_eq]
  congr 1
  refine List.find?_congr fun e he => ?_
  rw [Bool.eq_iff_iff, ZipValue.compare_iff (zl.valid e he), decide_eq_true_eq]

/-- `createZsetObject`. -/
def Zset.empty : Zset α := ⟨[], .empty, .nil⟩

section Insert

variable [LinearOrder α]

/-- `zslInsert`: the new node is behind those with a lower score, and with the same score and a
lower element. -/
def zslInsert (score : Score α) (obj : Robj) : List (Robj × Score α) → List (Robj × Score α)
  | [] => [(obj, score)]
  | nd :: zsl =>
    if nd.2.lt score ||
        (nd.2 = score && Skiplist.compareStringObjects nd.1.bytes obj.bytes < 0) then
      nd :: zslInsert score obj zsl
    else (obj, score) :: nd :: zsl

theorem zslInsert_perm (score : Score α) (obj : Robj) (zsl : List (Robj × Score α)) :
    (zslInsert score obj zsl).Perm ((obj, score) :: zsl) := by
  induction zsl with
  | nil => exact .refl _
  | cons nd zsl ih =>
    rw [zslInsert]
    split
    · exact (ih.cons nd).trans (.swap ..)
    · exact .refl _

/-- A new element; `none` if it is there already, and only the skiplist would have it twice. -/
def Zset.insert (zs : Zset α) (score : Score α) (obj : Robj) : Option (Zset α) :=
  match h : zs.dict.add obj score with
  | none => none
  | some dict => some
      { zsl := zslInsert score obj zs.zsl
        dict := dict
        perm := by
          rw [Keyed.Table.add] at h
          split at h
          · rw [← Option.some.inj h]
            exact (zslInsert_perm score obj zs.zsl).trans (zs.perm.cons _)
          · cases h }

theorem Zset.insert_spec (zs : Zset α) (score : Score α) {obj : Robj}
    (h : zs.dict.toFun obj.bytes = none) :
    ∃ zs', zs.insert score obj = some zs' ∧
      zs'.dict.toFun = Function.update zs.dict.toFun obj.bytes (some score) := by
  obtain ⟨dict, hadd, hfun⟩ := encDict_add score h
  rw [insert]
  split
  next hnone =>
    rw [hadd] at hnone
    cases hnone
  next dict' hsome =>
    rw [hadd] at hsome
    obtain rfl := Option.some.inj hsome
    exact ⟨_, rfl, hfun⟩

end Insert

/-! ## Conversion -/

/-- `zsetConvert` to `REDIS_ENCODING_ZIPLIST`. -/
def Zset.zsetConvert (zs : Zset α) : Zzl α where
  pairs := zs.zsl.map fun nd => (zipValueOf (getDecodedObject nd.1), nd.2)
  valid e he := by
    obtain ⟨nd, -, rfl⟩ := List.mem_map.mp he
    exact (zipValueOf_spec _).2
  uniq := by
    have hkeys : ((zs.zsl.map fun nd => (zipValueOf (getDecodedObject nd.1), nd.2)).map
        fun e => e.1.bytes) = zs.zsl.map fun nd => nd.1.bytes := by
      rw [List.map_map]
      refine List.map_congr_left fun nd _ => ?_
      rw [Function.comp_apply, (zipValueOf_spec _).1, getDecodedObject_eq]
    rw [Keyed.Uniq, hkeys]
    exact Keyed.Uniq.perm zs.dict.uniq zs.perm.symm

theorem Zset.lookup_zsl (zs : Zset α) : Keyed.lookup Robj.bytes zs.zsl = zs.dict.toFun :=
  Keyed.lookup_perm zs.dict.uniq zs.perm.symm

theorem Zset.zsetConvert_toFun (zs : Zset α) :
    Keyed.lookup ZipValue.bytes zs.zsetConvert.pairs = zs.dict.toFun := by
  funext m
  have hview : ∀ nd ∈ zs.zsl, (zipValueOf (getDecodedObject nd.1)).bytes = nd.1.bytes := by
    intro nd _
    rw [(zipValueOf_spec _).1, getDecodedObject_eq]
  have hmap : Keyed.lookup ZipValue.bytes zs.zsetConvert.pairs m =
      (Keyed.lookup Robj.bytes zs.zsl m).map id := Keyed.lookup_map hview fun _ _ => rfl
  rw [hmap, Option.map_id_fun, zs.lookup_zsl]
  rfl

end Redis
