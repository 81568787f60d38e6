import Redis.Lzf.Roundtrip
import Redis.Rdb.Strings

/-!
# Redis.Rdb.Roundtrip

A string object is read back from what is written of it: as an integer, compressed, or as it is.
-/

namespace Redis.Rdb

open Replication (Robj)
open Redis.Lzf (Htab lzfCompress lzfDecompress lzfCompress_emits)

variable {s : Bytes} {n : Nat}

/-- The compressor and the decompressor as `rdb.c` calls them.  The string that is decompressed
into is filled with zeros before. -/
def lzf (htab : Htab) : Lzf where
  compress s outLen := (lzfCompress s outLen htab).getD []
  decompress c len :=
    match lzfDecompress c len with
    | none | some [] => none
    | some out => some (out ++ List.replicate (len - out.length) 0)

/-- What is compressed, if it fits, is decompressed. -/
theorem lzf_roundtrip (htab htab' : Htab) (hs : 4 < s.length)
    (hc : (lzf htab).compress s n ≠ []) :
    ((lzf htab).compress s n).length ≤ n ∧
      (lzf htab').decompress ((lzf htab).compress s n) s.length = some s := by
  obtain ⟨c, heq, hlen, hcases⟩ := lzfCompress_emits n htab (by omega : 2 ≤ s.length)
  simp only [lzf, heq, Option.getD_some] at hc ⊢
  refine ⟨hlen, ?_⟩
  rw [(hcases.resolve_left hc).lzfDecompress hc]
  cases s with
  | nil => simp at hs
  | cons b s => simp

theorem rdbLoadLen_length (h : n < 2 ^ 32 - 1) (rest : Bytes) :
    rdbLoadLen (rdbSaveLen (UInt32.ofNat n) ++ rest) = some (UInt32.ofNat n, false, rest) ∧
      (UInt32.ofNat n).toNat = n := by
  have hlen : (UInt32.ofNat n).toNat = n := UInt32.toNat_ofNat_of_lt' (by
    rw [UInt32.size]
    omega)
  refine ⟨rdbLoadLen_rdbSaveLen (fun heq => ?_) rest, hlen⟩
  rw [heq] at hlen
  simp at hlen
  omega

theorem loadString_lzf (htab htab' : Htab) (hs : s.length < 2 ^ 32 - 1)
    (h : rdbSaveLzfStringObject (lzf htab) s ≠ []) (encode : Bool) (rest : Bytes) :
    rdbGenericLoadStringObject (lzf htab') encode (rdbSaveLzfStringObject (lzf htab) s ++ rest) =
      some (.raw s, rest) := by
  rw [rdbSaveLzfStringObject] at h ⊢
  split
  next hshort => exact absurd (if_pos hshort) h
  next hlong =>
    obtain ⟨c, hc⟩ : ∃ c, (lzf htab).compress s (s.length - 4) = c := ⟨_, rfl⟩
    simp only [hc, if_neg hlong] at h ⊢
    have hne : c ≠ [] := fun hnil => h (if_pos (by rw [hnil]; rfl))
    obtain ⟨hlen, hdec⟩ := lzf_roundtrip htab htab' (by omega) (hc ▸ hne)
    rw [hc] at hlen hdec
    obtain ⟨hclen, hcto⟩ := rdbLoadLen_length (by omega : c.length < 2 ^ 32 - 1)
      (rdbSaveLen (UInt32.ofNat s.length) ++ (c ++ rest))
    obtain ⟨hslen, hsto⟩ := rdbLoadLen_length hs (c ++ rest)
    have hread : rioRead (c ++ rest) (UInt32.ofNat c.length) = some (c, rest) := by
      rw [rioRead, hcto, List.length_append, if_pos (by omega), List.take_left, List.drop_left]
    have htype : rdbGenericLoadStringObject (lzf htab') encode (0xC3 ::
        (rdbSaveLen (UInt32.ofNat c.length) ++ (rdbSaveLen (UInt32.ofNat s.length) ++ c)) ++ rest) =
        rdbLoadLzfStringObject (lzf htab') (rdbSaveLen (UInt32.ofNat c.length) ++
          (rdbSaveLen (UInt32.ofNat s.length) ++ (c ++ rest))) := by
      rw [List.cons_append, List.append_assoc, List.append_assoc]
      rfl
    rw [if_neg (by simpa using hne), htype, rdbLoadLzfStringObject, hclen, some_bind]
    dsimp only
    rw [hslen, some_bind]
    dsimp only
    rw [hread, some_bind]
    dsimp only
    rw [hsto, hdec]
    rfl

/-- A string that is written as an integer is its decimal form. -/
theorem exists_of_rdbTryIntegerEncoding (h : rdbTryIntegerEncoding s ≠ []) :
    ∃ v, s = canonical v.toInt ∧ rdbTryIntegerEncoding s = rdbEncodeInteger v := by
  rw [rdbTryIntegerEncoding] at h ⊢
  obtain ⟨⟨v, endptr⟩, hv⟩ : ∃ r, strtoll s = r := ⟨_, rfl⟩
  simp only [hv] at h ⊢
  split at h
  next => exact absurd rfl h
  next hend =>
    split at h
    next => exact absurd rfl h
    next hsame =>
      rw [not_or, not_not, not_not] at hsame
      refine ⟨v, by rw [← ll2string_eq_canonical, hsame.2], ?_⟩
      rw [if_neg hend, if_neg (by simp [hsame.2])]

/-- Whatever the hash tables hold, with compression or without it, what is written of a string
object is read back as an object with the same bytes, and nothing behind it is read. -/
theorem string_roundtrip (rdbCompression : Bool) (htab htab' : Htab) (o : Robj)
    (h : o.bytes.length < 2 ^ 32 - 1) (encode : Bool) (rest : Bytes) :
    ∃ o', rdbGenericLoadStringObject (lzf htab') encode
        (rdbSaveStringObject rdbCompression (lzf htab) o ++ rest) = some (o', rest) ∧
      o'.bytes = o.bytes := by
  cases o with
  | int v =>
    obtain ⟨o', hload, hbytes⟩ := loadString_rdbSaveLongLong (lzf htab') v encode rest
    exact ⟨o', hload, hbytes.trans (ll2string_eq_canonical v).symm⟩
  | raw s =>
    have hlen : s.length < 2 ^ 32 - 1 := h
    have hnone {p : Prop} [Decidable p] {t : Bytes} (h : ¬(p ∧ t ≠ [])) :
        (if p then t else []) = [] := by
      rw [ite_eq_right_iff]
      exact fun hp => by_contra fun ht => h ⟨hp, ht⟩
    rw [rdbSaveStringObject, rdbSaveRawString]
    by_cases henc : s.length ≤ 11 ∧ rdbTryIntegerEncoding s ≠ []
    · obtain ⟨v, rfl, heq⟩ := exists_of_rdbTryIntegerEncoding henc.2
      rw [if_pos henc.1, if_pos henc.2]
      rw [heq] at henc ⊢
      exact ⟨_, loadString_rdbEncodeInteger rest _ henc.2, bytes_integerObject encode v⟩
    rw [hnone henc, if_neg (not_not.mpr rfl)]
    by_cases hcomp : (rdbCompression = true ∧ 20 < s.length) ∧
        rdbSaveLzfStringObject (lzf htab) s ≠ []
    · rw [if_pos hcomp.1, if_pos hcomp.2]
      exact ⟨_, loadString_lzf htab htab' hlen hcomp.2 encode rest, rfl⟩
    · rw [hnone hcomp, if_neg (not_not.mpr rfl)]
      exact ⟨_, loadString_verbatim _ hlen encode rest, rfl⟩

/-- A string of forty equal bytes, which is compressed. -/
theorem string_roundtrip_run :
    ∃ o', rdbGenericLoadStringObject (lzf fun _ => 0) false
        (rdbSaveStringObject true (lzf fun _ => 5) (.raw (List.replicate 40 97)) ++ [255]) =
          some (o', [255]) ∧
      o'.bytes = List.replicate 40 97 :=
  string_roundtrip true _ _ (.raw (List.replicate 40 97)) (by decide) false [255]

end Redis.Rdb
