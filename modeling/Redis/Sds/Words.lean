import Mathlib.Data.List.Forall2
import Mathlib.Data.List.TakeWhile
import Mathlib.Tactic.Common
import Redis.Sds.Split

/-!
# Redis.Sds.Words

Which texts `sdssplitargs` reads as one word.  A plain word is read as it stands, and the
quoted form of any text as the text.
-/

namespace Redis.Sds

open List

variable {w : Bytes} {c : UInt8} {texts : List Bytes}

/-- The bytes that may stand inside a plain word. -/
def plainByte (b : UInt8) : Bool :=
  !(b == 0 || b == 9 || b == 10 || b == 13 || b == 32 || b == 34 || b == 39)

/-- A plain word: not empty, and without blanks and quotes. -/
def plain : Bytes → Bool
  | [] => false
  | b :: w => !isspace b && (b :: w).all plainByte

/-- The text is read as the one word `w`, at the end of a line and before a blank. -/
structure Reads (text w : Bytes) : Prop where
  first : ∃ b t, text = b :: t ∧ isspace b = false
  last : splitToken .no [] text = some (w, [])
  inner : ∀ p, ∃ p', splitToken .no [] (text ++ 32 :: p) = some (w, p') ∧
    p'.dropWhile isspace = p.dropWhile isspace

theorem splitToken_plain (h : ∀ b ∈ w, plainByte b = true) (current p : Bytes) :
    splitToken .no current (w ++ p) = splitToken .no (current ++ w) p := by
  induction w generalizing current with
  | nil => simp
  | cons b w ih =>
    have hb := h b mem_cons_self
    simp only [plainByte, Bool.not_eq_true', Bool.or_eq_false_iff, beq_eq_false_iff_ne, ne_eq] at hb
    obtain ⟨⟨⟨⟨⟨⟨-, h9⟩, h10⟩, h13⟩, h32⟩, h34⟩, h39⟩ := hb
    rw [cons_append, splitToken, if_neg (by simp [h9, h10, h13, h32]), if_neg h34, if_neg h39,
      ih (fun c hc => h c (mem_cons_of_mem _ hc)), append_assoc, singleton_append]

theorem plainByte_of_plain (h : plain w = true) : ∀ b ∈ w, plainByte b = true := by
  cases w with
  | nil => simp [plain] at h
  | cons b w =>
    simp only [plain, Bool.and_eq_true, all_eq_true] at h
    exact h.2

theorem first_of_plain (h : plain w = true) : ∃ b t, w = b :: t ∧ isspace b = false := by
  cases w with
  | nil => simp [plain] at h
  | cons b w =>
    simp only [plain, Bool.and_eq_true, Bool.not_eq_true'] at h
    exact ⟨b, w, rfl, h.1⟩

theorem reads_plain (h : plain w = true) : Reads w w where
  first := first_of_plain h
  last := by
    have := splitToken_plain (plainByte_of_plain h) [] []
    rw [append_nil, nil_append, splitToken] at this
    exact this
  inner := by
    intro p
    refine ⟨p, ?_, rfl⟩
    rw [splitToken_plain (plainByte_of_plain h), splitToken, if_pos (.inl rfl), nil_append]

/-! ## Quoted texts -/

theorem splitToken_escape (hc : c ≠ 120) (current p : Bytes) :
    splitToken .double current (92 :: c :: p) = splitToken .double (current ++ [unescape c]) p := by
  match p with
  | [] => simp [splitToken]
  | [d] => simp [splitToken]
  | d :: e :: p => simp [splitToken, hexByte, hc]

/-- A property of all bytes is checked byte by byte. -/
theorem forall_byte (P : UInt8 → Prop) [DecidablePred P]
    (h : (range 256).all (fun n => decide (P (UInt8.ofNat n))) = true) (b : UInt8) : P b := by
  have := all_eq_true.mp h b.toNat (mem_range.mpr b.toNat_lt)
  simpa using this

variable {ws : List Bytes} (b : UInt8) (current p : Bytes)

theorem hexByte_hexChar : hexByte 120 (hexChar (b / 16)) (hexChar (b % 16)) = some b :=
  forall_byte (fun b => hexByte 120 (hexChar (b / 16)) (hexChar (b % 16)) = some b)
    (by decide +kernel) b

theorem splitToken_hex :
    splitToken .double current (92 :: 120 :: hexChar (b / 16) :: hexChar (b % 16) :: p) =
      splitToken .double (current ++ [b]) p := by
  simp [splitToken, hexByte_hexChar]

theorem splitToken_printable {b : UInt8} (h92 : b ≠ 92) (h34 : b ≠ 34) (current p : Bytes) :
    splitToken .double current (b :: p) = splitToken .double (current ++ [b]) p := by
  rw [splitToken.eq_def]
  simp only [if_neg h92, if_neg h34]

/-- A byte as `sdscatrepr` writes it is read back. -/
theorem splitToken_reprByte :
    splitToken .double current (reprByte b ++ p) = splitToken .double (current ++ [b]) p := by
  unfold reprByte
  split
  · rename_i hb
    rcases hb with rfl | rfl
    · exact splitToken_escape (by decide) current p
    · exact splitToken_escape (by decide) current p
  · rename_i hb
    simp only [not_or] at hb
    split
    · rename_i h
      subst h
      exact splitToken_escape (by decide) current p
    split
    · rename_i h
      subst h
      exact splitToken_escape (by decide) current p
    split
    · rename_i h
      subst h
      exact splitToken_escape (by decide) current p
    split
    · rename_i h
      subst h
      exact splitToken_escape (by decide) current p
    split
    · rename_i h
      subst h
      exact splitToken_escape (by decide) current p
    split
    · exact splitToken_printable hb.1 hb.2 current p
    · exact splitToken_hex b current p

theorem splitToken_repr (w current p : Bytes) :
    splitToken .double current (w.flatMap reprByte ++ p) = splitToken .double (current ++ w) p := by
  induction w generalizing current with
  | nil => simp
  | cons b w ih =>
    rw [flatMap_cons, append_assoc, splitToken_reprByte, ih, append_assoc,
      singleton_append]

theorem splitToken_sdscatrepr {p : Bytes} (hp : closes p = true) (w : Bytes) :
    splitToken .no [] (sdscatrepr w ++ p) = some (w, p) := by
  have hcons : sdscatrepr w ++ p = 34 :: (w.flatMap reprByte ++ 34 :: p) := by
    simp [sdscatrepr]
  rw [hcons, splitToken, if_neg (by decide), if_pos rfl, splitToken_repr, nil_append,
    splitToken.eq_def]
  simp [hp]

/-- The quoted form of a text is read as the text. -/
theorem reads_sdscatrepr (w : Bytes) : Reads (sdscatrepr w) w where
  first := ⟨34, _, rfl, by decide⟩
  last := by
    have := splitToken_sdscatrepr (p := []) rfl w
    rwa [append_nil] at this
  inner := by
    intro p
    refine ⟨32 :: p, splitToken_sdscatrepr rfl w, ?_⟩
    rw [dropWhile_cons_of_pos (by decide)]

theorem mem_reprByte {b : UInt8} (h : c ∈ reprByte b) : 32 ≤ c ∧ c ≤ 126 := by
  have hall := forall_byte
    (fun b => (reprByte b).all (fun c => Nat.ble 32 c.toNat && Nat.ble c.toNat 126) = true)
    (by decide +kernel) b
  have := all_eq_true.mp hall c h
  simpa [UInt8.le_iff_toNat_le] using this

theorem mem_sdscatrepr (h : c ∈ sdscatrepr w) : 32 ≤ c ∧ c ≤ 126 := by
  simp only [sdscatrepr, mem_cons, mem_append, mem_flatMap, not_mem_nil,
    or_false] at h
  rcases h with rfl | ⟨b, -, hb⟩ | rfl
  · decide
  · exact mem_reprByte hb
  · decide

/-! ## Lines of words -/

/-- The words of a line, which a blank separates. -/
theorem splitLoop_intercalate (h : Forall₂ Reads texts ws) :
    ∀ {fuel : Nat} {p : Bytes}, texts.length < fuel →
      p.dropWhile isspace = (intercalate [32] texts).dropWhile isspace →
      splitLoop fuel p = some ws := by
  induction h with
  | nil =>
    intro fuel p hfuel hp
    cases fuel with
    | zero => simp at hfuel
    | succ fuel =>
      rw [intercalate_nil, dropWhile_nil] at hp
      simp [splitLoop, hp]
  | @cons t w texts ws ht hts ih =>
    intro fuel p hfuel hp
    cases fuel with
    | zero => simp at hfuel
    | succ fuel =>
      obtain ⟨b, t', rfl, hb⟩ := ht.first
      have hlen : texts.length < fuel := by simpa using hfuel
      cases texts with
      | nil =>
        rw [intercalate_singleton, dropWhile_cons_of_neg (by simp [hb])] at hp
        have hws : ws = [] := forall₂_nil_left_iff.mp hts
        have hnext : splitLoop fuel [] = some [] := by
          cases fuel <;> rfl
        simp [splitLoop, hp, ht.last, hnext, hws]
      | cons u texts =>
        obtain ⟨p', hp', hdrop⟩ := ht.inner (intercalate [32] (u :: texts))
        rw [intercalate_cons_cons, append_assoc, singleton_append,
          cons_append, dropWhile_cons_of_neg (by simp [hb])] at hp
        rw [cons_append] at hp'
        simp [splitLoop, hp, hp', ih hlen hdrop]

theorem length_le_intercalate (h : ∀ t ∈ texts, t ≠ []) :
    texts.length ≤ (intercalate [32] texts).length := by
  induction texts with
  | nil => simp
  | cons t texts ih =>
    have ht : 0 < t.length := length_pos_iff.mpr (h t mem_cons_self)
    have ih' := ih fun u hu => h u (mem_cons_of_mem _ hu)
    cases texts with
    | nil =>
      simp
      omega
    | cons u texts =>
      rw [intercalate_cons_cons]
      simp only [length_cons, length_append] at ih' ⊢
      omega

/-- A line of texts that are read as words is read as these words. -/
theorem sdssplitargs_intercalate (h : Forall₂ Reads texts ws)
    (h0 : 0 ∉ intercalate [32] texts) :
    sdssplitargs (intercalate [32] texts) = some ws := by
  have htake : (intercalate [32] texts).takeWhile (· ≠ 0) = intercalate [32] texts := by
    rw [takeWhile_eq_self_iff]
    intro b hb
    rw [decide_eq_true_iff]
    rintro rfl
    exact h0 hb
  have hne : ∀ t ∈ texts, t ≠ [] := by
    clear h0 htake
    induction h with
    | nil => simp
    | cons hr _ ih =>
      obtain ⟨b, t, rfl, -⟩ := hr.first
      simpa using ih
  simp only [sdssplitargs, htake]
  exact splitLoop_intercalate h (Nat.lt_succ_of_le (length_le_intercalate hne)) rfl

end Redis.Sds
