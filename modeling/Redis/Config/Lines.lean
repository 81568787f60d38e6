import Redis.Config

/-!
# Redis.Config.Lines

What the text of a line is to those who read it: the lines of a file, their blanks, and
the words of a line.
-/

namespace Redis.Config

open Redis.Sds List

/-- A text that fits in a line. -/
def Clean (line : Bytes) : Prop := 10 ∉ line ∧ 0 ∉ line

/-! ## Trimming -/

theorem isBlank_newline : isBlank 10 = true := by decide

variable {file piece : Bytes} (line : Bytes)

theorem sdstrim_subset : sdstrim line ⊆ line := fun _ hb =>
  (dropWhile_sublist isBlank).subset (( rdropWhile_prefix isBlank _).subset hb)

/-- Text that neither starts nor ends with a blank stays. -/
theorem sdstrim_eq_self {b c : UInt8} {line body : Bytes} (hb : isBlank b = false)
    (hc : isBlank c = false) (hfirst : ∃ t, line = b :: t) (hlast : line = body ++ [c]) :
    sdstrim line = line := by
  obtain ⟨t, ht⟩ := hfirst
  have hdrop : line.dropWhile isBlank = line := by
    rw [ht, dropWhile_cons_of_neg (by simp [hb])]
  rw [sdstrim, hdrop, hlast, rdropWhile_concat_neg _ _ _ (by simp [hc])]

/-- Trimming leaves nothing, or something that neither starts nor ends with a blank. -/
theorem sdstrim_cases :
    sdstrim line = [] ∨ ∃ b c t body, isBlank b = false ∧ isBlank c = false ∧
      sdstrim line = b :: t ∧ sdstrim line = body ++ [c] := by
  unfold sdstrim
  cases hd : line.dropWhile isBlank with
  | nil => exact .inl (by simp)
  | cons b t =>
    have hb : isBlank b = false := by
      have := head_dropWhile_not isBlank (l := line) (by simp [hd])
      simpa [hd] using this
    -- the first byte is not a blank, so that it is not dropped from the end either
    have hne : (b :: t).rdropWhile isBlank ≠ [] := by
      rw [Ne, rdropWhile_eq_nil_iff]
      intro h
      have := h b mem_cons_self
      rw [hb] at this
      exact absurd this (by decide)
    obtain ⟨body, c, hc⟩ := eq_nil_or_concat _ |>.resolve_left hne
    have hlast : isBlank c = false := by
      have := rdropWhile_last_not isBlank (b :: t) hne
      simp only [hc, concat_eq_append, getLast_append_singleton] at this
      simpa using this
    obtain ⟨t', ht'⟩ := rdropWhile_prefix isBlank (b :: t)
    right
    cases hr : (b :: t).rdropWhile isBlank with
    | nil => exact absurd hr hne
    | cons b' t'' =>
      rw [hr] at ht'
      simp only [cons_append, List.cons.injEq] at ht'
      refine ⟨b', c, t'', body, ?_, hlast, rfl, ?_⟩
      · rw [ht'.1]
        exact hb
      · rw [← hr, hc, concat_eq_append]

@[simp] theorem sdstrim_idem : sdstrim (sdstrim line) = sdstrim line := by
  rcases sdstrim_cases line with h | ⟨b, c, t, body, hb, hc, hfirst, hlast⟩
  · rw [h]
    rfl
  · exact sdstrim_eq_self hb hc ⟨t, hfirst⟩ hlast

theorem newline_not_mem_sdstrim {line : Bytes} (h : 10 ∉ line.dropLast) :
    10 ∉ sdstrim line := by
  intro hmem
  rcases sdstrim_cases line with hnil | ⟨b, c, t, body, hb, hc, hfirst, hlast⟩
  · rw [hnil] at hmem
    simp at hmem
  · -- the newline would be the last byte of the line, and so the last one after trimming
    have hsub : sdstrim line <:+: line := by
      have hpre : sdstrim line <+: line.dropWhile isBlank := rdropWhile_prefix isBlank _
      exact hpre.isInfix.trans (dropWhile_suffix isBlank).isInfix
    obtain ⟨u, v, huv⟩ := hsub
    rw [hlast] at hmem
    rcases mem_append.mp hmem with hbody | hlast10
    · apply h
      rw [← huv, hlast]
      cases v with
      | nil =>
        rw [append_nil, ← append_assoc, dropLast_concat]
        exact mem_append_right u hbody
      | cons x v =>
        rw [dropLast_append_of_ne_nil (by simp)]
        exact mem_append_left _ (mem_append_right u (mem_append_left _ hbody))
    · simp only [mem_singleton] at hlast10
      rw [← hlast10, isBlank_newline] at hc
      exact absurd hc (by decide)

/-! ## Reading a file -/

theorem flatten_fgetsLoop (buf bs : Bytes) : (fgetsLoop buf bs).flatten = buf ++ bs := by
  induction bs generalizing buf with
  | nil => cases buf <;> simp [fgetsLoop]
  | cons b bs ih =>
    simp only [fgetsLoop]
    split
    · simp [ih]
    · simp [ih]

/-- A piece has a newline at its end at most. -/
theorem newline_fgetsLoop {buf bs : Bytes} (hbuf : 10 ∉ buf) (h : piece ∈ fgetsLoop buf bs) :
    10 ∉ piece.dropLast := by
  induction bs generalizing buf with
  | nil =>
    cases buf with
    | nil => simp [fgetsLoop] at h
    | cons b buf =>
      simp only [fgetsLoop, mem_singleton] at h
      rw [h]
      exact fun hm => hbuf (dropLast_subset _ hm)
  | cons b bs ih =>
    simp only [fgetsLoop] at h
    split at h
    · rcases mem_cons.mp h with rfl | h
      · rw [dropLast_concat]
        exact hbuf
      · exact ih (by simp) h
    · rename_i hb
      refine ih ?_ h
      simp only [mem_append, mem_singleton, not_or]
      exact ⟨hbuf, fun hb' => hb (.inl hb'.symm)⟩

theorem cstr_eq_self {bs : Bytes} (h : 0 ∉ bs) : cstr bs = bs := by
  rw [cstr, takeWhile_eq_self_iff]
  intro b hb
  rw [decide_eq_true_iff]
  rintro rfl
  exact h hb

theorem zero_not_mem_cstr (bs : Bytes) : 0 ∉ cstr bs := by
  intro h
  have := mem_takeWhile_imp h
  simp at this

theorem clean_sdstrim (h : piece ∈ fgetsLoop [] file) : Clean (sdstrim (cstr piece)) := by
  constructor
  · apply newline_not_mem_sdstrim
    intro hmem
    obtain ⟨t, ht⟩ : cstr piece <+: piece := takeWhile_prefix _
    apply newline_fgetsLoop (by simp) h
    rw [← ht]
    cases t with
    | nil => simpa using hmem
    | cons x t =>
      rw [dropLast_append_of_ne_nil (by simp)]
      exact mem_append_left _ (dropLast_subset _ hmem)
  · exact fun hmem => zero_not_mem_cstr piece (sdstrim_subset _ hmem)

/-- The whole file is read. -/
theorem flatMap_cstr (h : 0 ∉ file) : (fgetsLoop [] file).flatMap cstr = file := by
  have hflat := flatten_fgetsLoop [] file
  have hmap : (fgetsLoop [] file).map cstr = fgetsLoop [] file := by
    conv_rhs => rw [← map_id (fgetsLoop [] file)]
    apply map_congr_left
    intro piece hpiece
    apply cstr_eq_self
    intro h0
    apply h
    rw [nil_append] at hflat
    rw [← hflat]
    exact mem_flatten.mpr ⟨piece, hpiece, h0⟩
  rw [flatMap, hmap, hflat, nil_append]

theorem splitOn_lines {lines : List Bytes} (h : ∀ line ∈ lines, 10 ∉ line) :
    (lines.flatMap fun line => line ++ [10]).splitOn 10 = lines ++ [[]] := by
  induction lines with
  | nil => rfl
  | cons line lines ih =>
    rw [flatMap_cons, append_assoc, singleton_append,
      splitOn_append_cons_self_of_not_mem (h line mem_cons_self),
      ih fun l hl => h l (mem_cons_of_mem _ hl)]
    rfl

end Redis.Config
