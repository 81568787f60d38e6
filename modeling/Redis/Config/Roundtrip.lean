import Mathlib.Data.List.GetD
import Redis.Config.Lines

/-!
# Redis.Config.Roundtrip

The `sentinel` lines of a file that was rewritten are read in the order in which they
were written.
-/

namespace Redis.Config

open Redis.Sds List

/-- The arguments of a `sentinel` line. -/
def sentinelArgs (line : Bytes) : Option (List Bytes) :=
  match kind (sdstrim line) with
  | .directive option args => if option = sentinelOption then some args else none
  | _ => none

/-! ## The places of the `sentinel` lines -/

/-- The places of the `sentinel` lines. -/
def places (lines : List Bytes) : List Nat :=
  (range lines.length).filter fun k => (sentinelArgs (lines.getD k [])).isSome

variable {args texts : List Bytes} {done : List Nat} {k : Nat} {st : RewriteState}
  (lines : List Bytes) (line : Bytes)

theorem mem_places {lines : List Bytes} :
    k ∈ places lines ↔ k < lines.length ∧ (sentinelArgs (lines.getD k [])).isSome = true := by
  simp [places]

theorem nodup_places : (places lines).Nodup :=
  nodup_range.filter _

theorem places_congr {lines lines' : List Bytes} (hlen : lines'.length = lines.length)
    (h : ∀ k < lines.length,
      (sentinelArgs (lines'.getD k [])).isSome = (sentinelArgs (lines.getD k [])).isSome) :
    places lines' = places lines := by
  unfold places
  rw [hlen]
  apply filter_congr
  intro k hk
  exact h k (mem_range.mp hk)

theorem getD_set (k j : Nat) (line : Bytes) :
    (lines.set k line).getD j [] =
      if j = k ∧ k < lines.length then line else lines.getD j [] := by
  rw [getD_eq_getElem?_getD, getD_eq_getElem?_getD, getElem?_set]
  by_cases hjk : k = j
  · subst hjk
    by_cases hk : k < lines.length
    · simp [hk]
    · simp [hk]
  · have hjk' : ¬ j = k := fun h => hjk h.symm
    simp [hjk, hjk']

/-- Replacing a line by one of the same kind. -/
theorem places_set {lines : List Bytes} {line : Bytes}
    (h : (sentinelArgs line).isSome = (sentinelArgs (lines.getD k [])).isSome) :
    places (lines.set k line) = places lines := by
  apply places_congr (length_set ..)
  intro j _
  rw [getD_set]
  split
  · rename_i hj
    rw [hj.1, h]
  · rfl

theorem places_append :
    places (lines ++ [line]) =
      places lines ++ if (sentinelArgs line).isSome then [lines.length] else [] := by
  unfold places
  rw [length_append, length_singleton, range_succ, filter_append]
  congr 1
  · apply filter_congr
    intro k hk
    rw [getD_append _ _ _ _ (mem_range.mp hk)]
  · rw [filter_singleton, getD_append_right _ _ _ _ (le_refl _)]
    simp

theorem filterMap_places :
    lines.filterMap sentinelArgs =
      (places lines).filterMap fun k => sentinelArgs (lines.getD k []) := by
  induction lines using reverseRecOn with
  | nil => rfl
  | append_singleton lines line ih =>
    rw [filterMap_append, ih, places_append, filterMap_append]
    congr 1
    · apply filterMap_congr
      intro k hk
      rw [getD_append _ _ _ _ (mem_places.mp hk).1]
    · cases hline : sentinelArgs line with
      | none => simp [hline]
      | some args =>
        simp [hline]

/-! ## Rewriting keeps the order -/

/-- Some `sentinel` lines are new, the `texts` at the places `done`, and the rest are old
ones, whose places are still to be used. -/
structure Tracks (st : RewriteState) (done : List Nat) (texts : List Bytes) : Prop where
  places : places st.lines = done ++ st.optionToLine sentinelOption
  texts : done.map (fun k => st.lines.getD k []) = texts
  others : ∀ o ≠ sentinelOption, ∀ k ∈ st.optionToLine o,
    k < st.lines.length ∧ sentinelArgs (st.lines.getD k []) = none

theorem Tracks.mem (h : Tracks st done texts) (hk : k ∈ st.optionToLine sentinelOption) :
    k ∈ Config.places st.lines := by
  rw [h.places]
  exact mem_append_right _ hk

/-- What is written stays where it is. -/
theorem Tracks.done_lt (h : Tracks st done texts) (hk : k ∈ done) : k < st.lines.length := by
  have : k ∈ Config.places st.lines := by
    rw [h.places]
    exact mem_append_left _ hk
  exact (mem_places.mp this).1

theorem Tracks.mark (h : Tracks st done texts) (option : Bytes) :
    Tracks (rewriteConfigMarkAsProcessed st option) done texts :=
  ⟨h.places, h.texts, h.others⟩

theorem Tracks.setTail (h : Tracks st done texts) (hasTail : Bool) :
    Tracks { st with hasTail } done texts :=
  ⟨h.places, h.texts, h.others⟩

theorem Tracks.texts_append (h : Tracks st done texts) (line : Bytes) :
    done.map (fun k => (st.lines ++ [line]).getD k []) = texts := by
  rw [← h.texts]
  apply map_congr_left
  intro k hk
  rw [getD_append _ _ _ _ (h.done_lt hk)]

theorem Tracks.others_append (h : Tracks st done texts) (line : Bytes) :
    ∀ o ≠ sentinelOption, ∀ k ∈ st.optionToLine o,
      k < (st.lines ++ [line]).length ∧ sentinelArgs ((st.lines ++ [line]).getD k []) = none := by
  intro o ho k hk
  obtain ⟨hlt, hnone⟩ := h.others o ho k hk
  rw [getD_append _ _ _ _ hlt, length_append]
  exact ⟨by omega, hnone⟩

theorem Tracks.append (h : Tracks st done texts) {line : Bytes} (hline : sentinelArgs line = none) :
    Tracks (rewriteConfigAppendLine st line) done texts where
  places := by
    simp only [rewriteConfigAppendLine, places_append, hline]
    simpa using h.places
  texts := h.texts_append line
  others := h.others_append line

theorem sentinelArgs_of_kind {option : Bytes} (h : kind (sdstrim line) = .directive option args) :
    sentinelArgs line = if option = sentinelOption then some args else none := by
  rw [sentinelArgs, h]

theorem sentinelArgs_comment : sentinelArgs (35 :: line) = none := by
  have htrim : ∃ t, sdstrim (35 :: line) = 35 :: t := by
    rcases sdstrim_cases (35 :: line) with hnil | ⟨b, c, t, body, hb, hc, hfirst, -⟩
    · exfalso
      rw [sdstrim, dropWhile_cons_of_neg (by decide), rdropWhile_eq_nil_iff] at hnil
      have := hnil 35 mem_cons_self
      exact absurd this (by decide)
    · refine ⟨t, ?_⟩
      have hpre : sdstrim (35 :: line) <+: 35 :: line := by
        rw [sdstrim, dropWhile_cons_of_neg (by decide)]
        exact rdropWhile_prefix isBlank _
      rw [hfirst] at hpre ⊢
      obtain ⟨u, hu⟩ := hpre
      simp only [cons_append, List.cons.injEq] at hu
      rw [hu.1]
  obtain ⟨t, ht⟩ := htrim
  simp [sentinelArgs, ht, kind]

theorem sentinelArgs_signature : sentinelArgs REDIS_CONFIG_REWRITE_SIGNATURE = none := by
  have : REDIS_CONFIG_REWRITE_SIGNATURE = 35 :: str " Generated by CONFIG REWRITE" := by decide
  rw [this, sentinelArgs_comment]

theorem Tracks.readOldLine (h : Tracks st [] []) (buf : Bytes) :
    Tracks (readOldLine st buf) [] [] := by
  unfold Config.readOldLine
  dsimp only
  split
  · rename_i hk
    apply (h.setTail _).append
    rw [sentinelArgs, sdstrim_idem, hk]
  · exact h.append (sentinelArgs_comment _)
  · rename_i option args hk
    have hargs := sentinelArgs_of_kind (sdstrim (cstr buf)) (by rw [sdstrim_idem, hk])
    by_cases ho : option = sentinelOption
    · rw [if_pos ho] at hargs
      subst ho
      refine ⟨?_, rfl, ?_⟩
      · simp only [rewriteConfigAddLineNumberToOption, rewriteConfigAppendLine, places_append,
          hargs, h.places, Function.update_self]
        simp
      · intro o ho k hk
        simp only [rewriteConfigAddLineNumberToOption, rewriteConfigAppendLine,
          Function.update_of_ne ho] at hk ⊢
        exact h.others_append _ o ho k hk
    · rw [if_neg ho] at hargs
      refine ⟨?_, rfl, ?_⟩
      · have hplaces := (h.append hargs).places
        simp only [rewriteConfigAddLineNumberToOption, rewriteConfigAppendLine] at hplaces ⊢
        rw [Function.update_of_ne (Ne.symm ho), hplaces]
      · intro o ho' k hk
        simp only [rewriteConfigAddLineNumberToOption, rewriteConfigAppendLine,
          Function.update_apply] at hk ⊢
        split at hk
        · rename_i hoo
          subst hoo
          rcases mem_append.mp hk with hk | hk
          · exact h.others_append _ o ho' k hk
          · simp only [mem_singleton] at hk
            subst hk
            rw [getD_append_right _ _ _ _ (le_refl _)]
            simpa using hargs
        · exact h.others_append _ o ho' k hk

theorem tracks_readOldFile (file : Bytes) : Tracks (rewriteConfigReadOldFile file) [] [] := by
  unfold rewriteConfigReadOldFile
  have hinit : Tracks ⟨[], fun _ => [], [], false⟩ [] [] := ⟨rfl, rfl, by simp⟩
  generalize (⟨[], fun _ => [], [], false⟩ : RewriteState) = st at hinit
  induction fgetsLoop [] file generalizing st with
  | nil => exact hinit
  | cons buf bufs ih => exact ih _ (hinit.readOldLine buf)

variable {l : List Nat} (ks : List Nat) (wasEmpty : Bool)

/-- Replacing a line that is not for Sentinel by another such line. -/
theorem Tracks.set_other (h : Tracks st done texts) {option line : Bytes}
    (ho : option ≠ sentinelOption) (hline : sentinelArgs line = none)
    (hk : st.optionToLine option = k :: l) :
    Tracks { st with
      lines := st.lines.set k line
      optionToLine := Function.update st.optionToLine option l } done texts := by
  have hnone := h.others option ho k (by rw [hk]; exact mem_cons_self)
  have hget : ∀ j, sentinelArgs (st.lines.getD j []) = none →
      sentinelArgs ((st.lines.set k line).getD j []) = none := by
    intro j hj
    rw [getD_set]
    split
    · exact hline
    · exact hj
  constructor
  · simp only [Function.update_of_ne (Ne.symm ho)]
    rw [places_set (by rw [hline, hnone.2]), h.places]
  · rw [← h.texts]
    apply map_congr_left
    intro j hj
    rw [getD_set, if_neg]
    -- a place in use holds a `sentinel` line, and this one does not
    rintro ⟨rfl, -⟩
    have : j ∈ Config.places st.lines := by
      rw [h.places]
      exact mem_append_left _ hj
    have hsome := (mem_places.mp this).2
    rw [hnone.2] at hsome
    simp at hsome
  · intro o ho' j hj
    simp only [length_set]
    simp only [Function.update_apply] at hj
    split at hj
    · rename_i hoo
      subst hoo
      have := h.others o ho' j (by rw [hk]; exact mem_cons_of_mem _ hj)
      exact ⟨this.1, hget j this.2⟩
    · have := h.others o ho' j hj
      exact ⟨this.1, hget j this.2⟩

/-- A new `sentinel` line in the place of the first old one that is left. -/
theorem Tracks.set_sentinel (h : Tracks st done texts) {line : Bytes}
    (hline : sentinelArgs line = some args) (hk : st.optionToLine sentinelOption = k :: l) :
    Tracks { st with
      lines := st.lines.set k line
      optionToLine := Function.update st.optionToLine sentinelOption l } (done ++ [k])
      (texts ++ [line]) := by
  have hmem := h.mem (show k ∈ st.optionToLine sentinelOption by rw [hk]; exact mem_cons_self)
  obtain ⟨hlt, hsome⟩ := mem_places.mp hmem
  have hfresh : k ∉ done := by
    intro hd
    have hnodup := nodup_places st.lines
    rw [h.places, hk] at hnodup
    exact (disjoint_of_nodup_append hnodup) hd mem_cons_self
  constructor
  · simp only [Function.update_self]
    rw [places_set (by rw [hline, hsome]; rfl), h.places, hk, append_assoc]
    rfl
  · rw [map_append, ← h.texts]
    congr 1
    · apply map_congr_left
      intro j hj
      rw [getD_set, if_neg]
      rintro ⟨rfl, -⟩
      exact hfresh hj
    · simp [hlt]
  · intro o ho j hj
    simp only [Function.update_of_ne ho] at hj
    obtain ⟨hjlt, hnone⟩ := h.others o ho j hj
    simp only [length_set]
    refine ⟨hjlt, ?_⟩
    rw [getD_set, if_neg]
    · exact hnone
    · rintro ⟨rfl, -⟩
      rw [hnone] at hsome
      simp at hsome

theorem Tracks.append_sentinel (h : Tracks st done texts) {line : Bytes}
    (hline : sentinelArgs line = some args) (hk : st.optionToLine sentinelOption = []) :
    Tracks (rewriteConfigAppendLine st line) (done ++ [st.lines.length]) (texts ++ [line]) where
  places := by
    simp only [rewriteConfigAppendLine, places_append, hline, h.places, hk]
    simp
  texts := by
    rw [map_append]
    congr 1
    · exact h.texts_append line
    · simp [rewriteConfigAppendLine]
  others := h.others_append line

/-- The call by which another option is rewritten. -/
def Rewrite.Foreign (P : Bytes → Prop) : Rewrite → Prop
  | .line opt text _ => opt ≠ sentinelOption ∧ sentinelArgs text = none ∧ P text
  | .processed opt => opt ≠ sentinelOption

theorem Tracks.foreign (h : Tracks st done texts) {P : Bytes → Prop} {c : Rewrite}
    (hc : c.Foreign P) : Tracks (c.apply st) done texts := by
  cases c with
  | processed opt => exact h.mark opt
  | line opt text force =>
    obtain ⟨ho, htext, -⟩ := hc
    have h' := h.mark opt
    simp only [Rewrite.apply, rewriteConfigRewriteLine]
    split
    · split
      · split
        · exact h'.append htext
        · exact ((h'.append sentinelArgs_signature).setTail true).append htext
      · exact h'
    · rename_i k l hk
      exact h'.set_other ho htext hk

theorem Tracks.sentinel (h : Tracks st done texts) {line : Bytes}
    (hline : sentinelArgs line = some args) :
    ∃ k, Tracks (rewriteConfigRewriteLine st sentinelOption line true) (done ++ [k])
      (texts ++ [line]) := by
  have h' := h.mark sentinelOption
  simp only [rewriteConfigRewriteLine]
  split
  · rename_i hk
    rw [if_pos trivial]
    split
    · exact ⟨_, h'.append_sentinel hline hk⟩
    · exact ⟨_, ((h'.append sentinelArgs_signature).setTail true).append_sentinel hline hk⟩
  · rename_i k l hk
    exact ⟨k, h'.set_sentinel hline hk⟩

/-- The calls that write the `sentinel` lines. -/
def sentinelCalls (texts : List Bytes) : List Rewrite :=
  texts.map fun text => .line sentinelOption text true

theorem Tracks.foreigns (h : Tracks st done texts) {P : Bytes → Prop} {others : List Rewrite}
    (hothers : ∀ c ∈ others, c.Foreign P) : Tracks (others.foldl Rewrite.apply st) done texts := by
  induction others generalizing st with
  | nil => exact h
  | cons c others ih =>
    exact ih (h.foreign (hothers c mem_cons_self))
      fun c' hc' => hothers c' (mem_cons_of_mem _ hc')

theorem Tracks.sentinels {new : List Bytes} (h : Tracks st done texts)
    (hnew : ∀ text ∈ new, (sentinelArgs text).isSome = true) :
    ∃ done', Tracks ((sentinelCalls new).foldl Rewrite.apply st) done' (texts ++ new) := by
  induction new generalizing st done texts with
  | nil => exact ⟨done, by simpa [sentinelCalls] using h⟩
  | cons text new ih =>
    obtain ⟨args, hargs⟩ := Option.isSome_iff_exists.mp (hnew text mem_cons_self)
    obtain ⟨k, hk⟩ := h.sentinel hargs
    obtain ⟨done', hdone⟩ := ih hk fun t ht => hnew t (mem_cons_of_mem _ ht)
    refine ⟨done', ?_⟩
    rw [append_assoc] at hdone
    exact hdone

theorem mem_rewritten_mark (st : RewriteState) (option : Bytes) :
    option ∈ (rewriteConfigMarkAsProcessed st option).rewritten ∧
      st.rewritten ⊆ (rewriteConfigMarkAsProcessed st option).rewritten := by
  unfold rewriteConfigMarkAsProcessed
  split
  · rename_i h
    exact ⟨h, Subset.refl _⟩
  · exact ⟨mem_cons_self, subset_cons_self _ _⟩

theorem rewritten_rewriteLine (st : RewriteState) (option line : Bytes) (force : Bool) :
    (rewriteConfigRewriteLine st option line force).rewritten =
      (rewriteConfigMarkAsProcessed st option).rewritten := by
  simp only [rewriteConfigRewriteLine]
  split
  · split
    · split <;> rfl
    · rfl
  · rfl

theorem rewritten_apply (st : RewriteState) (c : Rewrite) :
    (c.apply st).rewritten = (rewriteConfigMarkAsProcessed st c.option).rewritten := by
  cases c with
  | processed opt => rfl
  | line opt text force => exact rewritten_rewriteLine st opt text force

/-- An option that was written is marked. -/
theorem mem_rewritten {calls : List Rewrite} {o : Bytes}
    (h : o ∈ st.rewritten ∨ ∃ c ∈ calls, c.option = o) :
    o ∈ (calls.foldl Rewrite.apply st).rewritten := by
  induction calls generalizing st with
  | nil => simpa using h
  | cons c calls ih =>
    apply ih
    rw [rewritten_apply]
    have hmark := mem_rewritten_mark st c.option
    rcases h with h | ⟨c', hc', rfl⟩
    · exact .inl (hmark.2 h)
    · rcases mem_cons.mp hc' with rfl | hc'
      · exact .inl hmark.1
      · exact .inr ⟨c', hc', rfl⟩

theorem getD_foldl_set (lines : List Bytes) (j : Nat) :
    (ks.foldl (fun lines k => lines.set k []) lines).getD j [] =
      if j ∈ ks then [] else lines.getD j [] := by
  induction ks generalizing lines with
  | nil => simp
  | cons k ks ih =>
    rw [foldl_cons, ih, getD_set]
    by_cases hj : j ∈ ks
    · simp [hj]
    · by_cases hjk : j = k
      · subst hjk
        by_cases hlt : j < lines.length
        · simp [hlt]
        · simp [hlt]
      · simp [hj, hjk]

theorem length_foldl_set (lines : List Bytes) :
    (ks.foldl (fun lines k => lines.set k []) lines).length = lines.length := by
  induction ks generalizing lines with
  | nil => rfl
  | cons k ks ih => rw [foldl_cons, ih, length_set]

theorem sentinelArgs_nil : sentinelArgs [] = none := by decide

/-- Old `sentinel` lines that are left are blanked, and nothing else is of Sentinel. -/
theorem Tracks.removeOrphaned (h : Tracks st done texts) (hmark : sentinelOption ∈ st.rewritten) :
    (rewriteConfigRemoveOrphaned st).lines.filterMap sentinelArgs =
      texts.filterMap sentinelArgs := by
  set ks := st.rewritten.flatMap st.optionToLine with hks
  have hnodup := nodup_places st.lines
  rw [h.places] at hnodup
  -- a place that is blanked is one of an old line
  have hdone : ∀ k ∈ done, k ∉ ks := by
    intro k hk hmem
    obtain ⟨o, -, ho⟩ := mem_flatMap.mp hmem
    by_cases hs : o = sentinelOption
    · subst hs
      exact (disjoint_of_nodup_append hnodup) hk ho
    · have hmem : k ∈ Config.places st.lines := by
        rw [h.places]
        exact mem_append_left _ hk
      have hsome := (mem_places.mp hmem).2
      rw [(h.others o hs k ho).2] at hsome
      simp at hsome
  have hleft : ∀ k ∈ st.optionToLine sentinelOption, k ∈ ks := fun k hk =>
    mem_flatMap.mpr ⟨sentinelOption, hmark, hk⟩
  have hplaces : Config.places (rewriteConfigRemoveOrphaned st).lines = done := by
    have hfilter : Config.places (rewriteConfigRemoveOrphaned st).lines =
        (Config.places st.lines).filter (· ∉ ks) := by
      simp only [Config.places, rewriteConfigRemoveOrphaned, length_foldl_set, filter_filter]
      apply filter_congr
      intro k _
      rw [getD_foldl_set]
      by_cases hk : k ∈ ks
      · rw [if_pos (by rw [← hks]; exact hk), sentinelArgs_nil]
        simp [hk]
      · rw [if_neg (by rw [← hks]; exact hk)]
        simp [hk]
    rw [hfilter, h.places, filter_append, filter_eq_self.mpr (by simpa using hdone),
      filter_eq_nil_iff.mpr (by simpa using hleft), append_nil]
  rw [filterMap_places, hplaces, ← h.texts, filterMap_map]
  apply filterMap_congr
  intro k hk
  simp only [rewriteConfigRemoveOrphaned, getD_foldl_set, ← hks, if_neg (hdone k hk),
    Function.comp_apply]

/-! ## What else the file holds -/

/-- The line that is kept of a line of the old file. -/
def oldText (buf : Bytes) : Bytes :=
  let line := sdstrim (cstr buf)
  match kind line with
  | .unbalanced => str "# ??? " ++ line
  | _ => line

theorem lines_readOldLine (st : RewriteState) (buf : Bytes) :
    (readOldLine st buf).lines = st.lines ++ [oldText buf] := by
  unfold readOldLine oldText
  dsimp only
  cases kind (sdstrim (cstr buf)) <;> rfl

theorem lines_readOldFile (file : Bytes) :
    (rewriteConfigReadOldFile file).lines = (fgetsLoop [] file).map oldText := by
  have hfold : ∀ (bufs : List Bytes) (st : RewriteState),
      (bufs.foldl readOldLine st).lines = st.lines ++ bufs.map oldText := by
    intro bufs
    induction bufs with
    | nil => simp
    | cons buf bufs ih =>
      intro st
      rw [foldl_cons, ih, lines_readOldLine, map_cons, append_assoc,
        singleton_append]
  rw [rewriteConfigReadOldFile, hfold, nil_append]

section Every

variable {P : Bytes → Prop}

theorem every_append {st : RewriteState} (h : ∀ l ∈ st.lines, P l) {line : Bytes}
    (hline : P line) : ∀ l ∈ (rewriteConfigAppendLine st line).lines, P l := by
  intro l hl
  rcases mem_append.mp hl with hl | hl
  · exact h l hl
  · rw [mem_singleton.mp hl]
    exact hline

/-- What holds of all lines and of a new one holds of all lines then. -/
theorem every_rewriteLine {st : RewriteState} (h : ∀ l ∈ st.lines, P l)
    (hsig : P REDIS_CONFIG_REWRITE_SIGNATURE) {option line : Bytes} (hline : P line)
    (force : Bool) : ∀ l ∈ (rewriteConfigRewriteLine st option line force).lines, P l := by
  simp only [rewriteConfigRewriteLine]
  split
  · split
    · split
      · exact every_append h hline
      · exact every_append (every_append h hsig) hline
    · exact h
  · intro l hl
    rcases mem_or_eq_of_mem_set hl with hl | rfl
    · exact h l hl
    · exact hline

theorem every_calls {st : RewriteState} {calls : List Rewrite} (h : ∀ l ∈ st.lines, P l)
    (hsig : P REDIS_CONFIG_REWRITE_SIGNATURE)
    (hcalls : ∀ opt text force, Rewrite.line opt text force ∈ calls → P text) :
    ∀ l ∈ (calls.foldl Rewrite.apply st).lines, P l := by
  induction calls generalizing st with
  | nil => exact h
  | cons c calls ih =>
    refine ih ?_ fun opt text force hm => hcalls opt text force (mem_cons_of_mem _ hm)
    cases c with
    | processed opt => exact h
    | line opt text force =>
      exact every_rewriteLine h hsig (hcalls opt text force mem_cons_self) force

theorem every_removeOrphaned {st : RewriteState} (h : ∀ l ∈ st.lines, P l) (hnil : P []) :
    ∀ l ∈ (rewriteConfigRemoveOrphaned st).lines, P l := by
  have hfold : ∀ (ks : List Nat) (lines : List Bytes), (∀ l ∈ lines, P l) →
      ∀ l ∈ ks.foldl (fun lines k => lines.set k []) lines, P l := by
    intro ks
    induction ks with
    | nil => exact fun _ h => h
    | cons k ks ih =>
      intro lines h
      apply ih
      intro l hl
      rcases mem_or_eq_of_mem_set hl with hl | rfl
      · exact h l hl
      · exact hnil
  exact hfold _ _ h

end Every

theorem squeeze_subset (lines : List Bytes) : squeeze wasEmpty lines ⊆ lines := by
  induction lines generalizing wasEmpty with
  | nil => simp [squeeze]
  | cons line lines ih =>
    cases line with
    | nil =>
      simp only [squeeze]
      split
      · exact subset_cons_of_subset _ (ih true)
      · exact cons_subset_cons _ (ih true)
    | cons b line => exact cons_subset_cons _ (ih false)

/-- The empty lines that go are nothing to Sentinel. -/
theorem filterMap_squeeze (lines : List Bytes) :
    (squeeze wasEmpty lines).filterMap sentinelArgs = lines.filterMap sentinelArgs := by
  induction lines generalizing wasEmpty with
  | nil => rfl
  | cons line lines ih =>
    cases line with
    | nil =>
      simp only [squeeze, filterMap_cons_none sentinelArgs_nil]
      split
      · exact ih true
      · rw [filterMap_cons_none sentinelArgs_nil, ih true]
    | cons b line =>
      simp only [squeeze, filterMap_cons, ih false]

/-! ## Loading what was written -/

section Load

variable {σ : Type} {directive : Bytes → List Bytes → Option String}
  {sentinel : σ → List Bytes → Except String σ}

/-- What a `sentinel` line does, whose first argument may be missing. -/
def handle (sentinel : σ → List Bytes → Except String σ) (st : σ) :
    List Bytes → Except String σ
  | [] => .ok st
  | args => sentinel st args

theorem loadLine_sentinel {st : σ} {line : Bytes} {args : List Bytes}
    (h : sentinelArgs line = some args) :
    loadLine directive sentinel st line = handle sentinel st args := by
  unfold sentinelArgs at h
  unfold loadLine
  split at h
  · rename_i option args' hk
    split at h
    · rename_i ho
      obtain rfl := Option.some.inj h
      rw [hk]
      simp only [ho, if_true]
      cases args' <;> rfl
    · simp at h
  · simp at h

variable {file : Bytes} {others : List Rewrite} {st' : σ}

/-- A line that is not for Sentinel is an error or nothing. -/
theorem loadLine_other {st : σ} {line : Bytes} (h : sentinelArgs line = none)
    (hload : loadLine directive sentinel st line = .ok st') : st' = st := by
  unfold sentinelArgs at h
  unfold loadLine at hload
  cases hk : kind (sdstrim line) with
  | comment =>
    simp only [hk, Except.ok.injEq] at hload
    exact hload.symm
  | unbalanced => simp [hk] at hload
  | directive option args =>
    simp only [hk] at h hload
    split at h
    · simp at h
    · rename_i ho
      rw [if_neg ho] at hload
      split at hload
      · simp at hload
      · simp only [Except.ok.injEq] at hload
        exact hload.symm

/-- Loading is the handling of the `sentinel` lines in order, if it succeeds. -/
theorem foldlM_loadLine {lines : List Bytes} {st : σ}
    (h : lines.foldlM (loadLine directive sentinel) st = .ok st') :
    (lines.filterMap sentinelArgs).foldlM (handle sentinel) st = .ok st' := by
  induction lines generalizing st with
  | nil => exact h
  | cons line lines ih =>
    rw [foldlM_cons] at h
    cases hl : loadLine directive sentinel st line with
    | error e =>
      rw [hl] at h
      cases h
    | ok st₁ =>
      rw [hl] at h
      cases ha : sentinelArgs line with
      | none =>
        rw [filterMap_cons_none ha]
        rw [loadLine_other ha hl] at h
        exact ih h
      | some args =>
        rw [loadLine_sentinel ha] at hl
        rw [filterMap_cons_some ha, foldlM_cons, hl]
        exact ih h

/-- The lines of a file that was rewritten: the `sentinel` lines are those that were
written, in order, and what holds of the rest of the old file and of the other new lines
holds of all lines. -/
theorem lines_rewriteConfig (file : Bytes) {texts : List Bytes} {P : Bytes → Prop}
    (hothers : ∀ c ∈ others, c.Foreign P)
    (htexts : ∀ text ∈ texts, P text ∧ (sentinelArgs text).isSome = true) (hne : texts ≠ [])
    (hold : ∀ buf ∈ fgetsLoop [] file, P (oldText buf)) (hnil : P [])
    (hsig : P REDIS_CONFIG_REWRITE_SIGNATURE) :
    ∃ lines : List Bytes,
      rewriteConfig file (others ++ sentinelCalls texts) = lines.flatMap (fun l => l ++ [10]) ∧
      lines.filterMap sentinelArgs = texts.filterMap sentinelArgs ∧ ∀ l ∈ lines, P l := by
  refine ⟨_, rfl, ?_, ?_⟩
  · rw [filterMap_squeeze, foldl_append]
    obtain ⟨done, hdone⟩ := ((tracks_readOldFile file).foreigns hothers).sentinels
      fun t ht => (htexts t ht).2
    apply hdone.removeOrphaned
    obtain ⟨text, htext⟩ := exists_mem_of_ne_nil texts hne
    exact mem_rewritten (.inr ⟨_, mem_map_of_mem htext, rfl⟩)
  · intro l hl
    refine every_removeOrphaned ?_ hnil l (squeeze_subset _ _ hl)
    apply every_calls _ hsig
    · intro opt text force hm
      rcases mem_append.mp hm with hm | hm
      · exact (hothers _ hm).2.2
      · obtain ⟨t, ht, heq⟩ := mem_map.mp hm
        simp only [Rewrite.line.injEq] at heq
        rw [← heq.2.1]
        exact (htexts t ht).1
    · intro l hl
      rw [lines_readOldFile] at hl
      obtain ⟨buf, hbuf, rfl⟩ := mem_map.mp hl
      exact hold buf hbuf

theorem clean_oldText {buf : Bytes} (h : buf ∈ fgetsLoop [] file) : Clean (oldText buf) := by
  have hclean := clean_sdstrim h
  unfold oldText
  dsimp only
  split
  · have hpre : Clean (str "# ??? ") := by
      constructor <;> decide
    simp only [Clean, mem_append, not_or] at hclean hpre ⊢
    exact ⟨⟨hpre.1, hclean.1⟩, hpre.2, hclean.2⟩
  · exact hclean

theorem clean_signature : Clean REDIS_CONFIG_REWRITE_SIGNATURE := by
  constructor <;> decide

/-- Clean lines are what the loader sees. -/
theorem loadServerConfig_lines {lines : List Bytes} (h : ∀ l ∈ lines, Clean l) (st : σ) :
    loadServerConfig directive sentinel (lines.flatMap fun l => l ++ [10]) st =
      (lines ++ [[]]).foldlM (loadLine directive sentinel) st := by
  have h0 : 0 ∉ lines.flatMap fun l => l ++ [10] := by
    intro hmem
    obtain ⟨l, hl, hmem⟩ := mem_flatMap.mp hmem
    rcases mem_append.mp hmem with hmem | hmem
    · exact (h l hl).2 hmem
    · simp at hmem
  rw [loadServerConfig, flatMap_cstr h0, loadServerConfigFromString, cstr_eq_self h0,
    splitOn_lines fun l hl => (h l hl).1]

theorem filterMap_append_nil (lines : List Bytes) :
    (lines ++ [[]]).filterMap sentinelArgs = lines.filterMap sentinelArgs := by
  rw [filterMap_append, filterMap_cons_none sentinelArgs_nil, filterMap_nil,
    append_nil]

/-- A file that was rewritten is refused, or has the effect of its new `sentinel` lines. -/
theorem load_rewriteConfig {texts : List Bytes} (hothers : ∀ c ∈ others, c.Foreign Clean)
    (htexts : ∀ text ∈ texts, Clean text ∧ (sentinelArgs text).isSome = true) (hne : texts ≠ [])
    {st : σ} (hload : loadServerConfig directive sentinel
      (rewriteConfig file (others ++ sentinelCalls texts)) st = .ok st') :
    (texts.filterMap sentinelArgs).foldlM (handle sentinel) st = .ok st' := by
  obtain ⟨lines, heq, hargs, hclean⟩ := lines_rewriteConfig file hothers htexts hne
    (fun _ hbuf => clean_oldText hbuf) ⟨by simp, by simp⟩ clean_signature
  rw [heq, loadServerConfig_lines hclean] at hload
  have := foldlM_loadLine hload
  rwa [filterMap_append_nil, hargs] at this

end Load

end Redis.Config
