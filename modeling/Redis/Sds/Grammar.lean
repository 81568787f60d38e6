import Redis.Sds.Words

/-!
# Redis.Sds.Grammar

The lines that `sdssplitargs` refuses.  What a line looks like is a grammar of its own here: plain
bytes, a quoted part that may end an argument, and what separates two arguments.
-/

namespace Redis.Sds

open List

variable {b x c q : UInt8} {p body rest line : Bytes}

/-! ## The grammar -/

/-- What ends an argument without quotes. -/
def separator (b : UInt8) : Bool := b == 32 || b == 10 || b == 13 || b == 9

/-- The part of an argument outside of quotes. -/
structure Bare (w : Bytes) : Prop where
  bytes : ∀ b ∈ w, separator b = false ∧ b ≠ 34 ∧ b ≠ 39
  first : ∀ b ∈ w.head?, isspace b = false

/-- What may stand between double quotes; a backslash belongs to the byte behind it. -/
inductive DoubleBody : Bytes → Prop
  | nil : DoubleBody []
  | byte {b : UInt8} {body : Bytes} : b ≠ 34 → b ≠ 92 → DoubleBody body → DoubleBody (b :: body)
  | escape {c : UInt8} {body : Bytes} : DoubleBody body → DoubleBody (92 :: c :: body)

/-- What may stand between single quotes; a backslash belongs to a quote behind it only. -/
inductive SingleBody : Bytes → Prop
  | nil : SingleBody []
  | byte {b : UInt8} {body : Bytes} : b ≠ 39 → b ≠ 92 → SingleBody body → SingleBody (b :: body)
  | backslash {c : UInt8} {body : Bytes} : c ≠ 39 → SingleBody (c :: body) →
      SingleBody (92 :: c :: body)
  | quote {body : Bytes} : SingleBody body → SingleBody (92 :: 39 :: body)

/-- What may stand between two quotes `q`. -/
def Body (q : UInt8) (body : Bytes) : Prop :=
  q = 34 ∧ DoubleBody body ∨ q = 39 ∧ SingleBody body

def Unterminated (q : UInt8) (p : Bytes) : Prop := ¬ ∃ body rest, Body q body ∧ p = body ++ q :: rest

/-- A quote is closed, and something other than a space follows. -/
def ClosedBefore (q : UInt8) (p : Bytes) : Prop :=
  ∃ body b rest, Body q body ∧ p = body ++ q :: b :: rest ∧ isspace b = false

/-- Some quoted argument of the line is unterminated, or a byte that is not a space follows its
closing quote; the arguments before it are complete. -/
inductive BadQuotes : Bytes → Prop
  | here {w : Bytes} {q : UInt8} {p : Bytes} : Bare w → (q = 34 ∨ q = 39) →
      Unterminated q p ∨ ClosedBefore q p → BadQuotes (w ++ q :: p)
  | blank {b : UInt8} {p : Bytes} : isspace b = true → BadQuotes p → BadQuotes (b :: p)
  | bare {w : Bytes} {b : UInt8} {p : Bytes} : Bare w → w ≠ [] → separator b = true →
      BadQuotes p → BadQuotes (w ++ b :: p)
  | quoted {w : Bytes} {q : UInt8} {body p : Bytes} : Bare w → Body q body →
      closes p = true → BadQuotes p → BadQuotes (w ++ q :: (body ++ q :: p))

/-! ## Quotes -/

theorem hexDigit_eq_some (h : hexDigit b = some x) : b ≠ 34 ∧ b ≠ 92 := by
  refine ⟨?_, ?_⟩
  · rintro rfl
    cases h
  · rintro rfl
    cases h

theorem hexByte_eq_some {d e : UInt8} (h : hexByte c d e = some x) :
    c = 120 ∧ (d ≠ 34 ∧ d ≠ 92) ∧ e ≠ 34 ∧ e ≠ 92 := by
  rw [hexByte] at h
  split at h
  · rename_i hc
    obtain ⟨hi, hhi, h⟩ := Option.bind_eq_some_iff.mp h
    obtain ⟨lo, hlo, -⟩ := Option.bind_eq_some_iff.mp h
    exact ⟨hc, hexDigit_eq_some hhi, hexDigit_eq_some hlo⟩
  · cases h

theorem splitToken_hexByte {d e : UInt8} (h : hexByte c d e = some x) (current p : Bytes) :
    splitToken .double current (92 :: c :: d :: e :: p) = splitToken .double (current ++ [x]) p := by
  simp [splitToken, h]

/-- A backslash that is not before two digits takes one byte. -/
theorem splitToken_letter (h : ∀ d e p', p = d :: e :: p' → hexByte c d e = none)
    (current : Bytes) :
    splitToken .double current (92 :: c :: p) = splitToken .double (current ++ [unescape c]) p := by
  match p, h with
  | [], _ => simp [splitToken]
  | [d], _ => simp [splitToken]
  | d :: e :: p, h => simp [splitToken, h d e p rfl]

variable (current : Bytes) (n turns : Nat)

theorem splitToken_close (rest : Bytes) :
    splitToken .double current (34 :: rest) = if closes rest then some (current, rest) else none := by
  rw [splitToken.eq_def]
  simp

/-- A byte inside double quotes that is not special is one of the text. -/
theorem doubleBody_cons (h : DoubleBody body) (h34 : b ≠ 34) (h92 : b ≠ 92)
    (heq : body ++ 34 :: rest = b :: p) : ∃ body', body = b :: body' ∧ DoubleBody body' := by
  cases h with
  | nil => exact absurd (List.cons.inj heq).1.symm h34
  | @byte b' body' _ _ hbody =>
    obtain rfl := (List.cons.inj heq).1
    exact ⟨body', rfl, hbody⟩
  | escape => exact absurd (List.cons.inj heq).1.symm h92

/-- A double quote is closed where the grammar says; the token does not depend on what follows. -/
theorem splitToken_double : ∀ {body : Bytes}, body.length ≤ n → DoubleBody body →
    ∀ current, ∃ w, ∀ rest, splitToken .double current (body ++ 34 :: rest) =
      if closes rest then some (w, rest) else none := by
  induction n with
  | zero =>
    intro body hn _ current
    rw [length_eq_zero_iff.mp (Nat.le_zero.mp hn)]
    exact ⟨current, splitToken_close current⟩
  | succ n ih =>
    intro body hn hbody current
    cases hbody with
    | nil => exact ⟨current, splitToken_close current⟩
    | @byte b body h34 h92 hbody =>
      obtain ⟨w, hw⟩ := ih (Nat.le_of_succ_le_succ hn) hbody (current ++ [b])
      exact ⟨w, fun rest => by rw [cons_append, splitToken_printable h92 h34, hw]⟩
    | @escape c body hbody =>
      rw [length_cons, length_cons] at hn
      by_cases hex : ∃ d e body' x, body = d :: e :: body' ∧ hexByte c d e = some x
      · obtain ⟨d, e, body', x, rfl, hx⟩ := hex
        obtain ⟨-, ⟨hd, hd'⟩, he, he'⟩ := hexByte_eq_some hx
        have hfirst : d :: e :: body' ++ [34] = d :: (e :: body' ++ [34]) := rfl
        have hsecond : e :: body' ++ [34] = e :: (body' ++ [34]) := rfl
        obtain ⟨_, ⟨⟩, hbody₁⟩ := doubleBody_cons hbody hd hd' hfirst
        obtain ⟨_, ⟨⟩, hbody₂⟩ := doubleBody_cons hbody₁ he he' hsecond
        rw [length_cons, length_cons] at hn
        obtain ⟨w, hw⟩ := ih (by omega) hbody₂ (current ++ [x])
        refine ⟨w, fun rest => ?_⟩
        rw [cons_append, cons_append, cons_append, cons_append,
          splitToken_hexByte hx, hw]
      · obtain ⟨w, hw⟩ := ih (by omega) hbody (current ++ [unescape c])
        refine ⟨w, fun rest => ?_⟩
        rw [cons_append, cons_append, splitToken_letter, hw]
        -- digits behind the backslash would be bytes of the text
        intro d e p heq
        by_contra hsome
        obtain ⟨x, hx⟩ := Option.ne_none_iff_exists'.mp hsome
        obtain ⟨-, ⟨hd, hd'⟩, he, he'⟩ := hexByte_eq_some hx
        obtain ⟨body₁, rfl, hbody₁⟩ := doubleBody_cons hbody hd hd' heq
        have heq₁ : body₁ ++ 34 :: rest = e :: p := (List.cons.inj heq).2
        obtain ⟨body₂, rfl, -⟩ := doubleBody_cons hbody₁ he he' heq₁
        exact hex ⟨d, e, body₂, x, rfl, hx⟩

theorem doubleBody_of_splitToken : ∀ {current p w rest : Bytes}, p.length ≤ n →
    splitToken .double current p = some (w, rest) →
    ∃ body, DoubleBody body ∧ p = body ++ 34 :: rest ∧ closes rest = true := by
  induction n with
  | zero =>
    intro current p w rest hn h
    rw [length_eq_zero_iff.mp (Nat.le_zero.mp hn), splitToken] at h
    cases h
  | succ n ih =>
    intro current p w rest hn h
    cases p with
    | nil =>
      rw [splitToken] at h
      cases h
    | cons b p =>
      rw [length_cons] at hn
      by_cases h34 : b = 34
      · subst h34
        rw [splitToken_close] at h
        split at h
        · rename_i hcloses
          obtain ⟨-, rfl⟩ := Prod.mk.inj (Option.some.inj h)
          exact ⟨[], .nil, rfl, hcloses⟩
        · cases h
      by_cases h92 : b = 92
      · subst h92
        cases p with
        | nil =>
          simp [splitToken] at h
        | cons c p =>
          rw [length_cons] at hn
          by_cases hex : ∃ d e p' x, p = d :: e :: p' ∧ hexByte c d e = some x
          · obtain ⟨d, e, p', x, rfl, hx⟩ := hex
            obtain ⟨-, ⟨hd, hd'⟩, he, he'⟩ := hexByte_eq_some hx
            rw [splitToken_hexByte hx] at h
            rw [length_cons, length_cons] at hn
            obtain ⟨body, hbody, rfl, hcloses⟩ := ih (by omega) h
            exact ⟨_, .escape (.byte hd hd' (.byte he he' hbody)), rfl, hcloses⟩
          · rw [splitToken_letter] at h
            · obtain ⟨body, hbody, rfl, hcloses⟩ := ih (by omega) h
              exact ⟨_, .escape hbody, rfl, hcloses⟩
            · intro d e p' heq
              by_contra hsome
              obtain ⟨x, hx⟩ := Option.ne_none_iff_exists'.mp hsome
              exact hex ⟨d, e, p', x, heq, hx⟩
      · rw [splitToken_printable h92 h34] at h
        obtain ⟨body, hbody, rfl, hcloses⟩ := ih (by omega) h
        exact ⟨_, .byte h34 h92 hbody, rfl, hcloses⟩

/-! ### Single quotes -/

theorem splitToken_single_close (rest : Bytes) :
    splitToken .single current (39 :: rest) = if closes rest then some (current, rest) else none := by
  rw [splitToken.eq_def]
  simp

theorem splitToken_single_quote (p : Bytes) :
    splitToken .single current (92 :: 39 :: p) = splitToken .single (current ++ [39]) p := by
  rw [splitToken.eq_def]
  simp

theorem splitToken_single_byte (h39 : b ≠ 39) (h : b = 92 → p.head? ≠ some 39)
    (current : Bytes) :
    splitToken .single current (b :: p) = splitToken .single (current ++ [b]) p := by
  rw [splitToken.eq_def]
  simp only [if_neg h39]
  split
  next p' =>
    rw [if_neg fun h92 => h h92 rfl]
  next => rfl

/-- A single quote is closed where the grammar says. -/
theorem splitToken_single (hbody : SingleBody body) :
    ∀ current, ∃ w, ∀ rest, splitToken .single current (body ++ 39 :: rest) =
      if closes rest then some (w, rest) else none := by
  induction hbody with
  | nil => exact fun current => ⟨current, splitToken_single_close current⟩
  | @byte b body h39 h92 hbody ih =>
    intro current
    obtain ⟨w, hw⟩ := ih (current ++ [b])
    refine ⟨w, fun rest => ?_⟩
    rw [cons_append, splitToken_single_byte h39 fun h => absurd h h92, hw]
  | @backslash c body hc hbody ih =>
    intro current
    obtain ⟨w, hw⟩ := ih (current ++ [92])
    refine ⟨w, fun rest => ?_⟩
    rw [cons_append, splitToken_single_byte (by decide) fun _ => ?_, hw]
    rw [cons_append, head?_cons]
    exact fun h => hc (Option.some.inj h)
  | @quote body hbody ih =>
    intro current
    obtain ⟨w, hw⟩ := ih (current ++ [39])
    refine ⟨w, fun rest => ?_⟩
    rw [cons_append, cons_append, splitToken_single_quote, hw]

theorem singleBody_of_splitToken : ∀ {current p w rest : Bytes}, p.length ≤ n →
    splitToken .single current p = some (w, rest) →
    ∃ body, SingleBody body ∧ p = body ++ 39 :: rest ∧ closes rest = true := by
  induction n with
  | zero =>
    intro current p w rest hn h
    rw [length_eq_zero_iff.mp (Nat.le_zero.mp hn), splitToken] at h
    cases h
  | succ n ih =>
    intro current p w rest hn h
    cases p with
    | nil =>
      rw [splitToken] at h
      cases h
    | cons b p =>
      rw [length_cons] at hn
      by_cases h39 : b = 39
      · subst h39
        rw [splitToken_single_close] at h
        split at h
        · rename_i hcloses
          obtain ⟨-, rfl⟩ := Prod.mk.inj (Option.some.inj h)
          exact ⟨[], .nil, rfl, hcloses⟩
        · cases h
      by_cases hquote : b = 92 ∧ p.head? = some 39
      · obtain ⟨rfl, hhead⟩ := hquote
        obtain ⟨p', rfl⟩ := head?_eq_some_iff.mp hhead
        rw [length_cons] at hn
        rw [splitToken_single_quote] at h
        obtain ⟨body, hbody, rfl, hcloses⟩ := ih (by omega) h
        exact ⟨_, .quote hbody, rfl, hcloses⟩
      · rw [splitToken_single_byte h39 fun h92 hhead => hquote ⟨h92, hhead⟩] at h
        obtain ⟨body, hbody, rfl, hcloses⟩ := ih (by omega) h
        refine ⟨b :: body, ?_, rfl, hcloses⟩
        by_cases h92 : b = 92
        · subst h92
          -- the byte behind a backslash is one of the text, and not a quote
          cases body with
          | nil => exact absurd ⟨rfl, rfl⟩ hquote
          | cons c body =>
            refine .backslash ?_ hbody
            rintro rfl
            exact hquote ⟨rfl, rfl⟩
        · exact .byte h39 h92 hbody

/-! ### Both quotes -/

/-- The state behind a quote. -/
def quoteOf (q : UInt8) : Quote := if q = 34 then .double else .single

theorem splitToken_body (h : Body q body) (current : Bytes) :
    ∃ w, ∀ rest, splitToken (quoteOf q) current (body ++ q :: rest) =
      if closes rest then some (w, rest) else none := by
  rcases h with ⟨rfl, hbody⟩ | ⟨rfl, hbody⟩
  · exact splitToken_double _ (Nat.le_refl _) hbody current
  · exact splitToken_single hbody current

theorem body_of_splitToken (hq : q = 34 ∨ q = 39) {current w : Bytes}
    (h : splitToken (quoteOf q) current p = some (w, rest)) :
    ∃ body, Body q body ∧ p = body ++ q :: rest ∧ closes rest = true := by
  rcases hq with rfl | rfl
  · obtain ⟨body, hbody, hp⟩ := doubleBody_of_splitToken _ (Nat.le_refl _) h
    exact ⟨body, .inl ⟨rfl, hbody⟩, hp⟩
  · obtain ⟨body, hbody, hp⟩ := singleBody_of_splitToken _ (Nat.le_refl _) h
    exact ⟨body, .inr ⟨rfl, hbody⟩, hp⟩

theorem closes_eq_false (h : ¬ closes p = true) : ∃ b rest, p = b :: rest ∧ isspace b = false := by
  cases p with
  | nil => exact absurd rfl h
  | cons b rest => exact ⟨b, rest, rfl, Bool.eq_false_iff.mpr h⟩

/-- Behind a quote the token fails if and only if the quote is bad. -/
theorem splitToken_quote_eq_none_iff (hq : q = 34 ∨ q = 39) (current p : Bytes) :
    splitToken (quoteOf q) current p = none ↔ Unterminated q p ∨ ClosedBefore q p := by
  constructor
  · intro h
    by_cases hterm : Unterminated q p
    · exact .inl hterm
    obtain ⟨body, rest, hbody, rfl⟩ := not_not.mp hterm
    obtain ⟨w, hw⟩ := splitToken_body hbody current
    rw [hw] at h
    split at h
    · cases h
    · rename_i hcloses
      obtain ⟨b, rest, rfl, hb⟩ := closes_eq_false hcloses
      exact .inr ⟨body, b, rest, hbody, rfl, hb⟩
  · rintro (hterm | ⟨body, b, rest, hbody, rfl, hb⟩)
    · by_contra hsome
      obtain ⟨⟨w, rest⟩, hr⟩ := Option.ne_none_iff_exists'.mp hsome
      obtain ⟨body, hbody, hp, -⟩ := body_of_splitToken hq hr
      exact hterm ⟨body, rest, hbody, hp⟩
    · obtain ⟨w, hw⟩ := splitToken_body hbody current
      rw [hw, if_neg]
      rw [closes, hb]
      exact Bool.false_ne_true

/-! ## Arguments -/

/-- The bytes outside of quotes go to the token. -/
theorem splitToken_bare {w : Bytes} (h : ∀ b ∈ w, separator b = false ∧ b ≠ 34 ∧ b ≠ 39)
    (current p : Bytes) :
    splitToken .no current (w ++ p) = splitToken .no (current ++ w) p := by
  induction w generalizing current with
  | nil => rw [nil_append, append_nil]
  | cons b w ih =>
    obtain ⟨⟨hsep, h34, h39⟩, hw⟩ := forall_mem_cons.mp h
    simp only [separator, Bool.or_eq_false_iff, beq_eq_false_iff_ne] at hsep
    obtain ⟨⟨⟨h32, h10⟩, h13⟩, h9⟩ := hsep
    rw [cons_append, splitToken, if_neg (by simp [h32, h10, h13, h9]), if_neg h34, if_neg h39,
      ih hw, append_assoc, singleton_append]

theorem splitToken_separator (h : separator b = true) (current p : Bytes) :
    splitToken .no current (b :: p) = some (current, p) := by
  rw [splitToken, if_pos]
  simpa [separator, or_assoc] using h

theorem splitToken_open (hq : q = 34 ∨ q = 39) (current p : Bytes) :
    splitToken .no current (q :: p) = splitToken (quoteOf q) current p := by
  rcases hq with rfl | rfl
  · rw [splitToken, if_neg (by decide), if_pos rfl]
    rfl
  · rw [splitToken, if_neg (by decide), if_neg (by decide), if_pos rfl]
    rfl

theorem isspace_of_separator (h : separator b = true) : isspace b = true := by
  simp only [separator, Bool.or_eq_true, beq_iff_eq] at h
  obtain ((rfl | rfl) | rfl) | rfl := h
  all_goals decide

/-- What a line may begin with where an argument begins. -/
theorem argument_cases (hb : isspace b = false) :
    Bare (b :: p) ∨ ∃ w c rest, b :: p = w ++ c :: rest ∧ Bare w ∧
      (w ≠ [] ∧ separator c = true ∨ c = 34 ∨ c = 39) := by
  let inside : UInt8 → Bool := fun c => !(separator c || c == 34 || c == 39)
  have hinside {c : UInt8} (h : inside c = true) : separator c = false ∧ c ≠ 34 ∧ c ≠ 39 := by
    simpa [inside, and_assoc] using h
  have hbare : Bare ((b :: p).takeWhile inside) := by
    refine ⟨fun c hc => hinside (mem_takeWhile_imp hc), fun c hc => ?_⟩
    rw [takeWhile_cons] at hc
    split at hc
    · obtain rfl := Option.some.inj hc
      exact hb
    · cases hc
  have hsplit : (b :: p).takeWhile inside ++ (b :: p).dropWhile inside = b :: p :=
    takeWhile_append_dropWhile
  cases hdrop : (b :: p).dropWhile inside with
  | nil =>
    rw [hdrop, append_nil] at hsplit
    rw [hsplit] at hbare
    exact .inl hbare
  | cons c rest =>
    rw [hdrop] at hsplit
    have hstop : inside c = false := by
      have hhead := head_dropWhile_not inside (by rw [hdrop]; exact cons_ne_nil c rest)
      simpa [hdrop] using hhead
    refine .inr ⟨_, c, rest, hsplit.symm, hbare, ?_⟩
    simp only [inside, Bool.not_eq_false', Bool.or_eq_true, beq_iff_eq] at hstop
    obtain (hsep | h34) | h39 := hstop
    · refine .inl ⟨fun hnil => ?_, hsep⟩
      rw [hnil, nil_append] at hsplit
      obtain rfl := (List.cons.inj hsplit).1
      rw [isspace_of_separator hsep] at hb
      cases hb
    · exact .inr (.inl h34)
    · exact .inr (.inr h39)

/-! ## Lines -/

/-- The `while(1)` loop for so many turns, and `none` when it has not ended by then. -/
def splitTurns : Nat → Bytes → Option (Option (List Bytes))
  | 0, _ => none
  | turns + 1, p =>
    match p.dropWhile isspace with
    | [] => some (some [])
    | b :: p =>
      match splitToken .no [] (b :: p) with
      | none => some none
      | some (token, p) => (splitTurns turns p).map (Option.map (token :: ·))

/-- What a token takes of a line: all of it, or up to a separator, or a quoted part at its end. -/
inductive Taken : (line rest : Bytes) → Prop
  | all {w : Bytes} : Bare w → Taken w []
  | bare {w : Bytes} {b : UInt8} {rest : Bytes} : Bare w → w ≠ [] → separator b = true →
      Taken (w ++ b :: rest) rest
  | quoted {w : Bytes} {q : UInt8} {body rest : Bytes} : Bare w → Body q body →
      closes rest = true → Taken (w ++ q :: (body ++ q :: rest)) rest

theorem taken_of_splitToken {token : Bytes} (hb : isspace b = false)
    (h : splitToken .no [] (b :: p) = some (token, rest)) : Taken (b :: p) rest := by
  rcases argument_cases (p := p) hb with hbare | ⟨w, c, rest', heq, hw, hc⟩
  · have hall := splitToken_bare hbare.bytes [] []
    rw [append_nil, h, splitToken] at hall
    rw [(Prod.mk.inj (Option.some.inj hall)).2]
    exact .all hbare
  rw [heq, splitToken_bare hw.bytes] at h
  rw [heq]
  rcases hc with ⟨hne, hsep⟩ | hq
  · rw [splitToken_separator hsep] at h
    rw [(Prod.mk.inj (Option.some.inj h)).2]
    exact .bare hw hne hsep
  · rw [splitToken_open hq] at h
    obtain ⟨body, hbody, rfl, hcloses⟩ := body_of_splitToken hq h
    exact .quoted hw hbody hcloses

/-- The first argument of a line fails if its quotes are bad. -/
theorem badQuotes_of_splitToken (hb : isspace b = false) (h : splitToken .no [] (b :: p) = none) :
    BadQuotes (b :: p) := by
  rcases argument_cases (p := p) hb with hbare | ⟨w, c, rest', heq, hw, hc⟩
  · have hall := splitToken_bare hbare.bytes [] []
    rw [append_nil, h, splitToken] at hall
    cases hall
  rw [heq, splitToken_bare hw.bytes] at h
  rw [heq]
  rcases hc with ⟨hne, hsep⟩ | hq
  · rw [splitToken_separator hsep] at h
    cases h
  · rw [splitToken_open hq] at h
    exact .here hw hq ((splitToken_quote_eq_none_iff hq _ _).mp h)

theorem splitToken_of_taken (h : Taken line rest) :
    ∃ token, splitToken .no [] line = some (token, rest) := by
  cases h with
  | @all w hw =>
    have hall := splitToken_bare hw.bytes [] []
    rw [append_nil, splitToken] at hall
    exact ⟨_, hall⟩
  | bare hw hne hsep => exact ⟨_, by rw [splitToken_bare hw.bytes, splitToken_separator hsep]⟩
  | @quoted w q body rest hw hbody hcloses =>
    have hq : q = 34 ∨ q = 39 := hbody.imp And.left And.left
    obtain ⟨token, htoken⟩ := splitToken_body hbody ([] ++ w)
    refine ⟨token, ?_⟩
    rw [splitToken_bare hw.bytes, splitToken_open hq, htoken, if_pos hcloses]

theorem Taken.length_lt (h : Taken line rest) (hne : line ≠ []) : rest.length < line.length := by
  cases h with
  | all => exact length_pos_iff.mpr hne
  | bare =>
    rw [length_append, length_cons]
    omega
  | quoted =>
    simp only [length_append, length_cons]
    omega

theorem BadQuotes.ne_nil (h : BadQuotes line) : line ≠ [] := by
  cases h with
  | here => exact append_ne_nil_of_right_ne_nil _ (cons_ne_nil _ _)
  | blank => exact cons_ne_nil _ _
  | bare => exact append_ne_nil_of_right_ne_nil _ (cons_ne_nil _ _)
  | quoted => exact append_ne_nil_of_right_ne_nil _ (cons_ne_nil _ _)

/-- Where a token is taken from a line, the quotes of the line are bad if those behind it are. -/
theorem Taken.badQuotes (h : Taken line rest) (hbad : BadQuotes rest) : BadQuotes line := by
  cases h with
  | all => exact absurd rfl hbad.ne_nil
  | bare hw hne hsep => exact .bare hw hne hsep hbad
  | quoted hw hbody hcloses => exact .quoted hw hbody hcloses hbad

/-- The first quotes of a line that are bad are in its first argument, or behind it. -/
theorem BadQuotes.argument (h : BadQuotes line) (hfirst : ∀ b ∈ line.head?, isspace b = false) :
    splitToken .no [] line = none ∨ ∃ rest, Taken line rest ∧ BadQuotes rest := by
  cases h with
  | @here w q p hw hq hbad =>
    refine .inl ?_
    rw [splitToken_bare hw.bytes, splitToken_open hq]
    exact (splitToken_quote_eq_none_iff hq _ p).mpr hbad
  | blank hb =>
    rw [hfirst _ rfl] at hb
    cases hb
  | bare hw hne hsep hbad => exact .inr ⟨_, .bare hw hne hsep, hbad⟩
  | quoted hw hbody hcloses hbad => exact .inr ⟨_, .quoted hw hbody hcloses, hbad⟩

/-- A blank is not the first byte of an argument. -/
theorem badQuotes_blank_iff (hb : isspace b = true) : BadQuotes (b :: p) ↔ BadQuotes p := by
  refine ⟨fun h => ?_, .blank hb⟩
  have hquote {q : UInt8} (hq : q = 34 ∨ q = 39) : isspace q = false := by
    rcases hq with rfl | rfl
    all_goals decide
  have hstart {w r : Bytes} {c : UInt8} (hw : Bare w) (hc : w ≠ [] ∨ isspace c = false)
      (heq : w ++ c :: r = b :: p) : False := by
    cases w with
    | nil =>
      obtain rfl := (List.cons.inj heq).1
      rw [hc.resolve_left fun h => h rfl] at hb
      cases hb
    | cons c' w =>
      obtain rfl := (List.cons.inj heq).1
      rw [hw.first _ rfl] at hb
      cases hb
  generalize hline : b :: p = line at h
  cases h with
  | here hw hq => exact (hstart hw (.inr (hquote hq)) hline.symm).elim
  | blank _ hbad =>
    rw [(List.cons.inj hline).2]
    exact hbad
  | bare hw hne => exact (hstart hw (.inl hne) hline.symm).elim
  | quoted hw hbody =>
    exact (hstart hw (.inr (hquote (hbody.imp And.left And.left))) hline.symm).elim

theorem badQuotes_dropWhile_iff (p : Bytes) :
    BadQuotes (p.dropWhile isspace) ↔ BadQuotes p := by
  induction p with
  | nil => exact Iff.rfl
  | cons b p ih =>
    rw [dropWhile_cons]
    split
    · rename_i hb
      rw [ih, badQuotes_blank_iff hb]
    · exact Iff.rfl

theorem isspace_of_dropWhile {q : Bytes} (h : p.dropWhile isspace = b :: q) :
    isspace b = false := by
  have hhead := head_dropWhile_not isspace (by rw [h]; exact cons_ne_nil b q)
  simpa [h] using hhead

theorem splitTurns_succ (p : Bytes) :
    p.dropWhile isspace = [] ∧ splitTurns (turns + 1) p = some (some []) ∧
      splitLoop (turns + 1) p = some [] ∨
    ∃ b q, p.dropWhile isspace = b :: q ∧ isspace b = false ∧ q.length < p.length ∧
      (splitToken .no [] (b :: q) = none ∧ splitTurns (turns + 1) p = some none ∧
          splitLoop (turns + 1) p = none ∨
        ∃ token rest, splitToken .no [] (b :: q) = some (token, rest) ∧ rest.length ≤ q.length ∧
          splitTurns (turns + 1) p = (splitTurns turns rest).map (Option.map (token :: ·)) ∧
          splitLoop (turns + 1) p = (splitLoop turns rest).map (token :: ·)) := by
  cases hdrop : p.dropWhile isspace with
  | nil => exact .inl ⟨rfl, by rw [splitTurns, hdrop], by rw [splitLoop, hdrop]⟩
  | cons b q =>
    have hb := isspace_of_dropWhile hdrop
    have hlength : (b :: q).length ≤ p.length := hdrop ▸ (dropWhile_sublist _).length_le
    refine .inr ⟨b, q, rfl, hb, hlength, ?_⟩
    cases htoken : splitToken .no [] (b :: q) with
    | none => exact .inl ⟨rfl, by rw [splitTurns, hdrop]; simp [htoken], by
        rw [splitLoop, hdrop]; simp [htoken]⟩
    | some r =>
      obtain ⟨token, rest⟩ := r
      have htaken := taken_of_splitToken hb htoken
      refine .inr ⟨token, rest, rfl, ?_, ?_, ?_⟩
      · have hlt := htaken.length_lt (cons_ne_nil b q)
        rw [length_cons] at hlt
        omega
      · rw [splitTurns, hdrop]
        simp [htoken]
      · rw [splitLoop, hdrop]
        cases hnext : splitLoop turns rest <;> simp [htoken, hnext]

/-- The loop ends, with the words or an error. -/
theorem splitTurns_eq : ∀ p : Bytes, p.length < turns →
    splitTurns turns p = some (splitLoop turns p) := by
  induction turns with
  | zero => exact fun p h => absurd h (Nat.not_lt_zero _)
  | succ turns ih =>
    intro p h
    rcases splitTurns_succ turns p with ⟨-, hturns, hloop⟩ | ⟨b, q, -, -, hq, hstep⟩
    · rw [hturns, hloop]
    rcases hstep with ⟨-, hturns, hloop⟩ | ⟨token, rest, -, hrest, hturns, hloop⟩
    · rw [hturns, hloop]
    · rw [hturns, hloop, ih rest (by omega), Option.map_some]

/-- The loop ends with an error if and only if quotes are bad. -/
theorem splitTurns_eq_none_iff : ∀ p : Bytes, p.length < turns →
    (splitTurns turns p = some none ↔ BadQuotes p) := by
  induction turns with
  | zero => exact fun p h => absurd h (Nat.not_lt_zero _)
  | succ turns ih =>
    intro p h
    rw [← badQuotes_dropWhile_iff p]
    rcases splitTurns_succ turns p with ⟨hnil, hturns, -⟩ | ⟨b, q, hdrop, hb, hq, hstep⟩
    · rw [hturns, hnil]
      exact iff_of_false (by simp) fun hbad => hbad.ne_nil rfl
    rw [hdrop]
    have hfirst : ∀ c ∈ (b :: q).head?, isspace c = false := by
      rintro c ⟨⟩
      exact hb
    rcases hstep with ⟨htoken, hturns, -⟩ | ⟨token, rest, htoken, hrest, hturns, -⟩
    · rw [hturns]
      exact iff_of_true rfl (badQuotes_of_splitToken hb htoken)
    · have hmap : splitTurns (turns + 1) p = some none ↔ splitTurns turns rest = some none := by
        rw [hturns]
        simp
      rw [hmap, ih rest (by omega)]
      refine ⟨(taken_of_splitToken hb htoken).badQuotes, fun hbad => ?_⟩
      rcases hbad.argument hfirst with hnone | ⟨rest', htaken, hbad'⟩
      · rw [htoken] at hnone
        cases hnone
      · obtain ⟨token', htoken'⟩ := splitToken_of_taken htaken
        rw [htoken] at htoken'
        rw [(Prod.mk.inj (Option.some.inj htoken')).2]
        exact hbad'

/-! ### A carriage return at the end -/

theorem append_eq_append_singleton {a : Bytes} (h : a ++ b :: rest = p ++ [c]) :
    rest = [] ∧ b = c ∧ p = a ∨ ∃ rest', rest = rest' ++ [c] ∧ p = a ++ b :: rest' := by
  rcases eq_nil_or_concat rest with rfl | ⟨rest', c', rfl⟩
  · obtain ⟨rfl, hb⟩ := append_inj' h rfl
    exact .inl ⟨rfl, (List.cons.inj hb).1, rfl⟩
  · have hassoc : a ++ b :: (rest' ++ [c']) = (a ++ b :: rest') ++ [c'] := by simp
    rw [concat_eq_append, hassoc] at h
    obtain ⟨rfl, hc⟩ := append_inj' h rfl
    obtain rfl := (List.cons.inj hc).1
    exact .inr ⟨rest', concat_eq_append, rfl⟩

/-- The token of a line does not depend on a carriage return at the end of the line. -/
theorem Taken.append_cr (h : Taken line rest) (hline : line = p ++ [13]) :
    ∃ token rest', splitToken .no [] p = some (token, rest') ∧
      splitToken .no [] line = some (token, rest) ∧ (rest = rest' ++ [13] ∨ rest = [] ∧ rest' = []) := by
  cases h with
  | all hw =>
    have hcr := hw.bytes 13 (hline ▸ mem_append_right p mem_cons_self)
    exact absurd hcr.1 (by decide)
  | @bare w c rest hw hne hsep =>
    have htoken := (splitToken_bare hw.bytes [] (c :: rest)).trans (splitToken_separator hsep _ rest)
    rcases append_eq_append_singleton hline with ⟨rfl, -, rfl⟩ | ⟨rest', rfl, rfl⟩
    · have hall := splitToken_bare hw.bytes [] []
      rw [append_nil, splitToken] at hall
      exact ⟨_, [], hall, htoken, .inr ⟨rfl, rfl⟩⟩
    · exact ⟨_, rest', (splitToken_bare hw.bytes [] _).trans (splitToken_separator hsep _ rest'),
        htoken, .inl rfl⟩
  | @quoted w q body rest hw hbody hcloses =>
    have hq : q = 34 ∨ q = 39 := hbody.imp And.left And.left
    obtain ⟨token, htoken⟩ := splitToken_body hbody ([] ++ w)
    have hsplit (r : Bytes) (hr : closes r = true) :
        splitToken .no [] (w ++ q :: (body ++ q :: r)) = some (token, r) := by
      rw [splitToken_bare hw.bytes, splitToken_open hq, htoken, if_pos hr]
    have hassoc : (w ++ q :: body) ++ q :: rest = p ++ [13] := by
      rw [← hline]
      simp
    rcases append_eq_append_singleton hassoc with ⟨-, hcr, -⟩ | ⟨rest', rfl, rfl⟩
    · rw [hcr] at hq
      exact absurd hq (by decide)
    · have hcloses' : closes rest' = true := by
        cases rest' with
        | nil => rfl
        | cons b rest' => exact hcloses
      refine ⟨token, rest', ?_, hsplit _ hcloses, .inl rfl⟩
      have hp : w ++ q :: body ++ q :: rest' = w ++ q :: (body ++ q :: rest') := by simp
      rw [hp, hsplit _ hcloses']

theorem dropWhile_append_cr (p : Bytes) :
    (p ++ [13]).dropWhile isspace =
      if p.dropWhile isspace = [] then [] else p.dropWhile isspace ++ [13] := by
  rw [dropWhile_append]
  cases hdrop : p.dropWhile isspace with
  | nil => rfl
  | cons b q => rfl

theorem splitLoop_append_cr : ∀ {p : Bytes} {ws : List Bytes},
    splitLoop turns (p ++ [13]) = some ws → splitLoop turns p = some ws := by
  induction turns with
  | zero => exact fun h => h
  | succ turns ih =>
    intro p ws h
    rw [splitLoop, dropWhile_append_cr] at h
    rw [splitLoop]
    cases hdrop : p.dropWhile isspace with
    | nil =>
      rw [hdrop, if_pos rfl] at h
      exact h
    | cons b q =>
      rw [hdrop, if_neg (cons_ne_nil b q), cons_append] at h
      simp only at h ⊢
      obtain ⟨⟨token, rest⟩, htoken, h⟩ := Option.bind_eq_some_iff.mp h
      obtain ⟨vector, hvector, h⟩ := Option.bind_eq_some_iff.mp h
      have hb := isspace_of_dropWhile hdrop
      have hcons : b :: (q ++ [13]) = b :: q ++ [13] := rfl
      obtain ⟨token', rest', hp, hline, hrest⟩ := (taken_of_splitToken hb htoken).append_cr hcons
      rw [htoken] at hline
      obtain ⟨rfl, -⟩ := Prod.mk.inj (Option.some.inj hline)
      have hnext : splitLoop turns rest' = some vector := by
        rcases hrest with rfl | ⟨rfl, rfl⟩
        · exact ih hvector
        · exact hvector
      rw [hp]
      simp only [some_bind, hnext]
      exact h

theorem splitLoop_turns : ∀ {more : Nat} {p : Bytes}, p.length < turns →
    turns ≤ more → splitLoop more p = splitLoop turns p := by
  induction turns with
  | zero => exact fun h => absurd h (Nat.not_lt_zero _)
  | succ turns ih =>
    intro more p hlt hle
    cases more with
    | zero => exact absurd hle (Nat.not_succ_le_zero turns)
    | succ more =>
      rw [splitLoop, splitLoop]
      cases hdrop : p.dropWhile isspace with
      | nil => rfl
      | cons b q =>
        have hb := isspace_of_dropWhile hdrop
        have hlength : (b :: q).length ≤ p.length := hdrop ▸ (dropWhile_sublist _).length_le
        cases htoken : splitToken .no [] (b :: q) with
        | none => simp [htoken]
        | some r =>
          obtain ⟨token, rest⟩ := r
          have hrest := (taken_of_splitToken hb htoken).length_lt (cons_ne_nil b q)
          simp [htoken, ih (p := rest) (by omega) (Nat.le_of_succ_le_succ hle)]

theorem sdssplitargs_append_cr {ws : List Bytes} (h0 : 0 ∉ line)
    (h : sdssplitargs (line ++ [13]) = some ws) : sdssplitargs line = some ws := by
  have htake {l : Bytes} (hl : 0 ∉ l) : l.takeWhile (· ≠ 0) = l := by
    rw [takeWhile_eq_self_iff]
    intro b hb
    rw [decide_eq_true_iff]
    rintro rfl
    exact hl hb
  have hcr : 0 ∉ line ++ [13] := by simpa using h0
  rw [sdssplitargs, htake hcr, length_append, length_singleton] at h
  rw [sdssplitargs, htake h0, ← splitLoop_turns _ (Nat.lt_succ_self _) (Nat.le_succ _)]
  exact splitLoop_append_cr _ h

/-! ## The function -/

/-- Quoted forms, and the blanks between them, have no null byte. -/
theorem zero_not_mem_reprs (ws : List Bytes) :
    0 ∉ intercalate [32] (ws.map sdscatrepr) := by
  have hword (w : Bytes) : 0 ∉ sdscatrepr w := fun h =>
    absurd (mem_sdscatrepr h).1 (by decide)
  induction ws with
  | nil => simp
  | cons w ws ih =>
    cases ws with
    | nil =>
      rw [map_singleton, intercalate_singleton]
      exact hword w
    | cons v ws =>
      rw [map_cons, map_cons, intercalate_cons_cons, ← map_cons]
      simp only [mem_append, mem_singleton, not_or]
      exact ⟨⟨hword w, by decide⟩, ih⟩

/-- `sdssplitargs` reads back what `sdscatrepr` has written; on every line it ends, and it fails if
and only if quotes of the line are bad. -/
theorem sdssplitargs_spec :
    (∀ ws : List Bytes, sdssplitargs (intercalate [32] (ws.map sdscatrepr)) = some ws) ∧
    ∀ line : Bytes,
      (∃ turns, splitTurns turns (line.takeWhile (· ≠ 0)) = some (sdssplitargs line)) ∧
      (sdssplitargs line = none ↔ BadQuotes (line.takeWhile (· ≠ 0))) := by
  refine ⟨fun ws => ?_, fun line => ?_⟩
  · refine sdssplitargs_intercalate ?_ (zero_not_mem_reprs ws)
    exact forall₂_map_left_iff.mpr (forall₂_same.mpr fun w _ => reads_sdscatrepr w)
  · have hends := splitTurns_eq _ (line.takeWhile (· ≠ 0)) (Nat.lt_succ_self _)
    refine ⟨⟨_, hends⟩, ?_⟩
    rw [← splitTurns_eq_none_iff _ _ (Nat.lt_succ_self _), hends, Option.some.injEq]
    rfl

end Redis.Sds
