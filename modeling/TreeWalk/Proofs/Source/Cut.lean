import Mathlib.Data.List.TakeWhile
import Mathlib.Logic.ExistsUnique
import TreeWalk.Source.Piece

/-!
The cut of a text into longest pieces: there is exactly one, and splitting finds it.
-/

namespace TreeWalk

namespace Piece

/-- The pieces of a source without lexical errors. -/
inductive Regular : Piece → Prop
  | blank (c : Char) (h : c = ' ' ∨ c = '\t' ∨ c = '\r' ∨ c = '\n') : Regular (blank c)
  | comment (body : List Char) (h : '\n' ∉ body) : Regular (comment body)
  | punctuator (p : Punctuator) : Regular (token (.punctuator p) p.spelling)
  | whole (digits : List Char) (nonempty : digits ≠ []) (h : ∀ d ∈ digits, d.isDigit) :
    Regular (token (.number (Decimal.ofDigits digits []).toFloat) digits)
  | fractional (digits places : List Char) (nonempty : digits ≠ []) (h : ∀ d ∈ digits, d.isDigit)
    (nonempty' : places ≠ []) (h' : ∀ d ∈ places, d.isDigit) :
    Regular (token (.number (Decimal.ofDigits digits places).toFloat) (digits ++ '.' :: places))
  | keyword (k : Keyword) : Regular (token (.keyword k) k.spelling)
  | identifier (c : Char) (cs : List Char) (start : c.isAlpha ∨ c = '_')
    (h : ∀ d ∈ cs, d.isAlphanum ∨ d = '_') (h' : ∀ k : Keyword, k.spelling ≠ c :: cs) :
    Regular (token .identifier (c :: cs))
  | string (body : List Char) (h : '"' ∉ body) :
    Regular (token (.string (String.ofList body)) ('"' :: body ++ ['"']))

/-- A regular piece at the start of a text, and no longer one there. -/
structure Longest (text : List Char) (p : Piece) : Prop where
  regular : p.Regular
  leads : p.chars <+: text
  longest : ∀ q : Piece, q.Regular → q.chars <+: text → q.chars.length ≤ p.chars.length

/-- What a text is cut into first: the longest regular piece; without one, everything after an
opening quote, or else a single character. -/
inductive Leads : List Char → Piece → Prop
  | regular {text p} (h : Longest text p) : Leads text p
  | openString {cs} (none : ∀ q : Piece, q.Regular → ¬ q.chars <+: '"' :: cs) :
    Leads ('"' :: cs) (openString cs)
  | stray {c cs} (none : ∀ q : Piece, q.Regular → ¬ q.chars <+: c :: cs) (h : c ≠ '"') :
    Leads (c :: cs) (stray c)

/-- The pieces cover the text one after the other, each leading what is left of it. -/
inductive Cut : List Char → List Piece → Prop
  | done : Cut [] []
  | piece {p rest ps} (nonempty : p.chars ≠ []) (leads : Leads (p.chars ++ rest) p) (others : Cut rest ps) :
    Cut (p.chars ++ rest) (p :: ps)

section Words

theorem keyword_spelling (k : Keyword) : ∃ c cs, k.spelling = c :: cs ∧ isNameStart c = true ∧
    ∀ d ∈ cs, isNamePart d = true := by
  cases k <;> exact ⟨_, _, rfl, by decide, List.all_eq_true.mp (by decide)⟩

theorem isNameStart_iff {c : Char} : isNameStart c = true ↔ c.isAlpha ∨ c = '_' := by
  simp [isNameStart]

theorem isNamePart_iff {c : Char} : isNamePart c = true ↔ c.isAlphanum ∨ c = '_' := by
  simp [isNamePart]

theorem word_spelling (k : Keyword) : word k.spelling = .keyword k := by
  rw [word, Keyword.ofSpelling?_spelling]

theorem word_eq_identifier {lexeme : List Char} (h : ∀ k : Keyword, k.spelling ≠ lexeme) :
    word lexeme = .identifier := by
  have hnone : Keyword.ofSpelling? lexeme = none := by
    rw [Keyword.ofSpelling?, List.find?_eq_none]
    intro k _
    simpa using h k
  rw [word, hnone]

/-- Every name is a regular piece, whether it is a keyword or not. -/
theorem regular_word {c : Char} {cs : List Char} (start : isNameStart c = true)
    (h : ∀ d ∈ cs, isNamePart d = true) : Regular (token (word (c :: cs)) (c :: cs)) := by
  by_cases hk : ∃ k : Keyword, k.spelling = c :: cs
  · obtain ⟨k, hk⟩ := hk
    rw [← hk, word_spelling]
    exact .keyword k
  · have hk' : ∀ k : Keyword, k.spelling ≠ c :: cs := fun k e => hk ⟨k, e⟩
    rw [word_eq_identifier hk']
    exact .identifier c cs (isNameStart_iff.mp start) (fun d hd => isNamePart_iff.mp (h d hd)) hk'

end Words

section Numbers

theorem isDigit_fraction {rest : List Char} : ∀ d ∈ fraction rest, d.isDigit = true := by
  unfold fraction
  split
  · exact fun d hd => List.mem_takeWhile_imp hd
  · exact fun d hd => absurd hd List.not_mem_nil

theorem regular_number {digits : List Char} (rest : List Char) (nonempty : digits ≠ [])
    (h : ∀ d ∈ digits, d.isDigit = true) : Regular (number digits rest) := by
  unfold number
  cases hf : fraction rest with
  | nil => exact .whole digits nonempty h
  | cons d ds =>
    refine .fractional digits (d :: ds) nonempty h (List.cons_ne_nil _ _) ?_
    rw [← hf]
    exact isDigit_fraction

theorem number_chars (digits rest : List Char) :
    (number digits rest).chars =
      if (fraction rest).isEmpty then digits else digits ++ '.' :: fraction rest :=
  rfl

theorem fraction_isPrefix {rest : List Char} (h : fraction rest ≠ []) :
    '.' :: fraction rest <+: rest := by
  unfold fraction at h ⊢
  split at h
  · exact (List.prefix_cons_inj _).mpr (List.takeWhile_prefix _)
  · exact absurd rfl h

theorem number_chars_isPrefix (digits rest : List Char) :
    (number digits rest).chars <+: digits ++ rest := by
  rw [number_chars]
  split
  · exact List.prefix_append _ _
  · next h =>
    exact (List.prefix_append_right_inj _).mpr (fraction_isPrefix (by simpa using h))

end Numbers

section First

variable {c : Char} {cs : List Char}

/-- A class of characters without blanks, slashes and quotes keeps `c` from being one of them. -/
theorem not_special {class_ : Char → Bool} (h : class_ c = true)
    (none : [' ', '\t', '\r', '\n', '/', '"'].any class_ = false) :
    isBlank c = false ∧ c ≠ '/' ∧ c ≠ '"' := by
  have hc : c ∉ [' ', '\t', '\r', '\n', '/', '"'] := fun hc =>
    List.any_eq_false.mp none c hc h
  simp only [List.mem_cons, List.not_mem_nil, or_false, not_or] at hc
  obtain ⟨h1, h2, h3, h4, h5, h6⟩ := hc
  exact ⟨by simp [isBlank, h1, h2, h3, h4], h5, h6⟩

theorem isDigit_eq_false_of_isNameStart (h : isNameStart c = true) : c.isDigit = false := by
  rw [isNameStart_iff] at h
  rcases h with h | rfl
  · have halpha : c.isAlpha = (decide (c.val ≥ 'A'.val ∧ c.val ≤ 'Z'.val) ||
      decide (c.val ≥ 'a'.val) && decide (c.val ≤ 'z'.val)) := rfl
    rw [halpha] at h
    simp only [Char.isDigit, Bool.or_eq_true, Bool.and_eq_true, decide_eq_true_eq, Bool.and_eq_false_iff, decide_eq_false_iff_not,
      UInt32.le_iff_toNat_le, ge_iff_le] at h ⊢
    have hA : 'A'.val.toNat = 65 := rfl
    have ha : 'a'.val.toNat = 97 := rfl
    have h9 : '9'.val.toNat = 57 := rfl
    omega
  · decide

theorem first_digit (h : c.isDigit = true) :
    first c cs = number (c :: cs.takeWhile Char.isDigit) (cs.dropWhile Char.isDigit) := by
  obtain ⟨hblank, hslash, hquote⟩ := not_special h (by decide)
  simp [first, hblank, hslash, hquote, h]

theorem first_nameStart (h : isNameStart c = true) :
    first c cs = token (word (c :: cs.takeWhile isNamePart)) (c :: cs.takeWhile isNamePart) := by
  obtain ⟨hblank, hslash, hquote⟩ := not_special h (by decide)
  simp [first, hblank, hslash, hquote, isDigit_eq_false_of_isNameStart h, h]

theorem quoted_closed {body : List Char} (rest : List Char) (h : '"' ∉ body) :
    quoted (body ++ '"' :: rest) = token (.string (String.ofList body)) ('"' :: body ++ ['"']) := by
  have htake : (body ++ '"' :: rest).takeWhile (· ≠ '"') = body := by
    rw [List.takeWhile_append_of_pos (by simpa using fun d hd => ne_of_mem_of_not_mem hd h)]
    simp
  rw [quoted, htake, if_pos (by simp)]

theorem quoted_open (h : '"' ∉ cs) : quoted cs = openString cs :=
  if_neg h

theorem first_quote : first '"' cs = quoted cs :=
  rfl

theorem first_slashes : first '/' ('/' :: cs) = comment (cs.takeWhile (· ≠ '\n')) :=
  rfl

theorem first_blank (h : isBlank c = true) : first c cs = blank c := by
  simp [first, h]

theorem punctuator?_leads {equalFollows : Bool} {p : Punctuator}
    (h : punctuator? c equalFollows = some p) :
    p.spelling = [c] ∨ equalFollows = true ∧ p.spelling = [c, '='] := by
  unfold punctuator? at h
  cases equalFollows with
  | false => exact .inl (by simpa using List.find?_some h)
  | true =>
    rw [if_pos rfl, Option.or_eq_some_iff] at h
    rcases h with h | ⟨_, h⟩
    · exact .inr ⟨rfl, by simpa using List.find?_some h⟩
    · exact .inl (by simpa using List.find?_some h)

theorem first_chars_isPrefix (c : Char) (cs : List Char) : (first c cs).chars <+: c :: cs := by
  unfold first
  split_ifs with hblank hcomment hquote hdigit hname
  · exact List.prefix_append [c] cs
  · simp only [Bool.and_eq_true, decide_eq_true_eq] at hcomment
    obtain ⟨rfl, hslash⟩ := hcomment
    obtain ⟨cs, rfl⟩ := List.head?_eq_some_iff.mp hslash
    simpa [chars] using List.takeWhile_prefix _
  · subst hquote
    by_cases hclosed : '"' ∈ cs
    · obtain ⟨body, rest, rfl, hbody⟩ := List.eq_append_cons_of_mem hclosed
      rw [quoted_closed rest hbody]
      exact ⟨rest, by simp [chars]⟩
    · rw [quoted_open hclosed]
      exact List.prefix_rfl
  · have h := number_chars_isPrefix (c :: cs.takeWhile Char.isDigit) (cs.dropWhile Char.isDigit)
    rwa [List.cons_append, List.takeWhile_append_dropWhile] at h
  · exact (List.prefix_cons_inj _).mpr (List.takeWhile_prefix _)
  · cases hp : punctuator? c (cs.head? = some '=') with
    | none => exact List.prefix_append [c] cs
    | some p =>
      rcases punctuator?_leads hp with h | ⟨hequal, h⟩
      · simp [chars, h]
      · obtain ⟨cs, rfl⟩ := List.head?_eq_some_iff.mp (of_decide_eq_true hequal)
        simp [chars, h]

/-- The first piece is regular, the rest after an opening quote, or a single character. -/
theorem first_cases (c : Char) (cs : List Char) :
    (first c cs).Regular ∨ (c = '"' ∧ first c cs = openString cs) ∨
      (c ≠ '"' ∧ first c cs = stray c) := by
  unfold first
  split_ifs with hblank hcomment hquote hdigit hname
  · refine .inl (.blank c ?_)
    simpa [isBlank, or_assoc] using hblank
  · refine .inl (.comment _ fun hmem => ?_)
    simpa using List.mem_takeWhile_imp hmem
  · by_cases hclosed : '"' ∈ cs
    · obtain ⟨body, rest, rfl, hbody⟩ := List.eq_append_cons_of_mem hclosed
      rw [quoted_closed rest hbody]
      exact .inl (.string body hbody)
    · exact .inr (.inl ⟨hquote, quoted_open hclosed⟩)
  · refine .inl (regular_number _ (List.cons_ne_nil _ _) ?_)
    intro d hd
    rcases List.mem_cons.mp hd with rfl | hd
    · exact hdigit
    · exact List.mem_takeWhile_imp hd
  · exact .inl (regular_word hname fun d hd => List.mem_takeWhile_imp hd)
  · cases hp : punctuator? c (cs.head? = some '=') with
    | none => exact .inr (.inr ⟨hquote, rfl⟩)
    | some p => exact .inl (.punctuator p)

end First

section Symbols

variable {q : Punctuator} {c : Char} {cs : List Char}

theorem spelling_cases (q : Punctuator) :
    (∃ c, q.spelling = [c]) ∨ ∃ c, q.spelling = [c, '='] := by
  cases q <;> first | exact .inl ⟨_, rfl⟩ | exact .inr ⟨_, rfl⟩

theorem punctuator?_single (h : q.spelling = [c]) : punctuator? c false = some q := by
  cases q <;> cases h <;> rfl

theorem punctuator?_single_equal (h : q.spelling = [c]) :
    punctuator? c true = some q ∨ ∃ r, punctuator? c true = some r ∧ r.spelling = [c, '='] := by
  cases q <;> cases h <;> first | exact .inl rfl | exact .inr ⟨_, rfl, rfl⟩

theorem punctuator?_equal (h : q.spelling = [c, '=']) : punctuator? c true = some q := by
  cases q <;> cases h <;> rfl

/-- A character that starts a punctuator starts nothing else, except for two slashes. -/
theorem first_symbol {tail : List Char} (h : q.spelling = c :: tail)
    (hcomment : c = '/' → cs.head? ≠ some '/') :
    first c cs = match punctuator? c (cs.head? = some '=') with
      | some p => token (.punctuator p) p.spelling
      | none => stray c := by
  have hslash : (c = '/' && cs.head? = some '/') = false := by simpa using hcomment
  unfold first
  rw [hslash]
  cases q <;> cases h <;> rfl

end Symbols

section Longest

variable {c : Char} {cs ds rest : List Char} {p : Piece}

theorem first_punctuator_of_leads (q : Punctuator) (e : c :: cs = q.spelling ++ rest) :
    first c cs = token (.punctuator q) q.spelling ∨
      q.spelling.length < (first c cs).chars.length := by
  by_cases hcomment : c = '/' ∧ cs.head? = some '/'
  · obtain ⟨rfl, hslash⟩ := hcomment
    obtain ⟨cs, rfl⟩ := List.head?_eq_some_iff.mp hslash
    refine .inr ?_
    have hlength : q.spelling.length ≤ 1 := by
      rcases spelling_cases q with ⟨d, hq⟩ | ⟨d, hq⟩
      · simp [hq]
      · rw [hq] at e
        exact absurd e (by simp)
    rw [first_slashes]
    simp only [chars, List.length_cons]
    omega
  · have hcomment' : c = '/' → cs.head? ≠ some '/' := fun hc hs => hcomment ⟨hc, hs⟩
    rcases spelling_cases q with ⟨d, hq⟩ | ⟨d, hq⟩
    · rw [hq] at e
      obtain ⟨rfl, rfl⟩ := List.cons_eq_cons.mp e
      rw [first_symbol hq hcomment']
      cases hequal : decide (cs.head? = some '=') with
      | false => exact .inl (by rw [punctuator?_single hq])
      | true =>
        rcases punctuator?_single_equal hq with hp | ⟨r, hp, hr⟩
        · exact .inl (by rw [hp])
        · exact .inr (by simp [hp, chars, hq, hr])
    · have hcs : c :: cs = d :: '=' :: rest := by rw [e, hq, List.cons_append, List.singleton_append]
      obtain ⟨rfl, rfl⟩ := List.cons_eq_cons.mp hcs
      refine .inl ?_
      rw [first_symbol hq hcomment', List.head?_cons, decide_eq_true rfl, punctuator?_equal hq]

theorem first_number_of_leads (hc : c.isDigit = true) (hds : ∀ d ∈ ds, d.isDigit = true) :
    first c (ds ++ rest) = token (.number (Decimal.ofDigits (c :: ds) []).toFloat) (c :: ds) ∨
      (c :: ds).length < (first c (ds ++ rest)).chars.length := by
  rw [first_digit hc, List.takeWhile_append_of_pos hds, List.dropWhile_append_of_pos hds]
  cases hmore : rest.takeWhile Char.isDigit with
  | nil =>
    rw [List.append_nil]
    cases hplaces : fraction (rest.dropWhile Char.isDigit) with
    | nil => exact .inl (by simp [number, hplaces])
    | cons d ds => exact .inr (by simp [number_chars, hplaces])
  | cons d ds =>
    refine .inr ?_
    rw [number_chars]
    split <;> simp

theorem first_fraction_of_leads {places : List Char} (hc : c.isDigit = true)
    (hds : ∀ d ∈ ds, d.isDigit = true) (nonempty : places ≠ [])
    (hplaces : ∀ d ∈ places, d.isDigit = true) :
    first c (ds ++ '.' :: places ++ rest) =
        token (.number (Decimal.ofDigits (c :: ds) places).toFloat) (c :: ds ++ '.' :: places) ∨
      (c :: ds ++ '.' :: places).length <
        (first c (ds ++ '.' :: places ++ rest)).chars.length := by
  have hpoint : Char.isDigit '.' = false := by decide
  have hfraction : fraction ('.' :: places ++ rest) = places ++ rest.takeWhile Char.isDigit := by
    rw [List.cons_append, fraction, List.takeWhile_append_of_pos hplaces]
  rw [first_digit hc, List.append_assoc, List.takeWhile_append_of_pos hds,
    List.dropWhile_append_of_pos hds, List.cons_append, List.takeWhile_cons_of_neg (by simp [hpoint]),
    List.dropWhile_cons_of_neg (by simp [hpoint]), List.append_nil, ← List.cons_append, number,
    hfraction]
  cases hmore : rest.takeWhile Char.isDigit with
  | nil => exact .inl (by simp [nonempty])
  | cons d ds => exact .inr (by simp [chars, nonempty])

theorem first_name_of_leads (hc : isNameStart c = true) (hds : ∀ d ∈ ds, isNamePart d = true) :
    first c (ds ++ rest) = token (word (c :: ds)) (c :: ds) ∨
      (c :: ds).length < (first c (ds ++ rest)).chars.length := by
  rw [first_nameStart hc, List.takeWhile_append_of_pos hds]
  cases hmore : rest.takeWhile isNamePart with
  | nil => exact .inl (by rw [List.append_nil])
  | cons d ds => exact .inr (by simp [chars])

/-- A regular piece that a text starts with is the first one, or the first one is longer. -/
theorem Regular.first_of_leads (h : p.Regular) (e : c :: cs = p.chars ++ rest) :
    first c cs = p ∨ p.chars.length < (first c cs).chars.length := by
  cases h with
  | blank d hd =>
    obtain ⟨rfl, rfl⟩ := List.cons_eq_cons.mp e
    refine .inl (first_blank ?_)
    simpa [isBlank, or_assoc] using hd
  | comment body hbody =>
    have hcs : c :: cs = '/' :: '/' :: (body ++ rest) := e
    obtain ⟨rfl, rfl⟩ := List.cons_eq_cons.mp hcs
    have htake : (body ++ rest).takeWhile (· ≠ '\n') = body ++ rest.takeWhile (· ≠ '\n') :=
      List.takeWhile_append_of_pos (by simpa using fun d hd => ne_of_mem_of_not_mem hd hbody)
    rw [first_slashes, htake]
    cases hmore : rest.takeWhile (· ≠ '\n') with
    | nil => exact .inl (by rw [List.append_nil])
    | cons d ds => exact .inr (by simp [chars])
  | punctuator q => exact first_punctuator_of_leads q e
  | whole digits nonempty hdigits =>
    obtain ⟨d, ds, rfl⟩ := List.exists_cons_of_ne_nil nonempty
    obtain ⟨hd, hds⟩ := List.forall_mem_cons.mp hdigits
    obtain ⟨rfl, rfl⟩ := List.cons_eq_cons.mp e
    exact first_number_of_leads hd hds
  | fractional digits places nonempty hdigits nonempty' hplaces =>
    obtain ⟨d, ds, rfl⟩ := List.exists_cons_of_ne_nil nonempty
    obtain ⟨hd, hds⟩ := List.forall_mem_cons.mp hdigits
    obtain ⟨rfl, rfl⟩ := List.cons_eq_cons.mp e
    exact first_fraction_of_leads hd hds nonempty' hplaces
  | keyword k =>
    obtain ⟨d, ds, hk, hd, hds⟩ := keyword_spelling k
    have hcs : c :: cs = d :: ds ++ rest := by rw [e, chars, hk]
    obtain ⟨rfl, rfl⟩ := List.cons_eq_cons.mp hcs
    rw [← word_spelling, hk]
    exact first_name_of_leads hd hds
  | identifier d ds start hds hk =>
    obtain ⟨rfl, rfl⟩ := List.cons_eq_cons.mp e
    rw [← word_eq_identifier hk]
    exact first_name_of_leads (isNameStart_iff.mpr start)
      fun d hd => isNamePart_iff.mpr (hds d hd)
  | string body hbody =>
    have hcs : c :: cs = '"' :: (body ++ '"' :: rest) := by
      rw [e, chars, List.append_assoc, List.cons_append, List.singleton_append]
    obtain ⟨rfl, rfl⟩ := List.cons_eq_cons.mp hcs
    exact .inl (by rw [first_quote, quoted_closed rest hbody])

theorem Regular.chars_ne_nil (h : p.Regular) : p.chars ≠ [] := by
  cases h with
  | whole _ nonempty _ => exact nonempty
  | punctuator q => cases q <;> exact List.cons_ne_nil _ _
  | keyword k => cases k <;> exact List.cons_ne_nil _ _
  | fractional => exact List.append_ne_nil_of_right_ne_nil _ (List.cons_ne_nil _ _)
  | _ => exact List.cons_ne_nil _ _

theorem Regular.string_of_leads (h : p.Regular) (e : '"' :: cs = p.chars ++ rest) :
    ∃ body, '"' ∉ body ∧ p = token (.string (String.ofList body)) ('"' :: body ++ ['"']) := by
  have hdigits : ∀ {digits more : List Char}, digits ≠ [] → '"' :: cs = digits ++ more →
      ¬ ∀ d ∈ digits, d.isDigit = true := by
    intro digits more nonempty hcs hdigits
    obtain ⟨d, ds, rfl⟩ := List.exists_cons_of_ne_nil nonempty
    obtain ⟨rfl, -⟩ := List.cons_eq_cons.mp hcs
    exact absurd (hdigits '"' List.mem_cons_self) (by decide)
  cases h with
  | string body hbody => exact ⟨body, hbody, rfl⟩
  | blank d hd =>
    obtain ⟨rfl, -⟩ := List.cons_eq_cons.mp e
    exact absurd hd (by decide)
  | comment => cases e
  | punctuator q => cases q <;> cases e
  | keyword k => cases k <;> cases e
  | whole digits nonempty h => exact absurd h (hdigits nonempty e)
  | fractional digits places nonempty h =>
    exact absurd h (hdigits nonempty (e.trans (List.append_assoc _ _ _)))
  | identifier d ds start =>
    obtain ⟨rfl, -⟩ := List.cons_eq_cons.mp e
    exact absurd start (by decide)

/-- Where a text starts with some regular piece, the first piece is regular too. -/
theorem Regular.first (h : p.Regular) (e : c :: cs = p.chars ++ rest) : (first c cs).Regular := by
  rcases first_cases c cs with hregular | ⟨rfl, -⟩ | ⟨-, hstray⟩
  · exact hregular
  · obtain ⟨body, hbody, rfl⟩ := h.string_of_leads e
    have hcs : cs = body ++ '"' :: rest := by simpa [chars] using e
    rw [hcs, first_quote, quoted_closed rest hbody]
    exact .string body hbody
  · have hlength : (Piece.first c cs).chars.length = 1 := by rw [hstray]; rfl
    have hpos : 0 < p.chars.length := List.length_pos_iff.mpr h.chars_ne_nil
    rcases h.first_of_leads e with hfirst | hlonger
    · rwa [hfirst]
    · omega

theorem Longest.first_eq (h : Longest (c :: cs) p) : first c cs = p := by
  obtain ⟨rest, e⟩ := h.leads
  have hle := h.longest _ (h.regular.first e.symm) (first_chars_isPrefix c cs)
  rcases h.regular.first_of_leads e.symm with hfirst | hlonger
  · exact hfirst
  · omega

theorem longest_first (h : (first c cs).Regular) : Longest (c :: cs) (first c cs) := by
  refine ⟨h, first_chars_isPrefix c cs, fun q hq hleads => ?_⟩
  obtain ⟨rest, e⟩ := hleads
  rcases hq.first_of_leads e.symm with rfl | hlonger
  · exact Nat.le_refl _
  · exact hlonger.le

theorem leads_iff : Leads (c :: cs) p ↔ p = first c cs := by
  constructor
  · rintro (h | none | ⟨none, h⟩)
    · exact h.first_eq.symm
    · rcases first_cases '"' cs with hregular | ⟨-, hopen⟩ | ⟨hquote, -⟩
      · exact absurd (first_chars_isPrefix '"' cs) (none _ hregular)
      · exact hopen.symm
      · exact absurd rfl hquote
    · rcases first_cases c cs with hregular | ⟨hquote, -⟩ | ⟨-, hstray⟩
      · exact absurd (first_chars_isPrefix c cs) (none _ hregular)
      · exact absurd hquote h
      · exact hstray.symm
  · rintro rfl
    have hnone (hirregular : ¬ (first c cs).Regular) :
        ∀ q : Piece, q.Regular → ¬ q.chars <+: c :: cs := by
      rintro q hq ⟨rest, e⟩
      exact hirregular (hq.first e.symm)
    by_cases hregular : (first c cs).Regular
    · exact .regular (longest_first hregular)
    · rcases first_cases c cs with h | ⟨rfl, hopen⟩ | ⟨hquote, hstray⟩
      · exact absurd h hregular
      · rw [hopen]
        exact .openString (hnone hregular)
      · rw [hstray]
        exact .stray (hnone hregular) hquote

end Longest

section Cut

theorem first_chars_ne_nil (c : Char) (cs : List Char) : (first c cs).chars ≠ [] := by
  rcases first_cases c cs with hregular | ⟨-, hopen⟩ | ⟨-, hstray⟩
  · exact hregular.chars_ne_nil
  · rw [hopen]
    exact List.cons_ne_nil _ _
  · rw [hstray]
    exact List.cons_ne_nil _ _

theorem splitAfter_eq_split (n : Nat) (cs : List Char) : splitAfter n cs = split (cs.drop n) := by
  induction n generalizing cs with
  | zero => rfl
  | succ n ih =>
    cases cs with
    | nil => rfl
    | cons c cs => exact ih cs

theorem split_cons (c : Char) (cs : List Char) :
    split (c :: cs) = first c cs :: split ((c :: cs).drop (first c cs).chars.length) := by
  have hpos : 0 < (first c cs).chars.length := List.length_pos_iff.mpr (first_chars_ne_nil c cs)
  obtain ⟨n, hn⟩ := Nat.exists_eq_add_of_lt hpos
  rw [hn, Nat.zero_add, List.drop_succ_cons, split, splitAfter, hn, Nat.zero_add,
    Nat.add_sub_cancel, splitAfter_eq_split]

/-- A text that starts with the characters of its first piece. -/
theorem split_append {p : Piece} {rest : List Char} (nonempty : p.chars ≠ [])
    (h : Leads (p.chars ++ rest) p) : split (p.chars ++ rest) = p :: split rest := by
  obtain ⟨c, cs, hcs⟩ := List.exists_cons_of_ne_nil (List.append_ne_nil_of_left_ne_nil nonempty rest)
  rw [hcs, leads_iff] at h
  rw [hcs, split_cons, ← h, ← hcs, List.drop_left]

theorem Cut.eq_split (h : Cut cs ps) : ps = split cs := by
  induction h with
  | done => rfl
  | piece nonempty leads _ ih => rw [split_append nonempty leads, ih]

theorem cut_split (cs : List Char) : Cut cs (split cs) := by
  -- The induction is on the length: what is left after the first piece is shorter.
  induction hn : cs.length using Nat.strongRecOn generalizing cs with
  | ind n ih =>
    cases cs with
    | nil => exact .done
    | cons c cs =>
      obtain ⟨rest, e⟩ := first_chars_isPrefix c cs
      have hpos := List.length_pos_iff.mpr (first_chars_ne_nil c cs)
      have hshorter : rest.length < n := by
        rw [← hn, ← e, List.length_append]
        omega
      have hleads : Leads ((first c cs).chars ++ rest) (first c cs) := by
        rw [e, leads_iff]
      rw [← e, split_append (first_chars_ne_nil c cs) hleads]
      exact .piece (first_chars_ne_nil c cs) hleads (ih _ hshorter rest rfl)

theorem existsUnique_cut (cs : List Char) : ∃! ps, Cut cs ps :=
  ⟨split cs, cut_split cs, fun _ h => h.eq_split⟩

end Cut

end Piece

end TreeWalk
