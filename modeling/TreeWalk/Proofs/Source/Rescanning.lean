import TreeWalk.Proofs.Source.Seam

/-! Scanning the texts of tokens again: with single blanks between them they are the same tokens, so
what a token is can be told from its text alone. -/

namespace TreeWalk

/-- A token without its line. -/
def Token.word (t : Token) : Kind × String :=
  (t.kind, t.lexeme)

section Intersperse

variable {α β : Type} {sep : α}

theorem filterMap_intersperse {f : α → Option β} (hsep : f sep = none) (l : List α) :
    (l.intersperse sep).filterMap f = l.filterMap f := by
  induction l with
  | nil => rfl
  | cons a l ih =>
    cases l with
    | nil => rfl
    | cons b l =>
      rw [List.intersperse_cons_cons, List.filterMap_cons, List.filterMap_cons_none hsep, ih,
        ← List.filterMap_cons]

theorem mem_of_mem_intersperse {a : α} {l : List α} (h : a ∈ l.intersperse sep) :
    a = sep ∨ a ∈ l := by
  induction l with
  | nil => cases h
  | cons b l ih =>
    cases l with
    | nil => exact .inr h
    | cons c l =>
      rw [List.intersperse_cons_cons] at h
      rcases List.mem_cons.mp h with rfl | h
      · exact .inr List.mem_cons_self
      · rcases List.mem_cons.mp h with rfl | h
        · exact .inl rfl
        · exact (ih h).imp id (List.mem_cons_of_mem b)

end Intersperse

namespace Piece

/-- The token that a piece is, without a line. -/
def word? : Piece → Option (Kind × String)
  | token kind lexeme => some (kind, String.ofList lexeme)
  | _ => none

section Alone

variable {rest : List Char} {class_ : Char → Bool} {kind : Kind} {lexeme : List Char}

/-- Nothing follows, or a blank does. -/
def Separated (rest : List Char) : Prop :=
  rest.head? = none ∨ rest.head? = some ' '

theorem Separated.head?_ne (h : Separated rest) {d : Char} (hd : d ≠ ' ') :
    rest.head? ≠ some d := by
  rcases h with h | h
  · simp [h]
  · intro hsame
    exact hd (Option.some.inj (hsame.symm.trans h))

theorem Separated.takeWhile_eq_nil (h : Separated rest) (hblank : class_ ' ' = false) :
    rest.takeWhile class_ = [] := by
  cases rest with
  | nil => rfl
  | cons d rest =>
    have hd : class_ d = false := by
      rcases h with h | h
      · cases h
      · rw [Option.some.inj h, hblank]
    rw [List.takeWhile_cons, hd]
    rfl

theorem Separated.dropWhile_eq (h : Separated rest) (hblank : class_ ' ' = false) :
    rest.dropWhile class_ = rest := by
  have htake := h.takeWhile_eq_nil hblank
  calc rest.dropWhile class_ = rest.takeWhile class_ ++ rest.dropWhile class_ := by rw [htake]; rfl
    _ = rest := List.takeWhile_append_dropWhile

theorem Separated.fraction_eq_nil (h : Separated rest) : fraction rest = [] := by
  unfold fraction
  split
  · exact absurd rfl (h.head?_ne (by decide : '.' ≠ ' '))
  · rfl

theorem Separated.first_punctuator (h : Separated rest) {q : Punctuator} {c : Char}
    {cs : List Char} (hq : q.spelling = c :: cs) :
    first c (cs ++ rest) = token (.punctuator q) q.spelling := by
  rcases spelling_cases q with ⟨d, hd⟩ | ⟨d, hd⟩
  · obtain ⟨rfl, rfl⟩ := List.cons_eq_cons.mp (hq.symm.trans hd)
    have hequal : decide (rest.head? = some '=') = false :=
      decide_eq_false (h.head?_ne (by decide))
    rw [List.nil_append, first_symbol hq (fun _ => h.head?_ne (by decide)), hequal,
      punctuator?_single hq]
  · obtain ⟨rfl, rfl⟩ := List.cons_eq_cons.mp (hq.symm.trans hd)
    rw [List.singleton_append, first_symbol hq (fun _ => by simp), List.head?_cons,
      decide_eq_true rfl, punctuator?_equal hq]

theorem Separated.first_number (h : Separated rest) {digits : List Char} {c : Char}
    (hc : c.isDigit = true) (hdigits : ∀ d ∈ digits, d.isDigit = true) :
    first c (digits ++ rest) =
      token (.number (Decimal.ofDigits (c :: digits) []).toFloat) (c :: digits) := by
  have hblank : Char.isDigit ' ' = false := by decide
  rw [first_digit hc, List.takeWhile_append_of_pos hdigits, List.dropWhile_append_of_pos hdigits,
    h.takeWhile_eq_nil hblank, h.dropWhile_eq hblank, List.append_nil, number, h.fraction_eq_nil]
  rfl

theorem Separated.first_fraction (h : Separated rest) {digits places : List Char} {c : Char}
    (hc : c.isDigit = true) (hdigits : ∀ d ∈ digits, d.isDigit = true) (nonempty : places ≠ [])
    (hplaces : ∀ d ∈ places, d.isDigit = true) :
    first c (digits ++ '.' :: places ++ rest) =
      token (.number (Decimal.ofDigits (c :: digits) places).toFloat)
        (c :: digits ++ '.' :: places) := by
  have hpoint : Char.isDigit '.' = false := by decide
  have hfraction : fraction ('.' :: (places ++ rest)) = places := by
    rw [fraction, List.takeWhile_append_of_pos hplaces, h.takeWhile_eq_nil (by decide),
      List.append_nil]
  rw [first_digit hc, List.append_assoc, List.takeWhile_append_of_pos hdigits,
    List.dropWhile_append_of_pos hdigits, List.cons_append,
    List.takeWhile_cons_of_neg (by simp [hpoint]), List.dropWhile_cons_of_neg (by simp [hpoint]),
    List.append_nil, number, hfraction]
  simp [nonempty]

theorem Separated.first_name (h : Separated rest) {c : Char} {cs : List Char}
    (hc : isNameStart c = true) (hcs : ∀ d ∈ cs, isNamePart d = true) :
    first c (cs ++ rest) = token (word (c :: cs)) (c :: cs) := by
  rw [first_nameStart hc, List.takeWhile_append_of_pos hcs, h.takeWhile_eq_nil (by decide),
    List.append_nil]

/-- Every form of token stands for itself where nothing or a blank follows it, whatever followed it
elsewhere. -/
theorem Regular.first_separated (h : (token kind lexeme).Regular) (hrest : Separated rest) {c : Char}
    {cs : List Char} (e : lexeme = c :: cs) : Piece.first c (cs ++ rest) = token kind lexeme := by
  generalize hp : token kind lexeme = p at h
  -- A form that more characters could make longer goes on with none of them before a blank.
  cases h with
  | blank | comment => cases hp
  | punctuator q =>
    cases hp
    exact hrest.first_punctuator e
  | whole digits nonempty hdigits =>
    cases hp
    subst e
    obtain ⟨hc, hcs⟩ := List.forall_mem_cons.mp hdigits
    exact hrest.first_number hc hcs
  | fractional digits places nonempty hdigits nonempty' hplaces =>
    cases hp
    obtain ⟨d, ds, rfl⟩ := List.exists_cons_of_ne_nil nonempty
    obtain ⟨hd, hds⟩ := List.forall_mem_cons.mp hdigits
    cases e
    exact hrest.first_fraction hd hds nonempty' hplaces
  | keyword k =>
    cases hp
    obtain ⟨d, ds, hk, hd, hds⟩ := keyword_spelling k
    obtain ⟨rfl, rfl⟩ := List.cons_eq_cons.mp (hk.symm.trans e)
    rw [← word_spelling, hk]
    exact hrest.first_name hd hds
  | identifier d ds start hds hk =>
    cases hp
    cases e
    rw [← word_eq_identifier hk]
    apply hrest.first_name (isNameStart_iff.mpr start)
    intro d hd
    exact isNamePart_iff.mpr (hds d hd)
  | string body hbody =>
    cases hp
    have hlexeme : '"' :: (body ++ ['"']) = c :: cs := e
    obtain ⟨rfl, rfl⟩ := List.cons_eq_cons.mp hlexeme
    rw [first_quote, List.append_assoc, List.singleton_append, quoted_closed rest hbody]

theorem Regular.split_separated (h : (token kind lexeme).Regular) (hrest : Separated rest) :
    split (lexeme ++ rest) = token kind lexeme :: split rest := by
  obtain ⟨c, cs, e⟩ := List.exists_cons_of_ne_nil h.chars_ne_nil
  have hlexeme : lexeme = c :: cs := e
  have hleads : Leads (lexeme ++ rest) (token kind lexeme) := by
    rw [hlexeme, List.cons_append, leads_iff, ← hlexeme]
    exact (h.first_separated hrest hlexeme).symm
  exact split_append h.chars_ne_nil hleads

theorem Regular.split_alone (h : (token kind lexeme).Regular) :
    split lexeme = [token kind lexeme] := by
  have hsplit := h.split_separated (.inl List.head?_nil)
  rw [List.append_nil] at hsplit
  exact hsplit

/-- A text is of one kind only. -/
theorem Regular.kind_eq {kind' : Kind} (h : (token kind lexeme).Regular)
    (h' : (token kind' lexeme).Regular) : kind = kind' := by
  -- Either token is all that the text is cut into.
  have hpieces := h.split_alone.symm.trans h'.split_alone
  injection hpieces with hpiece
  injection hpiece

theorem split_space (cs : List Char) : split (' ' :: cs) = blank ' ' :: split cs := by
  rw [split_cons, first_blank (by decide)]
  rfl

/-- The pieces of tokens with blanks between them. -/
theorem split_intercalate {ws : List (Kind × List Char)}
    (h : ∀ w ∈ ws, (token w.1 w.2).Regular) :
    split ([' '].intercalate (ws.map Prod.snd)) =
      (ws.map fun w => token w.1 w.2).intersperse (blank ' ') := by
  induction ws with
  | nil => rfl
  | cons w ws ih =>
    obtain ⟨hw, hws⟩ := List.forall_mem_cons.mp h
    cases ws with
    | nil =>
      rw [List.map_singleton, List.intercalate_singleton, hw.split_alone]
      rfl
    | cons w' ws =>
      have hblank : Separated (' ' :: [' '].intercalate ((w' :: ws).map Prod.snd)) :=
        .inr List.head?_cons
      have hsplit := hw.split_separated hblank
      rw [split_space, ih hws] at hsplit
      simpa [List.intercalate_cons_cons] using hsplit

end Alone

/-- The tokens among the pieces of a text are regular. -/
theorem Cut.regular_of_mem {cs : List Char} {ps : List Piece} (h : Cut cs ps) {kind : Kind}
    {lexeme : List Char} (hmem : token kind lexeme ∈ ps) : (token kind lexeme).Regular := by
  induction h with
  | done => cases hmem
  | @piece p rest ps _ leads _ ih =>
    rcases List.mem_cons.mp hmem with heq | hmem
    · rw [← heq] at leads
      generalize (token kind lexeme).chars ++ rest = text at leads
      cases leads with
      | regular hlongest => exact hlongest.regular
    · exact ih hmem

end Piece

namespace Source

/-- The texts of the tokens of a source, the end mark left out. -/
def lexemes (source : String) : List String :=
  (tokens source).dropLast.map Token.lexeme

section Words

variable {source : String} {line : Nat} {ps : List Piece}

theorem words_itemsFrom (line : Nat) (ps : List Piece) :
    ((itemsFrom line ps).filterMap tokenOf?).map Token.word =
      ps.filterMap Piece.word? ++ [(.eof, "")] := by
  induction ps generalizing line with
  | nil => rfl
  | cons p ps ih =>
    rw [itemsFrom, List.filterMap_append, List.map_append, ih]
    cases p <;> rfl

theorem words_tokens (source : String) : (tokens source).map Token.word =
    (Piece.split source.toList).filterMap Piece.word? ++ [(.eof, "")] :=
  words_itemsFrom 1 _

theorem lexemes_eq (source : String) :
    lexemes source = ((Piece.split source.toList).filterMap Piece.word?).map Prod.snd := by
  have hwords := congrArg (List.map Prod.snd) (words_tokens source)
  rw [List.map_map, List.map_append] at hwords
  have hlexemes := congrArg List.dropLast hwords
  rw [← List.map_dropLast, List.map_singleton, List.dropLast_concat] at hlexemes
  exact hlexemes

/-- Each word of a source is a regular token. -/
theorem regular_of_mem_words {w : Kind × String}
    (h : w ∈ (Piece.split source.toList).filterMap Piece.word?) :
    (Piece.token w.1 w.2.toList).Regular := by
  obtain ⟨p, hp, hw⟩ := List.mem_filterMap.mp h
  cases p with
  | token kind lexeme =>
    cases hw
    rw [String.toList_ofList]
    exact (Piece.cut_split _).regular_of_mem hp
  | blank | comment | openString | stray => cases hw

theorem errors_itemsFrom_eq_nil (h : ∀ p ∈ ps, ∀ line d, p.item? line ≠ some (.error d)) :
    (itemsFrom line ps).filterMap errorOf? = [] := by
  induction ps generalizing line with
  | nil => rfl
  | cons p ps ih =>
    obtain ⟨hp, hps⟩ := List.forall_mem_cons.mp h
    rw [itemsFrom, List.filterMap_append, ih hps, List.append_nil]
    cases hitem : p.item? (line + p.newlines) with
    | none => rfl
    | some item =>
      cases item with
      | ok t => rfl
      | error d => exact absurd hitem (hp _ d)

/-- The texts of the tokens with blanks between them are cut into the same tokens. -/
theorem split_lexemes (source : String) :
    Piece.split (" ".intercalate (lexemes source)).toList =
      (((Piece.split source.toList).filterMap Piece.word?).map fun w =>
        Piece.token w.1 w.2.toList).intersperse (.blank ' ') := by
  generalize hws : (Piece.split source.toList).filterMap Piece.word? = ws
  have hregular : ∀ w ∈ ws.map (fun w => (w.1, w.2.toList)),
      (Piece.token w.1 w.2).Regular := by
    intro w hw
    obtain ⟨w', hw', rfl⟩ := List.mem_map.mp hw
    exact regular_of_mem_words (hws ▸ hw')
  have htext : (" ".intercalate (lexemes source)).toList =
      [' '].intercalate ((ws.map fun w => (w.1, w.2.toList)).map Prod.snd) := by
    rw [String.toList_intercalate, lexemes_eq, hws, List.map_map, List.map_map]
    rfl
  rw [htext, Piece.split_intercalate hregular, List.map_map]
  rfl

theorem errors_lexemes (source : String) : errors (" ".intercalate (lexemes source)) = [] := by
  rw [errors, items, split_lexemes]
  apply errors_itemsFrom_eq_nil
  intro p hp line d herror
  rcases mem_of_mem_intersperse hp with rfl | hp
  · cases herror
  · obtain ⟨w, -, rfl⟩ := List.mem_map.mp hp
    cases herror

theorem words_lexemes (source : String) :
    (tokens (" ".intercalate (lexemes source))).map Token.word =
      (tokens source).map Token.word := by
  have hword : (Piece.word? ∘ fun w : Kind × String => Piece.token w.1 w.2.toList) = some := by
    funext w
    simp only [Function.comp_apply, Piece.word?, String.ofList_toList]
  rw [words_tokens, words_tokens, split_lexemes, filterMap_intersperse rfl, List.filterMap_map,
    hword, List.filterMap_some]

/-- A token is the end mark or one of the words of its source. -/
theorem word_cases {t : Token} (h : t ∈ tokens source) :
    t.word = (.eof, "") ∨ (Piece.token t.kind t.lexeme.toList).Regular := by
  have hword : t.word ∈ (tokens source).map Token.word := List.mem_map_of_mem h
  rw [words_tokens] at hword
  rcases List.mem_append.mp hword with hword | hword
  · exact .inr (regular_of_mem_words hword)
  · exact .inl (List.mem_singleton.mp hword)

/-- Tokens of the same text are of the same kind, and have the same value. -/
theorem kind_eq_of_lexeme_eq {other : String} {t t' : Token} (h : t ∈ tokens source)
    (h' : t' ∈ tokens other) (hlexeme : t.lexeme = t'.lexeme) : t.kind = t'.kind := by
  have hempty {u : Token} (hu : (Piece.token u.kind u.lexeme.toList).Regular) : u.lexeme ≠ "" := by
    intro hnone
    apply hu.chars_ne_nil
    rw [Piece.chars, hnone]
    rfl
  rcases word_cases h with hend | hregular <;> rcases word_cases h' with hend' | hregular'
  · exact (congrArg Prod.fst hend).trans (congrArg Prod.fst hend').symm
  · exact absurd (hlexeme.symm.trans (congrArg Prod.snd hend)) (hempty hregular')
  · exact absurd (hlexeme.trans (congrArg Prod.snd hend')) (hempty hregular)
  · rw [← hlexeme] at hregular'
    exact hregular.kind_eq hregular'

/-- The texts of a source's tokens, with single blanks between them, are scanned without an error
into the same tokens. So the text of a token determines its kind and value, and comparing tokens
without their values takes no two of them for equal that have different ones. -/
theorem rescan_stable (source : String) :
    errors (" ".intercalate (lexemes source)) = [] ∧
      (tokens (" ".intercalate (lexemes source))).map Token.word =
        (tokens source).map Token.word ∧
      ∀ other, ∀ t ∈ tokens source, ∀ t' ∈ tokens other,
        (t.lexeme = t'.lexeme → t.kind = t'.kind) ∧ (t.agrees t' = true → t = t') := by
  refine ⟨errors_lexemes source, words_lexemes source, ?_⟩
  intro other t ht t' ht'
  refine ⟨kind_eq_of_lexeme_eq ht ht', ?_⟩
  intro hagrees
  simp only [Token.agrees, Bool.and_eq_true, decide_eq_true_eq] at hagrees
  obtain ⟨⟨-, hlexeme⟩, hline⟩ := hagrees
  have hkind := kind_eq_of_lexeme_eq ht ht' hlexeme
  cases t
  cases t'
  simp only [Token.mk.injEq]
  exact ⟨hkind, hlexeme, hline⟩

end Words

end Source

end TreeWalk
