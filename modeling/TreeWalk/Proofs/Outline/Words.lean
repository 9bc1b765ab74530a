import TreeWalk.Proofs.Grammar.Operators
import TreeWalk.Proofs.Number.LiteralTexts
import TreeWalk.Proofs.Outline.Bracketed

/-! The words in outlines of parsed expressions. Each node of the tree keeps tokens of the source,
whose texts no delimiter cuts in two; and what an outline shows of a constant is the text of a token
of that constant. -/

namespace TreeWalk
open Bracketed Grammar

section Words

variable {kind : Kind} {lexeme : List Char}

theorem isDelimiter_of_class {class_ : Char → Bool} (none : [' ', '(', ')'].any class_ = false)
    {c : Char} (h : class_ c = true) : isDelimiter c = false := by
  rw [Bool.eq_false_iff]
  intro hdelimiter
  have hc : c ∈ [' ', '(', ')'] := by
    simpa [isDelimiter, or_assoc] using hdelimiter
  exact List.any_eq_false.mp none c hc h

/-- Strings apart, delimiters are tokens of their own. -/
theorem Piece.Regular.isWord (h : (Piece.token kind lexeme).Regular)
    (hstring : ∀ s, kind ≠ .string s) (hopening : kind ≠ .punctuator .leftParen)
    (hclosing : kind ≠ .punctuator .rightParen) : IsWord lexeme := by
  refine ⟨h.chars_ne_nil, ?_⟩
  have hdigit {d : Char} (hd : d.isDigit = true) : isDelimiter d = false :=
    isDelimiter_of_class (by decide) hd
  have hname {c : Char} {cs : List Char} (hc : isNameStart c = true)
      (hcs : ∀ d ∈ cs, isNamePart d = true) : ∀ d ∈ c :: cs, isDelimiter d = false :=
    List.forall_mem_cons.mpr ⟨isDelimiter_of_class (by decide) hc,
      fun d hd => isDelimiter_of_class (by decide) (hcs d hd)⟩
  generalize hp : Piece.token kind lexeme = p at h
  cases h with
  | blank | comment => cases hp
  | punctuator q =>
    cases hp
    cases q with
    | leftParen => exact absurd rfl hopening
    | rightParen => exact absurd rfl hclosing
    | _ => simp [Punctuator.spelling, isDelimiter]
  | whole digits nonempty hdigits =>
    cases hp
    intro d hd
    exact hdigit (hdigits d hd)
  | fractional digits places nonempty hdigits nonempty' hplaces =>
    cases hp
    intro d hd
    rcases List.mem_append.mp hd with hd | hd
    · exact hdigit (hdigits d hd)
    · rcases List.mem_cons.mp hd with rfl | hd
      · rfl
      · exact hdigit (hplaces d hd)
  | keyword k =>
    cases hp
    obtain ⟨c, cs, hk, hc, hcs⟩ := keyword_spelling k
    rw [hk]
    exact hname hc hcs
  | identifier c cs start hcs =>
    cases hp
    exact hname (isNameStart_iff.mpr start) fun d hd => isNamePart_iff.mpr (hcs d hd)
  | string body => exact absurd (by cases hp; rfl) (hstring (String.ofList body))

/-- A token as scanning gives it, the end mark left out. -/
def Token.Regular (t : Token) : Prop :=
  (Piece.token t.kind t.lexeme.toList).Regular

/-- A punctuator has a single text. -/
theorem Token.Regular.lexeme_of_punctuator {t : Token} {p : Punctuator} (h : t.Regular)
    (hkind : t.kind = .punctuator p) : t.lexeme = String.ofList p.spelling := by
  rw [Token.Regular, hkind] at h
  generalize hp : Piece.token (.punctuator p) t.lexeme.toList = piece at h
  cases h with
  | punctuator q =>
    injection hp with hpunctuator hlexeme
    cases hpunctuator
    rw [← hlexeme, String.ofList_toList]
  | _ => cases hp

theorem Source.regular_of_mem_tokens {source : String} {t : Token} (h : t ∈ tokens source)
    (hend : t.isEnd = false) : t.Regular := by
  rcases word_cases h with hword | hregular
  · have hkind : t.kind = .eof := congrArg Prod.fst hword
    rw [Token.isEnd_iff.mpr hkind] at hend
    cases hend
  · exact hregular

end Words

namespace Literal

/-- The constants whose texts in outlines are not those of others: neither strings, which are shown
without their quotes, nor infinite. -/
def IsPlain : Literal → Prop
  | .string _ => False
  | .number x => x.isInf = false
  | _ => True

/-- What an outline shows of a constant is the text of a token of that constant. -/
theorem exists_token {value : Literal} (hplain : value.IsPlain) {t : Token} (ht : t.Regular)
    (hvalue : Constant t value) :
    ∃ kind, (Token.mk kind value.outline 0).Regular ∧ Constant ⟨kind, value.outline, 0⟩ value := by
  cases hvalue with
  | number hkind =>
    rename_i x
    -- The outline may spell the number otherwise than the source did, but as a token of it.
    rw [Token.Regular, hkind] at ht
    obtain ⟨hfinite, hsign⟩ := Numeral.isFinite_of_regular ht hplain
    exact ⟨.number x, Numeral.regular_ofOutline hfinite hsign, .number rfl⟩
  | string => cases hplain
  | true_ => exact ⟨.keyword .true_, .keyword .true_, .true_ rfl⟩
  | false_ => exact ⟨.keyword .false_, .keyword .false_, .false_ rfl⟩
  | nil => exact ⟨.keyword .nil_, .keyword .nil_, .nil rfl⟩

theorem isWord_outline {value : Literal} (hplain : value.IsPlain) {t : Token} (ht : t.Regular)
    (hvalue : Constant t value) : IsWord value.outline.toList := by
  obtain ⟨kind, hregular, hconstant⟩ := exists_token hplain ht hvalue
  apply Piece.Regular.isWord hregular
  all_goals
    intros
    rintro rfl
    cases hconstant with
    | string => exact hplain
    | _ hkind => cases hkind

end Literal

namespace Expr

/-- The tokens that the node itself was made from have the property `p`. -/
def MadeOf (p : Token → Prop) : Expr → Prop
  | literal value => ∃ t, p t ∧ Constant t value
  | grouping _ => True
  | unary operator _ => p operator
  | binary _ operator _ => p operator
  | logical _ operator _ => p operator
  | var _ name => p name ∧ name.kind = .identifier
  | assign _ name _ => p name ∧ name.kind = .identifier
  | call _ paren _ => p paren ∧ paren.kind = .punctuator .rightParen

/-- There are no constants in an expression but plain ones. -/
def PlainLiterals (e : Expr) : Prop :=
  ∀ value, literal value ∈ e.parts → value.IsPlain

end Expr

namespace Grammar

variable {p : Token → Prop}

theorem Level.madeOf_join {level : Level} {left right : Expr} {operator : Token} (h : p operator) :
    (level.join left operator right).MadeOf p := by
  cases level <;> exact h

mutual

/-- Whatever is true of all tokens is true of those that the tree keeps. -/
theorem Phrase.madeOf {level : Level} {n n' : Nat} {ts : List Token} {e : Expr}
    (h : Phrase level n ts e n') (hts : ∀ t ∈ ts, p t) : ∀ part ∈ e.parts, part.MadeOf p := by
  -- The property is handed down to the tokens of each operand, as the rule divides them.
  match h with
  | .tighter _ h => exact h.madeOf hts
  | .operation _ _ h h' =>
    obtain ⟨hleft, hright⟩ := List.forall_mem_append.mp hts
    obtain ⟨hoperator, hright⟩ := List.forall_mem_cons.mp hright
    rw [Level.parts_join]
    exact List.forall_mem_cons.mpr ⟨Level.madeOf_join hoperator,
      List.forall_mem_append.mpr ⟨h.madeOf hleft, h'.madeOf hright⟩⟩
  | .assignment hkind _ h =>
    obtain ⟨hname, hrest⟩ := List.forall_mem_cons.mp hts
    obtain ⟨-, hvalue⟩ := List.forall_mem_cons.mp hrest
    exact List.forall_mem_cons.mpr ⟨⟨hname, hkind⟩, h.madeOf hvalue⟩
  | .unary _ h =>
    obtain ⟨hoperator, hright⟩ := List.forall_mem_cons.mp hts
    exact List.forall_mem_cons.mpr ⟨hoperator, h.madeOf hright⟩
  | .emptyCall h _ hkind =>
    obtain ⟨hcallee, hparens⟩ := List.forall_mem_append.mp hts
    have hclosing := hparens _ (List.mem_cons_of_mem _ List.mem_cons_self)
    exact List.forall_mem_cons.mpr ⟨⟨hclosing, hkind⟩,
      List.forall_mem_append.mpr ⟨h.madeOf hcallee, fun part hpart => nomatch hpart⟩⟩
  | .call h _ harguments _ hkind =>
    obtain ⟨hcallee, hrest⟩ := List.forall_mem_append.mp hts
    obtain ⟨-, hrest⟩ := List.forall_mem_cons.mp hrest
    obtain ⟨hinside, hclosing⟩ := List.forall_mem_append.mp hrest
    exact List.forall_mem_cons.mpr ⟨⟨List.forall_mem_singleton.mp hclosing, hkind⟩,
      List.forall_mem_append.mpr ⟨h.madeOf hcallee, harguments.madeOf hinside⟩⟩
  | .constant hvalue =>
    exact List.forall_mem_singleton.mpr ⟨_, List.forall_mem_singleton.mp hts, hvalue⟩
  | .name hkind =>
    exact List.forall_mem_singleton.mpr ⟨List.forall_mem_singleton.mp hts, hkind⟩
  | .grouping _ h _ =>
    obtain ⟨-, hrest⟩ := List.forall_mem_cons.mp hts
    obtain ⟨hinner, -⟩ := List.forall_mem_append.mp hrest
    exact List.forall_mem_cons.mpr ⟨trivial, h.madeOf hinner⟩

theorem Arguments.madeOf {n n' : Nat} {ts : List Token} {es : List Expr}
    (h : Arguments n ts es n') (hts : ∀ t ∈ ts, p t) :
    ∀ part ∈ Expr.partsOfAll es, part.MadeOf p := by
  match h with
  | .one h =>
    rw [Expr.partsOfAll, Expr.partsOfAll, List.append_nil]
    exact h.madeOf hts
  | .more h _ h' =>
    obtain ⟨hfirst, hrest⟩ := List.forall_mem_append.mp hts
    obtain ⟨-, hlast⟩ := List.forall_mem_cons.mp hrest
    rw [Expr.partsOfAll_append, Expr.partsOfAll, Expr.partsOfAll, List.append_nil]
    exact List.forall_mem_append.mpr ⟨h.madeOf hfirst, h'.madeOf hlast⟩

end

end Grammar

namespace Expr

/-- What an outline shows of the node itself can be read back. -/
structure Legible (e : Expr) : Prop where
  madeOf : e.MadeOf Token.Regular
  operator : e.OperatorFits
  value : ∀ value, e = literal value → value.IsPlain

/-- A parsed expression is legible throughout, if its constants are plain. -/
theorem legible_of_parsed {source : String} {n n' : NodeId} {e : Expr}
    (h : parseExpression (Source.tokens source) n = (.ok e, n')) (hplain : e.PlainLiterals) :
    ∀ part ∈ e.parts, part.Legible := by
  obtain ⟨line, htokens, hends⟩ := Source.tokens_eq source
  have hregular : ∀ t ∈ (Source.tokens source).dropLast, t.Regular := by
    intro t ht
    exact Source.regular_of_mem_tokens (List.mem_of_mem_dropLast ht) (hends t ht)
  rw [htokens] at h
  have hphrase := (parseExpression_eq_iff hends rfl).mp h
  intro part hpart
  refine ⟨hphrase.madeOf hregular part hpart, hphrase.fitting part hpart, ?_⟩
  rintro value rfl
  exact hplain value hpart

end Expr

end TreeWalk
