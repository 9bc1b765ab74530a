import TreeWalk.Proofs.Grammar.LineBlind
import TreeWalk.Proofs.Outline.Words

/-! Outlines are faithful. A legible expression is read back from its outline, all but identities
and lines, so two of them with the same outline differ in nothing else. -/

namespace TreeWalk
open Bracketed Grammar

namespace Expr

/-- The expression without its identities and lines. -/
def bare (e : Expr) : Expr :=
  e.map (fun _ => 0) (·.onLine 0)

def bareAll (es : List Expr) : List Expr :=
  mapAll (fun _ => 0) (·.onLine 0) es

theorem bare_call (callee : Expr) (paren : Token) (arguments : List Expr) :
    (call callee paren arguments).bare =
      call callee.bare (paren.onLine 0) (bareAll arguments) :=
  rfl

section Outlines

mutual

/-- Outlines show neither identities nor lines. -/
theorem bracketed_bare (e : Expr) : e.bare.bracketed = e.bracketed := by
  match e with
  | literal _ | var _ _ => rfl
  | grouping inner => simp only [bare, map, bracketed, ← bracketed_bare inner]
  | unary _ right => simp only [bare, map, bracketed, Token.onLine, ← bracketed_bare right]
  | binary left _ right | logical left _ right =>
    simp only [bare, map, bracketed, Token.onLine, ← bracketed_bare left, ← bracketed_bare right]
  | assign _ _ value => simp only [bare, map, bracketed, Token.onLine, ← bracketed_bare value]
  | call callee _ arguments =>
    simp only [bare, map, bracketed, ← bracketed_bare callee, ← bracketedAll_bareAll arguments,
      bareAll]

theorem bracketedAll_bareAll (es : List Expr) : bracketedAll (bareAll es) = bracketedAll es := by
  match es with
  | [] => rfl
  | e :: es =>
    simp only [bareAll, mapAll, bracketedAll, ← bracketed_bare e, ← bracketedAll_bareAll es, bare]

end

end Outlines

end Expr

namespace Bracketed

/-- The token that a word is the text of. -/
def tokenOf (w : List Char) : Token :=
  match Piece.split w with
  | [.token kind lexeme] => ⟨kind, String.ofList lexeme, 0⟩
  | _ => .endMark 0

/-- A word by itself is a constant or a variable. -/
def atom (w : List Char) : Expr :=
  match (tokenOf w).constant? with
  | some value => .literal value
  | none => .var 0 (tokenOf w)

def closingParen : Token :=
  ⟨.punctuator .rightParen, ")", 0⟩

/-- Groups and calls are headed by names, which are no operators. An operator with a single operand
is a sign, also where the same operator could join two. -/
def operation (head : Token) (operands : List Expr) : Expr :=
  match head.kind, operands with
  -- A group has one item and a call has one or more, so the head is what tells them apart.
  | .identifier, e :: es =>
    if head.lexeme = "group" then .grouping e else .call e closingParen es
  | .punctuator .equal, [.var _ name, value] => .assign 0 name value
  | .keyword _, [left, right] => .logical left head right
  | _, [right] => .unary head right
  | _, [left, right] => .binary left head right
  | _, _ => .literal .nil

mutual

def toExpr : Bracketed → Expr
  | word w => atom w
  | list head items => operation (tokenOf head) (toExprs items)

def toExprs : List Bracketed → List Expr
  | [] => []
  | b :: bs => toExpr b :: toExprs bs

end

section Reading

variable {head t : Token} {left right : Expr}

theorem tokenOf_lexeme (h : t.Regular) : tokenOf t.lexeme.toList = t.onLine 0 := by
  rw [tokenOf, h.split_alone]
  simp only [String.ofList_toList]
  rfl

theorem atom_name (h : t.Regular) (hkind : t.kind = .identifier) :
    atom t.lexeme.toList = .var 0 (t.onLine 0) := by
  have hnone : (t.onLine 0).constant? = none := constant?_eq_none (.inl hkind)
  rw [atom, tokenOf_lexeme h, hnone]

theorem atom_literal {value : Literal} (hplain : value.IsPlain) (ht : t.Regular)
    (hvalue : Constant t value) : atom value.outline.toList = .literal value := by
  obtain ⟨kind, hregular, hconstant⟩ := Literal.exists_token hplain ht hvalue
  have hword : tokenOf value.outline.toList = ⟨kind, value.outline, 0⟩ := tokenOf_lexeme hregular
  rw [atom, hword, hconstant.constant?]

theorem operation_unary (h : head.kind ∈ Operation.unaryKinds) :
    operation head [right] = .unary head right := by
  simp only [Operation.unaryKinds, List.mem_cons, List.not_mem_nil, or_false] at h
  unfold operation
  rcases h with h | h <;> rw [h]

theorem operation_binary (h : head.kind ∈ Operation.binaryKinds) :
    operation head [left, right] = .binary left head right := by
  simp only [Operation.binaryKinds, List.mem_cons, List.not_mem_nil, or_false] at h
  unfold operation
  rcases h with h | h | h | h | h | h | h | h | h | h <;> rw [h]

theorem operation_logical (h : head.kind ∈ Operation.logicalKinds) :
    operation head [left, right] = .logical left head right := by
  simp only [Operation.logicalKinds, List.mem_cons, List.not_mem_nil, or_false] at h
  unfold operation
  rcases h with h | h <;> rw [h]

end Reading

end Bracketed

namespace Expr

section Legible

/-- The head of a group, as a token. -/
def groupHead : Token :=
  ⟨.identifier, "group", 0⟩

def callHead : Token :=
  ⟨.identifier, "call", 0⟩

def assignHead : Token :=
  ⟨.punctuator .equal, "=", 0⟩

theorem regular_groupHead : groupHead.Regular := by
  have hparts : ∀ d ∈ ['r', 'o', 'u', 'p'], Piece.isNamePart d = true :=
    List.all_eq_true.mp (by decide)
  have hname := Piece.regular_word (c := 'g') (by decide) hparts
  exact hname

theorem regular_callHead : callHead.Regular := by
  have hparts : ∀ d ∈ ['a', 'l', 'l'], Piece.isNamePart d = true :=
    List.all_eq_true.mp (by decide)
  have hname := Piece.regular_word (c := 'c') (by decide) hparts
  exact hname

theorem regular_assignHead : assignHead.Regular :=
  .punctuator .equal

theorem isWord_operator {t : Token} (ht : t.Regular)
    (hkind : t.kind ∈ Operation.unaryKinds ++ Operation.binaryKinds ++ Operation.logicalKinds) :
    IsWord t.lexeme.toList := by
  apply Piece.Regular.isWord ht
  all_goals
    intros
    intro h
    rw [h] at hkind
    simp [Operation.unaryKinds, Operation.binaryKinds, Operation.logicalKinds] at hkind

theorem isWord_name {t : Token} (ht : t.Regular) (hkind : t.kind = .identifier) :
    IsWord t.lexeme.toList := by
  apply Piece.Regular.isWord ht
  all_goals
    rw [hkind]
    intros
    nofun

mutual

theorem readable_bracketed (e : Expr) (h : ∀ part ∈ e.parts, part.Legible) :
    e.bracketed.Readable := by
  match e with
  | literal value =>
    have hnode := List.forall_mem_singleton.mp h
    obtain ⟨t, ht, hvalue⟩ := hnode.madeOf
    exact .word (Literal.isWord_outline (hnode.value value rfl) ht hvalue)
  | grouping inner =>
    obtain ⟨-, hinner⟩ := List.forall_mem_cons.mp h
    exact .list (isWord_name regular_groupHead rfl) (.cons (readable_bracketed inner hinner) .nil)
  | unary operator right =>
    obtain ⟨hnode, hright⟩ := List.forall_mem_cons.mp h
    have hkind := List.mem_append_left Operation.binaryKinds hnode.operator
    have hhead := isWord_operator hnode.madeOf (List.mem_append_left _ hkind)
    exact .list hhead (.cons (readable_bracketed right hright) .nil)
  | binary left operator right =>
    obtain ⟨hnode, hoperands⟩ := List.forall_mem_cons.mp h
    obtain ⟨hleft, hright⟩ := List.forall_mem_append.mp hoperands
    have hkind := List.mem_append_right Operation.unaryKinds hnode.operator
    have hhead := isWord_operator hnode.madeOf (List.mem_append_left _ hkind)
    exact .list hhead (.cons (readable_bracketed left hleft)
      (.cons (readable_bracketed right hright) .nil))
  | logical left operator right =>
    obtain ⟨hnode, hoperands⟩ := List.forall_mem_cons.mp h
    obtain ⟨hleft, hright⟩ := List.forall_mem_append.mp hoperands
    have hhead := isWord_operator hnode.madeOf (List.mem_append_right _ hnode.operator)
    exact .list hhead (.cons (readable_bracketed left hleft)
      (.cons (readable_bracketed right hright) .nil))
  | var id name =>
    have hnode := List.forall_mem_singleton.mp h
    exact .word (isWord_name hnode.madeOf.1 hnode.madeOf.2)
  | assign id name value =>
    obtain ⟨hnode, hvalue⟩ := List.forall_mem_cons.mp h
    have hname := isWord_name hnode.madeOf.1 hnode.madeOf.2
    exact .list (Piece.Regular.isWord regular_assignHead nofun nofun nofun)
      (.cons (.word hname) (.cons (readable_bracketed value hvalue) .nil))
  | call callee paren arguments =>
    obtain ⟨-, hrest⟩ := List.forall_mem_cons.mp h
    obtain ⟨hcallee, harguments⟩ := List.forall_mem_append.mp hrest
    exact .list (isWord_name regular_callHead rfl) (.cons (readable_bracketed callee hcallee)
      (allReadable_bracketedAll arguments harguments))

theorem allReadable_bracketedAll (es : List Expr) (h : ∀ part ∈ partsOfAll es, part.Legible) :
    AllReadable (bracketedAll es) := by
  match es with
  | [] => exact .nil
  | e :: es =>
    obtain ⟨he, hes⟩ := List.forall_mem_append.mp h
    exact .cons (readable_bracketed e he) (allReadable_bracketedAll es hes)

end

mutual

/-- A legible expression is read back from its outline. -/
theorem toExpr_bracketed (e : Expr) (h : ∀ part ∈ e.parts, part.Legible) :
    e.bracketed.toExpr = e.bare := by
  match e with
  | literal value =>
    have hnode := List.forall_mem_singleton.mp h
    obtain ⟨t, ht, hvalue⟩ := hnode.madeOf
    exact atom_literal (hnode.value value rfl) ht hvalue
  | grouping inner =>
    obtain ⟨-, hinner⟩ := List.forall_mem_cons.mp h
    have hhead : tokenOf "group".toList = groupHead := tokenOf_lexeme regular_groupHead
    rw [bracketed, toExpr, hhead, toExprs, toExprs, toExpr_bracketed inner hinner]
    rfl
  | unary operator right =>
    obtain ⟨hnode, hright⟩ := List.forall_mem_cons.mp h
    have hhead := tokenOf_lexeme hnode.madeOf
    have hread := toExpr_bracketed right hright
    simp only [bracketed, toExpr, toExprs, hhead, hread]
    exact operation_unary hnode.operator
  | binary left operator right =>
    obtain ⟨hnode, hoperands⟩ := List.forall_mem_cons.mp h
    obtain ⟨hleft, hright⟩ := List.forall_mem_append.mp hoperands
    simp only [bracketed, toExpr, toExprs, tokenOf_lexeme hnode.madeOf,
      toExpr_bracketed left hleft, toExpr_bracketed right hright]
    exact operation_binary hnode.operator
  | logical left operator right =>
    obtain ⟨hnode, hoperands⟩ := List.forall_mem_cons.mp h
    obtain ⟨hleft, hright⟩ := List.forall_mem_append.mp hoperands
    simp only [bracketed, toExpr, toExprs, tokenOf_lexeme hnode.madeOf,
      toExpr_bracketed left hleft, toExpr_bracketed right hright]
    exact operation_logical hnode.operator
  | var id name =>
    have hnode := List.forall_mem_singleton.mp h
    exact atom_name hnode.madeOf.1 hnode.madeOf.2
  | assign id name value =>
    obtain ⟨hnode, hvalue⟩ := List.forall_mem_cons.mp h
    have hhead : tokenOf ['='] = assignHead := tokenOf_lexeme regular_assignHead
    -- The name that is assigned is read as a variable at first.
    have hname := atom_name hnode.madeOf.1 hnode.madeOf.2
    rw [bracketed, toExpr, hhead, toExprs, toExprs, toExprs, toExpr_bracketed value hvalue, toExpr,
      hname]
    rfl
  | call callee paren arguments =>
    obtain ⟨hnode, hrest⟩ := List.forall_mem_cons.mp h
    obtain ⟨hcallee, harguments⟩ := List.forall_mem_append.mp hrest
    have hhead : tokenOf "call".toList = callHead := tokenOf_lexeme regular_callHead
    -- The parenthesis is not shown, but there is only one that it can be.
    have hparen : paren.onLine 0 = closingParen := by
      rw [Token.onLine, hnode.madeOf.1.lexeme_of_punctuator hnode.madeOf.2, hnode.madeOf.2]
      rfl
    rw [bracketed, toExpr, hhead, toExprs, toExpr_bracketed callee hcallee,
      toExprs_bracketedAll arguments harguments, bare_call, hparen]
    rfl

theorem toExprs_bracketedAll (es : List Expr) (h : ∀ part ∈ partsOfAll es, part.Legible) :
    toExprs (bracketedAll es) = bareAll es := by
  match es with
  | [] => rfl
  | e :: es =>
    obtain ⟨he, hes⟩ := List.forall_mem_append.mp h
    rw [bracketedAll, toExprs, toExpr_bracketed e he, toExprs_bracketedAll es hes]
    rfl

end

end Legible

section Lines

/-- The number one with these decimal places. -/
def oneWith (places : List Char) : Float :=
  (Decimal.ofDigits ['1'] places).toFloat

/-- The text of a call with a sign in it, the lines left open. -/
def signedCallTokens (line line' : Nat) (places : List Char) (lexeme : String) : List Token :=
  [⟨.identifier, "f", 1⟩, ⟨.punctuator .leftParen, "(", line⟩, ⟨.punctuator .minus, "-", line⟩,
    ⟨.number (oneWith places), lexeme, line⟩, ⟨.punctuator .rightParen, ")", line'⟩]

def signedCall (id : NodeId) (line line' : Nat) (places : List Char) : Expr :=
  .call (.var id ⟨.identifier, "f", 1⟩) ⟨.punctuator .rightParen, ")", line'⟩
    [.unary ⟨.punctuator .minus, "-", line⟩ (.literal (.number (oneWith places)))]

theorem parse_signedCall (id : NodeId) (line line' : Nat) (places : List Char) (lexeme : String) :
    parseExpression (signedCallTokens line line' places lexeme ++ [Token.endMark line']) id =
      (.ok (signedCall id line line' places), id + 1) := by
  have hends : ∀ t ∈ signedCallTokens line line' places lexeme, t.isEnd = false := by
    simp [signedCallTokens, Token.isEnd, Kind.agrees]
  have hcallee : Phrase .call id [⟨.identifier, "f", 1⟩] (.var id ⟨.identifier, "f", 1⟩) (id + 1) :=
    (Phrase.name rfl).loosen (by decide)
  have hnumber : Phrase .unary (id + 1) [⟨.number (oneWith places), lexeme, line⟩]
      (.literal (.number (oneWith places))) (id + 1) :=
    (Phrase.constant (.number rfl)).loosen (by decide)
  have hsigned : Phrase .unary (id + 1)
      [⟨.punctuator .minus, "-", line⟩, ⟨.number (oneWith places), lexeme, line⟩]
      (.unary ⟨.punctuator .minus, "-", line⟩ (.literal (.number (oneWith places)))) (id + 1) :=
    .unary (.inr rfl) hnumber
  have harguments := Arguments.one (hsigned.loosen (Level.assignment_loosest _))
  apply (parseExpression_eq_iff hends rfl).mpr
  exact (Phrase.call hcallee rfl harguments (by simp) rfl).loosen (Level.assignment_loosest _)

theorem plain_signedCall {places : List Char} (h : (oneWith places).isInf = false) (id : NodeId)
    (line line' : Nat) : (signedCall id line line' places).PlainLiterals := by
  intro value hvalue
  obtain rfl : value = .number (oneWith places) := by
    simpa [signedCall, parts, partsOfAll] using hvalue
  exact h

end Lines

/-- Two expressions parsed from the tokens of sources, with neither strings nor infinite numbers in
them, have the same outline exactly if they differ in identities and lines at most. -/
theorem outline_faithful {source₁ source₂ : String} {n₁ n₁' n₂ n₂' : NodeId} {e₁ e₂ : Expr}
    (h₁ : parseExpression (Source.tokens source₁) n₁ = (.ok e₁, n₁'))
    (h₂ : parseExpression (Source.tokens source₂) n₂ = (.ok e₂, n₂'))
    (hplain₁ : e₁.PlainLiterals) (hplain₂ : e₂.PlainLiterals) :
    e₁.outline = e₂.outline ↔ e₁.bare = e₂.bare := by
  have hlegible₁ := legible_of_parsed h₁ hplain₁
  have hlegible₂ := legible_of_parsed h₂ hplain₂
  constructor
  · intro houtline
    -- The same text is the same tree of words, which is read back as one expression.
    have htext : e₁.bracketed.text = e₂.bracketed.text := by
      rw [← toList_outline, ← toList_outline, houtline]
    have hbracketed : e₁.bracketed = e₂.bracketed :=
      text_inj (readable_bracketed e₁ hlegible₁) (readable_bracketed e₂ hlegible₂) htext
    calc e₁.bare = e₁.bracketed.toExpr := (toExpr_bracketed e₁ hlegible₁).symm
      _ = e₂.bracketed.toExpr := by rw [hbracketed]
      _ = e₂.bare := toExpr_bracketed e₂ hlegible₂
  · intro hbare
    apply String.toList_inj.mp
    calc e₁.outline.toList = e₁.bare.bracketed.text := by rw [bracketed_bare, toList_outline]
      _ = e₂.bare.bracketed.text := by rw [hbare]
      _ = e₂.outline.toList := by rw [bracketed_bare, toList_outline]

/-- A call on one line, and on three lines with a decimal place in its number. -/
theorem outline_faithful_lines :
    parseExpression (Source.tokens "f(-1)") 0 = (.ok (signedCall 0 1 1 []), 1) ∧
      parseExpression (Source.tokens "f\n( - 1.0\n)") 7 = (.ok (signedCall 7 2 3 ['0']), 8) ∧
      (signedCall 0 1 1 []).outline = "(call f (- 1.0))" ∧
      (signedCall 7 2 3 ['0']).outline = "(call f (- 1.0))" ∧
      (signedCall 0 1 1 []).bare = (signedCall 7 2 3 ['0']).bare := by
  have htokens₁ : Source.tokens "f(-1)" =
      signedCallTokens 1 1 [] "1" ++ [Token.endMark 1] := by decide +kernel
  have htokens₂ : Source.tokens "f\n( - 1.0\n)" =
      signedCallTokens 2 3 ['0'] "1.0" ++ [Token.endMark 3] := by decide +kernel
  have hparse₁ := parse_signedCall 0 1 1 [] "1"
  have hparse₂ := parse_signedCall 7 2 3 ['0'] "1.0"
  rw [← htokens₁] at hparse₁
  rw [← htokens₂] at hparse₂
  have houtline₁ : (signedCall 0 1 1 []).outline = "(call f (- 1.0))" := by decide +kernel
  have houtline₂ : (signedCall 7 2 3 ['0']).outline = "(call f (- 1.0))" := by decide +kernel
  have hfinite₁ : (oneWith []).isInf = false := by decide +kernel
  have hfinite₂ : (oneWith ['0']).isInf = false := by decide +kernel
  have hfaithful := outline_faithful hparse₁ hparse₂ (plain_signedCall hfinite₁ 0 1 1)
    (plain_signedCall hfinite₂ 7 2 3)
  exact ⟨hparse₁, hparse₂, houtline₁, houtline₂, hfaithful.mp (houtline₁.trans houtline₂.symm)⟩

end Expr

end TreeWalk
