import TreeWalk.Proofs.Grammar.ExpressionCompleteness

/-! The rules for statements and declarations take whatever the grammar derives with every
alternative belonging to the nearest condition before it. -/

namespace TreeWalk.Grammar

theorem Parameters.head {ts params : List Token} (h : Parameters ts params) :
    ∃ name ts', ts = name :: ts' ∧ name.kind = .identifier := by
  induction h with
  | one hname => exact ⟨_, _, rfl, hname⟩
  | more _ _ _ ih =>
    obtain ⟨name, ts', rfl, hname⟩ := ih
    exact ⟨name, _, rfl, hname⟩

/-- A statement starts with a token that is neither the word for another declaration nor anything
that closes or continues the statement before it. -/
theorem Statement.head {attachment : Attachment} {n n' : Nat} {ts : List Token} {s : Stmt}
    {dangling : Bool} (h : Statement attachment n ts s dangling n') : ∃ t ts', ts = t :: ts' ∧
      t.kind ≠ .keyword .fun_ ∧ t.kind ≠ .keyword .var_ ∧ t.kind ≠ .keyword .else_ ∧
      t.kind ≠ .punctuator .rightBrace := by
  cases h with
  | expression h =>
    cases h with
    | intro h =>
      obtain ⟨t, ts', rfl, hstart, -⟩ := h.head
      refine ⟨t, _, rfl, ?_, ?_, ?_, ?_⟩ <;> intro hk <;> rw [hk] at hstart <;> cases hstart
  | print hk => exact ⟨_, _, rfl, by simp [hk]⟩
  | returnFrom hk => exact ⟨_, _, rfl, by simp [hk]⟩
  | whileLoop hk => exact ⟨_, _, rfl, by simp [hk]⟩
  | ifThen hk => exact ⟨_, _, rfl, by simp [hk]⟩
  | ifElse hk => exact ⟨_, _, rfl, by simp [hk]⟩
  | forLoop hk => exact ⟨_, _, rfl, by simp [hk]⟩
  | block hk => exact ⟨_, _, rfl, by simp [hk]⟩

theorem Declaration.head {attachment : Attachment} {n n' : Nat} {ts : List Token} {s : Stmt}
    {dangling : Bool} (h : Declaration attachment n ts s dangling n') : ∃ t ts', ts = t :: ts' ∧
      t.kind ≠ .keyword .else_ ∧ t.kind ≠ .punctuator .rightBrace := by
  cases h with
  | function hk => exact ⟨_, _, rfl, by simp [hk]⟩
  | binding h => cases h with
    | bare hk => exact ⟨_, _, rfl, by simp [hk]⟩
    | initialized hk => exact ⟨_, _, rfl, by simp [hk]⟩
  | statement h =>
    obtain ⟨t, ts', rfl, -, -, helse, hbrace⟩ := h.head
    exact ⟨t, ts', rfl, helse, hbrace⟩

end TreeWalk.Grammar

namespace TreeWalk.Rule
open Grammar

section Simple

variable {n n' : Nat} {ts : List Token} {s : Stmt}

theorem expression_takes_before {e : Expr} {closing : Token} {p : Punctuator}
    (h : Phrase .assignment n ts e n') (hp : p = .semicolon ∨ p = .rightParen)
    (hclosing : closing.kind = .punctuator p) (more : List Token) :
    Takes Rule.expression (ts ++ closing :: more) n e (closing :: more) n' := by
  refine expression_takes h (stops_closing ?_)
  rcases hp with rfl | rfl <;> simp [hclosing]

theorem optionalExpression_takes {value : Option Expr} {closing : Token} {p : Punctuator}
    (h : OptionalPhrase n ts value n') (hp : p = .semicolon ∨ p = .rightParen)
    (hclosing : closing.kind = .punctuator p) (more : List Token) :
    Takes (optionalExpression p) (ts ++ closing :: more) n value (closing :: more) n' := by
  cases h with
  | absent => exact (Takes.sees (Token.isPunctuator_iff.mpr hclosing)).bind Takes.pure
  | present h =>
    have htakes := expression_takes_before h hp hclosing more
    obtain ⟨t, ts', rfl, hstart, -⟩ := h.head
    have hnot : t.isPunctuator p = false := by
      rcases hp with rfl | rfl
      · exact not_punctuator_of_starts hstart rfl
      · exact not_punctuator_of_starts hstart rfl
    exact (Takes.sees hnot).bind (htakes.bind Takes.pure)

theorem expressionStatement_takes (h : ExpressionStatement n ts s n') (more : List Token) :
    Takes expressionStatement (ts ++ more) n s more n' := by
  cases h with
  | intro h hsemicolon =>
    have htakes := expression_takes_before h (Or.inl rfl) hsemicolon more
    have hend := Token.isPunctuator_iff.mpr hsemicolon
    rw [List.append_assoc, List.cons_append, List.nil_append]
    exact htakes.bind ((Takes.expect hend).discard.bind Takes.pure)

/-- A declaration of a variable, less the word it starts with. -/
theorem variableDeclaration_takes (h : VariableDeclaration n ts s n') :
    ∃ keyword ts', ts = keyword :: ts' ∧ keyword.kind = .keyword .var_ ∧
      ∀ more, Takes variableDeclaration (ts' ++ more) n s more n' := by
  cases h with
  | @bare keyword name semicolon hk hname hsemicolon =>
    refine ⟨_, _, rfl, hk, fun more => ?_⟩
    have hend := Token.isPunctuator_iff.mpr hsemicolon
    have hlacks : Lacks (·.isPunctuator .equal) (semicolon :: more) :=
      lacks_punctuator (by simp [hsemicolon])
    refine (Takes.expect (Token.isIdentifier_iff.mpr hname)).bind ?_
    refine (Takes.accepts_false hlacks).bind ?_
    exact Takes.pure.bind ((Takes.expect hend).discard.bind Takes.pure)
  | initialized hk hname hequals he hsemicolon =>
    refine ⟨_, _, rfl, hk, fun more => ?_⟩
    have hend := Token.isPunctuator_iff.mpr hsemicolon
    have htakes := expression_takes_before he (Or.inl rfl) hsemicolon more
    simp only [List.cons_append, List.append_assoc, List.nil_append]
    refine (Takes.expect (Token.isIdentifier_iff.mpr hname)).bind ?_
    refine (Takes.accepts (Token.isPunctuator_iff.mpr hequals)).bind ?_
    exact htakes.map.bind ((Takes.expect hend).discard.bind Takes.pure)

theorem forInitializer_takes {first : Option Stmt} (h : LoopStart n ts first n')
    (more : List Token) : Takes forInitializer (ts ++ more) n first more n' := by
  cases h with
  | absent hsemicolon =>
    exact (Takes.accepts (Token.isPunctuator_iff.mpr hsemicolon)).bind Takes.pure
  | declaration h =>
    obtain ⟨keyword, ts', rfl, hk, htakes⟩ := variableDeclaration_takes h
    refine (Takes.accepts_false (lacks_punctuator (by simp [hk]))).bind ?_
    refine (Takes.accepts (Token.isKeyword_iff.mpr hk)).bind ?_
    exact (htakes more).bind Takes.pure
  | expression h =>
    have htakes := expressionStatement_takes h more
    cases h with
    | intro h _ =>
      obtain ⟨t, ts', rfl, hstart, -⟩ := h.head
      refine (Takes.accepts_false (lacks_cons.mpr (not_punctuator_of_starts hstart rfl))).bind ?_
      refine (Takes.accepts_false (lacks_cons.mpr (not_keyword_of_starts hstart rfl))).bind ?_
      exact htakes.bind Takes.pure

/-- By induction on the parameters taken so far. -/
theorem parameters_reaches (n : Nat) {params : List Token} (h : Parameters ts params)
    (hlen : params.length ≤ 255) (more : List Token) :
    Reaches (commaSeparated .tooManyParameters (expect Token.isIdentifier .parameterName))
      (ts ++ more) n (fun bound => moreItems .tooManyParameters
        (expect Token.isIdentifier .parameterName) bound params) more n := by
  induction h generalizing more with
  | one hname => exact commaSeparated_first (Takes.expect (Token.isIdentifier_iff.mpr hname))
  | more _ hcomma hname ih =>
    next ts params comma name _ =>
    simp only [List.length_append, List.length_cons, List.length_nil] at hlen
    have hfirst := ih (by omega) (comma :: name :: more)
    have hlast : Takes (expect Token.isIdentifier .parameterName) (name :: more) n name more n :=
      Takes.expect (Token.isIdentifier_iff.mpr hname)
    rw [List.append_assoc, List.cons_append, List.cons_append, List.nil_append]
    refine hfirst.step ?_ fun bound => moreItems_round hcomma (by omega) hlast
    simp only [List.length_cons]
    omega

theorem parameters_takes {params : List Token} {closing : Token}
    (h : OptionalParameters ts params) (hclosing : closing.kind = .punctuator .rightParen)
    (more : List Token) : Takes parameters (ts ++ closing :: more) n params more n := by
  have hparen := Token.isPunctuator_iff.mpr hclosing
  cases h with
  | absent =>
    refine (Takes.sees hparen).bind ?_
    exact Takes.pure.bind ((Takes.expect hparen).discard.bind Takes.pure)
  | present h hlen =>
    have hcomma : Lacks (·.isPunctuator .comma) (closing :: more) :=
      lacks_punctuator (by simp [hclosing])
    have hreaches := parameters_reaches n h hlen (closing :: more)
    have hlist := hreaches.takes fun bound => moreItems_end hcomma
    obtain ⟨name, ts', rfl, hname⟩ := h.head
    have hnot : name.isPunctuator .rightParen = false :=
      Token.isPunctuator_eq_false (by simp [hname])
    refine (Takes.sees hnot).bind ?_
    exact hlist.bind ((Takes.expect hparen).discard.bind Takes.pure)

/-- A condition in parentheses, and what comes after it. -/
theorem condition_takes {β : Type} {before after : Expectation} {rest : Expr → Rule β} {b : β}
    {n₁ : Nat} {opening closing : Token} {ts' more : List Token} {e : Expr}
    (hopening : opening.kind = .punctuator .leftParen) (h : Phrase .assignment n ts e n₁)
    (hclosing : closing.kind = .punctuator .rightParen)
    (hrest : Takes (rest e) ts' n₁ b more n') :
    Takes (do
      discard (expect (·.isPunctuator .leftParen) before)
      let condition ← Rule.expression
      discard (expect (·.isPunctuator .rightParen) after)
      rest condition) (opening :: (ts ++ closing :: ts')) n b more n' := by
  have htakes := expression_takes_before h (Or.inr rfl) hclosing ts'
  refine (Takes.expect (Token.isPunctuator_iff.mpr hopening)).discard.bind (htakes.bind ?_)
  exact (Takes.expect (Token.isPunctuator_iff.mpr hclosing)).discard.bind hrest

end Simple

section Nested

variable {statement : Rule Stmt} {block : Rule (List Stmt)} {size : Nat}

/-- A rule takes every statement that is no longer than `size`, unless an alternative follows that
could belong to it. -/
def CompletesStatement (size : Nat) (r : Rule Stmt) : Prop :=
  ∀ n ts s dangling n' more, Statement .nearest n ts s dangling n' → ts.length ≤ size →
    (dangling = true → Lacks (·.isKeyword .else_) more) → Takes r (ts ++ more) n s more n'

/-- A rule takes the inside of every block that is no longer than `size`. -/
def CompletesBlock (size : Nat) (r : Rule (List Stmt)) : Prop :=
  ∀ n ts body n' closing more, Declarations .nearest n ts body n' → ts.length ≤ size →
    closing.kind = .punctuator .rightBrace → Takes r (ts ++ closing :: more) n body more n'

theorem statementWith_for {keyword : Token} {ts : List Token} {n : Nat}
    (hk : keyword.kind = .keyword .for_) :
    Becomes (statementWith statement block) (keyword :: ts) n (forStatement statement) ts n := by
  unfold statementWith
  exact Becomes.bind (Takes.accepts (Token.isKeyword_iff.mpr hk))

theorem statementWith_if {keyword : Token} {ts : List Token} {n : Nat}
    (hk : keyword.kind = .keyword .if_) :
    Becomes (statementWith statement block) (keyword :: ts) n (ifStatement statement) ts n := by
  unfold statementWith
  refine (Becomes.bind (Takes.accepts_false (lacks_keyword (by simp [hk])))).trans ?_
  exact Becomes.bind (Takes.accepts (Token.isKeyword_iff.mpr hk))

theorem statementWith_print {keyword : Token} {ts : List Token} {n : Nat}
    (hk : keyword.kind = .keyword .print_) :
    Becomes (statementWith statement block) (keyword :: ts) n printStatement ts n := by
  unfold statementWith
  refine (Becomes.bind (Takes.accepts_false (lacks_keyword (by simp [hk])))).trans ?_
  refine (Becomes.bind (Takes.accepts_false (lacks_keyword (by simp [hk])))).trans ?_
  exact Becomes.bind (Takes.accepts (Token.isKeyword_iff.mpr hk))

theorem statementWith_return {keyword : Token} {ts : List Token} {n : Nat}
    (hk : keyword.kind = .keyword .return_) :
    Becomes (statementWith statement block) (keyword :: ts) n (returnStatement keyword) ts n := by
  unfold statementWith
  refine (Becomes.bind (Takes.accepts_false (lacks_keyword (by simp [hk])))).trans ?_
  refine (Becomes.bind (Takes.accepts_false (lacks_keyword (by simp [hk])))).trans ?_
  refine (Becomes.bind (Takes.accepts_false (lacks_keyword (by simp [hk])))).trans ?_
  exact Becomes.bind (Takes.accept? (Token.isKeyword_iff.mpr hk))

theorem statementWith_while {keyword : Token} {ts : List Token} {n : Nat}
    (hk : keyword.kind = .keyword .while_) :
    Becomes (statementWith statement block) (keyword :: ts) n (whileStatement statement) ts n := by
  unfold statementWith
  refine (Becomes.bind (Takes.accepts_false (lacks_keyword (by simp [hk])))).trans ?_
  refine (Becomes.bind (Takes.accepts_false (lacks_keyword (by simp [hk])))).trans ?_
  refine (Becomes.bind (Takes.accepts_false (lacks_keyword (by simp [hk])))).trans ?_
  refine (Becomes.bind (Takes.accept?_none (lacks_keyword (by simp [hk])))).trans ?_
  exact Becomes.bind (Takes.accepts (Token.isKeyword_iff.mpr hk))

/-- What starts with none of the words for statements is a block or an expression. -/
theorem statementWith_other {t : Token} {ts : List Token} {n : Nat}
    (hno : ∀ k ∈ [Keyword.for_, .if_, .print_, .return_, .while_], t.kind ≠ .keyword k) :
    Becomes (statementWith statement block) (t :: ts) n
      (do
        if ← accepts (·.isPunctuator .leftBrace) then return .block (← block)
        else expressionStatement) (t :: ts) n := by
  have hnot (k : Keyword) (hk : k ∈ [Keyword.for_, .if_, .print_, .return_, .while_]) :
      Lacks (·.isKeyword k) (t :: ts) :=
    lacks_keyword (hno k hk)
  unfold statementWith
  refine (Becomes.bind (Takes.accepts_false (hnot .for_ (by simp)))).trans ?_
  refine (Becomes.bind (Takes.accepts_false (hnot .if_ (by simp)))).trans ?_
  refine (Becomes.bind (Takes.accepts_false (hnot .print_ (by simp)))).trans ?_
  refine (Becomes.bind (Takes.accept?_none (hnot .return_ (by simp)))).trans ?_
  exact Becomes.bind (Takes.accepts_false (hnot .while_ (by simp)))

theorem statementWith_completes (hs : CompletesStatement size statement)
    (hb : CompletesBlock size block) :
    CompletesStatement (size + 1) (statementWith statement block) := by
  intro n ts s dangling n' more h hsize hmore
  cases h with
  | expression h =>
    have htakes := expressionStatement_takes h more
    cases h with
    | intro h hsemicolon =>
      -- What starts an operand is no keyword of another form and no brace.
      obtain ⟨t, ts', rfl, hstart, -⟩ := h.head
      have hno : ∀ k ∈ [Keyword.for_, .if_, .print_, .return_, .while_], t.kind ≠ .keyword k := by
        intro k hk hkind
        rw [hkind] at hstart
        simp only [List.mem_cons, List.not_mem_nil, or_false] at hk
        rcases hk with rfl | rfl | rfl | rfl | rfl <;> cases hstart
      refine (statementWith_other hno).takes ?_
      refine Takes.bind (Takes.accepts_false (lacks_cons.mpr ?_)) htakes
      exact not_punctuator_of_starts hstart rfl
  | print hk h hsemicolon =>
    have htakes := expression_takes_before h (Or.inl rfl) hsemicolon more
    have hend := Token.isPunctuator_iff.mpr hsemicolon
    simp only [List.cons_append, List.append_assoc, List.nil_append]
    refine (statementWith_print hk).takes ?_
    exact htakes.bind ((Takes.expect hend).discard.bind Takes.pure)
  | returnFrom hk h hsemicolon =>
    have htakes := optionalExpression_takes h (Or.inl rfl) hsemicolon more
    have hend := Token.isPunctuator_iff.mpr hsemicolon
    simp only [List.cons_append, List.append_assoc, List.nil_append]
    refine (statementWith_return hk).takes ?_
    exact htakes.bind ((Takes.expect hend).discard.bind Takes.pure)
  | whileLoop hk hopening h hclosing hbody =>
    simp only [List.length_cons, List.length_append] at hsize
    have hrest := hs _ _ _ _ _ more hbody (by omega) hmore
    simp only [List.cons_append, List.append_assoc]
    refine (statementWith_while hk).takes (condition_takes hopening h hclosing ?_)
    exact hrest.bind Takes.pure
  | ifThen hk hopening h hclosing hbranch =>
    simp only [List.length_cons, List.length_append] at hsize
    have hrest := hs _ _ _ _ _ more hbranch (by omega) fun _ => hmore rfl
    have helse : Takes (accepts (·.isKeyword .else_)) more n' false more n' :=
      Takes.accepts_false (hmore rfl)
    simp only [List.cons_append, List.append_assoc]
    refine (statementWith_if hk).takes (condition_takes hopening h hclosing ?_)
    exact hrest.bind (helse.bind Takes.pure)
  | ifElse hk hopening h hclosing hthen hclosed halternative helse =>
    rename_i ts₁ ts₂ ts₃ _ _ _ _ _ _ _ alternative
    simp only [List.length_cons, List.length_append] at hsize
    -- The first branch is closed, so the alternative after it cannot be taken for a part of it.
    have hthen := hs _ _ _ _ _ (alternative :: (ts₃ ++ more)) hthen (by omega) fun hopen =>
      absurd (hclosed rfl) (by simp [hopen])
    have halternative := Token.isKeyword_iff.mpr halternative
    have helse := hs _ _ _ _ _ more helse (by omega) hmore
    simp only [List.cons_append, List.append_assoc]
    refine (statementWith_if hk).takes (condition_takes hopening h hclosing ?_)
    exact hthen.bind ((Takes.accepts halternative).bind (helse.bind Takes.pure))
  | forLoop hk hopening hstart hcondition hsemicolon hincrement hclosing hbody htree =>
    rename_i ts₁ ts₂ ts₃ ts₄ _ _ _ _ _ _ semicolon closing
    obtain rfl := loopTree_iff.mp htree
    simp only [List.length_cons, List.length_append] at hsize
    have hopening := Token.isPunctuator_iff.mpr hopening
    have hinitializer := forInitializer_takes hstart
      (ts₂ ++ semicolon :: (ts₃ ++ closing :: (ts₄ ++ more)))
    have hcondition := optionalExpression_takes hcondition (Or.inl rfl) hsemicolon
      (ts₃ ++ closing :: (ts₄ ++ more))
    have hsemicolon := Token.isPunctuator_iff.mpr hsemicolon
    have hincrement := optionalExpression_takes hincrement (Or.inr rfl) hclosing (ts₄ ++ more)
    have hclosing := Token.isPunctuator_iff.mpr hclosing
    have hbody := hs _ _ _ _ _ more hbody (by omega) hmore
    simp only [List.cons_append, List.append_assoc]
    refine (statementWith_for hk).takes ((Takes.expect hopening).discard.bind ?_)
    refine hinitializer.bind (hcondition.bind ((Takes.expect hsemicolon).discard.bind ?_))
    exact hincrement.bind ((Takes.expect hclosing).discard.bind (hbody.bind Takes.pure))
  | block hopening hbody hclosing =>
    simp only [List.length_cons, List.length_append] at hsize
    have hbody := hb _ _ _ _ _ more hbody (by omega) hclosing
    simp only [List.cons_append, List.append_assoc, List.nil_append]
    refine (statementWith_other fun k _ => by simp [hopening]).takes ?_
    exact (Takes.accepts (Token.isPunctuator_iff.mpr hopening)).bind (hbody.bind Takes.pure)

theorem functionDeclaration_takes (hb : CompletesBlock size block) {n n' : Nat}
    {ts₁ ts₂ params : List Token} {body : List Stmt}
    {name opening closing openingBrace closingBrace : Token} (hname : name.kind = .identifier)
    (hopening : opening.kind = .punctuator .leftParen) (hparams : OptionalParameters ts₁ params)
    (hclosing : closing.kind = .punctuator .rightParen)
    (hopeningBrace : openingBrace.kind = .punctuator .leftBrace)
    (hbody : Declarations .nearest n ts₂ body n') (hsize : ts₂.length ≤ size)
    (hclosingBrace : closingBrace.kind = .punctuator .rightBrace) (more : List Token) :
    Takes (functionDeclaration block) (name :: opening ::
      (ts₁ ++ closing :: openingBrace :: (ts₂ ++ closingBrace :: more))) n
      (.function name params body) more n' := by
  have hopening := Token.isPunctuator_iff.mpr hopening
  have hparams : Takes parameters _ n params _ n :=
    parameters_takes hparams hclosing (openingBrace :: (ts₂ ++ closingBrace :: more))
  have hopeningBrace := Token.isPunctuator_iff.mpr hopeningBrace
  have hbody := hb _ _ _ _ _ more hbody hsize hclosingBrace
  refine (Takes.expect (Token.isIdentifier_iff.mpr hname)).bind ?_
  refine (Takes.expect hopening).discard.bind (hparams.bind ?_)
  exact (Takes.expect hopeningBrace).discard.bind (hbody.bind Takes.pure)

theorem declarationWith_takes
    (hs : CompletesStatement (size + 1) (statementWith statement block))
    (hb : CompletesBlock size block) {n n' : Nat} {ts more : List Token} {s : Stmt}
    {dangling : Bool} (h : Declaration .nearest n ts s dangling n') (hsize : ts.length ≤ size + 1)
    (hmore : dangling = true → Lacks (·.isKeyword .else_) more) :
    Takes (declarationWith statement block) (ts ++ more) n s more n' := by
  cases h with
  | function hk hname hopening hparams hclosing hopeningBrace hbody hclosingBrace =>
    simp only [List.length_cons, List.length_append] at hsize
    have htakes := functionDeclaration_takes hb hname hopening hparams hclosing hopeningBrace
      hbody (by omega) hclosingBrace more
    simp only [List.cons_append, List.append_assoc, List.nil_append]
    exact (Takes.accepts (Token.isKeyword_iff.mpr hk)).bind htakes
  | binding h =>
    obtain ⟨keyword, ts', rfl, hk, htakes⟩ := variableDeclaration_takes h
    refine (Takes.accepts_false (lacks_keyword (by simp [hk]))).bind ?_
    exact (Takes.accepts (Token.isKeyword_iff.mpr hk)).bind (htakes more)
  | statement h =>
    obtain ⟨t, ts', rfl, hfun, hvar, -⟩ := h.head
    have htakes := hs _ _ _ _ _ more h hsize hmore
    refine (Takes.accepts_false (lacks_keyword hfun)).bind ?_
    exact (Takes.accepts_false (lacks_keyword hvar)).bind htakes

end Nested

section Recovery

variable {declaration : StateM Cursor (Option Stmt)} {size : Nat}

/-- A rule takes every declaration that is no longer than `size`, unless an alternative follows
that could belong to it. -/
def CompletesDeclaration (size : Nat) (declaration : StateM Cursor (Option Stmt)) : Prop :=
  ∀ n ts s dangling n' more, Declaration .nearest n ts s dangling n' → ts.length ≤ size →
    (dangling = true → Lacks (·.isKeyword .else_) more) →
    Takes (liftM declaration) (ts ++ more) n (some s) more n'

theorem recovering_takes {rule : Rule Stmt} {n n' : Nat} {ts more : List Token} {s : Stmt}
    (h : Takes rule ts n s more n') : Takes (liftM (recovering rule)) ts n (some s) more n' := by
  exact Takes.liftM_iff.mpr fun stop reports => recovering_ok (h stop reports)

theorem declarationsUntil_end {closes : Token → Bool} {bound n : Nat} {more : List Token}
    (hmore : more.head?.all closes = true) :
    Takes (liftM (declarationsUntil closes declaration bound)) more n [] more n := by
  refine Takes.liftM_iff.mpr fun stop reports => ?_
  cases bound with
  | zero => rfl
  | succ bound => rw [declarationsUntil_succ_apply, if_pos hmore]

theorem declarationsUntil_round {closes : Token → Bool} {bound n n₁ n' : Nat}
    {ts more rest : List Token} {t : Token} {s : Stmt} {others : List Stmt} (ht : closes t = false)
    (hd : Takes (liftM declaration) (t :: ts) n (some s) more n₁)
    (hr : Takes (liftM (declarationsUntil closes declaration bound)) more n₁ others rest n') :
    Takes (liftM (declarationsUntil closes declaration (bound + 1))) (t :: ts) n (s :: others)
      rest n' := by
  refine Takes.liftM_iff.mpr fun stop reports => ?_
  have hopen : ¬ (t :: ts).head?.all closes = true := by simp [ht]
  rw [declarationsUntil_succ_apply, if_neg hopen, Takes.liftM_iff.mp hd stop reports]
  dsimp only
  rw [Takes.liftM_iff.mp hr stop reports]
  rfl

/-- Declarations in a row. None starts with an alternative, so the one before it is whole, and each
takes a token, so the bound is enough. -/
theorem declarationsUntil_takes (hd : CompletesDeclaration size declaration)
    {closes : Token → Bool} (hcloses : ∀ t, closes t = true → t.kind = .punctuator .rightBrace)
    {n n' : Nat} {ts : List Token} {body : List Stmt} (h : Declarations .nearest n ts body n')
    (hsize : ts.length ≤ size) {more : List Token} (hmore : more.head?.all closes = true)
    (helse : Lacks (·.isKeyword .else_) more) {bound : Nat} (hbound : ts.length ≤ bound) :
    Takes (liftM (declarationsUntil closes declaration bound)) (ts ++ more) n body more n' := by
  match h with
  | .nil => exact declarationsUntil_end hmore
  | .cons hfirst hothers =>
    next n₁ ts₁ ts₂ s ss dangling =>
    simp only [List.length_append] at hsize hbound
    have hlacks : Lacks (·.isKeyword .else_) (ts₂ ++ more) := by
      cases hothers with
      | nil => exact helse
      | cons hnext _ =>
        obtain ⟨t, ts', rfl, hk, -⟩ := hnext.head
        exact lacks_keyword hk
    have htakes := hd _ _ _ _ _ (ts₂ ++ more) hfirst (by omega) fun _ => hlacks
    obtain ⟨t, ts', rfl, -, hbrace⟩ := hfirst.head
    simp only [List.length_cons] at hbound
    obtain ⟨bound, rfl⟩ := Nat.exists_eq_succ_of_ne_zero (show bound ≠ 0 by omega)
    have hrest := declarationsUntil_takes hd hcloses hothers (by omega) hmore helse
      (show ts₂.length ≤ bound by omega)
    have hopen : closes t = false := by
      rw [Bool.eq_false_iff]
      exact fun hyes => hbrace (hcloses t hyes)
    rw [List.append_assoc]
    exact declarationsUntil_round hopen htakes hrest

theorem blockOf_completes (hd : CompletesDeclaration size declaration) :
    CompletesBlock size (blockOf declaration) := by
  intro n ts body n' closing more h hsize hclosing
  have hbrace := Token.isPunctuator_iff.mpr hclosing
  refine Takes.get_bind fun stop reports => ?_
  have hmore : (closing :: more).head?.all (·.isPunctuator .rightBrace) = true := by simp [hbrace]
  have hbound : ts.length ≤ (ts ++ closing :: more).length := by simp
  have hbody := declarationsUntil_takes hd (fun t => Token.isPunctuator_iff.mp) h hsize hmore
    (lacks_keyword (by simp [hclosing])) hbound
  exact hbody.bind ((Takes.expect hbrace).discard.bind Takes.pure)

theorem upTo_completes (depth : Nat) : CompletesStatement depth (statementUpTo depth) ∧
    CompletesDeclaration depth (declarationUpTo depth) := by
  induction depth with
  | zero =>
    constructor
    · intro n ts s dangling n' more h hsize _
      obtain ⟨t, ts', rfl, -⟩ := h.head
      simp at hsize
    · intro n ts s dangling n' more h hsize _
      obtain ⟨t, ts', rfl, -⟩ := h.head
      simp at hsize
  | succ depth ih =>
    have hb := blockOf_completes ih.2
    have hs := statementWith_completes ih.1 hb
    refine ⟨hs, fun n ts s dangling n' more h hsize hmore => ?_⟩
    exact recovering_takes (declarationWith_takes hs hb h hsize hmore)

end Recovery

theorem declaration_completes (size : Nat) : CompletesDeclaration size declaration := by
  intro n ts s dangling n' more h _ hmore
  have hlen : ts.length ≤ (ts ++ more).length + 1 := by
    rw [List.length_append]
    omega
  have htakes := (upTo_completes ((ts ++ more).length + 1)).2 n ts s dangling n' more h hlen hmore
  exact htakes.of_apply fun stop reports => declaration_apply _

/-- A program that the grammar derives is taken to its end without a report. -/
theorem program_takes {n n' : Nat} {ts : List Token} {body : List Stmt}
    (h : Declarations .nearest n ts body n') : Takes (liftM program) ts n body [] n' := by
  have hcloses : ∀ t : Token, (fun _ => false) t = true → t.kind = .punctuator .rightBrace := by
    intro t hf
    cases hf
  have htakes := declarationsUntil_takes (declaration_completes ts.length) hcloses h
    (Nat.le_refl _) rfl lacks_nil (Nat.le_refl _)
  rw [List.append_nil] at htakes
  exact htakes.of_apply fun stop reports => rfl

end TreeWalk.Rule
