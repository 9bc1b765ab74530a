import TreeWalk.Proofs.Grammar.ExpressionSoundness

/-! What the rules for statements take in clean steps is what the grammar derives, every
alternative belonging to the nearest condition before it. -/

namespace TreeWalk.Rule
open Grammar

section Simple

theorem optionalExpression_sound (closing : Punctuator) :
    Sound OptionalPhrase (optionalExpression closing) := by
  intro s value s' h
  unfold optionalExpression at h
  obtain ⟨yes, s₁, h₁, h₂⟩ := h.of_bind
  have hs := h₁.of_sees
  subst hs
  split at h₂
  · obtain ⟨rfl, rfl⟩ := h₂.of_pure
    exact ⟨[], rfl, .absent⟩
  · obtain ⟨e, s₂, h₃, h₄⟩ := h₂.of_bind
    obtain ⟨rfl, rfl⟩ := h₄.of_pure
    obtain ⟨ts, hr, he⟩ := expression_sound _ _ _ h₃
    exact ⟨ts, hr, .present he⟩

instance (closing : Punctuator) : Grows (optionalExpression closing) := by
  unfold optionalExpression
  infer_instance

instance : Grows expressionStatement := by
  unfold expressionStatement
  infer_instance

theorem expressionStatement_sound : Sound ExpressionStatement expressionStatement := by
  intro s stmt s' h
  unfold expressionStatement at h
  obtain ⟨ts, semicolon, e, hr, he, hsemicolon, rfl⟩ := closing_sound expression_sound h
  exact ⟨ts ++ [semicolon], by simp [hr], .intro he hsemicolon⟩

instance : Grows printStatement := by
  unfold printStatement
  infer_instance

instance (keyword : Token) : Grows (returnStatement keyword) := by
  unfold returnStatement
  infer_instance

instance : Grows variableDeclaration := by
  unfold variableDeclaration
  infer_instance

theorem variableDeclaration_sound {keyword : Token} (hk : keyword.kind = .keyword .var_) :
    Sound (fun n ts stmt n' => VariableDeclaration n (keyword :: ts) stmt n')
      variableDeclaration := by
  intro s stmt s' h
  unfold variableDeclaration at h
  obtain ⟨name, s₁, h₁, h₂⟩ := h.of_bind
  obtain ⟨yes, s₂, h₃, h₄⟩ := h₂.of_bind
  dsimp only at h₄
  obtain ⟨hname, hr₁, hn₁⟩ := h₁.of_expect
  have hname := Token.isIdentifier_iff.mp hname
  rcases h₃.of_accepts with ⟨rfl, equals, hequals, hr₂, hn₂⟩ | ⟨rfl, rfl⟩
  · simp only [↓reduceIte] at h₄
    have hsome : Sound (fun n ts value n' => ∃ e, value = some e ∧ Phrase .assignment n ts e n')
        (some <$> Rule.expression) := by
      intro s value s' h
      obtain ⟨e, h', rfl⟩ := h.of_map
      obtain ⟨ts, hr, he⟩ := expression_sound _ _ _ h'
      exact ⟨ts, hr, e, rfl, he⟩
    obtain ⟨ts, semicolon, _, hr₃, ⟨e, rfl, he⟩, hsemicolon, rfl⟩ := closing_sound hsome h₄
    rw [hn₂, hn₁] at he
    refine ⟨name :: equals :: (ts ++ [semicolon]), by simp [hr₁, hr₂, hr₃], ?_⟩
    exact .initialized hk hname (Token.isPunctuator_iff.mp hequals) he hsemicolon
  · simp only [Bool.false_eq_true, ↓reduceIte] at h₄
    obtain ⟨initializer, s₃, h₅, h₆⟩ := h₄.of_bind
    obtain ⟨_, s₄, h₇, h₈⟩ := h₆.of_bind
    obtain ⟨rfl, rfl⟩ := h₅.of_pure
    obtain ⟨rfl, rfl⟩ := h₈.of_pure
    obtain ⟨semicolon, h₉⟩ := h₇.of_discard
    obtain ⟨hsemicolon, hr₄, hn₄⟩ := h₉.of_expect
    refine ⟨[name, semicolon], by simp [hr₁, hr₄], ?_⟩
    rw [hn₄, hn₁]
    exact .bare hk hname (Token.isPunctuator_iff.mp hsemicolon)

instance : Grows forInitializer := by
  unfold forInitializer
  infer_instance

theorem forInitializer_sound : Sound LoopStart forInitializer := by
  intro s first s' h
  unfold forInitializer at h
  obtain ⟨yes, s₁, h₁, h₂⟩ := h.of_bind
  rcases h₁.of_accepts with ⟨rfl, semicolon, hsemicolon, hr, hn⟩ | ⟨rfl, rfl⟩
  · simp only [↓reduceIte] at h₂
    obtain ⟨rfl, rfl⟩ := h₂.of_pure
    refine ⟨[semicolon], hr, ?_⟩
    rw [hn]
    exact .absent (Token.isPunctuator_iff.mp hsemicolon)
  · simp only [Bool.false_eq_true, ↓reduceIte] at h₂
    obtain ⟨yes, s₂, h₃, h₄⟩ := h₂.of_bind
    rcases h₃.of_accepts with ⟨rfl, keyword, hkeyword, hr, hn⟩ | ⟨rfl, rfl⟩
    · simp only [↓reduceIte] at h₄
      obtain ⟨stmt, s₃, h₅, h₆⟩ := h₄.of_bind
      obtain ⟨rfl, rfl⟩ := h₆.of_pure
      obtain ⟨ts, hr₂, hdecl⟩ :=
        variableDeclaration_sound (Token.isKeyword_iff.mp hkeyword) _ _ _ h₅
      rw [hn] at hdecl
      exact ⟨keyword :: ts, by simp [hr, hr₂], .declaration hdecl⟩
    · simp only [Bool.false_eq_true, ↓reduceIte] at h₄
      obtain ⟨stmt, s₃, h₅, h₆⟩ := h₄.of_bind
      obtain ⟨rfl, rfl⟩ := h₆.of_pure
      obtain ⟨ts, hr, hstmt⟩ := expressionStatement_sound _ _ _ h₅
      exact ⟨ts, hr, .expression hstmt⟩

instance : Grows parameters := by
  unfold parameters
  infer_instance

theorem parameters_sound :
    Sound (fun n ts params n' => ∃ ts' closing, ts = ts' ++ [closing] ∧
      closing.kind = .punctuator .rightParen ∧ OptionalParameters ts' params ∧ n' = n)
      parameters := by
  intro s params s' h
  unfold parameters at h
  obtain ⟨yes, s₁, h₁, h₂⟩ := h.of_bind
  have hs := h₁.of_sees
  subst hs
  dsimp only at h₂
  split at h₂
  · obtain ⟨_, s₂, h₃, h₄⟩ := h₂.of_bind
    obtain ⟨_, s₃, h₅, h₆⟩ := h₄.of_bind
    obtain ⟨rfl, rfl⟩ := h₃.of_pure
    obtain ⟨rfl, rfl⟩ := h₆.of_pure
    obtain ⟨closing, h₇⟩ := h₅.of_discard
    obtain ⟨hclosing, hr, hn⟩ := h₇.of_expect
    exact ⟨[closing], hr, [], closing, rfl, Token.isPunctuator_iff.mp hclosing, .absent, hn⟩
  · have hname : Sound (fun n ts name n' => ts = [name] ∧ name.kind = .identifier ∧ n' = n)
        (expect Token.isIdentifier .parameterName) := by
      intro s name s' h
      obtain ⟨hname, hr, hn⟩ := h.of_expect
      exact ⟨[name], hr, rfl, Token.isIdentifier_iff.mp hname, hn⟩
    obtain ⟨ts, closing, names, hr, ⟨⟨hparams, hn⟩, hlen⟩, hclosing, rfl⟩ := closing_sound
      (commaSeparated_sound (fun n ts params n' => Parameters ts params ∧ n' = n)
        (fun ⟨hts, hk, hn⟩ => ⟨hts ▸ .one hk, hn⟩)
        (fun ⟨hts, hn⟩ hcomma ⟨hts', hk, hn'⟩ => ⟨hts' ▸ .more hts hcomma hk, hn'.trans hn⟩)
        hname) h₂
    exact ⟨ts ++ [closing], by simp [hr], ts, closing, rfl, hclosing, .present hparams hlen, hn⟩

end Simple

section Nested

variable {statement : Rule Stmt} {block : Rule (List Stmt)}

/-- A rule for statements takes a statement in every clean step, and an alternative that comes
next does not belong to it. -/
def SoundStatement (r : Rule Stmt) : Prop :=
  ∀ s stmt s', Clean r s stmt s' → ∃ ts dangling, s.rest = ts ++ s'.rest ∧
    Statement .nearest s.nextId ts stmt dangling s'.nextId ∧
    (dangling = true → ∀ t ∈ s'.rest.head?, t.kind ≠ .keyword .else_)

/-- A rule for the inside of a block takes declarations and the brace after them. -/
def SoundBlock (r : Rule (List Stmt)) : Prop :=
  Sound (fun n ts body n' => ∃ ts' closing, ts = ts' ++ [closing] ∧
    closing.kind = .punctuator .rightBrace ∧ Declarations .nearest n ts' body n') r

theorem printStatement_sound {keyword : Token} (hk : keyword.kind = .keyword .print_) :
    Sound (fun n ts stmt n' => Statement .nearest n (keyword :: ts) stmt false n')
      printStatement := by
  intro s stmt s' h
  unfold printStatement at h
  obtain ⟨ts, semicolon, e, hr, he, hsemicolon, rfl⟩ := closing_sound expression_sound h
  exact ⟨ts ++ [semicolon], by simp [hr], .print hk he hsemicolon⟩

theorem returnStatement_sound {keyword : Token} (hk : keyword.kind = .keyword .return_) :
    Sound (fun n ts stmt n' => Statement .nearest n (keyword :: ts) stmt false n')
      (returnStatement keyword) := by
  intro s stmt s' h
  unfold returnStatement at h
  obtain ⟨ts, semicolon, value, hr, hvalue, hsemicolon, rfl⟩ :=
    closing_sound (optionalExpression_sound _) h
  exact ⟨ts ++ [semicolon], by simp [hr], .returnFrom hk hvalue hsemicolon⟩

instance [Grows statement] : Grows (whileStatement statement) := by
  unfold whileStatement
  infer_instance

instance [Grows statement] : Grows (ifStatement statement) := by
  unfold ifStatement
  infer_instance

instance [Grows statement] : Grows (forStatement statement) := by
  unfold forStatement
  infer_instance

instance [Grows block] : Grows (functionDeclaration block) := by
  unfold functionDeclaration
  infer_instance

instance [Grows statement] [Grows block] : Grows (statementWith statement block) := by
  unfold statementWith
  refine Grows.bind inferInstance fun isFor => ?_
  refine Grows.ite inferInstance (Grows.bind inferInstance fun isIf => ?_)
  refine Grows.ite inferInstance (Grows.bind inferInstance fun isPrint => ?_)
  refine Grows.ite inferInstance (Grows.bind inferInstance fun keyword => ?_)
  cases keyword <;> infer_instance

instance [Grows statement] [Grows block] : Grows (declarationWith statement block) := by
  unfold declarationWith
  infer_instance

/-- What a rule for statements takes after the words that start a statement. -/
def SoundAfter (words : List Token) (r : Rule Stmt) : Prop :=
  ∀ s stmt s', Clean r s stmt s' → ∃ ts dangling, s.rest = ts ++ s'.rest ∧
    Statement .nearest s.nextId (words ++ ts) stmt dangling s'.nextId ∧
    (dangling = true → ∀ t ∈ s'.rest.head?, t.kind ≠ .keyword .else_)

/-- A condition in parentheses, and the rule for what comes after it. -/
theorem condition_sound {β : Type} {before after : Expectation} {rest : Expr → Rule β}
    [∀ condition, Grows (rest condition)] {s s' : Cursor} {b : β} (h : Clean (do
      discard (expect (·.isPunctuator .leftParen) before)
      let condition ← Rule.expression
      discard (expect (·.isPunctuator .rightParen) after)
      rest condition) s b s') :
    ∃ opening ts closing condition s₁, opening.kind = .punctuator .leftParen ∧
      Phrase .assignment s.nextId ts condition s₁.nextId ∧
      closing.kind = .punctuator .rightParen ∧ s.rest = opening :: (ts ++ closing :: s₁.rest) ∧
      Clean (rest condition) s₁ b s' := by
  obtain ⟨_, s₁, h₁, h₂⟩ := h.of_bind
  obtain ⟨condition, s₂, h₃, h₄⟩ := h₂.of_bind
  obtain ⟨_, s₃, h₅, h₆⟩ := h₄.of_bind
  obtain ⟨opening, h₁⟩ := h₁.of_discard
  obtain ⟨hopening, hr₁, hn₁⟩ := h₁.of_expect
  obtain ⟨ts, hr₂, hcondition⟩ := expression_sound _ _ _ h₃
  obtain ⟨closing, h₅⟩ := h₅.of_discard
  obtain ⟨hclosing, hr₃, hn₃⟩ := h₅.of_expect
  rw [hn₁, ← hn₃] at hcondition
  refine ⟨opening, ts, closing, condition, s₃, Token.isPunctuator_iff.mp hopening, hcondition,
    Token.isPunctuator_iff.mp hclosing, ?_, h₆⟩
  rw [hr₁, hr₂, hr₃]

theorem whileStatement_sound [Grows statement] (hs : SoundStatement statement) {keyword : Token}
    (hk : keyword.kind = .keyword .while_) :
    SoundAfter [keyword] (whileStatement statement) := by
  intro s stmt s' h
  unfold whileStatement at h
  obtain ⟨opening, ts₁, closing, condition, s₁, hopening, hcondition, hclosing, hr, h⟩ :=
    condition_sound h
  obtain ⟨body, s₂, h₁, h₂⟩ := h.of_bind
  obtain ⟨rfl, rfl⟩ := h₂.of_pure
  obtain ⟨ts₂, dangling, hr₁, hbody, helse⟩ := hs _ _ _ h₁
  refine ⟨opening :: (ts₁ ++ closing :: ts₂), dangling, by simp [hr, hr₁], ?_, helse⟩
  exact .whileLoop hk hopening hcondition hclosing hbody

theorem ifStatement_sound [Grows statement] (hs : SoundStatement statement) {keyword : Token}
    (hk : keyword.kind = .keyword .if_) :
    SoundAfter [keyword] (ifStatement statement) := by
  intro s stmt s' h
  unfold ifStatement at h
  obtain ⟨opening, ts₁, closing, condition, s₁, hopening, hcondition, hclosing, hr, h⟩ :=
    condition_sound h
  obtain ⟨thenBranch, s₂, h₁, h₂⟩ := h.of_bind
  obtain ⟨yes, s₃, h₃, h₄⟩ := h₂.of_bind
  obtain ⟨ts₂, dangling, hr₁, hthen, helse⟩ := hs _ _ _ h₁
  rcases h₃.of_accepts with ⟨rfl, alternative, halternative, hr₂, hn₂⟩ | ⟨rfl, hs₃⟩
  · simp only [↓reduceIte] at h₄
    obtain ⟨elseBranch, s₄, h₅, h₆⟩ := h₄.of_bind
    obtain ⟨rfl, rfl⟩ := h₆.of_pure
    obtain ⟨ts₃, dangling₂, hr₃, helseBranch, helse₂⟩ := hs _ _ _ h₅
    have halternative := Token.isKeyword_iff.mp halternative
    -- An alternative comes next, so the first branch has left none open.
    have hclosed : dangling = false := by
      cases dangling with
      | false => rfl
      | true => exact absurd halternative (helse rfl alternative (by simp [hr₂]))
    rw [hn₂] at helseBranch
    refine ⟨opening :: (ts₁ ++ closing :: (ts₂ ++ alternative :: ts₃)), dangling₂,
      by simp [hr, hr₁, hr₂, hr₃], ?_, helse₂⟩
    exact .ifElse hk hopening hcondition hclosing hthen (fun _ => hclosed) halternative helseBranch
  · simp only [Bool.false_eq_true, ↓reduceIte] at h₄
    obtain ⟨rfl, rfl⟩ := h₄.of_pure
    subst hs₃
    refine ⟨opening :: (ts₁ ++ closing :: ts₂), true, by simp [hr, hr₁], ?_, ?_⟩
    · exact .ifThen hk hopening hcondition hclosing hthen
    · intro _ t ht hkind
      have := h₃.head_of_accepts t ht
      rw [Token.isKeyword_iff.mpr hkind] at this
      exact absurd this (by decide)

theorem forStatement_sound [Grows statement] (hs : SoundStatement statement) {keyword : Token}
    (hk : keyword.kind = .keyword .for_) :
    SoundAfter [keyword] (forStatement statement) := by
  intro s stmt s' h
  unfold forStatement at h
  obtain ⟨_, s₁, h₁, h₂⟩ := h.of_bind
  obtain ⟨initializer, s₂, h₃, h₄⟩ := h₂.of_bind
  obtain ⟨condition, s₃, h₅, h₆⟩ := h₄.of_bind
  obtain ⟨_, s₄, h₇, h₈⟩ := h₆.of_bind
  obtain ⟨increment, s₅, h₉, h₁₀⟩ := h₈.of_bind
  obtain ⟨_, s₆, h₁₁, h₁₂⟩ := h₁₀.of_bind
  obtain ⟨body, s₇, h₁₃, h₁₄⟩ := h₁₂.of_bind
  obtain ⟨rfl, rfl⟩ := h₁₄.of_pure
  obtain ⟨opening, h₁₅⟩ := h₁.of_discard
  obtain ⟨hopening, hr₁, hn₁⟩ := h₁₅.of_expect
  obtain ⟨ts₁, hr₂, hinitializer⟩ := forInitializer_sound _ _ _ h₃
  obtain ⟨ts₂, hr₃, hcondition⟩ := optionalExpression_sound _ _ _ _ h₅
  obtain ⟨semicolon, h₁₆⟩ := h₇.of_discard
  obtain ⟨hsemicolon, hr₄, hn₄⟩ := h₁₆.of_expect
  obtain ⟨ts₃, hr₅, hincrement⟩ := optionalExpression_sound _ _ _ _ h₉
  obtain ⟨closing, h₁₇⟩ := h₁₁.of_discard
  obtain ⟨hclosing, hr₆, hn₆⟩ := h₁₇.of_expect
  obtain ⟨ts₄, dangling, hr₇, hbody, helse⟩ := hs _ _ _ h₁₃
  rw [hn₁] at hinitializer
  rw [hn₄] at hincrement
  rw [hn₆] at hbody
  refine ⟨opening :: (ts₁ ++ (ts₂ ++ semicolon :: (ts₃ ++ closing :: ts₄))), dangling,
    by simp [hr₁, hr₂, hr₃, hr₄, hr₅, hr₆, hr₇], ?_, helse⟩
  exact .forLoop hk (Token.isPunctuator_iff.mp hopening) hinitializer hcondition
    (Token.isPunctuator_iff.mp hsemicolon) hincrement (Token.isPunctuator_iff.mp hclosing) hbody
    (loopTree_iff.mpr rfl)

theorem functionDeclaration_sound [Grows block] (hb : SoundBlock block) {keyword : Token}
    (hk : keyword.kind = .keyword .fun_) :
    Sound (fun n ts stmt n' => Declaration .nearest n (keyword :: ts) stmt false n')
      (functionDeclaration block) := by
  intro s stmt s' h
  unfold functionDeclaration at h
  obtain ⟨name, s₁, h₁, h₂⟩ := h.of_bind
  obtain ⟨_, s₂, h₃, h₄⟩ := h₂.of_bind
  obtain ⟨params, s₃, h₅, h₆⟩ := h₄.of_bind
  obtain ⟨_, s₄, h₇, h₈⟩ := h₆.of_bind
  obtain ⟨body, s₅, h₉, h₁₀⟩ := h₈.of_bind
  obtain ⟨rfl, rfl⟩ := h₁₀.of_pure
  obtain ⟨hname, hr₁, hn₁⟩ := h₁.of_expect
  obtain ⟨opening, h₁₁⟩ := h₃.of_discard
  obtain ⟨hopening, hr₂, hn₂⟩ := h₁₁.of_expect
  obtain ⟨_, hr₃, ts₁, closing, rfl, hclosing, hparams, hn₃⟩ := parameters_sound _ _ _ h₅
  obtain ⟨openingBrace, h₁₂⟩ := h₇.of_discard
  obtain ⟨hopeningBrace, hr₄, hn₄⟩ := h₁₂.of_expect
  obtain ⟨_, hr₅, ts₂, closingBrace, rfl, hclosingBrace, hbody⟩ := hb _ _ _ h₉
  rw [hn₄, hn₃, hn₂, hn₁] at hbody
  refine ⟨name :: opening :: (ts₁ ++ closing :: openingBrace :: (ts₂ ++ [closingBrace])),
    by simp [hr₁, hr₂, hr₃, hr₄, hr₅], ?_⟩
  exact .function hk (Token.isIdentifier_iff.mp hname) (Token.isPunctuator_iff.mp hopening)
    hparams hclosing (Token.isPunctuator_iff.mp hopeningBrace) hbody hclosingBrace

end Nested

end TreeWalk.Rule
