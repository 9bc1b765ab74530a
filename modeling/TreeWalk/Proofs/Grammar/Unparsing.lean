import TreeWalk.Proofs.Grammar.Acceptance
import TreeWalk.Proofs.Syntax.Tree

/-! Parsing a single expression is the inverse of writing one out: the trees that come back are
those with the shape that precedence asks for, and each comes back from exactly its renderings. -/

namespace TreeWalk

/-- The expression without its identities. -/
def Expr.unnumbered (e : Expr) : Expr :=
  e.map (fun _ => 0) id

theorem Expr.unnumbered_call (callee : Expr) (paren : Token) (arguments : List Expr) :
    (Expr.call callee paren arguments).unnumbered =
      .call callee.unnumbered paren (arguments.map Expr.unnumbered) := by
  rw [unnumbered, map, mapAll_eq_map]
  rfl

namespace Grammar

mutual

/-- The tree has the shape that precedence asks for, and its outermost node is of the level. -/
inductive Shaped : Level → Expr → Prop where
  | literal {value} : Shaped .primary (.literal value)
  | name {id name} : Shaped .primary (.var id name)
  | grouping {level inner} : Shaped level inner → Shaped .primary (.grouping inner)
  | call {level callee paren arguments} : Shaped level callee → Level.call.rank ≤ level.rank →
      AllShaped arguments → arguments.length ≤ 255 → Shaped .call (.call callee paren arguments)
  | unary {level right} {operator : Token} :
      operator.kind = .punctuator .bang ∨ operator.kind = .punctuator .minus →
      Shaped level right → Level.unary.rank ≤ level.rank → Shaped .unary (.unary operator right)
  | operation {level level₁ level₂ left right} {operator : Token} :
      operator.kind ∈ level.operators → Shaped level₁ left → level.rank ≤ level₁.rank →
      Shaped level₂ right → level.rank < level₂.rank →
      Shaped level (level.join left operator right)
  | assign {level id name value} : Shaped level value →
      Shaped .assignment (.assign id name value)

inductive AllShaped : List Expr → Prop where
  | nil : AllShaped []
  | cons {level e es} : Shaped level e → AllShaped es → AllShaped (e :: es)

end

mutual

/-- The tokens write the tree out, from left to right. -/
inductive Renders : Expr → List Token → Prop where
  | literal {value} {t : Token} : Constant t value → Renders (.literal value) [t]
  | name {id} {name : Token} : name.kind = .identifier → Renders (.var id name) [name]
  | grouping {inner ts} {opening closing : Token} : opening.kind = .punctuator .leftParen →
      Renders inner ts → closing.kind = .punctuator .rightParen →
      Renders (.grouping inner) (opening :: (ts ++ [closing]))
  | call {callee arguments ts₁ ts₂} {opening closing : Token} : Renders callee ts₁ →
      opening.kind = .punctuator .leftParen → RendersAll arguments ts₂ →
      closing.kind = .punctuator .rightParen →
      Renders (.call callee closing arguments) (ts₁ ++ opening :: (ts₂ ++ [closing]))
  | unary {operator right ts} : Renders right ts → Renders (.unary operator right) (operator :: ts)
  | binary {left operator right ts₁ ts₂} : Renders left ts₁ → Renders right ts₂ →
      Renders (.binary left operator right) (ts₁ ++ operator :: ts₂)
  | logical {left operator right ts₁ ts₂} : Renders left ts₁ → Renders right ts₂ →
      Renders (.logical left operator right) (ts₁ ++ operator :: ts₂)
  | assign {id value ts} {name equals : Token} : name.kind = .identifier →
      equals.kind = .punctuator .equal → Renders value ts →
      Renders (.assign id name value) (name :: equals :: ts)

/-- The tokens write the trees out with commas between them. -/
inductive RendersAll : List Expr → List Token → Prop where
  | nil : RendersAll [] []
  | one {e ts} : Renders e ts → RendersAll [e] ts
  | more {e e' es ts₁ ts₂} {comma : Token} : Renders e ts₁ → comma.kind = .punctuator .comma →
      RendersAll (e' :: es) ts₂ → RendersAll (e :: e' :: es) (ts₁ ++ comma :: ts₂)

end

section Levels

theorem Level.rank_injective {level other : Level} (h : level.rank = other.rank) :
    level = other := by
  cases level <;> cases other <;> first | rfl | cases h

theorem Level.assignment_loosest (level : Level) : Level.assignment.rank ≤ level.rank :=
  Nat.zero_le _

theorem Level.exists_tighter {level other : Level} (h : level.rank < other.rank) :
    ∃ inner, level.tighter? = some inner := by
  cases level with
  | primary => cases other <;> simp [rank] at h
  | _ => exact ⟨_, rfl⟩

theorem Level.join_cases (level : Level) : level.join = .binary ∨ level.join = .logical := by
  cases level <;> first | exact .inl rfl | exact .inr rfl

end Levels

section Trees

theorem AllShaped.concat {level : Level} {e : Expr} {es : List Expr} (h : AllShaped es)
    (he : Shaped level e) : AllShaped (es ++ [e]) := by
  induction es with
  | nil => exact .cons he .nil
  | cons e' es ih =>
    cases h with
    | cons he' h => exact .cons he' (ih h)

theorem RendersAll.concat {e : Expr} {es : List Expr} {ts₁ ts₂ : List Token} {comma : Token}
    (h : RendersAll es ts₁) (hne : es ≠ []) (hcomma : comma.kind = .punctuator .comma)
    (he : Renders e ts₂) : RendersAll (es ++ [e]) (ts₁ ++ comma :: ts₂) := by
  induction es generalizing ts₁ with
  | nil => exact absurd rfl hne
  | cons e' es ih =>
    cases h with
    | one he' => exact .more he' hcomma (.one he)
    | more he' hcomma' h =>
      have hmore := RendersAll.more he' hcomma' (ih h (List.cons_ne_nil _ _))
      simpa using hmore

theorem Renders.join {level : Level} {left right : Expr} {operator : Token} {ts₁ ts₂ : List Token}
    (h₁ : Renders left ts₁) (h₂ : Renders right ts₂) :
    Renders (level.join left operator right) (ts₁ ++ operator :: ts₂) := by
  rcases level.join_cases with hl | hl
  · rw [hl]
    exact .binary h₁ h₂
  · rw [hl]
    exact .logical h₁ h₂

theorem Renders.of_join {level : Level} {left right : Expr} {operator : Token} {ts : List Token}
    (h : Renders (level.join left operator right) ts) :
    ∃ ts₁ ts₂, ts = ts₁ ++ operator :: ts₂ ∧ Renders left ts₁ ∧ Renders right ts₂ := by
  rcases level.join_cases with hl | hl
  · rw [hl] at h
    cases h with
    | binary h₁ h₂ => exact ⟨_, _, rfl, h₁, h₂⟩
  · rw [hl] at h
    cases h with
    | logical h₁ h₂ => exact ⟨_, _, rfl, h₁, h₂⟩

theorem Level.unnumbered_join (level : Level) (left right : Expr) (operator : Token) :
    (level.join left operator right).unnumbered =
      level.join left.unnumbered operator right.unnumbered := by
  cases level <;> rfl

/-- Without their identities two trees agree only if both are joined at the same level. -/
theorem eq_join_of_unnumbered {level : Level} {left right e : Expr} {operator : Token}
    (h : (level.join left operator right).unnumbered = e.unnumbered) :
    ∃ left' right', e = level.join left' operator right' ∧
      left.unnumbered = left'.unnumbered ∧ right.unnumbered = right'.unnumbered := by
  rcases level.join_cases with hl | hl
  · rw [hl] at h ⊢
    cases e with
    | binary left' operator' right' =>
      injection h with hleft hoperator hright
      obtain rfl : operator = operator' := hoperator
      exact ⟨left', right', rfl, hleft, hright⟩
    | _ => cases h
  · rw [hl] at h ⊢
    cases e with
    | logical left' operator' right' =>
      injection h with hleft hoperator hright
      obtain rfl : operator = operator' := hoperator
      exact ⟨left', right', rfl, hleft, hright⟩
    | _ => cases h

theorem eq_concat_of_unnumbered {es es' : List Expr} {e : Expr}
    (h : (es ++ [e]).map Expr.unnumbered = es'.map Expr.unnumbered) :
    ∃ es₁ e₁, es' = es₁ ++ [e₁] ∧ es.map Expr.unnumbered = es₁.map Expr.unnumbered ∧
      e.unnumbered = e₁.unnumbered := by
  rw [List.map_append, eq_comm, List.map_eq_append_iff] at h
  obtain ⟨es₁, es₂, rfl, hes, he⟩ := h
  obtain ⟨e₁, rfl, he₁⟩ := List.map_eq_singleton_iff.mp he
  exact ⟨es₁, e₁, rfl, hes.symm, he₁.symm⟩

end Trees

section Derivations

mutual

/-- What is derived has the shape of its level or of a tighter one, and so has every tree that
differs from it in the identities only. -/
theorem Phrase.written {level : Level} {n n' : Nat} {ts : List Token} {e e' : Expr}
    (h : Phrase level n ts e n') (he : e.unnumbered = e'.unnumbered) :
    ∃ own : Level, level.rank ≤ own.rank ∧ Shaped own e' ∧ Renders e' ts := by
  -- Along the derivation; a tree that differs in identities alone has the same constructor.
  match h with
  | .tighter hl h =>
    obtain ⟨own, hrank, hshaped, hrenders⟩ := h.written he
    have := Level.rank_tighter hl
    exact ⟨own, by omega, hshaped, hrenders⟩
  | .operation hl hop h₁ h₂ =>
    obtain ⟨left', right', rfl, hleft, hright⟩ := eq_join_of_unnumbered he
    obtain ⟨own₁, hrank₁, hshaped₁, hrenders₁⟩ := h₁.written hleft
    obtain ⟨own₂, hrank₂, hshaped₂, hrenders₂⟩ := h₂.written hright
    have := Level.rank_tighter hl
    exact ⟨level, Nat.le_refl _, .operation hop hshaped₁ hrank₁ hshaped₂ (by omega),
      hrenders₁.join hrenders₂⟩
  | .assignment hname hequals h =>
    cases e' with
    | assign id' name' value' =>
      injection he with _ hn hvalue
      cases hn
      obtain ⟨own, -, hshaped, hrenders⟩ := h.written hvalue
      exact ⟨.assignment, Nat.le_refl _, .assign hshaped, .assign hname hequals hrenders⟩
    | _ => cases he
  | .unary hop h =>
    cases e' with
    | unary operator' right' =>
      injection he with hoperator hright
      cases hoperator
      obtain ⟨own, hrank, hshaped, hrenders⟩ := h.written hright
      exact ⟨.unary, Nat.le_refl _, .unary hop hshaped hrank, .unary hrenders⟩
    | _ => cases he
  | .emptyCall h hopening hclosing =>
    cases e' with
    | call callee' paren' arguments' =>
      injection he with hcallee hparen harguments
      cases hparen
      cases arguments' with
      | nil =>
        obtain ⟨own, hrank, hshaped, hrenders⟩ := h.written hcallee
        exact ⟨.call, Nat.le_refl _, .call hshaped hrank .nil (by simp),
          .call hrenders hopening .nil hclosing⟩
      | cons => cases harguments
    | _ => cases he
  | .call h hopening hargs hlength hclosing =>
    cases e' with
    | call callee' paren' arguments' =>
      injection he with hcallee hparen harguments
      cases hparen
      rw [Expr.mapAll_eq_map, Expr.mapAll_eq_map] at harguments
      obtain ⟨own, hrank, hshaped, hrenders⟩ := h.written hcallee
      obtain ⟨-, hshapedArgs, hrendersArgs⟩ := hargs.written harguments
      have hsame := congrArg List.length harguments
      rw [List.length_map, List.length_map] at hsame
      rw [hsame] at hlength
      exact ⟨.call, Nat.le_refl _, .call hshaped hrank hshapedArgs hlength,
        .call hrenders hopening hrendersArgs hclosing⟩
    | _ => cases he
  | .constant hconstant =>
    cases e' with
    | literal value' =>
      cases he
      exact ⟨.primary, Nat.le_refl _, .literal, .literal hconstant⟩
    | _ => cases he
  | .name hname =>
    cases e' with
    | var id' name' =>
      injection he with _ hn
      cases hn
      exact ⟨.primary, Nat.le_refl _, .name, .name hname⟩
    | _ => cases he
  | .grouping hopening h hclosing =>
    cases e' with
    | grouping inner' =>
      injection he with hinner
      obtain ⟨own, -, hshaped, hrenders⟩ := h.written hinner
      exact ⟨.primary, Nat.le_refl _, .grouping hshaped, .grouping hopening hrenders hclosing⟩
    | _ => cases he

theorem Arguments.written {n n' : Nat} {ts : List Token} {es es' : List Expr}
    (h : Arguments n ts es n')
    (he : es.map Expr.unnumbered = es'.map Expr.unnumbered) :
    es' ≠ [] ∧ AllShaped es' ∧ RendersAll es' ts := by
  match h with
  | .one h =>
    obtain ⟨e', rfl, he'⟩ := List.map_eq_singleton_iff.mp he.symm
    obtain ⟨own, -, hshaped, hrenders⟩ := h.written he'.symm
    exact ⟨List.cons_ne_nil _ _, .cons hshaped .nil, .one hrenders⟩
  | .more h hcomma h' =>
    obtain ⟨es₁, e₁, rfl, hes, he⟩ := eq_concat_of_unnumbered he
    obtain ⟨hne, hshaped, hrenders⟩ := h.written hes
    obtain ⟨own, -, hshaped', hrenders'⟩ := h'.written he
    exact ⟨by simp, hshaped.concat hshaped', hrenders.concat hne hcomma hrenders'⟩

end

/-- An expression of a level is an expression of every looser one. -/
theorem Phrase.loosen {level own : Level} {n n' : Nat} {ts : List Token} {e : Expr}
    (h : Phrase own n ts e n') (hrank : level.rank ≤ own.rank) : Phrase level n ts e n' := by
  obtain ⟨d, hd⟩ := Nat.exists_eq_add_of_le hrank
  induction d generalizing level with
  | zero =>
    have hsame : level = own := Level.rank_injective hd.symm
    rwa [hsame]
  | succ d ih =>
    obtain ⟨inner, hl⟩ := Level.exists_tighter (show level.rank < own.rank by omega)
    have := Level.rank_tighter hl
    exact .tighter hl (ih (by omega) (by omega))

theorem Arguments.cons {n n₁ n' : Nat} {ts₁ ts₂ : List Token} {e : Expr} {es : List Expr}
    {comma : Token} (h : Phrase .assignment n ts₁ e n₁) (hcomma : comma.kind = .punctuator .comma)
    (hes : Arguments n₁ ts₂ es n') : Arguments n (ts₁ ++ comma :: ts₂) (e :: es) n' := by
  -- A list of arguments is built from its front, so the induction is on how many there are.
  induction hcount : es.length generalizing ts₂ es n' with
  | zero =>
    cases hes with
    | one h' => cases hcount
    | more hes hcomma' h' => simp at hcount
  | succ count ih =>
    cases hes with
    | one h' => exact .more (.one h) hcomma h'
    | more hes hcomma' h' =>
      have hmore := Arguments.more (ih hes (by simpa using hcount)) hcomma' h'
      simpa using hmore

mutual

/-- Every rendering of a shaped tree is derived, wherever the identities start. -/
theorem Shaped.derived {level own : Level} {e : Expr} {ts : List Token} (h : Shaped own e)
    (hrenders : Renders e ts) (hrank : level.rank ≤ own.rank) (n : Nat) :
    ∃ e' n', Phrase level n ts e' n' ∧ e'.unnumbered = e.unnumbered := by
  match h with
  | .literal =>
    cases hrenders with
    | literal hconstant => exact ⟨_, _, (Phrase.constant hconstant).loosen hrank, rfl⟩
  | .name =>
    cases hrenders with
    | name hname => exact ⟨_, _, (Phrase.name hname).loosen hrank, rfl⟩
  | .grouping h =>
    cases hrenders with
    | grouping hopening hinner hclosing =>
      obtain ⟨inner', n', hphrase, he⟩ := h.derived hinner (Level.assignment_loosest _) n
      exact ⟨_, _, (Phrase.grouping hopening hphrase hclosing).loosen hrank,
        congrArg Expr.grouping he⟩
  | .call h hcallee hargs hlength =>
    next level callee paren arguments =>
    cases hrenders with
    | call hrenders hopening hrendersAll hclosing =>
      obtain ⟨callee', n₁, hphrase, he⟩ := h.derived hrenders hcallee n
      -- The grammar has a rule of its own for a call with nothing between the parentheses.
      by_cases hne : arguments = []
      · subst hne
        cases hrendersAll
        refine ⟨_, _, (Phrase.emptyCall hphrase hopening hclosing).loosen hrank, ?_⟩
        rw [Expr.unnumbered_call, Expr.unnumbered_call, he]
      · obtain ⟨es', n', hphrases, hes⟩ := hargs.derived hrendersAll hne n₁
        have hlength' : es'.length ≤ 255 := by
          have hsame := congrArg List.length hes
          rw [List.length_map, List.length_map] at hsame
          rwa [hsame]
        refine ⟨_, _, (Phrase.call hphrase hopening hphrases hlength' hclosing).loosen hrank, ?_⟩
        rw [Expr.unnumbered_call, Expr.unnumbered_call, he, hes]
  | .unary hop h hright =>
    cases hrenders with
    | unary hrenders =>
      obtain ⟨right', n', hphrase, he⟩ := h.derived hrenders hright n
      exact ⟨_, _, (Phrase.unary hop hphrase).loosen hrank, congrArg (Expr.unary _) he⟩
  | .operation hop h₁ hleft h₂ hright =>
    obtain ⟨ts₁, ts₂, rfl, hrenders₁, hrenders₂⟩ := hrenders.of_join
    -- The right operand binds tighter than its operator, so there is a next level to derive it at.
    obtain ⟨inner, hl⟩ := Level.exists_tighter hright
    obtain ⟨left', n₁, hphrase₁, he₁⟩ := h₁.derived hrenders₁ hleft n
    have hinner : inner.rank ≤ _ := Nat.le_trans (Nat.le_of_eq (Level.rank_tighter hl)) hright
    obtain ⟨right', n', hphrase₂, he₂⟩ := h₂.derived hrenders₂ hinner n₁
    refine ⟨_, _, (Phrase.operation hl hop hphrase₁ hphrase₂).loosen hrank, ?_⟩
    rw [Level.unnumbered_join, Level.unnumbered_join, he₁, he₂]
  | .assign h =>
    cases hrenders with
    | assign hname hequals hrenders =>
      obtain ⟨value', n', hphrase, he⟩ := h.derived hrenders (Level.assignment_loosest _) (n + 1)
      exact ⟨_, _, (Phrase.assignment hname hequals hphrase).loosen hrank,
        congrArg (Expr.assign 0 _) he⟩

theorem AllShaped.derived {es : List Expr} {ts : List Token} (h : AllShaped es)
    (hrenders : RendersAll es ts) (hne : es ≠ []) (n : Nat) :
    ∃ es' n', Arguments n ts es' n' ∧ es'.map Expr.unnumbered = es.map Expr.unnumbered := by
  match h with
  | .nil => exact absurd rfl hne
  | .cons he hes =>
    next e es =>
    have hfirst ts (hrenders : Renders e ts) n := he.derived hrenders (Level.assignment_loosest _) n
    have hothers ts (hrenders : RendersAll es ts) hne n := hes.derived hrenders hne n
    cases hrenders with
    | one hrenders =>
      obtain ⟨e', n', hphrase, he'⟩ := hfirst _ hrenders n
      exact ⟨[e'], n', .one hphrase, congrArg (fun e => [e]) he'⟩
    | more hrenders hcomma hrenders' =>
      obtain ⟨e', n₁, hphrase, he'⟩ := hfirst _ hrenders n
      obtain ⟨es', n', hargs, hes'⟩ := hothers _ hrenders' (List.cons_ne_nil _ _) n₁
      refine ⟨e' :: es', n', .cons hphrase hcomma hargs, ?_⟩
      rw [List.map_cons, he', hes', ← List.map_cons]

end

/-- The same tokens are derived wherever the identities start. -/
theorem Phrase.rebased {level : Level} {m m' : Nat} {ts : List Token} {e : Expr}
    (h : Phrase level m ts e m') (n : Nat) : ∃ e' n', Phrase level n ts e' n' := by
  obtain ⟨own, hrank, hshaped, hrenders⟩ := h.written rfl
  obtain ⟨e', n', hphrase, -⟩ := hshaped.derived hrenders hrank n
  exact ⟨e', n', hphrase⟩

end Derivations

section Parsing

variable {ts : List Token} {stop : Token} {n : Nat} {e : Expr}

/-- An expression is the whole text if nothing is left after it and nothing was reported. -/
theorem soleExpression_ok_iff {s s' : Cursor} : Rule.soleExpression s = (.ok e, s') ↔
    Rule.expression s = (.ok e, s') ∧ s'.rest = [] ∧ s'.reports = [] := by
  rw [Rule.soleExpression, Rule.bind_apply]
  cases hs : Rule.expression s with
  | mk result s₁ =>
    cases result with
    | error d =>
      constructor
      · intro h
        cases h
      · rintro ⟨h, -, -⟩
        cases h
    | ok e₁ =>
      obtain ⟨rest, stop, reports, nextId⟩ := s₁
      cases rest with
      | cons t rest =>
        constructor
        · intro h
          cases h
        · rintro ⟨h, hrest, -⟩
          cases h
          cases hrest
      | nil =>
        cases reports with
        | cons d reports =>
          constructor
          · intro h
            cases h
          · rintro ⟨h, -, hreports⟩
            cases h
            cases hreports
        | nil =>
          constructor
          · intro h
            cases h
            exact ⟨rfl, rfl, rfl⟩
          · rintro ⟨h, -, -⟩
            cases h
            rfl

/-- The whole text is parsed as an expression exactly if it is derived as one. -/
theorem parseExpression_eq_iff (hts : ∀ t ∈ ts, t.isEnd = false) (hstop : stop.isEnd = true)
    {n' : NodeId} :
    parseExpression (ts ++ [stop]) n = (.ok e, n') ↔ Phrase .assignment n ts e n' := by
  rw [parseExpression, ofTokens_append hts hstop]
  constructor
  · intro h
    obtain ⟨result, s', hsole⟩ : ∃ result s', Rule.soleExpression ⟨ts, stop, [], n⟩ = (result, s') :=
      ⟨_, _, rfl⟩
    rw [hsole] at h
    obtain ⟨rfl, rfl⟩ := Prod.mk.inj h
    obtain ⟨hexpression, hrest, hreports⟩ := soleExpression_ok_iff.mp hsole
    obtain ⟨taken, htaken, hphrase⟩ :=
      Rule.expression_sound _ _ _ ⟨hexpression, hreports, hstop⟩
    rw [hrest, List.append_nil] at htaken
    obtain rfl : ts = taken := htaken
    exact hphrase
  · intro h
    have hend : Stops .assignment [] := fun t ht => by cases ht
    have htakes := Rule.expression_takes h hend stop []
    rw [List.append_nil] at htakes
    rw [soleExpression_ok_iff.mpr ⟨htakes, rfl, rfl⟩]

/-- Parsing yields a tree, up to its identities, exactly if the tree has the shape that precedence
asks for and the tokens are a rendering of it. -/
theorem parseExpression_iff_renders (hts : ∀ t ∈ ts, t.isEnd = false)
    (hstop : stop.isEnd = true) :
    (∃ e' n', parseExpression (ts ++ [stop]) n = (.ok e', n') ∧ e'.unnumbered = e.unnumbered) ↔
      (∃ level, Shaped level e) ∧ Renders e ts := by
  constructor
  · rintro ⟨e', n', hparse, he⟩
    obtain ⟨own, -, hshaped, hrenders⟩ := ((parseExpression_eq_iff hts hstop).mp hparse).written he
    exact ⟨⟨own, hshaped⟩, hrenders⟩
  · rintro ⟨⟨level, hshaped⟩, hrenders⟩
    obtain ⟨e', n', hphrase, he⟩ := hshaped.derived hrenders (Level.assignment_loosest _) n
    exact ⟨e', n', (parseExpression_eq_iff hts hstop).mpr hphrase, he⟩

/-- A call inside a negation that is assigned. -/
def negatedCall : List Token × Expr :=
  let name (lexeme : String) : Token := ⟨.identifier, lexeme, 1⟩
  let mark (p : Punctuator) : Token := ⟨.punctuator p, "", 1⟩
  let nil : Token := ⟨.keyword .nil_, "nil", 1⟩
  ([name "a", mark .equal, mark .minus, name "f", mark .leftParen, nil, mark .rightParen],
    .assign 0 (name "a") (.unary (mark .minus)
      (.call (.var 0 (name "f")) (mark .rightParen) [.literal .nil])))

theorem parseExpression_iff_renders_negatedCall :
    (∀ t ∈ negatedCall.1, t.isEnd = false) ∧ (Token.endMark 1).isEnd = true ∧
      (∃ level, Shaped level negatedCall.2) ∧ Renders negatedCall.2 negatedCall.1 := by
  have hts : ∀ t ∈ negatedCall.1, t.isEnd = false := by decide
  have hstop : (Token.endMark 1).isEnd = true := rfl
  exact ⟨hts, hstop, (parseExpression_iff_renders (n := 0) hts hstop).mp ⟨_, _, rfl, rfl⟩⟩

end Parsing

end Grammar

end TreeWalk
