import TreeWalk.Proofs.Grammar.Acceptance
import TreeWalk.Proofs.Renaming.Tree

/-! Texts that differ by a pair of braces around one statement. If the grammar derives the one, it
derives the other, and its tree has a block in place of the statement. -/

namespace TreeWalk

/-- A loop with another body is another loop in the same place. -/
theorem Stmt.Replaced.forLoop {s s' t t' : Stmt} (h : Replaced s s' t t')
    (initializer : Option Stmt) (condition increment : Option Expr) :
    Replaced s s' (.forLoop initializer condition increment t)
      (.forLoop initializer condition increment t') := by
  have hloop : Replaced s s' (.forLoop none condition increment t)
      (.forLoop none condition increment t') := by
    cases increment with
    | none => exact .whileLoop h
    | some e => exact .whileLoop (.block (.head h))
  cases initializer with
  | none => exact hloop
  | some i => exact .block (.tail (.head hloop))

namespace Grammar

mutual

/-- The tokens `ts` are a statement with the tree `t`. If braces are put around the tokens of a
statement `s` in it, they become `ts'`, and `t` becomes `t'`. -/
inductive Statement.Braced (s : Stmt) :
    Nat → List Token → List Token → Stmt → Stmt → Bool → Nat → Prop where
  | here {n n' ts dangling} {opening closing : Token} :
      opening.kind = .punctuator .leftBrace → Statement .nearest n ts s dangling n' →
      closing.kind = .punctuator .rightBrace →
      Statement.Braced s n ts (opening :: (ts ++ [closing])) s (.block [s]) dangling n'
  | whileLoop {n n₁ n' ts₁ ts₂ ts₂' condition t t' dangling} {keyword opening closing : Token} :
      keyword.kind = .keyword .while_ → opening.kind = .punctuator .leftParen →
      Phrase .assignment n ts₁ condition n₁ → closing.kind = .punctuator .rightParen →
      Statement.Braced s n₁ ts₂ ts₂' t t' dangling n' →
      Statement.Braced s n (keyword :: opening :: (ts₁ ++ closing :: ts₂))
        (keyword :: opening :: (ts₁ ++ closing :: ts₂')) (.whileLoop condition t)
        (.whileLoop condition t') dangling n'
  | ifThen {n n₁ n' ts₁ ts₂ ts₂' condition t t' dangling} {keyword opening closing : Token} :
      keyword.kind = .keyword .if_ → opening.kind = .punctuator .leftParen →
      Phrase .assignment n ts₁ condition n₁ → closing.kind = .punctuator .rightParen →
      Statement.Braced s n₁ ts₂ ts₂' t t' dangling n' →
      Statement.Braced s n (keyword :: opening :: (ts₁ ++ closing :: ts₂))
        (keyword :: opening :: (ts₁ ++ closing :: ts₂')) (.ifThen condition t)
        (.ifThen condition t') true n'
  | thenBranch {n n₁ n₂ n' ts₁ ts₂ ts₂' ts₃ condition t t' u dangling}
      {keyword opening closing alternative : Token} :
      keyword.kind = .keyword .if_ → opening.kind = .punctuator .leftParen →
      Phrase .assignment n ts₁ condition n₁ → closing.kind = .punctuator .rightParen →
      Statement.Braced s n₁ ts₂ ts₂' t t' false n₂ →
      alternative.kind = .keyword .else_ → Statement .nearest n₂ ts₃ u dangling n' →
      Statement.Braced s n
        (keyword :: opening :: (ts₁ ++ closing :: (ts₂ ++ alternative :: ts₃)))
        (keyword :: opening :: (ts₁ ++ closing :: (ts₂' ++ alternative :: ts₃)))
        (.ifElse condition t u) (.ifElse condition t' u) dangling n'
  | elseBranch {n n₁ n₂ n' ts₁ ts₂ ts₃ ts₃' condition t u u' dangling}
      {keyword opening closing alternative : Token} :
      keyword.kind = .keyword .if_ → opening.kind = .punctuator .leftParen →
      Phrase .assignment n ts₁ condition n₁ → closing.kind = .punctuator .rightParen →
      Statement .nearest n₁ ts₂ t false n₂ → alternative.kind = .keyword .else_ →
      Statement.Braced s n₂ ts₃ ts₃' u u' dangling n' →
      Statement.Braced s n
        (keyword :: opening :: (ts₁ ++ closing :: (ts₂ ++ alternative :: ts₃)))
        (keyword :: opening :: (ts₁ ++ closing :: (ts₂ ++ alternative :: ts₃')))
        (.ifElse condition t u) (.ifElse condition t u') dangling n'
  | forLoop {n n₁ n₂ n₃ n' ts₁ ts₂ ts₃ ts₄ ts₄' initializer condition increment t t' u u' dangling}
      {keyword opening semicolon closing : Token} :
      keyword.kind = .keyword .for_ → opening.kind = .punctuator .leftParen →
      LoopStart n ts₁ initializer n₁ → OptionalPhrase n₁ ts₂ condition n₂ →
      semicolon.kind = .punctuator .semicolon → OptionalPhrase n₂ ts₃ increment n₃ →
      closing.kind = .punctuator .rightParen →
      Statement.Braced s n₃ ts₄ ts₄' t t' dangling n' →
      LoopTree initializer condition increment t u →
      LoopTree initializer condition increment t' u' →
      Statement.Braced s n
        (keyword :: opening :: (ts₁ ++ (ts₂ ++ semicolon :: (ts₃ ++ closing :: ts₄))))
        (keyword :: opening :: (ts₁ ++ (ts₂ ++ semicolon :: (ts₃ ++ closing :: ts₄')))) u u'
        dangling n'
  | block {n n' ts ts' body body'} {opening closing : Token} :
      opening.kind = .punctuator .leftBrace →
      Declarations.Braced s n ts ts' body body' n' →
      closing.kind = .punctuator .rightBrace →
      Statement.Braced s n (opening :: (ts ++ [closing])) (opening :: (ts' ++ [closing]))
        (.block body) (.block body') false n'

inductive Declaration.Braced (s : Stmt) :
    Nat → List Token → List Token → Stmt → Stmt → Bool → Nat → Prop where
  | function {n n' ts₁ ts₂ ts₂' params body body'}
      {keyword name opening closing openingBrace closingBrace : Token} :
      keyword.kind = .keyword .fun_ → name.kind = .identifier →
      opening.kind = .punctuator .leftParen → OptionalParameters ts₁ params →
      closing.kind = .punctuator .rightParen → openingBrace.kind = .punctuator .leftBrace →
      Declarations.Braced s n ts₂ ts₂' body body' n' →
      closingBrace.kind = .punctuator .rightBrace →
      Declaration.Braced s n
        (keyword :: name :: opening ::
          (ts₁ ++ closing :: openingBrace :: (ts₂ ++ [closingBrace])))
        (keyword :: name :: opening ::
          (ts₁ ++ closing :: openingBrace :: (ts₂' ++ [closingBrace])))
        (.function name params body) (.function name params body') false n'
  | statement {n n' ts ts' t t' dangling} :
      Statement.Braced s n ts ts' t t' dangling n' →
      Declaration.Braced s n ts ts' t t' dangling n'

inductive Declarations.Braced (s : Stmt) :
    Nat → List Token → List Token → List Stmt → List Stmt → Nat → Prop where
  | head {n n₁ n' ts₁ ts₁' ts₂ t t' others dangling} :
      Declaration.Braced s n ts₁ ts₁' t t' dangling n₁ →
      Declarations .nearest n₁ ts₂ others n' →
      Declarations.Braced s n (ts₁ ++ ts₂) (ts₁' ++ ts₂) (t :: others) (t' :: others) n'
  | tail {n n₁ n' ts₁ ts₂ ts₂' t others others' dangling} :
      Declaration .nearest n ts₁ t dangling n₁ →
      Declarations.Braced s n₁ ts₂ ts₂' others others' n' →
      Declarations.Braced s n (ts₁ ++ ts₂) (ts₁ ++ ts₂') (t :: others) (t :: others') n'

end

variable {s : Stmt}

mutual

theorem Statement.Braced.derived {n n' : Nat} {ts ts' : List Token} {t t' : Stmt}
    {dangling : Bool} (h : Statement.Braced s n ts ts' t t' dangling n') :
    Statement .nearest n ts t dangling n' := by
  match h with
  | .here _ h _ => exact h
  | .whileLoop hk hopening hcondition hclosing h =>
    exact .whileLoop hk hopening hcondition hclosing h.derived
  | .ifThen hk hopening hcondition hclosing h =>
    exact .ifThen hk hopening hcondition hclosing h.derived
  | .thenBranch hk hopening hcondition hclosing h halternative helse =>
    exact .ifElse hk hopening hcondition hclosing h.derived (fun _ => rfl) halternative helse
  | .elseBranch hk hopening hcondition hclosing hthen halternative h =>
    exact .ifElse hk hopening hcondition hclosing hthen (fun _ => rfl) halternative h.derived
  | .forLoop hk hopening hstart hcondition hsemicolon hincrement hclosing h htree _ =>
    exact .forLoop hk hopening hstart hcondition hsemicolon hincrement hclosing h.derived htree
  | .block hopening h hclosing => exact .block hopening h.derived hclosing

theorem Declaration.Braced.derived {n n' : Nat} {ts ts' : List Token} {t t' : Stmt}
    {dangling : Bool} (h : Declaration.Braced s n ts ts' t t' dangling n') :
    Declaration .nearest n ts t dangling n' := by
  match h with
  | .function hk hname hopening hparams hclosing hopeningBrace h hclosingBrace =>
    exact .function hk hname hopening hparams hclosing hopeningBrace h.derived hclosingBrace
  | .statement h => exact .statement h.derived

theorem Declarations.Braced.derived {n n' : Nat} {ts ts' : List Token} {body body' : List Stmt}
    (h : Declarations.Braced s n ts ts' body body' n') :
    Declarations .nearest n ts body n' := by
  match h with
  | .head h hothers => exact .cons h.derived hothers
  | .tail hfirst h => exact .cons hfirst h.derived

end

mutual

/-- The braces close what was open at the end, and open nothing. -/
theorem Statement.Braced.derived_braced {n n' : Nat} {ts ts' : List Token} {t t' : Stmt}
    {dangling : Bool} (h : Statement.Braced s n ts ts' t t' dangling n') :
    ∃ dangling', Statement .nearest n ts' t' dangling' n' ∧
      (dangling = false → dangling' = false) := by
  match h with
  | @Statement.Braced.here _ _ n' ts _ _ _ hopening h hclosing =>
    have hbody : Declarations .nearest n (ts ++ []) [s] n' := .cons (.statement h) .nil
    rw [List.append_nil] at hbody
    exact ⟨_, .block hopening hbody hclosing, fun _ => rfl⟩
  | .whileLoop hk hopening hcondition hclosing h =>
    obtain ⟨_, h', hopen⟩ := h.derived_braced
    exact ⟨_, .whileLoop hk hopening hcondition hclosing h', hopen⟩
  | .ifThen hk hopening hcondition hclosing h =>
    obtain ⟨_, h', -⟩ := h.derived_braced
    exact ⟨_, .ifThen hk hopening hcondition hclosing h', id⟩
  | .thenBranch hk hopening hcondition hclosing h halternative helse =>
    obtain ⟨_, h', hopen⟩ := h.derived_braced
    exact ⟨_, .ifElse hk hopening hcondition hclosing h' (fun _ => hopen rfl) halternative helse,
      id⟩
  | .elseBranch hk hopening hcondition hclosing hthen halternative h =>
    obtain ⟨_, h', hopen⟩ := h.derived_braced
    exact ⟨_, .ifElse hk hopening hcondition hclosing hthen (fun _ => rfl) halternative h', hopen⟩
  | .forLoop hk hopening hstart hcondition hsemicolon hincrement hclosing h _ htree =>
    obtain ⟨_, h', hopen⟩ := h.derived_braced
    exact ⟨_, .forLoop hk hopening hstart hcondition hsemicolon hincrement hclosing h' htree, hopen⟩
  | .block hopening h hclosing => exact ⟨_, .block hopening h.derived_braced hclosing, id⟩

theorem Declaration.Braced.derived_braced {n n' : Nat} {ts ts' : List Token} {t t' : Stmt}
    {dangling : Bool} (h : Declaration.Braced s n ts ts' t t' dangling n') :
    ∃ dangling', Declaration .nearest n ts' t' dangling' n' := by
  match h with
  | .function hk hname hopening hparams hclosing hopeningBrace h hclosingBrace =>
    exact ⟨_, .function hk hname hopening hparams hclosing hopeningBrace h.derived_braced
      hclosingBrace⟩
  | .statement h =>
    obtain ⟨_, h', -⟩ := h.derived_braced
    exact ⟨_, .statement h'⟩

theorem Declarations.Braced.derived_braced {n n' : Nat} {ts ts' : List Token}
    {body body' : List Stmt} (h : Declarations.Braced s n ts ts' body body' n') :
    Declarations .nearest n ts' body' n' := by
  match h with
  | .head h hothers =>
    obtain ⟨_, h'⟩ := h.derived_braced
    exact .cons h' hothers
  | .tail hfirst h => exact .cons hfirst h.derived_braced

end

mutual

theorem Statement.Braced.replaced {n n' : Nat} {ts ts' : List Token} {t t' : Stmt}
    {dangling : Bool} (h : Statement.Braced s n ts ts' t t' dangling n') :
    Stmt.Replaced s (.block [s]) t t' := by
  match h with
  | .here _ _ _ => exact .here
  | .whileLoop _ _ _ _ h => exact .whileLoop h.replaced
  | .ifThen _ _ _ _ h => exact .ifThen h.replaced
  | .thenBranch _ _ _ _ h _ _ => exact .thenBranch h.replaced
  | .elseBranch _ _ _ _ _ _ h => exact .elseBranch h.replaced
  | .forLoop _ _ _ _ _ _ _ h htree htree' =>
    rw [loopTree_iff.mp htree, loopTree_iff.mp htree']
    exact h.replaced.forLoop _ _ _
  | .block _ h _ => exact .block h.replaced

theorem Declaration.Braced.replaced {n n' : Nat} {ts ts' : List Token} {t t' : Stmt}
    {dangling : Bool} (h : Declaration.Braced s n ts ts' t t' dangling n') :
    Stmt.Replaced s (.block [s]) t t' := by
  match h with
  | .function _ _ _ _ _ _ h _ => exact .function h.replaced
  | .statement h => exact h.replaced

theorem Declarations.Braced.replaced {n n' : Nat} {ts ts' : List Token} {body body' : List Stmt}
    (h : Declarations.Braced s n ts ts' body body' n') :
    Stmt.ReplacedIn s (.block [s]) body body' := by
  match h with
  | .head h _ => exact .head h.replaced
  | .tail _ h => exact .tail h.replaced

end

/-- If a text is parsed without a report, so is the text with the braces. -/
theorem parseProgram_braced {n n' : Nat} {ts ts' : List Token} {stop : Token}
    {program program' : List Stmt} (hts : ∀ t ∈ ts, t.isEnd = false)
    (hts' : ∀ t ∈ ts', t.isEnd = false) (hstop : stop.isEnd = true)
    (h : Declarations.Braced s n ts ts' program program' n') :
    parseProgram (ts ++ [stop]) n = ⟨program, [], n'⟩ ∧
      parseProgram (ts' ++ [stop]) n = ⟨program', [], n'⟩ ∧
        Stmt.ReplacedIn s (.block [s]) program program' :=
  ⟨(parseProgram_eq_iff hts hstop).mpr h.derived,
    (parseProgram_eq_iff hts' hstop).mpr h.derived_braced, h.replaced⟩

end Grammar

end TreeWalk
