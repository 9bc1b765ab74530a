import TreeWalk.Grammar.Statement

/-!
Parsing whole token lists, as programs or as single expressions.
-/

namespace TreeWalk

/-- The statements that parsed, the reports on those that did not, and the next node identity. -/
structure Parsed where
  statements : List Stmt
  errors : List Diagnostic
  nextId : NodeId

/-- Parses a program. Node identities are drawn from `nextId` on. -/
def parseProgram (tokens : List Token) (nextId : NodeId) : Parsed :=
  let (statements, s) := Rule.program (Cursor.ofTokens tokens nextId)
  ⟨statements, s.reports, s.nextId⟩

/-- An expression that is the whole text; a report made on the way spoils it in the end. -/
def Rule.soleExpression : Rule Expr := do
  let e ← expression
  let s ← get
  if !s.atEnd then fail (.expected .endOfExpression)
  match s.reports with
  | d :: _ => throw d
  | [] => return e

/-- Parses a single expression, and tells the next node identity as well. -/
def parseExpression (tokens : List Token) (nextId : NodeId) : Except Diagnostic Expr × NodeId :=
  let (result, s) := Rule.soleExpression (Cursor.ofTokens tokens nextId)
  (result, s.nextId)

end TreeWalk
