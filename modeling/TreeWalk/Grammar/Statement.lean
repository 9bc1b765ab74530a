import TreeWalk.Grammar.Expression

/-!
The grammar of statements and declarations, with recovery after errors. A rule that contains
statements or blocks takes the rules for them as parameters.
-/

namespace TreeWalk

/-- Keywords that a statement or declaration starts with. -/
def Token.startsStatement (t : Token) : Bool :=
  [Keyword.class_, .fun_, .var_, .for_, .if_, .while_, .print_, .return_].any t.isKeyword

/-- Where parsing goes on after an error: at least one token is dropped, and all up to a semicolon
or up to a token that starts a statement. -/
def Cursor.resumption : List Token → List Token
  | [] => []
  | t :: ts =>
    if t.isPunctuator .semicolon || ts.head?.any Token.startsStatement then ts else resumption ts

namespace Rule

def expressionStatement : Rule Stmt := do
  let e ← expression
  discard (expect (·.isPunctuator .semicolon) .semicolonAfterExpression)
  return .expression e

def printStatement : Rule Stmt := do
  let e ← expression
  discard (expect (·.isPunctuator .semicolon) .semicolonAfterValue)
  return .print e

/-- An expression, unless the token that would follow it comes right away. -/
def optionalExpression (closing : Punctuator) : Rule (Option Expr) := do
  if ← sees (·.isPunctuator closing) then return none else return some (← expression)

def returnStatement (keyword : Token) : Rule Stmt := do
  let value ← optionalExpression .semicolon
  discard (expect (·.isPunctuator .semicolon) .semicolonAfterReturnValue)
  return .returnFrom keyword value

def variableDeclaration : Rule Stmt := do
  let name ← expect Token.isIdentifier .variableName
  let initializer ←
    if ← accepts (·.isPunctuator .equal) then some <$> expression else pure none
  discard (expect (·.isPunctuator .semicolon) .semicolonAfterDeclaration)
  return .declare name initializer

def whileStatement (statement : Rule Stmt) : Rule Stmt := do
  discard (expect (·.isPunctuator .leftParen) .parenAfterWhile)
  let condition ← expression
  discard (expect (·.isPunctuator .rightParen) .parenAfterCondition)
  return .whileLoop condition (← statement)

/-- An alternative belongs to the nearest condition before it. -/
def ifStatement (statement : Rule Stmt) : Rule Stmt := do
  discard (expect (·.isPunctuator .leftParen) .parenAfterIf)
  let condition ← expression
  discard (expect (·.isPunctuator .rightParen) .parenAfterIfCondition)
  let thenBranch ← statement
  if ← accepts (·.isKeyword .else_) then return .ifElse condition thenBranch (← statement)
  else return .ifThen condition thenBranch

def forInitializer : Rule (Option Stmt) := do
  if ← accepts (·.isPunctuator .semicolon) then return none
  else if ← accepts (·.isKeyword .var_) then return some (← variableDeclaration)
  else return some (← expressionStatement)

def forStatement (statement : Rule Stmt) : Rule Stmt := do
  discard (expect (·.isPunctuator .leftParen) .parenAfterFor)
  let initializer ← forInitializer
  let condition ← optionalExpression .semicolon
  discard (expect (·.isPunctuator .semicolon) .semicolonAfterLoopCondition)
  let increment ← optionalExpression .rightParen
  discard (expect (·.isPunctuator .rightParen) .parenAfterForClauses)
  return .forLoop initializer condition increment (← statement)

def statementWith (statement : Rule Stmt) (block : Rule (List Stmt)) : Rule Stmt := do
  if ← accepts (·.isKeyword .for_) then forStatement statement
  else if ← accepts (·.isKeyword .if_) then ifStatement statement
  else if ← accepts (·.isKeyword .print_) then printStatement
  else if let some keyword ← accept? (·.isKeyword .return_) then returnStatement keyword
  else if ← accepts (·.isKeyword .while_) then whileStatement statement
  else if ← accepts (·.isPunctuator .leftBrace) then return .block (← block)
  else expressionStatement

def parameters : Rule (List Token) := do
  let params ←
    if ← sees (·.isPunctuator .rightParen) then pure []
    else commaSeparated .tooManyParameters (expect Token.isIdentifier .parameterName)
  discard (expect (·.isPunctuator .rightParen) .parenAfterParameters)
  return params

def functionDeclaration (block : Rule (List Stmt)) : Rule Stmt := do
  let name ← expect Token.isIdentifier .functionName
  discard (expect (·.isPunctuator .leftParen) .parenAfterFunctionName)
  let params ← parameters
  discard (expect (·.isPunctuator .leftBrace) .braceBeforeBody)
  return .function name params (← block)

def declarationWith (statement : Rule Stmt) (block : Rule (List Stmt)) : Rule Stmt := do
  if ← accepts (·.isKeyword .fun_) then functionDeclaration block
  else if ← accepts (·.isKeyword .var_) then variableDeclaration
  else statementWith statement block

/-- Turns giving up into a report, after which parsing goes on behind the faulty statement. -/
def recovering (rule : Rule Stmt) : StateM Cursor (Option Stmt) := fun s =>
  match rule s with
  | (.ok stmt, s') => (some stmt, s')
  | (.error d, s') => (none, { s'.report d with rest := Cursor.resumption s'.rest })

theorem recovering_ok {rule : Rule Stmt} {stmt : Stmt} {s s' : Cursor}
    (h : rule s = (.ok stmt, s')) : recovering rule s = (some stmt, s') := by
  rw [recovering, h]

theorem recovering_error {rule : Rule Stmt} {d : Diagnostic} {s s' : Cursor}
    (h : rule s = (.error d, s')) :
    recovering rule s = (none, { s'.report d with rest := Cursor.resumption s'.rest }) := by
  rw [recovering, h]

/-- All that can happen: the rule comes through and nothing is added, or it gives up. -/
theorem recovering_cases (rule : Rule Stmt) (s : Cursor) :
    (∃ stmt s', rule s = (.ok stmt, s') ∧ recovering rule s = (some stmt, s')) ∨
      ∃ d s', rule s = (.error d, s') ∧ recovering rule s =
        (none, { s'.report d with rest := Cursor.resumption s'.rest }) := by
  cases h : rule s with
  | mk result s' =>
    cases result with
    | ok stmt => exact .inl ⟨stmt, s', rfl, recovering_ok h⟩
    | error d => exact .inr ⟨d, s', rfl, recovering_error h⟩

/-- Declarations up to a token of a kind or to the end; faulty ones are left out. The bound is
the number of tokens left, of which every declaration takes some. -/
def declarationsUntil (closes : Token → Bool) (declaration : StateM Cursor (Option Stmt)) :
    Nat → StateM Cursor (List Stmt)
  | 0 => return []
  | bound + 1 => do
    if (← get).rest.head?.all closes then return []
    else
      let first ← declaration
      let others ← declarationsUntil closes declaration bound
      return first.toList ++ others

theorem declarationsUntil_succ_apply (closes : Token → Bool)
    (declaration : StateM Cursor (Option Stmt)) (bound : Nat) (s : Cursor) :
    declarationsUntil closes declaration (bound + 1) s =
      if s.rest.head?.all closes then ([], s)
      else
        let (first, s₁) := declaration s
        let (others, s₂) := declarationsUntil closes declaration bound s₁
        (first.toList ++ others, s₂) := by
  change (if s.rest.head?.all closes then (return []) else do
    let first ← declaration
    let others ← declarationsUntil closes declaration bound
    return first.toList ++ others : StateM Cursor (List Stmt)) s = _
  split <;> rfl

/-- The inside of a block and the brace that closes it. -/
def blockOf (declaration : StateM Cursor (Option Stmt)) : Rule (List Stmt) := do
  let bound := (← get).rest.length
  let body ← declarationsUntil (·.isPunctuator .rightBrace) declaration bound
  discard (expect (·.isPunctuator .rightBrace) .braceAfterBlock)
  return body

mutual

/-- Statements nested at most as deep as the argument says. -/
def statementUpTo : Nat → Rule Stmt
  | 0 => fun s => fail (.expected .expression) s
  | depth + 1 => fun s =>
    statementWith (statementUpTo depth) (blockOf (declarationUpTo depth)) s

/-- Declarations nested at most as deep as the argument says. -/
def declarationUpTo : Nat → StateM Cursor (Option Stmt)
  | 0 => fun s => recovering (fail (.expected .expression)) s
  | depth + 1 => fun s =>
    recovering (declarationWith (statementUpTo depth) (blockOf (declarationUpTo depth))) s

end

/-- A declaration or statement. Each one inside another follows a token of the outer one, so
nesting is never deeper than the number of tokens left. -/
def declaration : StateM Cursor (Option Stmt) := fun s =>
  declarationUpTo (s.rest.length + 1) s

def program : StateM Cursor (List Stmt) := fun s =>
  declarationsUntil (fun _ => false) declaration s.rest.length s

end Rule

end TreeWalk
