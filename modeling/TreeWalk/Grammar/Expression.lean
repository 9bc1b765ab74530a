import TreeWalk.Grammar.Cursor

/-!
The grammar of expressions, from primaries up to assignments. A rule that contains whole
expressions takes the rule for them as a parameter.
-/

namespace TreeWalk

/-- The constant that a token denotes by itself. -/
def Token.constant? (t : Token) : Option Literal :=
  match t.kind with
  | .keyword .false_ => some (.bool false)
  | .keyword .true_ => some (.bool true)
  | .keyword .nil_ => some .nil
  | kind => kind.literal?

namespace Rule

/-- Operands joined from the left by operators. The bound is the number of tokens left, of which
every round takes an operator. -/
def leftAssocFrom (build : Expr → Token → Expr → Expr) (isOperator : Token → Bool)
    (operand : Rule Expr) : Nat → Expr → Rule Expr
  | 0, left => return left
  | bound + 1, left => do
    match ← accept? isOperator with
    | some operator =>
      let right ← operand
      leftAssocFrom build isOperator operand bound (build left operator right)
    | none => return left

def leftAssoc (build : Expr → Token → Expr → Expr) (isOperator : Token → Bool)
    (operand : Rule Expr) : Rule Expr := do
  let left ← operand
  leftAssocFrom build isOperator operand (← get).rest.length left

/-- A constant, a name, or an expression in parentheses. -/
def primary (expression : Rule Expr) : Rule Expr := do
  let t := (← get).head
  if let some value := t.constant? then
    skip
    return .literal value
  else if t.isIdentifier then
    skip
    return .var (← freshId) t
  else if t.isPunctuator .leftParen then
    skip
    let inner ← expression
    discard (expect (·.isPunctuator .rightParen) .parenAfterExpression)
    return .grouping inner
  else fail (.expected .expression)

/-- The arguments of a call and the parenthesis that closes them. -/
def arguments (expression : Rule Expr) : Rule (List Expr × Token) := do
  let args ←
    if ← sees (·.isPunctuator .rightParen) then pure []
    else commaSeparated .tooManyArguments expression
  return (args, ← expect (·.isPunctuator .rightParen) .parenAfterArguments)

/-- Calls of a callee, each one calling the result of the one before. The bound is the number of
tokens left, of which every call takes some. -/
def callsFrom (expression : Rule Expr) : Nat → Expr → Rule Expr
  | 0, callee => return callee
  | bound + 1, callee => do
    if ← accepts (·.isPunctuator .leftParen) then
      let (args, paren) ← arguments expression
      callsFrom expression bound (.call callee paren args)
    else return callee

def call (expression : Rule Expr) : Rule Expr := do
  let callee ← primary expression
  callsFrom expression (← get).rest.length callee

/-- Any number of signs before a call. -/
def unary (expression : Rule Expr) : Rule Expr := do
  let operators ← acceptWhile fun t => t.isPunctuator .bang || t.isPunctuator .minus
  let operand ← call expression
  return operators.foldr .unary operand

def factor (expression : Rule Expr) : Rule Expr :=
  leftAssoc .binary (fun t => t.isPunctuator .slash || t.isPunctuator .star) (unary expression)

def term (expression : Rule Expr) : Rule Expr :=
  leftAssoc .binary (fun t => t.isPunctuator .minus || t.isPunctuator .plus) (factor expression)

def isComparison (t : Token) : Bool :=
  t.isPunctuator .greater || t.isPunctuator .greaterEqual || t.isPunctuator .less
    || t.isPunctuator .lessEqual

def comparison (expression : Rule Expr) : Rule Expr :=
  leftAssoc .binary isComparison (term expression)

def equality (expression : Rule Expr) : Rule Expr :=
  leftAssoc .binary (fun t => t.isPunctuator .bangEqual || t.isPunctuator .equalEqual)
    (comparison expression)

def conjunction (expression : Rule Expr) : Rule Expr :=
  leftAssoc .logical (·.isKeyword .and_) (equality expression)

def disjunction (expression : Rule Expr) : Rule Expr :=
  leftAssoc .logical (·.isKeyword .or_) (conjunction expression)

/-- What follows the equals sign after a target. Only a variable can be assigned to; any other
target is complained about at the equals sign, and its value is dropped. -/
def assignTo (expression : Rule Expr) (target : Expr) (equals : Token) : Rule Expr := do
  let value ← expression
  match target with
  | .var _ name => return .assign (← freshId) name value
  | _ =>
    modify (·.report (.syntactic equals .invalidAssignmentTarget))
    return target

/-- Assignments join from the right. -/
def assignment (expression : Rule Expr) : Rule Expr := do
  let target ← disjunction expression
  match ← accept? (·.isPunctuator .equal) with
  | none => return target
  | some equals => assignTo expression target equals

/-- Expressions nested at most as deep as the argument says. -/
def expressionUpTo : Nat → Rule Expr
  | 0 => fun s => fail (.expected .expression) s
  | depth + 1 => fun s => assignment (expressionUpTo depth) s

/-- An expression. Each one inside another follows a token of the outer one, so nesting is never
deeper than the number of tokens left. -/
def expression : Rule Expr := fun s =>
  expressionUpTo (s.rest.length + 1) s

end Rule

end TreeWalk
