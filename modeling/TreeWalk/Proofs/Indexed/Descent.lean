import TreeWalk.Grammar.Parse

/-! Parsing by an index into all the tokens. A cursor has the tokens that are left; a reader looks
a token up where its index is, moves the index on, and looks back at the token before it. Here no
number of tokens bounds how often a loop goes round or how deep a rule calls itself. The fuel of a
run does, and a run that uses it up has no result; neither has one that looks for a token where
there is none. -/

namespace TreeWalk

/-- The index of the next token, all indices that the reader has moved to or looked a token up at,
the latest first, the reports made without giving up, and the next node identity. -/
structure Reader where
  current : Nat
  seen : List Nat
  reports : List Diagnostic
  nextId : NodeId

namespace Reader

def start (nextId : NodeId) : Reader :=
  ⟨0, [], [], nextId⟩

def look (i : Nat) (reader : Reader) : Reader :=
  { reader with seen := i :: reader.seen }

/-- The index moved on by one. -/
def move (reader : Reader) : Reader :=
  { reader with current := reader.current + 1, seen := (reader.current + 1) :: reader.seen }

end Reader

/-- The tokens of a parser: those given, and an end mark after them unless the last one is one. -/
def Token.supplied (tokens : List Token) : List Token :=
  if tokens.getLast?.any isEnd then tokens
  else tokens ++ [endMark ((tokens.getLast?.map line).getD 1)]

abbrev Descent := ReaderT (List Token) (ExceptT Diagnostic (StateT Reader Option))

namespace Descent

section Tokens

def tokenAt (i : Nat) : Descent Token := fun tokens reader =>
  tokens[i]?.map fun t => (.ok t, reader.look i)

def peek : Descent Token := do
  tokenAt (← get).current

def previous : Descent Token := do
  tokenAt ((← get).current - 1)

def isAtEnd : Descent Bool := do
  return (← peek).isEnd

/-- Moves on, but never past an end mark, and looks back. -/
def advance : Descent Token := do
  if ← isAtEnd then previous
  else
    modify Reader.move
    previous

def check (k : Kind) : Descent Bool := do
  if ← isAtEnd then return false else return (← peek).kind.agrees k

/-- Passes over the next token if it is of one of the kinds. -/
def takes : List Kind → Descent Bool
  | [] => return false
  | k :: ks => do
    if ← check k then
      discard advance
      return true
    else takes ks

/-- Whether a token of one of the kinds comes next, or no token at all. -/
def closes : List Kind → Descent Bool
  | [] => isAtEnd
  | k :: ks => do
    if ← check k then return true else closes ks

end Tokens

section Reports

variable {α : Type}

/-- Out of fuel. -/
def spent : Descent α := fun _ _ => none

def fail (cause : SyntacticCause) : Descent α := do
  throw (.syntactic (← peek) cause)

def report (d : Diagnostic) : Descent Unit :=
  modify fun reader => { reader with reports := reader.reports ++ [d] }

def complain (cause : SyntacticCause) : Descent Unit := do
  report (.syntactic (← peek) cause)

def consume (k : Kind) (what : Expectation) : Descent Token := do
  if ← check k then advance else fail (.expected what)

def freshId : Descent NodeId := do
  let id := (← get).nextId
  modify fun reader => { reader with nextId := id + 1 }
  return id

/-- The items after the given ones of a list with commas. -/
def itemsFrom (tooMany : SyntacticCause) (item : Descent α) : Nat → List α → Descent (List α)
  | 0, _ => spent
  | fuel + 1, items => do
    if Rule.maxArity ≤ items.length then complain tooMany
    let a ← item
    if ← takes [.punctuator .comma] then itemsFrom tooMany item fuel (items ++ [a])
    else return items ++ [a]

/-- The items up to a parenthesis that closes them. -/
def items (tooMany : SyntacticCause) (item : Descent α) (fuel : Nat) : Descent (List α) := do
  if ← check (.punctuator .rightParen) then return [] else itemsFrom tooMany item fuel []

def synchronizeFrom : Nat → Descent Unit
  | 0 => spent
  | fuel + 1 => do
    if ← isAtEnd then return ()
    else if (← previous).isPunctuator .semicolon then return ()
    else if (← peek).startsStatement then return ()
    else
      discard advance
      synchronizeFrom fuel

/-- Drops the next token, and all up to where a statement may start. -/
def synchronize (fuel : Nat) : Descent Unit := do
  discard advance
  synchronizeFrom fuel

end Reports

section Expressions

/-- Operators of one level, and what joins their operands from the left. -/
structure Joint where
  operators : List Kind
  join : Expr → Token → Expr → Expr

/-- The levels of operators, the loosest one first. -/
def joints : List Joint :=
  [⟨[.keyword .or_], .logical⟩,
    ⟨[.keyword .and_], .logical⟩,
    ⟨[.punctuator .bangEqual, .punctuator .equalEqual], .binary⟩,
    ⟨[.punctuator .greater, .punctuator .greaterEqual, .punctuator .less, .punctuator .lessEqual],
      .binary⟩,
    ⟨[.punctuator .minus, .punctuator .plus], .binary⟩,
    ⟨[.punctuator .slash, .punctuator .star], .binary⟩]

def joinedFrom (j : Joint) (operand : Descent Expr) : Nat → Expr → Descent Expr
  | 0, _ => spent
  | fuel + 1, left => do
    if ← takes j.operators then
      let operator ← previous
      let right ← operand
      joinedFrom j operand fuel (j.join left operator right)
    else return left

def joined (fuel : Nat) (j : Joint) (operand : Descent Expr) : Descent Expr := do
  let left ← operand
  joinedFrom j operand fuel left

def primary (expression : Descent Expr) : Descent Expr := do
  if ← takes [.keyword .false_] then return .literal (.bool false)
  else if ← takes [.keyword .true_] then return .literal (.bool true)
  else if ← takes [.keyword .nil_] then return .literal .nil
  else if let some value := (← peek).kind.literal? then
    discard advance
    return .literal value
  else if ← takes [.identifier] then
    let name ← previous
    return .var (← freshId) name
  else if ← takes [.punctuator .leftParen] then
    let inner ← expression
    discard (consume (.punctuator .rightParen) .parenAfterExpression)
    return .grouping inner
  else fail (.expected .expression)

/-- The arguments of a call and the parenthesis that closes them. -/
def arguments (expression : Descent Expr) (fuel : Nat) : Descent (List Expr × Token) := do
  let args ← items .tooManyArguments expression fuel
  let paren ← consume (.punctuator .rightParen) .parenAfterArguments
  return (args, paren)

def callsFrom (expression : Descent Expr) : Nat → Expr → Descent Expr
  | 0, _ => spent
  | fuel + 1, callee => do
    if ← takes [.punctuator .leftParen] then
      let (args, paren) ← arguments expression fuel
      callsFrom expression fuel (.call callee paren args)
    else return callee

def call (expression : Descent Expr) (fuel : Nat) : Descent Expr := do
  let callee ← primary expression
  callsFrom expression fuel callee

def unary (call : Descent Expr) : Nat → Descent Expr
  | 0 => spent
  | fuel + 1 => do
    if ← takes [.punctuator .bang, .punctuator .minus] then
      let operator ← previous
      let right ← unary call fuel
      return .unary operator right
    else call

/-- Only a variable can be assigned to; any other target is reported at the equals sign. -/
def assign (target : Expr) (equals : Token) (value : Expr) : Descent Expr :=
  match target with
  | .var _ name => do return .assign (← freshId) name value
  | _ => do
    report (.syntactic equals .invalidAssignmentTarget)
    return target

def assignment (expression : Descent Expr) (fuel : Nat) : Descent Expr := do
  let target ← joints.foldr (joined fuel) (unary (call expression fuel) fuel)
  if ← takes [.punctuator .equal] then
    let equals ← previous
    let value ← expression
    assign target equals value
  else return target

def expression : Nat → Descent Expr
  | 0 => spent
  | fuel + 1 => assignment (expression fuel) fuel

end Expressions

section Statements

variable (fuel : Nat)

def expressionStatement : Descent Stmt := do
  let e ← expression fuel
  discard (consume (.punctuator .semicolon) .semicolonAfterExpression)
  return .expression e

def printStatement : Descent Stmt := do
  let e ← expression fuel
  discard (consume (.punctuator .semicolon) .semicolonAfterValue)
  return .print e

def optionalExpression (closing : Kind) : Descent (Option Expr) := do
  if ← check closing then return none else return some (← expression fuel)

def returnStatement : Descent Stmt := do
  let keyword ← previous
  let value ← optionalExpression fuel (.punctuator .semicolon)
  discard (consume (.punctuator .semicolon) .semicolonAfterReturnValue)
  return .returnFrom keyword value

def variableDeclaration : Descent Stmt := do
  let name ← consume .identifier .variableName
  let initializer ←
    if ← takes [.punctuator .equal] then some <$> expression fuel else pure none
  discard (consume (.punctuator .semicolon) .semicolonAfterDeclaration)
  return .declare name initializer

def whileStatement (statement : Descent Stmt) : Descent Stmt := do
  discard (consume (.punctuator .leftParen) .parenAfterWhile)
  let condition ← expression fuel
  discard (consume (.punctuator .rightParen) .parenAfterCondition)
  return .whileLoop condition (← statement)

def ifStatement (statement : Descent Stmt) : Descent Stmt := do
  discard (consume (.punctuator .leftParen) .parenAfterIf)
  let condition ← expression fuel
  discard (consume (.punctuator .rightParen) .parenAfterIfCondition)
  let thenBranch ← statement
  if ← takes [.keyword .else_] then return .ifElse condition thenBranch (← statement)
  else return .ifThen condition thenBranch

def forInitializer : Descent (Option Stmt) := do
  if ← takes [.punctuator .semicolon] then return none
  else if ← takes [.keyword .var_] then return some (← variableDeclaration fuel)
  else return some (← expressionStatement fuel)

def forStatement (statement : Descent Stmt) : Descent Stmt := do
  discard (consume (.punctuator .leftParen) .parenAfterFor)
  let initializer ← forInitializer fuel
  let condition ← optionalExpression fuel (.punctuator .semicolon)
  discard (consume (.punctuator .semicolon) .semicolonAfterLoopCondition)
  let increment ← optionalExpression fuel (.punctuator .rightParen)
  discard (consume (.punctuator .rightParen) .parenAfterForClauses)
  return .forLoop initializer condition increment (← statement)

def statementWith (statement : Descent Stmt) (block : Descent (List Stmt)) : Descent Stmt := do
  if ← takes [.keyword .for_] then forStatement fuel statement
  else if ← takes [.keyword .if_] then ifStatement fuel statement
  else if ← takes [.keyword .print_] then printStatement fuel
  else if ← takes [.keyword .return_] then returnStatement fuel
  else if ← takes [.keyword .while_] then whileStatement fuel statement
  else if ← takes [.punctuator .leftBrace] then return .block (← block)
  else expressionStatement fuel

/-- The parameters of a function and the parenthesis that closes them. -/
def parameters : Descent (List Token) := do
  let params ← items .tooManyParameters (consume .identifier .parameterName) fuel
  discard (consume (.punctuator .rightParen) .parenAfterParameters)
  return params

def functionDeclaration (block : Descent (List Stmt)) : Descent Stmt := do
  let name ← consume .identifier .functionName
  discard (consume (.punctuator .leftParen) .parenAfterFunctionName)
  let params ← parameters fuel
  discard (consume (.punctuator .leftBrace) .braceBeforeBody)
  return .function name params (← block)

def declarationWith (statement : Descent Stmt) (block : Descent (List Stmt)) : Descent Stmt := do
  if ← takes [.keyword .fun_] then functionDeclaration fuel block
  else if ← takes [.keyword .var_] then variableDeclaration fuel
  else statementWith fuel statement block

/-- Reports a faulty statement and goes on behind it. -/
def recovering (rule : Descent Stmt) : Descent (Option Stmt) :=
  tryCatch (some <$> rule) fun d => do
    report d
    synchronize fuel
    return none

def declarationsUntil (closing : List Kind) (declaration : Descent (Option Stmt)) :
    Nat → List Stmt → Descent (List Stmt)
  | 0, _ => spent
  | fuel + 1, statements => do
    if ← closes closing then return statements
    else
      let stmt ← declaration
      declarationsUntil closing declaration fuel (statements ++ stmt.toList)

def blockOf (declaration : Descent (Option Stmt)) : Descent (List Stmt) := do
  let body ← declarationsUntil [.punctuator .rightBrace] declaration fuel []
  discard (consume (.punctuator .rightBrace) .braceAfterBlock)
  return body

end Statements

mutual

def statement : Nat → Descent Stmt
  | 0 => spent
  | fuel + 1 => statementWith fuel (statement fuel) (blockOf fuel (declaration fuel))

/-- A declaration, or nothing if it is faulty. -/
def declaration : Nat → Descent (Option Stmt)
  | 0 => spent
  | fuel + 1 =>
    recovering fuel (declarationWith fuel (statement fuel) (blockOf fuel (declaration fuel)))

end

/-- All declarations up to the end mark. -/
def program (fuel : Nat) : Descent (List Stmt) :=
  declarationsUntil [] (declaration fuel) fuel []

/-- An expression that is the whole text; a report made on the way spoils it in the end. -/
def soleExpression (fuel : Nat) : Descent Expr := do
  let e ← expression fuel
  if ← isAtEnd then
    match (← get).reports with
    | d :: _ => throw d
    | [] => return e
  else fail (.expected .endOfExpression)

end Descent

end TreeWalk
