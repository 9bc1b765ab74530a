import TreeWalk.Number.Numeral
import TreeWalk.Token.Basic

/-!
Diagnostics: what was wrong, where, and the text that reports it.
-/

namespace TreeWalk

inductive LexicalCause where
  | strayCharacter (c : Char)
  | unterminatedString
  | worded (message : String)
  deriving DecidableEq

/-- What the grammar called for where something else stood. -/
inductive Expectation where
  | expression
  | endOfExpression
  | functionName
  | parenAfterFunctionName
  | parameterName
  | parenAfterParameters
  | braceBeforeBody
  | variableName
  | semicolonAfterDeclaration
  | parenAfterFor
  | semicolonAfterLoopCondition
  | parenAfterForClauses
  | parenAfterIf
  | parenAfterIfCondition
  | parenAfterWhile
  | parenAfterCondition
  | semicolonAfterValue
  | semicolonAfterReturnValue
  | semicolonAfterExpression
  | braceAfterBlock
  | parenAfterArguments
  | parenAfterExpression
  deriving DecidableEq, Repr

inductive SyntacticCause where
  | expected (what : Expectation)
  | invalidAssignmentTarget
  | tooManyArguments
  | tooManyParameters
  | worded (message : String)
  deriving DecidableEq

inductive ScopingCause where
  | ownInitializer
  | topLevelReturn
  | worded (message : String)
  deriving DecidableEq

inductive RuntimeCause where
  | undefinedVariable (name : String)
  | operandNotNumber
  | operandsNotNumbers
  | operandsNotAddable
  | divisionByZero
  | invalidUnaryOperator
  | invalidBinaryOperator
  | notCallable
  | argumentCount (expected got : Nat)
  /-- A failure that a host function reports in its own words. -/
  | host (message : String)
  deriving DecidableEq

/-- Why the sink that printed text goes to refused it. -/
inductive SinkFailure where
  | full
  | flush
  | worded (message : String)
  deriving DecidableEq

inductive Diagnostic where
  | lexical (line : Nat) (cause : LexicalCause)
  | syntactic (token : Token) (cause : SyntacticCause)
  | scoping (token : Token) (cause : ScopingCause)
  | runtime (token : Token) (cause : RuntimeCause)
  | sink (cause : SinkFailure)
  deriving DecidableEq

def LexicalCause.message : LexicalCause → String
  | strayCharacter c => "Unexpected character: " ++ String.ofList [c]
  | unterminatedString => "Unterminated string."
  | worded message => message

def Expectation.message : Expectation → String
  | expression => "Expected expression."
  | endOfExpression => "Expected end of expression."
  | functionName => "Expected function name."
  | parenAfterFunctionName => "Expected '(' after function name."
  | parameterName => "Expected parameter name."
  | parenAfterParameters => "Expected ')' after parameters."
  | braceBeforeBody => "Expected '\x7b' before function body."
  | variableName => "Expected variable name."
  | semicolonAfterDeclaration => "Expected ';' after variable declaration."
  | parenAfterFor => "Expected '(' after 'for'."
  | semicolonAfterLoopCondition => "Expected ';' after loop condition."
  | parenAfterForClauses => "Expected ')' after for clauses."
  | parenAfterIf => "Expected '(' after 'if'."
  | parenAfterIfCondition => "Expected ')' after if condition."
  | parenAfterWhile => "Expected '(' after 'while'."
  | parenAfterCondition => "Expected ')' after condition."
  | semicolonAfterValue => "Expected ';' after value."
  | semicolonAfterReturnValue => "Expected ';' after return value."
  | semicolonAfterExpression => "Expected ';' after expression."
  | braceAfterBlock => "Expected '\x7d' after block."
  | parenAfterArguments => "Expected ')' after arguments."
  | parenAfterExpression => "Expected ')' after expression."

def SyntacticCause.message : SyntacticCause → String
  | expected what => what.message
  | invalidAssignmentTarget => "Invalid assignment target."
  | tooManyArguments => "Can't have more than 255 arguments."
  | tooManyParameters => "Can't have more than 255 parameters."
  | worded message => message

def ScopingCause.message : ScopingCause → String
  | ownInitializer => "Can't read local variable in its own initializer."
  | topLevelReturn => "Can't return from top-level code."
  | worded message => message

def RuntimeCause.message : RuntimeCause → String
  | undefinedVariable name => "Undefined variable '" ++ name ++ "'."
  | operandNotNumber => "Operand must be a number."
  | operandsNotNumbers => "Operands must be numbers."
  | operandsNotAddable => "Operands must be two numbers or two strings."
  | divisionByZero => "Division by zero."
  | invalidUnaryOperator => "Invalid unary operator."
  | invalidBinaryOperator => "Invalid binary operator."
  | notCallable => "Can only call functions."
  | argumentCount expected got =>
    "Expected " ++ Numeral.ofNat expected ++ " arguments but got " ++ Numeral.ofNat got ++ "."
  | host message => message

def SinkFailure.message : SinkFailure → String
  | full => "sink full"
  | flush => "flush failed"
  | worded message => message

namespace Diagnostic

/-- The message without its place. -/
def message : Diagnostic → String
  | lexical _ cause => cause.message
  | syntactic _ cause => cause.message
  | scoping _ cause => cause.message
  | runtime _ cause => cause.message
  | sink cause => cause.message

def line? : Diagnostic → Option Nat
  | lexical line _ => some line
  | syntactic token _ => some token.line
  | scoping token _ => some token.line
  | runtime token _ => some token.line
  | sink _ => none

/-- The end mark is named as such, any other token is quoted. -/
def place (token : Token) : String :=
  if token.isEnd then " at end" else " at '" ++ token.lexeme ++ "'"

def located (line : Nat) (place message : String) : String :=
  "[line " ++ Numeral.ofNat line ++ "] Error" ++ place ++ ": " ++ message

/-- The full text of a report. A failure of the sink has no place in the program. -/
def text : Diagnostic → String
  | lexical line cause => located line "" cause.message
  | syntactic token cause => located token.line (place token) cause.message
  | scoping token cause => located token.line (place token) cause.message
  | runtime token cause => located token.line (place token) cause.message
  | sink cause => cause.message

/-- The texts of several reports, one per line. -/
def report (ds : List Diagnostic) : String :=
  String.intercalate "\n" (ds.map text)

end Diagnostic

end TreeWalk
