import TreeWalk.Number.Numeral
import TreeWalk.Syntax.Basic

/-!
The outline of an expression: every operation in parentheses, operator first.
-/

namespace TreeWalk

def Literal.outline : Literal → String
  | .nil => "nil"
  | .bool true => "true"
  | .bool false => "false"
  | .number x => Numeral.ofOutline x
  | .string s => s

namespace Expr

/-- An operation and its operands, each after a blank. -/
def parenthesized (head : String) (operands : List String) : String :=
  "(" ++ String.intercalate " " (head :: operands) ++ ")"

mutual

def outline : Expr → String
  | literal value => value.outline
  | grouping inner => parenthesized "group" [outline inner]
  | unary operator right => parenthesized operator.lexeme [outline right]
  | binary left operator right => parenthesized operator.lexeme [outline left, outline right]
  | logical left operator right => parenthesized operator.lexeme [outline left, outline right]
  | var _ name => name.lexeme
  | assign _ name value => parenthesized ("= " ++ name.lexeme) [outline value]
  | call callee _ arguments => parenthesized "call" (outline callee :: outlines arguments)

def outlines : List Expr → List String
  | [] => []
  | e :: es => outline e :: outlines es

end

end Expr

end TreeWalk
