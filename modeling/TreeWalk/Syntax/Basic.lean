import TreeWalk.Token.Basic

/-!
Syntax trees of expressions and statements. Variable reads and writes carry an identity of their
own, under which a later analysis may note where the variable is found.
-/

namespace TreeWalk

abbrev NodeId := Nat

inductive Expr where
  | literal (value : Literal)
  | grouping (inner : Expr)
  | unary (operator : Token) (right : Expr)
  | binary (left : Expr) (operator : Token) (right : Expr)
  /-- Evaluates its right side only if the left one does not settle the result. -/
  | logical (left : Expr) (operator : Token) (right : Expr)
  | var (id : NodeId) (name : Token)
  | assign (id : NodeId) (name : Token) (value : Expr)
  /-- The closing parenthesis is where a failing call is reported. -/
  | call (callee : Expr) (paren : Token) (arguments : List Expr)

inductive Stmt where
  | expression (e : Expr)
  | print (e : Expr)
  | declare (name : Token) (initializer : Option Expr)
  | block (body : List Stmt)
  | ifThen (condition : Expr) (thenBranch : Stmt)
  | ifElse (condition : Expr) (thenBranch elseBranch : Stmt)
  | whileLoop (condition : Expr) (body : Stmt)
  | function (name : Token) (params : List Token) (body : List Stmt)
  | returnFrom (keyword : Token) (value : Option Expr)

/-- A part of a program that has a scope of its own: the inside of a block, or the body of a
function together with its parameters. -/
structure Region where
  params : List Token
  body : List Stmt

/-- A loop with initializer, condition and increment, built from blocks and a while loop: the
initializer runs once in a scope around the loop, the increment after each round of the body, and
a missing condition always holds. -/
def Stmt.forLoop (initializer : Option Stmt) (condition increment : Option Expr) (body : Stmt) :
    Stmt :=
  let round :=
    match increment with
    | some e => .block [body, .expression e]
    | none => body
  let loop := .whileLoop (condition.getD (.literal (.bool true))) round
  match initializer with
  | some s => .block [s, loop]
  | none => loop

end TreeWalk
