import Std.Data.TreeMap
import TreeWalk.Diagnostic
import TreeWalk.Syntax.Basic

/-!
Lexical scoping: for every variable read or written, how many scopes outward its binding lies, and
the reports on programs that break a scoping rule.
-/

namespace TreeWalk

/-- The names that a scope declares so far, latest first, and whether each one is ready to read. -/
abbrev Scope := List (String × Bool)

namespace Scope

/-- Adds a name to the innermost scope. Outside of all scopes nothing is kept. -/
def note (name : Token) (ready : Bool) : List Scope → List Scope
  | [] => []
  | scope :: outer => ((name.lexeme, ready) :: scope) :: outer

/-- How many scopes outward a name is found. -/
def hops? (scopes : List Scope) (name : String) : Option Nat :=
  scopes.findIdx? fun scope => (scope.lookup name).isSome

/-- Whether the innermost scope is still evaluating the initializer of a name. -/
def inInitializer (scopes : List Scope) (name : String) : Bool :=
  (scopes.head?.bind (List.lookup name)) = some false

end Scope

inductive Access where
  | read
  | write
  deriving DecidableEq, Repr

/-- A variable read or written in a program. A global has no hop count. -/
structure Reference where
  access : Access
  id : NodeId
  name : Token
  hops : Option Nat

/-- What the walk over a program comes upon. -/
inductive Finding where
  | reference (r : Reference)
  | error (d : Diagnostic)

namespace Expr

mutual

/-- References and errors in the order of evaluation: a value before the variable it is assigned
to, a callee before its arguments. -/
def findings (scopes : List Scope) : Expr → List Finding
  | literal _ => []
  | grouping inner => findings scopes inner
  | unary _ right => findings scopes right
  | binary left _ right => findings scopes left ++ findings scopes right
  | logical left _ right => findings scopes left ++ findings scopes right
  | var id name =>
    let found := .reference ⟨.read, id, name, Scope.hops? scopes name.lexeme⟩
    if Scope.inInitializer scopes name.lexeme then
      [.error (.scoping name .ownInitializer), found]
    else [found]
  | assign id name value =>
    findings scopes value ++ [.reference ⟨.write, id, name, Scope.hops? scopes name.lexeme⟩]
  | call callee _ arguments => findings scopes callee ++ findingsOfAll scopes arguments

def findingsOfAll (scopes : List Scope) : List Expr → List Finding
  | [] => []
  | e :: es => findings scopes e ++ findingsOfAll scopes es

end

end Expr

namespace Stmt

def findingsOfOption (scopes : List Scope) (e : Option Expr) : List Finding :=
  (e.map (Expr.findings scopes)).getD []

mutual

/-- The scopes after a statement and what it contains. A declaration is noted as unready while its
initializer is walked; a function's name is ready for its own body, and its parameters share a
scope with the top of the body. -/
def findings (inFunction : Bool) (scopes : List Scope) : Stmt → List Scope × List Finding
  | expression e => (scopes, e.findings scopes)
  | print e => (scopes, e.findings scopes)
  | declare name initializer =>
    let noted := Scope.note name false scopes
    (Scope.note name true noted, findingsOfOption noted initializer)
  | block body => (scopes, (findingsOfAll inFunction ([] :: scopes) body).2)
  | ifThen condition thenBranch =>
    let (scopes', found) := findings inFunction scopes thenBranch
    (scopes', condition.findings scopes ++ found)
  | ifElse condition thenBranch elseBranch =>
    let (scopes₁, found₁) := findings inFunction scopes thenBranch
    let (scopes₂, found₂) := findings inFunction scopes₁ elseBranch
    (scopes₂, condition.findings scopes ++ found₁ ++ found₂)
  | whileLoop condition body =>
    let (scopes', found) := findings inFunction scopes body
    (scopes', condition.findings scopes ++ found)
  | function name params body =>
    let outer := Scope.note name true scopes
    let inner := params.foldl (fun scopes p => Scope.note p true scopes) ([] :: outer)
    (outer, (findingsOfAll true inner body).2)
  | returnFrom keyword value =>
    let misplaced := if inFunction then [] else [.error (.scoping keyword .topLevelReturn)]
    (scopes, misplaced ++ findingsOfOption scopes value)

def findingsOfAll (inFunction : Bool) (scopes : List Scope) : List Stmt → List Scope × List Finding
  | [] => (scopes, [])
  | s :: ss =>
    let (scopes₁, found₁) := findings inFunction scopes s
    let (scopes₂, found₂) := findingsOfAll inFunction scopes₁ ss
    (scopes₂, found₁ ++ found₂)

end

end Stmt

/-- Hop counts of the references that are not to globals. -/
abbrev HopTable := Std.TreeMap NodeId Nat

/-- The outcome of resolving a program, both lists in the order of the walk. -/
structure Resolution where
  references : List Reference
  errors : List Diagnostic

namespace Finding

def reference? : Finding → Option Reference
  | reference r => some r
  | error _ => none

def error? : Finding → Option Diagnostic
  | reference _ => none
  | error d => some d

end Finding

def resolve (program : List Stmt) : Resolution :=
  let found := (Stmt.findingsOfAll false [] program).2
  ⟨found.filterMap Finding.reference?, found.filterMap Finding.error?⟩

def Reference.record (table : HopTable) (r : Reference) : HopTable :=
  match r.hops with
  | some n => table.insert r.id n
  | none => table

def Resolution.hops (r : Resolution) : HopTable :=
  r.references.foldl Reference.record ∅

end TreeWalk
