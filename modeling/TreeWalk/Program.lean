import TreeWalk.Grammar.Parse
import TreeWalk.Resolution
import TreeWalk.Source.Scan

/-!
Source texts made ready to run.
-/

namespace TreeWalk

/-- A scanned, parsed and resolved text, with all reports on it. -/
structure Program where
  statements : List Stmt
  lexicalErrors : List Diagnostic
  syntacticErrors : List Diagnostic
  resolution : Resolution
  nextId : NodeId

namespace Program

/-- Scans, parses and resolves a text. Statements that parsed are resolved even if others did not
parse. -/
def ofSource (source : String) (nextId : NodeId) : Program :=
  let parsed := parseProgram (Source.tokens source) nextId
  { statements := parsed.statements
    lexicalErrors := Source.errors source
    syntacticErrors := parsed.errors
    resolution := resolve parsed.statements
    nextId := parsed.nextId }

/-- All reports: lexical ones first, then syntactic ones, then those on scoping. -/
def errors (p : Program) : List Diagnostic :=
  p.lexicalErrors ++ p.syntacticErrors ++ p.resolution.errors

end Program

end TreeWalk
