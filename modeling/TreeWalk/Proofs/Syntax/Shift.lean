import TreeWalk.Diagnostic
import TreeWalk.Proofs.Syntax.Tree

/-! Programs that come later: the same tokens on lines further down, and the same trees with higher
identities. -/

namespace TreeWalk

/-- By how much identities and lines go up. -/
structure Shift where
  ids : Nat
  lines : Nat

namespace Shift

variable (σ : Shift)

def node (id : NodeId) : NodeId :=
  id + σ.ids

def token (t : Token) : Token :=
  { t with line := t.line + σ.lines }

def expr (e : Expr) : Expr :=
  e.map σ.node σ.token

def stmt (s : Stmt) : Stmt :=
  s.map σ.node σ.token

/-- A report on a program that comes later. -/
def diagnostic : Diagnostic → Diagnostic
  | .lexical line cause => .lexical (line + σ.lines) cause
  | .syntactic t cause => .syntactic (σ.token t) cause
  | .scoping t cause => .scoping (σ.token t) cause
  | .runtime t cause => .runtime (σ.token t) cause
  | .sink cause => .sink cause

/-- A result on a program that comes later, where `g` tells what becomes of a good one. -/
def result {α β : Type} (g : α → β) : Except Diagnostic α → Except Diagnostic β
  | .ok a => .ok (g a)
  | .error d => .error (σ.diagnostic d)

/-- Without a change of lines tokens stay what they are. -/
theorem token_eq (h : σ.lines = 0) (t : Token) : σ.token t = t := by
  rw [token, h]
  rfl

theorem diagnostic_eq (h : σ.lines = 0) (d : Diagnostic) : σ.diagnostic d = d := by
  cases d with
  | lexical line cause => rw [diagnostic, h, Nat.add_zero]
  | syntactic t cause | scoping t cause | runtime t cause => rw [diagnostic, σ.token_eq h]
  | sink cause => rfl

end Shift

end TreeWalk
