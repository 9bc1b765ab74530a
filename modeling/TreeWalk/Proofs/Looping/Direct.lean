import TreeWalk.Machine.Eval
import TreeWalk.Proofs.Grammar.ExpressionCompleteness
import TreeWalk.Proofs.Grammar.Trees
import TreeWalk.Proofs.Syntax.Shift

/-! What a loop with initializer, condition and increment does, told from its clauses, without the
blocks and the while loop that stand for it in a tree. -/

namespace TreeWalk

/-- A for statement. Its body may stand where no declaration may. -/
structure ForLoop where
  initializer : Option Stmt
  condition : Option Expr
  increment : Option Expr
  body : Stmt
  isDeclaration_body : body.isDeclaration = false
  regular_body : body.Regular

namespace ForLoop

variable (l : ForLoop)

/-- The tree that stands for the loop. -/
def tree : Stmt :=
  .forLoop l.initializer l.condition l.increment l.body

/-- The clauses and the body in the order in which a round comes upon them. In a block of their own
the resolver finds the variables of a loop that has one scope for all of these. -/
def clauses : List Stmt :=
  l.initializer.toList ++ (l.condition.toList.map .expression ++
    (l.body :: l.increment.toList.map .expression))

/-- The same loop with other identities and lines. -/
def shift (σ : Shift) : ForLoop where
  initializer := l.initializer.map σ.stmt
  condition := l.condition.map σ.expr
  increment := l.increment.map σ.expr
  body := σ.stmt l.body
  isDeclaration_body := by rw [Shift.stmt, Stmt.isDeclaration_map, l.isDeclaration_body]
  regular_body := Stmt.regular_map l.regular_body

theorem tree_shift (σ : Shift) : (l.shift σ).tree = σ.stmt l.tree :=
  (Stmt.map_forLoop ..).symm

theorem clauses_shift (σ : Shift) : (l.shift σ).clauses = l.clauses.map σ.stmt := by
  rw [clauses, clauses, shift]
  cases l.initializer <;> cases l.condition <;> cases l.increment <;> rfl

/-- The clauses have the variables of the tree, in the same order. -/
theorem ids_clauses : (Stmt.block l.clauses).ids = l.tree.ids := by
  rw [clauses, tree]
  cases l.initializer <;> cases l.condition <;> cases l.increment <;>
    simp [Stmt.ids, Stmt.idsOfAll, Stmt.forLoop, Expr.ids]

section Execution

variable (limit : Nat) (run : Region → Run Flow)

/-- Whether another round begins. A missing condition is met. -/
def holds : Run Bool :=
  match l.condition with
  | some e => do return (← e.eval .resolved run).truthy
  | none => return true

def advance : Run Unit :=
  match l.increment with
  | some e => discard (e.eval .resolved run)
  | none => return

/-- Executes the body, and after a body that ends normally, but after no other, the increment. -/
def pass : Run Flow := do
  match ← l.body.exec .resolved limit run with
  | .normal =>
    l.advance run
    return .normal
  | .returned v => return .returned v

/-- One round, or nothing if the condition ends the loop. -/
def round : Run (Option Flow) := do
  if ← l.holds run then return some (← l.pass limit run) else return none

/-- Executes the loop: in one new frame, the initializer once, and then round after round. -/
def exec : Run Flow := do
  Run.inNewFrame [] (← get).scope do
    match ← Stmt.execAll .resolved limit run l.initializer.toList with
    | .normal => Run.iterate (l.round limit run) limit
    | .returned v => return .returned v

end Execution

end ForLoop

namespace Grammar

/-- Every statement that starts with `for` is one of these loops. -/
theorem Statement.exists_forLoop {attachment : Attachment} {n n' : Nat} {t : Token}
    {ts : List Token} {s : Stmt} {dangling : Bool}
    (h : Statement attachment n (t :: ts) s dangling n') (ht : t.kind = .keyword .for_) :
    ∃ l : ForLoop, l.tree = s := by
  generalize hts : t :: ts = ts' at h
  cases h with
  | expression h =>
    obtain ⟨h, -⟩ := h
    obtain ⟨first, ts₁, rfl, hstart, -⟩ := h.head
    obtain rfl := (List.cons.inj hts).1
    rw [ht] at hstart
    cases hstart
  | forLoop _ _ _ _ _ _ _ hbody htree =>
    obtain ⟨hdeclaration, hregular⟩ := hbody.not_declaration
    exact ⟨⟨_, _, _, _, hdeclaration, hregular⟩, (loopTree_iff.mp htree).symm⟩
  | print hk | returnFrom hk | whileLoop hk | ifThen hk | ifElse hk | block hk =>
    obtain rfl := (List.cons.inj hts).1
    rw [ht] at hk
    cases hk

end Grammar

end TreeWalk
