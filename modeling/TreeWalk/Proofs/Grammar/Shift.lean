import TreeWalk.Proofs.Grammar.Relabeling
import TreeWalk.Proofs.Syntax.Shift

/-! Parsing does not depend on where lines and identities start: the same tokens further down are
parsed to the same trees and reports further down. -/

namespace TreeWalk

variable {tokens : List Token} {n : NodeId}

/-- Tokens further down and higher identities, with no report made before. -/
def Shift.relabeling (σ : Shift) : Relabeling where
  node := σ.node
  node_succ n := Nat.add_right_comm n 1 σ.ids
  line line := line + σ.lines
  prior := []

theorem Shift.diagnostic_relabeling (σ : Shift) : σ.relabeling.diagnostic = σ.diagnostic := by
  funext d
  cases d <;> rfl

/-- The same tokens further down are parsed to the same statements and reports further down. -/
theorem parseProgram_shift (σ : Shift) (hend : ∃ t ∈ tokens, t.isEnd = true) :
    parseProgram (tokens.map σ.token) (σ.node n) =
      ⟨(parseProgram tokens n).statements.map σ.stmt,
        (parseProgram tokens n).errors.map σ.diagnostic, σ.node (parseProgram tokens n).nextId⟩ := by
  rw [← σ.diagnostic_relabeling]
  exact parseProgram_relabel (σ := σ.relabeling) rfl hend

end TreeWalk
