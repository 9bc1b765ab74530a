import TreeWalk.Program
import TreeWalk.Proofs.Grammar.Shift
import TreeWalk.Proofs.Resolution.Shift
import TreeWalk.Proofs.Source.Seam

/-! One text made ready twice, with identities drawn from different places on, gives the same
program but for its identities. -/

namespace TreeWalk.Program

/-- One program is another one with higher identities. -/
structure Shifted (σ : Shift) (p p' : Program) : Prop where
  statements : p'.statements = p.statements.map σ.stmt
  errors : p'.errors = p.errors
  nextId : p'.nextId = σ.node p.nextId
  hops : ∀ id, p'.resolution.hops[σ.node id]? = p.resolution.hops[id]?
  size : p'.resolution.hops.size = p.resolution.hops.size

theorem exists_isEnd (source : String) : ∃ t ∈ Source.tokens source, t.isEnd = true := by
  obtain ⟨line, htokens, -⟩ := Source.tokens_eq source
  rw [htokens]
  exact ⟨_, List.mem_append_right _ (List.mem_singleton_self _), rfl⟩

theorem ofSource_shifted (σ : Shift) (hlines : σ.lines = 0) (source : String) (n : NodeId) :
    Shifted σ (ofSource source n) (ofSource source (σ.node n)) := by
  -- The tokens are the same, so only the identities differ.
  have hkept {ts : List Token} : ts.map σ.token = ts :=
    (List.map_congr_left fun t _ => σ.token_eq hlines t).trans (List.map_id ts)
  have hreports (ds : List Diagnostic) : ds.map σ.diagnostic = ds :=
    (List.map_congr_left fun d _ => σ.diagnostic_eq hlines d).trans (List.map_id ds)
  have hparsed := parseProgram_shift (n := n) σ (exists_isEnd source)
  rw [hkept, hreports] at hparsed
  have hstatements : (ofSource source (σ.node n)).statements =
      (ofSource source n).statements.map σ.stmt := congrArg Parsed.statements hparsed
  have hhops := hops_shift σ (ofSource source n).statements
  rw [← hstatements] at hhops
  have hnextId : (ofSource source (σ.node n)).nextId = σ.node (ofSource source n).nextId :=
    congrArg Parsed.nextId hparsed
  refine ⟨hstatements, ?_, hnextId, hhops.1, hhops.2⟩
  have hsyntactic : (ofSource source (σ.node n)).syntacticErrors =
      (ofSource source n).syntacticErrors := by
    change (parseProgram (Source.tokens source) (σ.node n)).errors = _
    rw [hparsed]
    rfl
  have hscoping : (ofSource source (σ.node n)).resolution.errors =
      (ofSource source n).resolution.errors := by
    change (resolve (ofSource source (σ.node n)).statements).errors = _
    rw [hstatements, resolve_shift]
    exact hreports _
  rw [errors, errors, hsyntactic, hscoping]
  rfl

/-- The reports on a text do not depend on where its identities are drawn from. -/
theorem errors_eq (source : String) (n n' : NodeId) :
    (ofSource source n).errors = (ofSource source n').errors := by
  have hzero (n : NodeId) : (ofSource source n).errors = (ofSource source 0).errors := by
    have herrors := (ofSource_shifted ⟨n, 0⟩ rfl source 0).errors
    rwa [Shift.node, Nat.zero_add] at herrors
  rw [hzero n, hzero n']

end TreeWalk.Program
