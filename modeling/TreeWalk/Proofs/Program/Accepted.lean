import TreeWalk.Program
import TreeWalk.Proofs.Grammar.Trees
import TreeWalk.Proofs.Resolution.Sites

/-! Programs without reports: their statements are derived by the grammar, their identities come
from a range of their own, and the table of hop counts records what was found for each of them. -/

namespace TreeWalk
open Grammar

theorem Cursor.isEnd_stopOf (tokens : List Token) : (stopOf tokens).isEnd = true := by
  unfold stopOf
  cases h : tokens.find? Token.isEnd with
  | none => rfl
  | some t => exact List.find?_some h

/-- Whatever is parsed, identities drawn before are not drawn again. -/
theorem le_parseProgram_nextId (tokens : List Token) (n : Nat) :
    n ≤ (parseProgram tokens n).nextId :=
  Rule.program_grows.nextId (Cursor.ofTokens tokens n)

theorem parseProgram_derived {tokens : List Token} {n : Nat}
    (h : (parseProgram tokens n).errors = []) :
    ∃ ts, Declarations .nearest n ts (parseProgram tokens n).statements
      (parseProgram tokens n).nextId := by
  have hclean : Rule.Clean (liftM Rule.program) (Cursor.ofTokens tokens n)
      (parseProgram tokens n).statements (Rule.program (Cursor.ofTokens tokens n)).2 :=
    ⟨Rule.liftM_apply _ _, h, Cursor.isEnd_stopOf tokens⟩
  exact ⟨_, (Rule.program_sound hclean).2⟩

namespace Program

variable {source : String} {n : Nat}

theorem errors_eq_nil {p : Program} (h : p.errors = []) :
    p.lexicalErrors = [] ∧ p.syntacticErrors = [] ∧ p.resolution.errors = [] := by
  simpa only [errors, List.append_eq_nil_iff, and_assoc] using h

theorem le_nextId (source : String) (n : Nat) : n ≤ (ofSource source n).nextId :=
  le_parseProgram_nextId _ _

theorem derived (h : (ofSource source n).errors = []) :
    ∃ ts, Declarations .nearest n ts (ofSource source n).statements (ofSource source n).nextId :=
  parseProgram_derived (errors_eq_nil h).2.1

theorem drawn (h : (ofSource source n).errors = []) :
    Drawn n (ofSource source n).ids (ofSource source n).nextId := by
  obtain ⟨ts, hts⟩ := derived h
  exact hts.drawn

theorem hops_eq_none {id : Nat} (h : id ∉ (ofSource source n).ids) :
    (ofSource source n).resolution.hops[id]? = none :=
  resolve_hops_of_not_mem h

/-- The table of a program says nothing of identities that were drawn before. -/
theorem hops_of_lt (h : (ofSource source n).errors = []) {id : NodeId} (hid : id < n) :
    (ofSource source n).resolution.hops[id]? = none :=
  hops_eq_none fun hmem => Nat.not_lt.mpr ((drawn h).within id hmem).1 hid

/-- The hop counts of a program do not disturb those of identities drawn before. -/
theorem union_of_lt (h : (ofSource source n).errors = []) (table : HopTable) {id : NodeId}
    (hid : id < n) : (table ∪ (ofSource source n).resolution.hops)[id]? = table[id]? := by
  rw [Std.TreeMap.getElem?_union, hops_of_lt h hid, Option.none_or]

/-- The whole text stands outside of all regions and scopes. -/
theorem hasBody (h : (ofSource source n).errors = []) :
    (ofSource source n).HasBody [] false [] (ofSource source n).statements := by
  obtain ⟨ts, hts⟩ := derived h
  refine ⟨?_, hts.regular, fun f hf => ?_, fun site hs => hs, fun place hs => hs, ?_⟩
  · intro scope hs
    cases hs
  rotate_left
  · intro r hr
    cases hr
  cases f with
  | reference r =>
    refine ⟨?_, resolve_hops hts.drawn.nodup hf⟩
    rw [ids, ← Stmt.ids_findingsOfAll false []]
    exact List.mem_map_of_mem (List.mem_filterMap.mpr ⟨_, hf, rfl⟩)
  | error d =>
    have hd : d ∈ (ofSource source n).resolution.errors := List.mem_filterMap.mpr ⟨_, hf, rfl⟩
    rw [(errors_eq_nil h).2.2] at hd
    cases hd

end Program

end TreeWalk
