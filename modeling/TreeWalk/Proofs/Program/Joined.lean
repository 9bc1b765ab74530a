import TreeWalk.Proofs.Grammar.Acceptance
import TreeWalk.Proofs.Program.Accepted
import TreeWalk.Proofs.Program.Shift

/-! Two texts that are fine by themselves are fine with a line break between them, and make one
program: the statements of the first and then those of the second, on lines further down. -/

namespace TreeWalk
open Grammar

/-- Derivations of two programs, the second with the identities that follow, make one of both. -/
theorem Grammar.Declarations.append {attachment : Attachment} {n n₁ n' : Nat} {ts ts' : List Token}
    {body body' : List Stmt} (h : Declarations attachment n ts body n₁)
    (h' : Declarations attachment n₁ ts' body' n') :
    Declarations attachment n (ts ++ ts') (body ++ body') n' := by
  match h with
  | .nil => exact h'
  | .cons hfirst hothers =>
    have hrest := hothers.append h'
    rw [List.append_assoc]
    exact .cons hfirst hrest

namespace Program

/-- How the program of two texts comes from the programs of each, where the first draws identities
from `n` on and the second those that follow. -/
structure Joins (σ : Shift) (n : NodeId) (first rest whole : Program) : Prop where
  drawn : Drawn n first.ids first.nextId
  drawn_rest : Drawn first.nextId rest.ids rest.nextId
  hops_rest : ∀ id < first.nextId, rest.resolution.hops[id]? = none
  errors : whole.errors = []
  statements : whole.statements = first.statements ++ rest.statements.map σ.stmt
  nextId : whole.nextId = rest.nextId
  hops : ∀ id : NodeId,
    whole.resolution.hops[id]? = rest.resolution.hops[id]?.or first.resolution.hops[id]?

namespace Joins

variable {σ : Shift} {n : NodeId} {first rest whole : Program}

/-- Hop counts are the same whether they are taken in at once or in two parts. -/
theorem union (h : Joins σ n first rest whole) (table : HopTable) (id : NodeId) :
    (table ∪ whole.resolution.hops)[id]? =
      (table ∪ first.resolution.hops ∪ rest.resolution.hops)[id]? := by
  rw [Std.TreeMap.getElem?_union, Std.TreeMap.getElem?_union, Std.TreeMap.getElem?_union, h.hops,
    Option.or_assoc]

theorem size_union (h : Joins σ n first rest whole) (table : HopTable) :
    (table ∪ whole.resolution.hops).size =
      (table ∪ first.resolution.hops ∪ rest.resolution.hops).size :=
  (Std.TreeMap.Equiv.of_forall_constGet?_eq (h.union table)).size_eq

/-- Those of the second text do not disturb those of the first. -/
theorem union_of_lt (h : Joins σ n first rest whole) (table : HopTable) {id : NodeId}
    (hid : id < first.nextId) : (table ∪ rest.resolution.hops)[id]? = table[id]? := by
  rw [Std.TreeMap.getElem?_union, h.hops_rest id hid, Option.none_or]

end Joins

theorem parsed {source : String} {n : NodeId} (h : (ofSource source n).errors = []) :
    parseProgram (Source.tokens source) n =
      ⟨(ofSource source n).statements, [], (ofSource source n).nextId⟩ := by
  rw [← (errors_eq_nil h).2.1]
  rfl

/-- The tokens of a text without errors are derived by the grammar, also on lines further down. -/
theorem derives_shift (σ : Shift) {source : String} {n : NodeId}
    (h : (ofSource source n).errors = []) :
    Declarations .nearest (σ.node n) ((Source.tokens source).dropLast.map σ.token)
      ((ofSource source n).statements.map σ.stmt) (σ.node (ofSource source n).nextId) := by
  obtain ⟨line, htokens, hts⟩ := Source.tokens_eq source
  have hshifted := parseProgram_shift (n := n) σ (exists_isEnd source)
  rw [parsed h, htokens, List.map_append] at hshifted
  have hts' : ∀ t ∈ (Source.tokens source).dropLast.map σ.token, t.isEnd = false := by
    intro t ht
    obtain ⟨t₀, ht₀, rfl⟩ := List.mem_map.mp ht
    exact hts t₀ ht₀
  exact (parseProgram_eq_iff hts' rfl).mp hshifted

theorem derives {source : String} {n : NodeId} (h : (ofSource source n).errors = []) :
    Declarations .nearest n (Source.tokens source).dropLast (ofSource source n).statements
      (ofSource source n).nextId := by
  obtain ⟨line, htokens, hts⟩ := Source.tokens_eq source
  have hparsed := parsed h
  rw [htokens] at hparsed
  exact (parseProgram_eq_iff hts rfl).mp hparsed

theorem not_open {source : String} {n : NodeId} (h : (ofSource source n).errors = []) (line : Nat) :
    .lexical line .unterminatedString ∉ Source.errors source := by
  rw [show Source.errors source = [] from (errors_eq_nil h).1]
  exact List.not_mem_nil

/-- Nothing of the second text can be taken for the end of the first. -/
theorem parsed_joined {a b : String} {n : NodeId} (ha : (ofSource a n).errors = [])
    (hb : (ofSource b (ofSource a n).nextId).errors = []) :
    parseProgram (Source.tokens (a ++ "\n" ++ b)) n =
      ⟨(ofSource a n).statements ++
        (ofSource b (ofSource a n).nextId).statements.map (Source.below a).stmt, [],
        (ofSource b (ofSource a n).nextId).nextId⟩ := by
  obtain ⟨-, -, hts⟩ := Source.tokens_eq a
  obtain ⟨line, htokens, hts'⟩ := Source.tokens_eq b
  have hwhole := (derives ha).append (derives_shift (Source.below a) hb)
  rw [Source.tokens_seam (not_open ha), htokens, List.map_append, ← List.append_assoc]
  refine (parseProgram_eq_iff (fun t ht => ?_) rfl).mpr hwhole
  rcases List.mem_append.mp ht with ht | ht
  · exact hts t ht
  · obtain ⟨t₀, ht₀, rfl⟩ := List.mem_map.mp ht
    exact hts' t₀ ht₀

theorem ofSource_joins {a b : String} {n : NodeId} (ha : (ofSource a n).errors = [])
    (hb : (ofSource b (ofSource a n).nextId).errors = []) :
    Joins (Source.below a) n (ofSource a n) (ofSource b (ofSource a n).nextId)
      (ofSource (a ++ "\n" ++ b) n) := by
  have hparsed := parsed_joined ha hb
  have hstatements : (ofSource (a ++ "\n" ++ b) n).statements = (ofSource a n).statements ++
      (ofSource b (ofSource a n).nextId).statements.map (Source.below a).stmt :=
    congrArg Parsed.statements hparsed
  have hresolution : (ofSource (a ++ "\n" ++ b) n).resolution =
      resolve ((ofSource a n).statements ++
        (ofSource b (ofSource a n).nextId).statements.map (Source.below a).stmt) :=
    congrArg resolve hstatements
  have hnextId : (ofSource (a ++ "\n" ++ b) n).nextId =
      (ofSource b (ofSource a n).nextId).nextId := by
    change (parseProgram (Source.tokens (a ++ "\n" ++ b)) n).nextId = _
    rw [hparsed]
  refine ⟨drawn ha, drawn hb, fun id hid => hops_of_lt hb hid, ?_, hstatements, hnextId,
    fun id => ?_⟩
  · obtain ⟨hlexical, -, hscoping⟩ := errors_eq_nil ha
    obtain ⟨hlexical', -, hscoping'⟩ := errors_eq_nil hb
    have hwhole : (ofSource (a ++ "\n" ++ b) n).lexicalErrors = [] := by
      refine (Source.errors_seam (not_open ha)).trans ?_
      rw [show Source.errors a = [] from hlexical, show Source.errors b = [] from hlexical']
      rfl
    have hwhole' : (ofSource (a ++ "\n" ++ b) n).syntacticErrors = [] :=
      congrArg Parsed.errors hparsed
    rw [errors, hwhole, hwhole', hresolution, resolve_append, resolve_shift]
    rw [show (resolve (ofSource a n).statements).errors = [] from hscoping,
      show (resolve (ofSource b (ofSource a n).nextId).statements).errors = [] from hscoping']
    rfl
  · have hrest := (hops_shift (Source.below a)
      (ofSource b (ofSource a n).nextId).statements).1 id
    have hkept : (Source.below a).node id = id := rfl
    rw [hkept] at hrest
    rw [hresolution, getElem?_hops_append, hrest]
    rfl

end Program

end TreeWalk
